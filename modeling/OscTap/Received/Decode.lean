/-
  OscTap.Received.Decode — reading an encoded packet in place.

  `At m p t.enc`: the encoding of `t` lies at offset `p` of the buffer. `ReadsAs` says of a
  full read that it saw `t`: each message with its address and its arguments in order, as
  many as its tag string counts, and, where the argument stream has an operator for every
  tag, the same from the stream, up to the terminator; each bundle with its time tag and its
  elements.

  Proved: `readPacket_enc`: a full read of an encoded sendable packet sees that packet.
-/
import OscTap.Received.Encoded
import OscTap.Received.ReadSafety

namespace OscTap.Received

open OscTap.Lib OscTap.Lib.Out OscTap.Osc

/-! ## The argument stream, tag by tag -/

/-- The tags that `ReceivedMessageArgumentStream` has an operator for. -/
def Streamable : TypeTag → Prop
  | .nilTag | .infinitumTag | .arrayBeginTag | .arrayEndTag => False
  | _ => True

open ReceivedMessageArgument in
/-- The checked accessor behind the operator of a tag's type, and what it points to. -/
def readAs (m : Bytes) (t : TypeTag) (a : ReceivedMessageArgument) : Out Exn ArgValue :=
  match t with
  | .trueTag | .falseTag => .bool <$> a.asBool m
  | .int32Tag => .int32 <$> a.asInt32 m
  | .floatTag => .float <$> a.asFloat m
  | .charTag => .char <$> a.asChar m
  | .rgbaColorTag => .rgbaColor <$> a.asRgbaColor m
  | .midiMessageTag => .midiMessage <$> a.asMidiMessage m
  | .int64Tag => .int64 <$> a.asInt64 m
  | .timeTagTag => .timeTag <$> a.asTimeTag m
  | .doubleTag => .double <$> a.asDouble m
  | .stringTag => do
    let p ← a.asString m
    .string <$> rdCString m p
  | .symbolTag => do
    let p ← a.asSymbol m
    .symbol <$> rdCString m p
  | .blobTag => do
    let b ← a.asBlob m
    .blob <$> readBlob m b
  | .nilTag | .infinitumTag | .arrayBeginTag | .arrayEndTag => err .wrongArgumentType

/-- `args >> a₁ >> .. >> aₙ >> EndMessage`, for operands of the types of some tags. -/
def extractAll (m : Bytes) : List TypeTag → ReceivedMessageArgumentStream → Out Exn (List ArgValue)
  | [], st => do
    st.extractTerminator
    ok []
  | t :: ts, st => do
    let (v, st) ← st.extract m (readAs m t)
    let vs ← extractAll m ts st
    ok (v :: vs)

/-! ## What a read saw -/

inductive ReadsAs (m : Bytes) : ReadTree → PacketTree → Prop
  | message {r : ReceivedMessage} {visits : List (ReceivedMessageArgument × ArgValue)} {last : ReceivedMessageArgument}
      {address : Bytes} {arguments : List ArgValue} : rdCString (ε := Exn) m r.addressPattern = ok address →
      visits.map Prod.snd = arguments → r.argumentCount = arguments.length →
      ((∀ v ∈ arguments, Streamable v.tag) →
        extractAll m (arguments.map ArgValue.tag) r.argumentStream = ok arguments) →
      ReadsAs m (.message r visits last) (.message address arguments)
  | bundle {b : ReceivedBundle} {timeTag : UInt64} {trees : List ReadTree} {elements : List PacketTree} :
      b.elementCount = elements.length → List.Forall₂ (ReadsAs m) trees elements →
      ReadsAs m (.bundle b timeTag trees) (.bundle timeTag elements)

/-! ## Arguments -/

variable {m : Bytes}

theorem str_at {s : Bytes} {p : Nat} (h : At m p (strBlock s)) (hs : 0 ∉ s) :
    IsStr4 m p (p + (strBlock s).length) ∧ CStrAt m p s := by
  refine ⟨(isStr4_iff (Nat.le_add_right ..) h.1).mpr (by rw [h.2]; exact strBlock_derives hs), ?_⟩
  have hblock : slice m p (p + (strBlock s).length) = s ++ 0 :: List.replicate
    (padLen (s ++ [(0 : UInt8)]).length) 0 := by
    rw [h.2, strBlock, padded, List.append_assoc]; rfl
  exact (cstrAt_of_slice h.1 s p (Nat.le_add_right ..) hs hblock).1

theorem word_at {n p : Nat} (h : At m p (be32 n)) (hn : n < 2 ^ 32) : word m p = n := by
  rw [word_of_slice h.2, Nat.mod_eq_of_lt hn]

theorem words_at {n p : Nat} (h : At m p (be64 n)) (hn : n < 2 ^ 64) : word m p * 2 ^ 32 + word m (p + 4) = n := by
  obtain ⟨h1, h2⟩ := (at_append (be32 (n / 2 ^ 32)) (be32 n)).mp h
  rw [length_be32] at h2
  rw [word_at h1 (by omega), word_of_slice h2.2]
  omega

/-- An encoded argument is where its tag has it, with its value. -/
theorem arg_at {v : ArgValue} {p : Nat} (h : At m p v.enc) (hs : v.Sendable) :
    ArgRange m v.tag p (p + v.enc.length) ∧ Holds m v.tag p v := by
  refine ⟨(argRange_iff (Nat.le_add_right ..) h.1).mpr (by rw [h.2]; exact argBlock_enc hs), ?_⟩
  cases v with
  | bool b => cases b <;> rfl
  | nil => rfl
  | infinitum => rfl
  | arrayBegin => rfl
  | arrayEnd => rfl
  | int32 v =>
    have hw := word_at (n := v.toUInt32.toNat) h v.toUInt32.toNat_lt
    show ArgValue.int32 v = .int32 (UInt32.ofNat (word m p)).toInt32
    rw [hw, UInt32.ofNat_toNat]; rfl
  | float v =>
    show ArgValue.float v = .float (UInt32.ofNat (word m p))
    rw [word_at (n := v.toNat) h v.toNat_lt, UInt32.ofNat_toNat]
  | char c =>
    show ArgValue.char c = .char (UInt32.ofNat (word m p)).toUInt8
    rw [word_at (n := (charBits c).toNat) h (charBits c).toNat_lt, UInt32.ofNat_toNat, toUInt8_charBits]
  | rgbaColor v =>
    show ArgValue.rgbaColor v = .rgbaColor (UInt32.ofNat (word m p))
    rw [word_at (n := v.toNat) h v.toNat_lt, UInt32.ofNat_toNat]
  | midiMessage v =>
    show ArgValue.midiMessage v = .midiMessage (UInt32.ofNat (word m p))
    rw [word_at (n := v.toNat) h v.toNat_lt, UInt32.ofNat_toNat]
  | int64 v =>
    show ArgValue.int64 v = .int64 (UInt64.ofNat (word m p * 2 ^ 32 + word m (p + 4))).toInt64
    rw [words_at (n := v.toUInt64.toNat) h v.toUInt64.toNat_lt, UInt64.ofNat_toNat]; rfl
  | timeTag v =>
    show ArgValue.timeTag v = .timeTag (UInt64.ofNat (word m p * 2 ^ 32 + word m (p + 4)))
    rw [words_at (n := v.toNat) h v.toNat_lt, UInt64.ofNat_toNat]
  | double v =>
    show ArgValue.double v = .double (UInt64.ofNat (word m p * 2 ^ 32 + word m (p + 4)))
    rw [words_at (n := v.toNat) h v.toNat_lt, UInt64.ofNat_toNat]
  | string s => exact ⟨s, (str_at h hs).2, rfl⟩
  | symbol s => exact ⟨s, (str_at h hs).2, rfl⟩
  | blob data =>
    have hd : data.length ≤ 0x7FFFFFFC := hs
    obtain ⟨h1, h2⟩ := (at_append (be32 data.length) (padded data)).mp h
    obtain ⟨h3, -⟩ := (at_append data _).mp h2
    rw [length_be32] at h3
    show ArgValue.blob data = .blob (slice m (p + 4) (p + 4 + word m p))
    rw [word_at h1 (by omega), h3.2]

open ReceivedMessageArgument in
/-- Where there is an operator, the checked accessor reads what the unchecked one does. -/
theorem readAs_eq {t : TypeTag} {tt p : Nat} (ht : m[tt]? = some t.value) (hs : Streamable t) :
    readAs m t ⟨some tt, some p⟩ = readUnchecked m ⟨some tt, some p⟩ := by
  have htag : typeTag m ⟨some tt, some p⟩ = ok t.value := by
    simp only [typeTag, deref_some, ok_bind, rd_of_some ht]
  rw [readUnchecked, htag, ok_bind, TypeTag.ofByte_value]
  cases t
  case nilTag | infinitumTag | arrayBeginTag | arrayEndTag => exact hs.elim
  case trueTag | falseTag =>
    simp only [readAs, asBool, rd_of_some ht, ok_bind, asBoolUnchecked, htag]
    rfl
  all_goals
    simp only [readAs, asInt32, asFloat, asChar, asRgbaColor, asMidiMessage, asInt64, asTimeTag, asDouble,
      asString, asSymbol, asBlob, checkedAs, rd_of_some ht, ok_bind, if_true, readString, deref_some,
      asStringUnchecked, asSymbolUnchecked]

/-- The iterator over the arguments, and the stream, read them in order and end behind the
    last. The tags are at `tt`, the arguments at `p`. -/
theorem arguments_at : ∀ (arguments : List ArgValue) {tt p : Nat}, CStrAt m tt (tagBytes arguments) →
    At m p (arguments.flatMap ArgValue.enc) → (∀ v ∈ arguments, v.Sendable) →
    (∀ n, arguments.length ≤ n → ∃ visits last,
      walkArguments m (readUnchecked m) ⟨some (tt + arguments.length), none⟩ n ⟨some tt, some p⟩ = ok (visits, last) ∧
        visits.map Prod.snd = arguments) ∧
    ((∀ v ∈ arguments, Streamable v.tag) →
      extractAll m (arguments.map ArgValue.tag) ⟨⟨some tt, some p⟩,
        ⟨some (tt + arguments.length), none⟩⟩ = ok arguments)
  | [], tt, p, _, _, _ => by
    refine ⟨fun n _ => ⟨[], ⟨some tt, some p⟩, walkArguments_end n rfl, rfl⟩, fun _ => ?_⟩
    have heos : ReceivedMessageArgumentStream.eos ⟨⟨some tt, some p⟩, ⟨some (tt + 0), none⟩⟩ = true :=
      beq_self_eq_true _
    rw [List.map_nil, extractAll, ReceivedMessageArgumentStream.extractTerminator]
    show ((if ReceivedMessageArgumentStream.eos ⟨⟨some tt, some p⟩, ⟨some (tt + 0), none⟩⟩ = true
      then ok () else _) >>= _) = _
    rw [if_pos heos]; rfl
  | v :: vs, tt, p, hc, ha, hs => by
    have hv := hs v (List.mem_cons_self ..)
    rw [List.flatMap_cons] at ha
    obtain ⟨h1, h2⟩ := (at_append v.enc _).mp ha
    obtain ⟨hr, hh⟩ := arg_at h1 hv
    cases hc with
    | cons htag _ hc =>
    obtain ⟨hwalk, hext⟩ := arguments_at vs hc h2 fun w hw => hs w (List.mem_cons_of_mem _ hw)
    have hend : tt + 1 + vs.length = tt + (v :: vs).length := by rw [List.length_cons]; omega
    have hread := readUnchecked_eq htag hr h1.1 hh
    have hadv := advance_eq htag hr h1.1
    refine ⟨fun n hn => ?_, fun hstream => ?_⟩
    · obtain ⟨n, rfl⟩ : ∃ n', n = n' + 1 := ⟨n - 1, by rw [List.length_cons] at hn; omega⟩
      obtain ⟨visits, last, hw, hm⟩ := hwalk n (by rw [List.length_cons] at hn; omega)
      rw [hend] at hw
      refine ⟨(⟨some tt, some p⟩, v) :: visits, last, ?_, by rw [List.map_cons, hm]⟩
      rw [walkArguments, if_neg (by rw [List.length_cons]; simp), hread, ok_bind, hadv, ok_bind, hw]; rfl
    · have hv' := readAs_eq (p := p) htag (hstream v (List.mem_cons_self ..))
      have hrest := hext fun w hw => hstream w (List.mem_cons_of_mem _ hw)
      rw [hend] at hrest
      have heos : ReceivedMessageArgumentStream.eos ⟨⟨some tt, some p⟩,
        ⟨some (tt + (v :: vs).length), none⟩⟩ ≠ true := by
        rw [ReceivedMessageArgumentStream.eos, List.length_cons]; simp
      rw [List.map_cons, extractAll, ReceivedMessageArgumentStream.extract, if_neg heos]
      simp only [hadv, ok_bind, hv', hread, hrest]

/-- The arguments are where the validator finds them. -/
theorem argsRange_at {arguments : List ArgValue} {p e : Nat} (h : At m p (arguments.flatMap ArgValue.enc))
    (he : p + (arguments.flatMap ArgValue.enc).length ≤ e) (hl : e ≤ m.length) (hs : ∀ v ∈ arguments, v.Sendable)
    (hn : Nested bracket (arguments.map ArgValue.tag)) :
    ArgsRange m e (tagBytes arguments) p 0 (p + (arguments.flatMap ArgValue.enc).length) 0 := by
  refine (argsRange_iff hl _ p 0 _ 0 (by omega)).mpr
    ⟨Nat.le_add_right .., he, arguments.map ArgValue.tag, tagBytes_eq _, hn.depth 0, ?_⟩
  rw [h.2]; exact args_derive hs

/-! ## Packets -/

/-- The message that is parsed from its encoding: its iterators and its stream read the arguments. -/
theorem parsed_at {address : Bytes} {arguments : List ArgValue} {p : Nat}
    (h : At m p (PacketTree.message address arguments).enc) (hs : (PacketTree.message address arguments).Sendable) :
    ∃ r : ReceivedMessage, (r.size = (PacketTree.message address arguments).enc.length ∧ r.addressPattern = p ∧
        IsMessage m p (p + (PacketTree.message address arguments).enc.length) r) ∧
      (∃ visits last, walkArguments m (readUnchecked m) r.argumentsEnd m.length r.argumentsBegin = ok (visits, last) ∧
        visits.map Prod.snd = arguments) ∧ r.argumentCount = arguments.length ∧
      ((∀ v ∈ arguments, Streamable v.tag) →
        extractAll m (arguments.map ArgValue.tag) r.argumentStream = ok arguments) := by
  have hal := enc_aligned (.message address arguments)
  rw [PacketTree.Sendable] at hs
  obtain ⟨hsa, hsv, hsn⟩ := hs
  have hle := h.1
  have henc : (PacketTree.message address arguments).enc =
      strBlock address ++ (tagBlock (tagBytes arguments) ++ arguments.flatMap ArgValue.enc) := by
    rw [PacketTree.enc, List.append_assoc]
  generalize hsize : (PacketTree.message address arguments).enc.length = size at hal hle
  have hlen := congrArg List.length henc
  rw [hsize, List.length_append, List.length_append] at hlen
  have hat := h
  rw [henc, at_append, at_append] at hat
  obtain ⟨h1, h2, h3⟩ := hat
  have hstr := (str_at h1 hsa.1).1
  cases arguments with
  | nil =>
    have htag := h2.get
    obtain ⟨-, hnul⟩ := (at_append [ch ','] [0, 0, 0]).mp h2
    have hblock : (tagBlock (tagBytes [])).length = 4 := rfl
    exact ⟨⟨p, none, none, none, size⟩,
      ⟨rfl, rfl, _, by omega, hstr, rfl, Or.inr (Or.inl ⟨by omega, htag, hnul.get, rfl, rfl, rfl⟩)⟩,
      ⟨[], _, walkArguments_end _ rfl, rfl⟩, rfl, fun _ => rfl⟩
  | cons v vs =>
    have hcomma : 0 ∉ ch ',' :: tagBytes (v :: vs) := by
      intro hz
      rcases List.mem_cons.mp hz with hz | hz
      · exact absurd hz (by decide)
      · exact tagBytes_noNul (v :: vs) hz
    obtain ⟨hstr2, hc2⟩ := str_at h2 hcomma
    rw [← tagBlock] at hstr2
    have htags : CStrAt m (p + (strBlock address).length + 1) (tagBytes (v :: vs)) := by
      cases hc2 with
      | cons _ _ hc => exact hc
    have hcount : (tagBytes (v :: vs)).length = (v :: vs).length := by rw [tagBytes, List.length_map]
    have hlong := htags.lt
    obtain ⟨hwalk, hstream⟩ := arguments_at (v :: vs) htags h3 hsv
    have hargs := argsRange_at (e := p + size) h3 (by omega) hle hsv hsn
    refine ⟨⟨p, some _, some (p + (strBlock address).length + 1 + (v :: vs).length), some _, size⟩,
      ⟨rfl, rfl, _, by omega, hstr, rfl, Or.inr (Or.inr
        ⟨?_, h2.get, _, ?_, hstr2, _, ?_, htags, ⟨_, hargs⟩, rfl, ?_, rfl⟩)⟩,
      hwalk m.length (by omega), ?_, hstream⟩
    · have := hstr2.lt; omega
    · omega
    · exact List.cons_ne_nil _ _
    · rw [hcount]
    · rw [ReceivedMessage.argumentCount, Option.getD_some, Option.getD_some, Nat.add_sub_cancel_left]

theorem message_at {address : Bytes} {arguments : List ArgValue} {p : Nat}
    (h : At m p (PacketTree.message address arguments).enc) (hs : (PacketTree.message address arguments).Sendable)
    (hl : (PacketTree.message address arguments).enc.length ≤ 0x7FFFFFFC) (fuel : Nat) :
    ∃ t, readContents m p (PacketTree.message address arguments).enc.length fuel = ok t ∧
      ReadsAs m t (.message address arguments) := by
  obtain ⟨r, ⟨hr, ha, hm⟩, ⟨visits, last, hw, hv⟩, hcount, hstream⟩ := parsed_at h hs
  have hpos := enc_pos (.message address arguments)
  have hal := enc_aligned (.message address arguments)
  rw [PacketTree.Sendable] at hs
  have hle := h.1
  have hhead : m[p]? ≠ some (ch '#') := by
    have hh : (PacketTree.message address arguments).enc.head? ≠ some (ch '#') := enc_head hs.1
    cases hx : (PacketTree.message address arguments).enc with
    | nil => rw [hx, List.length_nil] at hpos; omega
    | cons c cs =>
      rw [hx] at h hh
      rw [h.get]; exact hh
  have hcstr : CStrAt m p address := by
    rw [PacketTree.enc, List.append_assoc, at_append] at h
    exact (str_at h.1 hs.1.1).2
  generalize (PacketTree.message address arguments).enc.length = size at hpos hal hl hle hr hm
  have htot : p + ((size : Int)).toNat ≤ m.length := by simpa using hle
  have hinit := (ReceivedMessage.tryInit_decides htot).iff.mpr ⟨⟨by omega, by omega, by omega⟩, hr, by simpa using hm⟩
  refine ⟨.message r visits last, ?_, .message (by rw [ha]; exact hcstr.rdCString_eq) hv hcount hstream⟩
  rw [readContents, isBundle_eq htot (by omega), ok_bind, decide_eq_false hhead]
  simp only [Bool.false_eq_true, if_false, ReceivedMessage.mk', hinit, mapErr_ok, ok_bind, hw]

/-- The elements of a bundle, as the element iterator walks them. -/
theorem elements_at {read : Nat → Out Exn ReadTree} : ∀ (elements : List PacketTree) {p : Nat},
    At m p (PacketTree.encElements elements) → (PacketTree.encElements elements).length < 2 ^ 31 →
    (∀ e ∈ elements, ∀ q, At m q (be32 e.enc.length ++ e.enc) → ∃ t, read q = ok t ∧ ReadsAs m t e) →
    (∃ es, Framed m (p + (PacketTree.encElements elements).length) p es ∧ es.length = elements.length) ∧
      ∀ n, elements.length ≤ n → ∃ trees,
        walkElements m read (p + (PacketTree.encElements elements).length) n p = ok trees ∧
          List.Forall₂ (ReadsAs m) trees elements
  | [], p, _, _, _ => by
    refine ⟨⟨[], .nil, rfl⟩, fun n _ => ⟨[], ?_, .nil⟩⟩
    unfold walkElements
    exact if_pos rfl
  | e :: es, p, h, hl, hread => by
    rw [PacketTree.encElements] at h hl ⊢
    obtain ⟨h1, h2⟩ := (at_append _ _).mp h
    obtain ⟨h3, h4⟩ := (at_append _ _).mp h1
    have hle := h.1
    simp only [List.length_append, length_be32] at h2 h4 hl hle ⊢
    have hw := word_at h3 (by omega)
    have hal := enc_aligned e
    have hend : p + 4 + e.enc.length + (PacketTree.encElements es).length =
        p + (4 + e.enc.length + (PacketTree.encElements es).length) := by
      omega
    obtain ⟨⟨fs, hf, hfl⟩, hwalk⟩ := elements_at (p := p + (4 + e.enc.length)) es h2 (by omega)
      fun e' he => hread e' (List.mem_cons_of_mem _ he)
    rw [← Nat.add_assoc p, hend] at hf hwalk
    refine ⟨⟨(p + 4, word m p) :: fs, .cons (by omega) (by omega) (by omega) (by rw [hw]; exact hf), by simp [hfl]⟩,
      fun n hn => ?_⟩
    obtain ⟨n, rfl⟩ : ∃ n', n = n' + 1 := ⟨n - 1, by rw [List.length_cons] at hn; omega⟩
    obtain ⟨trees, hw', hall⟩ := hwalk n (by rw [List.length_cons] at hn; omega)
    obtain ⟨t, ht, hr⟩ := hread e (List.mem_cons_self ..) p h1
    refine ⟨t :: trees, ?_, .cons hr hall⟩
    rw [walkElements, if_neg (by omega), ht, ok_bind, elementAdvance_eq (by omega) (by omega), ok_bind,
      hw, hw', ok_bind]

theorem length_enc_le {elements : List PacketTree} {e : PacketTree} (h : e ∈ elements) :
    e.enc.length ≤ (PacketTree.encElements elements).length := by
  induction elements with
  | nil => cases h
  | cons x xs ih =>
    rw [PacketTree.encElements, List.length_append, List.length_append]
    rcases List.mem_cons.mp h with rfl | h
    · omega
    · have := ih h; omega

/-- Reading an encoded packet, with as much fuel as it has bytes. -/
theorem readContents_enc (t : PacketTree) : ∀ {p fuel : Nat}, At m p t.enc → t.Sendable → t.enc.length ≤ 0x7FFFFFFC →
    t.enc.length ≤ fuel → ∃ r, readContents m p t.enc.length fuel = ok r ∧ ReadsAs m r t := by
  induction t using PacketTree.induction with
  | message address arguments => exact fun h hs hl _ => message_at h hs hl _
  | bundle timeTag elements ih =>
    intro p fuel h hs hl hfuel
    have hal := enc_aligned (.bundle timeTag elements)
    have hlen : (PacketTree.bundle timeTag elements).enc.length = 16 + (PacketTree.encElements elements).length := by
      rw [PacketTree.enc, List.length_append, List.length_append, length_be64]; rfl
    rw [PacketTree.Sendable, PacketTree.allSendable_iff] at hs
    have hle := h.1
    have hat := h
    rw [PacketTree.enc, at_append, at_append, List.length_append, length_be64] at hat
    obtain ⟨⟨h1, h2⟩, h3⟩ := hat
    obtain ⟨fuel, rfl⟩ : ∃ n, fuel = n + 1 := ⟨fuel - 1, by omega⟩
    generalize hsize : (PacketTree.bundle timeTag elements).enc.length = size at hl hfuel hlen hle hal
    have htot : p + ((size : Int)).toNat ≤ m.length := by simpa using hle
    have hone : ∀ e ∈ elements, ∀ q, At m q (be32 e.enc.length ++ e.enc) →
        ∃ t, (elementSize m q >>= fun n => readContents m (q + 4) n fuel) = ok t ∧ ReadsAs m t e := by
      intro e he q hq
      have hq' := hq.1
      have hel := length_enc_le he
      obtain ⟨h4, h5⟩ := (at_append _ _).mp hq
      rw [length_be32] at h5
      rw [List.length_append, length_be32] at hq'
      obtain ⟨t, ht, hr⟩ := @ih e he (q + 4) fuel h5 (hs e he) (by omega) (by omega)
      have hw := word_at h4 (by omega)
      exact ⟨t, by rw [elementSize_eq (by omega) (by omega), ok_bind, hw, ht], hr⟩
    have h16 : p + (8 + 8) + (PacketTree.encElements elements).length = p + size := by omega
    obtain ⟨⟨es, hf, hel⟩, hwalk⟩ := elements_at elements h3 (by omega) hone
    have hcount : elements.length ≤ m.length := by
      have := hf.length_le
      omega
    obtain ⟨trees, hw, hall⟩ := hwalk m.length hcount
    rw [show bundleTag.length = 8 from rfl] at h2 h3 hf hw
    rw [h16] at hf hw
    have htag : slice m p (p + 8) = bundleTag := h1.2
    have htime := rd64_of_le (ε := Exn) h2.1
    rw [words_at h2 timeTag.toNat_lt] at htime
    have hinit := (ReceivedBundle.tryInit_decides htot).iff.mpr
      ⟨es, ⟨⟨by omega, by omega, by omega⟩, by omega, htag, by rw [Int.toNat_natCast]; exact hf⟩, rfl⟩
    refine ⟨.bundle ⟨p + 8, p + size, es.length⟩ timeTag trees, ?_, .bundle hel hall⟩
    rw [readContents, isBundle_eq htot (by omega), ok_bind, decide_eq_true (bundleTag_head htag), if_pos rfl,
      ReceivedBundle.mk', hinit, mapErr_ok, ok_bind, htime, map_ok, ok_bind, UInt64.ofNat_toNat]
    show (walkElements m (fun i => elementSize m i >>= fun n => readContents m (i + 4) n fuel)
      (p + (size : Int).toNat) m.length (p + 8 + 8) >>= _) = _
    rw [Int.toNat_natCast, Nat.add_assoc p 8 8, hw]; rfl

/-- A full read of what a packet is encoded as. -/
theorem readPacket_enc {t : PacketTree} (hs : t.Sendable) (hl : t.enc.length ≤ 0x7FFFFFFC) :
    ∃ r, readPacket t.enc t.enc.length = ok r ∧ ReadsAs t.enc r t := by
  have hpos := enc_pos t
  have hal := enc_aligned t
  have hsize : SizeOk (t.enc.length : Int) := ⟨by omega, by omega, by omega⟩
  rw [readPacket, ReceivedPacket.mk', validateSizeNoThrow_none.mpr hsize]
  exact readContents_enc t (at_self t.enc) hs hl (Nat.le_refl _)

end OscTap.Received
