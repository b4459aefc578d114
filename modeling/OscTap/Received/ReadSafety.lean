/-
  OscTap.Received.ReadSafety — the unchecked readers behind the gate (see
  `OscTap.Received.Reader`).

  The validator and the argument iterator each have their own copy of the size logic. Here
  the two loops run side by side: `checkArgumentsAt` is the validator's loop stopped in front
  of its k-th iteration, and `InStep` says of a full read that the k-th increment of every
  argument iterator stands where the validator stood.

  Proved: `read_in_step`, for every packet the gate accepts: the full read throws nothing and
  touches no byte outside the packet, every walk ends after exactly the counted elements, and
  every iterator is in step.
-/
import OscTap.Received.Reader
import OscTap.Received.Validate

namespace OscTap.Received

open OscTap.Lib OscTap.Lib.Out OscTap.Osc

/-! ## The validator's loop, stopped -/

/-- The type tag, the argument offset and the array level in front of the k-th iteration of
    the loop in `TryInit`. -/
def checkArgumentsAt (m : Bytes) (end_ : Nat) : Nat → Nat → Nat → Nat → Out String (Nat × Nat × Nat)
  | 0, typeTag, argument, arrayLevel => ok (typeTag, argument, arrayLevel)
  | k + 1, typeTag, argument, arrayLevel => do
    let tag ← rd m typeTag
    let (argument, arrayLevel) ← ReceivedMessage.checkArgument m end_ tag argument arrayLevel
    checkArgumentsAt m end_ k (typeTag + 1) argument arrayLevel

/-- The loop is its own k-th iteration for the k at which it ends. -/
theorem checkArguments_stopped {m : Bytes} {e : Nat} : ∀ (n tt a l : Nat) (r : Nat × Nat), m.length - tt ≤ n →
    ReceivedMessage.checkArguments m e tt a l = ok r →
    tt < r.1 ∧ ∃ q, checkArgumentsAt m e (r.1 - tt) tt a l = ok (r.1, q, r.2) := by
  intro n
  induction n with
  | zero =>
    intro tt a l r hn h
    rw [ReceivedMessage.checkArguments, bind_eq_ok] at h
    obtain ⟨tag, ht, -⟩ := h
    have := (List.getElem?_eq_some_iff.mp (rd_ok.mp ht)).1
    omega
  | succ n ih =>
    intro tt a l r hn h
    rw [ReceivedMessage.checkArguments] at h
    obtain ⟨tag, ht, h⟩ := bind_eq_ok.mp h
    obtain ⟨⟨a', l'⟩, hs, h⟩ := bind_eq_ok.mp h
    dsimp only at h
    split at h
    · split at h
      · cases h
        refine ⟨Nat.lt_succ_self tt, a', ?_⟩
        rw [show tt + 1 - tt = 0 + 1 by omega, checkArgumentsAt, ht, ok_bind, hs]; rfl
      · obtain ⟨hlt, q, hq⟩ := ih (tt + 1) a' l' r (by omega) h
        refine ⟨by omega, q, ?_⟩
        rw [show r.1 - tt = r.1 - (tt + 1) + 1 by omega, checkArgumentsAt, ht, ok_bind, hs]
        exact hq
    · cases h

/-- Where the validator of a message stands after `k` iterations, as the pointers of an
    argument iterator. -/
def ReceivedMessage.validatorAt (m : Bytes) (r : ReceivedMessage) (k : Nat) : Out String ReceivedMessageArgument :=
  match r.typeTagsBegin, r.arguments with
  | some t, some a => do
    let (t, a, _) ← checkArgumentsAt m (r.addressPattern + r.size.toNat) k t a 0
    ok ⟨some t, some a⟩
  | t, a => ok ⟨t, a⟩

/-- A full read in step with the validator, all the way down. -/
inductive InStep (m : Bytes) : ReadTree → Prop
  | message {r : ReceivedMessage} {visits : List (ReceivedMessageArgument × ArgValue)}
    {last : ReceivedMessageArgument} :
      ReceivedMessage.tryInit m r.addressPattern r.size = ok r → visits.length = r.argumentCount →
      last.typeTagPtr = r.argumentsEnd.typeTagPtr →
      (∀ k it, (visits.map Prod.fst ++ [last])[k]? = some it → r.validatorAt m k = ok it) →
      InStep m (.message r visits last)
  | bundle {b : ReceivedBundle} {timeTag : UInt64} {elements : List ReadTree} : elements.length = b.elementCount →
      (∀ t ∈ elements, InStep m t) → InStep m (.bundle b timeTag elements)

/-! ## One argument -/

/-- The value that the argument of a tag has at `p`. -/
def Holds (m : Bytes) (t : TypeTag) (p : Nat) (v : ArgValue) : Prop :=
  match t with
  | .trueTag => v = .bool true
  | .falseTag => v = .bool false
  | .nilTag => v = .nil
  | .infinitumTag => v = .infinitum
  | .int32Tag => v = .int32 (UInt32.ofNat (word m p)).toInt32
  | .floatTag => v = .float (UInt32.ofNat (word m p))
  | .charTag => v = .char (UInt32.ofNat (word m p)).toUInt8
  | .rgbaColorTag => v = .rgbaColor (UInt32.ofNat (word m p))
  | .midiMessageTag => v = .midiMessage (UInt32.ofNat (word m p))
  | .int64Tag => v = .int64 (UInt64.ofNat (word m p * 2 ^ 32 + word m (p + 4))).toInt64
  | .timeTagTag => v = .timeTag (UInt64.ofNat (word m p * 2 ^ 32 + word m (p + 4)))
  | .doubleTag => v = .double (UInt64.ofNat (word m p * 2 ^ 32 + word m (p + 4)))
  | .stringTag => ∃ s, CStrAt m p s ∧ v = .string s
  | .symbolTag => ∃ s, CStrAt m p s ∧ v = .symbol s
  | .blobTag => v = .blob (slice m (p + 4) (p + 4 + word m p))
  | .arrayBeginTag => v = .arrayBegin
  | .arrayEndTag => v = .arrayEnd

theorem IsStr4.exists_cstr {m : Bytes} {p q : Nat} (h : IsStr4 m p q) : ∃ s, CStrAt m p s ∧ p + s.length < q := by
  rcases h with ⟨h0, rfl⟩ | ⟨k, rfl, -, hk, -⟩
  · exact ⟨[], .nil h0, by simp⟩
  · obtain ⟨s, hs, hle⟩ := CStrAt.exists_of_nul (show p ≤ p + 4 * k + 3 by omega) hk
    exact ⟨s, hs, by omega⟩

theorem ArgRange.exists_holds {m : Bytes} {t : TypeTag} {p q : Nat} (h : ArgRange m t p q) : ∃ v, Holds m t p v := by
  cases t
  case stringTag | symbolTag =>
    obtain ⟨s, hs, -⟩ := IsStr4.exists_cstr h
    exact ⟨_, s, hs, rfl⟩
  all_goals exact ⟨_, rfl⟩

/-- The unchecked accessor of a tag reads the value and stays inside the argument. -/
theorem readUnchecked_eq {m : Bytes} {t : TypeTag} {tt p q : Nat} {v : ArgValue} (ht : m[tt]? = some t.value)
    (h : ArgRange m t p q) (hq : q ≤ m.length) (hv : Holds m t p v) :
    readUnchecked m ⟨some tt, some p⟩ = ok v := by
  have htag : (ReceivedMessageArgument.typeTag m ⟨some tt, some p⟩) = ok t.value := by
    simp only [ReceivedMessageArgument.typeTag, deref_some, ok_bind, rd_of_some ht]
  rw [readUnchecked, htag, ok_bind, TypeTag.ofByte_value]
  cases t
  case trueTag | falseTag =>
    simp only [ReceivedMessageArgument.asBoolUnchecked, htag, ok_bind]
    rw [show v = _ from hv]; rfl
  case nilTag | infinitumTag | arrayBeginTag | arrayEndTag => rw [show v = _ from hv]
  case int32Tag | floatTag | charTag | rgbaColorTag | midiMessageTag =>
    obtain rfl : q = p + 4 := h
    rw [show v = _ from hv]
    simp only [ReceivedMessageArgument.asInt32Unchecked, ReceivedMessageArgument.asFloatUnchecked,
      ReceivedMessageArgument.asCharUnchecked, ReceivedMessageArgument.asRgbaColorUnchecked,
      ReceivedMessageArgument.asMidiMessageUnchecked, ReceivedMessageArgument.toUInt32, deref_some,
      ok_bind, rd32_of_le hq]
    rfl
  case int64Tag | timeTagTag | doubleTag =>
    obtain rfl : q = p + 8 := h
    rw [show v = _ from hv]
    simp only [ReceivedMessageArgument.asInt64Unchecked, ReceivedMessageArgument.asTimeTagUnchecked,
      ReceivedMessageArgument.asDoubleUnchecked, ReceivedMessageArgument.toUInt64, deref_some, ok_bind, rd64_of_le hq]
    rfl
  case stringTag | symbolTag =>
    obtain ⟨s, hs, rfl⟩ := hv
    simp only [ReceivedMessageArgument.asStringUnchecked, ReceivedMessageArgument.asSymbolUnchecked,
      readString, deref_some, ok_bind, hs.rdCString_eq]
    rfl
  case blobTag =>
    obtain ⟨h1, rfl⟩ := h
    have hr := roundUp4_ge (show word m p + 3 < 2 ^ 32 by omega)
    -- the size passed the validator, so its sign is not flipped
    have hn : (((word m p : Nat) : Int) % 2 ^ 64).toNat = word m p := by omega
    rw [show v = _ from hv]
    simp only [ReceivedMessageArgument.asBlobUnchecked, ReceivedMessageArgument.toUInt32, deref_some, ok_bind]
    rw [rd32_of_le (by omega), map_ok, ok_bind, ok_bind, readBlob, UInt32.toNat_ofNat_of_lt' (word_lt m p),
      int32OfBits_small (by omega)]
    dsimp only
    rw [hn, rdBytes_of_le (by omega)]
    rfl

/-- `Advance` moves over an argument as the validator does. -/
theorem advance_eq {m : Bytes} {t : TypeTag} {tt p q : Nat} (ht : m[tt]? = some t.value) (h : ArgRange m t p q)
    (hq : q ≤ m.length) : advance m ⟨some tt, some p⟩ = ok ⟨some (tt + 1), some q⟩ := by
  simp only [advance, rd_of_some ht, ok_bind, TypeTag.ofByte_value]
  cases t
  case stringTag | symbolTag =>
    simp only [deref_some, ok_bind, findStr4EndUnchecked_of_isStr4 (show IsStr4 m p q from h)]
  case blobTag =>
    obtain ⟨h1, rfl⟩ := h
    simp only [deref_some, ok_bind, rd32_of_le (show p + 4 ≤ m.length by omega)]
  all_goals
    have e := h
    simp only [ArgRange] at e
    simp only [e, Option.map_some]

/-! ## A message -/

theorem checkArgument_eq {m : Bytes} {e p l q l' : Nat} {tag : UInt8} (hpe : p ≤ e) (he : e ≤ m.length)
    (ha : (e - p) % 4 = 0) (hb : e - p < 2 ^ 32) (h : ArgStep m e tag p l q l') :
    ReceivedMessage.checkArgument m e tag p l = ok (q, l') :=
  (checkArgument_decides hpe he ha hb tag l).iff.mpr h

theorem walkArguments_end {β : Type} {m : Bytes} {f : ReceivedMessageArgument → Out Exn β}
    {it end_ : ReceivedMessageArgument} (n : Nat) (h : it.typeTagPtr = end_.typeTagPtr) :
    walkArguments m f end_ n it = ok ([], it) := by
  unfold walkArguments
  exact if_pos h

/-- The two loops over a tag string, one tag at a time: the walk reads every argument and
    each of its positions is the validator's. -/
theorem walkArguments_in_step {m : Bytes} {e : Nat} (he : e ≤ m.length) {tags : Bytes} {p l q l' : Nat}
    (h : ArgsRange m e tags p l q l') : ∀ {tt : Nat} (n : Nat), CStrAt m tt tags → p ≤ e → (e - p) % 4 = 0 →
    e - p < 2 ^ 32 → tags.length ≤ n →
    ∃ visits last, walkArguments m (readUnchecked m) ⟨some (tt + tags.length), none⟩ n ⟨some tt, some p⟩ =
      ok (visits, last) ∧
      visits.length = tags.length ∧ last = ⟨some (tt + tags.length), some q⟩ ∧
      ∀ k it, (visits.map Prod.fst ++ [last])[k]? = some it →
        ∃ a lv, checkArgumentsAt m e k tt p l = ok (tt + k, a, lv) ∧ it = ⟨some (tt + k), some a⟩ := by
  induction h with
  | nil p l =>
    intro tt n _ _ _ _ _
    refine ⟨[], ⟨some tt, some p⟩, walkArguments_end n rfl, rfl, rfl, fun k it hk => ?_⟩
    cases k with
    | zero => cases hk; exact ⟨p, l, rfl, rfl⟩
    | succ k => simp at hk
  | @cons tag tags p l q l' r l'' hs _ ih =>
    intro tt n hc hpe ha hb hn
    simp only [List.length_cons] at hn
    have hcheck := checkArgument_eq hpe he ha hb hs
    obtain ⟨t, ht, -, hr, hqe⟩ := hs
    have hal := hr.aligned
    cases hc with
    | cons htag _ hc =>
    have htag' : m[tt]? = some t.value := by rw [htag, TypeTag.ofByte_eq_some.mp ht]
    obtain ⟨n, rfl⟩ : ∃ n', n = n' + 1 := ⟨n - 1, by omega⟩
    obtain ⟨v, hv⟩ := hr.exists_holds
    obtain ⟨visits, last, hw, hlen, hlast, hstep⟩ := ih n hc hqe (by omega) (by omega) (by omega)
    have hend : tt + 1 + tags.length = tt + (tag :: tags).length := by simp only [List.length_cons]; omega
    rw [hend] at hw hlast
    refine ⟨(⟨some tt, some p⟩, v) :: visits, last, ?_, by simp [hlen], hlast, fun k it hk => ?_⟩
    · rw [walkArguments, if_neg (by simp), readUnchecked_eq htag' hr (by omega) hv, ok_bind,
        advance_eq htag' hr (by omega), ok_bind, hw]; rfl
    · cases k with
      | zero => cases hk; exact ⟨p, l, rfl, rfl⟩
      | succ k =>
        obtain ⟨a, lv, hat, hit⟩ := hstep k it (by simpa using hk)
        rw [show tt + 1 + k = tt + (k + 1) by omega] at hat hit
        refine ⟨a, lv, ?_, hit⟩
        rw [checkArgumentsAt, rd_of_some htag, ok_bind, hcheck]
        exact hat

theorem readMessage_in_step {m : Bytes} {p : Nat} {size : Int} {r : ReceivedMessage} (hl : p + size.toNat ≤ m.length)
    (hs : SizeOk size) (hr : r.size = size) (h : IsMessage m p (p + size.toNat) r) :
    ∃ visits last, walkArguments m (readUnchecked m) r.argumentsEnd m.length r.argumentsBegin = ok (visits, last) ∧
      InStep m (.message r visits last) := by
  have hinit : ReceivedMessage.tryInit m p size = ok r := (ReceivedMessage.tryInit_decides hl).iff.mpr ⟨hs, hr, h⟩
  obtain ⟨a, hae, hsa, hap, hcase⟩ := h
  have hinit' : ReceivedMessage.tryInit m r.addressPattern r.size = ok r := by rw [hap, hr]; exact hinit
  have none_case : r.typeTagsBegin = none ∧ r.typeTagsEnd = none ∧ r.arguments = none →
      ∃ visits last, walkArguments m (readUnchecked m) r.argumentsEnd m.length r.argumentsBegin = ok (visits, last) ∧
        InStep m (.message r visits last) := by
    intro hx
    rcases hx with ⟨h1, h2, h3⟩
    refine ⟨[], r.argumentsBegin, walkArguments_end _ (h1.trans h2.symm), .message hinit' ?_ ?_ fun k it hk => ?_⟩
    · simp [ReceivedMessage.argumentCount, h1, h2]
    · simp [ReceivedMessage.argumentsBegin, ReceivedMessage.argumentsEnd, h1, h2]
    · cases k with
      | zero => cases hk; simp [ReceivedMessage.validatorAt, ReceivedMessage.argumentsBegin, h1, h3]
      | succ k => simp at hk
  rcases hcase with ⟨-, hc⟩ | ⟨-, -, -, hc⟩ | ⟨hae', -, b, hbe, hsb, tags, -, hct, ⟨q, hra⟩, h1, h2, h3⟩
  · exact none_case hc
  · exact none_case hc
  · obtain ⟨g1, g2, g3⟩ := hs
    have hala := hsa.aligned
    have halb := hsb.aligned
    have hlb := hsb.lt
    have hla := hsa.lt
    have htl := hct.lt
    obtain ⟨visits, last, hw, hlen, hlast, hstep⟩ :=
      walkArguments_in_step hl hra m.length hct hbe (by omega) (by omega) (by omega)
    refine ⟨visits, last, ?_, .message hinit' ?_ ?_ fun k it hk => ?_⟩
    · rw [ReceivedMessage.argumentsEnd, ReceivedMessage.argumentsBegin, h1, h2, h3]; exact hw
    · rw [hlen, ReceivedMessage.argumentCount, h1, h2]; simp
    · rw [hlast, ReceivedMessage.argumentsEnd, h2]
    · obtain ⟨a', lv, hat, rfl⟩ := hstep k it hk
      rw [ReceivedMessage.validatorAt, h1, h3, hap, hr]
      simp only [hat, ok_bind]

/-! ## A bundle -/

theorem elementSize_eq {m : Bytes} {p : Nat} (h : p + 4 ≤ m.length) (hb : word m p < 2 ^ 31) :
    elementSize m p = ok (word m p : Int) := by
  rw [elementSize, rd32_of_le h]
  exact congrArg ok (int32OfBits_small hb)

theorem elementAdvance_eq {m : Bytes} {p : Nat} (h : p + 4 ≤ m.length) (hb : word m p < 2 ^ 31) :
    elementAdvance m p = ok (p + 4 + word m p) := by
  rw [elementAdvance, elementSize_eq h hb, ok_bind]
  dsimp only
  rw [if_pos (by omega)]
  congr 1

theorem walkElements_eq {β : Type} {m : Bytes} {f : Nat → Out Exn β} {P : β → Prop} {e p : Nat} {es : List (Nat × Nat)}
    (he : e ≤ m.length) (hb : e - p < 2 ^ 31) (hf : Framed m e p es)
    (hx : ∀ x ∈ es, ∃ b, f (x.1 - 4) = ok b ∧ P b) : ∀ n, es.length ≤ n →
    ∃ bs, walkElements m f e n p = ok bs ∧ bs.length = es.length ∧ ∀ b ∈ bs, P b := by
  induction hf with
  | nil =>
    intro n _
    exact ⟨[], by unfold walkElements; rw [if_pos rfl], rfl, by simp⟩
  | @cons p es h1 h4 h2 hf ih =>
    intro n hn
    simp only [List.length_cons] at hn
    obtain ⟨n, rfl⟩ : ∃ n', n = n' + 1 := ⟨n - 1, by omega⟩
    obtain ⟨b, hb', hP⟩ := hx _ (List.mem_cons_self ..)
    obtain ⟨bs, hw, hlen, hPs⟩ := ih (by omega) (fun x hm => hx x (List.mem_cons_of_mem _ hm)) n (by omega)
    have hnext := elementAdvance_eq (show p + 4 ≤ m.length by omega) (by omega)
    refine ⟨b :: bs, ?_, by simp [hlen], by simpa using ⟨hP, hPs⟩⟩
    rw [walkElements, if_neg (by omega), show f p = ok b from hb', ok_bind, hnext, ok_bind, hw, ok_bind]

theorem Framed.length_le {m : Bytes} {e p : Nat} {es : List (Nat × Nat)} (h : Framed m e p es) : es.length ≤ e - p := by
  induction h with
  | nil => simp
  | cons h1 _ h2 _ ih => simp only [List.length_cons]; omega

theorem Framed.word_eq {m : Bytes} {e p : Nat} {es : List (Nat × Nat)} (h : Framed m e p es) :
    ∀ x ∈ es, 4 ≤ x.1 ∧ x.2 = word m (x.1 - 4) := by
  induction h with
  | nil => intro x hx; cases hx
  | cons _ _ _ _ ih =>
    intro x hx
    rcases List.mem_cons.mp hx with rfl | hx
    · exact ⟨Nat.le_add_left .., by rw [Nat.add_sub_cancel]⟩
    · exact ih x hx

theorem readContents_message {m : Bytes} {p : Nat} {size : Int} {r : ReceivedMessage}
    {visits : List (ReceivedMessageArgument × ArgValue)} {last : ReceivedMessageArgument}
    (hl : p + size.toNat ≤ m.length) (hs : SizeOk size) (hh : m[p]? ≠ some (ch '#'))
    (hinit : ReceivedMessage.tryInit m p size = ok r)
    (hw : walkArguments m (readUnchecked m) r.argumentsEnd m.length r.argumentsBegin = ok (visits, last)) (fuel : Nat) :
    readContents m p size fuel = ok (.message r visits last) := by
  rw [readContents, isBundle_eq hl hs.1, ok_bind, decide_eq_false hh]
  simp only [Bool.false_eq_true, if_false, ReceivedMessage.mk', hinit, mapErr_ok, ok_bind, hw]

theorem readContents_bundle {m : Bytes} {p fuel : Nat} {size : Int} {es : List (Nat × Nat)} {ts : List ReadTree}
    (hl : p + size.toNat ≤ m.length) (hb : IsBundle m p size es)
    (hw : walkElements m (fun i => do
      let n ← elementSize m i
      readContents m (i + 4) n fuel) (p + size.toNat) m.length (p + 16) = ok ts) :
    readContents m p size (fuel + 1) = ok (.bundle ⟨p + 8, p + size.toNat, es.length⟩
      (UInt64.ofNat (word m (p + 8) * 2 ^ 32 + word m (p + 8 + 4))) ts) := by
  have h16 := hb.2.1
  have hinit := (ReceivedBundle.tryInit_decides hl).iff.mpr ⟨es, hb, rfl⟩
  have htime := rd64_of_le (ε := Exn) (show p + 8 + 8 ≤ m.length by omega)
  rw [readContents, isBundle_eq hl hb.1.1, ok_bind, decide_eq_true (bundleTag_head hb.2.2.1)]
  rw [if_pos rfl, ReceivedBundle.mk', hinit, mapErr_ok, ok_bind, htime, map_ok, ok_bind]
  show (walkElements m _ (p + size.toNat) m.length (p + 8 + 8) >>= _) = _
  rw [Nat.add_assoc p, hw]; rfl

/-- Every valid packet is read in step; each nested packet is shorter, so the fuel lasts. -/
theorem readContents_in_step {m : Bytes} {d p : Nat} {size : Int} (h : Valid m d p size) : p + size.toNat ≤ m.length →
    ∀ fuel, size.toNat ≤ fuel → ∃ t, readContents m p size fuel = ok t ∧ InStep m t := by
  induction h with
  | @message d p size r hs hh hm =>
    intro hl fuel _
    have hm' : IsMessage m p (p + size.toNat) { r with size := size } := hm
    obtain ⟨visits, last, hw, hstep⟩ := readMessage_in_step hl hs rfl hm'
    have hinit := (ReceivedMessage.tryInit_decides hl).iff.mpr ⟨hs, rfl, hm'⟩
    exact ⟨_, readContents_message hl hs hh hinit hw fuel, hstep⟩
  | @bundle d p size es hb _ ih =>
    intro hl fuel hfuel
    have hf := hb.2.2.2
    obtain ⟨h1, h2, h3⟩ := hb.1
    obtain ⟨fuel, rfl⟩ : ∃ n, fuel = n + 1 := ⟨fuel - 1, by omega⟩
    let read : Nat → Out Exn ReadTree := fun i => do
      let n ← elementSize m i
      readContents m (i + 4) n fuel
    have hx : ∀ x ∈ es, ∃ t, read (x.1 - 4) = ok t ∧ InStep m t := by
      intro x hx
      obtain ⟨h4, hw⟩ := hf.word_eq x hx
      have hin := hf.inside x hx
      obtain ⟨t, ht, hst⟩ := ih x hx (by omega) fuel (by omega)
      refine ⟨t, ?_, hst⟩
      dsimp only [read]
      rw [elementSize_eq (by omega) (by omega), ← hw, ok_bind, Nat.sub_add_cancel h4]
      exact ht
    have hlen := hf.length_le
    obtain ⟨ts, hw, hcount, hall⟩ := walkElements_eq (f := read) (P := InStep m) hl (by omega) hf hx m.length (by omega)
    exact ⟨_, readContents_bundle hl hb hw, .bundle hcount hall⟩

/-- Whatever packet the gate accepts, at whatever bound: the full unchecked read of a buffer
    that ends where the packet ends returns, and is in step with the validator. -/
theorem read_in_step (m : Bytes) (size : Int) (bound : Nat) (hm : m.length = size.toNat)
    (h : tryValidatePacket m 0 size bound = ok ()) : ∃ t, readPacket m size = ok t ∧ InStep m t := by
  have hl : 0 + size.toNat ≤ m.length := by omega
  have hv := (tryValidatePacket_decides bound 0 size hl).iff.mp h
  rw [readPacket, ReceivedPacket.mk', validateSizeNoThrow_none.mpr hv.sizeOk]
  exact readContents_in_step hv hl m.length (by omega)

def oneMessageBundle : Bytes :=
  bundleTag ++ be64 1 ++ be32 12 ++ [ch '/', ch 'a', 0, 0, ch ',', ch 's', 0, 0, ch 'h', ch 'i', 0, 0]

theorem read_in_step_oneMessageBundle : tryValidatePacket oneMessageBundle 0 32 1 = ok () ∧
    ∃ t, readPacket oneMessageBundle 32 = ok t ∧ InStep oneMessageBundle t :=
  ⟨by decide +kernel, read_in_step oneMessageBundle 32 1 rfl (by decide +kernel)⟩

end OscTap.Received
