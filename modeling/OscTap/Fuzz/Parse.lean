/-
  OscTap.Fuzz.Parse — the fuzz target of the parser (`fuzz/fuzz_parse.cpp`).

  An input loses its last bytes down to whole words, is copied, constructed and walked as a consumer
  does it: the address, every type tag, every argument's bytes. What was walked to its end is then
  printed to a stream of its own. Every exception is caught. The inputs of a process run one after
  the other on one thread, whose printing indentation stays from one to the next.

  Proved: `finds_nothing`: whatever the inputs, the target returns, so no input is a finding; it
  walks to the end exactly what the gate accepts at some bound; and the indentation is where it began.
  A packet that the printer throws out of a bundle of, and which leaves the indentation raised, is never
  printed here.
-/
import OscTap.Received.Meaning
import OscTap.Received.PrintHistory
import OscTap.Received.PacketSize

namespace OscTap.Fuzz

open OscTap.Lib OscTap.Lib.Out OscTap.Osc OscTap.Received

/-! ## The walk -/

open ReceivedMessageArgument in
/-- The `switch` of `WalkMessage`: a string is not read, of a blob every byte is. -/
def walkArgument (m : Bytes) (a : ReceivedMessageArgument) : Out Exn Unit := do
  let tag ← a.typeTag m
  match TypeTag.ofByte tag with
  | some .int32Tag => discard (a.asInt32Unchecked m)
  | some .floatTag => discard (a.asFloatUnchecked m)
  | some .charTag => discard (a.asCharUnchecked m)
  | some .rgbaColorTag => discard (a.asRgbaColorUnchecked m)
  | some .midiMessageTag => discard (a.asMidiMessageUnchecked m)
  | some .int64Tag => discard (a.asInt64Unchecked m)
  | some .timeTagTag => discard (a.asTimeTagUnchecked m)
  | some .doubleTag => discard (a.asDoubleUnchecked m)
  | some .stringTag | some .symbolTag => ok ()
  | some .blobTag => do
    let b ← a.asBlobUnchecked m
    -- `for (i = 0; i < size; ++i)` with a signed size
    discard (rdBytes m b.1 b.2.toNat : Out Exn Bytes)
  | _ => ok ()

def walkMessage (m : Bytes) (r : ReceivedMessage) : Out Exn Unit := do
  let c ← rd m r.addressPattern
  -- `AddressPatternIsUInt32`, `AddressPatternAsUInt32`
  if c = 0 then discard (rd32 m r.addressPattern : Out Exn Nat) else ok ()
  forArguments m (fun a _ => walkArgument m a) r.argumentsEnd m.length r.argumentsBegin ()

/-- `WalkBundle`; `nested` walks an element. -/
def walkBundle (m : Bytes) (nested : Nat → Int → Out Exn Unit) (b : ReceivedBundle) : Out Exn Unit := do
  discard (rd64 m b.timeTag : Out Exn Nat)
  discard (walkElements m (fun i => do
    let size ← elementSize m i
    nested (i + 4) size) b.elementsEnd m.length b.elementsBegin)

/-- A packet or an element: `IsBundle() ? WalkBundle(..) : WalkMessage(..)`. The fuel bounds the nesting. -/
def walkContents (m : Bytes) (fuel p : Nat) (size : Int) : Out Exn Unit := do
  let bundle ← isBundle m p size
  if bundle then do
    let b ← ReceivedBundle.mk' m p size
    match fuel with
    | 0 => fault .diverge
    | fuel + 1 => walkBundle m (walkContents m fuel) b
  else do
    let r ← ReceivedMessage.mk' m p size
    walkMessage m r

/-! ## The target -/

def trim (data : Bytes) : Bytes := data.take (data.length - data.length % 4)

variable (fmt : Formats)

def print (buffer : Bytes) (s : Thread) : Out (Exn × Thread) Thread :=
  if h : ReceivedPacket.validateSizeNoThrow buffer.length = none then printPacket fmt ⟨buffer, h⟩
    { s with os := .fresh }
  else fault .wrap

/-- `LLVMFuzzerTestOneInput`: whether it got behind the printing, and the thread. -/
def testOneInput (data : Bytes) (s : Thread) : Out Empty (Bool × Thread) :=
  let buffer := trim data
  if buffer.length = 0 then ok (false, s)
  else
    let walked : Out Exn Unit := do
      let p ← ReceivedPacket.mk' 0 (toElementSize buffer.length)
      walkContents buffer buffer.length p.contents p.size
    match walked with
    | ok _ =>
      match print fmt buffer s with
      | ok s => ok (true, s)
      | err (_, s) => ok (false, s)
      | fault f => fault f
    | err _ => ok (false, s)
    | fault f => fault f

def testAll : List Bytes → Thread → Out Empty (List Bool × Thread)
  | [], s => ok ([], s)
  | data :: inputs, s => do
    let (done, s) ← testOneInput fmt data s
    let (rest, s) ← testAll inputs s
    ok (done :: rest, s)

/-! ## The walk is a read -/

variable {m : Bytes} {p : Nat} {size : Int}

theorem discard_ok {ε α : Type} {x : Out ε α} {a : α} (h : x = ok a) : discard x = ok () := by rw [h]; rfl

theorem walkArgument_eq (hm : m.length < 2 ^ 31) {a : ReceivedMessageArgument} {tag : UInt8} {v : ArgValue}
    (h : readTagged m a = ok (tag, v)) :
    walkArgument m a = ok () := by
  obtain ⟨t, ht, hread⟩ := readTagged_tag h
  rw [readUnchecked, ht, ok_bind, TypeTag.ofByte_value] at hread
  rw [walkArgument, ht, ok_bind, TypeTag.ofByte_value]
  cases t with
  | trueTag | falseTag | nilTag | infinitumTag | arrayBeginTag | arrayEndTag | stringTag | symbolTag => rfl
  | int32Tag | floatTag | charTag | rgbaColorTag | midiMessageTag | int64Tag | timeTagTag | doubleTag =>
    obtain ⟨v, hv, -⟩ := map_eq_ok.mp hread
    exact discard_ok hv
  | blobTag =>
    obtain ⟨b, hb, hread⟩ := bind_eq_ok.mp hread
    obtain ⟨data, hdata, -⟩ := map_eq_ok.mp hread
    obtain ⟨hin, -⟩ := readBlob_eq hm (asBlobUnchecked_range hb) hdata
    show (a.asBlobUnchecked m >>= fun b => discard (rdBytes m b.1 b.2.toNat : Out Exn Bytes)) = ok ()
    rw [hb, ok_bind, rdBytes, if_pos hin]
    rfl

/-- A message is walked to its end. -/
theorem walkMessage_ok (hm : m.length < 2 ^ 31) {r : ReceivedMessage} (hl : p + size.toNat ≤ m.length)
    (hs : SizeOk size) (h : IsMessage m p (p + size.toNat) r) :
    walkMessage m r = ok () := by
  obtain ⟨d, -, hdecode⟩ := h.decode hl
  obtain ⟨-, hloop⟩ := ReceivedMessage.decode_forArguments (b := fun a _ => walkArgument m a)
    (f := fun _ _ => ()) hdecode (fun a tag v s ha => walkArgument_eq hm ha) ()
  have haddr : r.addressPattern = p := h.choose_spec.2.2.1
  obtain ⟨h0, hmax, h4⟩ := hs
  have hlt : p < m.length := by omega
  rw [walkMessage, haddr, rd_of_lt hlt, ok_bind, hloop]
  split
  · rw [rd32_of_le (show p + 4 ≤ m.length by omega)]
    rfl
  · rfl

theorem exists_meant {es : List (Nat × Nat)} {ts : List PacketTree}
    (h : List.Forall₂ (fun x t => Means m x.1 x.2 t) es ts) :
    ∀ x ∈ es, ∃ t, Means m x.1 x.2 t := by
  induction h with
  | nil => simp
  | cons hx _ ih => exact List.forall_mem_cons.mpr ⟨⟨_, hx⟩, ih⟩

/-- A bundle means something when its elements do. -/
theorem bundle_means {es : List (Nat × Nat)} (hb : IsBundle m p size es) :
    (∀ x ∈ es, ∃ t, Means m x.1 x.2 t) ↔ ∃ t, Means m p size t := by
  constructor
  · intro h
    obtain ⟨ts, hall, -⟩ := exists_forall₂ (P := fun _ => True) fun x hx => by
      obtain ⟨t, ht⟩ := h x hx
      exact ⟨t, ht, trivial⟩
    exact ⟨_, .bundle hb hall⟩
  · intro h
    obtain ⟨t, ht⟩ := h
    cases ht with
    | message hs hno _ => exact absurd (bundleTag_head hb.2.2.1) hno
    | bundle hb' hall =>
      obtain rfl := hb.unique hb'
      exact exists_meant hall

/-- The loop over the elements: it ends if every element's walk does. -/
theorem walkElements_decides {f : Nat → Out Exn Unit} {S : Nat → Nat → Prop} {es : List (Nat × Nat)} {e : Nat}
    (he : e ≤ m.length) (hb : e - p < 2 ^ 31) (hf : Framed m e p es)
    (hx : ∀ x ∈ es, Decides (f (x.1 - 4)) fun _ => S x.1 x.2) {n : Nat} (hn : es.length ≤ n) :
    Decides (discard (walkElements m f e n p)) fun _ => ∀ x ∈ es, S x.1 x.2 := by
  have hsat := walkElements_sat he hb hf (fun x h => (hx x h).sat) n hn
  refine ⟨safe_discard hsat.safe, fun _ => ⟨fun h => ?_, fun h => ?_⟩⟩
  · obtain ⟨bs, hbs, -⟩ := map_eq_ok.mp h
    exact hsat.ok_of_eq hbs
  · obtain ⟨bs, hbs⟩ := walkElements_ok he hb hf (fun x hm => ⟨(), (hx x hm).iff.mpr (h x hm)⟩) n hn
    exact discard_ok hbs

theorem walkContents_message (hm : m.length < 2 ^ 31) (fuel : Nat) (hl : p + size.toNat ≤ m.length)
    (hh : ¬ (0 < size ∧ m[p]? = some (ch '#'))) :
    Decides (walkContents m fuel p size) fun _ => ∃ t, Means m p size t := by
  have hnone : (isBundle m p size : Out Exn Bool) = ok false := by
    by_cases hs : 0 < size
    · rw [isBundle_eq hl hs, decide_eq_false fun h => hh ⟨hs, h⟩]
    · rw [isBundle, if_neg hs]
  unfold walkContents
  rw [hnone, ok_bind, if_neg Bool.false_ne_true]
  refine (((ReceivedMessage.tryInit_decides hl).mapErr (g := Exn.malformedMessage)).bind
    (T := fun _ _ => True) fun r hr => ?_).congr fun _ => ?_
  · rw [walkMessage_ok hm hl hr.1 hr.2.2]
    exact (decides_ok ()).congr fun _ => iff_of_true rfl trivial
  · constructor
    · intro h
      obtain ⟨r, ⟨hs, -, hr⟩, -⟩ := h
      obtain ⟨d, hd, -⟩ := hr.decode hl
      exact ⟨_, .message hs (fun h => hh ⟨hs.1, h⟩) hd⟩
    · intro h
      obtain ⟨t, ht⟩ := h
      cases ht with
      | message hs _ hd =>
        obtain ⟨r, hsize, hr⟩ := hd.message size
        exact ⟨r, ⟨hs, hsize, hr⟩, trivial⟩
      | bundle hb _ => exact absurd ⟨hb.1.1, bundleTag_head hb.2.2.1⟩ hh

theorem walkBundle_decides {nested : Nat → Int → Out Exn Unit} {es : List (Nat × Nat)} (hm : m.length < 2 ^ 31)
    (hl : p + size.toNat ≤ m.length) (hb : IsBundle m p size es)
    (hx : ∀ x ∈ es, Decides (nested x.1 x.2) fun _ => ∃ t, Means m x.1 x.2 t) :
    Decides (walkBundle m nested ⟨p + 8, p + size.toNat, es.length⟩) fun _ => ∃ t, Means m p size t := by
  obtain ⟨h1, h2, -⟩ := hb.1
  have h16 := hb.2.1
  have hf := hb.2.2.2
  have hlen := hf.length_le
  have htag : discard (rd64 m (p + 8) : Out Exn Nat) = ok () :=
    discard_ok (rd64_of_le (show p + 8 + 8 ≤ m.length by omega))
  have hwalk : ∀ x ∈ es, Decides (elementSize m (x.1 - 4) >>= fun n => nested (x.1 - 4 + 4) n) fun _ =>
    ∃ t, Means m x.1 x.2 t := by
    intro x h
    obtain ⟨h4, hw⟩ := hf.word_eq x h
    have hin := hf.inside x h
    rw [elementSize_eq (by omega) (by omega), ← hw, ok_bind, Nat.sub_add_cancel h4]
    exact hx x h
  rw [walkBundle, htag, ok_bind]
  exact (walkElements_decides (S := fun q n => ∃ t, Means m q n t) hl (by omega) hf hwalk (by omega)).congr
    fun _ => bundle_means hb

/-- The walk returns on the packets, whatever their nesting, and throws on anything else. -/
theorem walkContents_decides (hm : m.length < 2 ^ 31) :
    ∀ (fuel : Nat) {p : Nat} {size : Int}, p + size.toNat ≤ m.length →
    size.toNat ≤ fuel → Decides (walkContents m fuel p size) fun _ => ∃ t, Means m p size t := by
  intro fuel
  induction fuel with
  | zero => exact fun hl hfuel => walkContents_message hm 0 hl fun h => by omega
  | succ fuel ih =>
    intro p size hl hfuel
    by_cases hh : 0 < size ∧ m[p]? = some (ch '#')
    · unfold walkContents
      rw [isBundle_eq hl hh.1, ok_bind, decide_eq_true hh.2, if_pos rfl]
      refine (((ReceivedBundle.tryInit_decides hl).mapErr (g := Exn.malformedBundle)).bind
        (T := fun _ _ => ∃ t, Means m p size t) fun b hb => ?_).congr fun _ => ?_
      · obtain ⟨es, hb, rfl⟩ := hb
        have h16 := hb.2.1
        refine walkBundle_decides hm hl hb fun x hx => ?_
        -- an element begins behind the sixteen bytes of its bundle's head
        have hin := hb.2.2.2.inside x hx
        exact ih (by simp only [Int.toNat_natCast]; omega) (by omega)
      · constructor
        · exact fun h => h.choose_spec.2
        · intro h
          obtain ⟨t, ht⟩ := h
          cases ht with
          | message hs hno _ => exact absurd hh.2 hno
          | @bundle _ _ es _ hb hall => exact ⟨_, ⟨es, hb, rfl⟩, _, .bundle hb hall⟩
    · exact walkContents_message hm _ hl hh

/-! ## Printing what was walked -/

/-- The printer finds nothing wrong in a packet, also below the nesting that it prints. -/
theorem Means.printable (t : PacketTree) : ∀ {p : Nat} {size : Int}, Means m p size t → ∀ d, Printable m d p size := by
  induction t using PacketTree.induction with
  | message address arguments =>
    intro p size h d
    cases h with
    | message hs hh hd =>
      obtain ⟨r, -, hr⟩ := hd.message size
      exact .message hs hh hr
  | bundle timeTag elements ih =>
    intro p size h d
    cases h with
    | @bundle _ _ es _ hb hall =>
      cases d with
      | zero => exact .limit hb.1.1 (bundleTag_head hb.2.2.1)
      | succ d =>
        refine .bundle hb ?_
        clear hb
        induction hall with
        | nil => simp
        | cons hx _ ihs =>
          exact List.forall_mem_cons.mpr ⟨ih _ (List.mem_cons_self ..) hx d, ihs fun e he =>
            ih e (List.mem_cons_of_mem _ he)⟩

variable {fmt : Formats} {data : Bytes} {s : Thread}

/-- So it prints the packet to its end. -/
theorem printed {q : PacketBuffer} {t : PacketTree} (h : Means q.bytes 0 q.bytes.length t) :
    ∃ y, Ends (printPacket fmt q) 0 (.done y) := by
  obtain ⟨y, hy, hdone⟩ := printPacket_done fmt q
  have hd := hdone.mpr (Means.printable t h 64)
  cases y with
  | done text => exact ⟨text, hy⟩
  | thrown => exact hd.elim

/-- Without an exception, and with the indentation that it began with. -/
theorem print_means {buffer : Bytes} {t : PacketTree} (h : Means buffer 0 buffer.length t) (hs : s.indent = 0) :
    ∃ s', print fmt buffer s = ok s' ∧ s'.indent = 0 := by
  have hvalid : ReceivedPacket.validateSizeNoThrow buffer.length = none := validateSizeNoThrow_none.mpr h.sizeOk
  obtain ⟨y, hy⟩ := @printed fmt ⟨buffer, hvalid⟩ t h
  obtain ⟨os', he, -⟩ := hy .fresh
  rw [print, dif_pos hvalid, hs]
  exact ⟨_, he, rfl⟩

/-! ## The inputs -/

/-- What the gate accepts at some bound means a packet. -/
theorem accepted_iff_means {buffer : Bytes} :
    (∃ bound, tryValidatePacket buffer 0 buffer.length bound = ok ()) ↔ ∃ t, Means buffer 0 buffer.length t := by
  have hl : 0 + (buffer.length : Int).toNat ≤ buffer.length := by simp
  constructor
  · intro h
    obtain ⟨bound, h⟩ := h
    obtain ⟨t, ht, -⟩ := ((tryValidatePacket_decides bound 0 _ hl).iff.mp h).means hl
    exact ⟨t, ht⟩
  · intro h
    obtain ⟨t, ht⟩ := h
    exact ⟨t.nesting, (tryValidatePacket_decides _ 0 _ hl).iff.mpr (Means.valid t ht (Nat.le_refl _))⟩

/-- One input: the target returns, and has printed the packets. -/
theorem testOneInput_spec (hd : data.length < 2 ^ 32) (hs : s.indent = 0) :
    ∃ b s', testOneInput fmt data s = ok (b, s') ∧ s'.indent = 0 ∧
      (b = true ↔ ∃ bound, tryValidatePacket (trim data) 0 (trim data).length bound = ok ()) := by
  rw [accepted_iff_means, testOneInput]
  have hlen : (trim data).length < 2 ^ 32 := by
    rw [trim, List.length_take]
    omega
  generalize trim data = buffer at hlen
  dsimp only
  split
  · rename_i h0
    refine ⟨false, s, rfl, hs, iff_of_false Bool.false_ne_true fun h => ?_⟩
    obtain ⟨t, ht⟩ := h
    have := ht.sizeOk.1
    omega
  · rcases ReceivedPacket.mk'_eq 0 (toElementSize buffer.length) with ⟨hok, hmk⟩ | ⟨hno, what, hmk⟩
    · have hsame : toElementSize buffer.length = buffer.length := by
        obtain ⟨h0, hmax, -⟩ := hok
        rw [ReceivedPacket.toElementSize_eq] at h0 hmax ⊢
        split at h0 <;> omega
      rw [hsame] at hmk hok
      rw [hsame, hmk, ok_bind]
      dsimp only
      have hmax := hok.2.1
      have hwalk := @walkContents_decides buffer (by omega) buffer.length 0 buffer.length (by simp) (by simp)
      rcases hwalk.ok_or_err with ⟨u, hw, t, ht⟩ | ⟨e, hw, hnone⟩
      · obtain ⟨s', hprint, hs'⟩ := @print_means fmt s buffer t ht hs
        rw [hw]
        dsimp only
        rw [hprint]
        exact ⟨true, s', rfl, hs', iff_of_true rfl ⟨t, ht⟩⟩
      · rw [hw]
        exact ⟨false, s, rfl, hs, iff_of_false Bool.false_ne_true (hnone ())⟩
    · rw [hmk, err_bind]
      refine ⟨false, s, rfl, hs, iff_of_false Bool.false_ne_true fun h => ?_⟩
      obtain ⟨t, ht⟩ := h
      have hmax : (oscBundleElementSizeMax : Int) = 0x7FFFFFFC := rfl
      have hsize := ht.sizeOk
      exact hno (by rwa [ReceivedPacket.toElementSize_of_range ⟨by omega, by rw [hmax]; exact hsize.2.1⟩])

theorem testAll_spec (fmt : Formats) : ∀ (inputs : List Bytes) {s : Thread},
    (∀ data ∈ inputs, data.length < 2 ^ 32) → s.indent = 0 →
    ∃ done s', testAll fmt inputs s = ok (done, s') ∧ s'.indent = 0 ∧
      List.Forall₂ (fun data b => b = true ↔ ∃ bound,
        tryValidatePacket (trim data) 0 (trim data).length bound = ok ()) inputs done
  | [], s, _, hs => ⟨[], s, rfl, hs, .nil⟩
  | data :: inputs, s, hd, hs => by
    obtain ⟨b, s₁, h1, hs1, hb⟩ := @testOneInput_spec fmt data s (hd data (List.mem_cons_self ..)) hs
    obtain ⟨done, s₂, h2, hs2, hall⟩ := testAll_spec fmt inputs (fun x hx => hd x (List.mem_cons_of_mem _ hx)) hs1
    refine ⟨b :: done, s₂, ?_, hs2, .cons hb hall⟩
    rw [testAll, h1, ok_bind]
    dsimp only
    rw [h2, ok_bind]

/-- Whatever the inputs of a process: the target returns from each of them, gets behind the printing
    exactly on those whose words the gate accepts at some bound, and never leaves the indentation
    raised. -/
theorem finds_nothing (fmt : Formats) (inputs : List Bytes) (h : ∀ data ∈ inputs, data.length < 2 ^ 32) :
    ∃ done s, testAll fmt inputs .fresh = ok (done, s) ∧ s.indent = 0 ∧
      List.Forall₂ (fun data b => b = true ↔ ∃ bound,
        tryValidatePacket (trim data) 0 (trim data).length bound = ok ()) inputs done :=
  testAll_spec fmt inputs h rfl

/-- The packet whose printing leaves the indentation raised, and one that is printed behind it. -/
theorem finds_nothing_unterminated :
    let fmt : Formats := ⟨fun _ => [], fun _ => [], fun _ => none⟩
    ∃ s, testAll fmt [unterminated.bytes ++ [7], oneMessageBundle] .fresh = ok ([false, true], s) ∧ s.indent = 0 := by
  intro fmt
  obtain ⟨done, s, hrun, hs, -⟩ := finds_nothing fmt [unterminated.bytes ++ [7], oneMessageBundle] (by decide)
  have hd : Prod.fst <$> testAll fmt [unterminated.bytes ++ [7], oneMessageBundle] .fresh = ok [false, true] := by
    decide +kernel
  rw [hrun, map_ok] at hd
  obtain rfl := Out.ok.inj hd
  exact ⟨s, hrun, hs⟩

end OscTap.Fuzz
