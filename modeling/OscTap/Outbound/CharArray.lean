/-
  OscTap.Outbound.CharArray — a char array and the C string it holds.

  `operator<<(const char (&)[N])` copies all `N` bytes; `operator<<(string_view)` of the C
  string in them ends it and pads it with NULs. An append writes one block, so calls behind
  either of two appends see the same stream if the blocks are equal. If they are not, there
  is a message in which a reader sees the difference (`probe`): an earlier string has a NUL
  inside, and the reader takes the array for the content of a blob.

  Proved: `charArray_exact`; `zeroFilled_shifts`: a zero-filled array shifts an integer.
-/
import OscTap.Outbound.Reserve
import OscTap.Outbound.Message

namespace OscTap.Outbound

open OscTap.Lib OscTap.Lib.Out OscTap.Osc OscTap.Received

/-- What an observer of the calls knows of the start of the message in progress: the address
    is behind the slot of the last `BeginMessage` that returned. -/
def seeStart (op : Op) (s : OutboundPacketStream) (start : Nat) : Nat :=
  match op with
  | .beginMessage _ | .beginMessageN _ =>
    match apply op s with
    | ok _ => s.messageCursor + slotOf s
    | _ => start
  | _ => start

def messageStart (ops : List Op) (s : OutboundPacketStream) : Nat := watch apply seeStart ops s 0

def restOps (rhs : Operand) (after : List Operand) : List Op := .append rhs :: (after.map Op.append ++ [.endMessage])

/-- In every state with a message in progress that any calls reach from any buffer: whatever
    else is appended, the finished message reads the same with the array as with the C string
    in it, where both fit. -/
def StreamsAsCString (ref : Bytes) : Prop :=
  ∀ (buffer : Bytes) (past : List Op) (s : OutboundPacketStream), runCaught apply past (.mk' buffer) = ok s →
    s.messageIsInProgress = true → ∀ (after : List Operand) (s₁ s₂ : OutboundPacketStream),
      runAll apply (restOps (.charArray ref) after) s = ok s₁ →
      runAll apply (restOps (.stringView (upToNul ref)) after) s = ok s₂ →
      readMessage s₁.packet (messageStart past (.mk' buffer)) (s₁.size - messageStart past (.mk' buffer)) =
        readMessage s₂.packet (messageStart past (.mk' buffer)) (s₂.size - messageStart past (.mk' buffer))

variable {ε : Type} {s s' : OutboundPacketStream} {ref : Bytes}

/-! ## One block -/

theorem wr_room {m w : Bytes} {p : Nat} (hw : w ≠ []) :
    Weakly (wr m p w : Out ε Bytes) (fun m' => m'.length = m.length ∧ p + w.length ≤ m.length) (fun _ => False) := by
  unfold wr
  split
  · rename_i h
    have hle := h.resolve_left hw
    exact ⟨length_splice hle, hle⟩
  · trivial

def Inside (s : OutboundPacketStream) : Prop := s.argumentCurrent ≤ s.data.length

theorem put_inside (s : OutboundPacketStream) {bytes : Bytes} (h : bytes ≠ []) :
    Weakly (s.put bytes : Out ε _) Inside (fun _ => False) :=
  (wr_room h).bind fun _ hx => by
    show s.argumentCurrent + bytes.length ≤ _
    rw [hx.1]
    exact hx.2

theorem zeroPad_inside : ∀ (n : Nat) {data : Bytes} {p i : Nat}, n = padLen i → p ≤ data.length →
    Weakly (zeroPad data p i : Out ε (Bytes × Nat)) (fun x => x.2 ≤ x.1.length) (fun _ => False)
  | 0, data, p, i, hn, hp => by
    rw [zeroPad, if_neg (by unfold padLen at hn; omega)]
    exact hp
  | n + 1, data, p, i, hn, hp => by
    rw [zeroPad, if_pos (by unfold padLen at hn; omega)]
    refine (wr_room (List.cons_ne_nil 0 [])).bind fun data' hx => ?_
    exact zeroPad_inside n (by unfold padLen at hn ⊢; omega) (hx.1 ▸ hx.2)

theorem padArgument_inside (h : Inside s) (i : Nat) : Weakly (s.padArgument i : Out ε _) Inside (fun _ => False) :=
  (zeroPad_inside (padLen i) rfl h).bind fun _ hx => hx

/-- An append that returns has written its block, whatever it was checked with. -/
theorem append_returns {k : Nat} {tag : TypeTag} {bytes : Bytes}
    {f : OutboundPacketStream → Out (Exn × OutboundPacketStream) OutboundPacketStream}
    (hl : s.typeTagsCurrent ≤ s.data.length) (ha : Appended s bytes.length s')
    (h : (s.checkForAvailableArgumentSpace k >>= fun _ => s.pushTag tag >>= f) = ok s')
    (hin : ∀ s, Weakly (f s) Inside (fun _ => False))
    (hf : ∀ s : OutboundPacketStream, s.argumentCurrent + bytes.length ≤ s.data.length → f s = s.put bytes) :
    s' = appended s tag bytes := by
  obtain ⟨h0, hlen, -, harg, -⟩ := ha
  have hinside : Inside s' := by
    refine Weakly.ok_of_eq (Q := fun _ => True)
      (((require_any s _).mono (fun _ h => h) fun _ _ => trivial).bind fun _ _ => ?_) h
    exact Weakly.quiet ((pushTag_any s tag).bind fun s _ => hin s)
  rw [Inside, harg, hlen] at hinside
  rw [OutboundPacketStream.checkForAvailableArgumentSpace, OutboundPacketStream.require] at h
  split at h
  · cases h
  · rw [ok_bind, pushTag_put tag h0 hl hinside hf] at h
    exact (Out.ok.inj h).symm

theorem charArray_returns (hl : s.typeTagsCurrent ≤ s.data.length) (hne : ref ≠ []) (h : s.charArray ref = ok s') :
    s' = appended s .stringTag (padded ref) :=
  append_returns hl (Weakly.ok_of_eq (charArray_any s ref) h) h
    (fun s => (put_inside s hne).bind fun _ h => padArgument_inside h _) fun _ hr => put_pad rfl hr

theorem stringView_returns {rhs : Bytes} (hl : s.typeTagsCurrent ≤ s.data.length) (h : s.stringView rhs = ok s') :
    s' = appended s .stringTag (strBlock rhs) := by
  refine append_returns hl (Weakly.ok_of_eq (stringView_any s rhs) h) h (fun s => ?_) fun s hr =>
    (put_nonempty s rhs _).trans (string_put hr)
  rw [show (_ : Out (Exn × OutboundPacketStream) OutboundPacketStream) = _ from put_nonempty s rhs _]
  exact (put_any s rhs).bind fun s _ => (put_inside s (List.cons_ne_nil 0 [])).bind fun _ h => padArgument_inside h _

/-- An array that is the block of its C string cannot be told from it. -/
theorem streamsAsCString (h : padded ref = strBlock (upToNul ref)) : StreamsAsCString ref := by
  intro buffer past s hrun _ after s₁ s₂ h1 h2
  have ho := run_ordered (mk'_ordered buffer) hrun
  have hl : s.typeTagsCurrent ≤ s.data.length := ho.tags.trans_eq ho.capacity.symm
  have hne : ref ≠ [] := by
    rintro rfl
    exact absurd (congrArg List.length h) (by decide)
  obtain ⟨t₁, ha1, hr1⟩ := runAll_cons h1
  obtain ⟨t₂, ha2, hr2⟩ := runAll_cons h2
  have ht1 := charArray_returns hl hne ha1
  have ht2 := stringView_returns hl ha2
  rw [h, ← ht2] at ht1
  rw [ht1] at hr1
  rw [Out.ok.inj (hr1.symm.trans hr2)]

/-! ## Two blocks that differ -/

/-- Behind a string with a NUL inside and an empty blob: the reader takes `n` for the size of
    the blob, and what is behind the string for its content. -/
def probePast (n : Nat) : List Operand := [.stringView (98 :: 0 :: 0 :: 0 :: be32 n), .blob [] 0]

/-- A message with a string operand, and one behind it that is read as two. -/
def probe (n : Nat) (rhs : Operand) (c : UInt8) : List Operand := probePast n ++ rhs :: [.stringView [c, 0, 0, 0]]

/-- What a reader takes the message with the array for. -/
def probeValues (content : Bytes) (c : UInt8) : List ArgValue :=
  [.string [98], .blob (List.replicate 8 0 ++ content), .string [c], .string []]

variable {m : Bytes} {vs : List ArgValue} {rhs : Operand} {n p q : Nat} {c : UInt8}

theorem probe_bytes (n : Nat) (rhs : Operand) (c : UInt8) : (probe n rhs c).flatMap Operand.bytes =
    strBlock [98] ++ (be32 n ++ (List.replicate 8 0 ++ (rhs.bytes ++ (strBlock [c] ++ strBlock [])))) := by
  have h1 : strBlock (98 :: 0 :: 0 :: 0 :: be32 n) = strBlock [98] ++ (be32 n ++ List.replicate 4 0) := by
    simp [strBlock, padded, padLen, be32, List.replicate_succ]
  have h2 : be32 0 ++ padded [] = List.replicate 4 0 := rfl
  have h3 : strBlock [c, 0, 0, 0] = strBlock [c] ++ strBlock [] := by
    simp [strBlock, padded, padLen, List.replicate_succ]
  show strBlock (98 :: 0 :: 0 :: 0 :: be32 n) ++
    ((be32 0 ++ padded []) ++ (rhs.bytes ++ (strBlock [c, 0, 0, 0] ++ []))) = _
  rw [h1, h2, h3, show List.replicate 8 (0 : UInt8) = List.replicate 4 0 ++ List.replicate 4 0 from rfl,
    List.append_nil]
  simp only [List.append_assoc]

theorem probe_tags (ht : rhs.tag = .stringTag) : operandTags (probe n rhs c) = tagBytes (probeValues ref c) := by
  show [TypeTag.stringTag.value, TypeTag.blobTag.value, rhs.tag.value, TypeTag.stringTag.value] = _
  rw [ht]
  rfl

theorem padded_of_mod {b : Bytes} (h : b.length % 4 = 0) : padded b = b := by
  rw [padded, padLen, h]
  exact List.append_nil b

/-- The reader takes the array for the content of the blob. -/
theorem probe_enc (hn : n = 8 + (padded ref).length) : messageBytes [ch '/'] (probe n (.charArray ref) c) =
    (PacketTree.message [ch '/'] (probeValues (padded ref) c)).enc := by
  have hmod := padLen_mod ref.length
  have hlen : (List.replicate 8 0 ++ padded ref).length = n := by rw [List.length_append, List.length_replicate, hn]
  have hpad : padded (List.replicate 8 0 ++ padded ref) = List.replicate 8 0 ++ padded ref :=
    padded_of_mod (by rw [hlen, hn, length_padded]; omega)
  have henc : (probeValues (padded ref) c).flatMap ArgValue.enc =
      strBlock [98] ++ (be32 n ++ (List.replicate 8 0 ++ (padded ref ++ (strBlock [c] ++ strBlock [])))) := by
    simp only [probeValues, List.flatMap_cons, List.flatMap_nil, ArgValue.enc, hlen, hpad, List.append_assoc,
      List.append_nil]
  rw [messageBytes, probe_tags rfl, probe_bytes, PacketTree.enc, henc]
  rfl

/-- In a read that shows a string and a blob, the content is behind the empty blob. -/
theorem probe_shows (n : Nat) (rhs : Operand) (c : UInt8) :
    ∃ p, At (messageBytes [ch '/'] (probe n rhs c)) p
      (List.replicate 8 0 ++ (rhs.bytes ++ (strBlock [c] ++ strBlock []))) ∧
      ∀ {d : Decoded} {data : Bytes} {vs : List ArgValue}, d.arguments = .string [98] :: .blob data :: vs →
        Spells (messageBytes [ch '/'] (probe n rhs c)) 0 (messageBytes [ch '/'] (probe n rhs c)).length d →
        At (messageBytes [ch '/'] (probe n rhs c)) p data := by
  obtain ⟨h1, h2, h3⟩ := message_parts (at_self (messageBytes [ch '/'] (probe n rhs c)))
  rw [probe_bytes, at_append, at_append] at h3
  obtain ⟨hb, -, hrest⟩ := h3
  refine ⟨_, hrest, fun hd hs => ?_⟩
  obtain ⟨-, -, -, a, -, hsa, ⟨hnil, -⟩ | ⟨-, -, -, b, -, hsb, -, -, q, hq, hlies⟩⟩ := hs
  · rw [hd] at hnil
    cases hnil
  · rw [hd] at hlies
    obtain rfl := hsa.unique ((str4_at h1).mpr (strBlock_whole.mpr (show StaysWhole [ch '/'] by decide)))
    obtain rfl := hsb.unique (tags_at h2 (operandTags_noNul _)).2.1
    cases hlies with
    | cons hr _ hblob =>
      obtain rfl := IsStr4.unique hr ((str4_at hb).mpr (strBlock_whole.mpr (show StaysWhole [98] by decide)))
      exact hblob.blob_at hq

theorem at_unique {x y z : Bytes} (h : At m p x) (h' : At m p (y ++ z)) (hl : y.length = x.length) : x = y := by
  have h1 := h.2
  have h2 := ((at_append y z).mp h').1.2
  rw [hl] at h2
  exact h1.symm.trans h2

theorem exists_other (x : Option UInt8) : ∃ c : UInt8, c ≠ 0 ∧ x ≠ some c := by
  by_cases h : x = some 1
  · exact ⟨2, by decide, by rw [h]; decide⟩
  · exact ⟨1, by decide, h⟩

theorem returns_free {b : Block} (h : apply b.op s = ok s') : ¬ b.Refused s := fun hb => by
  obtain ⟨e, he⟩ := refused_throws hb
  rw [h] at he
  cases he

/-- An append that is counted and returns has written its block. -/
theorem counted_returns {cap : Nat} (ho : Ordered cap s) (hc : rhs.Counted) (hr : rhs.Readable)
    (h : append s rhs = ok s') :
    s' = appended s rhs.tag rhs.bytes := by
  have hfree := returns_free (b := .append rhs) h
  have h0 := (Weakly.ok_of_eq (operand_any s rhs) h).1
  rw [operand_counted hc hr h0 (ho.tags.trans_eq ho.capacity.symm) hfree] at h
  exact (Out.ok.inj h).symm

theorem beginMessageN_returns {cap : Nat} {address : Bytes} (ho : Ordered cap s) (hcount : address.length + 4 < 2 ^ 32)
    (h : s.beginMessageN address = ok s') : s' = begun s (strBlock address) := by
  obtain ⟨he, -⟩ := begin_counted ho hcount (returns_free (b := .beginMessageN address) h)
    (f := writeAddressN address) writeAddressN_eq
  exact Out.ok.inj (h.symm.trans he)

/-- The probe is in a message, which starts where the buffer does. -/
theorem probe_inMessage {buffer : Bytes}
    (h : runAll apply (.beginMessageN [ch '/'] :: (probePast n).map Op.append) (.mk' buffer) = ok s) :
    s.messageIsInProgress = true ∧ messageStart (.beginMessageN [ch '/'] :: (probePast n).map Op.append)
      (.mk' buffer) = 0 := by
  constructor
  · obtain ⟨s₁, h1, h⟩ := runAll_cons h
    obtain ⟨s₂, h2, h⟩ := runAll_cons h
    obtain ⟨s₃, h3, h⟩ := runAll_cons h
    have ho := mk'_ordered buffer
    have ho1 := Began.ordered ho (Weakly.ok_of_eq (beginMessageN_any _ [ch '/']) h1)
    have ho2 := Appended.ordered ho1 (Weakly.ok_of_eq (stringView_any s₁ _) h2)
    have e1 := beginMessageN_returns ho (show ([ch '/'] : Bytes).length + 4 < 2 ^ 32 by decide) h1
    have e2 := @counted_returns s₁ s₂ (.stringView (98 :: 0 :: 0 :: 0 :: be32 n)) _ ho1
      (show 8 + 4 < 2 ^ 32 by decide) trivial h2
    have e3 := @counted_returns s₂ s₃ (.blob [] 0) _ ho2 (show 0 ≤ (0 : Int32).toInt by decide)
      (show (0 : Int32).toInt ≤ 0 by decide) h3
    rw [← Out.ok.inj h, e3]
    show s₂.messageIsInProgress = true
    rw [e2]
    show s₁.messageIsInProgress = true
    rw [e1]
    rfl
  · show seeStart (.beginMessageN [ch '/']) (.mk' buffer) 0 = 0
    simp only [seeStart]
    cases apply (.beginMessageN [ch '/']) (.mk' buffer) <;> rfl

/-- The probe, up to the string operand, and from it on. -/
theorem probe_runs (hc : rhs.Copies) (hl : (messageBytes [ch '/'] (probe n rhs c)).length ≤ 0x7FFFFFFC) {buffer : Bytes}
    (hb : (messageBytes [ch '/'] (probe n rhs c)).length ≤ buffer.length) :
    ∃ s s', runAll apply (.beginMessageN [ch '/'] :: (probePast n).map Op.append) (.mk' buffer) = ok s ∧
      runAll apply (restOps rhs [.stringView [c, 0, 0, 0]]) s = ok s' ∧
      s'.size = (messageBytes [ch '/'] (probe n rhs c)).length ∧ s'.packet = messageBytes [ch '/'] (probe n rhs c) := by
  have hcopies : ∀ x ∈ probe n rhs c, x.Copies := by
    intro x hx
    simp only [probe, probePast, List.cons_append, List.nil_append, List.mem_cons, List.not_mem_nil, or_false] at hx
    rcases hx with rfl | rfl | rfl | rfl
    · trivial
    · exact ⟨by decide, by decide⟩
    · exact hc
    · trivial
  have hrun := message_streams hcopies hl buffer
  rw [if_neg (by omega)] at hrun
  obtain ⟨s', he, -, hs, hp⟩ := hrun
  rw [show messageOps [ch '/'] (probe n rhs c) = (.beginMessageN [ch '/'] :: (probePast n).map Op.append) ++
    restOps rhs [.stringView [c, 0, 0, 0]] from rfl, runAll_append] at he
  cases hx : runAll apply (.beginMessageN [ch '/'] :: (probePast n).map Op.append) (.mk' buffer) with
  | ok s => exact ⟨s, s', rfl, by rw [hx] at he; exact he, hs, hp⟩
  | err e => rw [hx] at he; cases he
  | fault f => rw [hx] at he; cases he

theorem length_probe (ht : rhs.tag = .stringTag) :
    (messageBytes [ch '/'] (probe n rhs c)).length = 36 + rhs.bytes.length := by
  have hword : ∀ c : UInt8, (strBlock [c]).length = 4 := fun c => by rw [OpenStack.length_strBlock]; rfl
  have htags : (tagBlock (tagBytes (probeValues [] c))).length = 8 := by
    rw [tagBlock, OpenStack.length_strBlock, show (ch ',' :: tagBytes (probeValues [] c)).length = 5 from rfl]
    rfl
  have hempty : (strBlock []).length = 4 := rfl
  rw [messageBytes, probe_bytes, @probe_tags [] rhs n c ht]
  simp only [List.length_append, List.length_replicate, length_be32, hword, htags, hempty]
  omega

theorem probe_sendable {content : Bytes} (hl : content.length + 8 ≤ 0x7FFFFFFC) (hc : c ≠ 0) :
    (PacketTree.message [ch '/'] (probeValues content c)).Sendable := by
  rw [PacketTree.Sendable]
  refine ⟨⟨by decide, by decide⟩, ?_, nested_iff_depth.mpr rfl⟩
  intro v hv
  simp only [probeValues, List.mem_cons, List.not_mem_nil, or_false] at hv
  rcases hv with rfl | rfl | rfl | rfl
  · show 0 ∉ [98]
    decide
  · show (List.replicate 8 0 ++ content).length ≤ 0x7FFFFFFC
    rw [List.length_append, List.length_replicate]
    omega
  · show 0 ∉ [c]
    exact fun h => hc (List.mem_singleton.mp h).symm
  · exact List.not_mem_nil

/-- Where the two read the same, the array's block is where a reader of the other finds the
    block of the C string. -/
theorem streams_same (hsize : ref.length + 64 ≤ 0x7FFFFFFC) (h : StreamsAsCString ref)
    (hle : (strBlock (upToNul ref)).length ≤ (padded ref).length) (hc : c ≠ 0) :
    ∃ m p, At m p (padded ref) ∧ At m p (strBlock (upToNul ref) ++ (strBlock [c] ++ strBlock [])) := by
  obtain ⟨n, hn⟩ : ∃ n, n = 8 + (padded ref).length := ⟨_, rfl⟩
  have hpad : (padded ref).length < ref.length + 4 := by
    have := padLen_lt ref.length
    rw [length_padded]
    omega
  have hlen1 : (messageBytes [ch '/'] (probe n (.charArray ref) c)).length = 36 + (padded ref).length :=
    length_probe rfl
  have hlen2 : (messageBytes [ch '/'] (probe n (.stringView (upToNul ref)) c)).length = 36 +
    (strBlock (upToNul ref)).length :=
    length_probe rfl
  obtain ⟨buffer, hb⟩ : ∃ buffer : Bytes, buffer.length = 36 + (padded ref).length :=
    ⟨List.replicate _ 0, List.length_replicate⟩
  obtain ⟨s, s₁, hp1, hr1, hs1, hb1⟩ :=
    @probe_runs (.charArray ref) n c trivial (by omega) buffer (by omega)
  obtain ⟨s', s₂, hp2, hr2, hs2, hb2⟩ :=
    @probe_runs (.stringView (upToNul ref)) n c trivial (by omega) buffer (by omega)
  obtain rfl := Out.ok.inj (hp1.symm.trans hp2)
  obtain ⟨hprogress, hstart⟩ := probe_inMessage hp1
  have hsame := h _ _ s (runCaught_of_all hp1) hprogress _ s₁ s₂ hr1 hr2
  rw [hstart, hs1, hs2, hb1, hb2, Int.ofNat_zero, Int.sub_zero, Int.sub_zero] at hsame
  have hspells := enc_spells (at_self (PacketTree.message [ch '/'] (probeValues (padded ref) c)).enc)
    (probe_sendable (by omega) hc)
  rw [← probe_enc hn, Nat.zero_add] at hspells
  have hspells' := (message_reads (by omega)).mp (hsame.symm.trans ((message_reads (by omega)).mpr hspells))
  obtain ⟨p, hat, hshow⟩ := probe_shows n (.stringView (upToNul ref)) c
  exact ⟨_, _, ((at_append _ _).mp (hshow rfl hspells')).2, ((at_append _ _).mp hat).2⟩

theorem upToNul_lt (h : 0 ∈ ref) : (upToNul ref).length < ref.length := by
  have hs := CStrAt.of_mem h (m := ref) (p := 0) fun i _ => by rw [Nat.zero_add]
  have := hs.lt
  omega

theorem padded_of_streams (h0 : 0 ∈ ref) (hsize : ref.length + 64 ≤ 0x7FFFFFFC) (h : StreamsAsCString ref) :
    padded ref = strBlock (upToNul ref) := by
  have hle : (strBlock (upToNul ref)).length ≤ (padded ref).length := by
    have := upToNul_lt h0
    rw [OpenStack.length_strBlock, length_padded]
    unfold padLen
    omega
  obtain ⟨c, hc, hother⟩ := exists_other (padded ref)[(strBlock (upToNul ref)).length]?
  obtain ⟨m, p, h1, h2⟩ := streams_same hsize h hle hc
  rcases Nat.lt_or_eq_of_le hle with hlt | heq
  · -- The first byte of the hidden words would be the first byte behind the string.
    have h3 : At m (p + (strBlock (upToNul ref)).length) (c :: _) :=
      ((at_append (strBlock [c]) _).mp ((at_append _ _).mp h2).2).1
    exact absurd ((h1.getElem? hlt).symm.trans h3.get) hother
  · exact at_unique h1 h2 heq

/-- A char array that holds a C string streams as it if, and unless it fills a packet only if,
    it has the bytes of the padded string: NULs up to the next multiple of four, and no more. -/
theorem charArray_exact (ref : Bytes) (h0 : 0 ∈ ref) :
    (padded ref = strBlock (upToNul ref) → StreamsAsCString ref) ∧
      (ref.length + 64 ≤ oscBundleElementSizeMax → StreamsAsCString ref → padded ref = strBlock (upToNul ref)) :=
  ⟨streamsAsCString, padded_of_streams h0⟩

theorem charArray_exact_ab : StreamsAsCString [97, 98, 0, 0] ∧
    padded [97, 98, 0, 0] = strBlock (upToNul [97, 98, 0, 0]) :=
  have h := charArray_exact [97, 98, 0, 0] (by decide)
  ⟨h.1 (by decide), h.2 (by decide) (h.1 (by decide))⟩

/-- `char ref[8] = "ab"` and the integer 1: the NULs of the array are read as the integer. -/
theorem zeroFilled_shifts : ¬ StreamsAsCString [97, 98, 0, 0, 0, 0, 0, 0] ∧
    readMessage (messageBytes [ch '/'] [.charArray [97, 98, 0, 0, 0, 0, 0, 0], .int32 1]) 0 20 =
      ok ⟨[ch '/'], 2, [ch 's', ch 'i'], [.string [97, 98], .int32 0]⟩ ∧
    readMessage (messageBytes [ch '/'] [.stringView (upToNul [97, 98, 0, 0, 0, 0, 0, 0]), .int32 1]) 0 16 =
      ok ⟨[ch '/'], 2, [ch 's', ch 'i'], [.string [97, 98], .int32 1]⟩ :=
  ⟨fun h => absurd (padded_of_streams (by decide) (by decide) h) (by decide), by decide +kernel, by decide +kernel⟩

end OscTap.Outbound
