/-
  OscTap.Outbound.Refinement — the encoder's pointers refine the stack of open elements.

  `Rep s a`: the stream's buffer holds the front and the arguments of `a`, then (while a
  message is open) its tags at the far end, and the pointers say where. The loops and the
  element links are described once (`zeroPad_eq`, `endElement_spec`, ..); then every call
  does on the stream what `OpenStack.step` does on the stack (`apply_matches`).
-/
import OscTap.Outbound.Stack

namespace OscTap.Outbound

open OscTap.Lib OscTap.Lib.Out OscTap.Osc
open OpenStack (front_push ptr_push length_front_push front_grow opens_grow length_front_pop pop_fields grow_fields
  length_tagBlock size_finish)

/-! ## The loops -/

theorem roundUp4_eq {x : Nat} (h : x + 3 < 2 ^ 32) : roundUp4 x = x + padLen x := by
  rw [roundUp4_of_lt h]; unfold padLen; omega

variable {ε : Type}

theorem zeroPad_eq : ∀ (n : Nat) {data : Bytes} {p i : Nat}, n = padLen i → p + n ≤ data.length →
    (zeroPad data p i : Out ε (Bytes × Nat)) = ok (splice data p (List.replicate n 0), p + n)
  | 0, data, p, i, hn, _ => by
    rw [zeroPad, if_neg (by unfold padLen at hn; omega)]
    simp
  | n + 1, data, p, i, hn, hl => by
    have hw : p + ([0] : Bytes).length ≤ data.length := by simp only [List.length_cons, List.length_nil]; omega
    rw [zeroPad, if_pos (by unfold padLen at hn; omega), wr_of_le hw, ok_bind,
      zeroPad_eq n (by unfold padLen at hn ⊢; omega) (by rw [length_splice hw]; omega)]
    have := splice_splice (m := data) (v := [0]) (w := List.replicate n 0) (p := p)
      (by simp only [List.length_cons, List.length_nil, List.length_replicate]; omega)
    rw [List.length_singleton] at this
    rw [this, List.replicate_succ, Nat.add_right_comm, Nat.add_assoc]; rfl

theorem zeroFill_eq : ∀ (n : Nat) {data : Bytes} {p : Nat}, p + n ≤ data.length →
    (zeroFill data p n : Out ε Bytes) = ok (splice data p (List.replicate n 0))
  | 0, data, p, _ => by simp [zeroFill]
  | n + 1, data, p, hl => by
    have hw : p + ([0] : Bytes).length ≤ data.length := by simp only [List.length_cons, List.length_nil]; omega
    rw [zeroFill, wr_of_le hw, ok_bind, zeroFill_eq n (by rw [length_splice hw]; omega)]
    have := splice_splice (m := data) (v := [0]) (w := List.replicate n 0) (p := p)
      (by simp only [List.length_cons, List.length_nil, List.length_replicate]; omega)
    rw [List.length_singleton] at this
    rw [this, List.replicate_succ]; rfl

/-- The tags come out in the order in which they were appended. -/
theorem copyReversed_eq (tags : Bytes) (p : Nat) : ∀ (k : Nat) {data : Bytes} {i : Nat}, i + k = tags.length →
    p + tags.length ≤ data.length →
    (copyReversed data p tags i : Out ε Bytes) = ok (splice data (p + i) (tags.reverse.drop i))
  | 0, data, i, hk, _ => by
    rw [copyReversed, dif_neg (by omega), List.drop_eq_nil_of_le (by rw [List.length_reverse]; omega), splice_nil]
  | k + 1, data, i, hk, hl => by
    have hi : i < tags.reverse.length := by rw [List.length_reverse]; omega
    have hw : p + i + ([tags[tags.length - 1 - i]] : Bytes).length ≤ data.length := by
      simp only [List.length_cons, List.length_nil]; omega
    rw [copyReversed, dif_pos (by omega), wr_of_le hw, ok_bind,
      copyReversed_eq tags p k (by omega) (by rw [length_splice hw]; exact hl)]
    have := splice_splice (m := data) (v := [tags[tags.length - 1 - i]]) (w := tags.reverse.drop (i + 1)) (p := p + i)
      (by simp only [List.length_cons, List.length_nil, List.length_drop, List.length_reverse]; omega)
    rw [List.length_singleton] at this
    rw [← Nat.add_assoc, this, List.drop_eq_getElem_cons hi, List.getElem_reverse]; rfl

/-! ## What a stream stands for -/

/-- The buffer up to `argumentCurrent_`, and the links of the open elements. -/
structure Front (s : OutboundPacketStream) (a : OpenStack) : Prop where
  cursor : s.messageCursor = a.front.length
  argument : s.argumentCurrent = a.front.length + a.args.length
  inside : s.argumentCurrent ≤ s.data.length
  bytes : s.data.take s.argumentCurrent = a.front ++ a.args
  ptr : s.elementSizePtr = a.ptr

theorem Front.front_bytes {s : OutboundPacketStream} {a : OpenStack} (h : Front s a) :
    s.data.take a.front.length = a.front := by
  have := congrArg (List.take a.front.length) h.bytes
  rwa [List.take_take, Nat.min_eq_left (by rw [h.argument]; omega), List.take_left] at this

/-- The tags are known only while a message is open: later elements may be written over the
    tags of arguments that were appended outside a message. -/
structure Rep (cap : Nat) (s : OutboundPacketStream) (a : OpenStack) : Prop extends Front s a where
  capacity : s.data.length = cap
  message : s.messageIsInProgress = a.inMessage
  tagCount : s.typeTagsCurrent + a.tags.length = s.data.length
  tags : a.inMessage = true → s.data.drop s.typeTagsCurrent = a.tags

theorem mk'_rep (buffer : Bytes) : Rep buffer.length (OutboundPacketStream.mk' buffer) OpenStack.empty where
  capacity := rfl
  cursor := rfl
  argument := rfl
  inside := Nat.zero_le _
  bytes := rfl
  ptr := rfl
  message := rfl
  tagCount := rfl
  tags := fun h => by cases h

variable {s : OutboundPacketStream} {a : OpenStack} {B cap : Nat}

theorem Rep.tagSlot (h : Rep cap s a) (k : Nat) (ht : a.tags.length + k ≤ 2 ^ 31) :
    roundUp4 ((s.capacity - s.typeTagsCurrent + (k + 2)) % 2 ^ 32) = tagSlot (a.tags.length + k) := by
  have hc : s.capacity - s.typeTagsCurrent = a.tags.length := by
    have := h.tagCount; unfold OutboundPacketStream.capacity; omega
  rw [hc, Nat.mod_eq_of_lt (by omega), roundUp4_eq (by omega), Outbound.tagSlot, ← Nat.add_assoc]

theorem Rep.size_eq (h : Rep cap s a) (ht : a.tags.length < 2 ^ 31) : s.size = a.size := by
  rw [OutboundPacketStream.size, OpenStack.size, h.argument, h.message, h.tagSlot 0 (by omega), Nat.add_zero]

theorem Rep.slot_eq (h : Rep cap s a) : (if s.elementSizeSlotRequired then 4 else 0) = a.slot := by
  have hp : a.ptr = none ↔ a.opens = [] := layout_ptr_none
  rw [OutboundPacketStream.elementSizeSlotRequired, h.ptr, OpenStack.slot]
  by_cases ho : a.opens = []
  · rw [if_pos ho, hp.mpr ho]; rfl
  · rw [if_neg ho, if_pos (Option.isSome_iff_ne_none.mpr fun e => ho (hp.mp e))]

/-! ## Elements -/

theorem length_slotBytes_ptr : (slotBytes a.ptr).length = a.slot := length_slotBytes

/-- `BeginElement`, in any state with room for the slot. -/
theorem beginElement_slot {p : Nat} (hr : p + (slotBytes s.elementSizePtr).length ≤ s.data.length) :
    (s.beginElement p : Out ε _) = ok (p + (slotBytes s.elementSizePtr).length,
      { s with data := splice s.data p (slotBytes s.elementSizePtr),
               elementSizePtr := some (elementPtr s.elementSizePtr p) }) := by
  unfold OutboundPacketStream.beginElement
  cases hp : s.elementSizePtr with
  | none => simp [slotBytes, elementPtr]
  | some q =>
    rw [hp] at hr
    have hw : (wr s.data p (be32 q) : Out ε Bytes) = ok _ := wr_of_le hr
    simp only [hw, ok_bind]
    rfl

/-- The slot's bytes are behind the front. -/
theorem beginElement_eq (h : Rep cap s a) (hr : a.front.length + a.slot ≤ s.data.length) :
    (s.beginElement s.messageCursor : Out ε _) = ok (a.front.length + a.slot,
      { s with data := splice s.data a.front.length (slotBytes a.ptr),
               elementSizePtr := some (elementPtr a.ptr a.front.length) }) := by
  have hs := @beginElement_slot ε s s.messageCursor
  rw [h.ptr, h.cursor, length_slotBytes_ptr] at hs
  rw [h.cursor, hs hr]

/-- A range in the middle of what is known is overwritten. -/
theorem take_splice_middle {m x y z w : Bytes} {n : Nat} (h : m.take n = x ++ y ++ z) (hn : n ≤ m.length)
    (hw : w.length = y.length) : (splice m x.length w).take n = x ++ w ++ z := by
  have hl : n = x.length + y.length + z.length := by
    have := congrArg List.length h
    simp only [List.length_take, List.length_append] at this
    omega
  have hm : m = x ++ y ++ z ++ m.drop n := by rw [← h, List.take_append_drop]
  have e : splice m x.length w = x ++ w ++ z ++ m.drop n := by
    have h1 : m.take x.length = x := by rw [hm, List.append_assoc, List.append_assoc, List.take_left]
    have h2 : m.drop (x.length + w.length) = z ++ m.drop n := by
      rw [hw, ← List.length_append]
      conv => lhs; rw [hm, List.append_assoc (x ++ y), List.drop_left]
    rw [splice, h1, h2]; simp only [List.append_assoc]
  have hxl : n = (x ++ w ++ z).length := by simp only [List.length_append]; omega
  rw [e, hxl, List.take_left]

/-- An element is begun and its first block written: the block is on top of the stack. -/
theorem front_begun (h : Front s a) {b data : Bytes} (hr : a.front.length + a.slot + b.length ≤ s.data.length)
    (hd : data = splice (splice s.data a.front.length (slotBytes a.ptr)) (a.front.length + a.slot) b)
    {t : Nat} {m : Bool} :
    Front ⟨data, t, a.front.length + a.slot + b.length, a.front.length + a.slot + b.length,
      some (elementPtr a.ptr a.front.length), m⟩ (a.push b) := by
  have hl := @length_slotBytes_ptr a
  have hf := h.front_bytes
  have h1 : a.front.length + (slotBytes a.ptr).length ≤ s.data.length := by omega
  have ht := take_splice_append h1 hf
  rw [hl] at ht
  have h2 : a.front.length + a.slot + b.length ≤ (splice s.data a.front.length (slotBytes a.ptr)).length := by
    rw [length_splice h1]; exact hr
  refine ⟨?_, ?_, ?_, ?_, (ptr_push b).symm⟩
  · rw [length_front_push]
  · rw [length_front_push]; rfl
  · rw [hd, length_splice h2, length_splice h1]; exact hr
  · rw [hd, take_splice_append h2 ht, front_push]
    simp only [OpenStack.push, List.append_nil]

/-- The link of an open element is below the front. -/
theorem link_lt {closed b : Bytes} {bs : List Bytes} {q : Nat} (h : (layout closed (b :: bs)).2 = some q) :
    q ≤ (layout closed (b :: bs)).1.length := by
  rw [length_layout]
  cases h
  unfold elementPtr
  split <;> omega

/-- The slot of the innermost of several open elements: it holds the link, and writing the
    length there closes the element. -/
theorem endElement_nested (h : Front s a) {b b' : Bytes} {bs : List Bytes} (ho : a.opens = b :: b' :: bs) (hb : b' ≠ [])
    (hs : a.front.length + a.args.length < 2 ^ 31) :
    ∃ data ptr, (s.endElement s.messageCursor : Out ε _) = ok { s with data := data, elementSizePtr := ptr } ∧
      data.length = s.data.length ∧ Front { s with data := data, elementSizePtr := ptr } a.pop := by
  obtain ⟨q, hq⟩ : ∃ q, (layout a.closed (b' :: bs)).2 = some q := ⟨_, rfl⟩
  have hql := link_lt hq
  have hpos := @layout_pos a.closed b' bs hb
  have hpop : a.pop = { a with opens := (b' ++ be32 b.length ++ b) :: bs } := by rw [OpenStack.pop, ho]
  generalize hL : (layout a.closed (b' :: bs)).1 = front at hql hpos
  have hfr : a.front = front ++ be32 q ++ b := by rw [OpenStack.front, ho, layout, hq, hL]; rfl
  have hptr : s.elementSizePtr = some front.length := by
    rw [h.ptr, OpenStack.ptr, ho, layout, hq, hL]; rfl
  have hbytes : s.data.take s.argumentCurrent = front ++ be32 q ++ (b ++ a.args) := by
    rw [h.bytes, hfr, List.append_assoc _ b]
  have hlen : a.front.length = front.length + 4 + b.length := by
    rw [hfr, List.length_append, List.length_append, length_be32]
  have harg := h.argument
  have hin := h.inside
  have hslice : slice s.data front.length (front.length + 4) = be32 q := by
    rw [← List.take_append_drop s.argumentCurrent s.data, hbytes, List.append_assoc (front ++ be32 q)]
    rw [slice_append_left _ (by simp only [List.length_append, length_be32]; omega)]
    have := slice_append_middle front (be32 q) []
    rwa [List.append_nil, length_be32] at this
  have hword : word s.data front.length = q := by rw [word_of_slice hslice]; exact Nat.mod_eq_of_lt (by omega)
  have hd : ((s.messageCursor : Int) - front.length) - 4 = b.length := by rw [h.cursor, hlen]; omega
  have hbits : bitsOfInt32 (b.length : Int) = b.length := by unfold bitsOfInt32; omega
  have hwr : front.length + (be32 b.length).length ≤ s.data.length := by rw [length_be32]; omega
  obtain ⟨k, hk⟩ : ∃ k, front.length = k + 1 := ⟨front.length - 1, by omega⟩
  refine ⟨splice s.data front.length (be32 b.length), some q, ?_, length_splice hwr, ?_⟩
  · have hrd : (rd32 s.data front.length : Out ε Nat) = ok q := by rw [rd32_of_le (by omega), hword]
    have hw : (wr s.data front.length (be32 b.length) : Out ε Bytes) = ok _ := wr_of_le hwr
    unfold OutboundPacketStream.endElement
    rw [hptr, hk]
    simp only
    rw [← hk, hrd, ok_bind, hd, hbits, hw, ok_bind]
  · have hpf : a.pop.front = front ++ be32 b.length ++ b := by
      rw [hpop, OpenStack.front, layout_append, layout_append, hL]
    have hpp : a.pop.ptr = some q := by
      rw [hpop, OpenStack.ptr, layout_append, layout_append, hq]
    have hpl : a.pop.front.length = a.front.length := length_front_pop
    have hpa : a.pop.args = a.args := pop_fields.2.2
    refine ⟨by rw [hpl]; exact h.cursor, by rw [hpl, hpa]; exact h.argument, ?_, ?_, hpp.symm⟩
    · show s.argumentCurrent ≤ (splice s.data front.length (be32 b.length)).length
      rw [length_splice hwr]; exact hin
    · rw [hpf, hpa, List.append_assoc _ b]
      exact take_splice_middle hbytes hin rfl

/-- `EndElement`: nothing moves, the slot gets the length and the link goes one element out. -/
theorem endElement_spec (h : Front s a) (ho : a.opens ≠ []) (hh : ∀ b ∈ a.opens, b ≠ [])
    (hs : a.front.length + a.args.length < 2 ^ 31) :
    ∃ data ptr, (s.endElement s.messageCursor : Out ε _) = ok { s with data := data, elementSizePtr := ptr } ∧
      data.length = s.data.length ∧ Front { s with data := data, elementSizePtr := ptr } a.pop := by
  cases hopens : a.opens with
  | nil => exact absurd hopens ho
  | cons b bs =>
    cases bs with
    | nil =>
      have hp : s.elementSizePtr = some 0 := by rw [h.ptr, OpenStack.ptr, hopens]; rfl
      have hpop : a.pop = { a with closed := a.closed ++ b, opens := [] } := by rw [OpenStack.pop, hopens]
      have hf : a.pop.front = a.front := by
        rw [hpop, OpenStack.front, OpenStack.front, hopens]; simp [layout, slotBytes]
      refine ⟨s.data, none, by unfold OutboundPacketStream.endElement; rw [hp]; rfl, rfl, ?_⟩
      have hpa : a.pop.args = a.args := pop_fields.2.2
      exact ⟨by rw [hf]; exact h.cursor, by rw [hf, hpa]; exact h.argument, h.inside,
        by rw [hf, hpa]; exact h.bytes, by rw [hpop]; rfl⟩
    | cons b' bs => exact endElement_nested h hopens (hh b' (by rw [hopens]; simp)) hs

/-! ## Bundles and messages -/

theorem require_matches {n : Nat} {x : Out (Exn × OutboundPacketStream) OutboundPacketStream} {a' : OpenStack}
    (hx : n ≤ s.data.length → ∃ s', x = ok s' ∧ Rep s.data.length s' a') :
    Matches (Rep s.data.length) s (s.require n >>= fun _ => x) (OpenStack.require s.data.length n a') := by
  unfold OpenStack.require OutboundPacketStream.require OutboundPacketStream.capacity
  by_cases hc : s.data.length < n
  · rw [if_pos hc, if_pos hc]; rfl
  · rw [if_neg hc, if_neg hc]; exact hx (by omega)

theorem beginBundle_matches (h : Rep cap s a) (ht : a.tags.length < 2 ^ 31) (timeTag : UInt64) :
    Matches (Rep s.data.length) s (s.beginBundle timeTag) (OpenStack.step s.data.length (.beginBundle timeTag) a) := by
  rw [OutboundPacketStream.beginBundle, OpenStack.step]
  by_cases hm : a.inMessage = true
  · rw [h.message, if_pos hm, if_pos hm]; rfl
  rw [h.message, if_neg hm, if_neg hm]
  unfold OutboundPacketStream.checkForAvailableBundleSpace
  rw [h.size_eq ht, h.slot_eq]
  apply require_matches
  intro hr
  have hs : a.front.length ≤ a.size := by unfold OpenStack.size; omega
  have hb : (bundleTag ++ be64 timeTag.toNat).length = 16 := by simp only [List.length_append, length_be64]; rfl
  have hl := @length_slotBytes_ptr a
  have h1 : (splice s.data a.front.length (slotBytes a.ptr)).length = s.data.length := length_splice (by omega)
  rw [beginElement_eq h (by omega), ok_bind]
  simp only
  have hw := wr_wr (ε := Exn × OutboundPacketStream) (m := splice s.data a.front.length (slotBytes a.ptr))
    (v := bundleTag) (w := be64 timeTag.toNat) (p := a.front.length + a.slot)
    (by rw [h1, length_be64]; show _ + 8 + 8 ≤ _; omega)
  rw [wr_of_le (w := bundleTag ++ _) (by rw [h1]; omega)] at hw
  obtain ⟨d1, e1, e2⟩ := bind_eq_ok.mp hw
  rw [e1, ok_bind, show a.front.length + a.slot + 8 = a.front.length + a.slot + bundleTag.length from rfl, e2, ok_bind]
  have hf := front_begun h.toFront (b := bundleTag ++ be64 timeTag.toNat) (by omega) rfl (t := s.typeTagsCurrent)
    (m := s.messageIsInProgress)
  rw [hb] at hf
  have h2 : (splice (splice s.data a.front.length (slotBytes a.ptr)) (a.front.length + a.slot)
      (bundleTag ++ be64 timeTag.toNat)).length = s.data.length := by rw [length_splice (by omega), h1]
  exact ⟨_, rfl, hf, h2, h.message, h.tagCount.trans h2.symm, fun hm' => absurd hm' hm⟩

/-- The stream behind an address written at `cursor`. -/
def addressed (block : Bytes) (cursor : Nat) (s : OutboundPacketStream) : OutboundPacketStream :=
  { s with data := splice s.data cursor block, messageCursor := cursor + block.length,
           argumentCurrent := cursor + block.length, typeTagsCurrent := s.data.length, messageIsInProgress := true }

/-- Both forms of `BeginMessage` write the padded address at the cursor. -/
theorem beginMessage_matches (h : Rep cap s a) (ht : a.tags.length < 2 ^ 31) {address : Bytes}
    (ha : address.length + 4 < 2 ^ 32) {f : Nat → OutboundPacketStream →
    Out (Exn × OutboundPacketStream) OutboundPacketStream}
    (hf : ∀ cursor s', cursor + (strBlock address).length ≤ s'.data.length →
      f cursor s' = ok (addressed (strBlock address) cursor s')) :
    Matches (Rep s.data.length) s
      (if s.messageIsInProgress then err (.messageInProgress, s)
      else do
        s.checkForAvailableMessageSpace address.length
        let (cursor, s) ← s.beginElement s.messageCursor
        f cursor s)
      (a.beginMessage s.data.length address) := by
  unfold OpenStack.beginMessage
  by_cases hm : a.inMessage = true
  · rw [h.message, if_pos hm, if_pos hm]; rfl
  rw [h.message, if_neg hm, if_neg hm]
  have hb : roundUp4 ((address.length + 1) % 2 ^ 32) = (strBlock address).length := by
    rw [Nat.mod_eq_of_lt (by omega), roundUp4_eq (by omega), OpenStack.length_strBlock]
  unfold OutboundPacketStream.checkForAvailableMessageSpace
  rw [h.size_eq ht, h.slot_eq, hb]
  apply require_matches
  intro hr
  have hs : a.front.length ≤ a.size := by unfold OpenStack.size; omega
  have hl := @length_slotBytes_ptr a
  have h1 : (splice s.data a.front.length (slotBytes a.ptr)).length = s.data.length := length_splice (by omega)
  rw [beginElement_eq h (by omega), ok_bind]
  simp only
  rw [hf _ _ (by show _ ≤ (splice _ _ _).length; rw [h1]; omega)]
  have h2 : (splice (splice s.data a.front.length (slotBytes a.ptr)) (a.front.length + a.slot)
    (strBlock address)).length =
      s.data.length := by rw [length_splice (by omega), h1]
  have hf := front_begun h.toFront (b := strBlock address) (by omega) rfl (t := s.data.length) (m := true)
  refine ⟨_, rfl, ⟨hf.cursor, hf.argument, hf.inside, hf.bytes, hf.ptr⟩, h2, rfl, ?_, fun _ => ?_⟩
  · show (splice s.data _ _).length + 0 = (splice _ _ _).length
    exact h1.trans h2.symm
  · show (splice (splice _ _ _) _ _).drop (splice _ _ _).length = []
    exact List.drop_eq_nil_of_le (h2.trans h1.symm).le

/-- The address, its NUL and the padding are one block. -/
theorem address_block {address data : Bytes} {p : Nat} (h : p + (strBlock address).length ≤ data.length) :
    (zeroPad (splice data p (address ++ [0])) (p + (address.length + 1)) (address.length + 1) : Out ε (Bytes × Nat)) =
      ok (splice data p (strBlock address), p + (strBlock address).length) := by
  have hl : (address ++ [(0 : UInt8)]).length = address.length + 1 := by simp
  have hb : strBlock address = address ++ [0] ++ List.replicate (padLen (address.length + 1)) 0 := by
    rw [strBlock, padded, hl]
  rw [OpenStack.length_strBlock] at h ⊢
  rw [zeroPad_eq (padLen (address.length + 1)) rfl (by rw [length_splice (by omega)]; omega), hb]
  have := splice_splice (m := data) (v := address ++ [0]) (w := List.replicate (padLen (address.length + 1)) 0) (p := p)
    (by rw [hl, List.length_replicate]; omega)
  rw [hl] at this
  rw [this, Nat.add_assoc p]

def writeAddress (address : CStr) (cursor : Nat) (s : OutboundPacketStream) : Out ε OutboundPacketStream := do
  let data ← wr s.data cursor (address.bytes ++ [0])
  let x ← zeroPad data (cursor + (address.bytes.length + 1)) (address.bytes.length + 1)
  ok { s with data := x.1, messageCursor := x.2, argumentCurrent := x.2, typeTagsCurrent := x.1.length,
              messageIsInProgress := true }

def writeAddressN (address : Bytes) (cursor : Nat) (s : OutboundPacketStream) : Out ε OutboundPacketStream := do
  let data ← wr s.data cursor address
  let data ← wr data (cursor + address.length) [0]
  let x ← zeroPad data (cursor + address.length + 1) (address.length + 1)
  ok { s with data := x.1, messageCursor := x.2, argumentCurrent := x.2, typeTagsCurrent := x.1.length,
              messageIsInProgress := true }

theorem writeAddress_eq {address : CStr} {cursor : Nat}
    (hl : cursor + (strBlock address.bytes).length ≤ s.data.length) :
    (writeAddress address cursor s : Out ε _) = ok (addressed (strBlock address.bytes) cursor s) := by
  have hsb := hl
  rw [OpenStack.length_strBlock] at hsb
  have hw : cursor + (address.bytes ++ [(0 : UInt8)]).length ≤ s.data.length := by
    simp only [List.length_append, List.length_cons, List.length_nil]; omega
  rw [writeAddress, wr_of_le hw, ok_bind, address_block hl, ok_bind, addressed]
  simp only [length_splice hl]

theorem writeAddressN_eq {address : Bytes} {cursor : Nat} (hl : cursor + (strBlock address).length ≤ s.data.length) :
    (writeAddressN address cursor s : Out ε _) = ok (addressed (strBlock address) cursor s) := by
  have hsb := hl
  rw [OpenStack.length_strBlock] at hsb
  have hw : cursor + address.length ≤ s.data.length := by omega
  have hw0 : cursor + address.length + ([0] : Bytes).length ≤ s.data.length := by
    simp only [List.length_cons, List.length_nil]; omega
  rw [writeAddressN, wr_of_le hw, ok_bind, wr_of_le (by rw [length_splice hw]; exact hw0), ok_bind, splice_splice hw0,
    Nat.add_assoc cursor, address_block hl, ok_bind, addressed]
  simp only [length_splice hl]

theorem beginMessage_step (h : Rep cap s a) (ht : a.tags.length < 2 ^ 31) {address : CStr}
    (ha : address.bytes.length + 4 < 2 ^ 32) :
    Matches (Rep s.data.length) s (s.beginMessage address) (OpenStack.step s.data.length (.beginMessage address) a) :=
  beginMessage_matches h ht ha (f := writeAddress address) fun _ _ hl => writeAddress_eq hl

theorem beginMessageN_step (h : Rep cap s a) (ht : a.tags.length < 2 ^ 31) {address : Bytes}
    (ha : address.length + 4 < 2 ^ 32) :
    Matches (Rep s.data.length) s (s.beginMessageN address) (OpenStack.step s.data.length (.beginMessageN address) a) :=
  beginMessage_matches h ht ha (f := writeAddressN address) fun _ _ hl => writeAddressN_eq hl

theorem endBundle_step (h : Rep cap s a) (hh : ∀ b ∈ a.opens, b ≠ []) (hs : a.front.length + a.args.length < 2 ^ 31) :
    Matches (Rep s.data.length) s s.endBundle (OpenStack.step s.data.length .endBundle a) := by
  rw [OutboundPacketStream.endBundle, OpenStack.step]
  have hp : a.ptr = none ↔ a.opens = [] := layout_ptr_none
  unfold OutboundPacketStream.isBundleInProgress
  rw [h.ptr]
  by_cases ho : a.opens = []
  · rw [if_pos ho, hp.mpr ho, if_pos (by simp)]; rfl
  rw [if_neg ho, if_neg (by rw [Option.isSome_iff_ne_none.mpr fun e => ho (hp.mp e)]; simp), h.message]
  by_cases hm : a.inMessage = true
  · rw [if_pos hm, if_pos hm]; rfl
  rw [if_neg hm, if_neg hm]
  obtain ⟨data, ptr, he, hl, hf⟩ := endElement_spec (ε := Exn × OutboundPacketStream) h.toFront ho hh hs
  obtain ⟨h1, h2, h3⟩ := @pop_fields a
  refine ⟨_, he, hf, hl, by rw [h1]; exact h.message, ?_, fun hm' => absurd (h1 ▸ hm') hm⟩
  rw [h2]
  exact h.tagCount.trans hl.symm

/-- The message is in place: tags and arguments lie in order behind the front. -/
theorem finish_front (h : Front s a) (ho : a.opens ≠ []) {t : Nat} {m : Bool}
    (hr : a.front.length + (tagBlock a.tags.reverse).length + a.args.length ≤ s.data.length) :
    Front ⟨splice s.data a.front.length (tagBlock a.tags.reverse ++ a.args), t,
      a.front.length + ((tagBlock a.tags.reverse).length + a.args.length),
      a.front.length + ((tagBlock a.tags.reverse).length + a.args.length), s.elementSizePtr, m⟩ a.finish := by
  obtain ⟨hf, hp⟩ := front_grow ho (tagBlock a.tags.reverse ++ a.args)
  have hff : a.finish.front = a.front ++ (tagBlock a.tags.reverse ++ a.args) := hf
  have hl : a.front.length + (tagBlock a.tags.reverse ++ a.args).length ≤ s.data.length := by
    rw [List.length_append]; omega
  have hpre := h.front_bytes
  refine ⟨?_, ?_, ?_, ?_, h.ptr.trans hp.symm⟩
  · rw [hff, List.length_append, List.length_append]
  · rw [hff, List.length_append, List.length_append]; rfl
  · show a.front.length + ((tagBlock a.tags.reverse).length + a.args.length) ≤ (splice _ _ _).length
    rw [length_splice hl]; omega
  · have := take_splice_append hl hpre
    rw [List.length_append] at this
    show (splice _ _ _).take _ = a.finish.front ++ []
    rw [this, hff, List.append_nil]

/-- What `EndMessage` does once the message is in place. -/
theorem endMessage_done (h : Rep cap s a) (ho : a.opens ≠ []) (hh : ∀ b ∈ a.opens, b ≠ [])
    (hr : a.front.length + (tagBlock a.tags.reverse).length + a.args.length ≤ s.data.length)
    (hs : a.front.length + (tagBlock a.tags.reverse).length + a.args.length < 2 ^ 31) {t : Nat}
    (ht : t = s.data.length) :
    ∃ s', (((⟨splice s.data a.front.length (tagBlock a.tags.reverse ++ a.args), t,
        a.front.length + ((tagBlock a.tags.reverse).length + a.args.length),
        a.front.length + ((tagBlock a.tags.reverse).length + a.args.length), s.elementSizePtr,
        s.messageIsInProgress⟩ : OutboundPacketStream).endElement
          (a.front.length + ((tagBlock a.tags.reverse).length + a.args.length)) : Out ε _) >>=
        fun s => ok { s with messageIsInProgress := false }) = ok s' ∧ Rep s.data.length s' a.finish.pop := by
  have hff : a.finish.front = a.front ++ (tagBlock a.tags.reverse ++ a.args) := (front_grow ho _).1
  obtain ⟨data, ptr, he, hl, hf⟩ := endElement_spec (ε := ε)
    (finish_front h.toFront ho hr (t := t) (m := s.messageIsInProgress)) (opens_grow ho _)
    (OpenStack.grow_heads hh _) (by
      rw [hff, List.length_append, List.length_append]
      show _ + 0 < _
      omega)
  obtain ⟨h1, h2, -⟩ := @pop_fields a.finish
  have hl' := hl.trans (length_splice (by rw [List.length_append]; omega))
  refine ⟨⟨data, t, _, _, ptr, false⟩, ?_, ⟨hf.cursor, hf.argument, hf.inside, hf.bytes, hf.ptr⟩, hl', h1.symm, ?_,
    fun hm => ?_⟩
  · rw [show OutboundPacketStream.endElement _ _ = _ from he, ok_bind]
  · rw [h2]
    show t + 0 = data.length
    exact ht.trans hl'.symm
  · rw [h1] at hm; cases hm

/-- The comma, the reversed tags and the zeros are the type tag block. -/
theorem tagBlock_written {data tags : Bytes} {p : Nat} (h : p + tagSlot tags.length ≤ data.length) :
    (wr data p [ch ','] >>= fun data => copyReversed data (p + 1) tags 0 >>= fun data =>
      zeroFill data (p + 1 + tags.length) (tagSlot tags.length - (tags.length + 1)) : Out ε Bytes) =
      ok (splice data p (tagBlock tags.reverse)) := by
  have hslot : tagSlot tags.length = tags.length + 2 + padLen (tags.length + 2) := rfl
  have hw : p + ([ch ','] : Bytes).length ≤ data.length := by simp only [List.length_cons, List.length_nil]; omega
  have hc : p + 1 + tags.length ≤ (splice data p [ch ',']).length := by rw [length_splice hw]; omega
  have hrev : p + ([ch ','] : Bytes).length + tags.reverse.length ≤ data.length := by
    simp only [List.length_cons, List.length_nil, List.length_reverse]; omega
  have hj : p + (ch ',' :: tags.reverse).length ≤ data.length := by
    simp only [List.length_cons, List.length_reverse]; omega
  have h1 := splice_splice hrev
  rw [wr_of_le hw, ok_bind, copyReversed_eq tags (p + 1) tags.length (by omega) hc, ok_bind,
    List.drop_zero, Nat.add_zero]
  rw [List.length_singleton] at h1
  rw [h1, zeroFill_eq _
    (by rw [show [ch ','] ++ tags.reverse = ch ',' :: tags.reverse from rfl, length_splice hj]; omega)]
  have h2 := splice_splice (m := data) (p := p) (v := [ch ','] ++ tags.reverse)
    (w := List.replicate (tagSlot tags.length - (tags.length + 1)) 0)
    (by
      simp only [List.length_append, List.length_cons, List.length_nil, List.length_reverse, List.length_replicate]
      omega)
  have hvl : ([ch ','] ++ tags.reverse).length = 1 + tags.length := by
    simp only [List.length_append, List.length_cons, List.length_nil, List.length_reverse]
  rw [hvl, ← Nat.add_assoc] at h2
  rw [h2, hslot, show tags.length + 2 + padLen (tags.length + 2) - (tags.length + 1) =
    padLen (tags.length + 2) + 1 by omega, List.replicate_succ]
  congr 2
  have hl : (ch ',' :: tags.reverse ++ [(0 : UInt8)]).length = tags.length + 2 := by simp
  rw [tagBlock, strBlock, padded, hl]
  simp

theorem endMessage_step (h : Rep cap s a) (hi : OpenStack.Inv B a) (hB : B < 2 ^ 31) (hl : B ≤ s.data.length) :
    Matches (Rep s.data.length) s s.endMessage (OpenStack.step s.data.length .endMessage a) := by
  rw [OutboundPacketStream.endMessage, OpenStack.step, h.message]
  by_cases hm : a.inMessage = true
  rotate_left
  · rw [if_pos hm, if_pos hm]; rfl
  have hnn : ¬ ¬ a.inMessage = true := fun hn => hn hm
  rw [if_neg hnn, if_neg hnn]
  obtain ⟨ho, hta⟩ := hi.message hm
  have hfits := hi.fits
  have htf := hi.tagsFit
  have htb : (tagBlock a.tags.reverse).length = tagSlot a.tags.length := by rw [length_tagBlock, List.length_reverse]
  rw [OpenStack.size, if_pos hm] at hfits
  have hr : a.front.length + (tagBlock a.tags.reverse).length + a.args.length ≤ B := by omega
  have htc := h.tagCount
  have hcount : s.capacity - s.typeTagsCurrent = a.tags.length := by unfold OutboundPacketStream.capacity; omega
  have hin := h.inside
  have harg := h.argument
  have hd := fun t => endMessage_done (ε := Exn × OutboundPacketStream) h ho hi.heads (by omega) (by omega) (t := t)
  rw [hcount]
  by_cases hn : a.tags.length ≠ 0
  · have hslot : roundUp4 ((a.tags.length + 2) % 2 ^ 32) = tagSlot a.tags.length := by
      have := h.tagSlot 0 (by omega)
      rwa [hcount] at this
    have hcur := h.cursor
    have hsize : s.argumentCurrent - s.messageCursor = a.args.length := by omega
    have htags :
        (rdBytes s.data s.typeTagsCurrent a.tags.length : Out (Exn × OutboundPacketStream) Bytes) = ok a.tags := by
      rw [rdBytes_of_le (by omega), htc, slice, h.tags hm, List.take_of_length_le (by omega)]
    have hargs :
        (rdBytes s.data a.front.length a.args.length : Out (Exn × OutboundPacketStream) Bytes) = ok a.args := by
      rw [rdBytes_of_le (by omega), slice, ← List.drop_take, ← harg, h.bytes, List.drop_left]
    have hmove : a.front.length + tagSlot a.tags.length + a.args.length ≤ s.data.length := by omega
    have hmoved : a.front.length + tagSlot a.tags.length ≤
        (splice s.data (a.front.length + tagSlot a.tags.length) a.args).length := by rw [length_splice hmove]; omega
    have hw := @tagBlock_written (Exn × OutboundPacketStream) _ _ _ hmoved
    rw [← htb] at hmove
    have hfront := splice_front hmove
    rw [htb] at hfront
    rw [hfront] at hw
    obtain ⟨d1, e1, hw⟩ := bind_eq_ok.mp hw
    obtain ⟨d2, e2, e3⟩ := bind_eq_ok.mp hw
    rw [if_pos hn, htags, ok_bind, hslot, hsize, hcur]
    dsimp only
    rw [hargs, ok_bind, ← htb, wr_of_le hmove, ok_bind, htb, e1, ok_bind, e2, ok_bind, e3, ok_bind]
    have hlen : (splice s.data a.front.length (tagBlock a.tags.reverse ++ a.args)).length = s.data.length :=
      length_splice (by rw [List.length_append]; omega)
    obtain ⟨s', he, hr'⟩ := hd _ hlen
    rw [htb, h.message] at he
    exact ⟨s', he, hr'⟩
  · have ht0 : a.tags = [] := List.eq_nil_of_length_eq_zero (by omega)
    have hblock : tagBlock a.tags.reverse ++ a.args = [ch ',', 0, 0, 0] := by rw [ht0, hta ht0]; rfl
    have hlen : (tagBlock a.tags.reverse).length + a.args.length = 4 := by
      rw [← List.length_append, hblock]; rfl
    have hw : s.messageCursor + ([ch ',', 0, 0, 0] : Bytes).length ≤ s.data.length := by
      rw [h.cursor]
      show _ + 4 ≤ _
      omega
    obtain ⟨s', he, hr'⟩ := hd s.typeTagsCurrent (by omega)
    rw [if_neg hn, wr_of_le hw, ok_bind, h.cursor]
    rw [hblock, hlen, h.message] at he
    exact ⟨s', he, hr'⟩

/-! ## Arguments -/

/-- The stream behind an append: one tag in front of the tags, the bytes behind the arguments. -/
def appended (s : OutboundPacketStream) (tag : TypeTag) (bytes : Bytes) : OutboundPacketStream :=
  { s with data := splice (splice s.data (s.typeTagsCurrent - 1) [tag.value]) s.argumentCurrent bytes,
           typeTagsCurrent := s.typeTagsCurrent - 1, argumentCurrent := s.argumentCurrent + bytes.length }

theorem drop_splice_start {m w : Bytes} {p : Nat} (h : p + w.length ≤ m.length) :
    (splice m p w).drop p = w ++ m.drop (p + w.length) := by
  have hl : (m.take p).length = p := by simp only [List.length_take]; omega
  rw [splice, List.append_assoc, List.drop_append, hl, Nat.sub_self, List.drop_eq_nil_of_le (by omega)]; rfl

theorem appended_rep (h : Rep cap s a) (tag : TypeTag) {bytes : Bytes}
    (hr : s.argumentCurrent + bytes.length < s.typeTagsCurrent) :
    Rep s.data.length (appended s tag bytes) { a with tags := tag.value :: a.tags, args := a.args ++ bytes } := by
  have htc := h.tagCount
  have hw : s.typeTagsCurrent - 1 + ([tag.value] : Bytes).length ≤ s.data.length := by
    simp only [List.length_cons, List.length_nil]; omega
  have hl1 : (splice s.data (s.typeTagsCurrent - 1) [tag.value]).length = s.data.length := length_splice hw
  have hw2 : s.argumentCurrent + bytes.length ≤ (splice s.data (s.typeTagsCurrent - 1) [tag.value]).length := by
    rw [hl1]; omega
  have hpre : (splice s.data (s.typeTagsCurrent - 1) [tag.value]).take s.argumentCurrent = a.front ++ a.args := by
    rw [take_splice (by omega) (by omega), h.bytes]
  refine ⟨⟨h.cursor, ?_, ?_, ?_, h.ptr⟩, (length_splice hw2).trans hl1, h.message, ?_, fun hm => ?_⟩
  · show s.argumentCurrent + bytes.length = a.front.length + (a.args ++ bytes).length
    rw [h.argument, List.length_append, Nat.add_assoc]
  · show s.argumentCurrent + bytes.length ≤ (splice _ _ _).length
    rw [length_splice hw2]; exact hw2
  · show (splice _ _ _).take (s.argumentCurrent + bytes.length) = a.front ++ (a.args ++ bytes)
    rw [take_splice_append hw2 hpre, List.append_assoc]
  · show s.typeTagsCurrent - 1 + (a.tags.length + 1) = (splice _ _ _).length
    rw [length_splice hw2, hl1]; omega
  · show (splice _ _ _).drop (s.typeTagsCurrent - 1) = tag.value :: a.tags
    rw [drop_splice (by omega) hw2, drop_splice_start hw, List.length_singleton,
      Nat.sub_add_cancel (by omega), h.tags hm]; rfl

theorem put_eq {v : Bytes} (h : s.argumentCurrent + v.length ≤ s.data.length) :
    (s.put v : Out ε _) =
      ok { s with data := splice s.data s.argumentCurrent v, argumentCurrent := s.argumentCurrent + v.length } := by
  rw [OutboundPacketStream.put, wr_of_le h, ok_bind]

theorem put_put {v w : Bytes} (h : s.argumentCurrent + v.length + w.length ≤ s.data.length) :
    (s.put v >>= fun s => s.put w : Out ε _) = s.put (v ++ w) := by
  have h1 : s.argumentCurrent + v.length ≤ s.data.length := by omega
  rw [put_eq h1, ok_bind, put_eq (by show _ ≤ (splice _ _ _).length; rw [length_splice h1]; exact h),
    put_eq (by rw [List.length_append]; omega)]
  simp only [splice_splice h, List.length_append, Nat.add_assoc]

theorem put_pad {v : Bytes} {n : Nat} (hn : n = v.length) (h : s.argumentCurrent + (padded v).length ≤ s.data.length) :
    (s.put v >>= fun s => s.padArgument n : Out ε _) = s.put (padded v) := by
  rw [length_padded] at h
  have h1 : s.argumentCurrent + v.length ≤ s.data.length := by omega
  rw [put_eq h1, ok_bind, put_eq (by rw [length_padded]; omega), OutboundPacketStream.padArgument,
    zeroPad_eq (padLen n) rfl
      (by show _ ≤ (splice _ _ _).length; rw [length_splice h1, hn]; show _ + _ + _ ≤ _; omega), ok_bind]
  have := splice_splice (m := s.data) (p := s.argumentCurrent) (v := v) (w := List.replicate (padLen v.length) 0)
    (by rw [List.length_replicate]; omega)
  simp only [hn, this, padded, List.length_append, List.length_replicate, Nat.add_assoc]

theorem put_nil : (s.put [] : Out ε _) = ok s := by
  rw [OutboundPacketStream.put,
    show (wr s.data s.argumentCurrent [] : Out ε Bytes) = ok _ from if_pos (Or.inl rfl), ok_bind, splice_nil]
  rfl

/-- The tag, then what amounts to one block. -/
theorem pushTag_put (tag : TypeTag) {bytes : Bytes} (h0 : 0 < s.typeTagsCurrent)
    (hl : s.typeTagsCurrent ≤ s.data.length) (hr : s.argumentCurrent + bytes.length ≤ s.data.length)
    {f : OutboundPacketStream → Out ε OutboundPacketStream}
    (hf : ∀ s' : OutboundPacketStream, s'.argumentCurrent + bytes.length ≤ s'.data.length → f s' = s'.put bytes) :
    (s.pushTag tag >>= f) = ok (appended s tag bytes) := by
  obtain ⟨t, ht⟩ : ∃ t, s.typeTagsCurrent = t + 1 := ⟨s.typeTagsCurrent - 1, by omega⟩
  have hw : t + ([tag.value] : Bytes).length ≤ s.data.length := by simp only [List.length_cons, List.length_nil]; omega
  have hp : (s.pushTag tag : Out ε _) = ok { s with data := splice s.data t [tag.value], typeTagsCurrent := t } := by
    unfold OutboundPacketStream.pushTag
    rw [ht]
    simp only [wr_of_le hw, ok_bind]
  have hroom : s.argumentCurrent + bytes.length ≤ (splice s.data t [tag.value]).length :=
    by rw [length_splice hw]; omega
  rw [hp, ok_bind, hf _ hroom, put_eq hroom, appended, ht]
  rfl

/-- An append: the check, the tag, and what amounts to one block. -/
theorem append_matches (h : Rep cap s a) (ht : a.tags.length < 2 ^ 31) (tag : TypeTag) {bytes : Bytes} {n : Nat}
    (hn : n = bytes.length) {f : OutboundPacketStream → Out (Exn × OutboundPacketStream) OutboundPacketStream}
    (hf : ∀ s' : OutboundPacketStream, s'.argumentCurrent + bytes.length ≤ s'.data.length → f s' = s'.put bytes) :
    Matches (Rep s.data.length) s (s.checkForAvailableArgumentSpace n >>= fun _ => s.pushTag tag >>= f)
      (a.append s.data.length tag bytes) := by
  unfold OutboundPacketStream.checkForAvailableArgumentSpace OpenStack.append
  rw [h.tagSlot 1 (by omega), h.argument, hn]
  apply require_matches
  intro hr
  have htc := h.tagCount
  have hroom : s.argumentCurrent + bytes.length < s.typeTagsCurrent := by
    have := h.argument
    unfold tagSlot at hr
    omega
  exact ⟨_, pushTag_put tag (by omega) (by omega) (by omega) hf, appended_rep h tag hroom⟩

theorem appendTag_matches (h : Rep cap s a) (ht : a.tags.length < 2 ^ 31) (tag : TypeTag) :
    Matches (Rep s.data.length) s (s.appendTag tag) (a.append s.data.length tag []) := by
  have := append_matches h ht tag (n := 0) rfl (f := ok) fun s' _ => put_nil.symm
  rwa [show (s.pushTag tag >>= ok : Out (Exn × OutboundPacketStream) _) = s.pushTag tag from bind_pure _] at this

theorem appendFixed_matches (h : Rep cap s a) (ht : a.tags.length < 2 ^ 31) (tag : TypeTag) (bytes : Bytes) :
    Matches (Rep s.data.length) s (s.appendFixed tag bytes) (a.append s.data.length tag bytes) :=
  append_matches h ht tag rfl fun _ _ => rfl

theorem length_snoc_zero (v : Bytes) : (v ++ [(0 : UInt8)]).length = v.length + 1 := by simp

/-- A string, its NUL and the padding are one block. -/
theorem string_put {rhs : Bytes} (hr : s.argumentCurrent + (strBlock rhs).length ≤ s.data.length) :
    (s.put rhs >>= fun s => s.put [0] >>= fun s => s.padArgument (rhs.length + 1) : Out ε _) =
    s.put (strBlock rhs) := by
  have hr' := hr
  rw [OpenStack.length_strBlock] at hr'
  rw [strBlock, ← put_pad (n := rhs.length + 1) (length_snoc_zero rhs).symm hr,
    ← put_put (by simp only [List.length_cons, List.length_nil]; omega), bind_assoc]

/-- No bytes are copied for an empty string. -/
theorem put_nonempty (s : OutboundPacketStream) (rhs : Bytes) (k : OutboundPacketStream → Out ε OutboundPacketStream) :
    (if rhs ≠ [] then s.put rhs >>= k else ok s >>= k) = s.put rhs >>= k := by
  by_cases he : rhs = []
  · rw [if_neg (not_not_intro he), he, put_nil]
  · rw [if_pos he]

theorem stringView_matches (h : Rep cap s a) (ht : a.tags.length < 2 ^ 31) {rhs : Bytes}
    (hl : rhs.length + 4 < 2 ^ 32) :
    Matches (Rep s.data.length) s (s.stringView rhs) (a.append s.data.length .stringTag (strBlock rhs)) := by
  refine append_matches h ht .stringTag ?_ fun s' hr => (put_nonempty s' rhs _).trans (string_put hr)
  rw [Nat.mod_eq_of_lt (by omega), roundUp4_eq (by omega), OpenStack.length_strBlock]

theorem charArray_matches (h : Rep cap s a) (ht : a.tags.length < 2 ^ 31) {ref : Bytes} (hl : ref.length + 4 < 2 ^ 32) :
    Matches (Rep s.data.length) s (s.charArray ref) (a.append s.data.length .stringTag (padded ref)) := by
  refine append_matches h ht .stringTag ?_ fun s' hr => put_pad rfl hr
  rw [Nat.mod_eq_of_lt (by omega), roundUp4_eq (by omega), length_padded]

theorem symbol_matches (h : Rep cap s a) (ht : a.tags.length < 2 ^ 31) {rhs : CStr}
    (hl : rhs.bytes.length + 4 < 2 ^ 32) :
    Matches (Rep s.data.length) s (s.symbol rhs) (a.append s.data.length .symbolTag (strBlock rhs.bytes)) := by
  refine append_matches h ht .symbolTag ?_ fun s' hr => put_pad (length_snoc_zero rhs.bytes).symm hr
  rw [Nat.mod_eq_of_lt (by omega), roundUp4_eq (by omega), OpenStack.length_strBlock]

theorem toNat_toInt {size : Int32} (h : 0 ≤ size.toInt) : size.toUInt32.toNat = size.toInt.toNat := by
  have h1 : size.toInt = if 2 * size.toUInt32.toNat < 2 ^ 32 then (size.toUInt32.toNat : Int)
      else (size.toUInt32.toNat : Int) - 2 ^ 32 := BitVec.toInt_eq_toNat_cond size.toBitVec
  have h2 := size.toUInt32.toNat_lt
  split at h1 <;> omega

/-- A blob's size and its padded bytes are one block. -/
theorem blob_put {data : Bytes} {size : Int32} (h0 : 0 ≤ size.toInt) (hl : size.toInt ≤ data.length)
    (hr : s.argumentCurrent + (be32 size.toUInt32.toNat ++
      padded (data.take size.toInt.toNat)).length ≤ s.data.length) :
    (s.put (be32 size.toUInt32.toNat) >>= fun s => rdBytes data 0 (size.toInt % 2 ^ 64).toNat >>= fun bytes =>
      s.put bytes >>= fun s => s.padArgument (size.toInt % 2 ^ 64).toNat : Out ε _) =
      s.put (be32 size.toUInt32.toNat ++ padded (data.take size.toInt.toNat)) := by
  have hlt := size.toInt_lt
  have hv : (data.take size.toInt.toNat).length = size.toInt.toNat := by rw [List.length_take]; omega
  have hn : (size.toInt % 2 ^ 64).toNat = size.toInt.toNat := by omega
  have hrd : (rdBytes data 0 size.toInt.toNat : Out ε Bytes) = ok (data.take size.toInt.toNat) := by
    rw [rdBytes_of_le (by omega), slice, List.drop_zero]
    simp
  rw [List.length_append, length_be32] at hr
  have hw : s.argumentCurrent + (be32 size.toUInt32.toNat).length ≤ s.data.length := by rw [length_be32]; omega
  rw [← put_put (by rw [length_be32]; omega), put_eq hw]
  simp only [ok_bind, hn, hrd]
  refine put_pad hv.symm ?_
  show s.argumentCurrent + 4 + _ ≤ (splice _ _ _).length
  rw [length_splice hw]; omega

/-- What a blob takes is counted without overflow. -/
theorem blob_space {data : Bytes} {size : Int32} (h0 : 0 ≤ size.toInt) (hl : size.toInt ≤ data.length) :
    (4 + roundUp4 size.toUInt32.toNat) % 2 ^ 32 =
    (be32 size.toUInt32.toNat ++ padded (data.take size.toInt.toNat)).length := by
  have hlt := size.toInt_lt
  have hv : (data.take size.toInt.toNat).length = size.toInt.toNat := by rw [List.length_take]; omega
  have := padLen_lt size.toInt.toNat
  rw [toNat_toInt h0, roundUp4_eq (by omega), List.length_append, length_padded, hv, length_be32,
    Nat.mod_eq_of_lt (by omega)]

theorem blob_matches (h : Rep cap s a) (ht : a.tags.length < 2 ^ 31) {data : Bytes} {size : Int32}
    (h0 : 0 ≤ size.toInt) (hl : size.toInt ≤ data.length) :
    Matches (Rep s.data.length) s (s.blob data size)
      (a.append s.data.length .blobTag (be32 size.toUInt32.toNat ++ padded (data.take size.toInt.toNat))) :=
  append_matches h ht .blobTag (blob_space h0 hl) fun _ hr => blob_put h0 hl hr

theorem operand_matches (h : Rep cap s a) (ht : a.tags.length < 2 ^ 31) {rhs : Operand} (hf : rhs.Fits) :
    Matches (Rep s.data.length) s (append s rhs) (a.append s.data.length rhs.tag rhs.bytes) := by
  cases rhs with
  | bool rhs => exact appendTag_matches h ht _
  | infinitum => exact appendTag_matches h ht _
  | nil => exact appendTag_matches h ht _
  | arrayInitiator => exact appendTag_matches h ht _
  | arrayTerminator => exact appendTag_matches h ht _
  | int32 rhs => exact appendFixed_matches h ht _ _
  | float bits => exact appendFixed_matches h ht _ _
  | char rhs => exact appendFixed_matches h ht _ _
  | rgbaColor rhs => exact appendFixed_matches h ht _ _
  | midiMessage rhs => exact appendFixed_matches h ht _ _
  | int64 rhs => exact appendFixed_matches h ht _ _
  | timeTag rhs => exact appendFixed_matches h ht _ _
  | double bits => exact appendFixed_matches h ht _ _
  | stringView rhs => exact stringView_matches h ht hf
  | cString rhs => exact stringView_matches h ht hf
  | stdString rhs => exact stringView_matches h ht hf
  | charArray ref => exact charArray_matches h ht hf
  | symbol rhs => exact symbol_matches h ht hf
  | blob data size => exact blob_matches h ht hf.1 hf.2

/-! ## Calls -/

/-- A call does on the stream what it does on the stack. -/
theorem apply_matches (h : Rep cap s a) (hi : OpenStack.Inv B a) (hB : B < 2 ^ 31) (hl : B ≤ cap) {op : Op}
    (hf : op.Fits) : Matches (Rep cap) s (apply op s) (OpenStack.step cap op a) := by
  have ht : a.tags.length < 2 ^ 31 := lt_of_le_of_lt hi.tagsFit hB
  have hs : a.front.length + a.args.length < 2 ^ 31 := by
    have := hi.fits
    unfold OpenStack.size at this
    omega
  rw [← h.capacity] at hl ⊢
  cases op with
  | clear => exact ⟨_, rfl, mk'_rep s.data⟩
  | beginBundle timeTag => exact beginBundle_matches h ht timeTag
  | endBundle => exact endBundle_step h hi.heads hs
  | beginMessage address => exact beginMessage_step h ht hf
  | beginMessageN address => exact beginMessageN_step h ht hf
  | endMessage => exact endMessage_step h hi hB hl
  | append rhs => exact operand_matches h ht hf

/-- A buffer below `2 ^ 31` bytes: the encoder refines the stack, calls that throw included. -/
theorem stream_refines (hcap : cap < 2 ^ 31) :
    Refines apply (OpenStack.step cap) (fun s a => Rep cap s a ∧ OpenStack.Inv cap a) Op.Fits := by
  intro op s a hf ⟨hr, hi⟩
  have hm := apply_matches hr hi hcap (Nat.le_refl cap) hf
  cases he : OpenStack.step cap op a with
  | error e => rw [he] at hm; exact hm
  | ok a' =>
    rw [he] at hm
    obtain ⟨s', h1, h2⟩ := hm
    exact ⟨s', h1, h2, OpenStack.step_inv hi he⟩

end OscTap.Outbound
