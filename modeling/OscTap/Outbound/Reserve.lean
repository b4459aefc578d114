/-
  OscTap.Outbound.Reserve — the space a call is checked with, and the bytes it writes.

  The checks narrow lengths to `uint32_t`, add and round up in it; the copies use the whole
  length. A `Block` is a call that writes a block of the caller's: an address behind its slot,
  or an argument behind its tag. `reserved` is what its check counts for the block.

  Proved: `reserve_exact`, in every state that any calls reach: the bytes written are
  `Contained` in what was reserved if and only if the call is refused, or its operand is
  `Counted` without overflow and there is a byte in front of the tags; `overruns`.
-/
import OscTap.Outbound.AnyCall

namespace OscTap.Outbound

open OscTap.Lib OscTap.Lib.Out OscTap.Osc

inductive Block where
  | beginMessage (addressPattern : CStr)
  | beginMessageN (addressPattern : Bytes)
  | append (rhs : Operand)

namespace Block

def op : Block → Op
  | beginMessage addressPattern => .beginMessage addressPattern
  | beginMessageN addressPattern => .beginMessageN addressPattern
  | append rhs => .append rhs

def start (s : OutboundPacketStream) : Block → Nat
  | beginMessage _ | beginMessageN _ => s.messageCursor
  | append _ => s.argumentCurrent

/-- What the check counts for it: the size slot and the padded address, or the argument bytes. -/
def reserved (s : OutboundPacketStream) : Block → Nat
  | beginMessage addressPattern => slotOf s + roundUp4 ((addressPattern.bytes.length + 1) % 2 ^ 32)
  | beginMessageN addressPattern => slotOf s + roundUp4 ((addressPattern.length + 1) % 2 ^ 32)
  | append rhs => rhs.space

/-- The guard, and the comparison of the space check. -/
def Refused (s : OutboundPacketStream) : Block → Prop
  | beginMessage addressPattern => s.messageIsInProgress = true ∨
      s.capacity < s.size + slotOf s + roundUp4 ((addressPattern.bytes.length + 1) % 2 ^ 32) + 4
  | beginMessageN addressPattern => s.messageIsInProgress = true ∨
      s.capacity < s.size + slotOf s + roundUp4 ((addressPattern.length + 1) % 2 ^ 32) + 4
  | append rhs => s.capacity < required s rhs.space

end Block

/-- The padded size is a `uint32_t`, and a blob's size is not negative. -/
def Operand.Counted : Operand → Prop
  | stringView rhs | stdString rhs => rhs.length + 4 < 2 ^ 32
  | cString rhs | symbol rhs => rhs.bytes.length + 4 < 2 ^ 32
  | charArray ref => ref.length + 3 < 2 ^ 32
  | blob _ size => 0 ≤ size.toInt
  | _ => True

/-- A blob has the bytes it says. -/
def Operand.Readable : Operand → Prop
  | blob data size => size.toInt ≤ data.length
  | _ => True

namespace Block

def Counted (s : OutboundPacketStream) : Block → Prop
  | beginMessage addressPattern => addressPattern.bytes.length + 4 < 2 ^ 32
  | beginMessageN addressPattern => addressPattern.length + 4 < 2 ^ 32
  | append rhs => rhs.Counted ∧ 0 < s.typeTagsCurrent

def Readable : Block → Prop
  | append rhs => rhs.Readable
  | _ => True

end Block

/-- A call that throws has written nothing. One that returns has written `reserved` bytes at
    most from `start` on, inside the buffer, and the tag in front of the tags. -/
def Contained (s : OutboundPacketStream) (start reserved : Nat)
    (x : Out (Exn × OutboundPacketStream) OutboundPacketStream) : Prop :=
  Sat x (fun s' => s'.data.length = s.data.length ∧ s'.argumentCurrent ≤ start + reserved ∧
    s'.argumentCurrent ≤ s.data.length ∧
      ∀ i, i < start ∨ start + reserved ≤ i → i ≠ s'.typeTagsCurrent → s'.data[i]? = s.data[i]?)
    (fun e => e.2 = s)

variable {cap : Nat} {s : OutboundPacketStream}

/-! ## The counts -/

theorem string_counted {n : Nat} (h : n + 4 < 2 ^ 32) : roundUp4 ((n + 1) % 2 ^ 32) = n + 1 + padLen (n + 1) := by
  rw [Nat.mod_eq_of_lt (by omega), roundUp4_eq (by omega)]

/-- Rounded up modulo `2 ^ 32`, a length that does not fit is less than it was. -/
theorem string_uncounted {n : Nat} (h : ¬ n + 4 < 2 ^ 32) : roundUp4 ((n + 1) % 2 ^ 32) < n + 1 + padLen (n + 1) := by
  unfold roundUp4
  omega

theorem length_written {rhs : Operand} (hc : rhs.Counted) (hr : rhs.Readable) : rhs.space = rhs.bytes.length := by
  cases rhs with
  | stringView rhs => exact (string_counted hc).trans (OpenStack.length_strBlock rhs).symm
  | cString rhs => exact (string_counted hc).trans (OpenStack.length_strBlock rhs.bytes).symm
  | stdString rhs => exact (string_counted hc).trans (OpenStack.length_strBlock rhs).symm
  | symbol rhs => exact (string_counted hc).trans (OpenStack.length_strBlock rhs.bytes).symm
  | charArray ref =>
    have hlt : ref.length + 3 < 2 ^ 32 := hc
    rw [Operand.space, Operand.bytes, Nat.mod_eq_of_lt (by omega), roundUp4_eq hlt, length_padded]
  | blob data size => exact blob_space hc hr
  | _ => rfl

theorem space_lt_written {rhs : Operand} (hc : ¬ rhs.Counted) : rhs.space < rhs.written := by
  cases rhs with
  | stringView rhs => exact (string_uncounted hc).trans_eq (OpenStack.length_strBlock rhs).symm
  | cString rhs => exact (string_uncounted hc).trans_eq (OpenStack.length_strBlock rhs.bytes).symm
  | stdString rhs => exact (string_uncounted hc).trans_eq (OpenStack.length_strBlock rhs).symm
  | symbol rhs => exact (string_uncounted hc).trans_eq (OpenStack.length_strBlock rhs.bytes).symm
  | charArray ref =>
    have hlt : ¬ ref.length + 3 < 2 ^ 32 := hc
    show roundUp4 (ref.length % 2 ^ 32) < (padded ref).length
    rw [length_padded, roundUp4]
    omega
  | blob data size =>
    have hneg : ¬ 0 ≤ size.toInt := hc
    have hle := size.le_toInt
    rw [Operand.space, Operand.written]
    omega
  | _ => exact absurd trivial hc

/-! ## Writes that were counted -/

theorem getElem?_splice {m w : Bytes} {p i : Nat} (h : p + w.length ≤ m.length) (hi : i < p ∨ p + w.length ≤ i) :
    (splice m p w)[i]? = m[i]? := by
  rcases hi with hi | hi
  · have := congrArg (·[i]?) (take_splice (w := w) (Nat.le_refl p) (show p ≤ m.length by omega))
    simpa only [List.getElem?_take, if_pos hi] using this
  · obtain ⟨k, rfl⟩ := Nat.exists_eq_add_of_le hi
    have := congrArg (·[k]?) (drop_splice (Nat.le_refl (p + w.length)) h)
    simpa only [List.getElem?_drop] using this

/-- The check passes, and the bytes are the operand's. -/
theorem append_counted {k : Nat} (tag : TypeTag) {bytes : Bytes} (hk : k = bytes.length) (h0 : 0 < s.typeTagsCurrent)
    (hl : s.typeTagsCurrent ≤ s.data.length) (hc : ¬ s.capacity < required s k)
    {f : OutboundPacketStream → Out (Exn × OutboundPacketStream) OutboundPacketStream}
    (hf : ∀ s' : OutboundPacketStream, s'.argumentCurrent + bytes.length ≤ s'.data.length → f s' = s'.put bytes) :
    (s.checkForAvailableArgumentSpace k >>= fun _ => s.pushTag tag >>= f) = ok (appended s tag bytes) := by
  have hroom : s.argumentCurrent + bytes.length ≤ s.data.length := by
    unfold required OutboundPacketStream.capacity at hc
    omega
  rw [OutboundPacketStream.checkForAvailableArgumentSpace, OutboundPacketStream.require, if_neg (by exact hc), ok_bind]
  exact pushTag_put tag h0 hl hroom hf

theorem appendTag_counted (tag : TypeTag) (h0 : 0 < s.typeTagsCurrent) (hl : s.typeTagsCurrent ≤ s.data.length)
    (hc : ¬ s.capacity < required s 0) : s.appendTag tag = ok (appended s tag []) := by
  have h := @append_counted s _ tag [] rfl h0 hl hc ok fun s' _ => put_nil.symm
  rwa [show (s.pushTag tag >>= ok : Out (Exn × OutboundPacketStream) _) = s.pushTag tag from bind_pure _] at h

theorem appendFixed_counted (tag : TypeTag) (bytes : Bytes) (h0 : 0 < s.typeTagsCurrent)
    (hl : s.typeTagsCurrent ≤ s.data.length) (hc : ¬ s.capacity < required s bytes.length) :
    s.appendFixed tag bytes = ok (appended s tag bytes) :=
  append_counted tag rfl h0 hl hc fun _ _ => rfl

theorem operand_counted {rhs : Operand} (hcount : rhs.Counted) (hr : rhs.Readable) (h0 : 0 < s.typeTagsCurrent)
    (hl : s.typeTagsCurrent ≤ s.data.length) (hc : ¬ s.capacity < required s rhs.space) :
    append s rhs = ok (appended s rhs.tag rhs.bytes) := by
  have hk := length_written hcount hr
  cases rhs with
  | bool rhs => exact appendTag_counted _ h0 hl hc
  | infinitum => exact appendTag_counted _ h0 hl hc
  | nil => exact appendTag_counted _ h0 hl hc
  | arrayInitiator => exact appendTag_counted _ h0 hl hc
  | arrayTerminator => exact appendTag_counted _ h0 hl hc
  | int32 rhs => exact appendFixed_counted _ _ h0 hl hc
  | float bits => exact appendFixed_counted _ _ h0 hl hc
  | char rhs => exact appendFixed_counted _ _ h0 hl hc
  | rgbaColor rhs => exact appendFixed_counted _ _ h0 hl hc
  | midiMessage rhs => exact appendFixed_counted _ _ h0 hl hc
  | int64 rhs => exact appendFixed_counted _ _ h0 hl hc
  | timeTag rhs => exact appendFixed_counted _ _ h0 hl hc
  | double bits => exact appendFixed_counted _ _ h0 hl hc
  | stringView rhs =>
    exact append_counted .stringTag hk h0 hl hc fun s' hs => (put_nonempty s' rhs _).trans (string_put hs)
  | cString rhs =>
    exact append_counted .stringTag hk h0 hl hc fun s' hs => (put_nonempty s' rhs.bytes _).trans (string_put hs)
  | stdString rhs =>
    exact append_counted .stringTag hk h0 hl hc fun s' hs => (put_nonempty s' rhs _).trans (string_put hs)
  | charArray ref => exact append_counted .stringTag hk h0 hl hc fun _ hs => put_pad rfl hs
  | symbol rhs => exact append_counted .symbolTag hk h0 hl hc fun _ hs => put_pad (length_snoc_zero rhs.bytes).symm hs
  | blob data size => exact append_counted .blobTag hk h0 hl hc fun _ hs => blob_put hcount hr hs

theorem appended_contained {tag : TypeTag} {bytes : Bytes} (h0 : 0 < s.typeTagsCurrent)
    (hl : s.typeTagsCurrent ≤ s.data.length) (hroom : s.argumentCurrent + bytes.length ≤ s.data.length) :
    Contained s s.argumentCurrent bytes.length (ok (appended s tag bytes)) := by
  have h1 : s.typeTagsCurrent - 1 + ([tag.value] : Bytes).length ≤ s.data.length := by rw [List.length_singleton]; omega
  have h2 : s.argumentCurrent + bytes.length ≤ (splice s.data (s.typeTagsCurrent - 1) [tag.value]).length := by
    rw [length_splice h1]; exact hroom
  refine ⟨(length_splice h2).trans (length_splice h1), Nat.le_refl _, hroom, fun i hi hne => ?_⟩
  have hne' : i ≠ s.typeTagsCurrent - 1 := hne
  show (splice (splice _ _ _) _ _)[i]? = _
  rw [getElem?_splice h2 hi, getElem?_splice h1 (by rw [List.length_singleton]; omega)]

theorem length_slot (s : OutboundPacketStream) : (slotBytes s.elementSizePtr).length = slotOf s := by
  unfold slotOf OutboundPacketStream.elementSizeSlotRequired
  cases s.elementSizePtr <;> rfl

theorem beginElement_room {ε : Type} {p : Nat} (hr : p + slotOf s ≤ s.data.length) :
    (s.beginElement p : Out ε _) = ok (p + slotOf s,
      { s with data := splice s.data p (slotBytes s.elementSizePtr),
               elementSizePtr := some (elementPtr s.elementSizePtr p) }) := by
  rw [← length_slot] at hr ⊢
  exact beginElement_slot hr

/-- The stream behind a slot and an address. -/
def begun (s : OutboundPacketStream) (block : Bytes) : OutboundPacketStream :=
  addressed block (s.messageCursor + slotOf s)
    { s with data := splice s.data s.messageCursor (slotBytes s.elementSizePtr),
             elementSizePtr := some (elementPtr s.elementSizePtr s.messageCursor) }

theorem begin_counted (ho : Ordered cap s) {address : Bytes} (hcount : address.length + 4 < 2 ^ 32)
    (hc : ¬ (s.messageIsInProgress = true ∨ s.capacity < s.size + slotOf s +
      roundUp4 ((address.length + 1) % 2 ^ 32) + 4))
    {f : Nat → OutboundPacketStream → Out (Exn × OutboundPacketStream) OutboundPacketStream}
    (hf : ∀ {cursor s'}, cursor + (strBlock address).length ≤ s'.data.length →
      f cursor s' = ok (addressed (strBlock address) cursor s')) :
    (if s.messageIsInProgress then err (.messageInProgress, s)
      else do
        s.checkForAvailableMessageSpace address.length
        let (cursor, s) ← s.beginElement s.messageCursor
        f cursor s) = ok (begun s (strBlock address)) ∧
      s.messageCursor + slotOf s + (strBlock address).length ≤ s.data.length := by
  obtain ⟨hm, hspace⟩ := not_or.mp hc
  have hsize : s.argumentCurrent ≤ s.size := Nat.le_add_right ..
  have hcur := ho.cursors
  rw [string_counted hcount, ← OpenStack.length_strBlock] at hspace
  unfold OutboundPacketStream.capacity at hspace
  have hroom : s.messageCursor + slotOf s + (strBlock address).length ≤ s.data.length := by omega
  have hslot : s.messageCursor + (slotBytes s.elementSizePtr).length ≤ s.data.length := by rw [length_slot]; omega
  refine ⟨?_, hroom⟩
  rw [if_neg hm, OutboundPacketStream.checkForAvailableMessageSpace, OutboundPacketStream.require, if_neg ?_, ok_bind,
    beginElement_room (by omega), ok_bind]
  · exact hf (by dsimp only; rw [length_splice hslot]; exact hroom)
  · rw [string_counted hcount, ← OpenStack.length_strBlock]
    exact hspace

theorem begun_contained {block : Bytes} (hroom : s.messageCursor + slotOf s + block.length ≤ s.data.length) :
    Contained s s.messageCursor (slotOf s + block.length) (ok (begun s block)) := by
  have h1 : s.messageCursor + (slotBytes s.elementSizePtr).length ≤ s.data.length := by rw [length_slot]; omega
  have h2 : s.messageCursor + slotOf s + block.length ≤
    (splice s.data s.messageCursor (slotBytes s.elementSizePtr)).length := by
    rw [length_splice h1]; exact hroom
  refine ⟨(length_splice h2).trans (length_splice h1), Nat.le_of_eq (Nat.add_assoc ..), hroom, fun i hi _ => ?_⟩
  show (splice (splice _ _ _) _ _)[i]? = _
  rw [getElem?_splice h2 (by omega), getElem?_splice h1 (by rw [length_slot]; omega)]

/-! ## Calls -/

/-- A call is refused, or it returns or faults. -/
theorem block_any (b : Block) : Weakly (apply b.op s)
    (fun s' => b.start s + b.reserved s < s'.argumentCurrent ∨ b.Counted s) (fun e => e.2 = s ∧ b.Refused s) := by
  cases b with
  | beginMessage addressPattern =>
    refine (beginMessage_any s addressPattern).mono (fun s' h => ?_) fun _ h => h
    by_cases hc : addressPattern.bytes.length + 4 < 2 ^ 32
    · exact .inr hc
    · have := string_uncounted hc
      rw [← OpenStack.length_strBlock] at this
      refine .inl ?_
      rw [h.argument, Block.start, Block.reserved]
      omega
  | beginMessageN addressPattern =>
    refine (beginMessageN_any s addressPattern).mono (fun s' h => ?_) fun _ h => h
    by_cases hc : addressPattern.length + 4 < 2 ^ 32
    · exact .inr hc
    · have := string_uncounted hc
      rw [← OpenStack.length_strBlock] at this
      refine .inl ?_
      rw [h.argument, Block.start, Block.reserved]
      omega
  | append rhs =>
    refine (operand_any s rhs).mono (fun s' h => ?_) fun _ h => h
    obtain ⟨h0, -, -, harg, -⟩ := h
    by_cases hc : rhs.Counted
    · exact .inr ⟨hc, h0⟩
    · have := space_lt_written hc
      refine .inl ?_
      rw [harg, Block.start, Block.reserved]
      omega

theorem refused_throws {b : Block} (h : b.Refused s) : ∃ e, apply b.op s = err (e, s) := by
  have begins : ∀ {n : Nat} {k : Unit → Out (Exn × OutboundPacketStream) OutboundPacketStream},
      s.messageIsInProgress = true ∨ s.capacity < n → ∃ e, (if s.messageIsInProgress then err (.messageInProgress, s)
        else s.require n >>= k : Out (Exn × OutboundPacketStream) OutboundPacketStream) = err (e, s) := by
    intro n k h
    by_cases hm : s.messageIsInProgress = true
    · exact ⟨_, if_pos hm⟩
    · refine ⟨.outOfBufferMemory, ?_⟩
      rw [if_neg hm, OutboundPacketStream.require, if_pos (h.resolve_left hm)]
      rfl
  have appends : ∀ {n : Nat} {k : Unit → Out (Exn × OutboundPacketStream) OutboundPacketStream}, s.capacity < n →
      ∃ e, (s.require n >>= k) = err (e, s) := by
    intro n k h
    exact ⟨.outOfBufferMemory, by rw [OutboundPacketStream.require, if_pos h]; rfl⟩
  cases b with
  | beginMessage addressPattern => exact begins h
  | beginMessageN addressPattern => exact begins h
  | append rhs => cases rhs <;> exact appends h

theorem counted_contained (ho : Ordered cap s) {b : Block} (hr : b.Readable) (hb : ¬ b.Refused s) (hc : b.Counted s) :
    Contained s (b.start s) (b.reserved s) (apply b.op s) := by
  have hl := ho.tags
  rw [← ho.capacity] at hl
  cases b with
  | beginMessage addressPattern =>
    obtain ⟨he, hroom⟩ := begin_counted ho hc hb (f := writeAddress addressPattern) writeAddress_eq
    have he' : apply (Block.beginMessage addressPattern).op s = ok _ := he
    rw [he', Block.reserved, string_counted hc, ← OpenStack.length_strBlock]
    exact begun_contained hroom
  | beginMessageN addressPattern =>
    obtain ⟨he, hroom⟩ := begin_counted ho hc hb (f := writeAddressN addressPattern) writeAddressN_eq
    have he' : apply (Block.beginMessageN addressPattern).op s = ok _ := he
    rw [he', Block.reserved, string_counted hc, ← OpenStack.length_strBlock]
    exact begun_contained hroom
  | append rhs =>
    obtain ⟨hcount, h0⟩ := hc
    have hspace := length_written hcount hr
    have hroom : s.argumentCurrent + rhs.bytes.length ≤ s.data.length := by
      have hb' : ¬ s.capacity < required s rhs.space := hb
      unfold required OutboundPacketStream.capacity at hb'
      omega
    have he : apply (Block.append rhs).op s = ok _ := operand_counted hcount hr h0 hl hb
    rw [he, Block.reserved, hspace]
    exact appended_contained h0 hl hroom

/-- A call that is not refused and not counted writes past what was reserved, or outside the buffer. -/
theorem overrun {b : Block} (hb : ¬ b.Refused s) (hc : ¬ b.Counted s) :
    ¬ Contained s (b.start s) (b.reserved s) (apply b.op s) := by
  intro h
  have hany := block_any (s := s) b
  unfold Contained at h
  cases hx : apply b.op s with
  | ok s' =>
    rw [hx] at h hany
    have hle := h.2.1
    have hlt := Or.resolve_right hany hc
    omega
  | err e => rw [hx] at hany; exact hb hany.2
  | fault f => rw [hx] at h; exact h

/-- In every state that any calls reach, whatever their operands, for `BeginMessage` with any
    address and every append with any operand: it throws without writing, or writes no more
    than its check counted and inside the buffer, if and only if it is refused or is counted
    without overflow. -/
theorem reserve_exact {buffer : Bytes} {ops : List Op} {s : OutboundPacketStream}
    (hrun : runCaught apply ops (.mk' buffer) = ok s) (b : Block) (hr : b.Readable) :
    Contained s (b.start s) (b.reserved s) (apply b.op s) ↔ b.Refused s ∨ b.Counted s := by
  have ho := run_ordered (mk'_ordered buffer) hrun
  by_cases hb : b.Refused s
  · obtain ⟨e, he⟩ := refused_throws hb
    rw [he]
    exact ⟨fun _ => .inl hb, fun _ => rfl⟩
  · by_cases hc : b.Counted s
    · exact ⟨fun _ => .inr hc, fun _ => counted_contained ho hr hb hc⟩
    · exact ⟨fun h => absurd h (overrun hb hc), fun h => absurd h (not_or.mpr ⟨hb, hc⟩)⟩

/-- A blob of three bytes in a message "/". -/
theorem reserve_exact_blob : ∃ s, runCaught apply [.beginMessage ⟨[47], by decide⟩]
    (.mk' (List.replicate 32 7)) = ok s ∧
    Contained s s.argumentCurrent 8 (apply (.append (.blob [1, 2, 3] 3)) s) := by
  have hrun : runCaught apply [.beginMessage ⟨[47], by decide⟩] (.mk' (List.replicate 32 7)) =
      ok (begun (.mk' (List.replicate 32 7)) [47, 0, 0, 0]) := by decide +kernel
  exact ⟨_, hrun, (reserve_exact hrun (.append (.blob [1, 2, 3] 3)) (show (3 : Int32).toInt ≤ 3 by decide)).mpr
    (.inr ⟨show 0 ≤ (3 : Int32).toInt by decide, show 0 < 32 by decide⟩)⟩

/-- A message in 16 bytes: the check of a blob of size -1 counts 4 bytes for it, and its
    address of `2 ^ 32 - 4` bytes counts none. -/
theorem overruns :
    (∃ s, runCaught apply [.beginMessage ⟨[47], by decide⟩] (.mk' (List.replicate 16 0)) = ok s ∧
      ¬ Contained s s.argumentCurrent 4 (apply (.append (.blob [] (-1))) s)) ∧
    ¬ Contained (.mk' (List.replicate 16 0)) 0 0
      (apply (.beginMessageN (List.replicate (2 ^ 32 - 4) 65)) (.mk' (List.replicate 16 0))) := by
  constructor
  · have hfault : ¬ Contained (begun (.mk' (List.replicate 16 0)) [47, 0, 0, 0]) 4 4
        (apply (.append (.blob [] (-1))) (begun (.mk' (List.replicate 16 0)) [47, 0, 0, 0])) :=
      overrun (b := .append (.blob [] (-1))) (show ¬ 16 < 12 by decide)
        fun hc => absurd (show 0 ≤ (-1 : Int32).toInt from hc.1) (by decide)
    exact ⟨_, by decide +kernel, hfault⟩
  · have hwraps : ∀ address : Bytes, address.length = 2 ^ 32 - 4 →
        ¬ Contained (.mk' (List.replicate 16 0)) 0 0 (apply (.beginMessageN address) (.mk' (List.replicate 16 0))) := by
      intro address hlen
      have hzero : roundUp4 ((address.length + 1) % 2 ^ 32) = 0 := by rw [hlen]; decide
      have h := overrun (b := .beginMessageN address) (s := .mk' (List.replicate 16 0)) ?_ ?_
      · rwa [Block.reserved, hzero] at h
      · rintro (h | h)
        · exact absurd h (by decide)
        · rw [hzero] at h
          exact absurd h (by decide)
      · show ¬ address.length + 4 < 2 ^ 32
        omega
    exact hwraps _ List.length_replicate

end OscTap.Outbound
