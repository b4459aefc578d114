/-
  OscTap.Outbound.AnyCall — what every call keeps, whatever its operands.

  No bound on the lengths, no promise about a blob: a call that throws has changed nothing,
  and one that returns keeps the buffer's length and the order of the cursors (`Ordered`).
-/
import OscTap.Outbound.Refinement

namespace OscTap.Outbound

open OscTap.Lib OscTap.Lib.Out OscTap.Osc

structure Ordered (cap : Nat) (s : OutboundPacketStream) : Prop where
  capacity : s.data.length = cap
  cursors : s.messageCursor ≤ s.argumentCurrent
  tags : s.typeTagsCurrent ≤ cap

theorem mk'_ordered (buffer : Bytes) : Ordered buffer.length (OutboundPacketStream.mk' buffer) :=
  ⟨rfl, Nat.le_refl _, Nat.le_refl _⟩

/-! ## The writes -/

variable {ε : Type} {cap : Nat} {s : OutboundPacketStream}

theorem wr_length (m : Bytes) (p : Nat) (w : Bytes) :
    Weakly (wr m p w : Out ε Bytes) (fun m' => m'.length = m.length) (fun _ => False) := by
  unfold wr
  split
  · rename_i h
    rcases h with rfl | h
    · rw [splice_nil]; rfl
    · exact length_splice h
  · trivial

theorem zeroPad_length : ∀ (n : Nat) (data : Bytes) (p i : Nat), n = padLen i →
    Weakly (zeroPad data p i : Out ε (Bytes × Nat)) (fun x => x.1.length = data.length ∧ x.2 = p + n) (fun _ => False)
  | 0, data, p, i, hn => by
    rw [zeroPad, if_neg (by unfold padLen at hn; omega)]
    exact ⟨rfl, rfl⟩
  | n + 1, data, p, i, hn => by
    rw [zeroPad, if_pos (by unfold padLen at hn; omega)]
    refine (wr_length data p [0]).bind fun data' hl => ?_
    refine (zeroPad_length n data' (p + 1) (i + 1) (by unfold padLen at hn ⊢; omega)).mono (fun x hx => ?_) fun _ h => h
    exact ⟨hx.1.trans hl, by rw [hx.2]; omega⟩

theorem zeroFill_length : ∀ (n : Nat) (data : Bytes) (p : Nat),
    Weakly (zeroFill data p n : Out ε Bytes) (fun data' => data'.length = data.length) (fun _ => False)
  | 0, _, _ => rfl
  | n + 1, data, p => by
    rw [zeroFill]
    exact (wr_length data p [0]).bind fun data' hl =>
      (zeroFill_length n data' (p + 1)).mono (fun _ h => h.trans hl) fun _ h => h

theorem copyReversed_length (tags : Bytes) (p : Nat) : ∀ (k : Nat) (data : Bytes) (i : Nat), tags.length - i = k →
    Weakly (copyReversed data p tags i : Out ε Bytes) (fun data' => data'.length = data.length) (fun _ => False)
  | 0, data, i, hk => by
    rw [copyReversed, dif_neg (by omega)]
    rfl
  | k + 1, data, i, hk => by
    rw [copyReversed, dif_pos (by omega)]
    refine (wr_length data (p + i) _).bind fun data' hl => ?_
    exact (copyReversed_length tags p k data' (i + 1) (by omega)).mono (fun _ h => h.trans hl) fun _ h => h

/-- `BeginElement` moves on by the slot it needs. -/
theorem beginElement_any (s : OutboundPacketStream) (p : Nat) :
    Weakly (s.beginElement p : Out ε _) (fun x => x.1 = p + (if s.elementSizeSlotRequired then 4 else 0) ∧
      x.2.data.length = s.data.length ∧ x.2.typeTagsCurrent = s.typeTagsCurrent) (fun _ => False) := by
  unfold OutboundPacketStream.beginElement OutboundPacketStream.elementSizeSlotRequired
  cases s.elementSizePtr with
  | none => exact ⟨rfl, rfl, rfl⟩
  | some q => exact (wr_length s.data p (be32 q)).bind fun data hl => ⟨rfl, hl, rfl⟩

theorem rd_quiet (m : Bytes) (p : Nat) : Weakly (rd m p : Out ε UInt8) (fun _ => True) (fun _ => False) := by
  unfold rd
  split <;> trivial

theorem rd32_quiet (m : Bytes) (p : Nat) : Weakly (rd32 m p : Out ε Nat) (fun _ => True) (fun _ => False) :=
  (rd_quiet m p).bind fun _ _ => (rd_quiet m _).bind fun _ _ => (rd_quiet m _).bind fun _ _ =>
    (rd_quiet m _).bind fun _ _ =>
    trivial

theorem rdBytes_length (m : Bytes) (p n : Nat) :
    Weakly (rdBytes m p n : Out ε Bytes) (fun bytes => bytes.length = n) (fun _ => False) := by
  unfold rdBytes
  split
  · rename_i h
    show (slice m p (p + n)).length = n
    rcases h with rfl | h
    · rw [Nat.add_zero, slice_self]; rfl
    · rw [length_slice h]; omega
  · trivial

/-- `EndElement` moves nothing. -/
theorem endElement_any (h : Ordered cap s) (p : Nat) :
    Weakly (s.endElement p : Out ε _) (Ordered cap) (fun _ => False) := by
  unfold OutboundPacketStream.endElement
  split
  · trivial
  · exact ⟨h.capacity, h.cursors, h.tags⟩
  · exact (rd32_quiet s.data _).bind fun _ _ => (wr_length s.data _ _).bind fun data hl =>
      ⟨hl.trans h.capacity, h.cursors, h.tags⟩

/-- A tag goes in front of the tags. -/
theorem pushTag_any (s : OutboundPacketStream) (tag : TypeTag) :
    Weakly (s.pushTag tag : Out ε _) (fun s' => 0 < s.typeTagsCurrent ∧ s'.data.length = s.data.length ∧
      s'.messageCursor = s.messageCursor ∧ s'.argumentCurrent = s.argumentCurrent ∧
        s'.typeTagsCurrent = s.typeTagsCurrent - 1)
      (fun _ => False) := by
  unfold OutboundPacketStream.pushTag
  split
  · trivial
  · rename_i t ht
    exact (wr_length s.data t _).bind fun data hl => ⟨by omega, hl, rfl, rfl, by rw [ht]; rfl⟩

/-- The stream behind `n` argument bytes. -/
def Advanced (s : OutboundPacketStream) (n : Nat) (s' : OutboundPacketStream) : Prop :=
  s'.data.length = s.data.length ∧ s'.messageCursor = s.messageCursor ∧ s'.typeTagsCurrent = s.typeTagsCurrent ∧
    s'.argumentCurrent = s.argumentCurrent + n

theorem Advanced.refl (s : OutboundPacketStream) : Advanced s 0 s := ⟨rfl, rfl, rfl, rfl⟩

theorem Advanced.trans {s₁ s₂ s₃ : OutboundPacketStream} {n k : Nat} (h : Advanced s₁ n s₂) (h' : Advanced s₂ k s₃) :
    Advanced s₁ (n + k) s₃ :=
  ⟨h'.1.trans h.1, h'.2.1.trans h.2.1, h'.2.2.1.trans h.2.2.1, by rw [h'.2.2.2, h.2.2.2, Nat.add_assoc]⟩

theorem put_any (s : OutboundPacketStream) (bytes : Bytes) :
    Weakly (s.put bytes : Out ε _) (Advanced s bytes.length) (fun _ => False) :=
  (wr_length s.data s.argumentCurrent bytes).bind fun _ hl => ⟨hl, rfl, rfl, rfl⟩

theorem padArgument_any (s : OutboundPacketStream) (i : Nat) :
    Weakly (s.padArgument i : Out ε _) (Advanced s (padLen i)) (fun _ => False) :=
  (zeroPad_length (padLen i) s.data s.argumentCurrent i rfl).bind fun _ hx => ⟨hx.1, rfl, rfl, hx.2⟩

/-! ## The appends -/

/-- The size an append is checked with. -/
def Operand.space : Operand → Nat
  | .stringView rhs | .stdString rhs => roundUp4 ((rhs.length + 1) % 2 ^ 32)
  | .cString rhs | .symbol rhs => roundUp4 ((rhs.bytes.length + 1) % 2 ^ 32)
  | .charArray ref => roundUp4 (ref.length % 2 ^ 32)
  | .blob _ size => (4 + roundUp4 size.toUInt32.toNat) % 2 ^ 32
  | rhs => rhs.bytes.length

/-- What an append of that size needs, its tag included. -/
def required (s : OutboundPacketStream) (space : Nat) : Nat :=
  s.argumentCurrent + space + roundUp4 ((s.capacity - s.typeTagsCurrent + 3) % 2 ^ 32)

theorem require_any (s : OutboundPacketStream) (n : Nat) :
    Weakly (s.require n) (fun _ => True) (fun e => e.2 = s ∧ s.capacity < n) := by
  unfold OutboundPacketStream.require
  split
  · exact ⟨rfl, ‹_›⟩
  · trivial

/-- The bytes that an append writes behind the arguments. -/
def Operand.written : Operand → Nat
  | .blob _ size => 4 + (size.toInt % 2 ^ 64).toNat + padLen (size.toInt % 2 ^ 64).toNat
  | rhs => rhs.bytes.length

/-- What an append that returns has done. -/
def Appended (s : OutboundPacketStream) (n : Nat) (s' : OutboundPacketStream) : Prop :=
  0 < s.typeTagsCurrent ∧ s'.data.length = s.data.length ∧ s'.messageCursor = s.messageCursor ∧
    s'.argumentCurrent = s.argumentCurrent + n ∧ s'.typeTagsCurrent = s.typeTagsCurrent - 1

/-- The check, the tag, and the bytes. -/
theorem append_any {k n : Nat} (s : OutboundPacketStream) (tag : TypeTag)
    {f : OutboundPacketStream → Out (Exn × OutboundPacketStream) OutboundPacketStream}
    (hf : ∀ s' : OutboundPacketStream, Weakly (f s') (Advanced s' n) (fun _ => False)) :
    Weakly (s.checkForAvailableArgumentSpace k >>= fun _ => s.pushTag tag >>= f) (Appended s n)
      (fun e => e.2 = s ∧ s.capacity < required s k) := by
  refine (require_any s _).bind fun _ _ => Weakly.quiet
    ((pushTag_any s tag).bind fun s' h => (hf s').mono (fun s'' h' => ?_) fun _ h => h)
  obtain ⟨h1, h2, h3, h4, h5⟩ := h
  exact ⟨h1, h'.1.trans h2, h'.2.1.trans h3, by rw [h'.2.2.2, h4], h'.2.2.1.trans h5⟩

theorem appendTag_any (s : OutboundPacketStream) (tag : TypeTag) :
    Weakly (s.appendTag tag) (Appended s 0) (fun e => e.2 = s ∧ s.capacity < required s 0) := by
  have h := append_any (k := 0) s tag (f := ok) fun s' => Advanced.refl s'
  rwa [show (s.pushTag tag >>= ok : Out (Exn × OutboundPacketStream) _) = s.pushTag tag from bind_pure _] at h

theorem appendFixed_any (s : OutboundPacketStream) (tag : TypeTag) (bytes : Bytes) :
    Weakly (s.appendFixed tag bytes) (Appended s bytes.length)
      (fun e => e.2 = s ∧ s.capacity < required s bytes.length) :=
  append_any s tag fun s' => put_any s' bytes

theorem stringView_any (s : OutboundPacketStream) (rhs : Bytes) :
    Weakly (s.stringView rhs) (Appended s (strBlock rhs).length)
      (fun e => e.2 = s ∧ s.capacity < required s (Operand.stringView rhs).space) := by
  refine append_any s .stringTag fun s' => ?_
  rw [OpenStack.length_strBlock, Nat.add_assoc, show
    (_ : Out (Exn × OutboundPacketStream) OutboundPacketStream) = _ from
    put_nonempty s' rhs _]
  refine (put_any s' rhs).bind fun s₁ h1 => (put_any s₁ [0]).bind fun s₂ h2 => ?_
  exact (padArgument_any s₂ _).mono (fun s₃ h3 => h1.trans (h2.trans h3)) fun _ h => h

theorem charArray_any (s : OutboundPacketStream) (ref : Bytes) :
    Weakly (s.charArray ref) (Appended s (padded ref).length)
      (fun e => e.2 = s ∧ s.capacity < required s (Operand.charArray ref).space) := by
  refine append_any s .stringTag fun s' => ?_
  rw [length_padded]
  exact (put_any s' ref).bind fun s₁ h1 => (padArgument_any s₁ _).mono (fun s₂ h2 => h1.trans h2) fun _ h => h

theorem symbol_any (s : OutboundPacketStream) (rhs : CStr) :
    Weakly (s.symbol rhs) (Appended s (strBlock rhs.bytes).length)
      (fun e => e.2 = s ∧ s.capacity < required s (Operand.symbol rhs).space) := by
  refine append_any s .symbolTag fun s' => ?_
  rw [OpenStack.length_strBlock, ← length_snoc_zero]
  exact (put_any s' _).bind fun s₁ h1 => (padArgument_any s₁ _).mono (fun s₂ h2 => h1.trans h2) fun _ h => h

theorem blob_any (s : OutboundPacketStream) (data : Bytes) (size : Int32) :
    Weakly (s.blob data size) (Appended s (Operand.blob data size).written)
      (fun e => e.2 = s ∧ s.capacity < required s (Operand.blob data size).space) := by
  refine append_any s .blobTag fun s' => ?_
  refine (put_any s' _).bind fun s₁ h1 => (rdBytes_length data 0 _).bind fun bytes hb =>
    (put_any s₁ bytes).bind fun s₂ h2 => ?_
  rw [length_be32] at h1
  rw [hb] at h2
  exact (padArgument_any s₂ _).mono (fun s₃ h3 => (h1.trans h2).trans h3) fun _ h => h

theorem operand_any (s : OutboundPacketStream) (rhs : Operand) :
    Weakly (append s rhs) (Appended s rhs.written) (fun e => e.2 = s ∧ s.capacity < required s rhs.space) := by
  cases rhs with
  | bool rhs => exact appendTag_any s _
  | infinitum => exact appendTag_any s _
  | nil => exact appendTag_any s _
  | arrayInitiator => exact appendTag_any s _
  | arrayTerminator => exact appendTag_any s _
  | int32 rhs => exact appendFixed_any s _ _
  | float bits => exact appendFixed_any s _ _
  | char rhs => exact appendFixed_any s _ _
  | rgbaColor rhs => exact appendFixed_any s _ _
  | midiMessage rhs => exact appendFixed_any s _ _
  | int64 rhs => exact appendFixed_any s _ _
  | timeTag rhs => exact appendFixed_any s _ _
  | double bits => exact appendFixed_any s _ _
  | stringView rhs => exact stringView_any s rhs
  | cString rhs => exact stringView_any s rhs.bytes
  | stdString rhs => exact stringView_any s rhs
  | charArray ref => exact charArray_any s ref
  | symbol rhs => exact symbol_any s rhs
  | blob data size => exact blob_any s data size

/-! ## The elements -/

def slotOf (s : OutboundPacketStream) : Nat := if s.elementSizeSlotRequired then 4 else 0

/-- What a `BeginMessage` that returns has done, with an address of `n` bytes, padding included. -/
structure Began (s : OutboundPacketStream) (n : Nat) (s' : OutboundPacketStream) : Prop where
  length : s'.data.length = s.data.length
  cursor : s'.messageCursor = s.messageCursor + slotOf s + n
  argument : s'.argumentCurrent = s.messageCursor + slotOf s + n
  tags : s'.typeTagsCurrent = s.data.length

/-- The guard and the check, then the slot and the address. -/
theorem begin_any {k n : Nat} (s : OutboundPacketStream)
    {f : Nat → OutboundPacketStream → Out (Exn × OutboundPacketStream) OutboundPacketStream}
    (hf : ∀ cursor s', Weakly (f cursor s') (fun s'' => s''.data.length = s'.data.length ∧
      s''.messageCursor = cursor + n ∧
      s''.argumentCurrent = cursor + n ∧ s''.typeTagsCurrent = s'.data.length) (fun _ => False)) :
    Weakly (if s.messageIsInProgress then err (.messageInProgress, s)
      else do
        s.checkForAvailableMessageSpace k
        let (cursor, s) ← s.beginElement s.messageCursor
        f cursor s) (Began s n)
      (fun e => e.2 = s ∧ (s.messageIsInProgress = true ∨
        s.capacity < s.size + slotOf s + roundUp4 ((k + 1) % 2 ^ 32) + 4)) := by
  split
  · exact ⟨rfl, .inl ‹_›⟩
  · refine ((require_any s _).mono (fun _ h => h) fun e he => ⟨he.1, .inr he.2⟩).bind fun _ _ =>
      Weakly.quiet ((beginElement_any s s.messageCursor).bind fun x hx => ?_)
    obtain ⟨h1, h2, -⟩ := hx
    refine (hf x.1 x.2).mono (fun s'' h => ?_) fun _ h => h
    rw [h1] at h
    exact ⟨h.1.trans h2, h.2.1, h.2.2.1, h.2.2.2.trans h2⟩

theorem beginMessage_any (s : OutboundPacketStream) (addressPattern : CStr) :
    Weakly (s.beginMessage addressPattern) (Began s (strBlock addressPattern.bytes).length)
      (fun e => e.2 = s ∧ (s.messageIsInProgress = true ∨
        s.capacity < s.size + slotOf s + roundUp4 ((addressPattern.bytes.length + 1) % 2 ^ 32) + 4)) := by
  refine begin_any s (f := writeAddress addressPattern) fun cursor s' => ?_
  rw [OpenStack.length_strBlock]
  refine (wr_length s'.data cursor _).bind fun data hd => ?_
  exact (zeroPad_length (padLen (addressPattern.bytes.length + 1)) data _ _ rfl).bind fun x hx =>
    ⟨hx.1.trans hd, hx.2.trans (Nat.add_assoc ..), hx.2.trans (Nat.add_assoc ..), hx.1.trans hd⟩

theorem beginMessageN_any (s : OutboundPacketStream) (addressPattern : Bytes) :
    Weakly (s.beginMessageN addressPattern) (Began s (strBlock addressPattern).length)
      (fun e => e.2 = s ∧ (s.messageIsInProgress = true ∨
        s.capacity < s.size + slotOf s + roundUp4 ((addressPattern.length + 1) % 2 ^ 32) + 4)) := by
  refine begin_any s (f := writeAddressN addressPattern) fun cursor s' => ?_
  rw [OpenStack.length_strBlock]
  refine (wr_length s'.data cursor _).bind fun data hd => (wr_length data _ _).bind fun data' hd' => ?_
  refine (zeroPad_length (padLen (addressPattern.length + 1)) data' _ _ rfl).bind fun x hx => ?_
  have hl := hx.1.trans (hd'.trans hd)
  have hcursor : x.2 = cursor + (addressPattern.length + 1 + padLen (addressPattern.length + 1)) := by rw [hx.2]; omega
  exact ⟨hl, hcursor, hcursor, hl⟩

theorem beginBundle_any (h : Ordered cap s) (timeTag : UInt64) :
    Weakly (s.beginBundle timeTag) (Ordered cap) (fun e => e.2 = s) := by
  unfold OutboundPacketStream.beginBundle
  split
  · rfl
  · refine ((require_any s _).mono (fun _ h => h) fun e he => he.1).bind fun _ _ =>
      Weakly.quiet ((beginElement_any s s.messageCursor).bind fun x hx => ?_)
    obtain ⟨-, h2, h3⟩ := hx
    refine (wr_length x.2.data _ _).bind fun data hd => (wr_length data _ _).bind fun data' hd' => ?_
    exact ⟨(hd'.trans hd).trans (h2.trans h.capacity), Nat.le_refl _, h3.trans_le h.tags⟩

theorem endBundle_any (h : Ordered cap s) : Weakly s.endBundle (Ordered cap) (fun e => e.2 = s) := by
  unfold OutboundPacketStream.endBundle
  split
  · rfl
  · split
    · rfl
    · exact (endElement_any h _).quiet

theorem endMessage_any (h : Ordered cap s) : Weakly s.endMessage (Ordered cap) (fun e => e.2 = s) := by
  have ended : ∀ {s' : OutboundPacketStream} {p : Nat}, Ordered cap s' →
      Weakly (s'.endElement p >>= fun s => ok { s with messageIsInProgress := false } :
        Out (Exn × OutboundPacketStream) OutboundPacketStream) (Ordered cap) (fun e => e.2 = s) := fun h' =>
    (endElement_any h' _).quiet.bind fun _ h'' => ⟨h''.capacity, h''.cursors, h''.tags⟩
  unfold OutboundPacketStream.endMessage
  split
  · rfl
  · dsimp only
    split
    · refine (rdBytes_length s.data _ _).quiet.bind fun tags _ =>
        (rdBytes_length s.data _ _).quiet.bind fun arguments _ => ?_
      refine (wr_length s.data _ _).quiet.bind fun d1 h1 => (wr_length d1 _ _).quiet.bind fun d2 h2 => ?_
      refine (copyReversed_length tags _ _ d2 0 rfl).quiet.bind fun d3 h3 =>
        (zeroFill_length _ d3 _).quiet.bind fun d4 h4 => ?_
      have hl : d4.length = cap := h4.trans (h3.trans (h2.trans (h1.trans h.capacity)))
      exact ended ⟨hl, Nat.le_refl _, Nat.le_of_eq hl⟩
    · refine (wr_length s.data _ _).quiet.bind fun d1 h1 => ?_
      exact ended ⟨h1.trans h.capacity, Nat.le_refl _, h.tags⟩

/-! ## Calls and runs -/

theorem Appended.ordered {n : Nat} {s' : OutboundPacketStream} (h : Ordered cap s) (h' : Appended s n s') :
    Ordered cap s' := by
  obtain ⟨-, h2, h3, h4, h5⟩ := h'
  have := h.cursors
  have := h.tags
  exact ⟨h2.trans h.capacity, by omega, by omega⟩

theorem Began.ordered {n : Nat} {s' : OutboundPacketStream} (h : Ordered cap s) (h' : Began s n s') : Ordered cap s' :=
  ⟨h'.length.trans h.capacity, by rw [h'.cursor, h'.argument], by rw [h'.tags, h.capacity]⟩

/-- A call that throws leaves the stream as it was; one that returns, in order. -/
theorem apply_any (h : Ordered cap s) (op : Op) : Weakly (apply op s) (Ordered cap) (fun e => e.2 = s) := by
  cases op with
  | clear => exact ⟨h.capacity, Nat.le_refl _, Nat.le_of_eq h.capacity⟩
  | beginBundle timeTag => exact beginBundle_any h timeTag
  | endBundle => exact endBundle_any h
  | beginMessage addressPattern =>
    exact (beginMessage_any s addressPattern).mono (fun _ h' => h'.ordered h) fun _ h => h.1
  | beginMessageN addressPattern =>
    exact (beginMessageN_any s addressPattern).mono (fun _ h' => h'.ordered h) fun _ h => h.1
  | endMessage => exact endMessage_any h
  | append rhs => exact (operand_any s rhs).mono (fun _ h' => h'.ordered h) fun _ h => h.1

theorem run_ordered {ops : List Op} {s' : OutboundPacketStream} (h : Ordered cap s)
    (hr : runCaught apply ops s = ok s') :
    Ordered cap s' := by
  refine Weakly.ok_of_eq (Weakly.foldlM (Q := fun _ => True) (fun op _ s h => ?_) h) hr
  have ha := apply_any h op
  cases hx : apply op s with
  | ok s' => rw [hx] at ha; exact ha
  | err e =>
    rw [hx] at ha
    show Ordered cap e.2
    rw [show e.2 = s from ha]
    exact h
  | fault f => trivial

end OscTap.Outbound
