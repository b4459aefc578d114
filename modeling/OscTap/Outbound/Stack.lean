/-
  OscTap.Outbound.Stack — the encoder as a stack of open elements.

  `OpenStack` holds what a stream stands for: the bytes of the closed top-level elements,
  the bytes of the elements that are open, innermost first, and the tags and argument bytes
  behind them. `layout` is where they lie: a nested element behind a slot that holds the
  offset of the enclosing element's slot. `step` is what a call does to it; the capacity
  enters only in the space checks. `Inv` is what every call preserves.

  Proved: `step_inv`, and `step_mono`: a call that fits does the same in a larger buffer.
-/
import OscTap.Lib.Machine
import OscTap.Outbound.PacketStream

namespace OscTap.Outbound

open OscTap.Lib OscTap.Lib.Out OscTap.Osc

/-! ## Operands -/

namespace Operand

def tag : Operand → TypeTag
  | bool rhs => if rhs then .trueTag else .falseTag
  | infinitum => .infinitumTag
  | nil => .nilTag
  | int32 _ => .int32Tag
  | float _ => .floatTag
  | char _ => .charTag
  | rgbaColor _ => .rgbaColorTag
  | midiMessage _ => .midiMessageTag
  | int64 _ => .int64Tag
  | timeTag _ => .timeTagTag
  | double _ => .doubleTag
  | stringView _ | cString _ | stdString _ | charArray _ => .stringTag
  | symbol _ => .symbolTag
  | blob _ _ => .blobTag
  | arrayInitiator => .arrayBeginTag
  | arrayTerminator => .arrayEndTag

def bytes : Operand → Bytes
  | bool _ | infinitum | nil | arrayInitiator | arrayTerminator => []
  | int32 rhs => be32 rhs.toUInt32.toNat
  | char rhs => be32 (charBits rhs).toNat
  | float bits | rgbaColor bits | midiMessage bits => be32 bits.toNat
  | int64 rhs => be64 rhs.toUInt64.toNat
  | timeTag bits | double bits => be64 bits.toNat
  | stringView rhs | stdString rhs => strBlock rhs
  | cString rhs | symbol rhs => strBlock rhs.bytes
  | charArray ref => padded ref
  | blob data size => be32 size.toUInt32.toNat ++ padded (data.take size.toInt.toNat)

/-- A string whose padded size is a `uint32_t`; a blob's size is not negative and its data
    is there. -/
def Fits : Operand → Prop
  | stringView rhs | stdString rhs => rhs.length + 4 < 2 ^ 32
  | cString rhs | symbol rhs => rhs.bytes.length + 4 < 2 ^ 32
  | charArray ref => ref.length + 4 < 2 ^ 32
  | blob data size => 0 ≤ size.toInt ∧ size.toInt ≤ data.length
  | _ => True

end Operand

def Op.Fits : Op → Prop
  | .beginMessage addressPattern => addressPattern.bytes.length + 4 < 2 ^ 32
  | .beginMessageN addressPattern => addressPattern.length + 4 < 2 ^ 32
  | .append rhs => rhs.Fits
  | _ => True

/-! ## The stack -/

structure OpenStack where
  /-- The closed top-level elements. -/
  closed : Bytes
  /-- The open elements, innermost first, each without its slot. -/
  opens : List Bytes
  inMessage : Bool
  /-- Newest first, as they lie in the buffer. -/
  tags : Bytes
  args : Bytes
  deriving DecidableEq

/-- The slot in front of an element, given the pointer to the enclosing element's slot. -/
def slotBytes : Option Nat → Bytes
  | none => []
  | some p => be32 p

/-- The pointer to the slot of an element that begins at `beginPtr`. -/
def elementPtr (outer : Option Nat) (beginPtr : Nat) : Nat :=
  match outer with
  | none => 0
  | some _ => beginPtr

/-- Where the open elements lie: the bytes in front of `messageCursor_`, and `elementSizePtr_`. -/
def layout (closed : Bytes) : List Bytes → Bytes × Option Nat
  | [] => (closed, none)
  | b :: bs =>
    ((layout closed bs).1 ++ slotBytes (layout closed bs).2 ++ b,
      some (elementPtr (layout closed bs).2 (layout closed bs).1.length))

def tagSlot (n : Nat) : Nat := n + 2 + padLen (n + 2)

namespace OpenStack

def empty : OpenStack := ⟨[], [], false, [], []⟩

variable (a : OpenStack)

def front : Bytes := (layout a.closed a.opens).1

def ptr : Option Nat := (layout a.closed a.opens).2

/-- The size of the slot that a further element needs. -/
def slot : Nat := if a.opens = [] then 0 else 4

def size : Nat := a.front.length + a.args.length + if a.inMessage then tagSlot a.tags.length else 0

def push (b : Bytes) : OpenStack := { a with opens := b :: a.opens, args := [] }

/-- Close the innermost element: behind its length, in the one around it. -/
def pop : OpenStack :=
  match a.opens with
  | [] => a
  | [b] => { a with closed := a.closed ++ b, opens := [] }
  | b :: b' :: bs => { a with opens := (b' ++ be32 b.length ++ b) :: bs }

def grow (x : Bytes) : OpenStack :=
  match a.opens with
  | [] => a
  | b :: bs => { a with opens := (b ++ x) :: bs }

def finish : OpenStack :=
  { (a.grow (tagBlock a.tags.reverse ++ a.args)) with inMessage := false, tags := [], args := [] }

def require (cap required : Nat) (a' : OpenStack) : Except Exn OpenStack :=
  if cap < required then .error .outOfBufferMemory else .ok a'

def beginMessage (cap : Nat) (address : Bytes) : Except Exn OpenStack :=
  if a.inMessage then .error .messageInProgress
  else require cap (a.size + a.slot + (strBlock address).length + 4)
    { (a.push (strBlock address)) with inMessage := true, tags := [] }

def append (cap : Nat) (tag : TypeTag) (bytes : Bytes) : Except Exn OpenStack :=
  require cap (a.front.length + a.args.length + bytes.length + tagSlot (a.tags.length + 1))
    { a with tags := tag.value :: a.tags, args := a.args ++ bytes }

def step (cap : Nat) (op : Op) (a : OpenStack) : Except Exn OpenStack :=
  match op with
  | .clear => .ok empty
  | .beginBundle timeTag =>
    if a.inMessage then .error .messageInProgress
    else require cap (a.size + a.slot + 16) (a.push (bundleTag ++ be64 timeTag.toNat))
  | .endBundle =>
    if a.opens = [] then .error .bundleNotInProgress
    else if a.inMessage then .error .messageInProgress
    else .ok a.pop
  | .beginMessage addressPattern => a.beginMessage cap addressPattern.bytes
  | .beginMessageN addressPattern => a.beginMessage cap addressPattern
  | .endMessage => if ¬ a.inMessage then .error .messageNotInProgress else .ok a.finish.pop
  | .append rhs => a.append cap rhs.tag rhs.bytes

end OpenStack

/-! ### The layout -/

theorem layout_ptr_none {closed : Bytes} {bs : List Bytes} : (layout closed bs).2 = none ↔ bs = [] := by
  cases bs with
  | nil => simp [layout]
  | cons b bs => simp [layout]

theorem length_slotBytes {closed : Bytes} {bs : List Bytes} :
    (slotBytes (layout closed bs).2).length = if bs = [] then 0 else 4 := by
  cases bs with
  | nil => rfl
  | cons b bs => rfl

/-- The innermost element grows at the end of the front. -/
theorem layout_append (closed b x : Bytes) (bs : List Bytes) :
    layout closed ((b ++ x) :: bs) = ((layout closed (b :: bs)).1 ++ x, (layout closed (b :: bs)).2) := by
  simp only [layout, List.append_assoc]

theorem length_layout (closed b : Bytes) (bs : List Bytes) :
    (layout closed (b :: bs)).1.length = (layout closed bs).1.length + (if bs = [] then 0 else 4) + b.length := by
  simp only [layout, List.length_append, length_slotBytes]

/-- A nested element does not start at the buffer's front. -/
theorem layout_pos {closed b : Bytes} (bs : List Bytes) (hb : b ≠ []) : 0 < (layout closed (b :: bs)).1.length := by
  have := List.length_pos_iff.mpr hb
  rw [length_layout]; omega

namespace OpenStack

variable {a : OpenStack}

theorem front_push (b : Bytes) : (a.push b).front = a.front ++ slotBytes a.ptr ++ b := rfl

theorem ptr_push (b : Bytes) : (a.push b).ptr = some (elementPtr a.ptr a.front.length) := rfl

theorem length_front_push (b : Bytes) : (a.push b).front.length = a.front.length + a.slot + b.length :=
  length_layout a.closed b a.opens

theorem size_push (hm : ¬ a.inMessage = true) (b : Bytes) : (a.push b).size = a.front.length + a.slot + b.length := by
  rw [size, length_front_push, if_neg (by exact hm)]; rfl

theorem front_grow (h : a.opens ≠ []) (x : Bytes) : (a.grow x).front = a.front ++ x ∧ (a.grow x).ptr = a.ptr := by
  unfold grow front ptr
  cases ho : a.opens with
  | nil => exact absurd ho h
  | cons b bs => simp only [layout_append, and_self]

theorem opens_grow (h : a.opens ≠ []) (x : Bytes) : (a.grow x).opens ≠ [] := by
  unfold grow
  cases ho : a.opens with
  | nil => exact absurd ho h
  | cons b bs => simp

/-- Closing an element moves nothing. -/
theorem length_front_pop : a.pop.front.length = a.front.length := by
  unfold pop front
  split
  · rfl
  · rename_i b ho
    rw [ho, length_layout]; simp [layout]
  · rename_i b b' bs ho
    rw [ho, length_layout, length_layout, length_layout]
    simp only [reduceCtorEq, if_false, List.length_append, length_be32]
    omega

theorem pop_fields : a.pop.inMessage = a.inMessage ∧ a.pop.tags = a.tags ∧ a.pop.args = a.args := by
  unfold pop
  split <;> simp

theorem grow_fields (x : Bytes) : (a.grow x).inMessage = a.inMessage ∧ (a.grow x).tags = a.tags ∧
    (a.grow x).args = a.args := by
  unfold grow
  split <;> simp

theorem length_tagBlock (tags : Bytes) : (tagBlock tags).length = tagSlot tags.length := by
  simp only [tagBlock, strBlock, length_padded, tagSlot, List.length_append, List.length_cons,
    List.length_nil, Nat.zero_add]

theorem tagSlot_mono {n k : Nat} (h : n ≤ k) : tagSlot n ≤ tagSlot k := by
  unfold tagSlot padLen; omega

/-! ## What every call preserves -/

structure Inv (cap : Nat) (a : OpenStack) : Prop where
  fits : a.size ≤ cap
  tagsFit : a.tags.length ≤ cap
  message : a.inMessage = true → a.opens ≠ [] ∧ (a.tags = [] → a.args = [])
  heads : ∀ b ∈ a.opens, b ≠ []

theorem empty_inv (cap : Nat) : Inv cap empty where
  fits := Nat.zero_le _
  tagsFit := Nat.zero_le _
  message := fun h => by cases h
  heads := fun b h => by cases h

theorem require_ok {cap required : Nat} {a' a'' : OpenStack} (h : require cap required a' = .ok a'') :
    required ≤ cap ∧ a'' = a' := by
  unfold require at h
  split at h
  · cases h
  · cases h; exact ⟨by omega, rfl⟩

theorem pop_heads (h : ∀ b ∈ a.opens, b ≠ []) : ∀ b ∈ a.pop.opens, b ≠ [] := by
  unfold pop
  split
  · exact h
  · exact fun b hb => by cases hb
  · rename_i b b' bs ho
    intro c hc
    rcases List.mem_cons.mp hc with rfl | hc
    · simpa using fun e : b' = [] => absurd e (h b' (by rw [ho]; simp))
    · exact h c (by rw [ho]; exact List.mem_cons_of_mem _ (List.mem_cons_of_mem _ hc))

theorem grow_heads (h : ∀ b ∈ a.opens, b ≠ []) (x : Bytes) : ∀ b ∈ (a.grow x).opens, b ≠ [] := by
  unfold grow
  split
  · exact h
  · rename_i b bs ho
    intro c hc
    rcases List.mem_cons.mp hc with rfl | hc
    · simpa using fun e : b = [] => absurd e (h b (by rw [ho]; simp))
    · exact h c (by rw [ho]; exact List.mem_cons_of_mem _ hc)

/-- Ending a message takes exactly the space that its size already counts. -/
theorem size_finish (h : a.inMessage = true) (ho : a.opens ≠ []) : a.finish.pop.size = a.size := by
  have hp := @pop_fields a.finish
  rw [size, length_front_pop, hp.1, hp.2.2]
  show (a.grow _).front.length + ([] : Bytes).length + 0 = _
  rw [(front_grow ho _).1, size, h, if_pos rfl, List.length_append, List.length_append, length_tagBlock,
    List.length_reverse]
  simp only [List.length_nil]
  omega

theorem size_pop : a.pop.size = a.size := by
  have hp := @pop_fields a
  rw [size, length_front_pop, hp.1, hp.2.1, hp.2.2]; rfl

theorem length_strBlock (s : Bytes) : (strBlock s).length = s.length + 1 + padLen (s.length + 1) := by
  simp only [strBlock, length_padded, List.length_append, List.length_cons, List.length_nil]

theorem beginMessage_inv {cap : Nat} {address : Bytes} {a' : OpenStack} (hi : Inv cap a)
    (h : a.beginMessage cap address = .ok a') : Inv cap a' := by
  unfold beginMessage at h
  split at h
  · cases h
  · rename_i hm
    obtain ⟨hc, rfl⟩ := require_ok h
    have hs : a.front.length ≤ a.size := by unfold size; omega
    refine ⟨?_, Nat.zero_le _, fun _ => ⟨by simp [push], fun _ => rfl⟩, ?_⟩
    · show (a.push (strBlock address)).front.length + 0 + tagSlot 0 ≤ cap
      rw [length_front_push, show tagSlot 0 = 4 from rfl]
      omega
    · intro b hb
      rcases List.mem_cons.mp hb with rfl | hb
      · exact List.length_pos_iff.mp (by rw [length_strBlock]; omega)
      · exact hi.heads b hb

/-- A call keeps the invariant. -/
theorem step_inv {cap : Nat} {op : Op} {a' : OpenStack} (hi : Inv cap a) (h : step cap op a = .ok a') : Inv cap a' := by
  cases op with
  | clear => cases h; exact empty_inv cap
  | beginBundle timeTag =>
    simp only [step] at h
    split at h
    · cases h
    · rename_i hm
      obtain ⟨hc, rfl⟩ := require_ok h
      have hs : a.front.length ≤ a.size := by unfold size; omega
      have hb : (bundleTag ++ be64 timeTag.toNat).length = 16 := by
        simp only [List.length_append, length_be64]; rfl
      refine ⟨?_, hi.tagsFit, fun h => absurd h hm, ?_⟩
      · rw [size_push hm, hb]; omega
      · intro b hmem
        rcases List.mem_cons.mp hmem with rfl | hmem
        · exact List.length_pos_iff.mp (by omega)
        · exact hi.heads b hmem
  | endBundle =>
    simp only [step] at h
    split at h
    · cases h
    · split at h
      · cases h
      · rename_i hm
        cases h
        have hp := @pop_fields a
        exact ⟨by rw [size_pop]; exact hi.fits, by rw [hp.2.1]; exact hi.tagsFit,
          fun h => absurd (hp.1 ▸ h) hm, pop_heads hi.heads⟩
  | beginMessage addressPattern => exact beginMessage_inv hi h
  | beginMessageN addressPattern => exact beginMessage_inv hi h
  | endMessage =>
    simp only [step] at h
    split at h
    · cases h
    · rename_i hm
      cases h
      have hm : a.inMessage = true := by simpa using hm
      have hp := @pop_fields a.finish
      refine ⟨by rw [size_finish hm (hi.message hm).1]; exact hi.fits, by rw [hp.2.1]; exact Nat.zero_le _,
        fun h => ?_, pop_heads (grow_heads hi.heads _)⟩
      rw [hp.1] at h; cases h
  | append rhs =>
    obtain ⟨hc, rfl⟩ := require_ok h
    have hn : (rhs.tag.value :: a.tags).length = a.tags.length + 1 := rfl
    have ht : a.tags.length + 1 ≤ tagSlot (a.tags.length + 1) := by unfold tagSlot; omega
    refine ⟨?_, by rw [hn]; omega, fun h => ⟨(hi.message h).1, fun h => by cases h⟩, hi.heads⟩
    show a.front.length + (a.args ++ rhs.bytes).length + (if a.inMessage then tagSlot (a.tags.length + 1) else 0) ≤ cap
    rw [List.length_append]
    split <;> omega

theorem require_mono {B C n : Nat} {a' a'' : OpenStack} (h : require B n a' = .ok a'') (hBC : B ≤ C) :
    require C n a' = .ok a'' := by
  obtain ⟨hc, rfl⟩ := require_ok h
  exact if_neg (by omega)

/-- A call that fits does the same in a larger buffer. -/
theorem step_mono {B C : Nat} {op : Op} {a' : OpenStack} (h : step B op a = .ok a') (hBC : B ≤ C) :
    step C op a = .ok a' := by
  have hmsg : ∀ address, a.beginMessage B address = .ok a' → a.beginMessage C address = .ok a' := by
    intro address h
    unfold beginMessage at h ⊢
    split at h
    · cases h
    · rename_i hm
      rw [if_neg hm]; exact require_mono h hBC
  cases op with
  | clear => exact h
  | beginBundle timeTag =>
    simp only [step] at h ⊢
    split at h
    · cases h
    · rename_i hm
      rw [if_neg hm]; exact require_mono h hBC
  | endBundle => exact h
  | beginMessage addressPattern => exact hmsg _ h
  | beginMessageN addressPattern => exact hmsg _ h
  | endMessage => exact h
  | append rhs => exact require_mono h hBC

end OpenStack

end OscTap.Outbound
