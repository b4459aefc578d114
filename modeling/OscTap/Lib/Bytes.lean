/-
  OscTap.Lib.Bytes — byte strings: the range of a buffer between two offsets, a block
  written into a buffer, and big-endian words.

  A buffer is a list of bytes. `slice m p q` is its bytes from offset `p` up to `q`,
  `splice m p w` is the buffer after the block `w` was written at `p`. `be32` and `be64`
  are the big-endian words, and `val32` reads four bytes back. Nothing here depends on a
  program.
-/
import Mathlib.Algebra.Order.Ring.Int
import Mathlib.Tactic.Common

namespace OscTap.Lib

abbrev Bytes := List UInt8

/-! ## Ranges -/

def slice (m : Bytes) (p q : Nat) : Bytes := (m.drop p).take (q - p)

theorem length_slice {m : Bytes} {p q : Nat} (h : q ≤ m.length) : (slice m p q).length = q - p := by
  simp only [slice, List.length_take, List.length_drop]; omega

theorem getElem?_slice (m : Bytes) (p q i : Nat) :
    (slice m p q)[i]? = if p + i < q then m[p + i]? else none := by
  simp only [slice, List.getElem?_take, List.getElem?_drop]
  split <;> split <;> first | rfl | omega

@[simp] theorem slice_all (m : Bytes) : slice m 0 m.length = m := by simp [slice]

theorem slice_self (m : Bytes) (p : Nat) : slice m p p = [] := by simp [slice]

/-- A range is the bytes before an offset inside it, then those after. -/
theorem slice_split (m : Bytes) {p q r : Nat} (h : p ≤ q) (h' : q ≤ r) :
    slice m p r = slice m p q ++ slice m q r := by
  have e : r - p = (q - p) + (r - q) := by omega
  simp only [slice, e, List.take_add, List.drop_drop]
  congr 3; omega

/-- The parts of a range that is a concatenation are ranges. -/
theorem slice_eq_append {m a b : Bytes} {p r : Nat} (hr : r ≤ m.length) (hp : p ≤ r) (h : slice m p r = a ++ b) :
    p + a.length ≤ r ∧ a = slice m p (p + a.length) ∧ b = slice m (p + a.length) r := by
  have hl : (slice m p r).length = r - p := length_slice hr
  have hle : p + a.length ≤ r := by rw [h, List.length_append] at hl; omega
  have hs := slice_split m (Nat.le_add_right p a.length) hle
  rw [hs] at h
  have hla : (slice m p (p + a.length)).length = a.length := by rw [length_slice (by omega)]; omega
  obtain ⟨h1, h2⟩ := List.append_inj h hla
  exact ⟨hle, h1.symm, h2.symm⟩

theorem slice_append_middle (a b c : Bytes) : slice (a ++ b ++ c) a.length (a.length + b.length) = b := by
  simp [slice]

theorem slice_append_left {m : Bytes} (b : Bytes) {p q : Nat} (h : q ≤ m.length) :
    slice (m ++ b) p q = slice m p q := by
  apply List.ext_getElem?
  intro i
  simp only [getElem?_slice]
  split
  · rw [List.getElem?_append_left (by omega)]
  · rfl

/-- The bytes `w` are at offset `p`. -/
def At (m : Bytes) (p : Nat) (w : Bytes) : Prop := p + w.length ≤ m.length ∧ slice m p (p + w.length) = w

theorem at_self (m : Bytes) : At m 0 m := ⟨by omega, by rw [Nat.zero_add, slice_all]⟩

theorem at_append {m : Bytes} {p : Nat} (a b : Bytes) : At m p (a ++ b) ↔ At m p a ∧ At m (p + a.length) b := by
  unfold At
  rw [List.length_append, ← Nat.add_assoc]
  constructor
  · intro ⟨hl, h⟩
    obtain ⟨-, h1, h2⟩ := slice_eq_append hl (by omega) h
    exact ⟨⟨by omega, h1.symm⟩, hl, h2.symm⟩
  · intro ⟨⟨_, h1⟩, hl, h2⟩
    exact ⟨hl, by rw [slice_split m (Nat.le_add_right p a.length) (Nat.le_add_right _ _), h1, h2]⟩

theorem At.getElem? {m w : Bytes} {p i : Nat} (h : At m p w) (hi : i < w.length) : m[p + i]? = w[i]? := by
  conv => rhs; rw [← h.2]
  rw [getElem?_slice, if_pos (by omega)]

theorem At.get {m w : Bytes} {p : Nat} {c : UInt8} (h : At m p (c :: w)) : m[p]? = some c := by
  have := getElem?_slice m p (p + (c :: w).length) 0
  rw [h.2, if_pos (by rw [List.length_cons]; omega)] at this
  exact this.symm

theorem At.tail {m w : Bytes} {p : Nat} {c : UInt8} (h : At m p (c :: w)) : At m (p + 1) w :=
  ((at_append [c] w).mp h).2

/-! ## Writing a block -/

def splice (m : Bytes) (p : Nat) (w : Bytes) : Bytes := m.take p ++ w ++ m.drop (p + w.length)

theorem length_splice {m w : Bytes} {p : Nat} (h : p + w.length ≤ m.length) : (splice m p w).length = m.length := by
  simp only [splice, List.length_append, List.length_take, List.length_drop]; omega

/-- Writing changes nothing in front of the block. -/
theorem take_splice {m w : Bytes} {p n : Nat} (h : n ≤ p) (hp : p ≤ m.length) : (splice m p w).take n = m.take n := by
  have hl : n ≤ (m.take p).length := by simp only [List.length_take]; omega
  rw [splice, List.append_assoc, List.take_append_of_le_length hl, List.take_take, Nat.min_eq_left h]

/-- A block written at the end of what is already known extends it. -/
theorem take_splice_end {m w : Bytes} {p : Nat} (h : p + w.length ≤ m.length) :
    (splice m p w).take (p + w.length) = m.take p ++ w := by
  have hl : (m.take p ++ w).length = p + w.length := by
    simp only [List.length_append, List.length_take]; omega
  rw [splice, ← hl, List.take_left]

/-- Writing changes nothing behind the block. -/
theorem drop_splice {m w : Bytes} {p n : Nat} (h : p + w.length ≤ n) (hp : p + w.length ≤ m.length) :
    (splice m p w).drop n = m.drop n := by
  have hl : (m.take p ++ w).length = p + w.length := by
    simp only [List.length_append, List.length_take]; omega
  rw [splice, List.drop_append, List.drop_eq_nil_of_le (by omega), List.nil_append, List.drop_drop, hl]
  congr 1; omega

@[simp] theorem splice_nil (m : Bytes) (p : Nat) : splice m p [] = m := by simp [splice]

/-- Two adjacent writes are one. -/
theorem splice_splice {m v w : Bytes} {p : Nat} (h : p + v.length + w.length ≤ m.length) :
    splice (splice m p v) (p + v.length) w = splice m p (v ++ w) := by
  have h1 : p + v.length ≤ m.length := by omega
  rw [splice, take_splice_end h1, drop_splice (by omega) h1, splice, List.append_assoc (m.take p), List.length_append,
    Nat.add_assoc]

/-- A block written in front of another is one block with it. -/
theorem splice_front {m v w : Bytes} {p : Nat} (h : p + v.length + w.length ≤ m.length) :
    splice (splice m (p + v.length) w) p v = splice m p (v ++ w) := by
  have h1 : p + v.length ≤ m.length := by omega
  have e : (splice m (p + v.length) w).drop (p + v.length) = w ++ m.drop (p + v.length + w.length) := by
    have hl : (m.take (p + v.length)).length = p + v.length := by simp only [List.length_take]; omega
    rw [splice, List.append_assoc, List.drop_append, hl, Nat.sub_self, List.drop_eq_nil_of_le (by omega)]; rfl
  rw [splice, take_splice (Nat.le_add_right ..) h1, e, splice, List.length_append, Nat.add_assoc]
  simp only [List.append_assoc]

/-- What is known up to the end of a block written behind something known. -/
theorem take_splice_append {m w a : Bytes} {p : Nat} (h : p + w.length ≤ m.length) (hp : m.take p = a) :
    (splice m p w).take (p + w.length) = a ++ w := by rw [take_splice_end h, hp]

/-! ## Padding to words -/

def padLen (n : Nat) : Nat := (4 - n % 4) % 4

def padded (b : Bytes) : Bytes := b ++ List.replicate (padLen b.length) 0

theorem padLen_lt (n : Nat) : padLen n < 4 := Nat.mod_lt _ (by omega)

theorem padLen_mod (n : Nat) : (n + padLen n) % 4 = 0 := by unfold padLen; omega

@[simp] theorem length_padded (b : Bytes) : (padded b).length = b.length + padLen b.length := by simp [padded]

/-! ## Big-endian words -/

def be32 (n : Nat) : Bytes :=
  [UInt8.ofNat (n / 2 ^ 24), UInt8.ofNat (n / 2 ^ 16), UInt8.ofNat (n / 2 ^ 8), UInt8.ofNat n]

def val32 (a b c d : UInt8) : Nat := a.toNat * 2 ^ 24 + b.toNat * 2 ^ 16 + c.toNat * 2 ^ 8 + d.toNat

def be64 (n : Nat) : Bytes := be32 (n / 2 ^ 32) ++ be32 n

@[simp] theorem length_be32 (n : Nat) : (be32 n).length = 4 := rfl
@[simp] theorem length_be64 (n : Nat) : (be64 n).length = 8 := rfl

theorem val32_lt (a b c d : UInt8) : val32 a b c d < 2 ^ 32 := by
  have ha := a.toNat_lt; have hb := b.toNat_lt; have hc := c.toNat_lt; have hd := d.toNat_lt
  simp only [val32]; omega

theorem val32_be32 (n : Nat) :
    val32 (UInt8.ofNat (n / 2 ^ 24)) (UInt8.ofNat (n / 2 ^ 16)) (UInt8.ofNat (n / 2 ^ 8))
      (UInt8.ofNat n) = n % 2 ^ 32 := by
  simp only [val32, UInt8.toNat_ofNat']; omega

theorem be32_val32 (a b c d : UInt8) : be32 (val32 a b c d) = [a, b, c, d] := by
  have ha := a.toNat_lt; have hb := b.toNat_lt; have hc := c.toNat_lt; have hd := d.toNat_lt
  simp only [be32, val32, List.cons.injEq, and_true]
  refine ⟨?_, ?_, ?_, ?_⟩ <;> (apply UInt8.toNat_inj.mp; simp only [UInt8.toNat_ofNat']; omega)

end OscTap.Lib
