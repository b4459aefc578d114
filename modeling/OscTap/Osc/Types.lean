/-
  OscTap.Osc.Types — the types and the byte helpers of the library (`osctap/osc/OscTypes.h`,
  `osctap/osc/OscUtilities.h`).

  Pointers are offsets into one buffer. `osc_bundle_element_size_t` is an `Int` (the code's
  `int32_t`), `uint32_t` a `Nat` below `2 ^ 32`. `findStr4End` is `FindStr4End(p, end)`,
  `findStr4EndUnchecked` is `FindStr4End(p)`. The size computations that the parsers bound
  their reads with are checked: `roundUp4Checked` and `sizeLeft` fault (`wrap`) where the
  code's 32-bit arithmetic would leave its range.
-/
import OscTap.Lib.Checked

namespace OscTap.Osc

open OscTap.Lib OscTap.Lib.Out

variable {ε : Type}

/-! ## Sizes -/

def oscBundleElementSizeMax : Nat := 0x7FFFFFFC

def isValidElementSizeValue (x : Int) : Bool := decide (0 ≤ x ∧ x ≤ oscBundleElementSizeMax)

def isMultipleOf4 (x : Int) : Bool := x % 4 == 0

/-- `BitCast<int32_t>`: also the conversion of a `uint32_t` to `osc_bundle_element_size_t`. -/
def int32OfBits (n : Nat) : Int := if n < 2 ^ 31 then n else (n : Int) - 2 ^ 32

/-- `BitCast<uint32_t>`: also `static_cast<uint32_t>` of a wider integer. -/
def bitsOfInt32 (x : Int) : Nat := (x % 2 ^ 32).toNat

def roundUp4 (x : Nat) : Nat := (x + 3) % 2 ^ 32 / 4 * 4

def roundUp4Checked (x : Nat) : Out ε Nat := if x + 3 < 2 ^ 32 then ok (roundUp4 x) else fault .wrap

/-- `(uint32_t)(end - p)`. -/
def sizeLeft (end_ p : Nat) : Out ε Nat := if p ≤ end_ ∧ end_ - p < 2 ^ 32 then ok (end_ - p) else fault .wrap

theorem roundUp4_of_lt {x : Nat} (h : x + 3 < 2 ^ 32) : roundUp4 x = (x + 3) / 4 * 4 := by
  rw [roundUp4, Nat.mod_eq_of_lt h]

theorem roundUp4_ge {x : Nat} (h : x + 3 < 2 ^ 32) : x ≤ roundUp4 x ∧ roundUp4 x < x + 4 ∧ roundUp4 x % 4 = 0 := by
  rw [roundUp4_of_lt h]; omega

theorem roundUp4Checked_of_lt {x : Nat} (h : x + 3 < 2 ^ 32) :
    (roundUp4Checked x : Out ε Nat) = ok (roundUp4 x) := if_pos h

theorem sizeLeft_of_le {e p : Nat} (h : p ≤ e) (h' : e - p < 2 ^ 32) : (sizeLeft e p : Out ε Nat) = ok (e - p) :=
  if_pos ⟨h, h'⟩

theorem isValid_iff {x : Int} : isValidElementSizeValue x = true ↔ 0 ≤ x ∧ x ≤ 0x7FFFFFFC := by
  rw [isValidElementSizeValue, decide_eq_true_eq]; rfl

theorem isMultipleOf4_iff {x : Int} : isMultipleOf4 x = true ↔ x % 4 = 0 := by simp [isMultipleOf4]

theorem int32OfBits_small {n : Nat} (h : n < 2 ^ 31) : int32OfBits n = n := if_pos h

/-! ## Type tags -/

def ch (c : Char) : UInt8 := c.toNat.toUInt8

def bundleTag : Bytes := [ch '#', ch 'b', ch 'u', ch 'n', ch 'd', ch 'l', ch 'e', 0]

inductive TypeTag where
  | trueTag
  | falseTag
  | nilTag
  | infinitumTag
  | int32Tag
  | floatTag
  | charTag
  | rgbaColorTag
  | midiMessageTag
  | int64Tag
  | timeTagTag
  | doubleTag
  | stringTag
  | symbolTag
  | blobTag
  | arrayBeginTag
  | arrayEndTag
  deriving DecidableEq, Repr

namespace TypeTag

def value : TypeTag → UInt8
  | trueTag => ch 'T'
  | falseTag => ch 'F'
  | nilTag => ch 'N'
  | infinitumTag => ch 'I'
  | int32Tag => ch 'i'
  | floatTag => ch 'f'
  | charTag => ch 'c'
  | rgbaColorTag => ch 'r'
  | midiMessageTag => ch 'm'
  | int64Tag => ch 'h'
  | timeTagTag => ch 't'
  | doubleTag => ch 'd'
  | stringTag => ch 's'
  | symbolTag => ch 'S'
  | blobTag => ch 'b'
  | arrayBeginTag => ch '['
  | arrayEndTag => ch ']'

def all : List TypeTag :=
  [trueTag, falseTag, nilTag, infinitumTag, int32Tag, floatTag, charTag, rgbaColorTag, midiMessageTag, int64Tag,
    timeTagTag, doubleTag, stringTag, symbolTag, blobTag, arrayBeginTag, arrayEndTag]

/-- The tag a byte stands for: the `case` labels of the code's `switch`es. -/
def ofByte (b : UInt8) : Option TypeTag := all.find? (·.value == b)

@[simp] theorem ofByte_value (t : TypeTag) : ofByte t.value = some t := by cases t <;> decide

theorem value_ne_zero (t : TypeTag) : t.value ≠ 0 := by cases t <;> decide

theorem ofByte_eq_some {b : UInt8} {t : TypeTag} : ofByte b = some t ↔ b = t.value := by
  refine ⟨fun h => ?_, fun h => by rw [h, ofByte_value]⟩
  have := List.find?_some h
  exact (by simpa using this : t.value = b).symm

end TypeTag

/-! ## Strings padded to words -/

/-- The loop of `FindStr4End(p, end)`, after `p += 3` and `end -= 1`. -/
def findStr4EndLoop (m : Bytes) (end_ p : Nat) : Out ε Nat :=
  if p < end_ then do
    let c ← rd m p
    if c = 0 then ok p else findStr4EndLoop m end_ (p + 4)
  else ok p
termination_by end_ - p

/-- `FindStr4End(p, end)`; `none` is the code's null pointer. -/
def findStr4End (m : Bytes) (p end_ : Nat) : Out ε (Option Nat) :=
  if end_ ≤ p then ok none
  else do
    let c ← rd m p
    if c = 0 then ok (some (p + 4))
    else do
      let q ← findStr4EndLoop m (end_ - 1) (p + 3)
      let c ← rd m q
      if c = 0 then ok (some (q + 1)) else ok none

/-- `while (*p) p += 4`: past the buffer's last byte it faults. -/
def findStr4EndUncheckedLoop (m : Bytes) (p : Nat) : Out ε Nat :=
  if h : p < m.length then
    if m[p] = 0 then ok p else findStr4EndUncheckedLoop m (p + 4)
  else fault (.read p)
termination_by m.length - p

def findStr4EndUnchecked (m : Bytes) (p : Nat) : Out ε Nat := do
  let c ← rd m p
  if c = 0 then ok (p + 4)
  else do
    let q ← findStr4EndUncheckedLoop m (p + 3)
    ok (q + 1)

/-! ### What the scans compute -/

/-- `[p, q)` is a padded string of the buffer: one word if its first byte is NUL, else the
    words up to the first whose last byte is NUL. -/
def IsStr4 (m : Bytes) (p q : Nat) : Prop :=
  (m[p]? = some 0 ∧ q = p + 4) ∨
    ∃ k, q = p + 4 * (k + 1) ∧ (∃ c, m[p]? = some c ∧ c ≠ 0) ∧ m[p + 4 * k + 3]? = some 0 ∧
      ∀ i < k, ∃ c, m[p + 4 * i + 3]? = some c ∧ c ≠ 0

theorem IsStr4.lt {m : Bytes} {p q : Nat} (h : IsStr4 m p q) : p < q := by
  rcases h with ⟨-, rfl⟩ | ⟨k, rfl, -⟩ <;> omega

theorem IsStr4.aligned {m : Bytes} {p q : Nat} (h : IsStr4 m p q) : (q - p) % 4 = 0 := by
  rcases h with ⟨-, rfl⟩ | ⟨k, rfl, -⟩ <;> omega

theorem IsStr4.unique {m : Bytes} {p q q' : Nat} (h : IsStr4 m p q) (h' : IsStr4 m p q') : q = q' := by
  rcases h with ⟨h0, rfl⟩ | ⟨k, rfl, ⟨c, hc, hne⟩, hk, hi⟩
  · rcases h' with ⟨-, rfl⟩ | ⟨k', -, ⟨c, hc, hne⟩, -⟩
    · rfl
    · rw [h0] at hc; exact absurd (Option.some.inj hc).symm hne
  · rcases h' with ⟨h0, -⟩ | ⟨k', rfl, -, hk', hi'⟩
    · rw [h0] at hc; exact absurd (Option.some.inj hc).symm hne
    · have g : ∀ a b : Nat, (∀ i < b, ∃ c, m[p + 4 * i + 3]? = some c ∧ c ≠ 0) →
        m[p + 4 * a + 3]? = some 0 → b ≤ a := by
        intro a b hb ha
        by_contra hlt
        obtain ⟨c, hc, hne⟩ := hb a (by omega)
        rw [ha] at hc; exact hne (Option.some.inj hc).symm
      have := g k k' hi' hk; have := g k' k hi hk'; omega

/-- The bounded scan from `p + 3`, where `j` words are left before `end`: it stops at the
    first word closed by NUL, or at the last word. -/
theorem findStr4EndLoop_spec (m : Bytes) : ∀ (j p : Nat), p + 4 * j < m.length →
    ∃ k ≤ j, (findStr4EndLoop m (p + 4 * j) p : Out ε Nat) = ok (p + 4 * k) ∧
      (∀ i < k, ∃ c, m[p + 4 * i]? = some c ∧ c ≠ 0) ∧ (k = j ∨ m[p + 4 * k]? = some 0) := by
  intro j
  induction j with
  | zero =>
    intro p _
    refine ⟨0, Nat.le_refl _, ?_, fun i hi => absurd hi (Nat.not_lt_zero i), Or.inl rfl⟩
    rw [findStr4EndLoop, if_neg (by omega)]; rfl
  | succ j ih =>
    intro p hl
    rw [findStr4EndLoop, if_pos (by omega), rd_of_lt (by omega), ok_bind]
    have hp : m[p]? = some m[p] := List.getElem?_eq_getElem (by omega)
    by_cases hc : m[p] = 0
    · rw [if_pos hc]
      exact ⟨0, Nat.zero_le _, rfl, fun i hi => absurd hi (Nat.not_lt_zero i), Or.inr (by rw [← hc]; exact hp)⟩
    · rw [if_neg hc]
      obtain ⟨k, hk, he, hi, hz⟩ := ih (p + 4) (by omega)
      have e : p + 4 + 4 * j = p + 4 * (j + 1) := by omega
      rw [e] at he
      refine ⟨k + 1, by omega, by rw [he]; congr 1; omega, fun i hik => ?_, ?_⟩
      · match i with
        | 0 => exact ⟨_, hp, hc⟩
        | i + 1 =>
          obtain ⟨c, h1, h2⟩ := hi i (by omega)
          exact ⟨c, by rw [← h1]; congr 1; omega, h2⟩
      · rcases hz with rfl | hz
        · exact Or.inl rfl
        · exact Or.inr (by rw [← hz]; congr 1; omega)

/-- `FindStr4End(p, end)` on a word-aligned range inside the buffer: it reads nothing outside
    and finds the padded string at `p` that ends in the range, if there is one. -/
theorem findStr4End_spec {m : Bytes} {p e : Nat} (hpe : p < e) (he : e ≤ m.length) (ha : (e - p) % 4 = 0) :
    (∃ q ≤ e, (findStr4End m p e : Out ε (Option Nat)) = ok (some q) ∧ IsStr4 m p q) ∨
      ((findStr4End m p e : Out ε (Option Nat)) = ok none ∧ ∀ q ≤ e, ¬ IsStr4 m p q) := by
  have hp : m[p]? = some m[p] := List.getElem?_eq_getElem (by omega)
  rw [findStr4End, if_neg (by omega), rd_of_lt (by omega), ok_bind]
  by_cases hc : m[p] = 0
  · rw [if_pos hc]
    exact Or.inl ⟨p + 4, by omega, rfl, Or.inl ⟨by rw [← hc]; exact hp, rfl⟩⟩
  · rw [if_neg hc]
    obtain ⟨k, hk, hs, hi, hz⟩ := findStr4EndLoop_spec (ε := ε) m ((e - p) / 4 - 1) (p + 3) (by omega)
    have e1 : p + 3 + 4 * ((e - p) / 4 - 1) = e - 1 := by omega
    have hq : m[p + 3 + 4 * k]? = some m[p + 3 + 4 * k] := List.getElem?_eq_getElem (by omega)
    have hi' : ∀ i < k, ∃ c, m[p + 4 * i + 3]? = some c ∧ c ≠ 0 := fun i hik => by
      obtain ⟨c, h1, h2⟩ := hi i hik
      exact ⟨c, by rw [← h1]; congr 1; omega, h2⟩
    rw [e1] at hs
    rw [hs, ok_bind, rd_of_lt (by omega), ok_bind]
    by_cases hc2 : m[p + 3 + 4 * k] = 0
    · rw [if_pos hc2]
      refine Or.inl ⟨p + 3 + 4 * k + 1, by omega, rfl, Or.inr ⟨k, by omega, ⟨_, hp, hc⟩, ?_, hi'⟩⟩
      rw [← hc2, ← hq]; congr 1; omega
    · rw [if_neg hc2]
      refine Or.inr ⟨rfl, fun q hq' hs => ?_⟩
      have hkj : k = (e - p) / 4 - 1 := by
        rcases hz with h | h
        · exact h
        · rw [hq] at h; exact absurd (Option.some.inj h) hc2
      rcases hs with ⟨h0, -⟩ | ⟨k', rfl, -, hk', -⟩
      · rw [hp] at h0; exact hc (Option.some.inj h0)
      · rcases Nat.lt_or_ge k' k with hlt | hge
        · obtain ⟨c, h1, h2⟩ := hi' k' hlt
          rw [hk'] at h1; exact h2 (Option.some.inj h1).symm
        · have : k' = k := by omega
          subst this
          rw [show p + 4 * k' + 3 = p + 3 + 4 * k' by omega, hq] at hk'
          exact hc2 (Option.some.inj hk')

theorem findStr4EndUncheckedLoop_spec (m : Bytes) : ∀ (k p : Nat), m[p + 4 * k]? = some 0 →
    (∀ i < k, ∃ c, m[p + 4 * i]? = some c ∧ c ≠ 0) →
    (findStr4EndUncheckedLoop m p : Out ε Nat) = ok (p + 4 * k) := by
  intro k
  induction k with
  | zero =>
    intro p hz _
    simp only [Nat.mul_zero, Nat.add_zero] at hz
    obtain ⟨hl, h0⟩ := List.getElem?_eq_some_iff.mp hz
    rw [findStr4EndUncheckedLoop, dif_pos hl, if_pos h0]; rfl
  | succ k ih =>
    intro p hz hi
    obtain ⟨c, hc, hne⟩ := hi 0 (by omega)
    obtain ⟨hl, h0⟩ := List.getElem?_eq_some_iff.mp hc
    simp only [Nat.mul_zero, Nat.add_zero] at hl h0
    rw [findStr4EndUncheckedLoop, dif_pos hl, if_neg (by rw [h0]; exact hne),
      ih (p + 4) (by rw [← hz]; congr 1; omega) (fun i h => ?_)]
    · congr 1; omega
    · obtain ⟨c, h1, h2⟩ := hi (i + 1) (by omega)
      exact ⟨c, by rw [← h1]; congr 1; omega, h2⟩

/-- On a padded string the unbounded scan stops where the bounded one does. -/
theorem findStr4EndUnchecked_of_isStr4 {m : Bytes} {p q : Nat} (h : IsStr4 m p q) :
    (findStr4EndUnchecked m p : Out ε Nat) = ok q := by
  rcases h with ⟨h0, rfl⟩ | ⟨k, rfl, ⟨c, hc, hne⟩, hk, hi⟩
  · rw [findStr4EndUnchecked, rd_of_some h0, ok_bind, if_pos rfl]
  · rw [findStr4EndUnchecked, rd_of_some hc, ok_bind, if_neg hne,
      findStr4EndUncheckedLoop_spec m k (p + 3) (by rw [← hk]; congr 1; omega) (fun i h => ?_), ok_bind]
    · congr 1; omega
    · obtain ⟨c, h1, h2⟩ := hi i h
      exact ⟨c, by rw [← h1]; congr 1; omega, h2⟩

end OscTap.Osc
