/-
  OscTap.Lib.Decimal — decimal numerals, and numbers between dots.

  `readDigits` is what a reader makes of the digits in front of a text. It undoes `Ostream.digits`. A
  numeral does not begin with a zero, but that of zero itself.

  `dotted` writes four numbers with dots between them, and `readDotted` reads such a text when each
  number is at most 255 and its numeral has no zero in front.
-/
import OscTap.Lib.Ostream

namespace OscTap.Lib

open Ostream

def isDigit (c : UInt8) : Bool := 48 ≤ c.toNat && c.toNat ≤ 57

/-- The number that the digits in front spell, behind those that spelled `n`. -/
def readDigits (n : Nat) : Bytes → Nat
  | [] => n
  | c :: cs => if isDigit c then readDigits (n * 10 + (c.toNat - 48)) cs else n

def Apart (rest : Bytes) : Prop := ∀ c, rest.head? = some c → isDigit c = false

theorem apart_nil : Apart [] := fun _ h => by cases h

theorem apart_cons {c : UInt8} (h : isDigit c = false) (rest : Bytes) : Apart (c :: rest) := fun d hd => by
  obtain rfl := Option.some.inj hd
  exact h

theorem digits_of_lt {n : Nat} (h : n < 10) : digits 10 n = [UInt8.ofNat (48 + n)] := by
  rw [digits, Nat.toDigits_of_lt_base h]
  revert n
  decide

theorem digits_of_le {n : Nat} (h : 10 ≤ n) : digits 10 n = digits 10 (n / 10) ++ digits 10 (n % 10) := by
  rw [digits_of_lt (Nat.mod_lt _ (by decide)), digits, digits, Nat.toDigits_of_base_le (by decide) h, List.map_append]
  congr 1
  have h10 : n % 10 < 10 := Nat.mod_lt _ (by decide)
  generalize n % 10 = d at h10
  revert d
  decide

theorem isDigit_ofNat {d : Nat} (h : d < 10) : isDigit (UInt8.ofNat (48 + d)) = true ∧
    (UInt8.ofNat (48 + d)).toNat = 48 + d := by
  revert d
  decide

/-- Induction over a numeral, from its last digit. -/
theorem digits_induction {P : Nat → Prop} (one : ∀ n < 10, P n) (more : ∀ n, 10 ≤ n → P (n / 10) → P n)
    (n : Nat) : P n := by
  induction n using Nat.strong_induction_on with
  | _ n ih =>
    by_cases h : n < 10
    · exact one n h
    · exact more n (by omega) (ih (n / 10) (by omega))

theorem readDigits_digits (n : Nat) (rest : Bytes) : readDigits 0 (digits 10 n ++ rest) = readDigits n rest := by
  induction n using digits_induction generalizing rest with
  | one n h =>
    obtain ⟨h1, h2⟩ := isDigit_ofNat h
    simp only [digits_of_lt h, List.cons_append, List.nil_append, readDigits, h1, h2, if_true]
    congr 1
    omega
  | more n h ih =>
    have hmod : n % 10 < 10 := Nat.mod_lt _ (by decide)
    obtain ⟨h1, h2⟩ := isDigit_ofNat hmod
    rw [digits_of_le h, List.append_assoc, ih, digits_of_lt hmod]
    simp only [List.cons_append, List.nil_append, readDigits, h1, h2, if_true]
    congr 1
    omega

theorem readDigits_numeral (n : Nat) : readDigits 0 (digits 10 n) = n := by
  simpa [readDigits] using readDigits_digits n []

theorem digits_isDigit (n : Nat) : ∀ c ∈ digits 10 n, isDigit c = true := by
  induction n using digits_induction with
  | one n h => simpa [digits_of_lt h] using (isDigit_ofNat h).1
  | more n h ih =>
    have hmod : n % 10 < 10 := Nat.mod_lt _ (by decide)
    rw [digits_of_le h, digits_of_lt hmod]
    intro c hc
    rcases List.mem_append.mp hc with hc | hc
    · exact ih c hc
    · rw [List.mem_singleton.mp hc]
      exact (isDigit_ofNat hmod).1

theorem digits_ne_nil (n : Nat) : digits 10 n ≠ [] := by simp [digits, Nat.toDigits_ne_nil]

/-- The digits in front of a text, and what stands behind them. -/
theorem span_digits {rest : Bytes} (h : Apart rest) (n : Nat) :
    (digits 10 n ++ rest).takeWhile isDigit = digits 10 n ∧ (digits 10 n ++ rest).dropWhile isDigit = rest := by
  rw [List.takeWhile_append_of_pos (digits_isDigit n), List.dropWhile_append_of_pos (digits_isDigit n)]
  cases rest with
  | nil => simp
  | cons c rest => simp [h c rfl]

theorem digits_head {n : Nat} (h : 0 < n) : (digits 10 n).head? ≠ some 48 := by
  induction n using digits_induction with
  | one n hn =>
    rw [digits_of_lt hn]
    revert n
    decide
  | more n hn ih =>
    obtain ⟨c, cs, hc⟩ := List.exists_cons_of_ne_nil (digits_ne_nil (n / 10))
    have hne := ih (by omega)
    rw [digits_of_le hn, hc]
    simpa [hc] using hne

theorem length_digits_le {n k : Nat} (hk : 0 < k) (h : n < 10 ^ k) : (digits 10 n).length ≤ k := by
  simpa [digits] using (Nat.length_toDigits_le_iff (by decide) hk).mpr h

/-! ## Signed numbers -/

def isSpace (c : UInt8) : Bool := c.toNat = 32 || (9 ≤ c.toNat && c.toNat ≤ 13)

/-- What `atoi` makes of a text: blanks, a sign and digits, and 0 where there are no digits. -/
def readInt (s : Bytes) : Int :=
  match s.dropWhile isSpace with
  | [] => 0
  | c :: cs => if c = 45 then -readDigits 0 cs else if c = 43 then readDigits 0 cs else readDigits 0 (c :: cs)

theorem isDigit_plain {c : UInt8} (h : isDigit c = true) : isSpace c = false ∧ c ≠ 45 ∧ c ≠ 43 := by
  refine ⟨?_, ?_, ?_⟩
  · simp only [isDigit, Bool.and_eq_true, decide_eq_true_eq] at h
    simp only [isSpace, Bool.or_eq_false_iff, decide_eq_false_iff_not, Bool.and_eq_false_iff]
    omega
  · rintro rfl
    exact absurd h (by decide)
  · rintro rfl
    exact absurd h (by decide)

theorem readInt_decimal (n : Int) : readInt (decimal n) = n := by
  have hread := readDigits_numeral n.natAbs
  unfold decimal
  split
  · simp only [readInt, List.dropWhile_cons,
      show isSpace 45 = false by decide, Bool.false_eq_true, if_false, if_true, hread]
    omega
  · obtain ⟨c, cs, hc⟩ := List.exists_cons_of_ne_nil (digits_ne_nil n.natAbs)
    have hdigit : isDigit c = true := digits_isDigit n.natAbs c (by simp [hc])
    obtain ⟨hspace, hminus, hplus⟩ := isDigit_plain hdigit
    rw [hc] at hread ⊢
    simp only [readInt, List.dropWhile_cons, hspace, hminus, hplus, Bool.false_eq_true, if_false, hread]
    omega

theorem length_decimal_le {n : Int} {k : Nat} (hk : 0 < k) (h : -10 ^ k < n) (h' : n < 10 ^ (k + 1)) :
    (decimal n).length ≤ k + 1 := by
  have hk1 : ((10 ^ k : Nat) : Int) = 10 ^ k := by norm_cast
  have hk2 : ((10 ^ (k + 1) : Nat) : Int) = 10 ^ (k + 1) := by norm_cast
  unfold decimal
  split
  · rw [List.length_cons]
    exact Nat.succ_le_succ (length_digits_le hk (by omega))
  · exact length_digits_le (Nat.succ_pos k) (by omega)

theorem mem_decimal {n : Int} {c : UInt8} (h : c ∈ decimal n) : c = 45 ∨ isDigit c = true := by
  unfold decimal at h
  split at h
  · rcases List.mem_cons.mp h with h | h
    · exact .inl h
    · exact .inr (digits_isDigit _ c h)
  · exact .inr (digits_isDigit _ c h)

/-! ## Four numbers between dots -/

def dot : UInt8 := 46

def dotted (a b c d : Nat) : Bytes := digits 10 a ++ dot :: (digits 10 b ++ dot :: (digits 10 c ++ dot :: digits 10 d))

def readPart (s : Bytes) : Option (Nat × Bytes) :=
  let numeral := s.takeWhile isDigit
  if numeral ≠ [] ∧ (numeral.head? = some 48 → numeral = [48]) ∧ readDigits 0 numeral ≤ 255 then
    some (readDigits 0 numeral, s.dropWhile isDigit)
  else none

def readDot : Bytes → Option Bytes
  | c :: s => if c = dot then some s else none
  | [] => none

def readDotted (s : Bytes) : Option (Nat × Nat × Nat × Nat) := do
  let (a, s) ← readPart s
  let s ← readDot s
  let (b, s) ← readPart s
  let s ← readDot s
  let (c, s) ← readPart s
  let s ← readDot s
  let (d, s) ← readPart s
  if s = [] then some (a, b, c, d) else none

theorem readPart_digits {n : Nat} (hn : n ≤ 255) {rest : Bytes} (h : Apart rest) :
    readPart (digits 10 n ++ rest) = some (n, rest) := by
  obtain ⟨h1, h2⟩ := span_digits h n
  have hread := readDigits_numeral n
  have hzero : (digits 10 n).head? = some 48 → digits 10 n = [48] := by
    intro hhead
    rcases Nat.eq_zero_or_pos n with rfl | hpos
    · decide
    · exact absurd hhead (digits_head hpos)
  rw [readPart, h1, h2, hread, if_pos ⟨digits_ne_nil n, hzero, hn⟩]

theorem readDotted_dotted {a b c d : Nat} (ha : a ≤ 255) (hb : b ≤ 255) (hc : c ≤ 255) (hd : d ≤ 255) :
    readDotted (dotted a b c d) = some (a, b, c, d) := by
  have hdot : ∀ rest, Apart (dot :: rest) := apart_cons (by decide)
  have hlast : readPart (digits 10 d) = some (d, []) := by simpa using readPart_digits hd apart_nil
  simp [readDotted, dotted, readPart_digits ha (hdot _), readPart_digits hb (hdot _),
    readPart_digits hc (hdot _), hlast, readDot]

theorem length_dotted_le {a b c d : Nat} (ha : a ≤ 255) (hb : b ≤ 255) (hc : c ≤ 255) (hd : d ≤ 255) :
    (dotted a b c d).length ≤ 15 := by
  have hle : ∀ n ≤ 255, (digits 10 n).length ≤ 3 := fun n hn => length_digits_le (by decide) (by omega)
  have h1 := hle a ha
  have h2 := hle b hb
  have h3 := hle c hc
  have h4 := hle d hd
  simp only [dotted, List.length_append, List.length_cons]
  omega

end OscTap.Lib
