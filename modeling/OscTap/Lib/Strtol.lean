/-
  OscTap.Lib.Strtol — `strtol` in base 10, for a `long` of any width.

  A numeral is blanks, perhaps a sign, and digits, with nothing behind them. `strtol` reads a text to
  its end exactly if it is one, and the number is the numeral's, or the end of the `long` that is
  nearer to it.
-/
import OscTap.Lib.Decimal
import Mathlib.Data.List.TakeWhile

namespace OscTap.Lib

open Ostream

/-- A `long` at one of its ends instead of outside. -/
def saturate (longBits : Nat) (n : Int) : Int := max (-2 ^ (longBits - 1)) (min n (2 ^ (longBits - 1) - 1))

/-- A sign in front: whether it is a minus, and what stands behind it. -/
def sign : Bytes → Bool × Bytes
  | [] => (false, [])
  | c :: cs => if c = 45 then (true, cs) else if c = 43 then (false, cs) else (false, c :: cs)

/-- `strtol(s, &end, 10)`: the value, and the offset of `end`. -/
def strtol (longBits : Nat) (s : Bytes) : Int × Nat :=
  let (negative, u) := sign (s.dropWhile isSpace)
  let numeral := u.takeWhile isDigit
  if numeral = [] then (0, 0)
  else (saturate longBits (if negative then -readDigits 0 numeral else readDigits 0 numeral),
    s.length - (u.dropWhile isDigit).length)

/-- Blanks, perhaps a sign, and digits to the end. -/
inductive Numeral : Bytes → Int → Prop
  | plain {blanks ds : Bytes} : (∀ x ∈ blanks, isSpace x = true) → ds ≠ [] → (∀ x ∈ ds, isDigit x = true) →
      Numeral (blanks ++ ds) (readDigits 0 ds)
  | plus {blanks ds : Bytes} : (∀ x ∈ blanks, isSpace x = true) → ds ≠ [] → (∀ x ∈ ds, isDigit x = true) →
      Numeral (blanks ++ 43 :: ds) (readDigits 0 ds)
  | minus {blanks ds : Bytes} : (∀ x ∈ blanks, isSpace x = true) → ds ≠ [] → (∀ x ∈ ds, isDigit x = true) →
      Numeral (blanks ++ 45 :: ds) (-readDigits 0 ds)

variable {longBits : Nat} {s : Bytes}

theorem span_all {p : UInt8 → Bool} {ds : Bytes} (h : ∀ x ∈ ds, p x = true) : ds.takeWhile p = ds ∧
    ds.dropWhile p = [] :=
  ⟨List.takeWhile_eq_self_iff.mpr h, List.dropWhile_eq_nil_iff.mpr h⟩

/-- Behind the blanks stands the rest, if that is not blank. -/
theorem dropWhile_blanks {blanks rest : Bytes} (hb : ∀ x ∈ blanks, isSpace x = true)
    (hr : ∀ x, rest.head? = some x → isSpace x = false) :
    (blanks ++ rest).dropWhile isSpace = rest := by
  rw [List.dropWhile_append_of_pos hb]
  cases rest with
  | nil => rfl
  | cons x rest => simp [hr x rfl]

theorem sign_digits {ds : Bytes} (hne : ds ≠ []) (h : ∀ x ∈ ds, isDigit x = true) : sign ds = (false, ds) := by
  obtain ⟨x, xs, rfl⟩ := List.exists_cons_of_ne_nil hne
  obtain ⟨-, hminus, hplus⟩ := isDigit_plain (h x (List.mem_cons_self ..))
  rw [sign, if_neg hminus, if_neg hplus]

/-- What `strtol` reads to the end, with the sign that it found. -/
theorem strtol_whole {t ds : Bytes} {negative : Bool} (hdrop : s.dropWhile isSpace = t)
    (hsign : sign t = (negative, ds)) (hne : ds ≠ []) (h : ∀ x ∈ ds, isDigit x = true) :
    strtol longBits s = (saturate longBits (if negative then -readDigits 0 ds else readDigits 0 ds), s.length) := by
  obtain ⟨htake, hrest⟩ := span_all h
  simp only [strtol, hdrop, hsign, htake, hrest, if_neg hne, List.length_nil, Nat.sub_zero]

theorem Numeral.strtol {n : Int} (h : Numeral s n) : strtol longBits s = (saturate longBits n, s.length) ∧ s ≠ [] := by
  cases h with
  | @plain blanks ds hb hne hd =>
    refine ⟨?_, by simp [hne]⟩
    refine strtol_whole (dropWhile_blanks hb fun x hx => ?_) (sign_digits hne hd) hne hd
    exact (isDigit_plain (hd x (List.mem_of_mem_head? hx))).1
  | @plus blanks ds hb hne hd =>
    refine ⟨strtol_whole (dropWhile_blanks hb fun x hx => ?_)
      (show sign (43 :: ds) = (false, ds) by simp [sign]) hne hd, by simp⟩
    obtain rfl := Option.some.inj hx
    decide
  | @minus blanks ds hb hne hd =>
    refine ⟨strtol_whole (dropWhile_blanks hb fun x hx => ?_)
      (show sign (45 :: ds) = (true, ds) by simp [sign]) hne hd, by simp⟩
    obtain rfl := Option.some.inj hx
    decide

theorem sign_cases (t : Bytes) : (∃ ds, t = 45 :: ds ∧ sign t = (true, ds)) ∨
    (∃ ds, t = 43 :: ds ∧ sign t = (false, ds)) ∨
    sign t = (false, t) := by
  cases t with
  | nil => exact .inr (.inr rfl)
  | cons x xs =>
    by_cases hminus : x = 45
    · exact .inl ⟨xs, by rw [hminus], by rw [sign, if_pos hminus]⟩
    · by_cases hplus : x = 43
      · exact .inr (.inl ⟨xs, by rw [hplus], by rw [sign, if_neg hminus, if_pos hplus]⟩)
      · exact .inr (.inr (by rw [sign, if_neg hminus, if_neg hplus]))

/-- What `strtol` reads to the end is a numeral. -/
theorem numeral_of_strtol (hend : (strtol longBits s).2 ≠ 0) (hall : (strtol longBits s).2 = s.length) :
    ∃ n, Numeral s n := by
  have hb : ∀ x ∈ s.takeWhile isSpace, isSpace x = true := fun x hx => List.mem_takeWhile_imp hx
  have hs : s = s.takeWhile isSpace ++ s.dropWhile isSpace := List.takeWhile_append_dropWhile.symm
  have hle : (s.dropWhile isSpace).length ≤ s.length := (List.dropWhile_sublist _).length_le
  -- the digits go on to the end, or the end of the digits would stand before it
  have hds : ∀ negative u, sign (s.dropWhile isSpace) = (negative, u) → u.length ≤ s.length → u ≠ [] ∧
    ∀ x ∈ u, isDigit x = true := by
    intro negative u hu hul
    simp only [strtol, hu] at hend hall
    split at hend
    · exact absurd rfl hend
    · rename_i hne
      rw [if_neg hne] at hall
      have hrest : u.dropWhile isDigit = [] := by
        have hsub := (List.dropWhile_sublist (p := isDigit) (l := u)).length_le
        exact List.eq_nil_of_length_eq_zero (by simp only at hall hend; omega)
      refine ⟨?_, List.dropWhile_eq_nil_iff.mp hrest⟩
      rintro rfl
      exact hne rfl
  rw [hs]
  rcases sign_cases (s.dropWhile isSpace) with ⟨ds, ht, hsign⟩ | ⟨ds, ht, hsign⟩ | hsign
  · rw [ht, List.length_cons] at hle
    obtain ⟨hne, hd⟩ := hds _ _ hsign (by omega)
    rw [ht]
    exact ⟨_, .minus hb hne hd⟩
  · rw [ht, List.length_cons] at hle
    obtain ⟨hne, hd⟩ := hds _ _ hsign (by omega)
    rw [ht]
    exact ⟨_, .plus hb hne hd⟩
  · obtain ⟨hne, hd⟩ := hds _ _ hsign hle
    exact ⟨_, .plain hb hne hd⟩

theorem numeral_decimal (n : Int) : Numeral (decimal n) n := by
  have hread := readDigits_numeral n.natAbs
  have hne := digits_ne_nil n.natAbs
  have hd := digits_isDigit n.natAbs
  unfold decimal
  split
  · have h := @Numeral.minus [] _ (by simp) hne hd
    rwa [hread, show -((n.natAbs : Nat) : Int) = n by omega] at h
  · have h := @Numeral.plain [] _ (by simp) hne hd
    rwa [hread, show ((n.natAbs : Nat) : Int) = n by omega] at h

theorem saturate_int32 (hbits : 32 ≤ longBits) (v : Int32) : saturate longBits v.toInt = v.toInt := by
  have hpow : (2 : Int) ^ 31 ≤ 2 ^ (longBits - 1) := pow_le_pow_right₀ (by decide) (by omega)
  have h1 := v.le_toInt
  have h2 := v.toInt_lt
  rw [saturate]
  omega

end OscTap.Lib
