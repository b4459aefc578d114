/-
  OscTap.Lib.CString — NUL-terminated strings inside a buffer.

  `CStrAt m p s`: the bytes at `p` spell `s`, which holds no NUL, and a NUL follows.
  `rdCString` reads such a string byte by byte, as `strlen` and every reader of a C string do.
-/
import OscTap.Lib.Checked

namespace OscTap.Lib

open Out

variable {ε : Type}

inductive CStrAt (m : Bytes) : Nat → Bytes → Prop
  | nil {p : Nat} : m[p]? = some 0 → CStrAt m p []
  | cons {p : Nat} {c : UInt8} {s : Bytes} : m[p]? = some c → c ≠ 0 → CStrAt m (p + 1) s → CStrAt m p (c :: s)

def rdCString (m : Bytes) (p : Nat) : Out ε Bytes :=
  if h : p < m.length then
    if m[p] = 0 then ok []
    else do
      let s ← rdCString m (p + 1)
      ok (m[p] :: s)
  else fault (.read p)
termination_by m.length - p

def upToNul (s : Bytes) : Bytes := s.takeWhile (· != 0)

theorem upToNul_append {s : Bytes} (h : 0 ∈ s) (w : Bytes) : upToNul (s ++ w) = upToNul s := by
  induction s with
  | nil => cases h
  | cons c s ih =>
    by_cases hc : c = 0
    · simp [upToNul, hc]
    · have hs : 0 ∈ s := (List.mem_cons.mp h).resolve_left (Ne.symm hc)
      have := ih hs
      simp only [upToNul] at this
      simp [upToNul, hc, this]

/-- The NUL behind a string does not count. -/
theorem upToNul_snoc (s : Bytes) : upToNul (s ++ [0]) = upToNul s := by
  induction s with
  | nil => rfl
  | cons c s ih =>
    simp only [upToNul] at ih
    by_cases hc : c = 0 <;> simp [upToNul, hc, ih]

namespace CStrAt

variable {m : Bytes} {p : Nat} {s : Bytes}

theorem nul (h : CStrAt m p s) : m[p + s.length]? = some 0 := by
  induction h with
  | nil h => simpa using h
  | cons _ _ _ ih => rw [← ih, List.length_cons]; congr 1; omega

theorem noNul (h : CStrAt m p s) : 0 ∉ s := by
  induction h with
  | nil _ => simp
  | cons _ hne _ ih => simp only [List.mem_cons, not_or]; exact ⟨hne.symm, ih⟩

theorem get (h : CStrAt m p s) : ∀ i < s.length, m[p + i]? = s[i]? := by
  induction h with
  | nil _ => intro i hi; simp at hi
  | cons hc _ _ ih =>
    intro i hi
    match i with
    | 0 => simpa using hc
    | i + 1 =>
      simp only [List.getElem?_cons_succ]
      rw [← ih i (by simpa using hi)]; congr 1; omega

theorem lt (h : CStrAt m p s) : p + s.length < m.length := (List.getElem?_eq_some_iff.mp h.nul).1

theorem unique {s' : Bytes} (h : CStrAt m p s) : CStrAt m p s' → s = s' := by
  induction h generalizing s' with
  | nil h0 =>
    intro h'
    cases h' with
    | nil _ => rfl
    | cons hc hne _ => rw [h0] at hc; exact absurd (Option.some.inj hc).symm hne
  | cons hc hne _ ih =>
    intro h'
    cases h' with
    | nil h0 => rw [h0] at hc; exact absurd (Option.some.inj hc).symm hne
    | cons hc' _ h' =>
      rw [hc] at hc'
      rw [Option.some.inj hc', ih h']

/-- A NUL at or behind `p` ends a string at `p`. -/
theorem exists_of_nul {j : Nat} (hj : p ≤ j) (h : m[j]? = some 0) : ∃ s, CStrAt m p s ∧ p + s.length ≤ j := by
  obtain ⟨n, rfl⟩ : ∃ n, j = p + n := ⟨j - p, by omega⟩
  induction n generalizing p with
  | zero => exact ⟨[], .nil h, by simp⟩
  | succ n ih =>
    have hl := (List.getElem?_eq_some_iff.mp h).1
    have hp : m[p]? = some m[p] := List.getElem?_eq_getElem (by omega)
    by_cases hc : m[p] = 0
    · exact ⟨[], .nil (by rw [hp, hc]), by simp⟩
    · obtain ⟨s, hs, hle⟩ := ih (p := p + 1) (by omega) (by rw [← h]; congr 1; omega)
      exact ⟨_, .cons hp hc hs, by simp only [List.length_cons]; omega⟩

/-- A block with a NUL in it spells the string in front of the NUL. -/
theorem of_mem {w : Bytes} (h0 : 0 ∈ w) (hw : ∀ i < w.length, m[p + i]? = w[i]?) : CStrAt m p (upToNul w) := by
  induction w generalizing p with
  | nil => cases h0
  | cons c w ih =>
    have hc : m[p]? = some c := by simpa using hw 0 (by simp)
    by_cases hz : c = 0
    · subst hz
      exact .nil hc
    · rw [upToNul, List.takeWhile_cons_of_pos (by simpa using hz)]
      refine .cons hc hz (ih ((List.mem_cons.mp h0).resolve_left (Ne.symm hz)) fun i hi => ?_)
      have := hw (i + 1) (by simpa using hi)
      rw [List.getElem?_cons_succ] at this
      rw [← this]
      congr 1
      omega

theorem rdCString_eq (h : CStrAt m p s) : (rdCString m p : Out ε Bytes) = ok s := by
  induction h with
  | nil h0 =>
    obtain ⟨hl, h0⟩ := List.getElem?_eq_some_iff.mp h0
    rw [rdCString, dif_pos hl, if_pos h0]
  | cons hc hne _ ih =>
    obtain ⟨hl, hc⟩ := List.getElem?_eq_some_iff.mp hc
    rw [rdCString, dif_pos hl, if_neg (by rw [hc]; exact hne), ih, hc]; rfl

end CStrAt

theorem cStrAt_of_read {m : Bytes} {p : Nat} {s : Bytes} (h : (rdCString m p : Out ε Bytes) = ok s) : CStrAt m p s := by
  induction s generalizing p with
  | nil =>
    rw [rdCString] at h
    split at h
    · split at h
      · exact .nil (List.getElem?_eq_some_iff.mpr ⟨_, ‹_›⟩)
      · obtain ⟨s, -, hs⟩ := bind_eq_ok.mp h
        cases hs
    · cases h
  | cons c s ih =>
    rw [rdCString] at h
    split at h
    · split at h
      · cases h
      · obtain ⟨s', hs, he⟩ := bind_eq_ok.mp h
        obtain ⟨rfl, rfl⟩ := List.cons.inj (Out.ok.inj he)
        exact .cons (List.getElem?_eq_getElem _) ‹_› (ih hs)
    · cases h

end OscTap.Lib
