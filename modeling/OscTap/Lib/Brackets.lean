/-
  OscTap.Lib.Brackets — bracket structure over any alphabet.

  `k a` says what a letter does: open, close or neither. `depth` counts the open brackets
  along a word and fails on a close without an open; `Nested` is the grammar of correctly
  nested words, `Items` what such a word has at its top level. Proved: a word is nested if and
  only if its count starts and ends at zero (`nested_iff_depth`).
-/
import Mathlib.Data.List.Basic
import Mathlib.Tactic.Common

namespace OscTap.Lib

inductive Bracket where
  | opens
  | closes
  | item
  deriving DecidableEq, Repr

namespace Bracket

def next : Bracket → Nat → Option Nat
  | opens, l => some (l + 1)
  | closes, 0 => none
  | closes, l + 1 => some l
  | item, l => some l

end Bracket

variable {α : Type} (k : α → Bracket)

def depth : List α → Nat → Option Nat
  | [], l => some l
  | a :: as, l => ((k a).next l).bind (depth as)

inductive Nested : List α → Prop
  | nil : Nested []
  | item {a : α} {as : List α} : k a = .item → Nested as → Nested (a :: as)
  | array {a b : α} {inner rest : List α} : k a = .opens → k b = .closes → Nested inner → Nested rest →
      Nested (a :: (inner ++ b :: rest))

theorem depth_append (as bs : List α) (l : Nat) : depth k (as ++ bs) l = (depth k as l).bind (depth k bs) := by
  induction as generalizing l with
  | nil => rfl
  | cons a as ih =>
    simp only [List.cons_append, depth]
    cases (k a).next l with
    | none => rfl
    | some l' => exact ih l'

variable {k}

theorem Nested.depth {as : List α} (h : Nested k as) : ∀ l, Lib.depth k as l = some l := by
  induction h with
  | nil => intro l; rfl
  | item ha _ ih => intro l; simp only [Lib.depth, ha, Bracket.next, Option.bind_some]; exact ih l
  | array ha hb _ _ ih1 ih2 =>
    intro l
    simp only [Lib.depth, ha, Bracket.next, Option.bind_some]
    rw [depth_append, ih1 (l + 1), Option.bind_some]
    simp only [Lib.depth, hb, Bracket.next, Option.bind_some]
    exact ih2 l

/-- A word that ends with every bracket closed is nested, up to the close of the bracket
    that was open in front of it. -/
theorem nested_of_depth : ∀ (n : Nat) (as : List α), as.length ≤ n →
    (Lib.depth k as 0 = some 0 → Nested k as) ∧
      ∀ l, Lib.depth k as (l + 1) = some 0 →
        ∃ inner b rest, as = inner ++ b :: rest ∧ k b = .closes ∧ Nested k inner ∧ Lib.depth k rest l = some 0 := by
  intro n
  induction n with
  | zero =>
    intro as hn
    obtain rfl : as = [] := List.eq_nil_of_length_eq_zero (by omega)
    exact ⟨fun _ => .nil, fun l h => by simp [Lib.depth] at h⟩
  | succ n ih =>
    intro as hn
    match as with
    | [] => exact ⟨fun _ => .nil, fun l h => by simp [Lib.depth] at h⟩
    | a :: as =>
      simp only [List.length_cons] at hn
      cases ha : k a with
      | item =>
        refine ⟨fun h => ?_, fun l h => ?_⟩
        · simp only [Lib.depth, ha, Bracket.next, Option.bind_some] at h
          exact .item ha ((ih as (by omega)).1 h)
        · simp only [Lib.depth, ha, Bracket.next, Option.bind_some] at h
          obtain ⟨inner, b, rest, rfl, hb, hi, hr⟩ := (ih as (by omega)).2 l h
          exact ⟨a :: inner, b, rest, rfl, hb, .item ha hi, hr⟩
      | opens =>
        have split : ∀ l, Lib.depth k (a :: as) l = some 0 →
            ∃ inner b rest, as = inner ++ b :: rest ∧ k b = .closes ∧ Nested k inner ∧ Lib.depth k rest l = some 0 := by
          intro l h
          simp only [Lib.depth, ha, Bracket.next, Option.bind_some] at h
          exact (ih as (by omega)).2 l h
        refine ⟨fun h => ?_, fun l h => ?_⟩
        · obtain ⟨inner, b, rest, rfl, hb, hi, hr⟩ := split 0 h
          simp only [List.length_append, List.length_cons] at hn
          exact .array ha hb hi ((ih rest (by omega)).1 hr)
        · obtain ⟨inner, b, rest, rfl, hb, hi, hr⟩ := split (l + 1) h
          simp only [List.length_append, List.length_cons] at hn
          obtain ⟨inner', b', rest', rfl, hb', hi', hr'⟩ := (ih rest (by omega)).2 l hr
          exact ⟨a :: (inner ++ b :: inner'), b', rest', by simp, hb', .array ha hb hi hi', hr'⟩
      | closes =>
        refine ⟨fun h => ?_, fun l h => ?_⟩
        · simp [Lib.depth, ha, Bracket.next] at h
        · simp only [Lib.depth, ha, Bracket.next, Option.bind_some] at h
          exact ⟨[], a, as, rfl, ha, .nil, h⟩

theorem depth_map {β : Type} (k : β → Bracket) (f : α → β) (as : List α) (l : Nat) :
    Lib.depth k (as.map f) l = Lib.depth (k ∘ f) as l := by
  induction as generalizing l with
  | nil => rfl
  | cons a as ih =>
    simp only [List.map_cons, Lib.depth, Function.comp_apply]
    cases (k (f a)).next l with
    | none => rfl
    | some l' => exact ih l'

theorem nested_iff_depth {as : List α} : Nested k as ↔ Lib.depth k as 0 = some 0 :=
  ⟨fun h => h.depth 0, (nested_of_depth as.length as (Nat.le_refl _)).1⟩

instance (as : List α) : Decidable (Nested k as) := decidable_of_iff _ nested_iff_depth.symm

theorem nested_map {β : Type} {k : β → Bracket} {f : α → β} {as : List α} : Nested k (as.map f) ↔
    Nested (k ∘ f) as := by
  rw [nested_iff_depth, nested_iff_depth, depth_map]

/-! ## The top level of a word -/

/-- A bracket that is opened inside a nested word is closed inside it. -/
theorem Nested.closed {as bs : List α} {a : α} (h : Nested k (as ++ a :: bs)) (ha : k a = .opens) :
    ∃ inner b rest, bs = inner ++ b :: rest ∧ k b = .closes ∧ Nested k inner := by
  have hd := nested_iff_depth.mp h
  rw [depth_append] at hd
  obtain ⟨l, -, hl⟩ := Option.bind_eq_some_iff.mp hd
  simp only [Lib.depth, ha, Bracket.next, Option.bind_some] at hl
  obtain ⟨inner, b, rest, e, hb, hi, -⟩ := (nested_of_depth bs.length bs (Nat.le_refl _)).2 l hl
  exact ⟨inner, b, rest, e, hb, hi⟩

variable (k) in
/-- At its top level a word has `n` letters and `d` bracketed words. -/
inductive Items : List α → Nat → Nat → Prop
  | nil : Items [] 0 0
  | item {a : α} {as : List α} {n d : Nat} : k a = .item → Items as n d → Items (a :: as) (n + 1) d
  | array {a b : α} {inner rest : List α} {n d : Nat} : k a = .opens → k b = .closes → Nested k inner → Items rest n d →
      Items (a :: (inner ++ b :: rest)) n (d + 1)

theorem Nested.items {as : List α} (h : Nested k as) : ∃ n d, Items k as n d := by
  induction h with
  | nil => exact ⟨0, 0, .nil⟩
  | item ha _ ih =>
    obtain ⟨n, d, hi⟩ := ih
    exact ⟨n + 1, d, .item ha hi⟩
  | array ha hb hi _ _ ih =>
    obtain ⟨n, d, hr⟩ := ih
    exact ⟨n, d + 1, .array ha hb hi hr⟩

/-- No bracketed word at the top level: no bracket is opened at all. -/
theorem Items.flat {as : List α} {n d : Nat} (h : Items k as n d) : d = 0 ↔ ∀ a ∈ as, k a ≠ .opens := by
  induction h with
  | nil => simp
  | item ha _ ih => simp [ha, ih]
  | array ha hb hi hr ih =>
    constructor
    · intro h0; cases h0
    · intro hall; exact absurd ha (hall _ (List.mem_cons_self ..))

end OscTap.Lib
