/-
  OscTap.Lib.Sweep — a queue changed in place from its front, while a condition holds.

  `sweep due move` is the loop over positions: it visits the element at `i`, puts the moved
  one in its place, goes on, and stops at the first element that is not due. `sweep_append`
  is its invariant in the middle of the walk: what is not yet visited is as it was, so the
  elements visited are those of the queue it began with. On a queue whose due elements all
  stand in front (`DueFirst`) it visits every due element, once.
-/
import Mathlib.Data.List.Basic
import Mathlib.Data.List.TakeWhile

namespace OscTap.Lib

variable {α : Type}

/-- The queue in the middle of a sweep, and the elements visited, each as it was found. -/
structure Swept (α : Type) where
  queue : List α
  visited : List α
  deriving DecidableEq, Repr

def sweep (due : α → Bool) (move : α → α) (i : Nat) (s : Swept α) : Swept α :=
  if h : i < s.queue.length then
    if due s.queue[i] then sweep due move (i + 1) ⟨s.queue.set i (move s.queue[i]), s.visited ++ [s.queue[i]]⟩ else s
  else s
termination_by s.queue.length - i

/-- No element that is due stands behind one that is not. -/
def DueFirst (due : α → Bool) (q : List α) : Prop := q.Pairwise fun a b => due b = true → due a = true

variable {due : α → Bool} {move : α → α}

variable (due move) in
/-- Behind the positions `done` the sweep finds the queue as it was at its beginning. -/
theorem sweep_append (done seen : List α) : ∀ rest : List α,
    sweep due move done.length ⟨done ++ rest, seen⟩ =
      ⟨done ++ (rest.takeWhile due).map move ++ rest.dropWhile due, seen ++ rest.takeWhile due⟩ := by
  intro rest
  induction rest generalizing done seen with
  | nil => rw [sweep]; simp
  | cons a rest ih =>
    rw [sweep]
    by_cases ha : due a = true
    · have hnext := ih (done ++ [move a]) (seen ++ [a])
      rw [List.length_append, List.length_singleton] at hnext
      simpa [ha] using hnext
    · simp [ha]

theorem sweep_visited (q : List α) : (sweep due move 0 ⟨q, []⟩).visited = q.takeWhile due := by
  simpa using congrArg Swept.visited (sweep_append due move [] [] q)

theorem sweep_queue (q : List α) : (sweep due move 0 ⟨q, []⟩).queue = (q.takeWhile due).map move ++
    q.dropWhile due := by
  simpa using congrArg Swept.queue (sweep_append due move [] [] q)

/-- A walk that has come to an element that is not due, or to the end, is over. -/
theorem sweep_walked {walked rest : List α} (hwalked : ∀ a ∈ walked, due a = true)
    (hrest : ∀ a, rest.head? = some a → due a = false) :
    sweep due move 0 ⟨walked ++ rest, []⟩ = ⟨walked.map move ++ rest, walked⟩ := by
  have hnone : rest.takeWhile due = [] := by
    cases rest with
    | nil => rfl
    | cons a rest => simp [hrest a rfl]
  have hall : rest.dropWhile due = rest := by simpa [hnone] using List.takeWhile_append_dropWhile (p := due) (l := rest)
  have hsweep := sweep_append due move [] [] (walked ++ rest)
  rw [List.takeWhile_append_of_pos hwalked, List.dropWhile_append_of_pos hwalked, hnone, hall] at hsweep
  simpa using hsweep

/-- What a walk has visited so far. -/
theorem prefix_visited {walked : List α} (hwalked : ∀ a ∈ walked, due a = true) (rest : List α) :
    walked <+: (sweep due move 0 ⟨walked ++ rest, []⟩).visited := by
  rw [sweep_visited, List.takeWhile_append_of_pos hwalked]
  exact List.prefix_append _ _

/-! ## DueFirst queues -/

theorem DueFirst.takeWhile_eq {q : List α} (h : DueFirst due q) : q.takeWhile due = q.filter due := by
  induction q with
  | nil => rfl
  | cons a q ih =>
    obtain ⟨ha, hq⟩ := List.pairwise_cons.mp h
    by_cases hd : due a = true
    · simp [hd, ih hq]
    · have hnone : ∀ b ∈ q, ¬ due b = true := fun b hb hdb => hd (ha b hb hdb)
      simpa [hd] using hnone

theorem DueFirst.map_eq {q : List α} (h : DueFirst due q) :
    (q.takeWhile due).map move ++ q.dropWhile due = q.map fun a => if due a then move a else a := by
  induction q with
  | nil => rfl
  | cons a q ih =>
    obtain ⟨ha, hq⟩ := List.pairwise_cons.mp h
    by_cases hd : due a = true
    · simp [hd, ih hq]
    · have hnone : ∀ b ∈ q, ¬ due b = true := fun b hb hdb => hd (ha b hb hdb)
      have hsame : q.map (fun b => if due b = true then move b else b) = q := by
        conv_rhs => rw [← List.map_id q]
        exact List.map_congr_left fun b hb => if_neg (hnone b hb)
      simp [hd, hsame]

end OscTap.Lib
