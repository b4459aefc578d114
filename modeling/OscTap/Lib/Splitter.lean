/-
  OscTap.Lib.Splitter — cutting a stream into items, independently of how it arrives.

  A splitter looks at the bytes it has and either needs more, or cuts one item off their
  front, or refuses them. Its two laws say that more bytes behind do not change a decision
  already made. `split` cuts until it cannot; `split_append` says that a stream may be split
  piece by piece, each piece behind what the one before left over.
-/
import OscTap.Lib.Bytes

namespace OscTap.Lib

inductive Cut (α β : Type) where
  | more
  | item (a : α) (rest : List β)
  | bad

/-- What is behind the last item: the bytes of an item to come, or bytes refused. -/
inductive Rest (β : Type) where
  | pending (rest : List β)
  | bad
  deriving DecidableEq, Repr

structure Splitter (α β : Type) where
  cut : List β → Cut α β
  shrinks : ∀ {xs a rest}, cut xs = .item a rest → rest.length < xs.length
  item_append : ∀ {xs a rest} ys, cut xs = .item a rest → cut (xs ++ ys) = .item a (rest ++ ys)
  bad_append : ∀ {xs} ys, cut xs = .bad → cut (xs ++ ys) = .bad

namespace Splitter

variable {α β : Type} (c : Splitter α β)

def split (xs : List β) : List α × Rest β :=
  match _h : c.cut xs with
  | .more => ([], .pending xs)
  | .bad => ([], .bad)
  | .item a rest => (a :: (split rest).1, (split rest).2)
termination_by xs.length
decreasing_by all_goals exact c.shrinks _h

variable {c} {xs : List β}

theorem split_more (h : c.cut xs = .more) : c.split xs = ([], .pending xs) := by
  rw [split]; split <;> simp_all

theorem split_bad (h : c.cut xs = .bad) : c.split xs = ([], .bad) := by
  rw [split]; split <;> simp_all

theorem split_item {a : α} {rest : List β} (h : c.cut xs = .item a rest) :
    c.split xs = (a :: (c.split rest).1, (c.split rest).2) := by
  rw [split]; split <;> simp_all

/-- The items of a stream: induction on its cuts. -/
theorem cut_induction {P : List β → Prop} (more : ∀ xs, c.cut xs = .more → P xs) (bad : ∀ xs, c.cut xs = .bad → P xs)
    (item : ∀ xs a rest, c.cut xs = .item a rest → P rest → P xs) (xs : List β) : P xs := by
  induction hn : xs.length using Nat.strongRecOn generalizing xs with
  | ind n ih =>
    subst hn
    cases h : c.cut xs with
    | more => exact more xs h
    | bad => exact bad xs h
    | item a rest => exact item xs a rest h (ih _ (c.shrinks h) rest rfl)

/-- What every cut gives its item, every item has. -/
theorem split_forall {P : α → Prop} (h : ∀ {xs a rest}, c.cut xs = .item a rest → P a) (xs : List β) :
    ∀ a ∈ (c.split xs).1, P a := by
  induction xs using cut_induction (c := c) with
  | more xs hx => simp [split_more hx]
  | bad xs hx => simp [split_bad hx]
  | item xs a rest hx ih =>
    rw [split_item hx]
    exact List.forall_mem_cons.mpr ⟨h hx, ih⟩

/-- Chunk independence. -/
theorem split_append_pending {as : List α} {rest : List β} (ys : List β) (h : c.split xs = (as, .pending rest)) :
    c.split (xs ++ ys) = (as ++ (c.split (rest ++ ys)).1, (c.split (rest ++ ys)).2) := by
  induction xs using cut_induction (c := c) generalizing as with
  | more xs hc => rw [split_more hc] at h; cases h; rfl
  | bad xs hc => rw [split_bad hc] at h; cases h
  | item xs a rest' hc ih =>
    rw [split_item hc] at h
    obtain ⟨rfl, h2⟩ := Prod.mk.inj h
    rw [split_item (c.item_append ys hc), ih (Prod.ext rfl h2)]
    rfl

theorem split_append_bad {as : List α} (ys : List β) (h : c.split xs = (as, .bad)) :
    c.split (xs ++ ys) = (as, .bad) := by
  induction xs using cut_induction (c := c) generalizing as with
  | more xs hc => rw [split_more hc] at h; cases h
  | bad xs hc => rw [split_bad hc] at h; cases h; exact split_bad (c.bad_append ys hc)
  | item xs a rest' hc ih =>
    rw [split_item hc] at h
    obtain ⟨rfl, h2⟩ := Prod.mk.inj h
    rw [split_item (c.item_append ys hc), ih (Prod.ext rfl h2)]

/-- The items of the front of a stream are the first items of the stream. -/
theorem split_prefix (xs ys : List β) : (c.split xs).1 <+: (c.split (xs ++ ys)).1 := by
  cases h : c.split xs with
  | mk as st =>
    cases st with
    | pending rest => rw [split_append_pending ys h]; exact List.prefix_append ..
    | bad => exact ⟨[], by rw [split_append_bad ys h, List.append_nil]⟩

/-- A stream of encoded items is split back into the items. -/
theorem split_encoded {enc : α → List β} {as : List α}
    (h : ∀ a ∈ as, ∀ ys, c.cut (enc a ++ ys) = .item a ys) (ys : List β) :
    c.split ((as.map enc).flatten ++ ys) = (as ++ (c.split ys).1, (c.split ys).2) := by
  induction as with
  | nil => rfl
  | cons a as ih =>
    rw [List.map_cons, List.flatten_cons, List.append_assoc, split_item (h a (List.mem_cons_self ..) _),
      ih fun b hb => h b (List.mem_cons_of_mem _ hb)]
    rfl

end Splitter

end OscTap.Lib
