/-
  OscTap.Received.ArrayItems — counting the items of an array
  (`ReceivedMessageArgument::ComputeArrayItemCount`).

  The loop over the tags keeps a nesting level and counts the tags at level 0 that are no
  brackets; it relies on the parser for the balance. An array that is an item of another one
  is only a pair of brackets to it, and is not counted.

  Proved: `computeArrayItemCount_exact`, for every array of every message that is parsed: the
  count is the number of items if and only if none of them is an array; `nestedArray_miscounted`.
-/
import OscTap.Received.Grammar
import OscTap.Received.Reader

namespace OscTap.Received

open OscTap.Lib OscTap.Lib.Out OscTap.Osc

/-! ## The accessor -/

def countItems (m : Bytes) (typeTag result level : Nat) : Out Exn Nat :=
  if h : typeTag < m.length then
    if m[typeTag] = 0 then ok result
    else if m[typeTag] = TypeTag.arrayBeginTag.value then countItems m (typeTag + 1) result (level + 1)
    else if m[typeTag] = TypeTag.arrayEndTag.value then
      if level = 0 then ok result else countItems m (typeTag + 1) result (level - 1)
    else countItems m (typeTag + 1) (if level = 0 then result + 1 else result) level
  else fault (.read typeTag)
termination_by m.length - typeTag

namespace ReceivedMessageArgument

def isArrayBegin (m : Bytes) (a : ReceivedMessageArgument) : Out Exn Bool := do
  let c ← a.typeTag m
  ok (c == TypeTag.arrayBeginTag.value)

def computeArrayItemCount (m : Bytes) (a : ReceivedMessageArgument) : Out Exn Nat := do
  let arrayBegin ← a.isArrayBegin m
  if ¬ arrayBegin then err .wrongArgumentType
  else do
    let typeTagPtr ← deref a.typeTagPtr
    countItems m (typeTagPtr + 1) 0 0

end ReceivedMessageArgument

/-! ## The loop -/

variable {m : Bytes}

theorem bracket_opens {t : TypeTag} : bracket t = .opens ↔ t = .arrayBeginTag := by cases t <;> decide

theorem bracket_closes {t : TypeTag} : bracket t = .closes ↔ t = .arrayEndTag := by cases t <;> decide

/-- One tag of the loop. -/
theorem countItems_tag {t : TypeTag} {tt : Nat} (h : m[tt]? = some t.value) (result level : Nat) :
    countItems m tt result level =
      match bracket t with
      | .opens => countItems m (tt + 1) result (level + 1)
      | .closes => if level = 0 then ok result else countItems m (tt + 1) result (level - 1)
      | .item => countItems m (tt + 1) (if level = 0 then result + 1 else result) level := by
  obtain ⟨hl, hv⟩ := List.getElem?_eq_some_iff.mp h
  rw [countItems, dif_pos hl, hv, if_neg (TypeTag.value_ne_zero t)]
  cases t <;> rfl

/-- Below the top level a nested word leaves no trace. -/
theorem countItems_nested {tags : List TypeTag} (hn : Nested bracket tags) : ∀ {tt : Nat} (result level : Nat),
    At m tt (tags.map TypeTag.value) →
    countItems m tt result (level + 1) = countItems m (tt + tags.length) result (level + 1) := by
  induction hn with
  | nil => intro tt result level _; rfl
  | @item a as ha _ ih =>
    intro tt result level h
    rw [countItems_tag h.get, ha, List.length_cons, Nat.add_comm as.length, ← Nat.add_assoc]
    exact ih result level h.tail
  | @array a b inner rest ha hb _ _ ih1 ih2 =>
    intro tt result level h
    rw [List.map_cons, List.map_append, List.map_cons] at h
    obtain ⟨hinner, hrest⟩ := (at_append _ _).mp h.tail
    rw [List.length_map] at hrest
    have hlen : tt + (a :: (inner ++ b :: rest)).length = tt + 1 + inner.length + 1 + rest.length := by
      simp only [List.length_cons, List.length_append]; omega
    rw [countItems_tag h.get, ha, hlen]
    calc countItems m (tt + 1) result (level + 1 + 1)
        = countItems m (tt + 1 + inner.length) result (level + 1 + 1) := ih1 result (level + 1) hinner
      _ = countItems m (tt + 1 + inner.length + 1) result (level + 1) := by rw [countItems_tag hrest.get, hb]; rfl
      _ = countItems m (tt + 1 + inner.length + 1 + rest.length) result (level + 1) := ih2 result level hrest.tail

/-- At the top level the letters are counted, and the arrays are not. -/
theorem countItems_items {tags : List TypeTag} {n d : Nat} (hi : Items bracket tags n d) : ∀ {tt : Nat} (result : Nat),
    At m tt (tags.map TypeTag.value) → countItems m tt result 0 = countItems m (tt + tags.length) (result + n) 0 := by
  induction hi with
  | nil => intro tt result _; rfl
  | @item a as n d ha _ ih =>
    intro tt result h
    rw [countItems_tag h.get, ha, List.length_cons, Nat.add_comm as.length, ← Nat.add_assoc, Nat.add_comm n,
      ← Nat.add_assoc]
    exact ih (result + 1) h.tail
  | @array a b inner rest n d ha hb hn _ ih =>
    intro tt result h
    rw [List.map_cons, List.map_append, List.map_cons] at h
    obtain ⟨hinner, hrest⟩ := (at_append _ _).mp h.tail
    rw [List.length_map] at hrest
    have hlen : tt + (a :: (inner ++ b :: rest)).length = tt + 1 + inner.length + 1 + rest.length := by
      simp only [List.length_cons, List.length_append]; omega
    rw [countItems_tag h.get, ha, hlen]
    calc countItems m (tt + 1) result (0 + 1)
        = countItems m (tt + 1 + inner.length) result (0 + 1) := countItems_nested hn result 0 hinner
      _ = countItems m (tt + 1 + inner.length + 1) result 0 := by rw [countItems_tag hrest.get, hb]; rfl
      _ = countItems m (tt + 1 + inner.length + 1 + rest.length) (result + n) 0 := ih result hrest.tail

/-! ## Arrays of a message -/

/-- The array whose opening tag is at `tt`: the tags inside it, up to the matching bracket. -/
def ArrayAt (m : Bytes) (tt : Nat) (inner : List TypeTag) : Prop :=
  Nested bracket inner ∧ At m tt (TypeTag.arrayBeginTag.value ::
    (inner.map TypeTag.value ++ [TypeTag.arrayEndTag.value]))

theorem computeArrayItemCount_eq {tt n d : Nat} {inner : List TypeTag} (h : ArrayAt m tt inner)
    (hi : Items bracket inner n d) (argumentPtr : Option Nat) :
    ReceivedMessageArgument.computeArrayItemCount m ⟨some tt, argumentPtr⟩ = ok n := by
  obtain ⟨-, h⟩ := h
  obtain ⟨hinner, hend⟩ := (at_append _ _).mp h.tail
  rw [List.length_map] at hend
  have hcount : countItems m (tt + 1) 0 0 = ok n := by
    rw [countItems_items hi 0 hinner, countItems_tag hend.get, Nat.zero_add]; rfl
  have htag : ReceivedMessageArgument.typeTag m ⟨some tt, argumentPtr⟩ = ok TypeTag.arrayBeginTag.value := by
    rw [ReceivedMessageArgument.typeTag, deref_some, ok_bind, rd_of_some h.get]
  rw [ReceivedMessageArgument.computeArrayItemCount, ReceivedMessageArgument.isArrayBegin, htag]
  exact hcount

/-- The tag string of a parsed message is nested. -/
theorem ReceivedMessage.tryInit_tags {p : Nat} {size : Int} {r : ReceivedMessage} (hl : p + size.toNat ≤ m.length)
    (h : ReceivedMessage.tryInit m p size = ok r) {tt : Nat} (ht : r.typeTagsBegin = some tt) :
    ∃ tags, Nested bracket tags ∧ At m tt (tags.map TypeTag.value) ∧ r.argumentCount = tags.length := by
  obtain ⟨-, -, a, -, -, -, hcase⟩ := (ReceivedMessage.tryInit_decides hl).iff.mp h
  rcases hcase with ⟨-, h1, -⟩ | ⟨-, -, -, h1, -⟩ | ⟨-, -, b, hb, -, tags, -, hc, ⟨q, hq⟩, h1, h2, -⟩
  · rw [ht] at h1; cases h1
  · rw [ht] at h1; cases h1
  · obtain rfl : tt = a + 1 := by rw [ht] at h1; exact Option.some.inj h1
    obtain ⟨-, -, ts, rfl, hd, -⟩ := (argsRange_iff hl tags b 0 q 0 hb).mp hq
    refine ⟨ts, nested_iff_depth.mpr hd, ⟨Nat.le_of_lt hc.lt, ?_⟩, ?_⟩
    · apply List.ext_getElem?
      intro i
      rw [getElem?_slice]
      split
      · exact hc.get i (by omega)
      · rw [List.getElem?_eq_none (by omega)]
    · rw [ReceivedMessage.argumentCount, h1, h2, Option.getD_some, Option.getD_some, List.length_map,
        Nat.add_sub_cancel_left]

/-- Every array of every message that is parsed has a matching bracket; between the two the
    items are `n` tags and `d` arrays, and the count is `n + d` if and only if there is no
    array inside the array. -/
theorem computeArrayItemCount_exact {p : Nat} {size : Int} {r : ReceivedMessage} (hl : p + size.toNat ≤ m.length)
    (h : ReceivedMessage.tryInit m p size = ok r) {k : Nat} (hk : k < r.argumentCount) {a : ReceivedMessageArgument}
    (ha : a.typeTagPtr = r.typeTagsBegin.map (· + k)) (htag : a.isArrayBegin m = ok true) :
    ∃ tt inner n d, a.typeTagPtr = some tt ∧ ArrayAt m tt inner ∧ Items bracket inner n d ∧
      (a.computeArrayItemCount m = ok (n + d) ↔ .arrayBeginTag ∉ inner) := by
  obtain ⟨typeTagPtr, argumentPtr⟩ := a
  cases hb : r.typeTagsBegin with
  | none =>
    rw [hb] at ha
    obtain rfl : typeTagPtr = none := ha
    cases htag
  | some t =>
    rw [hb] at ha
    obtain rfl : typeTagPtr = some (t + k) := ha
    obtain ⟨tags, hn, hat, hcount⟩ := ReceivedMessage.tryInit_tags hl h hb
    rw [hcount] at hk
    -- the tag of the argument
    have hsplit : tags = tags.take k ++ tags[k] :: tags.drop (k + 1) := by
      rw [← List.drop_eq_getElem_cons hk, List.take_append_drop]
    have htk : (tags.take k).length = k := by rw [List.length_take]; omega
    rw [hsplit, List.map_append, List.map_cons] at hat
    obtain ⟨-, hat⟩ := (at_append _ _).mp hat
    rw [List.length_map, htk] at hat
    have hopen : tags[k] = .arrayBeginTag := by
      rw [ReceivedMessageArgument.isArrayBegin, ReceivedMessageArgument.typeTag, deref_some, ok_bind,
        rd_of_some hat.get, ok_bind] at htag
      have := Out.ok.inj htag
      rw [beq_iff_eq] at this
      exact Option.some.inj (by rw [← TypeTag.ofByte_value tags[k], this, TypeTag.ofByte_value])
    rw [hsplit] at hn
    obtain ⟨inner, b, rest, hrest, hclose, hinner⟩ := hn.closed (bracket_opens.mpr hopen)
    obtain rfl := bracket_closes.mp hclose
    obtain ⟨n, d, hi⟩ := hinner.items
    rw [hopen, hrest, List.map_append, List.map_cons] at hat
    have harray : ArrayAt m (t + k) inner := by
      refine ⟨hinner, ?_⟩
      rw [← List.cons_append, List.append_cons] at hat
      exact ((at_append _ _).mp hat).1
    refine ⟨t + k, inner, n, d, rfl, harray, hi, ?_⟩
    rw [computeArrayItemCount_eq harray hi]
    have hflat : d = 0 ↔ .arrayBeginTag ∉ inner := by
      rw [hi.flat]
      exact ⟨fun hall hm => hall _ hm rfl, fun hm t ht ho => hm (bracket_opens.mp ho ▸ ht)⟩
    rw [← hflat]
    constructor
    · intro e; have := Out.ok.inj e; omega
    · intro e; rw [e]; rfl

def flatArray : Bytes := [ch '/', ch 'a', 0, 0, ch ',', ch '[', ch 'i', ch ']', 0, 0, 0, 0, 0, 0, 0, 7]

theorem flatArray_counted : ∃ tt inner n d, some 5 = some tt ∧ ArrayAt flatArray tt inner ∧ Items bracket inner n d ∧
    (ReceivedMessageArgument.computeArrayItemCount flatArray ⟨some 5, some 12⟩ = ok (n + d) ↔ .arrayBeginTag ∉ inner) :=
  @computeArrayItemCount_exact flatArray 0 16 ⟨0, some 5, some 8, some 12, 16⟩ (by decide)
    (by decide +kernel) 0 (by decide)
    ⟨some 5, some 12⟩ rfl (by decide)

def nestedArray : Bytes := [ch '/', ch 'a', 0, 0, ch ',', ch '[', ch '[', ch ']', ch ']', 0, 0, 0]

/-- One item, and the count is 0. -/
theorem nestedArray_miscounted : ReceivedMessage.tryInit nestedArray 0 12 = ok ⟨0, some 5, some 9, some 12, 12⟩ ∧
    ArrayAt nestedArray 5 [.arrayBeginTag, .arrayEndTag] ∧ Items bracket [.arrayBeginTag, .arrayEndTag] 0 1 ∧
    ReceivedMessageArgument.computeArrayItemCount nestedArray ⟨some 5, some 12⟩ = ok 0 ∧
    ReceivedMessageArgument.computeArrayItemCount nestedArray ⟨some 5, some 12⟩ ≠ ok (0 + 1) :=
  ⟨by decide +kernel, ⟨by decide, by decide, by decide⟩, @Items.array _ _ _ _ [] [] _ _ rfl rfl .nil .nil,
    by decide +kernel, by decide +kernel⟩

end OscTap.Received
