/-
  OscTap.Received.Validate — what the parsers accept, over the buffer (see
  `OscTap.Received.Elements`), and hostile-input safety.

  Each parser is decided exactly (`Decides`): on any bytes it ends, without touching a byte
  outside the buffer or leaving the range of a size computation, and it returns a value if
  and only if the bytes have the stated shape. The shapes are relations between offsets:
  - `ArgRange`: the argument of a tag at `p` ends at `q`;
  - `ArgsRange`: the arguments of a tag string, with the array level;
  - `IsMessage`, `Framed`, `IsBundle`: a message, the elements of a bundle, a bundle;
  - `Valid`: a packet the gate accepts at a nesting bound.
  The invariant behind every read is alignment: in front of each read the bytes left are a
  positive multiple of four.

  Proved: `validation_safe`, for every content, size and bound, of all three entry points.
-/
import OscTap.Lib.CString
import OscTap.Osc.Packet
import OscTap.Received.Elements

namespace OscTap.Received

open OscTap.Lib OscTap.Lib.Out OscTap.Osc

/-! ## Arguments -/

def ArgRange (m : Bytes) (t : TypeTag) (p q : Nat) : Prop :=
  match t with
  | .trueTag | .falseTag | .nilTag | .infinitumTag | .arrayBeginTag | .arrayEndTag => q = p
  | .int32Tag | .floatTag | .charTag | .rgbaColorTag | .midiMessageTag => q = p + 4
  | .int64Tag | .timeTagTag | .doubleTag => q = p + 8
  | .stringTag | .symbolTag => IsStr4 m p q
  | .blobTag => word m p ≤ 0x7FFFFFFC ∧ q = p + 4 + roundUp4 (word m p)

/-- The array level behind a tag; `none` when it closes an array that is not open. -/
def nextLevel (t : TypeTag) (l : Nat) : Option Nat := (bracket t).next l

def ArgStep (m : Bytes) (e : Nat) (tag : UInt8) (p l q l' : Nat) : Prop :=
  ∃ t, TypeTag.ofByte tag = some t ∧ nextLevel t l = some l' ∧ ArgRange m t p q ∧ q ≤ e

/-- The arguments of the tags of a string, from offset `p` and array level `l`. -/
inductive ArgsRange (m : Bytes) (e : Nat) : Bytes → Nat → Nat → Nat → Nat → Prop
  | nil (p l : Nat) : ArgsRange m e [] p l p l
  | cons {tag : UInt8} {tags : Bytes} {p l q l' r l'' : Nat} :
      ArgStep m e tag p l q l' → ArgsRange m e tags q l' r l'' → ArgsRange m e (tag :: tags) p l r l''

theorem ArgRange.aligned {m : Bytes} {t : TypeTag} {p q : Nat} (h : ArgRange m t p q) : p ≤ q ∧ (q - p) % 4 = 0 := by
  cases t
  case stringTag | symbolTag => exact ⟨Nat.le_of_lt (IsStr4.lt h), IsStr4.aligned h⟩
  case blobTag =>
    obtain ⟨h1, rfl⟩ := h
    have := roundUp4_ge (x := word m p) (by omega)
    omega
  all_goals (have e := h; simp only [ArgRange] at e; omega)

theorem ArgRange.unique {m : Bytes} {t : TypeTag} {p q q' : Nat} (h : ArgRange m t p q) (h' : ArgRange m t p q') :
    q = q' := by
  cases t
  case stringTag | symbolTag => exact IsStr4.unique h h'
  case blobTag => exact h.2.trans h'.2.symm
  all_goals exact Eq.trans h (Eq.symm h')

theorem ArgsRange.le {m : Bytes} {e : Nat} {tags : Bytes} {p l q l' : Nat}
    (h : ArgsRange m e tags p l q l') (hp : p ≤ e) :
    q ≤ e := by
  induction h with
  | nil p l => exact hp
  | cons hs _ ih => exact ih hs.choose_spec.2.2.2

theorem checkArgument_str {m : Bytes} {e p : Nat} {tag : UInt8} (he : e ≤ m.length) (l : Nat) (hpe : p ≤ e)
    (ha : (e - p) % 4 = 0) {t : TypeTag} (ht : TypeTag.ofByte tag = some t) (hs : t = .stringTag ∨ t = .symbolTag) :
    Decides (ReceivedMessage.checkArgument m e tag p l) (fun r => r.2 = l ∧ IsStr4 m p r.1 ∧ r.1 ≤ e) := by
  have hstr : Decides (ReceivedMessage.checkArgument m e tag p l)
    (fun r => ¬ p = e ∧ r.2 = l ∧ IsStr4 m p r.1 ∧ r.1 ≤ e) := by
    unfold ReceivedMessage.checkArgument
    rcases hs with rfl | rfl
    all_goals
      rw [ht]
      refine Decides.guard (S := fun r : Nat × Nat => r.2 = l ∧ IsStr4 m p r.1 ∧ r.1 ≤ e) fun hne => ?_
      rcases findStr4End_spec (ε := String) (by omega : p < e) he ha with ⟨q, hq, hf, hs⟩ | ⟨hf, hn⟩
      · rw [hf, ok_bind]
        refine (decides_ok _).congr fun r => ⟨?_, ?_⟩
        · intro hx
          subst hx
          exact ⟨rfl, hs, hq⟩
        · intro hx
          rcases hx with ⟨h1, h2, -⟩
          exact Prod.ext (h2.unique hs) h1
      · rw [hf, ok_bind]
        exact (decides_err _).congr fun r => by simp only [false_iff]; exact fun h => hn _ h.2.2 h.2.1
  refine hstr.congr fun r => ⟨fun hx => hx.2, fun hx => ⟨?_, hx⟩⟩
  have := hx.2.1.lt
  omega

/-- A blob size of at most 0x7FFFFFFC keeps its sign and rounds up without wrapping. -/
theorem isValid_blobSize (n : Nat) (hn : n < 2 ^ 32) : isValidElementSizeValue (int32OfBits n) = true ↔
    n ≤ 0x7FFFFFFC := by
  rw [isValid_iff, int32OfBits]; split <;> omega

theorem checkArgument_blob {m : Bytes} {e p : Nat} {tag : UInt8} (he : e ≤ m.length) (l : Nat)
    (ha : (e - p) % 4 = 0) (hb : e - p < 2 ^ 32) (ht : TypeTag.ofByte tag = some .blobTag) :
    Decides (ReceivedMessage.checkArgument m e tag p l)
      (fun r => r.2 = l ∧ (word m p ≤ 0x7FFFFFFC ∧ r.1 = p + 4 + roundUp4 (word m p)) ∧ r.1 ≤ e) := by
  have hv := isValid_blobSize (word m p) (word_lt m p)
  unfold ReceivedMessage.checkArgument
  rw [ht]
  refine (Decides.guard (S := fun r : Nat × Nat => ¬ ¬ isValidElementSizeValue (int32OfBits (word m p)) ∧
    r.2 = l ∧ r.1 = p + 4 + roundUp4 (word m p) ∧ r.1 ≤ e) fun hlt => ?_).congr fun r => ?_
  · rw [rd32_of_le (by omega), ok_bind]
    refine Decides.guard fun hval => ?_
    have hval' := hv.mp (by simpa using hval)
    rw [roundUp4Checked_of_lt (by omega), ok_bind, sizeLeft_of_le (by omega) (by omega), ok_bind]
    refine (Decides.guard fun _ => decides_ok _).congr fun r => ?_
    constructor
    · intro hx
      rcases hx with ⟨h, rfl⟩
      exact ⟨rfl, rfl, by omega⟩
    · intro hx
      rcases hx with ⟨h1, h2, h3⟩
      exact ⟨by omega, Prod.ext h2 h1⟩
  · rw [hv, not_not]
    constructor
    · intro hx
      rcases hx with ⟨-, h1, h2, h3, h4⟩
      exact ⟨h2, ⟨h1, h3⟩, h4⟩
    · intro hx
      rcases hx with ⟨h2, ⟨h1, h3⟩, h4⟩
      exact ⟨by omega, h1, h2, h3, h4⟩

theorem checkArgument_decides {m : Bytes} {e p : Nat} (hpe : p ≤ e) (he : e ≤ m.length) (ha : (e - p) % 4 = 0)
    (hb : e - p < 2 ^ 32) (tag : UInt8) (l : Nat) :
    Decides (ReceivedMessage.checkArgument m e tag p l) (fun r => ArgStep m e tag p l r.1 r.2) := by
  cases ht : TypeTag.ofByte tag with
  | none =>
    unfold ReceivedMessage.checkArgument
    rw [ht]
    exact (decides_err _).congr fun r => by simp [ArgStep, ht]
  | some t =>
    have hstep : ∀ r : Nat × Nat, ArgStep m e tag p l r.1 r.2 ↔ nextLevel t l = some r.2 ∧
      ArgRange m t p r.1 ∧ r.1 ≤ e :=
      fun r => by simp [ArgStep, ht]
    -- what keeps the array level
    have hkeep : ∀ r : Nat × Nat, (nextLevel t l = some l) →
        (r.2 = l ∧ ArgRange m t p r.1 ∧ r.1 ≤ e ↔ ArgStep m e tag p l r.1 r.2) := fun r hl => by
      rw [hstep, hl, Option.some.injEq, eq_comm]
    cases t
    case stringTag => exact (checkArgument_str he l hpe ha ht (Or.inl rfl)).congr fun r => hkeep r rfl
    case symbolTag => exact (checkArgument_str he l hpe ha ht (Or.inr rfl)).congr fun r => hkeep r rfl
    case blobTag => exact (checkArgument_blob he l ha hb ht).congr fun r => hkeep r rfl
    case trueTag | falseTag | nilTag | infinitumTag | arrayBeginTag =>
      unfold ReceivedMessage.checkArgument
      rw [ht]
      refine (decides_ok _).congr fun r => ?_
      rw [hstep]
      constructor
      · intro hx
        subst hx
        exact ⟨rfl, rfl, hpe⟩
      · intro hx
        rcases hx with ⟨h1, h2, -⟩
        exact Prod.ext h2 (Option.some.inj h1).symm
    case arrayEndTag =>
      unfold ReceivedMessage.checkArgument
      rw [ht]
      refine (Decides.guard fun _ => decides_ok _).congr fun r => ?_
      rw [hstep]
      match l with
      | 0 => simp [nextLevel, bracket, Bracket.next]
      | l + 1 =>
        simp only [nextLevel, bracket, Bracket.next, ArgRange, Option.some.injEq, Nat.add_sub_cancel]
        constructor
        · intro hx
          rcases hx with ⟨-, rfl⟩
          exact ⟨rfl, rfl, hpe⟩
        · intro hx
          rcases hx with ⟨h1, h2, -⟩
          exact ⟨by omega, Prod.ext h2 h1.symm⟩
    case int32Tag | floatTag | charTag | rgbaColorTag | midiMessageTag | int64Tag | timeTagTag | doubleTag =>
      unfold ReceivedMessage.checkArgument
      rw [ht]
      refine (Decides.guard fun _ => Decides.guard fun _ => decides_ok _).congr fun r => ?_
      rw [← hkeep r rfl]
      simp only [ArgRange]
      constructor
      · intro hx
        rcases hx with ⟨-, h2, rfl⟩
        exact ⟨rfl, rfl, by omega⟩
      · intro hx
        rcases hx with ⟨h1, h2, h3⟩
        exact ⟨by omega, by omega, Prod.ext h2 h1⟩

/-- The loop over the tags of a string that is not empty. -/
theorem checkArguments_decides {m : Bytes} {e : Nat} (he : e ≤ m.length) (tag : UInt8) (tags : Bytes) :
    ∀ (tt p l : Nat), CStrAt m tt (tag :: tags) → p ≤ e → (e - p) % 4 = 0 → e - p < 2 ^ 32 →
      Decides (ReceivedMessage.checkArguments m e tt p l)
        (fun r => r.1 = tt + (tags.length + 1) ∧ ∃ q, ArgsRange m e (tag :: tags) p l q r.2) := by
  induction tags generalizing tag with
  | nil =>
    intro tt p l hc hp ha hb
    cases hc with
    | cons htag hne hc =>
    cases hc with
    | nil hz =>
    obtain ⟨hl, hz⟩ := List.getElem?_eq_some_iff.mp hz
    rw [ReceivedMessage.checkArguments, rd_of_some htag, ok_bind]
    refine ((checkArgument_decides hp he ha hb tag l).bind (T := fun r b => b = (tt + 1, r.2)) fun r hs => ?_).congr
      fun r => ?_
    · simp only [dif_pos hl, if_pos hz]; exact decides_ok _
    · constructor
      · intro hx
        rcases hx with ⟨a, hs, rfl⟩
        exact ⟨rfl, a.1, .cons hs (.nil _ _)⟩
      · intro hx
        rcases hx with ⟨h1, q, hr⟩
        cases hr with
        | cons hs hn =>
        cases hn
        exact ⟨(_, r.2), hs, Prod.ext h1 rfl⟩
  | cons tag' tags ih =>
    intro tt p l hc hp ha hb
    cases hc with
    | cons htag hne hc =>
    have htag' : m[tt + 1]? = some tag' ∧ tag' ≠ 0 := by cases hc with | cons h h' _ => exact ⟨h, h'⟩
    obtain ⟨hl, hz⟩ := List.getElem?_eq_some_iff.mp htag'.1
    rw [ReceivedMessage.checkArguments, rd_of_some htag, ok_bind]
    refine ((checkArgument_decides hp he ha hb tag l).bind
      (T := fun a r => r.1 = tt + 1 + (tags.length + 1) ∧ ∃ q, ArgsRange m e (tag' :: tags) a.1 a.2 q r.2)
      fun a hs => ?_).congr fun r => ?_
    · obtain ⟨t, -, -, hr, hle⟩ := hs
      have := hr.aligned
      simp only [dif_pos hl, if_neg (by rw [hz]; exact htag'.2 : ¬ m[tt + 1] = 0)]
      exact ih tag' (tt + 1) a.1 a.2 hc hle (by omega) (by omega)
    · simp only [List.length_cons]
      constructor
      · intro hx
        rcases hx with ⟨a, hs, h1, q, hq⟩
        exact ⟨by omega, q, .cons hs hq⟩
      · intro hx
        rcases hx with ⟨h1, q, hr⟩
        cases hr with
        | cons hs hq => exact ⟨(_, _), hs, by omega, q, hq⟩

/-! ## Messages -/

/-- The rules for a size: what `ValidateSizeNoThrow` and `TryInit` check. -/
def SizeOk (size : Int) : Prop := 0 < size ∧ size ≤ 0x7FFFFFFC ∧ size % 4 = 0

/-- `[p, e)` is a message that parses to `r`. -/
def IsMessage (m : Bytes) (p e : Nat) (r : ReceivedMessage) : Prop :=
  ∃ a ≤ e, IsStr4 m p a ∧ r.addressPattern = p ∧
    ((a = e ∧ r.typeTagsBegin = none ∧ r.typeTagsEnd = none ∧ r.arguments = none) ∨
      (a < e ∧ m[a]? = some (ch ',') ∧ m[a + 1]? = some 0 ∧
        r.typeTagsBegin = none ∧ r.typeTagsEnd = none ∧ r.arguments = none) ∨
      (a < e ∧ m[a]? = some (ch ',') ∧ ∃ b ≤ e, IsStr4 m a b ∧ ∃ tags, tags ≠ [] ∧ CStrAt m (a + 1) tags ∧
        (∃ q, ArgsRange m e tags b 0 q 0) ∧ r.typeTagsBegin = some (a + 1) ∧
        r.typeTagsEnd = some (a + 1 + tags.length) ∧ r.arguments = some b))

theorem sizeGuards {α : Type} {size : Int} {e₁ e₂ e₃ : String} {x : Out String α} {S : α → Prop}
    (h : SizeOk size → Decides x S) :
    Decides (if ¬ isValidElementSizeValue size then err e₁ else if size = 0 then err e₂
      else if ¬ isMultipleOf4 size then err e₃ else x) (fun a => SizeOk size ∧ S a) := by
  refine (Decides.guard fun h1 => Decides.guard fun h2 => Decides.guard fun h3 => h ?_).congr fun a => ?_
  · rw [not_not, isValid_iff] at h1
    rw [not_not, isMultipleOf4_iff] at h3
    exact ⟨by omega, h1.2, h3⟩
  · simp only [not_not, isValid_iff, isMultipleOf4_iff, SizeOk]
    constructor
    · intro hx
      rcases hx with ⟨⟨h1, h2⟩, h3, h4, h5⟩
      exact ⟨⟨by omega, h2, h4⟩, h5⟩
    · intro hx
      rcases hx with ⟨⟨h1, h2, h3⟩, h4⟩
      exact ⟨⟨by omega, h2⟩, by omega, h3, h4⟩

def HasTail (m : Bytes) (a e : Nat) (r : ReceivedMessage) : Prop :=
  (a = e ∧ r.typeTagsBegin = none ∧ r.typeTagsEnd = none ∧ r.arguments = none) ∨
    (a < e ∧ m[a]? = some (ch ',') ∧ m[a + 1]? = some 0 ∧
      r.typeTagsBegin = none ∧ r.typeTagsEnd = none ∧ r.arguments = none) ∨
    (a < e ∧ m[a]? = some (ch ',') ∧ ∃ b ≤ e, IsStr4 m a b ∧ ∃ tags, tags ≠ [] ∧ CStrAt m (a + 1) tags ∧
      (∃ q, ArgsRange m e tags b 0 q 0) ∧ r.typeTagsBegin = some (a + 1) ∧
      r.typeTagsEnd = some (a + 1 + tags.length) ∧ r.arguments = some b)

variable {m : Bytes} {p a e : Nat} {r : ReceivedMessage}

theorem isMessage_at (hsa : IsStr4 m p a) (hae : a ≤ e) : IsMessage m p e r ↔ r.addressPattern = p ∧
    HasTail m a e r := by
  constructor
  · intro h
    obtain ⟨a', -, hsa', hap, ht⟩ := h
    obtain rfl := hsa'.unique hsa
    exact ⟨hap, ht⟩
  · intro h
    exact ⟨a, hae, hsa, h⟩

/-- Only the address. -/
theorem hasTail_end (h : a = e) : HasTail m a e r ↔ r.typeTagsBegin = none ∧ r.typeTagsEnd = none ∧
    r.arguments = none := by
  constructor
  · intro ht
    rcases ht with ht | ht | ht
    · exact ht.2
    · have := ht.1; omega
    · have := ht.1; omega
  · intro ht
    exact Or.inl ⟨h, ht⟩

theorem HasTail.comma (ht : HasTail m a e r) (h : a ≠ e) : m[a]? = some (ch ',') := by
  rcases ht with ht | ht | ht
  · exact absurd ht.1 h
  · exact ht.2.1
  · exact ht.2.1

/-- An empty tag string: what follows it is not looked at. -/
theorem hasTail_noTags (h : a < e) (hcomma : m[a]? = some (ch ',')) (hz : m[a + 1]? = some 0) :
    HasTail m a e r ↔ r.typeTagsBegin = none ∧ r.typeTagsEnd = none ∧ r.arguments = none := by
  constructor
  · intro ht
    rcases ht with ht | ht | ht
    · exact ht.2
    · exact ht.2.2.2
    · obtain ⟨-, -, b, -, -, tags, hne, hc, -⟩ := ht
      cases hc with
      | nil _ => exact absurd rfl hne
      | cons hc hc0 _ => rw [hz] at hc; exact absurd (Option.some.inj hc).symm hc0
  · intro ht
    exact Or.inr (Or.inl ⟨h, hcomma, hz, ht⟩)

/-- A tag string with tags. -/
theorem hasTail_tags (h : a < e) (hcomma : m[a]? = some (ch ',')) (hz : m[a + 1]? ≠ some 0) :
    HasTail m a e r ↔ ∃ b ≤ e, IsStr4 m a b ∧ ∃ tags, tags ≠ [] ∧ CStrAt m (a + 1) tags ∧
      (∃ q, ArgsRange m e tags b 0 q 0) ∧ r.typeTagsBegin = some (a + 1) ∧
      r.typeTagsEnd = some (a + 1 + tags.length) ∧ r.arguments = some b := by
  constructor
  · intro ht
    rcases ht with ht | ht | ht
    · have := ht.1; omega
    · exact absurd ht.2.2.1 hz
    · exact ht.2.2
  · intro ht
    exact Or.inr (Or.inr ⟨h, hcomma, ht⟩)

theorem eq_noTags {size : Int} : r = ⟨p, none, none, none, size⟩ ↔
    r.size = size ∧ r.addressPattern = p ∧ r.typeTagsBegin = none ∧ r.typeTagsEnd = none ∧ r.arguments = none := by
  cases r
  simp only [ReceivedMessage.mk.injEq]
  tauto

/-- The tag string ends inside its block, whose last byte is NUL. -/
theorem IsStr4.exists_tags {b : Nat} (hsb : IsStr4 m a b) (hcomma : m[a]? = some (ch ',')) :
    ∃ tags, CStrAt m (a + 1) tags := by
  have hnul : ∃ j, a + 1 ≤ j ∧ j < b ∧ m[j]? = some 0 := by
    rcases hsb with ⟨h0, -⟩ | ⟨k, rfl, -, hk, -⟩
    · rw [hcomma] at h0; exact absurd (Option.some.inj h0) (by decide)
    · exact ⟨a + 4 * k + 3, by omega, by omega, hk⟩
  obtain ⟨j, hj1, hj2, hj⟩ := hnul
  obtain ⟨tags, htags, -⟩ := CStrAt.exists_of_nul hj1 hj
  exact ⟨tags, htags⟩

theorem ReceivedMessage.tryInit_decides {m : Bytes} {p : Nat} {size : Int} (hl : p + size.toNat ≤ m.length) :
    Decides (ReceivedMessage.tryInit m p size) (fun r => SizeOk size ∧ r.size = size ∧
      IsMessage m p (p + size.toNat) r) := by
  unfold ReceivedMessage.tryInit
  refine sizeGuards fun hs => ?_
  obtain ⟨h1, h2, h3⟩ := hs
  simp only
  generalize he : p + size.toNat = e at hl
  have hpe : p < e := by omega
  rcases findStr4End_spec (ε := String) hpe hl (by omega) with ⟨a, hae, hf, hsa⟩ | ⟨hf, hn⟩
  · have hpa := hsa.lt
    have haa := hsa.aligned
    rw [hf, ok_bind]
    simp only
    -- the address block is unique, so the rest is decided by its tail
    refine Decides.congr (S := fun r => r.size = size ∧ r.addressPattern = p ∧ HasTail m a e r) ?_
      fun r => by rw [isMessage_at hsa hae]
    by_cases hend : a = e
    · rw [if_pos hend]
      exact (decides_ok _).congr fun r => by rw [eq_noTags, hasTail_end hend]
    rw [if_neg hend]
    have hlt : a < e := by omega
    have ha0 : m[a]? = some m[a] := List.getElem?_eq_getElem (by omega)
    have ha1 : m[a + 1]? = some m[a + 1] := List.getElem?_eq_getElem (by omega)
    rw [rd_of_lt (by omega), ok_bind]
    refine (Decides.guard (S := fun r => r.size = size ∧ r.addressPattern = p ∧ HasTail m a e r) fun hc => ?_).congr
      fun r => ⟨fun h => h.2, fun h => ⟨?_, h⟩⟩
    · have hcomma : m[a]? = some (ch ',') := by rw [ha0, not_not.mp hc]
      rw [rd_of_lt (by omega), ok_bind]
      by_cases hz : m[a + 1] = 0
      · rw [if_pos hz]
        exact (decides_ok _).congr fun r => by rw [eq_noTags, hasTail_noTags hlt hcomma (by rw [ha1, hz])]
      · have hz' : m[a + 1]? ≠ some 0 := fun h => hz (by rw [ha1] at h; exact Option.some.inj h)
        rw [if_neg hz]
        rcases findStr4End_spec (ε := String) hlt hl (by omega) with ⟨b, hbe, hfb, hsb⟩ | ⟨hfb, hnb⟩
        · have hab := hsb.lt
          have hba := hsb.aligned
          rw [hfb, ok_bind]
          obtain ⟨tags, htags⟩ := IsStr4.exists_tags hsb hcomma
          match tags, htags with
          | [], htags => cases htags with | nil h => exact absurd h hz'
          | tag :: tags, htags =>
          refine ((checkArguments_decides hl tag tags (a + 1) b 0 htags hbe (by omega) (by omega)).bind
            (T := fun x r => x.2 = 0 ∧ r = ⟨p, some (a + 1), some x.1, some b, size⟩) fun x hx => ?_).congr fun r => ?_
          · exact (Decides.guard fun _ => decides_ok _).congr fun r => by simp
          · rw [hasTail_tags hlt hcomma hz']
            constructor
            · intro h
              obtain ⟨x, ⟨hx1, q, hq⟩, hx0, rfl⟩ := h
              rw [hx0] at hq
              exact ⟨rfl, rfl, b, hbe, hsb, tag :: tags,
                by simp, htags, ⟨q, hq⟩, rfl, by rw [hx1, List.length_cons], rfl⟩
            · intro h
              obtain ⟨hr, hp, b', -, hsb', tags', -, htags', ⟨q, hq⟩, hr1, hr2, hr3⟩ := h
              obtain rfl := hsb'.unique hsb
              obtain rfl := htags'.unique htags
              refine ⟨(_, 0), ⟨rfl, q, hq⟩, rfl, ?_⟩
              cases r; simp_all
        · rw [hfb, ok_bind]
          refine (decides_err _).congr fun r => ?_
          rw [hasTail_tags hlt hcomma hz', false_iff]
          intro h
          obtain ⟨-, -, b, hbe, hsb, -⟩ := h
          exact hnb b hbe hsb
    · have hcomma := h.2.2.comma hend
      rw [ha0] at hcomma
      exact not_not.mpr (Option.some.inj hcomma)
  · rw [hf, ok_bind]
    refine (decides_err _).congr fun r => ?_
    rw [false_iff]
    intro h
    obtain ⟨-, a, hae, hsa, -⟩ := h
    exact hn a hae hsa

/-! ## Bundles -/

/-- The elements of `[p, e)`: the offset and the size of each one's contents. -/
inductive Framed (m : Bytes) (e : Nat) : Nat → List (Nat × Nat) → Prop
  | nil : Framed m e e []
  | cons {p : Nat} {es : List (Nat × Nat)} : p + 4 ≤ e → word m p % 4 = 0 → p + 4 + word m p ≤ e →
      Framed m e (p + 4 + word m p) es → Framed m e p ((p + 4, word m p) :: es)

theorem Framed.le {m : Bytes} {e p : Nat} {es : List (Nat × Nat)} (h : Framed m e p es) : p ≤ e := by
  cases h <;> omega

theorem Framed.unique {m : Bytes} {e p : Nat} {es es' : List (Nat × Nat)} (h : Framed m e p es) :
    Framed m e p es' → es = es' := by
  induction h generalizing es' with
  | nil =>
    intro h'
    cases h' with
    | nil => rfl
    | cons h _ _ _ => omega
  | cons h1 _ _ _ ih =>
    intro h'
    cases h' with
    | nil => omega
    | cons _ _ _ h' => rw [ih h']

def IsBundle (m : Bytes) (p : Nat) (size : Int) (es : List (Nat × Nat)) : Prop :=
  SizeOk size ∧ 16 ≤ size ∧ slice m p (p + 8) = bundleTag ∧ Framed m (p + size.toNat) (p + 16) es

/-- The elements of a bundle are determined by its bytes. -/
theorem IsBundle.unique {m : Bytes} {p : Nat} {size : Int} {es es' : List (Nat × Nat)} (h : IsBundle m p size es)
    (h' : IsBundle m p size es') : es = es' := h.2.2.2.unique h'.2.2.2

theorem checkElements_decides {m : Bytes} {e : Nat} (he : e ≤ m.length) : ∀ (n p c : Nat), e - p ≤ n → p ≤ e →
    (e - p) % 4 = 0 → e - p < 2 ^ 32 →
    Decides (ReceivedBundle.checkElements m e p c) (fun r => r.1 = e ∧ ∃ es, Framed m e p es ∧
      r.2 = c + es.length) := by
  have last : ∀ c, Decides (ReceivedBundle.checkElements m e e c)
      (fun r => r.1 = e ∧ ∃ es, Framed m e e es ∧ r.2 = c + es.length) := by
    intro c
    rw [ReceivedBundle.checkElements, if_neg (Nat.lt_irrefl e)]
    refine (decides_ok _).congr fun r => ⟨?_, ?_⟩
    · intro hx
      subst hx
      exact ⟨rfl, [], .nil, rfl⟩
    · intro hx
      rcases hx with ⟨h1, es, hf, h2⟩
      obtain rfl := hf.unique .nil
      exact Prod.ext h1 h2
  intro n
  induction n with
  | zero =>
    intro p c hn hp _ _
    obtain rfl : p = e := by omega
    exact last c
  | succ n ih =>
    intro p c hn hp ha hb
    by_cases hpe : p < e
    · rw [ReceivedBundle.checkElements, if_pos hpe, if_neg (by omega), rd32_of_le (by omega), ok_bind]
      refine (Decides.guard (S := fun r : Nat × Nat => p + 4 + word m p ≤ e ∧
        r.1 = e ∧ ∃ es, Framed m e (p + 4 + word m p) es ∧ r.2 = c + 1 + es.length) fun h4 => ?_).congr fun r => ?_
      · dsimp only
        rw [sizeLeft_of_le (by omega) (by omega), ok_bind]
        refine (Decides.guard fun hle => ih (p + 4 + word m p) (c + 1) (by omega) (by omega) (by omega)
          (by omega)).congr
          fun r => ?_
        constructor
        · intro hx
          rcases hx with ⟨h1, h2⟩
          exact ⟨by omega, h2⟩
        · intro hx
          rcases hx with ⟨h1, h2⟩
          exact ⟨by omega, h2⟩
      · constructor
        · intro hx
          rcases hx with ⟨h4, h1, h2, es, hf, h3⟩
          exact ⟨h2, (p + 4, word m p) :: es, .cons (by omega) (not_not.mp h4) h1 hf,
            by simp only [List.length_cons]; omega⟩
        · intro hx
          rcases hx with ⟨h2, es, hf, h3⟩
          cases hf with
          | nil => omega
          | cons _ h4 h1 hf => exact ⟨not_not.mpr h4, h1, h2, _, hf, by simp only [List.length_cons] at h3; omega⟩
    · obtain rfl : p = e := by omega
      exact last c

theorem differs_eq {ε : Type} {m : Bytes} : ∀ (bs : Bytes) (p : Nat), p + bs.length ≤ m.length →
    (ReceivedBundle.differs m p bs : Out ε Bool) = ok (decide (slice m p (p + bs.length) ≠ bs)) := by
  intro bs
  induction bs with
  | nil => intro p _; simp [ReceivedBundle.differs, slice]
  | cons b bs ih =>
    intro p hl
    simp only [List.length_cons] at hl
    have hs : slice m p (p + (bs.length + 1)) = m[p] :: slice m (p + 1) (p + 1 + bs.length) := by
      rw [slice_split m (Nat.le_add_right p 1) (by omega), show p + (bs.length + 1) = p + 1 + bs.length by omega]
      have : slice m p (p + 1) = [m[p]] := by
        simp only [slice, Nat.add_sub_cancel_left]
        rw [List.take_one, List.head?_drop, List.getElem?_eq_getElem (by omega)]; rfl
      rw [this]; rfl
    rw [ReceivedBundle.differs, rd_of_lt (by omega), ok_bind, List.length_cons, hs]
    by_cases hb : m[p] = b
    · rw [if_pos hb, ih (p + 1) (by omega)]; simp [hb]
    · rw [if_neg hb]; simp [hb]

theorem ReceivedBundle.tryInit_decides {m : Bytes} {p : Nat} {size : Int} (hl : p + size.toNat ≤ m.length) :
    Decides (ReceivedBundle.tryInit m p size)
      (fun r => ∃ es, IsBundle m p size es ∧ r = ⟨p + 8, p + size.toNat, es.length⟩) := by
  unfold ReceivedBundle.tryInit
  refine (Decides.guard fun h1 => Decides.guard fun h2 => Decides.guard
    (S := fun r : ReceivedBundle => ∃ es, slice m p (p + 8) = bundleTag ∧ Framed m (p + size.toNat) (p + 16) es ∧
      r = ⟨p + 8, p + size.toNat, es.length⟩) fun h3 => ?_).congr fun r => ?_
  · rw [not_not, isValid_iff] at h1
    rw [not_not, isMultipleOf4_iff] at h3
    have h8 : p + bundleTag.length ≤ m.length := by
      show p + 8 ≤ _; omega
    rw [differs_eq _ _ h8, ok_bind]
    refine (Decides.guard (S := fun r : ReceivedBundle => ∃ es, Framed m (p + size.toNat) (p + 16) es ∧
      r = ⟨p + 8, p + size.toNat, es.length⟩) fun _ => ?_).congr fun r => ?_
    · simp only [show p + 8 + 8 = p + 16 by omega]
      refine ((checkElements_decides hl _ (p + 16) 0 (Nat.le_refl _) (by omega) (by omega) (by omega)).bind
        (T := fun x r => r = ⟨p + 8, p + size.toNat, x.2⟩) fun x hx => ?_).congr fun r => ?_
      · obtain ⟨q, c⟩ := x
        obtain rfl : q = p + size.toNat := hx.1
        simp only [ne_eq, not_true_eq_false, if_false]
        exact decides_ok _
      · constructor
        · intro hx
          rcases hx with ⟨x, ⟨-, es, hf, hc⟩, rfl⟩
          exact ⟨es, hf, by rw [hc, Nat.zero_add]⟩
        · intro hx
          rcases hx with ⟨es, hf, rfl⟩
          exact ⟨(_, es.length), ⟨rfl, es, hf, (Nat.zero_add _).symm⟩, rfl⟩
    · simp only [decide_eq_true_eq, not_not]
      constructor
      · intro hx
        rcases hx with ⟨h, es, h'⟩
        exact ⟨es, h, h'⟩
      · intro hx
        rcases hx with ⟨es, h, h'⟩
        exact ⟨h, es, h'⟩
  · simp only [not_not, isValid_iff, isMultipleOf4_iff, IsBundle, SizeOk]
    constructor
    · intro hx
      rcases hx with ⟨⟨h1, h2⟩, h3, h4, es, h5, h6, h7⟩
      exact ⟨es, ⟨⟨by omega, h2, h4⟩, by omega, h5, h6⟩, h7⟩
    · intro hx
      rcases hx with ⟨es, ⟨⟨h1, h2, h3⟩, h4, h5, h6⟩, h7⟩
      exact ⟨⟨by omega, h2⟩, by omega, h3, es, h5, h6, h7⟩

/-! ## The gate -/

/-- The packets the gate accepts at a nesting bound. -/
inductive Valid (m : Bytes) : Nat → Nat → Int → Prop
  | message {d p : Nat} {size : Int} {r : ReceivedMessage} : SizeOk size → m[p]? ≠ some (ch '#') →
      IsMessage m p (p + size.toNat) r → Valid m d p size
  | bundle {d p : Nat} {size : Int} {es : List (Nat × Nat)} : IsBundle m p size es →
      (∀ x ∈ es, Valid m d x.1 x.2) → Valid m (d + 1) p size

theorem Valid.sizeOk {m : Bytes} {d p : Nat} {size : Int} (h : Valid m d p size) : SizeOk size := by
  cases h with
  | message hs _ _ => exact hs
  | bundle hb _ => exact hb.1

theorem bundleTag_head {m : Bytes} {p : Nat} (h : slice m p (p + 8) = bundleTag) : m[p]? = some (ch '#') := by
  have := getElem?_slice m p (p + 8) 0
  rw [h, if_pos (by omega)] at this
  exact this.symm

theorem isBundle_eq {ε : Type} {m : Bytes} {p : Nat} {size : Int} (hl : p + size.toNat ≤ m.length) (hs : 0 < size) :
    (isBundle m p size : Out ε Bool) = ok (decide (m[p]? = some (ch '#'))) := by
  rw [isBundle, if_pos hs, rd_of_lt (by omega), ok_bind, List.getElem?_eq_getElem (by omega)]
  simp [beq_eq_decide]

theorem validateSizeNoThrow_none {size : Int} : ReceivedPacket.validateSizeNoThrow size = none ↔ SizeOk size := by
  unfold ReceivedPacket.validateSizeNoThrow SizeOk
  by_cases h1 : isValidElementSizeValue size = true
  · have h1' := isValid_iff.mp h1
    by_cases h2 : size = 0
    · rw [if_neg (not_not.mpr h1), if_pos h2]
      simp only [reduceCtorEq, false_iff]
      omega
    · by_cases h3 : isMultipleOf4 size = true
      · have h3' := isMultipleOf4_iff.mp h3
        simp only [h1, h2, h3, not_true_eq_false, if_false, true_iff]
        exact ⟨by omega, h1'.2, h3'⟩
      · simp only [h1, h2, h3, not_true_eq_false, not_false_eq_true, if_false, if_true, reduceCtorEq, false_iff]
        rw [isMultipleOf4_iff] at h3
        omega
  · simp only [h1, not_false_eq_true, if_true, reduceCtorEq, false_iff]
    rw [isValid_iff] at h1
    omega

/-- The loop over framed elements runs the check on each. -/
theorem validateElements_decides {m : Bytes} {check : Nat → Int → Out String Unit} {S : Nat → Int → Prop} {e p : Nat}
    {es : List (Nat × Nat)} (he : e ≤ m.length) (hb : e - p < 2 ^ 31) (hf : Framed m e p es)
    (hc : ∀ x ∈ es, Decides (check x.1 x.2) (fun _ => S x.1 x.2)) :
    Decides (validateElements m check e p) (fun _ => ∀ x ∈ es, S x.1 x.2) := by
  induction hf with
  | nil =>
    rw [validateElements, if_neg (Nat.lt_irrefl e)]
    exact (decides_ok _).congr fun r => by simp
  | @cons p es h1 h4 h2 hf ih =>
    have hx := hc _ (List.mem_cons_self ..)
    rw [validateElements, if_pos (by omega), rd32_of_le (by omega), ok_bind]
    simp only [int32OfBits_small (show word m p < 2 ^ 31 by omega)]
    refine (hx.bind (T := fun _ _ => ∀ x ∈ es, S x.1 x.2) fun _ _ =>
      ih (by omega) (fun x hx => hc x (List.mem_cons_of_mem _ hx))).congr fun _ => ?_
    simp only [List.mem_cons, forall_eq_or_imp, exists_const]

theorem Framed.inside {m : Bytes} {e p : Nat} {es : List (Nat × Nat)} (hf : Framed m e p es) :
    ∀ x ∈ es, p + 4 ≤ x.1 ∧ x.1 + x.2 ≤ e := by
  induction hf with
  | nil => intro x hx; cases hx
  | cons h1 _ h2 _ ih =>
    intro x hx
    rcases List.mem_cons.mp hx with rfl | hx
    · exact ⟨Nat.le_refl _, h2⟩
    · have := ih x hx; omega

/-- The gate, up to what it does with a bundle. -/
theorem gate_decides {m : Bytes} {p : Nat} {size : Int} {x : Out String Unit} {B : Prop}
    (hl : p + size.toNat ≤ m.length) (hx : SizeOk size → Decides x (fun _ => B)) :
    Decides
      (match ReceivedPacket.validateSizeNoThrow size with
        | some e => err e
        | none => do
          let bundle ← isBundle m p size
          if bundle then x
          else do
            let _ ← ReceivedMessage.tryInit m p size
            ok ())
      (fun _ => SizeOk size ∧ ((m[p]? = some (ch '#') ∧ B) ∨
        (m[p]? ≠ some (ch '#') ∧ ∃ r, IsMessage m p (p + size.toNat) r))) := by
  cases hv : ReceivedPacket.validateSizeNoThrow size with
  | some e =>
    have : ¬ SizeOk size := fun h => by rw [validateSizeNoThrow_none.mpr h] at hv; cases hv
    exact (decides_err e).congr fun _ => by simp [this]
  | none =>
    have hs := validateSizeNoThrow_none.mp hv
    rw [isBundle_eq hl hs.1]
    simp only [ok_bind, decide_eq_true_eq]
    by_cases hh : m[p]? = some (ch '#')
    · rw [if_pos hh]
      exact (hx hs).congr fun _ => by simp [hs, hh]
    · rw [if_neg hh]
      refine ((ReceivedMessage.tryInit_decides hl).bind fun _ _ => decides_ok _).congr fun _ => ?_
      constructor
      · intro hx
        rcases hx with ⟨r, ⟨h1, -, h3⟩, -⟩
        exact ⟨hs, Or.inr ⟨hh, r, h3⟩⟩
      · intro hx
        rcases hx with ⟨-, ⟨h, -⟩ | ⟨-, r, h⟩⟩
        · exact absurd h hh
        · exact ⟨{ r with size := size }, ⟨hs, rfl, h⟩, rfl⟩

theorem tryValidatePacket_decides {m : Bytes} : ∀ (d p : Nat) (size : Int), p + size.toNat ≤ m.length →
    Decides (tryValidatePacket m p size d) (fun _ => Valid m d p size) := by
  intro d
  induction d with
  | zero =>
    intro p size hl
    rw [tryValidatePacket]
    refine (gate_decides (B := False) hl fun hs => ?_).congr fun _ => ?_
    · exact ((ReceivedBundle.tryInit_decides hl).bind fun _ _ => decides_err _).congr fun _ => by simp
    · constructor
      · intro hx
        rcases hx with ⟨hs, ⟨-, h⟩ | ⟨hh, r, h⟩⟩
        · exact h.elim
        · exact .message hs hh h
      · intro h
        cases h with | message hs hh h => exact ⟨hs, Or.inr ⟨hh, _, h⟩⟩
  | succ d ih =>
    intro p size hl
    rw [tryValidatePacket]
    refine (gate_decides (B := ∃ es, IsBundle m p size es ∧ ∀ x ∈ es, Valid m d x.1 x.2) hl fun hs =>
      ?_).congr fun _ => ?_
    · refine ((ReceivedBundle.tryInit_decides hl).bind
        (T := fun _ _ => ∃ es, IsBundle m p size es ∧ ∀ x ∈ es, Valid m d x.1 x.2) fun r hr => ?_).congr fun _ => ?_
      · obtain ⟨es, hb, -⟩ := hr
        have hf := hb.2.2.2
        obtain ⟨h1, h2, -⟩ := hs
        refine (validateElements_decides (S := Valid m d) hl (by omega) hf fun x hx => ?_).congr fun _ => ?_
        · have := hf.inside x hx
          exact ih x.1 x.2 (by omega)
        · constructor
          · intro h; exact ⟨es, hb, h⟩
          · intro hx
            rcases hx with ⟨es', hb', h⟩
            rw [hf.unique hb'.2.2.2]; exact h
      · constructor
        · intro hx
          rcases hx with ⟨_, -, h⟩
          exact h
        · intro hx
          rcases hx with ⟨es, hb, h⟩
          exact ⟨_, ⟨es, hb, rfl⟩, es, hb, h⟩
    · constructor
      · intro hx
        rcases hx with ⟨hs, ⟨-, es, hb, h⟩ | ⟨hh, r, h⟩⟩
        · exact .bundle hb h
        · exact .message hs hh h
      · intro h
        cases h with
        | message hs hh h => exact ⟨hs, Or.inr ⟨hh, _, h⟩⟩
        | bundle hb h => exact ⟨hb.1, Or.inl ⟨bundleTag_head hb.2.2.1, _, hb, h⟩⟩

/-! ## Hostile input -/

/-- Whatever the bytes, the size and the bound: on a buffer of exactly the bytes the size
    names, the gate and both parsers return or reject, and touch no byte outside it. -/
theorem validation_safe (m : Bytes) (size : Int) (bound : Nat) (hm : m.length = size.toNat) :
    (∀ f, tryValidatePacket m 0 size bound ≠ fault f) ∧ (∀ f, ReceivedMessage.tryInit m 0 size ≠ fault f) ∧
      ∀ f, ReceivedBundle.tryInit m 0 size ≠ fault f := by
  have hl : 0 + size.toNat ≤ m.length := by omega
  exact ⟨safe_iff.mp (tryValidatePacket_decides bound 0 size hl).safe,
    safe_iff.mp (ReceivedMessage.tryInit_decides hl).safe, safe_iff.mp (ReceivedBundle.tryInit_decides hl).safe⟩

/-- A bundle with one message: "/a" with "hi", 7 and a blob of three bytes. -/
def typedBundle : Bytes :=
  bundleTag ++ be64 1 ++ be32 28 ++ [ch '/', ch 'a', 0, 0, ch ',', ch 's', ch 'i', ch 'b', 0, 0, 0, 0,
    ch 'h', ch 'i', 0, 0] ++ be32 7 ++ be32 3 ++ [1, 2, 3, 0]

theorem validation_safe_typedBundle : tryValidatePacket typedBundle 0 48 1 = ok () ∧
    (∀ f, tryValidatePacket typedBundle 0 48 1 ≠ fault f) ∧ ∀ f, ReceivedBundle.tryInit typedBundle 0 48 ≠ fault f :=
  have h := validation_safe typedBundle 48 1 rfl
  ⟨by decide +kernel, h.1, h.2.2⟩

end OscTap.Received
