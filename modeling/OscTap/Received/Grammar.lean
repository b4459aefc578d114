/-
  OscTap.Received.Grammar — the language the gate accepts.

  The grammar is over byte strings and mentions no offset and no parser. A padded string
  (`StrBlock`) is one word if its first byte is NUL, else the words up to the first whose
  last byte is NUL. A message is an address block and then nothing, or ',' NUL and
  arbitrary bytes, or a type tag block with correctly nested brackets and one argument
  encoding per tag; bytes behind the last argument are not looked at. A packet that starts
  with '#' is a bundle. `L` is the rule for the length of a bundle's element.

  Proved: `accepts_iff`, the gate returns null exactly on the words of the grammar whose
  elements have lengths that are multiples of four. Without that rule the grammar is
  larger (`unaligned_element_rejected`): a message may end in bytes nothing looks at, so
  nothing else makes its length a multiple of four.
-/
import OscTap.Received.Validate

namespace OscTap.Received

open OscTap.Lib OscTap.Lib.Out OscTap.Osc

namespace Grammar

/-- Whole words, of which only the last ends in NUL. -/
inductive Words : Bytes → Prop
  | last (a b c : UInt8) : Words [a, b, c, 0]
  | more (a b c : UInt8) {d : UInt8} {w : Bytes} : d ≠ 0 → Words w → Words (a :: b :: c :: d :: w)

inductive StrBlock : Bytes → Prop
  | nul (a b c : UInt8) : StrBlock [0, a, b, c]
  | words {w : Bytes} : w.head? ≠ some 0 → Words w → StrBlock w

/-- The encodings of one argument of a tag. -/
def ArgBlock (t : TypeTag) (b : Bytes) : Prop :=
  match t with
  | .trueTag | .falseTag | .nilTag | .infinitumTag | .arrayBeginTag | .arrayEndTag => b = []
  | .int32Tag | .floatTag | .charTag | .rgbaColorTag | .midiMessageTag => b.length = 4
  | .int64Tag | .timeTagTag | .doubleTag => b.length = 8
  | .stringTag | .symbolTag => StrBlock b
  | .blobTag => ∃ n ≤ 0x7FFFFFFC, ∃ content, content.length = roundUp4 n ∧ b = be32 n ++ content

inductive Args : List TypeTag → Bytes → Prop
  | nil : Args [] []
  | cons {t : TypeTag} {ts : List TypeTag} {b bs : Bytes} : ArgBlock t b → Args ts bs → Args (t :: ts) (b ++ bs)

inductive Message : Bytes → Prop
  | bare {addr : Bytes} : StrBlock addr → Message addr
  | noTags {addr : Bytes} (rest : Bytes) : StrBlock addr → Message (addr ++ ch ',' :: 0 :: rest)
  | tags {addr pad args : Bytes} {ts : List TypeTag} (rest : Bytes) : StrBlock addr → ts ≠ [] → Nested bracket ts →
      StrBlock (ch ',' :: (ts.map TypeTag.value ++ 0 :: pad)) → Args ts args →
      Message (addr ++ (ch ',' :: (ts.map TypeTag.value ++ 0 :: pad)) ++ args ++ rest)

mutual
inductive Packet (L : Nat → Prop) : Nat → Bytes → Prop
  | message {d : Nat} {b : Bytes} : b.head? ≠ some (ch '#') → Message b → Packet L d b
  | bundle {d : Nat} {timeTag elements : Bytes} : timeTag.length = 8 → Elements L d elements →
      Packet L (d + 1) (bundleTag ++ timeTag ++ elements)

inductive Elements (L : Nat → Prop) : Nat → Bytes → Prop
  | nil {d : Nat} : Elements L d []
  | cons {d : Nat} {b rest : Bytes} : b.length < 2 ^ 32 → L b.length → Packet L d b → Elements L d rest →
      Elements L d (be32 b.length ++ b ++ rest)
end

end Grammar

open Grammar

/-! ## Blocks are ranges -/

theorem slice_cons {m : Bytes} {p q : Nat} (h : p < q) (hq : q ≤ m.length) :
    ∃ c, m[p]? = some c ∧ slice m p q = c :: slice m (p + 1) q := by
  refine ⟨m[p], List.getElem?_eq_getElem (by omega), ?_⟩
  apply List.ext_getElem?
  intro i
  rw [getElem?_slice]
  match i with
  | 0 => simp [h]
  | i + 1 =>
    simp only [List.getElem?_cons_succ, getElem?_slice]
    split <;> split <;> first | (congr 1; omega) | omega | rfl

theorem slice_words {m : Bytes} {p q : Nat} (h : p + 4 ≤ q) (hq : q ≤ m.length) :
    ∃ a b c d, m[p]? = some a ∧ m[p + 3]? = some d ∧ slice m p q = a :: b :: c :: d :: slice m (p + 4) q := by
  obtain ⟨a, ha, e0⟩ := slice_cons (show p < q by omega) hq
  obtain ⟨b, -, e1⟩ := slice_cons (show p + 1 < q by omega) hq
  obtain ⟨c, -, e2⟩ := slice_cons (show p + 1 + 1 < q by omega) hq
  obtain ⟨d, hd, e3⟩ := slice_cons (show p + 1 + 1 + 1 < q by omega) hq
  exact ⟨a, b, c, d, ha, hd, by rw [e0, e1, e2, e3]⟩

theorem words_slice {m : Bytes} : ∀ (k p : Nat), p + 4 * (k + 1) ≤ m.length → m[p + 4 * k + 3]? = some 0 →
    (∀ i < k, ∃ c, m[p + 4 * i + 3]? = some c ∧ c ≠ 0) → Words (slice m p (p + 4 * (k + 1))) := by
  intro k
  induction k with
  | zero =>
    intro p hl hz _
    obtain ⟨a, b, c, d, -, hd, e⟩ := slice_words (show p + 4 ≤ p + 4 * (0 + 1) by omega) hl
    simp only [Nat.mul_zero, Nat.add_zero] at hz
    rw [hz] at hd; cases hd
    rw [e, show p + 4 * (0 + 1) = p + 4 by omega, slice_self]
    exact .last a b c
  | succ k ih =>
    intro p hl hz hi
    obtain ⟨a, b, c, d, -, hd, e⟩ := slice_words (show p + 4 ≤ p + 4 * (k + 1 + 1) by omega) hl
    obtain ⟨d', hd', hne⟩ := hi 0 (by omega)
    simp only [Nat.mul_zero, Nat.add_zero] at hd'
    rw [hd] at hd'; cases hd'
    rw [e, show p + 4 * (k + 1 + 1) = p + 4 + 4 * (k + 1) by omega]
    refine .more a b c hne (ih (p + 4) (by omega) (by rw [← hz]; congr 1; omega) fun i hik => ?_)
    obtain ⟨x, hx, hxn⟩ := hi (i + 1) (by omega)
    exact ⟨x, by rw [← hx]; congr 1; omega, hxn⟩

theorem words_inv {m w : Bytes} {q : Nat} (hw : Words w) : ∀ {p : Nat}, p ≤ q → q ≤ m.length → slice m p q = w →
    ∃ k, q = p + 4 * (k + 1) ∧ m[p + 4 * k + 3]? = some 0 ∧ ∀ i < k, ∃ c, m[p + 4 * i + 3]? = some c ∧ c ≠ 0 := by
  induction hw with
  | last a b c =>
    intro p hp hq h
    have hl := length_slice (m := m) (p := p) hq
    rw [h] at hl
    simp only [List.length_cons, List.length_nil] at hl
    obtain ⟨_, _, _, d, -, hd, e⟩ := slice_words (show p + 4 ≤ q by omega) hq
    rw [h] at e
    simp only [List.cons.injEq] at e
    exact ⟨0, by omega, by rw [hd, ← e.2.2.2.1], fun i hi => absurd hi (Nat.not_lt_zero i)⟩
  | @more a b c d w hd _ ih =>
    intro p hp hq h
    have hl := length_slice (m := m) (p := p) hq
    rw [h] at hl
    simp only [List.length_cons] at hl
    obtain ⟨_, _, _, d', -, hd', e⟩ := slice_words (show p + 4 ≤ q by omega) hq
    rw [h] at e
    simp only [List.cons.injEq] at e
    obtain ⟨-, -, -, rfl, e⟩ := e
    obtain ⟨k, hk, hz, hi⟩ := ih (p := p + 4) (by omega) hq e.symm
    refine ⟨k + 1, by omega, by rw [← hz]; congr 1; omega, fun i hik => ?_⟩
    match i with
    | 0 => exact ⟨d, by simpa using hd', hd⟩
    | i + 1 =>
      obtain ⟨x, hx, hxn⟩ := hi i (by omega)
      exact ⟨x, by rw [← hx]; congr 1; omega, hxn⟩

theorem Grammar.Words.length_pos {w : Bytes} (h : Words w) : 4 ≤ w.length := by
  cases h <;> simp

/-- The blocks of the grammar are the padded strings the scan finds. -/
theorem isStr4_iff {m : Bytes} {p q : Nat} (hp : p ≤ q) (hq : q ≤ m.length) : IsStr4 m p q ↔
    StrBlock (slice m p q) := by
  constructor
  · intro hx
    rcases hx with ⟨h0, rfl⟩ | ⟨k, rfl, ⟨c, hc, hne⟩, hz, hi⟩
    · obtain ⟨a, b, c, d, ha, -, e⟩ := slice_words (Nat.le_refl (p + 4)) hq
      rw [h0] at ha; cases ha
      rw [e, slice_self]; exact .nul b c d
    · obtain ⟨c', hc', e⟩ := slice_cons (show p < p + 4 * (k + 1) by omega) hq
      rw [hc] at hc'; cases hc'
      refine .words ?_ (words_slice k p hq hz hi)
      rw [e]; simpa using hne
  · intro h
    have hl := length_slice (m := m) (p := p) hq
    generalize hw : slice m p q = w at h hl
    cases h with
    | nul a b c =>
      simp only [List.length_cons, List.length_nil] at hl
      obtain ⟨x, hx, e⟩ := slice_cons (show p < q by omega) hq
      rw [hw, List.cons.injEq] at e
      exact Or.inl ⟨by rw [hx, ← e.1], by omega⟩
    | words hne hww =>
      have := hww.length_pos
      obtain ⟨k, hk, hz, hi⟩ := words_inv hww hp hq hw
      obtain ⟨x, hx, e⟩ := slice_cons (show p < q by omega) hq
      rw [← hw, e] at hne
      exact Or.inr ⟨k, hk, ⟨x, hx, by simpa using hne⟩, hz, hi⟩

theorem argRange_iff {m : Bytes} {t : TypeTag} {p q : Nat} (hp : p ≤ q) (hq : q ≤ m.length) :
    ArgRange m t p q ↔ ArgBlock t (slice m p q) := by
  have hl := length_slice (m := m) (p := p) hq
  cases t
  case stringTag | symbolTag => exact isStr4_iff hp hq
  case blobTag =>
    simp only [ArgRange, ArgBlock]
    constructor
    · intro hx
      rcases hx with ⟨hn, rfl⟩
      refine ⟨word m p, hn, slice m (p + 4) (p + 4 + roundUp4 (word m p)), ?_, ?_⟩
      · rw [length_slice hq]; omega
      · rw [slice_split m (Nat.le_add_right p 4) (by omega), slice_word (by omega)]
    · intro hx
      rcases hx with ⟨n, hn, content, hc, h⟩
      obtain ⟨hle, h1, h2⟩ := slice_eq_append hq hp h
      rw [length_be32] at hle h1 h2
      have hw := word_of_slice h1.symm
      have hc' := congrArg List.length h2
      rw [length_slice hq, hc] at hc'
      rw [Nat.mod_eq_of_lt (by omega)] at hw
      rw [hw]
      exact ⟨hn, by omega⟩
  case trueTag | falseTag | nilTag | infinitumTag | arrayBeginTag | arrayEndTag =>
    simp only [ArgRange, ArgBlock]
    rw [← List.length_eq_zero_iff]
    omega
  all_goals
    simp only [ArgRange, ArgBlock]
    omega

/-- The arguments of a tag string, as the encodings of a list of tags. -/
theorem argsRange_iff {m : Bytes} {e : Nat} (he : e ≤ m.length) : ∀ (tags : Bytes) (p l q l' : Nat), p ≤ e →
    (ArgsRange m e tags p l q l' ↔ p ≤ q ∧ q ≤ e ∧ ∃ ts, tags = ts.map TypeTag.value ∧ depth bracket ts l = some l' ∧
      Args ts (slice m p q)) := by
  intro tags
  induction tags with
  | nil =>
    intro p l q l' hp
    constructor
    · intro h
      cases h with
      | nil => exact ⟨Nat.le_refl _, hp, [], rfl, rfl, by rw [slice_self]; exact .nil⟩
    · intro hx
      rcases hx with ⟨hpq, hq, ts, hts, hd, ha⟩
      obtain rfl : ts = [] := by simpa using hts.symm
      have hl := length_slice (m := m) (p := p) (show q ≤ m.length by omega)
      generalize slice m p q = w at ha hl
      cases ha
      simp only [List.length_nil] at hl
      obtain rfl : q = p := by omega
      cases Option.some.inj hd
      exact .nil _ _
  | cons tag tags ih =>
    intro p l r l'' hp
    constructor
    · intro h
      cases h with
      | @cons _ _ _ _ q l' _ _ hs hr =>
      obtain ⟨t, ht, hl, hra, hqe⟩ := hs
      obtain ⟨hqr, hre, ts, rfl, hd, ha⟩ := (ih q l' r l'' hqe).mp hr
      have hpq := hra.aligned.1
      refine ⟨by omega, hre, t :: ts, by rw [List.map_cons, TypeTag.ofByte_eq_some.mp ht], ?_, ?_⟩
      · simp only [depth, show (bracket t).next l = some l' from hl, Option.bind_some, hd]
      · rw [slice_split m hpq hqr]
        exact .cons ((argRange_iff hpq (by omega)).mp hra) ha
    · intro hx
      rcases hx with ⟨hpr, hre, ts, hts, hd, ha⟩
      cases ts with
      | nil => simp at hts
      | cons t ts =>
        rw [List.map_cons, List.cons.injEq] at hts
        obtain ⟨rfl, rfl⟩ := hts
        generalize hw : slice m p r = w at ha
        cases ha with
        | @cons _ _ b bs hb hbs =>
        obtain ⟨hle, h1, h2⟩ := slice_eq_append (by omega) hpr hw
        simp only [depth] at hd
        cases hn : (bracket t).next l with
        | none => rw [hn] at hd; cases hd
        | some l' =>
          rw [hn, Option.bind_some] at hd
          refine .cons (q := p + b.length) ⟨t, TypeTag.ofByte_value t, hn, ?_, by omega⟩ ?_
          · exact (argRange_iff (by omega) (by omega)).mpr (by rw [← h1]; exact hb)
          · exact (ih (p + b.length) l' r l'' (by omega)).mpr ⟨by omega, hre, ts, rfl, hd, by rw [← h2]; exact hbs⟩

/-! ## Messages and packets are ranges -/

theorem cstrAt_slice {m s : Bytes} {p q : Nat} (h : CStrAt m p s) (hs : p + s.length < q) (hq : q ≤ m.length) :
    slice m p q = s ++ 0 :: slice m (p + s.length + 1) q := by
  induction h with
  | nil h0 =>
    obtain ⟨c, hc, e⟩ := slice_cons (show _ < q by simpa using hs) hq
    rw [h0] at hc; cases hc
    simpa using e
  | @cons p c s hc _ _ ih =>
    simp only [List.length_cons] at hs
    obtain ⟨c', hc', e⟩ := slice_cons (show p < q by omega) hq
    rw [hc] at hc'; cases hc'
    rw [e, ih (by omega), List.length_cons, show p + 1 + s.length + 1 = p + (s.length + 1) + 1 by omega]; rfl

theorem cstrAt_of_slice {m pad : Bytes} {q : Nat} (hq : q ≤ m.length) : ∀ (s : Bytes) (p : Nat), p ≤ q → 0 ∉ s →
    slice m p q = s ++ 0 :: pad → CStrAt m p s ∧ p + s.length < q := by
  intro s
  induction s with
  | nil =>
    intro p hp _ h
    have hl := length_slice (m := m) (p := p) hq
    rw [h] at hl
    simp only [List.nil_append, List.length_cons] at hl
    obtain ⟨c, hc, e⟩ := slice_cons (show p < q by omega) hq
    rw [h, List.nil_append, List.cons.injEq] at e
    exact ⟨.nil (by rw [hc, ← e.1]), by simp; omega⟩
  | cons x s ih =>
    intro p hp h0 h
    have hl := length_slice (m := m) (p := p) hq
    rw [h] at hl
    simp only [List.length_append, List.length_cons] at hl
    simp only [List.mem_cons, not_or] at h0
    obtain ⟨c, hc, e⟩ := slice_cons (show p < q by omega) hq
    rw [h, List.cons_append, List.cons.injEq] at e
    obtain ⟨h1, h2⟩ := ih (p + 1) (by omega) h0.2 e.2.symm
    exact ⟨.cons (by rw [hc, ← e.1]) (Ne.symm h0.1) h1, by simp only [List.length_cons]; omega⟩

theorem values_noNul (ts : List TypeTag) : 0 ∉ ts.map TypeTag.value := by
  simp only [List.mem_map, not_exists, not_and]
  exact fun t _ => TypeTag.value_ne_zero t

theorem isMessage_derives {m : Bytes} {p e : Nat} {r : ReceivedMessage} (he : e ≤ m.length) (ha : (e - p) % 4 = 0)
    (hx : IsMessage m p e r) : Message (slice m p e) := by
  rcases hx with ⟨a, hae, hsa, -, h⟩
  have hpa := hsa.lt
  have haa := hsa.aligned
  have haddr := (isStr4_iff (Nat.le_of_lt hpa) (by omega)).mp hsa
  rw [slice_split m (Nat.le_of_lt hpa) hae]
  rcases h with ⟨rfl, -⟩ | ⟨hlt, hc, hz, -⟩ | ⟨hlt, hc, b, hbe, hsb, tags, hne, htags, ⟨q, hq⟩, -⟩
  · rw [slice_self, List.append_nil]; exact .bare haddr
  · obtain ⟨x, hx, e1⟩ := slice_cons hlt he
    obtain ⟨y, hy, e2⟩ := slice_cons (show a + 1 < e by omega) he
    rw [hc] at hx; cases hx
    rw [hz] at hy; cases hy
    rw [e1, e2]; exact .noTags _ haddr
  · obtain ⟨x, hx, e1⟩ := slice_cons hsb.lt (show b ≤ m.length by omega)
    rw [hc] at hx; cases hx
    obtain ⟨hbq, hqe, ts, rfl, hd, hargs⟩ := (argsRange_iff he _ _ _ _ _ hbe).mp hq
    -- the tags end in front of the block's last byte, which is NUL
    have hin : a + 1 + (ts.map TypeTag.value).length < b := by
      rcases hsb with ⟨h0, -⟩ | ⟨k, rfl, -, hk, -⟩
      · rw [hc] at h0; exact absurd (Option.some.inj h0) (by decide)
      · obtain ⟨s, hs, hle⟩ := CStrAt.exists_of_nul (show a + 1 ≤ a + 4 * k + 3 by omega) hk
        rw [htags.unique hs]; omega
    have htb := cstrAt_slice htags hin (by omega)
    have hsb' := (isStr4_iff (Nat.le_of_lt hsb.lt) (by omega)).mp hsb
    rw [slice_split m (Nat.le_of_lt hsb.lt) hbe, slice_split m hbq hqe, ← List.append_assoc, ← List.append_assoc]
    rw [e1, htb] at hsb' ⊢
    exact .tags _ haddr (fun h => hne (by rw [h]; rfl)) (nested_iff_depth.mpr hd) hsb' hargs

theorem isMessage_of_derives {m : Bytes} {p e : Nat} (hp : p ≤ e) (he : e ≤ m.length) (h : Message (slice m p e)) :
    ∃ r, IsMessage m p e r := by
  generalize hw : slice m p e = w at h
  cases h with
  | bare haddr =>
    rw [← hw] at haddr
    exact ⟨⟨p, none, none, none, 0⟩, e, Nat.le_refl _, (isStr4_iff hp he).mpr haddr, rfl,
      Or.inl ⟨rfl, rfl, rfl, rfl⟩⟩
  | @noTags addr rest haddr =>
    obtain ⟨hle, h1, h2⟩ := slice_eq_append he hp hw
    have hl := congrArg List.length h2
    rw [length_slice he] at hl
    simp only [List.length_cons] at hl
    obtain ⟨x, hx, e1⟩ := slice_cons (show p + addr.length < e by omega) he
    obtain ⟨y, hy, e2⟩ := slice_cons (show p + addr.length + 1 < e by omega) he
    rw [e1, e2] at h2
    simp only [List.cons.injEq] at h2
    rw [h1] at haddr
    exact ⟨⟨p, none, none, none, 0⟩, p + addr.length, hle, (isStr4_iff (by omega) (by omega)).mpr haddr, rfl,
      Or.inr (Or.inl ⟨by omega, by rw [hx, h2.1], by rw [hy, h2.2.1], rfl, rfl, rfl⟩)⟩
  | @tags addr pad args ts rest haddr hne hnest htb hargs =>
    rw [List.append_assoc, List.append_assoc] at hw
    obtain ⟨hle, h1, h2⟩ := slice_eq_append he hp hw
    obtain ⟨hle2, h3, h4⟩ := slice_eq_append he hle h2.symm
    obtain ⟨hle3, h5, -⟩ := slice_eq_append he hle2 h4.symm
    generalize hb : p + addr.length + (ch ',' :: (ts.map TypeTag.value ++ 0 :: pad)).length = b at *
    simp only [List.length_cons] at hb
    obtain ⟨x, hx, e1⟩ := slice_cons (show p + addr.length < b by omega) (show b ≤ m.length by omega)
    rw [e1, List.cons.injEq] at h3
    obtain ⟨htags, -⟩ := cstrAt_of_slice (show b ≤ m.length by omega) (ts.map TypeTag.value)
      (p + addr.length + 1) (by omega) (values_noNul ts) h3.2.symm
    rw [h1] at haddr
    rw [h3.2, h3.1, ← e1] at htb
    have hq := (argsRange_iff he (ts.map TypeTag.value) b 0 (b + args.length) 0 hle2).mpr
      ⟨by omega, hle3, ts, rfl, nested_iff_depth.mp hnest, by rw [← h5]; exact hargs⟩
    exact ⟨⟨p, _, _, _, 0⟩, p + addr.length, hle, (isStr4_iff (by omega) (by omega)).mpr haddr, rfl,
      Or.inr (Or.inr ⟨by omega, by rw [hx, h3.1], b, hle2, (isStr4_iff (by omega) (by omega)).mpr htb,
        ts.map TypeTag.value, by simpa using hne, htags, ⟨_, hq⟩, rfl, rfl, rfl⟩)⟩

/-- A range that is not a bundle: the gate and the grammar see the same messages. -/
theorem message_iff {m : Bytes} {p size : Nat} (hs : SizeOk size) (hl : p + size ≤ m.length) :
    (m[p]? ≠ some (ch '#') ∧ ∃ r, IsMessage m p (p + size) r) ↔
      (slice m p (p + size)).head? ≠ some (ch '#') ∧ Message (slice m p (p + size)) := by
  obtain ⟨h1, h2, h3⟩ := hs
  obtain ⟨c, hc, e⟩ := slice_cons (show p < p + size by omega) hl
  have hhead : (slice m p (p + size)).head? = m[p]? := by rw [e, List.head?_cons, hc]
  rw [hhead]
  refine and_congr_right fun _ => ⟨fun h => ?_, fun h => isMessage_of_derives (by omega) hl h⟩
  obtain ⟨r, hr⟩ := h
  exact isMessage_derives hl (by omega) hr

theorem Grammar.StrBlock.length_pos {b : Bytes} (h : StrBlock b) : 4 ≤ b.length := by
  cases h with
  | nul a b c => simp
  | words _ h => exact h.length_pos

theorem Grammar.Packet.length_pos {L : Nat → Prop} {d : Nat} {b : Bytes} (h : Packet L d b) : 4 ≤ b.length := by
  cases h with
  | message _ h =>
    cases h with
    | bare h => exact h.length_pos
    | noTags _ h => have := h.length_pos; simp only [List.length_append]; omega
    | tags _ h _ _ _ _ => have := h.length_pos; simp only [List.length_append]; omega
  | bundle h _ => simp only [List.length_append, h]; omega

def aligned (n : Nat) : Prop := n % 4 = 0

/-- The elements of a bundle, once its packets are known at one bound less. -/
theorem elements_iff {m : Bytes} {d e : Nat} (he : e ≤ m.length)
    (ih : ∀ p size, p + size ≤ m.length →
      (Valid m d p (size : Nat) ↔ SizeOk size ∧ Packet aligned d (slice m p (p + size)))) :
    ∀ (n p : Nat), e - p ≤ n → p ≤ e → e - p < 2 ^ 31 →
      ((∃ es, Framed m e p es ∧ ∀ x ∈ es, Valid m d x.1 x.2) ↔ Elements aligned d (slice m p e)) := by
  intro n
  induction n with
  | zero =>
    intro p hn hp hb
    obtain rfl : p = e := by omega
    rw [slice_self]
    exact ⟨fun _ => .nil, fun _ => ⟨[], .nil, by simp⟩⟩
  | succ n ihn =>
    intro p hn hp hb
    constructor
    · intro hx
      rcases hx with ⟨es, hf, hv⟩
      cases hf with
      | nil => rw [slice_self]; exact .nil
      | @cons _ es h1 h4 h2 hf =>
        have hx := (ih (p + 4) (word m p) (by omega)).mp (hv _ (List.mem_cons_self ..))
        have hr := (ihn (p + 4 + word m p) (by omega) h2 (by omega)).mp
          ⟨es, hf, fun x hx => hv x (List.mem_cons_of_mem _ hx)⟩
        have hl : (slice m (p + 4) (p + 4 + word m p)).length = word m p := by rw [length_slice (by omega)]; omega
        rw [slice_split m (Nat.le_add_right p 4) h1, slice_word (by omega),
          slice_split m (Nat.le_add_right (p + 4) (word m p)) h2,
          ← List.append_assoc]
        have := Elements.cons (L := aligned) (b := slice m (p + 4) (p + 4 + word m p)) (by rw [hl]; omega)
          (by rw [hl]; exact h4) hx.2 hr
        rwa [hl] at this
    · intro h
      generalize hw : slice m p e = w at h
      cases h with
      | nil =>
        have hl := length_slice (m := m) (p := p) he
        rw [hw, List.length_nil] at hl
        obtain rfl : p = e := by omega
        exact ⟨[], .nil, by simp⟩
      | @cons _ b rest hlt hL hpk hr =>
        rw [List.append_assoc] at hw
        obtain ⟨hle, h1, h2⟩ := slice_eq_append he hp hw
        rw [length_be32] at hle h1 h2
        obtain ⟨hle2, h3, h4⟩ := slice_eq_append he hle h2.symm
        have hword : word m p = b.length := by rw [word_of_slice h1.symm, Nat.mod_eq_of_lt hlt]
        have hpos := hpk.length_pos
        have hal : b.length % 4 = 0 := hL
        rw [h4] at hr
        obtain ⟨es, hf, hv⟩ := (ihn (p + 4 + b.length) (by omega) hle2 (by omega)).mpr hr
        refine ⟨(p + 4, word m p) :: es, .cons hle (by rw [hword]; exact hal) (by omega) (by rw [hword]; exact hf), ?_⟩
        intro x hx
        rcases List.mem_cons.mp hx with rfl | hx
        · rw [hword]
          refine (ih (p + 4) b.length (by omega)).mpr ⟨⟨by omega, by omega, by omega⟩, ?_⟩
          rw [← h3]; exact hpk
        · exact hv x hx

/-- What the gate accepts in a range is what the grammar derives from its bytes. -/
theorem valid_iff {m : Bytes} : ∀ (d p size : Nat), p + size ≤ m.length →
    (Valid m d p (size : Nat) ↔ SizeOk size ∧ Packet aligned d (slice m p (p + size))) := by
  intro d
  -- a message, at any bound
  have hmsg : ∀ {d p size : Nat}, p + size ≤ m.length → SizeOk size → m[p]? ≠ some (ch '#') →
      (∃ r, IsMessage m p (p + size) r) → Packet aligned d (slice m p (p + size)) := fun hl hs hh hm =>
    have h := (message_iff hs hl).mp ⟨hh, hm⟩
    .message h.1 h.2
  have hmsg' : ∀ {d p size : Nat}, p + size ≤ m.length → SizeOk size → (slice m p (p + size)).head? ≠ some (ch '#') →
      Message (slice m p (p + size)) → Valid m d p (size : Nat) := fun hl hs hh hm => by
    obtain ⟨hh', r, hr⟩ := (message_iff hs hl).mpr ⟨hh, hm⟩
    exact .message hs hh' (by simpa using hr)
  induction d with
  | zero =>
    intro p size hl
    constructor
    · intro h
      cases h with
      | message hs hh hm =>
        simp only [Int.toNat_natCast] at hm
        exact ⟨hs, hmsg hl hs hh ⟨_, hm⟩⟩
    · intro hx
      rcases hx with ⟨hs, h⟩
      cases h with
      | message hh hm => exact hmsg' hl hs hh hm
  | succ d ih =>
    intro p size hl
    constructor
    · intro h
      cases h with
      | message hs hh hm =>
        simp only [Int.toNat_natCast] at hm
        exact ⟨hs, hmsg hl hs hh ⟨_, hm⟩⟩
      | bundle hb hv =>
        obtain ⟨⟨h1, h2, h3⟩, h16, htag, hf⟩ := hb
        simp only [Int.toNat_natCast] at hf
        refine ⟨⟨h1, h2, h3⟩, ?_⟩
        rw [slice_split m (show p ≤ p + 16 by omega) (show p + 16 ≤ p + size by omega),
          slice_split m (show p ≤ p + 8 by omega) (show p + 8 ≤ p + 16 by omega), htag]
        refine .bundle (by rw [length_slice (by omega)]; omega) ?_
        exact (elements_iff hl ih _ (p + 16) (Nat.le_refl _) (by omega) (by omega)).mp ⟨_, hf, hv⟩
    · intro hx
      rcases hx with ⟨hs, h⟩
      have hs' := hs
      obtain ⟨h1, h2, h3⟩ := hs
      generalize hw : slice m p (p + size) = w at h
      cases h with
      | message hh hm =>
        rw [← hw] at hh hm
        exact hmsg' hl hs' hh hm
      | @bundle _ timeTag elements htt hel =>
        rw [List.append_assoc] at hw
        obtain ⟨hle, h4, h5⟩ := slice_eq_append hl (Nat.le_add_right p size) hw
        obtain ⟨hle2, -, h6⟩ := slice_eq_append hl hle h5.symm
        have h8 : bundleTag.length = 8 := rfl
        rw [htt, h8] at hle2 h6
        rw [h8] at h4
        rw [h6] at hel
        obtain ⟨es, hf, hv⟩ := (elements_iff hl ih _ (p + 8 + 8) (Nat.le_refl _) hle2 (by omega)).mpr hel
        exact .bundle ⟨hs', by omega, h4.symm, by simpa using hf⟩ hv

/-- The gate returns null exactly on the words of the grammar, elements of aligned length. -/
theorem accepts_iff (b : Bytes) (d : Nat) :
    tryValidatePacket b 0 b.length d = ok () ↔
      0 < b.length ∧ b.length ≤ 0x7FFFFFFC ∧ b.length % 4 = 0 ∧ Packet aligned d b := by
  have hl : 0 + b.length ≤ b.length := by omega
  rw [(tryValidatePacket_decides d 0 b.length (by simp)).iff, valid_iff d 0 b.length hl, Nat.zero_add, slice_all]
  simp only [SizeOk]
  constructor
  · intro hx
    rcases hx with ⟨⟨h1, h2, h3⟩, h4⟩
    exact ⟨by omega, by omega, by omega, h4⟩
  · intro hx
    rcases hx with ⟨h1, h2, h3, h4⟩
    exact ⟨⟨by omega, by omega, by omega⟩, h4⟩

def sixBytes : Bytes := [ch '/', ch 'a', 0, 0, ch ',', 0]

/-- A bundle of two such elements: 36 bytes. -/
def unalignedBundle : Bytes :=
  bundleTag ++ be64 1 ++ (be32 sixBytes.length ++ sixBytes ++ (be32 sixBytes.length ++ sixBytes ++ []))

theorem unalignedBundle_derives : Packet (fun _ => True) 1 unalignedBundle := by
  have hm : Packet (fun _ => True) 0 sixBytes :=
    .message (by decide) (@Message.noTags [ch '/', ch 'a', 0, 0] [] (.words (by decide) (.last _ _ _)))
  exact .bundle rfl (.cons (by decide) trivial hm (.cons (by decide) trivial hm .nil))

/-- Without the rule for element lengths the grammar derives packets the gate rejects. -/
theorem unaligned_element_rejected :
    ¬ ∀ (b : Bytes) (d : Nat), tryValidatePacket b 0 b.length d = ok () ↔
      0 < b.length ∧ b.length ≤ 0x7FFFFFFC ∧ b.length % 4 = 0 ∧ Packet (fun _ => True) d b := by
  intro h
  have hok := (h unalignedBundle 1).mpr ⟨by decide, by decide, by decide, unalignedBundle_derives⟩
  have hv := (tryValidatePacket_decides 1 0 _ (by decide)).iff.mp hok
  cases hv with
  | message _ hh _ => exact hh (by decide)
  | bundle hb _ =>
    have hf := hb.2.2.2
    cases hf with
    | cons _ h4 _ _ => exact absurd h4 (by decide)

end OscTap.Received
