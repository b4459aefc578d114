/-
  OscTap.Received.Encoded — encoded packets are in the language of the gate.

  Every block of `PacketTree.enc` is the block of the grammar with the same name.
  Proved: `enc_derives`, and from it `enc_accepted`: the gate accepts the encoding of a
  sendable packet at every bound that covers its nesting.
-/
import OscTap.Received.Grammar

namespace OscTap.Received

open OscTap.Lib OscTap.Lib.Out OscTap.Osc Grammar

/-! ## Blocks -/

theorem padded_cons (a b c d : UInt8) (w : Bytes) : padded (a :: b :: c :: d :: w) = a :: b :: c :: d :: padded w := by
  have e : padLen (a :: b :: c :: d :: w).length = padLen w.length := by
    simp only [List.length_cons, padLen]; omega
  rw [padded, e, padded]; rfl

theorem words_cons {a b c d : UInt8} {w : Bytes} (hw : w ≠ []) : Words (a :: b :: c :: d :: w) ↔ d ≠ 0 ∧ Words w := by
  constructor
  · intro h
    cases h with
    | last => exact absurd rfl hw
    | more _ _ _ hd h => exact ⟨hd, h⟩
  · exact fun h => .more a b c h.1 h.2

/-- No byte that ends a word of the string is NUL. -/
def NoNulEnd (s : Bytes) : Prop := ∀ i, s[4 * i + 3]? ≠ some 0

theorem noNulEnd_cons {a b c d : UInt8} {s : Bytes} : NoNulEnd (a :: b :: c :: d :: s) ↔ d ≠ 0 ∧ NoNulEnd s := by
  have hat : ∀ i, (a :: b :: c :: d :: s)[4 * (i + 1) + 3]? = s[4 * i + 3]? := fun i => by
    rw [show 4 * (i + 1) + 3 = 4 * i + 3 + 1 + 1 + 1 + 1 by omega]
    simp only [List.getElem?_cons_succ]
  constructor
  · intro h
    exact ⟨fun hd => h 0 (congrArg some hd), fun i => hat i ▸ h (i + 1)⟩
  · intro h i
    cases i with
    | zero => exact fun hd => h.1 (Option.some.inj hd)
    | succ i => exact hat i ▸ h.2 i

theorem padded_ne_nil (s : Bytes) : padded (s ++ [0]) ≠ [] := by simp [padded]

/-- A string and its NUL, padded: words of which only the last ends in NUL. -/
theorem words_padded : ∀ (s : Bytes), Words (padded (s ++ [0])) ↔ NoNulEnd s
  | [] => iff_of_true (.last 0 0 0) fun i => by simp
  | [a] => iff_of_true (.last a 0 0) fun i => by simp
  | [a, b] => iff_of_true (.last a b 0) fun i => by simp
  | [a, b, c] => by
    rw [show [a, b, c] ++ [(0 : UInt8)] = a :: b :: c :: 0 :: [] from rfl, padded_cons, show padded [] = [] from rfl]
    exact iff_of_true (.last a b c) fun i => by simp
  | a :: b :: c :: d :: s => by
    rw [show a :: b :: c :: d :: s ++ [(0 : UInt8)] = a :: b :: c :: d :: (s ++ [0]) from rfl, padded_cons,
      words_cons (padded_ne_nil s), noNulEnd_cons, words_padded s]

/-- A string whose block is one padded string: it fits in one word if its first byte is NUL. -/
def StaysWhole (s : Bytes) : Prop := (s.head? = some 0 → s.length ≤ 3) ∧ NoNulEnd s

instance (s : Bytes) : Decidable (NoNulEnd s) :=
  decidable_of_iff (∀ i < s.length, s[4 * i + 3]? ≠ some 0) ⟨fun h i hi => by
    have hlt := (List.getElem?_eq_some_iff.mp hi).1
    exact h i (by omega) hi, fun h i _ => h i⟩

instance (s : Bytes) : Decidable (StaysWhole s) := inferInstanceAs (Decidable (_ ∧ _))

theorem strBlock_whole {s : Bytes} : StrBlock (strBlock s) ↔ StaysWhole s := by
  have hlen : (strBlock s).length = s.length + 1 + padLen (s.length + 1) := by
    rw [strBlock, length_padded, List.length_append, List.length_singleton]
  constructor
  · intro h
    rw [strBlock] at h hlen
    generalize hw : padded (s ++ [0]) = w at h
    cases h with
    | nul a b c =>
      have hl := congrArg List.length hw
      rw [hlen, List.length_cons, List.length_cons, List.length_cons, List.length_singleton] at hl
      refine ⟨fun _ => by omega, fun i hi => ?_⟩
      have := (List.getElem?_eq_some_iff.mp hi).1
      omega
    | words hne hwords =>
      refine ⟨fun hz => absurd ?_ hne, (words_padded s).mp (hw ▸ hwords)⟩
      obtain ⟨rest, rfl⟩ := List.head?_eq_some_iff.mp hz
      rw [← hw]
      rfl
  · intro h
    cases s with
    | nil => exact .nul 0 0 0
    | cons c s =>
      by_cases hc : c = 0
      · have hs : s.length ≤ 2 := Nat.le_of_succ_le_succ (h.1 (congrArg some hc))
        subst hc
        match s, hs with
        | [], _ => exact .nul 0 0 0
        | [a], _ => exact .nul a 0 0
        | [a, b], _ =>
          rw [show strBlock [0, a, b] = padded [0, a, b, 0] from rfl, padded_cons, show padded [] = [] from rfl]
          exact .nul a b 0
      · exact .words (fun hz => hc (Option.some.inj hz)) ((words_padded _).mpr h.2)

/-- Whole words, of which the last ends in NUL, and others may. -/
def Ended (w : Bytes) : Prop := w.length % 4 = 0 ∧ w.getLast? = some 0

theorem strBlock_ended (s : Bytes) : Ended (strBlock s) := by
  refine ⟨by rw [strBlock, length_padded]; exact padLen_mod _, ?_⟩
  rw [strBlock, padded, List.getLast?_append, List.getLast?_replicate, List.getLast?_append]
  split <;> rfl

theorem Ended.pos {w : Bytes} (h : Ended w) : 4 ≤ w.length := by
  have hne : w ≠ [] := fun e => by rw [e] at h; exact absurd h.2 (by simp)
  have := List.length_pos_iff.mpr hne
  have := h.1
  omega

theorem Ended.append {w w' : Bytes} (h : Ended w') (hw : w.length % 4 = 0) : Ended (w ++ w') := by
  have hne : w' ≠ [] := fun e => by rw [e] at h; exact absurd h.2 (by simp)
  refine ⟨?_, by rw [List.getLast?_append_of_ne_nil _ hne]; exact h.2⟩
  rw [List.length_append]
  have := h.1
  omega

theorem Ended.tail {a b c d : UInt8} {w : Bytes} (h : Ended (a :: b :: c :: d :: w)) : (w = [] ∧ d = 0) ∨ Ended w := by
  obtain ⟨hl, h0⟩ := h
  cases w with
  | nil => exact .inl ⟨rfl, Option.some.inj h0⟩
  | cons x w =>
    refine .inr ⟨?_, ?_⟩
    · simp only [List.length_cons] at hl ⊢
      omega
    · simpa only [List.getLast?_cons_cons] using h0

/-- The words up to the first that ends in NUL, and the words that those hide. -/
theorem Ended.words : ∀ {w : Bytes}, Ended w → ∃ x y, w = x ++ y ∧ Words x ∧ (y = [] ∨ Ended y)
  | [], h => by have := h.pos; simp at this
  | [_], h => by have := h.pos; simp at this
  | [_, _], h => by have := h.pos; simp at this
  | [_, _, _], h => by have := h.pos; simp at this
  | a :: b :: c :: d :: w, h => by
    by_cases hd : d = 0
    · subst hd
      exact ⟨[a, b, c, 0], w, rfl, .last a b c, h.tail.imp And.left id⟩
    · obtain ⟨x, y, rfl, hx, hy⟩ := Ended.words (h.tail.resolve_left fun h => hd h.2)
      exact ⟨a :: b :: c :: d :: x, y, rfl, .more a b c hd hx, hy⟩

/-- What a reader finds in such a block: one padded string, and what that hides. -/
theorem Ended.first {w : Bytes} (h : Ended w) : ∃ x y, w = x ++ y ∧ StrBlock x ∧ (y = [] ∨ Ended y) := by
  by_cases hz : w.head? = some 0
  · have := h.pos
    match w, this with
    | a :: b :: c :: d :: w, _ =>
      obtain rfl : a = 0 := Option.some.inj hz
      exact ⟨[0, b, c, d], w, rfl, .nul b c d, h.tail.imp And.left id⟩
  · obtain ⟨x, y, rfl, hx, hy⟩ := h.words
    refine ⟨x, y, rfl, .words (fun hx0 => hz ?_) hx, hy⟩
    rw [List.head?_append, hx0]
    rfl

/-- A string that does not stay whole hides something. -/
theorem strBlock_hides {s : Bytes} (h : ¬ StaysWhole s) : ∃ x y, strBlock s = x ++ y ∧ StrBlock x ∧ Ended y := by
  obtain ⟨x, y, hxy, hx, rfl | hy⟩ := (strBlock_ended s).first
  · rw [List.append_nil] at hxy
    exact absurd (strBlock_whole.mp (hxy ▸ hx)) h
  · exact ⟨x, y, hxy, hx, hy⟩

theorem StaysWhole.of_noNul {s : Bytes} (h : 0 ∉ s) : StaysWhole s :=
  ⟨fun he => absurd (List.mem_of_mem_head? he) h, fun _ he => h (List.mem_of_getElem? he)⟩

theorem strBlock_derives {s : Bytes} (h : 0 ∉ s) : StrBlock (strBlock s) := strBlock_whole.mpr (.of_noNul h)

theorem length_padded_eq {b : Bytes} (h : b.length ≤ 0x7FFFFFFC) : (padded b).length = roundUp4 b.length := by
  rw [length_padded, roundUp4_of_lt (by omega)]
  unfold padLen; omega

theorem argBlock_enc {v : ArgValue} (h : v.Sendable) : ArgBlock v.tag v.enc := by
  cases v with
  | bool b => cases b <;> rfl
  | string s => exact strBlock_derives h
  | symbol s => exact strBlock_derives h
  | blob data => exact ⟨data.length, h, padded data, length_padded_eq h, rfl⟩
  | _ => rfl

theorem args_derive {arguments : List ArgValue} (h : ∀ v ∈ arguments, v.Sendable) :
    Args (arguments.map ArgValue.tag) (arguments.flatMap ArgValue.enc) := by
  induction arguments with
  | nil => exact .nil
  | cons v vs ih =>
    exact .cons (argBlock_enc (h v (List.mem_cons_self ..))) (ih fun w hw => h w (List.mem_cons_of_mem _ hw))

theorem tagBytes_eq (arguments : List ArgValue) :
    tagBytes arguments = (arguments.map ArgValue.tag).map TypeTag.value := by
  simp [tagBytes]

theorem tagBytes_noNul (arguments : List ArgValue) : 0 ∉ tagBytes arguments := by
  rw [tagBytes_eq]; exact values_noNul _

/-- The type tag block: ',', the tags, a NUL and the padding. -/
theorem tagBlock_eq (tags : Bytes) : ∃ pad, tagBlock tags = ch ',' :: (tags ++ 0 :: pad) := by
  refine ⟨List.replicate (padLen (ch ',' :: tags ++ [0]).length) 0, ?_⟩
  rw [tagBlock, strBlock, padded, List.append_assoc, List.cons_append]
  rfl

theorem tagBlock_derives (arguments : List ArgValue) : StrBlock (tagBlock (tagBytes arguments)) := by
  refine strBlock_derives fun h => ?_
  rcases List.mem_cons.mp h with h | h
  · exact absurd h (by decide)
  · exact tagBytes_noNul arguments h

/-! ## Packets -/

theorem message_derives {address : Bytes} {arguments : List ArgValue}
    (h : (PacketTree.message address arguments).Sendable) :
    Message (PacketTree.message address arguments).enc := by
  rw [PacketTree.Sendable] at h
  obtain ⟨⟨ha, -⟩, hv, hn⟩ := h
  rw [PacketTree.enc]
  cases arguments with
  | nil =>
    rw [List.flatMap_nil, List.append_nil]
    exact .noTags [0, 0] (strBlock_derives ha)
  | cons v vs =>
    obtain ⟨pad, hpad⟩ := tagBlock_eq (tagBytes (v :: vs))
    have hblock := tagBlock_derives (v :: vs)
    rw [hpad, tagBytes_eq] at hblock
    have := Message.tags [] (strBlock_derives ha) (by simp) hn hblock (args_derive hv)
    rw [hpad, tagBytes_eq]
    simpa using this

theorem head_strBlock {address : Bytes} (h : SendableAddress address) (rest : Bytes) :
    (strBlock address ++ rest).head? ≠ some (ch '#') := by
  cases address with
  | nil => exact fun e => absurd (Option.some.inj e) (by decide)
  | cons c cs => exact h.2

theorem enc_head {address : Bytes} {arguments : List ArgValue} (h : SendableAddress address) :
    (PacketTree.message address arguments).enc.head? ≠ some (ch '#') := by
  rw [PacketTree.enc, List.append_assoc]
  exact head_strBlock h _

theorem length_strBlock_mod (s : Bytes) : (strBlock s).length % 4 = 0 := by
  rw [strBlock, length_padded]; exact padLen_mod _

theorem length_be32_mod (n : Nat) : (be32 n).length % 4 = 0 := by rw [length_be32]

theorem length_be64_mod (n : Nat) : (be64 n).length % 4 = 0 := by rw [length_be64]

theorem length_blob_mod (n : Nat) (data : Bytes) : (be32 n ++ padded data).length % 4 = 0 := by
  rw [List.length_append, length_be32, length_padded]
  have := padLen_mod data.length
  omega

theorem length_enc_mod (v : ArgValue) : v.enc.length % 4 = 0 := by
  cases v with
  | int32 v | float v | char v | rgbaColor v | midiMessage v => exact length_be32_mod _
  | int64 v | timeTag v | double v => exact length_be64_mod _
  | string s => exact length_strBlock_mod s
  | symbol s => exact length_strBlock_mod s
  | blob data => exact length_blob_mod _ data
  | _ => rfl

/-- Every encoding has a length that is a multiple of four. -/
theorem enc_aligned (t : PacketTree) : t.enc.length % 4 = 0 := by
  induction t using PacketTree.induction with
  | message address arguments =>
    have h1 := length_strBlock_mod address
    have h2 : (tagBlock (tagBytes arguments)).length % 4 = 0 := length_strBlock_mod _
    have h3 : (arguments.flatMap ArgValue.enc).length % 4 = 0 := by
      induction arguments with
      | nil => rfl
      | cons v vs ih =>
        have := length_enc_mod v
        have := ih (length_strBlock_mod _)
        rw [List.flatMap_cons, List.length_append]; omega
    rw [PacketTree.enc, List.length_append, List.length_append]; omega
  | bundle timeTag elements ih =>
    have h : (PacketTree.encElements elements).length % 4 = 0 := by
      induction elements with
      | nil => rfl
      | cons e es ihs =>
        have := ih e (List.mem_cons_self ..)
        have := ihs fun e' he => ih e' (List.mem_cons_of_mem _ he)
        rw [PacketTree.encElements, List.length_append, List.length_append, length_be32]; omega
    rw [PacketTree.enc, List.length_append, List.length_append, length_be64]
    show (8 + 8 + _) % 4 = 0
    omega

theorem enc_derives (t : PacketTree) : ∀ {d : Nat}, t.Sendable → t.nesting ≤ d → t.enc.length < 2 ^ 32 →
    Packet aligned d t.enc := by
  induction t using PacketTree.induction with
  | message address arguments =>
    intro d hs _ _
    refine .message (enc_head ?_) (message_derives hs)
    rw [PacketTree.Sendable] at hs
    exact hs.1
  | bundle timeTag elements ih =>
    intro d hs hd hl
    rw [PacketTree.Sendable, PacketTree.allSendable_iff] at hs
    rw [PacketTree.nesting] at hd
    obtain ⟨d, rfl⟩ : ∃ d', d = d' + 1 := ⟨d - 1, by omega⟩
    rw [PacketTree.enc] at hl ⊢
    refine .bundle (length_be64 _) ?_
    rw [List.length_append] at hl
    have hl' : (PacketTree.encElements elements).length < 2 ^ 32 := by omega
    have hd' : PacketTree.nesting.nestingOf elements ≤ d := by omega
    clear hl hd
    induction elements with
    | nil => exact .nil
    | cons e es ihs =>
      rw [PacketTree.encElements] at hl' ⊢
      rw [PacketTree.nesting.nestingOf] at hd'
      rw [List.length_append, List.length_append, length_be32] at hl'
      have he := List.mem_cons_self (a := e) (l := es)
      exact .cons (by omega) (enc_aligned e) (ih e he (hs e he) (by omega) (by omega))
        (ihs (fun e' h => ih e' (List.mem_cons_of_mem _ h)) (fun e' h => hs e' (List.mem_cons_of_mem _ h))
          (by omega) (by omega))

theorem enc_pos (t : PacketTree) : 0 < t.enc.length := by
  cases t with
  | message address arguments =>
    rw [PacketTree.enc, List.length_append, List.length_append, strBlock, length_padded, List.length_append]
    simp only [List.length_cons, List.length_nil]; omega
  | bundle timeTag elements =>
    rw [PacketTree.enc, List.length_append, List.length_append, length_be64]; omega

/-- The gate accepts what a packet is encoded as. -/
theorem enc_accepted {t : PacketTree} {d : Nat} (hs : t.Sendable) (hd : t.nesting ≤ d)
    (hl : t.enc.length ≤ 0x7FFFFFFC) :
    tryValidatePacket t.enc 0 t.enc.length d = ok () := by
  have hpos := enc_pos t
  have hal := enc_aligned t
  have hin : 0 + t.enc.length ≤ t.enc.length := by omega
  rw [(tryValidatePacket_decides d 0 t.enc.length (by simp)).iff, valid_iff d 0 t.enc.length hin,
    Nat.zero_add, slice_all]
  exact ⟨⟨by omega, by omega, by omega⟩, enc_derives t hs hd (by omega)⟩

end OscTap.Received
