/-
  OscTap.Outbound.EmbeddedNul — strings with NUL bytes in them, and the arguments behind them.

  The writer pads a string by its length. The reader ends it at the first word that ends in
  NUL, or behind one word if it starts with NUL. A `std::string`, a `string_view` and the
  address of `BeginMessageN` may have such a word inside; what is behind it is read as the
  following arguments, or as the tags.

  The reader never catches up: the words between it and the writer always include one that
  ends in NUL (`Behind`), since an argument read back with its value takes no more of those
  than were written for it. Proved: `place_exact`: a message can go on with any arguments if
  and only if its strings stay whole; `shifted`.
-/
import Mathlib.Data.Finset.Card
import OscTap.Outbound.Message

namespace OscTap.Outbound

open OscTap.Lib OscTap.Lib.Out OscTap.Osc OscTap.Received
open OscTap.Received.Grammar (StrBlock Words)

/-- Arguments that can be sent in one packet: their arrays are balanced, the bytes of their
    blobs are there, and the message has the size of a packet. -/
structure Packable (address : Bytes) (operands : List Operand) : Prop where
  balanced : Nested bracket (operands.map Operand.tag)
  copies : ∀ rhs ∈ operands, rhs.Copies
  size : (messageBytes address operands).length ≤ oscBundleElementSizeMax

/-- And each char array holds a C string up to its last byte. -/
structure Sent (address : Bytes) (operands : List Operand) : Prop extends Packable address operands where
  literals : ∀ ref, .charArray ref ∈ operands → ∃ s : CStr, ref = s.bytes ++ [0]

/-- In every buffer: a call throws, or a `ReceivedMessage` over the finished packet shows what
    was streamed, each string up to its first NUL. -/
def Faithful (address : Bytes) (operands : List Operand) : Prop :=
  ∀ buffer : Bytes, Sat (runAll apply (messageOps address operands) (.mk' buffer))
    (fun s => readMessage s.packet 0 s.size = ok (sent address operands)) (fun _ => True)

variable {m address : Bytes} {operands : List Operand}

/-- The calls write the message, so a read of its bytes decides. -/
theorem Packable.faithful_read (h : Packable address operands) : Faithful address operands ↔
    readMessage (messageBytes address operands) 0 (messageBytes address operands).length =
      ok (sent address operands) := by
  have hsize := h.size
  rw [oscBundleElementSizeMax] at hsize
  constructor
  · intro hf
    have hrun := message_streams h.copies hsize (List.replicate (messageBytes address operands).length 0)
    rw [List.length_replicate, if_neg (Nat.lt_irrefl _)] at hrun
    obtain ⟨s, he, -, hs, hp⟩ := hrun
    have := hf (List.replicate (messageBytes address operands).length 0)
    rw [he, Sat, hs, hp] at this
    exact this
  · intro hr buffer
    have hrun := message_streams h.copies hsize buffer
    split at hrun
    · obtain ⟨s, he⟩ := hrun
      rw [he]
      trivial
    · obtain ⟨s, he, -, hs, hp⟩ := hrun
      rw [he, Sat, hs, hp]
      exact hr

theorem Packable.faithful_iff (h : Packable address operands) : Faithful address operands ↔
    Spells (messageBytes address operands) 0 (messageBytes address operands).length (sent address operands) := by
  rw [h.faithful_read, message_reads h.size]

theorem Packable.faithful (h : Packable address operands) (ha : StaysWhole address)
    (hk : ∀ rhs ∈ operands, rhs.KeepsPlace) :
    Faithful address operands := by
  have hs := message_spells (at_self _) ha (fun rhs hr => ⟨hk rhs hr, h.copies rhs hr⟩) h.balanced h.size
  rw [Nat.zero_add] at hs
  exact h.faithful_iff.mpr hs

/-! ## Words that end in NUL -/

def nulEnds : Bytes → Nat
  | _ :: _ :: _ :: d :: w => (if d = 0 then 1 else 0) + nulEnds w
  | _ => 0

theorem nulEnds_append : ∀ {x : Bytes} (y : Bytes), x.length % 4 = 0 → nulEnds (x ++ y) = nulEnds x + nulEnds y
  | [], y, _ => (Nat.zero_add _).symm
  | [_], _, h => by simp at h
  | [_, _], _, h => by simp at h
  | [_, _, _], _, h => by simp at h
  | a :: b :: c :: d :: x, y, h => by
    simp only [List.length_cons] at h
    simp only [List.cons_append, nulEnds]
    rw [nulEnds_append y (by omega), Nat.add_assoc]

theorem words_ended {w : Bytes} (h : Words w) : Ended w := by
  induction h with
  | last a b c => exact ⟨by simp, rfl⟩
  | @more a b c d w hd _ ih =>
    obtain ⟨x, w, rfl⟩ := List.exists_cons_of_length_pos (show 0 < w.length by have := ih.pos; omega)
    refine ⟨?_, ?_⟩
    · have := ih.1
      simp only [List.length_cons] at this ⊢
      omega
    · simpa only [List.getLast?_cons_cons] using ih.2

theorem words_nulEnds {w : Bytes} (h : Words w) : nulEnds w = 1 := by
  induction h with
  | last a b c => rfl
  | more a b c hd _ ih => rw [nulEnds, if_neg hd, ih]

theorem ended_nulEnds {w : Bytes} (h : Ended w) : 0 < nulEnds w := by
  obtain ⟨x, y, rfl, hx, -⟩ := h.words
  have := words_nulEnds hx
  rw [nulEnds_append y (words_ended hx).1]
  omega

theorem strBlock_nulEnds {w : Bytes} (h : StrBlock w) : nulEnds w ≤ 1 := by
  cases h with
  | nul a b c =>
    show (if c = 0 then 1 else 0) + 0 ≤ 1
    split <;> omega
  | words _ h => exact Nat.le_of_eq (words_nulEnds h)

/-- In front of the end of a padded string no word ends in NUL. -/
theorem strBlock_before {x y : Bytes} (h : StrBlock (x ++ y)) (hx : x.length % 4 = 0) (hy : y ≠ []) :
    nulEnds x = 0 := by
  generalize he : x ++ y = w at h
  have hlen := congrArg List.length he
  have hpos := List.length_pos_iff.mpr hy
  rw [List.length_append] at hlen
  cases h with
  | nul a b c =>
    rw [List.length_cons, List.length_cons, List.length_cons, List.length_singleton] at hlen
    obtain rfl : x = [] := List.eq_nil_of_length_eq_zero (by omega)
    rfl
  | words _ h =>
    obtain ⟨hl, h0⟩ := words_ended h
    have hended : Ended y := by
      refine ⟨by omega, ?_⟩
      rw [← he, List.getLast?_append_of_ne_nil _ hy] at h0
      exact h0
    have h1 := words_nulEnds h
    have h2 := ended_nulEnds hended
    rw [← he, nulEnds_append y hx] at h1
    omega

theorem nulEnds_le : ∀ {x y : Bytes}, x.length = y.length → (∀ i : Nat, x[i]? = some 0 → y[i]? = some 0) →
    nulEnds x ≤ nulEnds y
  | [], _, _, _ | [_], _, _, _ | [_, _], _, _, _ | [_, _, _], _, _, _ => Nat.zero_le _
  | a :: b :: c :: d :: x, y, hl, h => by
    obtain ⟨a', b', c', d', y, rfl⟩ : ∃ a' b' c' d' y', y = a' :: b' :: c' :: d' :: y' := by
      match y, hl with
      | a' :: b' :: c' :: d' :: y', _ => exact ⟨a', b', c', d', y', rfl⟩
    have ih := nulEnds_le (x := x) (y := y) (by simpa using hl) fun i hi => by simpa using h (i + 4) (by simpa using hi)
    have hd : d = 0 → d' = 0 := fun hd => by simpa using h 3 (by simpa using hd)
    rw [nulEnds, nulEnds]
    by_cases h0 : d = 0
    · rw [if_pos h0, if_pos (hd h0)]
      omega
    · rw [if_neg h0]
      omega

/-- Content that is padded with NULs has no fewer words that end in NUL than with other bytes. -/
theorem nulEnds_padded (data tail : Bytes) : nulEnds (data ++ tail) ≤
    nulEnds (data ++ List.replicate tail.length 0) := by
  refine nulEnds_le (by simp) fun i hi => ?_
  by_cases hlt : i < data.length
  · rw [List.getElem?_append_left hlt] at hi ⊢
    exact hi
  · have := (List.getElem?_eq_some_iff.mp hi).1
    rw [List.length_append] at this
    rw [List.getElem?_append_right (by omega), List.getElem?_replicate, if_pos (by omega)]

theorem nulEnds_be32 {n n' : Nat} (h : n % 256 = n' % 256) : nulEnds (be32 n) = nulEnds (be32 n') := by
  have hb : UInt8.ofNat n = UInt8.ofNat n' := by
    apply UInt8.toNat_inj.mp
    rw [UInt8.toNat_ofNat', UInt8.toNat_ofNat', h]
  show (if UInt8.ofNat n = 0 then 1 else 0) + 0 = (if UInt8.ofNat n' = 0 then 1 else 0) + 0
  rw [hb]

/-! ## The reader behind the writer -/

/-- Between the reader at `r` and the writer at `w` there is a word that ends in NUL. -/
structure Behind (m : Bytes) (r w : Nat) : Prop where
  le : r ≤ w
  aligned : (w - r) % 4 = 0
  ends : 0 < nulEnds (slice m r w)

variable {r r' w : Nat}

theorem behind_ended {b : Bytes} (h : Ended b) (hat : At m r b) : Behind m r (r + b.length) := by
  refine ⟨Nat.le_add_right .., ?_, ?_⟩
  · rw [Nat.add_sub_cancel_left]
    exact h.1
  · rw [hat.2]
    exact ended_nulEnds h

/-- The reader moves to `r'` and the writer over a block with no fewer of these words. -/
theorem Behind.move {block : Bytes} (h : Behind m r w) (hat : At m w block) (hb : block.length % 4 = 0) (hr : r ≤ r')
    (hw : r' ≤ w + block.length) (ha : (r' - r) % 4 = 0) (hn : nulEnds (slice m r r') ≤ nulEnds block) :
    Behind m r' (w + block.length) := by
  have hle := h.le
  have hal := h.aligned
  have hends := h.ends
  have hin := hat.1
  refine ⟨hw, by omega, ?_⟩
  have hsplit : slice m r w ++ block = slice m r r' ++ slice m r' (w + block.length) := by
    rw [← slice_split m hr hw, slice_split m hle (Nat.le_add_right w block.length), hat.2]
  have hcount := congrArg nulEnds hsplit
  rw [nulEnds_append _ (by rw [length_slice (by omega)]; exact hal),
    nulEnds_append _ (by rw [length_slice (by omega)]; exact ha)]
    at hcount
  omega

/-- A padded string that starts behind the writer ends there. -/
theorem Behind.str4 (h : Behind m r w) (hw : w ≤ m.length) (hs : IsStr4 m r r') (hr : r' ≤ m.length) : r' ≤ w := by
  by_contra hlt
  have hle := h.le
  have hblock := (isStr4_iff (Nat.le_of_lt hs.lt) hr).mp hs
  rw [slice_split m hle (show w ≤ r' by omega)] at hblock
  have hne : slice m w r' ≠ [] := List.length_pos_iff.mp (by rw [length_slice hr]; omega)
  have := strBlock_before hblock (by rw [length_slice hw]; exact h.aligned) hne
  have := h.ends
  omega

theorem Behind.word {n : Nat} (h : Behind m r w) (hat : At m w (be32 n)) (hn : word m r % 256 = n % 256) :
    Behind m (r + 4) (w + 4) := by
  have hle := h.le
  have hin := hat.1
  rw [length_be32] at hin
  refine h.move hat (by rw [length_be32]) (by omega) (by rw [length_be32]; omega) (by omega) ?_
  rw [slice_word (by omega), nulEnds_be32 hn]

theorem Behind.words {n : Nat} (h : Behind m r w) (hat : At m w (be64 n))
    (hn : Lib.word m r * 2 ^ 32 + Lib.word m (r + 4) = n) : Behind m (r + 8) (w + 8) := by
  have h1 := word_lt m r
  have h2 := word_lt m (r + 4)
  obtain ⟨hat1, hat2⟩ := (at_append (be32 (n / 2 ^ 32)) (be32 n)).mp hat
  rw [length_be32] at hat2
  exact (h.word hat1 (by omega)).word hat2 (by omega)

theorem Behind.string {s : Bytes} (h : Behind m r w) (hat : At m w (strBlock s)) (hs : IsStr4 m r r')
    (hr : r' ≤ m.length) :
    Behind m r' (w + (strBlock s).length) := by
  have hw := h.str4 (by have := hat.1; omega) hs hr
  have hblock := strBlock_nulEnds ((isStr4_iff (Nat.le_of_lt hs.lt) hr).mp hs)
  have hended := strBlock_ended s
  have := ended_nulEnds hended
  exact h.move hat hended.1 (Nat.le_of_lt hs.lt) (by omega) hs.aligned (by omega)

theorem Behind.blob {n : Nat} {data : Bytes} (h : Behind m r w) (hat : At m w (be32 n ++ padded data))
    (hn : Lib.word m r = n) (hr : ArgRange m .blobTag r r') (hr' : r' ≤ m.length)
    (hd : data = slice m (r + 4) (r + 4 + Lib.word m r)) :
    Behind m r' (w + (be32 n ++ padded data).length) := by
  obtain ⟨hmax, rfl⟩ := hr
  have hle := h.le
  rw [hn] at hmax hr' hd ⊢
  have hpad : roundUp4 n = n + padLen n := roundUp4_eq (by omega)
  have hlen : data.length = n := by rw [hd, length_slice (by omega)]; omega
  have htail : (slice m (r + 4 + n) (r + 4 + (n + padLen n))).length = padLen n := by
    rw [length_slice (by omega)]
    omega
  have hal := padLen_mod n
  rw [hpad] at hr' ⊢
  refine h.move hat ?_ (by omega) ?_ (by omega) ?_
  · rw [List.length_append, length_be32, length_padded, hlen]
    omega
  · rw [List.length_append, length_be32, length_padded, hlen]
    omega
  · rw [slice_split m (Nat.le_add_right r 4) (show r + 4 ≤ r + 4 + (n + padLen n) by omega), slice_word (by omega), hn,
      slice_split m (Nat.le_add_right (r + 4) n) (show r + 4 + n ≤ r + 4 + (n + padLen n) by omega), ← hd, padded, hlen]
    have hb : (be32 n).length % 4 = 0 := by rw [length_be32]
    have := nulEnds_padded data (slice m (r + 4 + n) (r + 4 + (n + padLen n)))
    rw [htail] at this
    rw [nulEnds_append _ hb, nulEnds_append _ hb]
    omega

/-- An argument that is read back behind the writer with its value. -/
theorem Behind.operand {rhs : Operand} (h : Behind m r w) (hat : At m w rhs.bytes) (hc : rhs.Copies)
    (hlit : ∀ ref, rhs = .charArray ref → ∃ s : CStr, ref = s.bytes ++ [0]) (hr : ArgRange m rhs.value.tag r r')
    (hv : Holds m rhs.value.tag r rhs.value) (hr' : r' ≤ m.length) : Behind m r' (w + rhs.bytes.length) := by
  have hword := word_lt m r
  have hword' := word_lt m (r + 4)
  have hbits : (UInt32.ofNat (Lib.word m r)).toNat = Lib.word m r := UInt32.toNat_ofNat_of_lt' hword
  have hbits' : (UInt64.ofNat (Lib.word m r * 2 ^ 32 + Lib.word m (r + 4))).toNat =
    Lib.word m r * 2 ^ 32 + Lib.word m (r + 4) :=
    UInt64.toNat_ofNat_of_lt' (show _ < 2 ^ 64 by omega)
  cases rhs with
  | bool rhs => cases rhs <;> (cases show r' = r from hr; exact h)
  | infinitum => cases show r' = r from hr; exact h
  | nil => cases show r' = r from hr; exact h
  | arrayInitiator => cases show r' = r from hr; exact h
  | arrayTerminator => cases show r' = r from hr; exact h
  | int32 rhs =>
    cases show r' = r + 4 from hr
    have hv' : rhs = (UInt32.ofNat (Lib.word m r)).toInt32 := ArgValue.int32.inj hv
    refine h.word hat ?_
    rw [hv', show (UInt32.ofNat (Lib.word m r)).toInt32.toUInt32 = UInt32.ofNat (Lib.word m r) from rfl, hbits]
  | float bits =>
    cases show r' = r + 4 from hr
    have hv' : bits = UInt32.ofNat (Lib.word m r) := ArgValue.float.inj hv
    exact h.word hat (by rw [hv', hbits])
  | char rhs =>
    cases show r' = r + 4 from hr
    have hv' : rhs = (UInt32.ofNat (Lib.word m r)).toUInt8 := ArgValue.char.inj hv
    have h1 := congrArg UInt8.toNat (toUInt8_charBits rhs)
    have h2 := congrArg UInt8.toNat hv'
    rw [UInt32.toNat_toUInt8] at h1 h2
    rw [hbits] at h2
    exact h.word hat (by omega)
  | rgbaColor rhs =>
    cases show r' = r + 4 from hr
    have hv' : rhs = UInt32.ofNat (Lib.word m r) := ArgValue.rgbaColor.inj hv
    exact h.word hat (by rw [hv', hbits])
  | midiMessage rhs =>
    cases show r' = r + 4 from hr
    have hv' : rhs = UInt32.ofNat (Lib.word m r) := ArgValue.midiMessage.inj hv
    exact h.word hat (by rw [hv', hbits])
  | int64 rhs =>
    cases show r' = r + 8 from hr
    have hv' : rhs = (UInt64.ofNat (Lib.word m r * 2 ^ 32 + Lib.word m (r + 4))).toInt64 := ArgValue.int64.inj hv
    refine h.words hat ?_
    rw [hv', show ∀ x : UInt64, x.toInt64.toUInt64 = x from fun _ => rfl, hbits']
  | timeTag bits =>
    cases show r' = r + 8 from hr
    have hv' : bits = UInt64.ofNat (Lib.word m r * 2 ^ 32 + Lib.word m (r + 4)) := ArgValue.timeTag.inj hv
    exact h.words hat (by rw [hv', hbits'])
  | double bits =>
    cases show r' = r + 8 from hr
    have hv' : bits = UInt64.ofNat (Lib.word m r * 2 ^ 32 + Lib.word m (r + 4)) := ArgValue.double.inj hv
    exact h.words hat (by rw [hv', hbits'])
  | stringView rhs => exact h.string hat hr hr'
  | stdString rhs => exact h.string hat hr hr'
  | cString rhs => exact h.string hat hr hr'
  | symbol rhs => exact h.string hat hr hr'
  | charArray ref =>
    obtain ⟨s, rfl⟩ := hlit ref rfl
    exact h.string (s := s.bytes) hat hr hr'
  | blob data size =>
    have hv' : data.take size.toInt.toNat = slice m (r + 4) (r + 4 + Lib.word m r) := ArgValue.blob.inj hv
    have hmax : Lib.word m r ≤ 0x7FFFFFFC ∧ r' = r + 4 + roundUp4 (Lib.word m r) := hr
    have hround := roundUp4_ge (show Lib.word m r + 3 < 2 ^ 32 by omega)
    have hlen := congrArg List.length hv'
    rw [length_slice (by omega), List.length_take] at hlen
    have hsize := toNat_toInt hc.1
    have hle := hc.2
    exact h.blob hat (by omega) hr hr' hv'

theorem Behind.room (h : Behind m r w) : r + 4 ≤ w := by
  have hle := h.le
  have hal := h.aligned
  have hends := h.ends
  by_contra hlt
  obtain rfl : r = w := by omega
  rw [slice_self] at hends
  exact absurd hends (by decide)

/-- The first string that does not keep its place puts the reader behind. -/
theorem behind_first {rhs : Operand} (hat : At m w rhs.bytes) (hk : ¬ rhs.KeepsPlace)
    (hlit : ∀ ref, rhs = .charArray ref → ∃ s : CStr, ref = s.bytes ++ [0]) (hr : ArgRange m rhs.value.tag w r') :
    Behind m r' (w + rhs.bytes.length) := by
  have hides : ∀ {s : Bytes}, ¬ StaysWhole s → At m w (strBlock s) → IsStr4 m w r' →
    Behind m r' (w + (strBlock s).length) := by
    intro s hs hat hr
    obtain ⟨x, y, hxy, hx, hy⟩ := strBlock_hides hs
    rw [hxy] at hat ⊢
    obtain ⟨hat1, hat2⟩ := (at_append _ _).mp hat
    obtain rfl := hr.unique ((str4_at hat1).mpr hx)
    rw [List.length_append, ← Nat.add_assoc]
    exact behind_ended hy hat2
  cases rhs with
  | stringView rhs => exact hides hk hat hr
  | stdString rhs => exact hides hk hat hr
  | charArray ref =>
    obtain ⟨s, rfl⟩ := hlit ref rfl
    exact absurd ⟨List.mem_append_right _ (List.mem_singleton.mpr rfl), strBlock_derives s.noNul⟩ hk
  | _ => exact absurd trivial hk

/-- The reader finds the arguments in their place, or starts behind the writer. -/
theorem behind_address {tags : Bytes} {a b : Nat} (h1 : At m w (strBlock address))
    (h2 : At m (w + (strBlock address).length) (tagBlock tags)) (h0 : 0 ∉ tags) (ha : IsStr4 m w a)
    (hb : IsStr4 m a b) :
    (StaysWhole address ∧ b = w + (strBlock address).length + (tagBlock tags).length) ∨
      Behind m b (w + (strBlock address).length + (tagBlock tags).length) := by
  by_cases hwhole : StaysWhole address
  · obtain rfl := ha.unique ((str4_at h1).mpr (strBlock_whole.mpr hwhole))
    exact .inl ⟨hwhole, hb.unique (tags_at h2 h0).2.1⟩
  · obtain ⟨x, y, hxy, hx, hy⟩ := strBlock_hides hwhole
    obtain ⟨y, z, rfl, hy, hz⟩ := hy.first
    rw [hxy] at h1 h2 ⊢
    obtain ⟨hat1, hat2⟩ := (at_append _ _).mp h1
    obtain rfl := ha.unique ((str4_at hat1).mpr hx)
    obtain ⟨hat2, hat3⟩ := (at_append _ _).mp hat2
    obtain rfl := hb.unique ((str4_at hat2).mpr hy)
    have hend : w + (x ++ (y ++ z)).length + (tagBlock tags).length = w + x.length + y.length +
      (z ++ tagBlock tags).length := by
      simp only [List.length_append]
      omega
    rw [List.length_append, List.length_append, ← Nat.add_assoc, ← Nat.add_assoc] at h2
    have hlen : z.length % 4 = 0 := by
      rcases hz with rfl | hz
      · rfl
      · exact hz.1
    rw [hend]
    exact .inr (behind_ended ((strBlock_ended _).append hlen) ((at_append _ _).mpr ⟨hat3, h2⟩))

/-- Arguments that are read back with their values, one of which does not keep its place, or
    from behind the writer: the reader ends behind the writer. -/
theorem behind_operands : ∀ {operands : List Operand} {r q w : Nat},
    Lies m (operands.map Operand.value) r q → q ≤ m.length →
    At m w (operands.flatMap Operand.bytes) → (∀ rhs ∈ operands, rhs.Copies) →
    (∀ ref, .charArray ref ∈ operands → ∃ s : CStr, ref = s.bytes ++ [0]) →
    (operands.flatMap Operand.bytes).length ≤ 0x7FFFFFFC → (r = w ∧ ∃ rhs ∈ operands, ¬ rhs.KeepsPlace) ∨ Behind m r w →
    Behind m q (w + (operands.flatMap Operand.bytes).length)
  | [], r, q, w, hlies, _, _, _, _, _, h => by
    cases hlies
    rcases h with ⟨-, rhs, hrhs, -⟩ | h
    · cases hrhs
    · exact h
  | rhs :: operands, r, q, w, hlies, hq, hat, hc, hlit, hl, h => by
    rw [List.flatMap_cons] at hat hl ⊢
    rw [List.length_append] at hl
    obtain ⟨hat1, hat2⟩ := (at_append _ _).mp hat
    have hc1 := hc rhs (List.mem_cons_self ..)
    have hlit1 : ∀ ref, rhs = .charArray ref → ∃ s : CStr, ref = s.bytes ++ [0] :=
      fun ref he => hlit ref (he ▸ List.mem_cons_self ..)
    cases hlies with
    | @cons _ _ _ r' _ hr hv hrest =>
    have hle := hrest.le
    have hnext : (r' = w + rhs.bytes.length ∧ ∃ rhs ∈ operands, ¬ rhs.KeepsPlace) ∨
      Behind m r' (w + rhs.bytes.length) := by
      rcases h with ⟨rfl, x, hx, hk⟩ | h
      · by_cases hk1 : rhs.KeepsPlace
        · refine .inl ⟨hr.unique (operand_at hat1 hk1 hc1 (by omega)).1, x, ?_, hk⟩
          rcases List.mem_cons.mp hx with rfl | hx
          · exact absurd hk1 hk
          · exact hx
        · exact .inr (behind_first hat1 hk1 hlit1 hr)
      · exact .inr (h.operand hat1 hc1 hlit1 hr hv (by omega))
    have := behind_operands hrest hq hat2 (fun x hx => hc x (List.mem_cons_of_mem _ hx))
      (fun ref hx => hlit ref (List.mem_cons_of_mem _ hx)) (by omega) hnext
    rwa [List.length_append, ← Nat.add_assoc]

/-! ## Going on -/

theorem exists_unused {k n : Nat} (f : Nat → Nat) (h : k < n) : ∃ x < n, ∀ i < k, f i ≠ x := by
  have hcard : ((Finset.range k).image f).card < (Finset.range n).card :=
    lt_of_le_of_lt Finset.card_image_le (by rw [Finset.card_range, Finset.card_range]; exact h)
  obtain ⟨x, hx, hn⟩ := Finset.exists_mem_notMem_of_card_lt_card hcard
  exact ⟨x, Finset.mem_range.mp hx, fun i hi he => hn (he ▸ Finset.mem_image_of_mem f (Finset.mem_range.mpr hi))⟩

/-- An integer that is no word of some bytes. -/
theorem exists_unread {x : Bytes} (h : x.length < 2 ^ 32) :
    ∃ v : Int32, ∀ i < x.length, v ≠ (UInt32.ofNat (word x i)).toInt32 := by
  obtain ⟨n, hn, hne⟩ := exists_unused (word x) h
  refine ⟨(UInt32.ofNat n).toInt32, fun i hi he => hne i hi ?_⟩
  have := congrArg (fun v : Int32 => v.toUInt32.toNat) he
  have hback : ∀ k < 2 ^ 32, (UInt32.ofNat k).toInt32.toUInt32.toNat = k := fun k hk => UInt32.toNat_ofNat_of_lt' hk
  simp only [hback n hn, hback _ (word_lt x i)] at this
  exact this.symm

/-- An integer and closed arrays behind the operands of a message. -/
def goingOn (operands : List Operand) (v : Int32) (d : Nat) : List Operand :=
  operands ++ .int32 v :: List.replicate d .arrayTerminator

theorem goingOn_tags (operands : List Operand) (v : Int32) (d : Nat) :
    operandTags (goingOn operands v d) = operandTags (goingOn operands 0 d) := by
  simp [operandTags, goingOn, Operand.tag]

theorem messageBytes_goingOn (address : Bytes) (operands : List Operand) (v : Int32) (d : Nat) :
    messageBytes address (goingOn operands v d) =
      strBlock address ++ tagBlock (operandTags (goingOn operands 0 d)) ++ operands.flatMap Operand.bytes ++
        be32 v.toUInt32.toNat := by
  have hclosers : (List.replicate d Operand.arrayTerminator).flatMap Operand.bytes = [] := by
    simp [Operand.bytes]
  have hbytes : (goingOn operands v d).flatMap Operand.bytes = operands.flatMap Operand.bytes ++
    be32 v.toUInt32.toNat := by
    rw [goingOn, List.flatMap_append, List.flatMap_cons, hclosers, List.append_nil]
    rfl
  rw [messageBytes, goingOn_tags, hbytes, ← List.append_assoc]

theorem Sent.goingOn {d : Nat} (h : Sent address (goingOn operands 0 d)) (v : Int32) :
    Sent address (goingOn operands v d) where
  balanced := by
    have := h.balanced
    rw [Outbound.goingOn, List.map_append, List.map_cons] at this ⊢
    exact this
  copies := by
    intro rhs hrhs
    rcases List.mem_append.mp hrhs with hr | hr
    · exact h.copies rhs (List.mem_append_left _ hr)
    · rcases List.mem_cons.mp hr with rfl | hr
      · trivial
      · exact h.copies rhs (List.mem_append_right _ (List.mem_cons_of_mem _ hr))
  literals := by
    intro ref href
    rcases List.mem_append.mp href with hr | hr
    · exact h.literals ref (List.mem_append_left _ hr)
    · rcases List.mem_cons.mp hr with hr | hr
      · cases hr
      · exact h.literals ref (List.mem_append_right _ (List.mem_cons_of_mem _ hr))
  size := by
    have := h.size
    rw [messageBytes_goingOn, List.length_append, length_be32] at this ⊢
    exact this

/-- Where a string or the address does not keep its place, the integer behind the operands is
    read from in front of it. -/
theorem read_in_front {v : Int32} {d : Nat} {x : Bytes}
    (hx : messageBytes address (goingOn operands v d) = x ++ be32 v.toUInt32.toNat)
    (h : Sent address (goingOn operands v d)) (hbad : ¬ (StaysWhole address ∧ ∀ rhs ∈ operands, rhs.KeepsPlace))
    (hf : Faithful address (goingOn operands v d)) : ∃ i < x.length, v = (UInt32.ofNat (word x i)).toInt32 := by
  have hsize := h.size
  have hspells := h.faithful_iff.mp hf
  obtain ⟨h1, h2, h3⟩ := message_parts (at_self (messageBytes address (goingOn operands v d)))
  obtain ⟨-, -, -, a, -, hsa, hrest⟩ := hspells
  have hlen := congrArg List.length hx
  rw [messageBytes_goingOn, List.length_append, length_be32, List.length_append, List.length_append,
    List.length_append, length_be32]
    at hlen
  rcases hrest with ⟨hnil, -⟩ | ⟨-, -, -, b, -, hsb, -, -, q, hq, hlies⟩
  · simp [sent, Outbound.goingOn] at hnil
  have hcut : (Outbound.goingOn operands v d).map Operand.value =
      operands.map Operand.value ++ .int32 v :: List.replicate d .arrayEnd := by
    simp [Outbound.goingOn, Operand.value]
  rw [show (sent address (Outbound.goingOn operands v d)).arguments =
    (Outbound.goingOn operands v d).map Operand.value from rfl, hcut] at hlies
  obtain ⟨r, hl1, hl2⟩ := hlies.split
  have hrq := hl2.le
  rw [show (Outbound.goingOn operands v d).flatMap Operand.bytes = _ ++ _ from List.flatMap_append] at h3
  obtain ⟨hat, -⟩ := (at_append _ _).mp h3
  rw [oscBundleElementSizeMax, hx, List.length_append, length_be32] at hsize
  -- The reader is behind the writer from the address or from the first such string on.
  have hstart := (behind_address h1 h2 (operandTags_noNul _) hsa hsb).imp_left fun hb =>
    And.intro hb.2 (show ∃ rhs ∈ operands, ¬ rhs.KeepsPlace from
      by_contra fun hn => hbad ⟨hb.1, fun rhs hr => by_contra fun hk => hn ⟨rhs, hr, hk⟩⟩)
  have hroom := (behind_operands hl1 (by omega) hat (fun rhs hr => h.copies rhs (List.mem_append_left _ hr))
    (fun ref hr => h.literals ref (List.mem_append_left _ hr)) (by omega) hstart).room
  rw [goingOn_tags] at hroom
  cases hl2 with
  | cons _ hv _ =>
  refine ⟨r, by omega, ?_⟩
  have hv' : v = (UInt32.ofNat (Lib.word _ r)).toInt32 := ArgValue.int32.inj hv
  rwa [hx, word_append _ (by omega)] at hv'

/-- However a message goes on with operands that keep their place, it is read back as it was
    streamed, if and only if its address and its strings so far stay whole; that they do is
    enough with any char arrays. -/
theorem place_exact {address : Bytes} {operands : List Operand} :
    (∀ d, Sent address (goingOn operands 0 d) →
      ((∀ after, Sent address (operands ++ after) → (∀ rhs ∈ after, rhs.KeepsPlace) →
        Faithful address (operands ++ after)) ↔
        StaysWhole address ∧ ∀ rhs ∈ operands, rhs.KeepsPlace)) ∧
    (StaysWhole address → (∀ rhs ∈ operands, rhs.KeepsPlace) → ∀ after, Packable address (operands ++ after) →
      (∀ rhs ∈ after, rhs.KeepsPlace) → Faithful address (operands ++ after)) := by
  have henough : StaysWhole address → (∀ rhs ∈ operands, rhs.KeepsPlace) →
    ∀ after, Packable address (operands ++ after) →
      (∀ rhs ∈ after, rhs.KeepsPlace) → Faithful address (operands ++ after) := by
    intro ha hgood after hsent hafter
    refine hsent.faithful ha fun rhs hrhs => ?_
    rcases List.mem_append.mp hrhs with hrhs | hrhs
    · exact hgood rhs hrhs
    · exact hafter rhs hrhs
  refine ⟨fun d hopen => ⟨fun h => ?_, fun hgood after hsent =>
    henough hgood.1 hgood.2 after hsent.toPackable⟩, henough⟩
  by_contra hbad
  have hsize := hopen.size
  rw [messageBytes_goingOn, List.length_append, length_be32, oscBundleElementSizeMax] at hsize
  obtain ⟨v, hv⟩ := exists_unread (show (strBlock address ++ tagBlock (operandTags (goingOn operands 0 d)) ++
    operands.flatMap Operand.bytes).length < 2 ^ 32 by omega)
  have hsent := hopen.goingOn v
  obtain ⟨i, hi, he⟩ := read_in_front (messageBytes_goingOn address operands v d) hsent hbad
    (h _ hsent fun rhs hrhs => by
      rcases List.mem_cons.mp hrhs with rfl | hrhs
      · trivial
      · rw [(List.mem_replicate.mp hrhs).2]
        trivial)
  exact hv i hi he

theorem place_exact_ab : Faithful [ch '/'] [.stdString [97, 0, 98], .nil] :=
  ((@place_exact [ch '/'] [.stdString [97, 0, 98]]).1 0
      ⟨⟨nested_iff_depth.mpr rfl, by simp [Outbound.goingOn, Operand.Copies], by decide⟩,
        by simp [Outbound.goingOn]⟩).mpr
    ⟨by decide, by simp [Operand.KeepsPlace]; decide⟩ [.nil]
    ⟨⟨nested_iff_depth.mpr rfl, by simp [Operand.Copies], by decide⟩, by simp⟩ (by simp [Operand.KeepsPlace])

/-- The words behind an embedded NUL are read as the integer: 0x62636400 for 1. -/
theorem shifted : Sent [ch '/'] [.stdString [97, 0, 0, 0, 98, 99, 100], .int32 1] ∧
    ¬ Faithful [ch '/'] [.stdString [97, 0, 0, 0, 98, 99, 100], .int32 1] := by
  have h : Sent [ch '/'] [.stdString [97, 0, 0, 0, 98, 99, 100], .int32 1] :=
    ⟨⟨nested_iff_depth.mpr rfl, by simp [Operand.Copies], by decide⟩, by simp⟩
  have hread : readMessage (messageBytes [ch '/'] [.stdString [97, 0, 0, 0, 98, 99, 100], .int32 1]) 0 20 =
      ok ⟨[ch '/'], 2, [ch 's', ch 'i'], [.string [97], .int32 0x62636400]⟩ := by decide +kernel
  refine ⟨h, fun hf => ?_⟩
  have := h.faithful_read.mp hf
  rw [show (messageBytes [ch '/'] [.stdString [97, 0, 0, 0, 98, 99, 100], .int32 1]).length = 20 from rfl] at this
  have he := hread.symm.trans this
  simp [sent, Operand.value] at he

end OscTap.Outbound
