/-
  OscTap.Framing.Reassembly — the deframer splits the stream, however it is cut (see
  `OscTap.Framing.Deframer`).

  The reference is `frames`: a 4-byte big-endian length, then that many bytes. What the
  deframer carries between calls stands for the bytes behind the last frame (`pending`): part
  of a header, or a header and part of a payload. One pass of the loop cuts at most one frame
  off those bytes and the chunk (`step_spec`); the loop splits them (`loop_spec`); and by the
  law of splitters a run of calls splits the whole stream.

  Proved: `reassembly`, for every stream, bound and chunking, of a fresh or reset deframer.
-/
import OscTap.Framing.Deframer
import OscTap.Lib.Splitter

namespace OscTap.Framing

open OscTap.Lib OscTap.Lib.Out

/-! ## The reference -/

/-- A length, then that many bytes; a length above the bound is refused. -/
def cut (maxFrameSize : Nat) (xs : Bytes) : Cut Bytes UInt8 :=
  if xs.length < 4 then .more
  else if maxFrameSize < word xs 0 then .bad
  else if xs.length < 4 + word xs 0 then .more
  else .item (slice xs 4 (4 + word xs 0)) (xs.drop (4 + word xs 0))

theorem cut_item {n : Nat} {xs p rest : Bytes} (h : cut n xs = .item p rest) :
    4 + word xs 0 ≤ xs.length ∧ word xs 0 ≤ n ∧ p = slice xs 4 (4 + word xs 0) ∧ rest = xs.drop (4 + word xs 0) := by
  unfold cut at h
  split at h
  · cases h
  · split at h
    · cases h
    · split at h
      · cases h
      · cases h; exact ⟨by omega, by omega, rfl, rfl⟩

theorem cut_of_le {n : Nat} {xs : Bytes} (h : 4 + word xs 0 ≤ xs.length) (hn : word xs 0 ≤ n) :
    cut n xs = .item (slice xs 4 (4 + word xs 0)) (xs.drop (4 + word xs 0)) := by
  rw [cut, if_neg (by omega), if_neg (by omega), if_neg (by omega)]

theorem cut_more {n : Nat} {xs : Bytes} (h : xs.length < 4 ∨ (word xs 0 ≤ n ∧ xs.length < 4 + word xs 0)) :
    cut n xs = .more := by
  unfold cut
  split
  · rfl
  · rw [if_neg (by omega), if_pos (by omega)]

theorem cut_bad {n : Nat} {xs : Bytes} : cut n xs = .bad ↔ 4 ≤ xs.length ∧ n < word xs 0 := by
  unfold cut
  split
  · simp only [reduceCtorEq, false_iff]; omega
  · split
    · simp only [true_iff]; omega
    · split
      · simp only [reduceCtorEq, false_iff]; omega
      · simp only [reduceCtorEq, false_iff]; omega

def frames (maxFrameSize : Nat) : Splitter Bytes UInt8 where
  cut := cut maxFrameSize
  shrinks := fun h => by
    obtain ⟨h1, -, -, rfl⟩ := cut_item h
    rw [List.length_drop]; omega
  item_append := fun {xs p rest} ys h => by
    obtain ⟨h1, h2, rfl, rfl⟩ := cut_item h
    have hw := word_append ys (show 0 + 4 ≤ xs.length by omega)
    rw [cut_of_le (by rw [hw, List.length_append]; omega) (by omega), hw, slice_append_left ys h1,
      List.drop_append_of_le_length h1]
  bad_append := fun {xs} ys h => by
    obtain ⟨h1, h2⟩ := cut_bad.mp h
    exact cut_bad.mpr ⟨by rw [List.length_append]; omega, by rw [word_append ys (by omega)]; exact h2⟩

def frame (packet : Bytes) : Bytes := be32 packet.length ++ packet

theorem word_be32_append {n : Nat} (ys : Bytes) (h : n < 2 ^ 32) : word (be32 n ++ ys) 0 = n := by
  have e : slice (be32 n) 0 4 = be32 n := slice_all (be32 n)
  rw [word_append ys (by simp), word_of_slice (n := n) e, Nat.mod_eq_of_lt h]

/-- A frame is cut off whatever comes behind it. -/
theorem cut_frame {n : Nat} {packet : Bytes} (h : packet.length ≤ n) (hl : packet.length < 2 ^ 32) (ys : Bytes) :
    cut n (frame packet ++ ys) = .item packet ys := by
  have hw : word (frame packet ++ ys) 0 = packet.length := by
    rw [frame, List.append_assoc, word_be32_append _ hl]
  have hlen : (frame packet ++ ys).length = 4 + packet.length + ys.length := by
    simp only [frame, List.length_append, length_be32]
  rw [cut_of_le (by rw [hw, hlen]; omega) (by rw [hw]; exact h), hw]
  congr 1
  · rw [frame]
    exact slice_append_middle (be32 packet.length) packet ys
  · rw [show 4 + packet.length = (frame packet).length by simp [frame], List.drop_left]

theorem frameOscPacket_eq {ε : Type} {packet out : Bytes} (h : packet.length + 4 ≤ out.length) :
    (frameOscPacket packet packet.length out : Out ε (Nat × Bytes)) =
      ok ((frame packet).length, splice out 0 (frame packet)) := by
  have h1 : 0 + (be32 packet.length).length ≤ out.length := by simp only [length_be32]; omega
  have hlen : (frame packet).length = packet.length + oscStreamFrameHeaderSize := by
    simp only [frame, List.length_append, length_be32, oscStreamFrameHeaderSize]; omega
  rw [frameOscPacket, if_neg (by simp only [oscStreamFrameHeaderSize]; omega), wr_of_le h1, ok_bind, hlen]
  by_cases hp : packet.length = 0
  · rw [if_neg (by omega), ok_bind, frame, List.eq_nil_of_length_eq_zero hp]
    rfl
  · have h2 : oscStreamFrameHeaderSize + packet.length ≤ (splice out 0 (be32 packet.length)).length := by
      rw [length_splice h1]; simp only [oscStreamFrameHeaderSize]; omega
    rw [if_pos hp, rdBytes_of_le (by omega), ok_bind, Nat.zero_add, slice_all, wr_of_le h2, ok_bind]
    have e := splice_splice (m := out) (v := be32 packet.length) (w := packet) (p := 0)
      (by simp only [length_be32]; omega)
    simp only [length_be32, Nat.zero_add] at e
    rw [show oscStreamFrameHeaderSize = 4 from rfl, e]; rfl

namespace OscStreamDeframer

/-! ## The state between calls -/

/-- The bytes behind the last frame, as the deframer holds them. -/
def pending (d : OscStreamDeframer) : Bytes :=
  if d.haveHeader then be32 d.frameSize ++ d.buffer else d.header.toList.take d.headerFill

structure Inv (d : OscStreamDeframer) : Prop where
  fill : d.headerFill < 4
  idle : d.haveHeader = false → d.buffer = []
  held : d.haveHeader = true → d.headerFill = 0 ∧ d.frameSize ≤ d.maxFrameSize ∧ d.frameSize < 2 ^ 32 ∧
    d.buffer.length < d.frameSize

theorem mk'_inv (maxFrameSize : Nat) (header : Vector UInt8 4) : Inv (mk' maxFrameSize header) :=
  ⟨Nat.zero_lt_succ 3, fun _ => rfl, fun h => by cases h⟩

theorem reset_inv (d : OscStreamDeframer) : Inv d.reset := ⟨by simp [reset], fun _ => rfl, fun h => by cases h⟩

/-- Between calls there is no whole frame. -/
theorem pending_more {d : OscStreamDeframer} (h : Inv d) : cut d.maxFrameSize d.pending = .more := by
  unfold pending
  split
  · rename_i hh
    obtain ⟨-, h2, h3, h4⟩ := h.held hh
    have hw := word_be32_append d.buffer h3
    exact cut_more (Or.inr ⟨by rw [hw]; exact h2, by rw [hw, List.length_append, length_be32]; omega⟩)
  · have := h.fill
    exact cut_more (Or.inl (by simp only [List.length_take, Vector.length_toList]; omega))

/-! ## One pass of the loop -/

variable {σ : Type} {sink : Sink σ} {data : Bytes}

def Returns (sink : Sink σ) : Prop := ∀ s packet, (sink s packet).2 = false

def given (sink : Sink σ) (s : σ) (packets : List Bytes) : σ := packets.foldl (fun s packet => (sink s packet).1) s

theorem callSink_eq (hs : Returns sink) (d : OscStreamDeframer) (packet : Bytes) (s : σ) :
    callSink sink d packet s = ok (sink s packet).1 := by
  rw [callSink]
  simp [hs s packet]

theorem drop_eq_slice_append {p q : Nat} (h : p ≤ q) : data.drop p = slice data p q ++ data.drop q := by
  rw [slice]
  conv => lhs; rw [← List.take_append_drop (q - p) (data.drop p)]
  rw [List.drop_drop]; congr 2; omega

theorem fillHeader_stop {ε : Type} {d : OscStreamDeframer} {p : Nat} (h : ¬ (d.headerFill < 4 ∧ p < data.length)) :
    (fillHeader data d p : Out ε (OscStreamDeframer × Nat)) = ok (d, p) := by
  unfold fillHeader
  split
  · split
    · rename_i h1 h2; exact absurd ⟨h1, h2⟩ h
    · rfl
  · rfl

/-- The copy of the header extends what is already there, up to four bytes or the chunk's end. -/
theorem fillHeader_spec {ε : Type} (data : Bytes) : ∀ (n p : Nat) (d : OscStreamDeframer), 4 - d.headerFill ≤ n →
    d.headerFill ≤ 4 → p ≤ data.length →
    ∃ header q, (fillHeader data d p : Out ε (OscStreamDeframer × Nat)) =
        ok ({ d with header := header, headerFill := d.headerFill + (q - p) }, q) ∧
      p ≤ q ∧ q ≤ data.length ∧ d.headerFill + (q - p) ≤ 4 ∧ (d.headerFill + (q - p) = 4 ∨ q = data.length) ∧
      header.toList.take (d.headerFill + (q - p)) = d.header.toList.take d.headerFill ++ slice data p q := by
  have stop : ∀ (p : Nat) (d : OscStreamDeframer), d.headerFill ≤ 4 → p ≤ data.length →
      ¬ (d.headerFill < 4 ∧ p < data.length) →
      ∃ header q, (fillHeader data d p : Out ε (OscStreamDeframer × Nat)) =
          ok ({ d with header := header, headerFill := d.headerFill + (q - p) }, q) ∧
        p ≤ q ∧ q ≤ data.length ∧ d.headerFill + (q - p) ≤ 4 ∧ (d.headerFill + (q - p) = 4 ∨ q = data.length) ∧
        header.toList.take (d.headerFill + (q - p)) = d.header.toList.take d.headerFill ++ slice data p q := by
    intro p d hf hp h
    refine ⟨d.header, p, ?_, Nat.le_refl _, hp, by omega, by omega, ?_⟩
    · rw [fillHeader_stop h, Nat.sub_self]; rfl
    · rw [slice_self, List.append_nil, Nat.sub_self]; rfl
  intro n
  induction n with
  | zero => exact fun p d hn hf hp => stop p d hf hp (by omega)
  | succ n ih =>
    intro p d hn hf hp
    by_cases hgo : d.headerFill < 4 ∧ p < data.length
    · obtain ⟨hlt, hpl⟩ := hgo
      obtain ⟨header, q, he, h1, h2, h3, h4, h5⟩ :=
        ih (p + 1) { d with header := d.header.set d.headerFill data[p], headerFill := d.headerFill + 1 }
          (by dsimp only; omega) (by dsimp only; omega) hpl
      have e : d.headerFill + 1 + (q - (p + 1)) = d.headerFill + (q - p) := by omega
      dsimp only at he h3 h4 h5
      rw [e] at he h3 h4 h5
      refine ⟨header, q, ?_, by omega, h2, h3, h4, ?_⟩
      · rw [fillHeader, dif_pos hlt, dif_pos hpl]; exact he
      · have hone : slice data p (p + 1) = [data[p]] := by
          rw [slice, List.drop_eq_getElem_cons hpl, show p + 1 - p = 1 by omega]; rfl
        rw [h5, slice_split data (Nat.le_succ p) h1, hone, ← List.append_assoc]
        congr 1
        rw [Vector.toList_set, List.take_add_one, List.take_set_of_le (Nat.le_refl _),
          List.getElem?_set_self (by simpa using hlt)]
        rfl
    · exact stop p d hf hp hgo

/-- Reading a header: all bytes are taken and it is not whole, or the bytes are a header and
    the rest of the chunk. -/
theorem readHeader_spec {ε : Type} {d : OscStreamDeframer} {p : Nat} (hd : Inv d) (hh : d.haveHeader = false)
    (hp : p < data.length) :
    (∃ d', (readHeader data d p : Out ε _) = ok (false, d', data.length) ∧ Inv d' ∧ d'.haveHeader = false ∧
      d'.maxFrameSize = d.maxFrameSize ∧ pending d' = pending d ++ data.drop p) ∨
    (∃ d' q, (readHeader data d p : Out ε _) = ok (true, d', q) ∧ p < q ∧ q ≤ data.length ∧ d'.haveHeader = false ∧
      d'.buffer = [] ∧ d'.headerFill = 0 ∧ d'.maxFrameSize = d.maxFrameSize ∧ d'.frameSize < 2 ^ 32 ∧
      pending d ++ data.drop p = be32 d'.frameSize ++ data.drop q) := by
  have hpend : pending d = d.header.toList.take d.headerFill := by rw [pending, hh]; rfl
  have hfill := hd.fill
  unfold readHeader
  split
  · rename_i hc
    obtain ⟨h0, h4⟩ := hc
    simp only [oscStreamFrameHeaderSize] at h4
    rw [rd32_of_le (by omega), ok_bind]
    refine Or.inr ⟨_, _, rfl, by simp only [oscStreamFrameHeaderSize]; omega,
      by simp only [oscStreamFrameHeaderSize]; omega, hh, hd.idle hh, h0, rfl, word_lt data p, ?_⟩
    rw [hpend, h0, List.take_zero, List.nil_append, ← slice_word (by omega)]
    exact drop_eq_slice_append (by omega)
  · obtain ⟨header, q, he, h1, h2, h3, h4, h5⟩ := fillHeader_spec (ε := ε) data 4 p d (by omega) (by omega) (by omega)
    rw [he, ok_bind]
    dsimp only
    have hxs : pending d ++ data.drop p = header.toList.take (d.headerFill + (q - p)) ++ data.drop q := by
      rw [hpend, h5, List.append_assoc, ← drop_eq_slice_append h1]
    by_cases hlt : d.headerFill + (q - p) < 4
    · obtain rfl : q = data.length := by omega
      rw [if_pos (show d.headerFill + (data.length - p) < oscStreamFrameHeaderSize from hlt)]
      refine Or.inl ⟨_, rfl, ⟨hlt, fun _ => hd.idle hh, fun h => ?_⟩, hh, rfl, ?_⟩
      · dsimp only at h; rw [hh] at h; cases h
      · rw [hxs, List.drop_length, List.append_nil, pending, hh]; rfl
    · rw [if_neg (show ¬ d.headerFill + (q - p) < oscStreamFrameHeaderSize from hlt)]
      refine Or.inr ⟨_, q, rfl, by omega, h2, hh, hd.idle hh, rfl, rfl, headerWord_lt _, ?_⟩
      rw [hxs, show d.headerFill + (q - p) = 4 by omega, be32_headerWord, List.take_of_length_le (by simp)]

/-- The deframer in the middle of a pass: it has a header, of a frame that fits. -/
structure Held (d : OscStreamDeframer) : Prop where
  have_ : d.haveHeader = true
  fill : d.headerFill = 0
  fits : d.frameSize ≤ d.maxFrameSize
  small : d.frameSize < 2 ^ 32
  room : d.buffer.length < d.frameSize ∨ (d.buffer = [] ∧ d.frameSize = 0)

/-- The payload is whole, and the sink is given it, or all bytes are taken. -/
theorem payload_spec (hs : Returns sink) {d : OscStreamDeframer} {p : Nat} {s : σ} (hd : Held d)
    (hp : p ≤ data.length) :
    (∃ d' q packet, payload sink data d p s = ok (.next d' q (sink s packet).1) ∧
      q = p + (d.frameSize - d.buffer.length) ∧ q ≤ data.length ∧ Inv d' ∧
      d'.maxFrameSize = d.maxFrameSize ∧ pending d' = [] ∧
      cut d.maxFrameSize (be32 d.frameSize ++ (d.buffer ++ data.drop p)) = .item packet (data.drop q)) ∨
    (∃ d', payload sink data d p s = ok (.next d' data.length s) ∧ Inv d' ∧ d'.maxFrameSize = d.maxFrameSize ∧
      pending d' = be32 d.frameSize ++ (d.buffer ++ data.drop p)) := by
  obtain ⟨hh, hfill, hfits, hsmall, hroom⟩ := hd
  -- a payload of the announced size is a frame, whatever the chunk holds behind it
  have whole : ∀ packet q, packet.length = d.frameSize → d.buffer ++ data.drop p = packet ++ data.drop q →
      cut d.maxFrameSize (be32 d.frameSize ++ (d.buffer ++ data.drop p)) = .item packet (data.drop q) := by
    intro packet q hl he
    rw [he, ← List.append_assoc, ← hl]
    exact cut_frame (by omega) (by omega) _
  have idle : ∀ d' : OscStreamDeframer, d'.buffer = [] → d'.haveHeader = false → d'.headerFill = 0 →
      Inv d' ∧ pending d' = [] := by
    intro d' h1 h2 h3
    exact ⟨⟨by omega, fun _ => h1, fun h => by rw [h2] at h; cases h⟩, by rw [pending, h2, h3]; rfl⟩
  unfold payload
  by_cases hin : d.buffer = [] ∧ d.frameSize ≤ data.length - p
  · obtain ⟨hb, hle⟩ := hin
    have hi := idle { d with haveHeader := false } hb rfl hfill
    rw [if_pos ⟨hb, hle⟩, rdBytes_of_le (by omega), ok_bind, callSink_eq hs, ok_bind]
    refine Or.inl ⟨_, _, _, rfl, by rw [hb]; rfl, by omega, hi.1, rfl, hi.2, whole _ _ ?_ ?_⟩
    · rw [length_slice (by omega)]; omega
    · rw [hb, List.nil_append]
      exact drop_eq_slice_append (by omega)
  · have hlt : d.buffer.length < d.frameSize := hroom.resolve_right fun h => hin ⟨h.1, by omega⟩
    rw [if_neg hin, if_neg (by omega)]
    dsimp only
    generalize htake : (if data.length - p < d.frameSize - d.buffer.length then data.length - p
      else d.frameSize - d.buffer.length) = take
    have hle : take ≤ data.length - p := by split at htake <;> omega
    have hl : (slice data p (p + take)).length = take := by rw [length_slice (by omega)]; omega
    rw [rdBytes_of_le (by omega), ok_bind]
    by_cases hfull : (d.buffer ++ slice data p (p + take)).length = d.frameSize
    · have hi := idle { d with buffer := [], haveHeader := false } rfl rfl hfill
      have hlen := hfull
      rw [if_pos hfull, callSink_eq hs, ok_bind]
      rw [List.length_append, hl] at hlen
      refine Or.inl ⟨_, _, _, rfl, by omega, by omega, hi.1, rfl, hi.2, whole _ _ hfull ?_⟩
      rw [List.append_assoc, ← drop_eq_slice_append (by omega)]
    · rw [if_neg hfull]
      rw [List.length_append, hl] at hfull
      have hall : p + take = data.length := by split at htake <;> omega
      rw [hall]
      refine Or.inr ⟨_, rfl, ⟨by dsimp only; omega, fun h => ?_, fun _ => ⟨hfill, hfits, hsmall, ?_⟩⟩, rfl, ?_⟩
      · dsimp only at h; rw [hh] at h; cases h
      · dsimp only
        rw [List.length_append, ← hall, hl]
        split at htake
        · omega
        · omega
      · rw [pending, if_pos (by exact hh)]
        dsimp only
        rw [drop_eq_slice_append hp, List.drop_length, List.append_nil]

theorem step_spec (hs : Returns sink) {d : OscStreamDeframer} {p : Nat} {s : σ} (hd : Inv d) (hp : p < data.length) :
    (∃ d' q packet, step sink data d p s = ok (.next d' q (sink s packet).1) ∧ p < q ∧ q ≤ data.length ∧ Inv d' ∧
      d'.maxFrameSize = d.maxFrameSize ∧ pending d' = [] ∧
      cut d.maxFrameSize (pending d ++ data.drop p) = .item packet (data.drop q)) ∨
    (∃ d', (step sink data d p s = ok (.done true d' s) ∨ step sink data d p s = ok (.next d' data.length s)) ∧ Inv d' ∧
      d'.maxFrameSize = d.maxFrameSize ∧ pending d' = pending d ++ data.drop p) ∨
    (∃ d', step sink data d p s = ok (.done false d' s) ∧ cut d.maxFrameSize (pending d ++ data.drop p) = .bad) := by
  unfold step
  by_cases hh : d.haveHeader = true
  · obtain ⟨h1, h2, h3, h4⟩ := hd.held hh
    rw [if_pos hh, show pending d ++ data.drop p = be32 d.frameSize ++ (d.buffer ++ data.drop p) by
      rw [pending, if_pos hh, List.append_assoc]]
    rcases payload_spec hs (s := s) ⟨hh, h1, h2, h3, Or.inl h4⟩ (Nat.le_of_lt hp) with
      ⟨d', q, packet, h, hq, hql, hi, hm, hpe, hc⟩ | ⟨d', h, hi, hm, he⟩
    · exact Or.inl ⟨d', q, packet, h, by omega, hql, hi, hm, hpe, hc⟩
    · exact Or.inr (Or.inl ⟨d', Or.inr h, hi, hm, he⟩)
  · rw [if_neg hh]
    have hh' : d.haveHeader = false := by simpa using hh
    rcases readHeader_spec (ε := OscStreamDeframer × σ) hd hh' hp with
      ⟨d', h, hi, -, hm, he⟩ | ⟨d', q, h, hq, hql, -, hb, hf, hm, hsmall, he⟩
    · rw [h, ok_bind]
      exact Or.inr (Or.inl ⟨d', Or.inl rfl, hi, hm, he⟩)
    · rw [h, ok_bind]
      dsimp only
      rw [if_neg (by simp), he, ← hm]
      have hw := word_be32_append (data.drop q) hsmall
      by_cases hbig : d'.maxFrameSize < d'.frameSize
      · rw [if_pos hbig]
        exact Or.inr (Or.inr ⟨d', rfl, cut_bad.mpr ⟨by simp, by rw [hw]; exact hbig⟩⟩)
      · rw [if_neg hbig]
        have hheld : Held { d' with haveHeader := true } :=
          ⟨rfl, hf, by dsimp only; omega, hsmall, by
            dsimp only
            rw [hb, List.length_nil]
            rcases Nat.eq_zero_or_pos d'.frameSize with h0 | h0
            · exact Or.inr ⟨rfl, h0⟩
            · exact Or.inl h0⟩
        rcases payload_spec hs (s := s) hheld hql with ⟨d'', r, packet, hp', h1, h2, hi, hm', hpe, hc⟩ |
          ⟨d'', hp', hi, hm', hpe⟩
        · dsimp only at hc
          rw [hb, List.nil_append] at hc
          exact Or.inl ⟨d'', r, packet, hp', by omega, h2, hi, hm', hpe, hc⟩
        · dsimp only at hpe
          rw [hb, List.nil_append] at hpe
          exact Or.inr (Or.inl ⟨d'', Or.inr hp', hi, hm', hpe⟩)

/-! ## The loop, and a run of calls -/

/-- A call that splits the bytes: it returns false on bytes refused, and else holds what is
    behind the last frame. -/
def Splits (sink : Sink σ) (maxFrameSize : Nat) (s : σ) (xs : Bytes) (r : Bool × OscStreamDeframer × σ) : Prop :=
  r.2.2 = given sink s ((frames maxFrameSize).split xs).1 ∧
    match ((frames maxFrameSize).split xs).2 with
    | .pending rest => r.1 = true ∧ Inv r.2.1 ∧ r.2.1.maxFrameSize = maxFrameSize ∧ pending r.2.1 = rest
    | .bad => r.1 = false

theorem splits_pending {d : OscStreamDeframer} (s : σ) (h : Inv d) :
    Splits sink d.maxFrameSize s (pending d) (true, d, s) := by
  rw [Splits, Splitter.split_more (c := frames d.maxFrameSize) (pending_more h)]
  exact ⟨rfl, rfl, h, rfl, rfl⟩

theorem loop_spec (hs : Returns sink) : ∀ (n p : Nat) (d : OscStreamDeframer) (s : σ), data.length - p < n →
    p ≤ data.length → Inv d → ∃ r, loop sink data n d p s = ok r ∧
      Splits sink d.maxFrameSize s (pending d ++ data.drop p) r := by
  intro n
  induction n with
  | zero => intro p d s hn; omega
  | succ n ih =>
    intro p d s hn hp hd
    by_cases hlt : p < data.length
    · rw [loop, if_pos hlt]
      rcases step_spec hs (s := s) hd hlt with
        ⟨d', q, packet, hst, h1, h2, hi, hm, hpe, hc⟩ | ⟨d', hst, hi, hm, hpe⟩ | ⟨d', hst, hc⟩
      · -- one frame is cut off, and the loop goes on behind it
        obtain ⟨r, hr, hsp⟩ := ih q d' (sink s packet).1 (by omega) h2 hi
        refine ⟨r, by rw [hst]; exact hr, ?_⟩
        rw [hpe, List.nil_append, hm] at hsp
        rw [Splits, Splitter.split_item (c := frames d.maxFrameSize) hc]
        exact hsp
      · have hsp := @splits_pending σ sink _ s hi
        rw [hm, hpe] at hsp
        rcases hst with hst | hst
        · exact ⟨_, by rw [hst]; rfl, hsp⟩
        · refine ⟨_, ?_, hsp⟩
          rw [hst]
          show loop sink data n d' data.length s = _
          unfold loop
          exact if_neg (Nat.lt_irrefl _)
      · refine ⟨_, by rw [hst]; rfl, ?_⟩
        rw [Splits, Splitter.split_bad (c := frames d.maxFrameSize) hc]
        exact ⟨rfl, rfl⟩
    · refine ⟨_, by unfold loop; exact if_neg hlt, ?_⟩
      rw [List.drop_eq_nil_of_le (by omega), List.append_nil]
      exact splits_pending s hd

theorem consume_spec (hs : Returns sink) {d : OscStreamDeframer} (s : σ) (hd : Inv d) (data : Bytes) :
    ∃ r, consume sink d data s = ok r ∧ Splits sink d.maxFrameSize s (pending d ++ data) r :=
  loop_spec hs (data.length + 1) 0 d s (by omega) (Nat.zero_le _) hd

theorem given_append (s : σ) (as bs : List Bytes) : given sink s (as ++ bs) = given sink (given sink s as) bs :=
  List.foldl_append

/-- A call behind another splits the bytes of both. -/
theorem Splits.append {n : Nat} {s : σ} {xs ys : Bytes} {r r' : Bool × OscStreamDeframer × σ} (h : Splits sink n s xs r)
    (hr : r.1 = true) (h' : Splits sink n r.2.2 (pending r.2.1 ++ ys) r') : Splits sink n s (xs ++ ys) r' := by
  obtain ⟨h1, h2⟩ := h
  cases hsp : (frames n).split xs with
  | mk as st =>
    rw [hsp] at h1 h2
    cases st with
    | bad => rw [show r.1 = false from h2] at hr; cases hr
    | pending rest =>
      obtain ⟨-, -, -, hp⟩ := h2
      rw [hp] at h'
      rw [Splits, Splitter.split_append_pending ys hsp]
      refine ⟨?_, h'.2⟩
      rw [given_append, h'.1, h1]

/-- The calls on a list of chunks: the k-th has split the bytes up to its chunk's end, and
    only the last may have returned false. -/
theorem calls_spec (hs : Returns sink) : ∀ (chunks : List Bytes) (d : OscStreamDeframer) (s : σ), Inv d →
    ∃ rs, calls sink d s chunks = ok rs ∧
      (∀ k r, rs[k]? = some r → Splits sink d.maxFrameSize s (pending d ++ (chunks.take (k + 1)).flatten) r) ∧
      (∀ k r, rs[k]? = some r → k + 1 < rs.length → r.1 = true) ∧
      (rs.length = chunks.length ∨ ∃ r, rs.getLast? = some r ∧ r.1 = false) := by
  intro chunks
  induction chunks with
  | nil => exact fun d s _ => ⟨[], rfl, fun k r h => by simp at h, fun k r h => by simp at h, Or.inl rfl⟩
  | cons data chunks ih =>
    intro d s hd
    obtain ⟨r, hr, hsp⟩ := consume_spec hs s hd data
    have hfirst : Splits sink d.maxFrameSize s (pending d ++ ((data :: chunks).take 1).flatten) r := by simpa using hsp
    by_cases hok : r.1 = true
    · have hinv : Inv r.2.1 ∧ r.2.1.maxFrameSize = d.maxFrameSize := by
        obtain ⟨-, h2⟩ := hsp
        split at h2
        · exact ⟨h2.2.1, h2.2.2.1⟩
        · rw [h2] at hok; cases hok
      obtain ⟨rs, hrs, h1, h2, h3⟩ := ih r.2.1 r.2.2 hinv.1
      refine ⟨r :: rs, by rw [calls, hr, ok_bind, if_pos hok, hrs]; rfl, fun k r' hk => ?_, fun k r' hk hlt => ?_, ?_⟩
      · cases k with
        | zero => cases hk; exact hfirst
        | succ k =>
          have hk' := h1 k r' (by simpa using hk)
          rw [hinv.2] at hk'
          rw [List.take_succ_cons, List.flatten_cons, ← List.append_assoc]
          exact hsp.append hok hk'
      · cases k with
        | zero => cases hk; exact hok
        | succ k => exact h2 k r' (by simpa using hk) (by simpa using hlt)
      · rcases h3 with h3 | ⟨r', hl, hf⟩
        · exact Or.inl (by simp [h3])
        · refine Or.inr ⟨r', ?_, hf⟩
          rw [List.getLast?_cons, hl]; rfl
    · have hf : r.1 = false := by simpa using hok
      refine ⟨[r], by rw [calls, hr, ok_bind,
        if_neg hok], fun k r' hk => ?_, fun k r' hk hlt => ?_, Or.inr ⟨r, rfl, hf⟩⟩
      · cases k with
        | zero => cases hk; exact hfirst
        | succ k => simp at hk
      · simp only [List.length_singleton] at hlt; omega

theorem framed_fits {packet out : Bytes} (h : packet.length + 4 ≤ out.length) :
    (frameOscPacket packet packet.length out : Out Empty (Nat × Bytes)) =
    ok (packet.length + 4, splice out 0 (frame packet)) ∧
      (splice out 0 (frame packet)).take (packet.length + 4) = frame packet := by
  have hlen : (frame packet).length = packet.length + 4 := by simp [frame, Nat.add_comm]
  have htake := take_splice_end (show 0 + (frame packet).length ≤ out.length by omega)
  rw [Nat.zero_add, List.take_zero, List.nil_append] at htake
  rw [← hlen]
  exact ⟨frameOscPacket_eq h, htake⟩

theorem framed_eq {p w : Bytes}
    (h : ∃ out n out', (frameOscPacket p p.length out : Out Empty (Nat × Bytes)) = ok (n, out') ∧
    n ≠ 0 ∧ w = out'.take n) : w = frame p := by
  obtain ⟨out, n, out', he, hn, rfl⟩ := h
  by_cases hfit : p.length + 4 ≤ out.length
  · obtain ⟨hframed, htake⟩ := framed_fits hfit
    rw [hframed] at he
    cases he
    exact htake
  · rw [frameOscPacket, if_pos (by simp only [oscStreamFrameHeaderSize]; omega)] at he
    cases he
    exact absurd rfl hn

theorem framed_all {packets wires : List Bytes}
    (h : List.Forall₂ (fun p w => ∃ out n out',
      (frameOscPacket p p.length out : Out Empty (Nat × Bytes)) = ok (n, out') ∧
      n ≠ 0 ∧ w = out'.take n) packets wires) : wires = packets.map frame := by
  induction h with
  | nil => rfl
  | cons h _ ih => rw [List.map_cons, framed_eq h, ih]

theorem split_nil (n : Nat) : (frames n).split [] = ([], .pending []) :=
  Splitter.split_more (show cut n [] = .more from cut_more (Or.inl (by simp)))

/-- The packets of a stream of frames. -/
theorem split_frames {n : Nat} {packets : List Bytes} (h : ∀ p ∈ packets, p.length ≤ n ∧ p.length < 2 ^ 32) :
    (frames n).split (packets.map frame).flatten = (packets, .pending []) := by
  have e : (frames n).split ((packets.map frame).flatten ++ []) =
      (packets ++ ((frames n).split []).1, ((frames n).split []).2) :=
    Splitter.split_encoded (fun p hp ys => cut_frame (h p hp).1 (h p hp).2 ys) []
  rw [List.append_nil, split_nil, List.append_nil] at e
  exact e

/-- The calls of a deframer that holds nothing. -/
theorem calls_split (hs : Returns sink) {d : OscStreamDeframer} (hi : Inv d) (hp : pending d = []) (s : σ)
    (chunks : List Bytes) :
    ∃ rs, calls sink d s chunks = ok rs ∧
      (∀ k r, rs[k]? = some r →
        r.2.2 = given sink s ((frames d.maxFrameSize).split (chunks.take (k + 1)).flatten).1 ∧
        (r.1 = false ↔ ((frames d.maxFrameSize).split (chunks.take (k + 1)).flatten).2 = .bad) ∧
        (k + 1 < rs.length → r.1 = true)) ∧
      (rs.length = chunks.length ∨ ∃ r, rs.getLast? = some r ∧ r.1 = false) := by
  obtain ⟨rs, hrs, h1, h2, h3⟩ := calls_spec hs chunks d s hi
  rw [hp] at h1
  refine ⟨rs, hrs, fun k r hr => ?_, h3⟩
  obtain ⟨g1, g2⟩ := h1 k r hr
  rw [List.nil_append] at g1 g2
  refine ⟨g1, ?_, h2 k r hr⟩
  split at g2
  · rename_i hst; rw [hst, g2.1]; simp
  · rename_i hst; rw [hst, g2]; simp

/-- When the stream is whole frames, no call refuses it and the last one has given them all. -/
theorem calls_whole {n : Nat} {s : σ} {chunks packets : List Bytes} {rs : List (Bool × OscStreamDeframer × σ)}
    (hk : ∀ k r, rs[k]? = some r → r.2.2 = given sink s ((frames n).split (chunks.take (k + 1)).flatten).1 ∧
      (r.1 = false ↔ ((frames n).split (chunks.take (k + 1)).flatten).2 = .bad) ∧ (k + 1 < rs.length → r.1 = true))
    (hend : rs.length = chunks.length ∨ ∃ r, rs.getLast? = some r ∧ r.1 = false)
    (hsp : (frames n).split chunks.flatten = (packets, .pending [])) :
    rs.length = chunks.length ∧ (∀ r ∈ rs, r.1 = true) ∧
      (rs.getLast?.map fun r => r.2.2).getD s = given sink s packets := by
  have htrue : ∀ (k : Nat) (r : Bool × OscStreamDeframer × σ), rs[k]? = some r → r.1 = true := by
    intro k r hr
    by_contra hf
    have hbad := (hk k r hr).2.1.mp (by simpa using hf)
    have e := Splitter.split_append_bad (chunks.drop (k + 1)).flatten
      (Prod.ext rfl hbad : (frames n).split (chunks.take (k + 1)).flatten = (_, .bad))
    rw [← List.flatten_append, List.take_append_drop, hsp] at e
    cases (Prod.mk.inj e).2
  have hlen : rs.length = chunks.length := by
    refine hend.resolve_right fun ⟨r, hl, hf⟩ => ?_
    rw [List.getLast?_eq_getElem?] at hl
    rw [htrue _ r hl] at hf; cases hf
  refine ⟨hlen, fun r hr => ?_, ?_⟩
  · obtain ⟨k, hr⟩ := List.mem_iff_getElem?.mp hr
    exact htrue k r hr
  · cases hl : rs.getLast? with
    | none =>
      have hn : chunks = [] := List.eq_nil_of_length_eq_zero (by rw [← hlen, List.getLast?_eq_none_iff.mp hl]; rfl)
      rw [hn, List.flatten_nil, split_nil] at hsp
      rw [← (Prod.mk.inj hsp).1]; rfl
    | some r =>
      rw [List.getLast?_eq_getElem?] at hl
      have hlast := (List.getElem?_eq_some_iff.mp hl).1
      have e := (hk _ r hl).1
      rw [List.take_of_length_le (by omega), hsp] at e
      exact e

/-- For every stream, however it is cut into chunks, and every bound, of a deframer that is
    fresh or was just reset: behind each call the sink was given exactly the frames of the
    bytes consumed so far, in order, and the call returned false exactly when these bytes
    hold the header of a frame that is too long; the calls go on until then. A stream of
    packets framed by `FrameOscPacket` gives back the packets, and `FrameOscPacket` frames
    every packet that fits its output. -/
theorem reassembly (hs : Returns sink) {d : OscStreamDeframer} {maxFrameSize : Nat}
    (hd : (∃ header, d = mk' maxFrameSize header) ∨
      ∃ d₀ : OscStreamDeframer, d₀.maxFrameSize = maxFrameSize ∧ d = d₀.reset)
    (s : σ) (chunks : List Bytes) :
    (∃ rs, calls sink d s chunks = ok rs ∧
      (∀ k r, rs[k]? = some r →
        r.2.2 = given sink s ((frames maxFrameSize).split (chunks.take (k + 1)).flatten).1 ∧
        (r.1 = false ↔ ((frames maxFrameSize).split (chunks.take (k + 1)).flatten).2 = .bad) ∧
        (k + 1 < rs.length → r.1 = true)) ∧
      (rs.length = chunks.length ∨ ∃ r, rs.getLast? = some r ∧ r.1 = false)) ∧
    (∀ packets wires : List Bytes, (∀ p ∈ packets, p.length ≤ maxFrameSize ∧ p.length < 2 ^ 32) →
      List.Forall₂ (fun p w => ∃ out n out', (frameOscPacket p p.length out : Out Empty (Nat × Bytes)) = ok (n, out') ∧
        n ≠ 0 ∧ w = out'.take n) packets wires →
      chunks.flatten = wires.flatten →
      ∃ rs, calls sink d s chunks = ok rs ∧ rs.length = chunks.length ∧ (∀ r ∈ rs, r.1 = true) ∧
        (rs.getLast?.map fun r => r.2.2).getD s = given sink s packets) ∧
    ∀ packet out : Bytes, packet.length + 4 ≤ out.length → ∃ out',
      (frameOscPacket packet packet.length out : Out Empty (Nat × Bytes)) = ok (packet.length + 4, out') ∧
        out'.take (packet.length + 4) = be32 packet.length ++ packet := by
  have hinv : Inv d ∧ d.maxFrameSize = maxFrameSize ∧ pending d = [] := by
    rcases hd with ⟨header, rfl⟩ | ⟨d₀, rfl, rfl⟩
    · exact ⟨mk'_inv .., rfl, by simp [pending, mk']⟩
    · exact ⟨reset_inv d₀, rfl, by simp [pending, reset]⟩
  obtain ⟨hi, rfl, hp⟩ := hinv
  obtain ⟨rs, hrs, hk, hend⟩ := calls_split hs hi hp s chunks
  refine ⟨⟨rs, hrs, hk, hend⟩, fun packets wires hpk hw hc => ⟨rs, hrs, calls_whole hk hend ?_⟩,
    fun packet out hfit => ?_⟩
  · rw [hc, framed_all hw]
    exact split_frames hpk
  · exact ⟨_, framed_fits hfit⟩

def collect : Sink (List Bytes) := fun s packet => (s ++ [packet], false)

/-- A packet of one byte and an empty one, in three chunks that cut both headers. -/
theorem reassembly_collect :
    ∃ rs, calls collect (mk' 8 (Vector.replicate 4 0)) [] [[0, 0, 0], [1, 9, 0], [0, 0, 0]] = ok rs ∧ rs.length = 3 ∧
      (∀ r ∈ rs, r.1 = true) ∧ (rs.getLast?.map fun r => r.2.2).getD [] = [[9], []] :=
  (@reassembly _ collect (fun _ _ => rfl) _ 8 (Or.inl ⟨_, rfl⟩) [] [[0, 0, 0], [1, 9, 0], [0, 0, 0]]).2.1
    [[9], []] [[0, 0, 0, 1, 9], [0, 0, 0, 0]] (by decide)
    (.cons ⟨[0, 0, 0, 0, 0], 5, [0, 0, 0, 1, 9], rfl, by decide, rfl⟩
      (.cons ⟨[0, 0, 0, 0], 4, [0, 0, 0, 0], rfl, by decide, rfl⟩ .nil)) rfl

end OscStreamDeframer

end OscTap.Framing
