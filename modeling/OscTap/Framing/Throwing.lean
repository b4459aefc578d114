/-
  OscTap.Framing.Throwing — a sink that throws (see `OscTap.Framing.Deframer`).

  A `Caller` feeds one deframer chunk by chunk, catches what the sink throws and goes on with
  the next chunk, until a call returns false. `log` is what the sink was given; whether it
  throws may depend on all of it. `Consume` takes the frame off (`p`, `buffer_`, `haveHeader_`)
  behind the sink only, so an exception leaves the deframer with a frame the sink has had:
  the rest of the chunk is lost, and the next bytes complete that frame once more.

  Proved:
  - `subsequence`: as long as no chunk completes such a frame, the packets given are frames of
    the stream, each once and in order; a chunk that completes it gives the sink one more
    packet of the frame's size.
  - `twice_and_forged`: a frame given twice, and a packet made of the next frame's header.
-/
import OscTap.Framing.Progress
import OscTap.Lib.Machine

namespace OscTap.Framing.OscStreamDeframer

open OscTap.Lib OscTap.Lib.Out

def recorded (throws : List Bytes → Bool) : Sink (List Bytes) :=
  fun log packet => (log ++ [packet], throws (log ++ [packet]))

structure Caller where
  deframer : OscStreamDeframer
  log : List Bytes
  /-- An exception left the deframer, and no packet was given since. -/
  spoiled : Bool
  /-- A call returned false. -/
  refused : Bool
  deriving DecidableEq

def Caller.start (maxFrameSize : Nat) (header : Vector UInt8 4) : Caller := ⟨mk' maxFrameSize header, [], false, false⟩

def feed (throws : List Bytes → Bool) (data : Bytes) (c : Caller) : Out (Unit × Caller) Caller :=
  if c.refused then ok c
  else do
    let r ← (consume (recorded throws) c.deframer data c.log).mapErr fun e => ((), ⟨e.1, e.2, true, false⟩)
    ok ⟨r.2.1, r.2.2, c.spoiled && decide (r.2.2 = c.log), !r.1⟩

/-- The chunk does not complete a frame that the sink has had. -/
def Sound (data : Bytes) (c : Caller) : Prop :=
  c.refused = false → c.spoiled = true → data = [] ∨ c.deframer.buffer.length + data.length < c.deframer.frameSize

instance (data : Bytes) (c : Caller) : Decidable (Sound data c) := inferInstanceAs (Decidable (_ → _ → _))

variable {throws : List Bytes → Bool} {data : Bytes} {d : OscStreamDeframer} {log : List Bytes}

/-! ## Up to the first exception -/

theorem given_collect (log packets : List Bytes) : given collect log packets = log ++ packets := by
  induction packets generalizing log with
  | nil => exact (List.append_nil log).symm
  | cons packet packets ih =>
    show given collect (log ++ [packet]) packets = _
    rw [ih, List.append_assoc]
    rfl

theorem callSink_agrees (packet : Bytes) : callSink (recorded throws) d packet log = callSink collect d packet log ∨
    callSink (recorded throws) d packet log = err (d, log ++ [packet]) ∧
      callSink collect d packet log = ok (log ++ [packet]) := by
  unfold callSink recorded
  dsimp only
  split
  · exact .inr ⟨rfl, rfl⟩
  · exact .inl rfl

/-- A pass does what it does with a sink that never throws, or the sink throws and has been
    given as much. -/
theorem payload_agrees {p : Nat} (hd : Shape d) (hh : d.haveHeader = true) (hp : p ≤ data.length) :
    payload (recorded throws) data d p log = payload collect data d p log ∨
    ∃ e d' q, payload (recorded throws) data d p log = err e ∧ payload collect data d p log = ok (.next d' q e.2) := by
  by_cases hq : p + d.still ≤ data.length
  · have hb := (hd.held hh).2.2.2
    rw [payload_whole log hb hq, payload_whole log hb hq]
    rcases @callSink_agrees throws (d.atSink data p) log (d.packet data p) with h | ⟨h1, h2⟩
    · exact .inl (by rw [h])
    · exact .inr ⟨_, _, _, by rw [h1]; rfl, by rw [h2]; rfl⟩
  · exact .inl (by rw [payload_part log hp (by omega), payload_part log hp (by omega)])

theorem step_agrees {p : Nat} (hd : Shape d) (hp : p < data.length) :
    step (recorded throws) data d p log = step collect data d p log ∨
    ∃ e d' q, step (recorded throws) data d p log = err e ∧ step collect data d p log = ok (.next d' q e.2) := by
  unfold step
  by_cases hh : d.haveHeader = true
  · rw [if_pos hh, if_pos hh]
    exact payload_agrees hd hh (Nat.le_of_lt hp)
  · have hh' : d.haveHeader = false := by simpa using hh
    rw [if_neg hh, if_neg hh]
    rcases readHeader_spec (ε := OscStreamDeframer × List Bytes) (hd.inv hh') hh' hp with
      ⟨d', h, -⟩ | ⟨d', q, h, -, hql, -, hb, hf, -, hsmall, -⟩
    · rw [h]; exact .inl rfl
    · rw [h, ok_bind, ok_bind]
      simp only [not_true_eq_false, if_false]
      by_cases hbig : d'.maxFrameSize < d'.frameSize
      · rw [if_pos hbig, if_pos hbig]; exact .inl rfl
      · rw [if_neg hbig, if_neg hbig]
        exact payload_agrees (accept_shape hb hf hsmall hbig) rfl hql

/-- The log only grows. -/
theorem grows (xs : List Bytes) : ∀ log packet, xs <+: log → xs <+: (recorded throws log packet).1 :=
  fun _ _ h => h.trans (List.prefix_append ..)

theorem loop_agrees : ∀ (n p : Nat) (d : OscStreamDeframer) (log : List Bytes)
    (r : Bool × OscStreamDeframer × List Bytes), p ≤ data.length → Inv d → data.length - p ≤ n →
    loop collect data n d p log = ok r →
    loop (recorded throws) data n d p log = ok r ∨ ∃ e, loop (recorded throws) data n d p log = err e ∧
      e.2 <+: r.2.2 := by
  intro n
  induction n with
  | zero =>
    intro p d log r hp _ hn h
    unfold loop at h ⊢
    rw [if_neg (by omega)] at h ⊢
    exact .inl h
  | succ n ih =>
    intro p d log r hp hd hn h
    unfold loop at h ⊢
    by_cases hlt : p < data.length
    · rw [if_pos hlt] at h ⊢
      dsimp only
      obtain ⟨x, hx, h⟩ := bind_eq_ok.mp h
      have hgoes := (step_any (@grows (fun _ => false) log) (List.prefix_refl _) hd.shape hlt).ok_of_eq hx
      rcases @step_agrees throws _ _ log _ hd.shape hlt with hs | ⟨e, d', q, hs, hc⟩
      · rw [hs, hx]
        cases x with
        | done result d' s => exact .inl h
        | next d' q s =>
          obtain ⟨hi, -, -, hq, -, hprog⟩ := hgoes
          have := hprog hd
          exact ih q d' s r hq hi (by omega) h
      · rw [hs]
        cases hx.symm.trans hc
        obtain ⟨hi, -, -, hq, -, hprog⟩ := hgoes
        have := hprog hd
        have hend := (loop_any (@grows (fun _ => false) e.2) n q d' e.2 (List.prefix_refl _) hq hi.shape
          (.inr ⟨hi, by omega⟩)).ok_of_eq h
        exact .inr ⟨e, rfl, hend.2.2.2⟩
    · rw [if_neg hlt] at h ⊢
      exact .inl h

/-- A call on a deframer that no exception left: it splits the bytes, or throws having given
    the sink the first of their frames. -/
theorem consume_agrees (hd : Inv d) (data : Bytes) (log : List Bytes) :
    (∃ r, consume (recorded throws) d data log = ok r ∧ Splits collect d.maxFrameSize log (pending d ++ data) r) ∨
    ∃ e, consume (recorded throws) d data log = err e ∧ Left d.maxFrameSize (fun _ => True) e ∧
      e.2 <+: log ++ ((frames d.maxFrameSize).split (pending d ++ data)).1 := by
  obtain ⟨r, hr, hsp⟩ := @consume_spec _ collect (fun _ _ => rfl) _ log hd data
  rcases @loop_agrees throws _ (data.length + 1) 0 d log r (Nat.zero_le _) hd (by omega) hr with h | ⟨e, h, hle⟩
  · exact .inl ⟨r, h, hsp⟩
  · have hleft := (@consume_any _ (recorded throws) (fun _ => True)
      (fun _ _ h => h) _ hd.shape data _ trivial).err_of_eq h
    rw [hsp.1, given_collect] at hle
    exact .inr ⟨e, h, hleft, hle⟩

/-! ## Behind an exception -/

/-- The chunk's bytes are put behind the frame's, and it is not whole yet. -/
theorem spoiled_part {σ : Type} (sink : Sink σ) (hd : Shape d) (hh : d.haveHeader = true) (s : σ)
    (h : data = [] ∨ d.buffer.length + data.length < d.frameSize) :
    ∃ d', consume sink d data s = ok (true, d', s) ∧ Shape d' ∧ d'.haveHeader = true ∧
      d'.maxFrameSize = d.maxFrameSize := by
  by_cases hdata : data = []
  · subst hdata
    exact ⟨d, rfl, hd, hh, rfl⟩
  · have hroom := h.resolve_left hdata
    have hpos : 0 < data.length := List.length_pos_iff.mpr hdata
    obtain ⟨h1, h2, h3, -⟩ := hd.held hh
    refine ⟨{ d with buffer := d.buffer ++ data }, ?_, ⟨hd.fill, fun hn => ?_, fun _ => ⟨h1, h2, h3, ?_⟩⟩, hh, rfl⟩
    · have hpart := @payload_part _ sink data d _ s (Nat.zero_le _) (by rw [still]; omega)
      rw [List.drop_zero] at hpart
      unfold consume loop
      rw [if_pos hpos]
      dsimp only
      rw [step, if_pos hh, hpart, ok_bind]
      dsimp only
      unfold loop
      rw [if_neg (Nat.lt_irrefl _)]
    · rw [show d.haveHeader = false from hn] at hh; cases hh
    · dsimp only
      rw [List.length_append]
      omega

/-- The chunk completes the frame: the sink is given a packet of its size again. -/
theorem spoiled_whole (hd : Shape d) (hh : d.haveHeader = true) (log : List Bytes) (hdata : data ≠ [])
    (h : d.frameSize ≤ d.buffer.length + data.length) :
    Sat (consume (recorded throws) d data log) (fun r => log ++ [(d.buffer ++ data).take d.frameSize] <+: r.2.2)
      (fun e => log ++ [(d.buffer ++ data).take d.frameSize] <+: e.2) := by
  have hpos : 0 < data.length := List.length_pos_iff.mpr hdata
  have hb := (hd.held hh).2.2.2
  have hq : 0 + d.still ≤ data.length := by rw [still]; omega
  have hpacket : d.packet data 0 = (d.buffer ++ data).take d.frameSize := by
    rw [packet, List.take_append, List.take_of_length_le hb, Nat.zero_add]
    rfl
  unfold consume loop
  rw [if_pos hpos]
  dsimp only
  rw [step, if_pos hh, payload_whole log hb hq, hpacket]
  unfold callSink recorded
  dsimp only
  split
  · exact List.prefix_refl _
  · refine (loop_any (grows _) data.length _ d.behind _ (List.prefix_refl _) hq hd.behind.shape
      (.inr ⟨hd.behind, by omega⟩)).mono (fun r hr => ?_) fun e he => ?_
    · exact hr.2.2.2
    · exact he.2.2.2

/-! ## Runs -/

def Caller.Weak (c : Caller) : Prop := c.refused = false → Shape c.deframer ∧
    (c.spoiled = true → c.deframer.haveHeader = true)

theorem spoiled_of_not_sound {c : Caller} (h : ¬ Sound data c) :
    c.refused = false ∧ c.spoiled = true ∧ data ≠ [] ∧
      c.deframer.frameSize ≤ c.deframer.buffer.length + data.length := by
  simp only [Sound, Classical.not_imp, not_or, Nat.not_lt] at h
  exact h

theorem feed_refused {c : Caller} (h : c.refused = true) : feed throws data c = ok c := if_pos h

theorem feed_ok {c : Caller} {r : Bool × OscStreamDeframer × List Bytes} (h : c.refused = false)
    (hr : consume (recorded throws) c.deframer data c.log = ok r) :
    feed throws data c = ok ⟨r.2.1, r.2.2, c.spoiled && decide (r.2.2 = c.log), !r.1⟩ := by
  rw [feed, if_neg (by simp [h]), hr]; rfl

theorem feed_err {c : Caller} {e : OscStreamDeframer × List Bytes} (h : c.refused = false)
    (he : consume (recorded throws) c.deframer data c.log = err e) :
    feed throws data c = err ((), ⟨e.1, e.2, true, false⟩) := by
  rw [feed, if_neg (by simp [h]), he]; rfl

/-- No call faults; one that completes a frame the sink has had gives it again. -/
theorem feed_weak {c : Caller} (hc : c.Weak) (data : Bytes) :
    ∃ c', attempt (feed throws data c) = ok c' ∧ c'.Weak ∧
      (¬ Sound data c → c.log ++ [(c.deframer.buffer ++ data).take c.deframer.frameSize] <+: c'.log) := by
  by_cases hr : c.refused = true
  · refine ⟨c, by rw [feed_refused hr]; rfl, hc, fun h => ?_⟩
    rw [(spoiled_of_not_sound h).1] at hr
    cases hr
  · have hr : c.refused = false := by simpa using hr
    obtain ⟨hd, hh⟩ := hc hr
    have hany := @consume_any _ (recorded throws) (fun _ => True) (fun _ _ h => h) _ hd data c.log trivial
    have hagain : ¬ Sound data c → Sat (consume (recorded throws) c.deframer data c.log)
        (fun r => c.log ++ [(c.deframer.buffer ++ data).take c.deframer.frameSize] <+: r.2.2)
        (fun e => c.log ++ [(c.deframer.buffer ++ data).take c.deframer.frameSize] <+: e.2) := fun h => by
      obtain ⟨-, h1, h2, h3⟩ := spoiled_of_not_sound h
      exact spoiled_whole hd (hh h1) c.log h2 h3
    cases hx : consume (recorded throws) c.deframer data c.log with
    | fault f => rw [hx] at hany; exact hany.elim
    | err e =>
      rw [hx] at hany hagain
      exact ⟨⟨e.1, e.2, true, false⟩, by rw [feed_err hr hx]; rfl, fun _ => ⟨hany.1, fun _ => hany.2.1⟩, hagain⟩
    | ok r =>
      rw [hx] at hany hagain
      refine ⟨⟨r.2.1, r.2.2, c.spoiled && decide (r.2.2 = c.log), !r.1⟩, by rw [feed_ok hr hx]; rfl,
        fun _ => ⟨hany.1, fun hsp => ?_⟩, hagain⟩
      -- nothing was given: the frame is not complete yet
      simp only [Bool.and_eq_true, decide_eq_true_eq] at hsp
      by_cases hs : Sound data c
      · obtain ⟨d', h, -, hh', -⟩ := spoiled_part (recorded throws) hd (hh hsp.1) c.log (hs hr hsp.1)
        cases hx.symm.trans h
        exact hh'
      · have hlen := (hagain hs).length_le
        rw [hsp.2, List.length_append, List.length_singleton] at hlen
        omega

theorem start_weak (maxFrameSize : Nat) (header : Vector UInt8 4) : (Caller.start maxFrameSize header).Weak :=
  fun _ => ⟨(mk'_inv maxFrameSize header).shape, fun h => by cases h⟩

theorem run_weak (chunks : List Bytes) {c : Caller} (hc : c.Weak) :
    ∃ c', runCaught (feed throws) chunks c = ok c' ∧ c'.Weak := by
  refine (Sat.foldlM (I := Caller.Weak) (fun data _ c hc => ?_) hc).returns
  obtain ⟨c', h, hc', -⟩ := @feed_weak throws _ hc data
  rw [h]
  exact hc'

theorem Splits.split {n : Nat} {xs : Bytes} (h : Splits collect n [] xs (true, d, log)) :
    (frames n).split xs = (log, .pending (pending d)) ∧ Inv d ∧ d.maxFrameSize = n := by
  obtain ⟨h1, h2⟩ := h
  rw [given_collect, List.nil_append] at h1
  cases hsp : (frames n).split xs with
  | mk as st =>
    rw [hsp] at h1 h2
    cases st with
    | bad => cases h2
    | pending rest =>
      obtain ⟨-, hi, hm, hp⟩ := h2
      exact ⟨by rw [show log = as from h1, show pending d = rest from hp], hi, hm⟩

/-- Behind calls that were all sound, on the bytes `xs`: the sink was given the first frames of
    these bytes; all of them when it never threw. -/
structure Caller.Follows (n : Nat) (xs : Bytes) (c : Caller) : Prop where
  given : c.log <+: ((frames n).split xs).1
  whole : c.refused = false → c.spoiled = false → Splits collect n [] xs (true, c.deframer, c.log)
  left : c.refused = false → c.spoiled = true → Shape c.deframer ∧ c.deframer.haveHeader = true

theorem feed_follows {n : Nat} {xs : Bytes} {c : Caller} (hc : c.Follows n xs) (hs : Sound data c) :
    ∃ c', attempt (feed throws data c) = ok c' ∧ c'.Follows n (xs ++ data) := by
  have hmore := hc.given.trans (Splitter.split_prefix xs data)
  by_cases hr : c.refused = true
  · have hn : c.refused ≠ false := by simp [hr]
    exact ⟨c, by rw [feed_refused hr]; rfl, hmore, fun h => absurd h hn, fun h => absurd h hn⟩
  · have hr : c.refused = false := by simpa using hr
    by_cases hsp : c.spoiled = true
    · obtain ⟨hd, hh⟩ := hc.left hr hsp
      obtain ⟨d', h, hd', hh', -⟩ := spoiled_part (recorded throws) hd hh c.log (hs hr hsp)
      refine ⟨⟨d', c.log, c.spoiled && decide (c.log = c.log), !true⟩, by rw [feed_ok hr h]; rfl, hmore, fun _ hf => ?_,
        fun _ _ => ⟨hd', hh'⟩⟩
      simp [hsp] at hf
    · have hsp : c.spoiled = false := by simpa using hsp
      have hwhole := hc.whole hr hsp
      obtain ⟨hsplit, hi, hn⟩ := hwhole.split
      rcases @consume_agrees throws _ hi data c.log with ⟨r, h, hres⟩ | ⟨e, h, hleft, hle⟩
      · rw [hn] at hres
        have hres := hwhole.append rfl hres
        refine ⟨⟨r.2.1, r.2.2, c.spoiled && decide (r.2.2 = c.log), !r.1⟩,
          by rw [feed_ok hr h]; rfl, ?_, fun hf _ => ?_, fun _ hf => ?_⟩
        · have hall := hres.1
          rw [given_collect, List.nil_append] at hall
          exact hall ▸ List.prefix_refl _
        · have hr1 : r.1 = true := by simpa using hf
          rwa [show (true, r.2.1, r.2.2) = r by rw [← hr1]]
        · simp [hsp] at hf
      · rw [hn] at hle
        refine ⟨⟨e.1, e.2, true, false⟩, by rw [feed_err hr h]; rfl, ?_, fun _ hf => Bool.noConfusion hf,
          fun _ _ => ⟨hleft.1, hleft.2.1⟩⟩
        rw [Splitter.split_append_pending data hsplit]
        exact hle

theorem run_follows {n : Nat} : ∀ (chunks : List Bytes) {xs : Bytes} {c : Caller}, c.Follows n xs →
    Throughout (feed throws) Sound chunks c →
    ∃ c', runCaught (feed throws) chunks c = ok c' ∧ c'.Follows n (xs ++ chunks.flatten)
  | [], xs, c, hc, _ => ⟨c, rfl, by rw [List.flatten_nil, List.append_nil]; exact hc⟩
  | data :: chunks, xs, c, hc, h => by
    obtain ⟨c₁, h1, hc1⟩ := feed_follows hc h.1
    have hrest := h.2
    rw [after_of_attempt h1] at hrest
    obtain ⟨c₂, h2, hc2⟩ := run_follows chunks hc1 hrest
    refine ⟨c₂, by rw [runCaught_cons h1, h2], ?_⟩
    rw [List.flatten_cons, ← List.append_assoc]
    exact hc2

theorem start_follows (n : Nat) (header : Vector UInt8 4) : (Caller.start n header).Follows n [] := by
  have hpend : pending (mk' n header) = [] := by simp [pending, mk']
  have h := @splits_pending _ collect _ [] (mk'_inv n header)
  rw [hpend] at h
  exact ⟨List.nil_prefix, fun _ _ => h, fun _ hf => by cases hf⟩

/-- Of any sink, bound and chunking. When no chunk completes a frame that the sink has had at an
    exception, the packets given are a subsequence of the stream's frames. Where one does, behind
    any calls, the sink is given a packet of that frame's size once more: what `buffer_` holds
    and the chunk's first bytes. -/
theorem subsequence (throws : List Bytes → Bool) (maxFrameSize : Nat) (header : Vector UInt8 4) (chunks : List Bytes) :
    (Throughout (feed throws) Sound chunks (.start maxFrameSize header) →
      ∃ c, runCaught (feed throws) chunks (.start maxFrameSize header) = ok c ∧
        c.log.Sublist ((frames maxFrameSize).split chunks.flatten).1) ∧
    ∃ c, runCaught (feed throws) chunks (.start maxFrameSize header) = ok c ∧ ∀ data, ¬ Sound data c →
      ∃ c', attempt (feed throws data c) = ok c' ∧
        c.log ++ [(c.deframer.buffer ++ data).take c.deframer.frameSize] <+: c'.log := by
  constructor
  · intro h
    obtain ⟨c, hr, hc⟩ := run_follows chunks (start_follows maxFrameSize header) h
    exact ⟨c, hr, hc.given.sublist⟩
  · obtain ⟨c, hr, hc⟩ := @run_weak throws chunks _ (start_weak maxFrameSize header)
    refine ⟨c, hr, fun data hs => ?_⟩
    obtain ⟨c', h, -, hg⟩ := @feed_weak throws _ hc data
    exact ⟨c', h, hg hs⟩

def atFirst (log : List Bytes) : Bool := log.length == 1

/-- An exception, the rest of its chunk lost, and part of a frame behind it. -/
theorem subsequence_atFirst : ∃ c,
    runCaught (feed atFirst) [[0, 0, 0, 3, 7, 7, 7, 0, 0], [1, 2]] (.start 8 (Vector.replicate 4 0)) = ok c ∧
      c.log.Sublist ((frames 8).split ([[0, 0, 0, 3, 7, 7, 7, 0, 0], [1, 2]] : List Bytes).flatten).1 :=
  (subsequence atFirst 8 _ _).1 (by decide)

/-- The frames "AB" and "", the first in two chunks: its exception leaves `buffer_` full, and the
    next chunk has it given again. The frames "A" and "B", a chunk each: behind the exception
    the first byte of the second header is a packet. -/
theorem twice_and_forged :
    (∃ c, runCaught (feed atFirst) [[0, 0, 0, 2, 65], [66], [0, 0, 0, 0]] (.start 8 (Vector.replicate 4 0)) = ok c ∧
      c.log = [[65, 66], [65, 66], []] ∧
      ¬ c.log.Sublist ((frames 8).split ([[0, 0, 0, 2, 65], [66], [0, 0, 0, 0]] : List Bytes).flatten).1) ∧
    ∃ c, runCaught (feed atFirst) [[0, 0, 0, 1, 65], [0, 0, 0, 1, 66]] (.start 8 (Vector.replicate 4 0)) = ok c ∧
      c.log = [[65], [0]] ∧ ¬ c.log.Sublist
        ((frames 8).split ([[0, 0, 0, 1, 65], [0, 0, 0, 1, 66]] : List Bytes).flatten).1 := by
  have h1 : (frames 8).split ([[0, 0, 0, 2, 65], [66], [0, 0, 0, 0]] : List Bytes).flatten =
    ([[65, 66], []], .pending []) :=
    @split_frames _ [[65, 66], []] (by decide)
  have h2 : (frames 8).split ([[0, 0, 0, 1, 65], [0, 0, 0, 1, 66]] : List Bytes).flatten =
    ([[65], [66]], .pending []) :=
    @split_frames _ [[65], [66]] (by decide)
  rw [h1, h2]
  refine ⟨⟨⟨⟨[], 8, 0, Vector.replicate 4 0, 0, false⟩, [[65, 66], [65, 66], []], false, false⟩, ?_, rfl, by decide⟩,
    ⟨⟨[], 8, 322, Vector.replicate 4 0, 0, false⟩, [[65], [0]], false, true⟩, ?_, rfl, by decide⟩
  · decide +kernel
  · decide +kernel

end OscTap.Framing.OscStreamDeframer
