/-
  OscTap.Framing.Progress — what a call of `Consume` does whatever the sink does (see
  `OscTap.Framing.Deframer`).

  `Shape` holds of a deframer between calls, and of one that an exception of the sink left
  behind: it may then hold a whole payload. A pass of the loop keeps it and reads a byte of
  the chunk, or gives the sink a payload that was whole (`step_any`); so a call ends within
  its chunk (`consume_any`). `Moment` is the deframer at the points of a call.

  Proved: `bounded`, of every sequence of calls and resets with a sink that returns.
-/
import OscTap.Framing.Reassembly

namespace OscTap.Framing.OscStreamDeframer

open OscTap.Lib OscTap.Lib.Out

structure Shape (d : OscStreamDeframer) : Prop where
  fill : d.headerFill < 4
  idle : d.haveHeader = false → d.buffer = []
  held : d.haveHeader = true → d.headerFill = 0 ∧ d.frameSize ≤ d.maxFrameSize ∧ d.frameSize < 2 ^ 32 ∧
    d.buffer.length ≤ d.frameSize

theorem Inv.shape {d : OscStreamDeframer} (h : Inv d) : Shape d :=
  ⟨h.fill, h.idle, fun hh => by
    obtain ⟨h1, h2, h3, h4⟩ := h.held hh
    exact ⟨h1, h2, h3, Nat.le_of_lt h4⟩⟩

theorem Shape.inv {d : OscStreamDeframer} (h : Shape d) (hh : d.haveHeader = false) : Inv d :=
  ⟨h.fill, h.idle, fun h' => by rw [hh] at h'; cases h'⟩

variable {σ : Type} {sink : Sink σ} {data : Bytes}

/-! ## One pass of the loop -/

def still (d : OscStreamDeframer) : Nat := d.frameSize - d.buffer.length

def packet (d : OscStreamDeframer) (data : Bytes) (p : Nat) : Bytes := d.buffer ++ slice data p (p + d.still)

/-- The deframer when the sink is given the payload: one found whole in the chunk is not copied. -/
def atSink (d : OscStreamDeframer) (data : Bytes) (p : Nat) : OscStreamDeframer :=
  if d.buffer = [] then d else { d with buffer := d.packet data p }

def behind (d : OscStreamDeframer) : OscStreamDeframer := { d with buffer := [], haveHeader := false }

theorem length_packet {d : OscStreamDeframer} {p : Nat} (hb : d.buffer.length ≤ d.frameSize)
    (h : p + d.still ≤ data.length) :
    (d.packet data p).length = d.frameSize := by
  rw [packet, List.length_append, length_slice h, still]; omega

theorem payload_whole {d : OscStreamDeframer} {p : Nat} (s : σ) (hb : d.buffer.length ≤ d.frameSize)
    (h : p + d.still ≤ data.length) :
    payload sink data d p s = callSink sink (d.atSink data p) (d.packet data p) s >>= fun s =>
      ok (.next d.behind (p + d.still) s) := by
  unfold payload atSink
  by_cases he : d.buffer = []
  · have hs : d.still = d.frameSize := by rw [still, he]; rfl
    rw [hs] at h
    rw [if_pos ⟨he, by omega⟩, if_pos he, rdBytes_of_le h, ok_bind, packet, hs, he, List.nil_append, behind]
  · have hlen := length_packet hb h
    rw [if_neg (fun hc => he hc.1), if_neg (by omega), if_neg he]
    dsimp only
    rw [show (if data.length - p < d.frameSize - d.buffer.length then data.length - p
      else d.frameSize - d.buffer.length) = d.still by rw [still] at h ⊢; split <;> omega]
    rw [rdBytes_of_le h, ok_bind, if_pos (by exact hlen)]
    rfl

theorem payload_part {d : OscStreamDeframer} {p : Nat} (s : σ) (hp : p ≤ data.length) (h : data.length < p + d.still) :
    payload sink data d p s = ok (.next { d with buffer := d.buffer ++ data.drop p } data.length s) := by
  unfold payload
  rw [still] at h
  rw [if_neg (fun hc => by rw [hc.1, List.length_nil] at h; omega), if_neg (by omega)]
  dsimp only
  have hall : p + (data.length - p) = data.length := by omega
  have hrest : slice data p data.length = data.drop p := by
    rw [drop_eq_slice_append hp, List.drop_length, List.append_nil]
  rw [if_pos (show data.length - p < d.frameSize - d.buffer.length by omega), rdBytes_of_le (by omega),
    ok_bind, hall, hrest, if_neg (by rw [List.length_append, List.length_drop]; omega)]

theorem callSink_any (d : OscStreamDeframer) (packet : Bytes) (s : σ) :
    Sat (callSink sink d packet s) (fun s' => sink s packet = (s', false))
      (fun e => e.1 = d ∧ sink s packet = (e.2, true)) := by
  unfold callSink
  split
  case h_1 s' threw hs =>
    cases threw
    · exact hs
    · exact ⟨rfl, hs⟩

theorem Shape.behind {d : OscStreamDeframer} (h : Shape d) : Inv d.behind :=
  ⟨h.fill, fun _ => rfl, fun hh => by cases hh⟩

theorem Shape.atSink {d : OscStreamDeframer} {p : Nat} (h : Shape d) (hh : d.haveHeader = true)
    (hq : p + d.still ≤ data.length) :
    Shape (d.atSink data p) := by
  obtain ⟨h1, h2, h3, h4⟩ := h.held hh
  unfold OscStreamDeframer.atSink
  split
  · exact h
  · refine ⟨h.fill, fun hn => ?_, fun _ => ⟨h1, h2, h3, ?_⟩⟩
    · rw [show d.haveHeader = false from hn] at hh; cases hh
    · exact Nat.le_of_eq (length_packet h4 hq)

theorem atSink_kept (d : OscStreamDeframer) (data : Bytes) (p : Nat) :
    (d.atSink data p).haveHeader = d.haveHeader ∧ (d.atSink data p).maxFrameSize = d.maxFrameSize := by
  unfold atSink
  split <;> exact ⟨rfl, rfl⟩

/-- What an exception of the sink leaves: the frame it was given, unfinished. -/
def Left (n : Nat) (J : σ → Prop) (e : OscStreamDeframer × σ) : Prop :=
  Shape e.1 ∧ e.1.haveHeader = true ∧ e.1.maxFrameSize = n ∧ J e.2

/-- What a pass from `p` comes to: it has read on, and at most to the chunk's end. -/
def Goes (data : Bytes) (J : σ → Prop) (d : OscStreamDeframer) (p : Nat) : Step σ → Prop
  | .done _ d' s => Inv d' ∧ d'.maxFrameSize = d.maxFrameSize ∧ J s
  | .next d' q s => Inv d' ∧ d'.maxFrameSize = d.maxFrameSize ∧ J s ∧ q ≤ data.length ∧ p ≤ q ∧ (Inv d → p < q)

/-- What a call that returns comes to. -/
def Ends (reads : Prop) (J : σ → Prop) (d : OscStreamDeframer) (r : Bool × OscStreamDeframer × σ) : Prop :=
  Shape r.2.1 ∧ (Inv d ∨ reads → Inv r.2.1) ∧ r.2.1.maxFrameSize = d.maxFrameSize ∧ J r.2.2

variable {J : σ → Prop}

theorem payload_any (hJ : ∀ s packet, J s → J (sink s packet).1) {d : OscStreamDeframer} {p : Nat} {s : σ}
    (hs : J s) (hd : Shape d) (hh : d.haveHeader = true) (hp : p ≤ data.length) :
    Sat (payload sink data d p s) (fun r => ∃ d' q s', r = .next d' q s' ∧ Inv d' ∧
      d'.maxFrameSize = d.maxFrameSize ∧ J s' ∧
      q ≤ data.length ∧ p + min d.still (data.length - p) ≤ q) (Left d.maxFrameSize J) := by
  obtain ⟨h1, h2, h3, h4⟩ := hd.held hh
  by_cases hq : p + d.still ≤ data.length
  · obtain ⟨hh', hm'⟩ := atSink_kept d data p
    have hgiven := hJ s (d.packet data p) hs
    rw [payload_whole s h4 hq]
    have hcall : Sat (callSink sink (d.atSink data p) (d.packet data p) s) J (Left d.maxFrameSize J) := by
      refine (callSink_any _ _ s).mono (fun s' he => ?_) fun e he => ?_
      · rwa [he] at hgiven
      · rw [he.2] at hgiven
        rw [Left, he.1]
        exact ⟨hd.atSink hh hq, hh'.trans hh, hm', hgiven⟩
    exact hcall.bind fun s' hs' => ⟨_, _, s', rfl, hd.behind, rfl, hs', hq, by omega⟩
  · rw [payload_part s hp (by omega)]
    refine ⟨_, _, s, rfl, ⟨hd.fill, fun hn => ?_, fun _ => ⟨h1, h2, h3, ?_⟩⟩, rfl, hs, Nat.le_refl _, by omega⟩
    · rw [show d.haveHeader = false from hn] at hh; cases hh
    · rw [still] at hq
      dsimp only
      rw [List.length_append, List.length_drop]; omega

/-- A header that fits is read: its payload comes next. -/
theorem accept_shape {d : OscStreamDeframer} (hb : d.buffer = []) (hf : d.headerFill = 0) (hs : d.frameSize < 2 ^ 32)
    (hfits : ¬ d.maxFrameSize < d.frameSize) : Shape { d with haveHeader := true } := by
  have hroom : d.buffer.length ≤ d.frameSize := by rw [hb]; exact Nat.zero_le _
  exact ⟨by dsimp only; omega, nofun, fun _ => ⟨hf, Nat.not_lt.mp hfits, hs, hroom⟩⟩

theorem step_any (hJ : ∀ s packet, J s → J (sink s packet).1) {d : OscStreamDeframer} {p : Nat} {s : σ}
    (hs : J s) (hd : Shape d) (hp : p < data.length) :
    Sat (step sink data d p s) (Goes data J d p) (Left d.maxFrameSize J) := by
  unfold step
  by_cases hh : d.haveHeader = true
  · rw [if_pos hh]
    refine (payload_any hJ hs hd hh (Nat.le_of_lt hp)).mono (fun r hr => ?_) fun e he => he
    obtain ⟨d', q, s', rfl, hi, hm, hs', hq, hle⟩ := hr
    refine ⟨hi, hm, hs', hq, by omega, fun hinv => ?_⟩
    have := (hinv.held hh).2.2.2
    rw [still] at hle
    omega
  · have hh' : d.haveHeader = false := by simpa using hh
    rw [if_neg hh]
    rcases readHeader_spec (ε := OscStreamDeframer × σ) (hd.inv hh') hh' hp with
      ⟨d', h, hi, -, hm, -⟩ | ⟨d', q, h, hq, hql, hh1, hb, hf, hm, hsmall, -⟩
    · rw [h, ok_bind]
      exact ⟨hi, hm, hs⟩
    · rw [h, ok_bind]
      dsimp only
      rw [if_neg (by simp)]
      by_cases hbig : d'.maxFrameSize < d'.frameSize
      · rw [if_pos hbig]
        exact ⟨⟨by omega, fun _ => hb, fun h => by rw [hh1] at h; cases h⟩, hm, hs⟩
      · rw [if_neg hbig, ← hm]
        refine (payload_any hJ hs (accept_shape hb hf hsmall hbig) rfl hql).mono (fun r hr => ?_) fun e he => he
        obtain ⟨d'', r, s', rfl, hi, hm', hs', hr, hle⟩ := hr
        exact ⟨hi, hm'.trans hm, hs', hr, by omega, fun _ => by omega⟩

/-! ## A call -/

/-- A pass that reads nothing leaves a deframer whose next pass reads on, so the fuel of a call is enough. -/
theorem loop_any (hJ : ∀ s packet, J s → J (sink s packet).1) : ∀ (n p : Nat) (d : OscStreamDeframer) (s : σ), J s →
    p ≤ data.length → Shape d → (data.length - p < n ∨ (Inv d ∧ data.length - p ≤ n)) →
    Sat (loop sink data n d p s) (Ends (p < data.length) J d) (Left d.maxFrameSize J) := by
  intro n
  induction n with
  | zero =>
    intro p d s hs hp hd hn
    unfold loop
    rw [if_neg (by omega)]
    exact ⟨hd, fun h => h.resolve_right (by omega), rfl, hs⟩
  | succ n ih =>
    intro p d s hs hp hd hn
    unfold loop
    by_cases hlt : p < data.length
    · rw [if_pos hlt]
      refine (step_any hJ hs hd hlt).bind fun r hr => ?_
      cases r with
      | done result d' s' => exact ⟨hr.1.shape, fun _ => hr.1, hr.2⟩
      | next d' q s' =>
        obtain ⟨hi, hm, hs', hq, hle, hprog⟩ := hr
        have hfuel : data.length - q ≤ n := by
          rcases hn with hn | ⟨hinv, hn⟩
          · omega
          · have := hprog hinv
            omega
        rw [← hm]
        refine (ih q d' s' hs' hq hi.shape (.inr ⟨hi, hfuel⟩)).mono (fun r hr => ?_) fun e he => he
        exact ⟨hr.1, fun _ => hr.2.1 (.inl hi), hr.2.2.1.trans hm, hr.2.2.2⟩
    · rw [if_neg hlt]
      exact ⟨hd, fun h => h.resolve_right hlt, rfl, hs⟩

/-- A call ends within its chunk, whatever the sink does: by a return, or by the sink's exception. -/
theorem consume_any (hJ : ∀ s packet, J s → J (sink s packet).1) {d : OscStreamDeframer} (hd : Shape d)
    (data : Bytes) {s : σ} (hs : J s) : Sat (consume sink d data s) (Ends (0 < data.length) J d)
    (Left d.maxFrameSize J) :=
  loop_any hJ _ 0 d s hs (Nat.zero_le _) hd (.inl (by omega))

/-! ## The points of a call -/

inductive Point where
  /-- `while (p < end)`. -/
  | test
  /-- Behind the header, or as much of it as there is. -/
  | header
  /-- In front of the payload. -/
  | payload
  /-- Behind `buffer_.insert`. -/
  | inserted
  deriving DecidableEq, Repr

/-- The deframer at the points of the call on `data`, how much of the chunk is read, and the sink's state. -/
inductive Moment (sink : Sink σ) (data : Bytes) (d₀ : OscStreamDeframer) (s₀ : σ) :
    Point → OscStreamDeframer → Nat → σ → Prop
  | enter : Moment sink data d₀ s₀ .test d₀ 0 s₀
  | header {d d' : OscStreamDeframer} {p q : Nat} {s : σ} {complete : Bool} : Moment sink data d₀ s₀ .test d p s →
      p < data.length → d.haveHeader = false →
      (readHeader data d p : Out (OscStreamDeframer × σ) _) = ok (complete, d', q) →
        Moment sink data d₀ s₀ .header d' q s
  | accepted {d d' : OscStreamDeframer} {p q : Nat} {s : σ} : Moment sink data d₀ s₀ .test d p s →
      p < data.length → d.haveHeader = false →
      (readHeader data d p : Out (OscStreamDeframer × σ) _) = ok (true, d', q) → ¬ d'.maxFrameSize < d'.frameSize →
      Moment sink data d₀ s₀ .payload { d' with haveHeader := true } q s
  | held {d : OscStreamDeframer} {p : Nat} {s : σ} : Moment sink data d₀ s₀ .test d p s → p < data.length →
      d.haveHeader = true → Moment sink data d₀ s₀ .payload d p s
  | inserted {d : OscStreamDeframer} {p take : Nat} {s : σ} {bytes : Bytes} : Moment sink data d₀ s₀ .payload d p s →
      ¬ (d.buffer = [] ∧ d.frameSize ≤ data.length - p) →
      take = min (data.length - p) (d.frameSize - d.buffer.length) →
      (rdBytes data p take : Out (OscStreamDeframer × σ) _) = ok bytes →
      Moment sink data d₀ s₀ .inserted { d with buffer := d.buffer ++ bytes } (p + take) s
  | next {d d' : OscStreamDeframer} {p q : Nat} {s s' : σ} : Moment sink data d₀ s₀ .payload d p s →
      OscStreamDeframer.payload sink data d p s = ok (.next d' q s') → Moment sink data d₀ s₀ .test d' q s'

variable {d₀ : OscStreamDeframer} {s₀ : σ}

def AtPoint (d : OscStreamDeframer) : Point → Prop
  | .test => Shape d
  | .header => d.buffer = []
  | .payload => Shape d ∧ d.haveHeader = true
  | .inserted => d.buffer.length ≤ d.frameSize ∧ d.frameSize ≤ d.maxFrameSize

theorem Moment.at (hd : Shape d₀) {point : Point} {d : OscStreamDeframer} {p : Nat} {s : σ}
    (h : Moment sink data d₀ s₀ point d p s) : AtPoint d point ∧ d.maxFrameSize = d₀.maxFrameSize ∧
      p ≤ data.length := by
  induction h with
  | enter => exact ⟨hd, rfl, Nat.zero_le _⟩
  | header _ hp hh hr ih =>
    obtain ⟨hs, hm, -⟩ := ih
    rcases readHeader_spec (ε := OscStreamDeframer × σ) (hs.inv hh) hh hp with
      ⟨d', h, hi, hh1, hm', -⟩ | ⟨d', q, h, -, hql, -, hb, -, hm', -, -⟩
    · cases hr.symm.trans h
      exact ⟨hi.idle hh1, hm'.trans hm, Nat.le_refl _⟩
    · cases hr.symm.trans h
      exact ⟨hb, hm'.trans hm, hql⟩
  | accepted _ hp hh hr hfits ih =>
    obtain ⟨hs, hm, -⟩ := ih
    rcases readHeader_spec (ε := OscStreamDeframer × σ) (hs.inv hh) hh hp with
      ⟨d', h, -⟩ | ⟨d', q, h, -, hql, -, hb, hf, hm', hsmall, -⟩
    · cases hr.symm.trans h
    · cases hr.symm.trans h
      exact ⟨⟨accept_shape hb hf hsmall hfits, rfl⟩, hm'.trans hm, hql⟩
  | held _ _ hh ih => exact ⟨⟨ih.1, hh⟩, ih.2⟩
  | @inserted d p take _ bytes _ _ htake hr ih =>
    obtain ⟨⟨hs, hh⟩, hm, hp⟩ := ih
    obtain ⟨-, h2, -, h4⟩ := hs.held hh
    have hle : p + take ≤ data.length := by omega
    rw [rdBytes_of_le hle] at hr
    cases hr
    refine ⟨⟨?_, h2⟩, hm, hle⟩
    rw [List.length_append, length_slice hle]
    dsimp only
    omega
  | next _ hr ih =>
    obtain ⟨⟨hs, hh⟩, hm, hp⟩ := ih
    obtain ⟨d', q, s', he, hi, hm', -, hq, -⟩ :=
      (payload_any (J := fun _ => True) (fun _ _ h => h) trivial hs hh hp).ok_of_eq hr
    cases he
    exact ⟨hi.shape, hm'.trans hm, hq⟩

/-- A call that returns ends at one of its points. -/
theorem loop_moment (hd : Shape d₀) : ∀ (n p : Nat) (d : OscStreamDeframer) (s : σ) (r : Bool × OscStreamDeframer × σ),
    Moment sink data d₀ s₀ .test d p s → loop sink data n d p s = ok r →
      ∃ point q, Moment sink data d₀ s₀ point r.2.1 q r.2.2 := by
  intro n
  induction n with
  | zero =>
    intro p d s r hm h
    unfold loop at h
    split at h
    · cases h
    · cases h; exact ⟨_, _, hm⟩
  | succ n ih =>
    intro p d s r hm h
    unfold loop at h
    split at h
    · rename_i hp
      obtain ⟨x, hx, h⟩ := bind_eq_ok.mp h
      unfold step at hx
      -- behind `payload` the loop goes on, from a moment at its test
      have go : ∀ {d' : OscStreamDeframer} {q : Nat}, Moment sink data d₀ s₀ .payload d' q s →
          payload sink data d' q s = ok x → ∃ point q, Moment sink data d₀ s₀ point r.2.1 q r.2.2 := by
        intro d' q hm hx
        obtain ⟨⟨hs, hh⟩, -, hq⟩ := hm.at hd
        obtain ⟨d'', q', s', rfl, -⟩ := (payload_any (J := fun _ => True) (fun _ _ h => h) trivial hs hh hq).ok_of_eq hx
        exact ih _ _ _ _ (.next hm hx) h
      split at hx
      · rename_i hh
        exact go (.held hm hp hh) hx
      · rename_i hh
        obtain ⟨⟨complete, d', q⟩, hr, hx⟩ := bind_eq_ok.mp hx
        have hh' : d.haveHeader = false := by simpa using hh
        cases complete with
        | false => cases hx; cases h; exact ⟨_, _, .header hm hp hh' hr⟩
        | true =>
          dsimp only at hx
          rw [if_neg (by simp)] at hx
          split at hx
          · cases hx; cases h; exact ⟨_, _, .header hm hp hh' hr⟩
          · rename_i hfits
            exact go (.accepted hm hp hh' hr hfits) hx
    · cases h; exact ⟨_, _, hm⟩

theorem AtPoint.limits {d : OscStreamDeframer} {point : Point} (h : AtPoint d point) :
    d.buffer.length ≤ d.maxFrameSize ∧ (d.maxFrameSize < d.frameSize → d.buffer = []) ∧
      (point = .payload → d.buffer.length ≤ d.frameSize) := by
  have shape : Shape d → d.buffer.length ≤ d.maxFrameSize ∧ (d.maxFrameSize < d.frameSize → d.buffer = []) := by
    intro hs
    by_cases hh : d.haveHeader = true
    · obtain ⟨-, h2, -, h4⟩ := hs.held hh
      exact ⟨by omega, fun h => by omega⟩
    · have hb := hs.idle (by simpa using hh)
      exact ⟨by rw [hb]; exact Nat.zero_le _, fun _ => hb⟩
  cases point with
  | test => exact ⟨(shape h).1, (shape h).2, nofun⟩
  | header =>
    have hb : d.buffer = [] := h
    exact ⟨by rw [hb]; exact Nat.zero_le _, fun _ => hb, nofun⟩
  | payload => exact ⟨(shape h.1).1, (shape h.1).2, fun _ => (h.1.held h.2).2.2.2⟩
  | inserted =>
    obtain ⟨h1, h2⟩ := h
    exact ⟨by omega, fun h => by omega, nofun⟩

/-! ## A run -/

inductive Op where
  | consume (data : Bytes)
  | reset

def Op.apply (sink : Sink σ) : Op → OscStreamDeframer × σ → Out (OscStreamDeframer × σ) (OscStreamDeframer × σ)
  | .consume data, x => do
    let r ← OscStreamDeframer.consume sink x.1 data x.2
    ok r.2
  | .reset, x => ok (x.1.reset, x.2)

def run (sink : Sink σ) (ops : List Op) (x : OscStreamDeframer × σ) :
    Out (OscStreamDeframer × σ) (OscStreamDeframer × σ) :=
  ops.foldlM (fun x op => op.apply sink x) x

theorem consume_returns (hs : Returns sink) (hd : Inv d₀) (data : Bytes) (s : σ) :
    ∃ r, consume sink d₀ data s = ok r ∧ Inv r.2.1 ∧ r.2.1.maxFrameSize = d₀.maxFrameSize := by
  obtain ⟨r, hr, -⟩ := consume_spec hs s hd data
  have h := (consume_any (J := fun _ => True) (fun _ _ h => h) hd.shape data trivial).ok_of_eq hr
  exact ⟨r, hr, h.2.1 (.inl hd), h.2.2.1⟩

theorem run_inv (hs : Returns sink) (ops : List Op) (hd : Inv d₀) (s : σ) :
    ∃ x, run sink ops (d₀, s) = ok x ∧ Inv x.1 ∧ x.1.maxFrameSize = d₀.maxFrameSize := by
  refine (Sat.foldlM
    (I := fun x : OscStreamDeframer × σ => Inv x.1 ∧ x.1.maxFrameSize = d₀.maxFrameSize) ?_ ⟨hd, rfl⟩).returns
  rintro op - x ⟨hi, hm⟩
  cases op with
  | consume data =>
    obtain ⟨r, hr, hi', hm'⟩ := consume_returns hs hi data x.2
    rw [Op.apply, hr, ok_bind]
    exact ⟨hi', hm'.trans hm⟩
  | reset => exact ⟨reset_inv x.1, hm⟩

/-- Behind every sequence of calls and resets, also of calls behind a refused frame: the
    deframer holds less than one frame that fits, or part of a header and no payload. The next
    call, on any bytes, ends within its chunk, and at each of its points the payload bytes held
    are at most `maxFrameSize_`, none of a frame that is too long, and no more than the frame's
    size where they are taken from it. -/
theorem bounded (hs : Returns sink) (maxFrameSize : Nat) (header : Vector UInt8 4) (s : σ) (ops : List Op) :
    ∃ d s', run sink ops (mk' maxFrameSize header, s) = ok (d, s') ∧ d.maxFrameSize = maxFrameSize ∧
      d.headerFill < 4 ∧ (d.haveHeader = false → d.buffer = []) ∧
      (d.haveHeader = true → d.frameSize ≤ d.maxFrameSize ∧ d.buffer.length < d.frameSize) ∧
      ∀ data, (∃ r, consume sink d data s' = ok r ∧ ∃ point p, Moment sink data d s' point r.2.1 p r.2.2) ∧
        ∀ point x p t, Moment sink data d s' point x p t → p ≤ data.length ∧ x.buffer.length ≤ maxFrameSize ∧
          (maxFrameSize < x.frameSize → x.buffer = []) ∧ (point = .payload → x.buffer.length ≤ x.frameSize) := by
  obtain ⟨⟨d, s'⟩, hr, hi, hm⟩ := run_inv hs ops (mk'_inv maxFrameSize header) s
  have hheld : d.haveHeader = true → d.frameSize ≤ d.maxFrameSize ∧ d.buffer.length < d.frameSize := fun hh =>
    ⟨(hi.held hh).2.1, (hi.held hh).2.2.2⟩
  refine ⟨d, s', hr, hm, hi.fill, hi.idle, hheld, fun data => ⟨?_, fun point x p t hx => ?_⟩⟩
  · obtain ⟨r, hr, -⟩ := consume_returns hs hi data s'
    exact ⟨r, hr, loop_moment hi.shape _ _ _ _ r .enter hr⟩
  · obtain ⟨hat, hx, hp⟩ := hx.at hi.shape
    obtain ⟨h1, h2, h3⟩ := hat.limits
    rw [hx.trans hm] at h1 h2
    exact ⟨hp, h1, h2, h3⟩

theorem bounded_collect : ∃ d s', run collect [.consume [0, 0, 0, 3, 7], .reset, .consume [0, 0, 0, 9]]
    (mk' 8 (Vector.replicate 4 0), []) = ok (d, s') ∧
    d.maxFrameSize = 8 ∧ d.headerFill < 4 ∧ (d.haveHeader = false → d.buffer = []) ∧
      (d.haveHeader = true → d.frameSize ≤ d.maxFrameSize ∧ d.buffer.length < d.frameSize) ∧
      ∀ data, (∃ r, consume collect d data s' = ok r ∧ ∃ point p, Moment collect data d s' point r.2.1 p r.2.2) ∧
        ∀ point x p t, Moment collect data d s' point x p t → p ≤ data.length ∧ x.buffer.length ≤ 8 ∧
          (8 < x.frameSize → x.buffer = []) ∧ (point = .payload → x.buffer.length ≤ x.frameSize) :=
  bounded (fun _ _ => rfl) 8 _ [] _

end OscTap.Framing.OscStreamDeframer
