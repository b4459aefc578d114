/-
  OscTap.Ip.TimerWalk — the timers of the UDP receive loop, with everything that comes in between
  (see `OscTap.Ip.Multiplexer`), against the passes of `OscTap.Ip.Timers`.

  `passes` reads the passes of a call of `Run`, with their clock readings, off its events. Between
  the walks the queue is the one that these passes leave; in the middle of a walk it is that of the
  last pass, moved up to the iterator (`Walk`). A stop request or an exception ends a walk and with
  it the firings, so what `Run` has fired is what the passes fire, up to there.

  Proved: `timers_follow_passes`, over every run.
-/
import OscTap.Ip.Datagrams

namespace OscTap.Ip.Multiplexer

open OscTap.Lib OscTap.Lib.Out OscTap.Tcp OscTap.Ip.Timers

/-! ## Passes -/

/-- The passes so far, and the clock in front of `select()`. -/
structure Passes where
  clock : Int
  inputs : List Input

def Event.note (e : Event) (p : Passes) : Passes :=
  match e with
  | .test currentTimeMs => { p with clock := currentTimeMs }
  | .select .eintr => { p with inputs := p.inputs ++ [⟨p.clock, .interrupted⟩] }
  | .clock currentTimeMs => { p with inputs := p.inputs ++ [⟨p.clock, .woken currentTimeMs⟩] }
  | _ => p

def passes (events : List Event) : Passes := events.foldl (fun p e => e.note p) ⟨0, []⟩

def queueBehind (sort : StdSort) (inputs : List Input) (queue : List ScheduledTimerCall) : List ScheduledTimerCall :=
  inputs.foldl (fun queue input => (iterate sort input.wake queue).queue) queue

def firedIn (sort : StdSort) (inputs : List Input) (queue : List ScheduledTimerCall) : List ScheduledTimerCall :=
  (runLoop sort inputs queue).flatMap (·.fired)

variable {sort : StdSort} {queue : List ScheduledTimerCall}

@[simp]
theorem queueBehind_snoc (inputs : List Input) (input : Input) :
    queueBehind sort (inputs ++ [input]) queue = (iterate sort input.wake (queueBehind sort inputs queue)).queue := by
  simp [queueBehind]

@[simp]
theorem firedIn_snoc (inputs : List Input) (input : Input) :
    firedIn sort (inputs ++ [input]) queue = firedIn sort inputs queue ++
      (iterate sort input.wake (queueBehind sort inputs queue)).visited := by
  induction inputs generalizing queue with
  | nil => simp [firedIn, queueBehind, runLoop]
  | cons x inputs ih => simpa [firedIn, queueBehind, runLoop] using ih

theorem iterate_visited (now : Int) (queue : List ScheduledTimerCall) :
    (iterate sort (.woken now) queue).visited =
    (sweep (expired now) ScheduledTimerCall.reschedule 0 ⟨queue, []⟩).visited := by
  rw [iterate, executeExpired]
  split <;> rfl

/-- A pass that is over, from where its walk has come. -/
theorem iterate_walked {now : Int} {walked rest : List ScheduledTimerCall}
    (hwalked : ∀ call ∈ walked, expired now call = true)
    (hrest : ∀ call, rest.head? = some call → expired now call = false) :
    iterate sort (.woken now) (walked ++ rest) =
      ⟨if 0 < walked.length then sort.sort (walked.map ScheduledTimerCall.reschedule ++ rest)
        else walked.map ScheduledTimerCall.reschedule ++ rest, walked⟩ := by
  rw [iterate, executeExpired, sweep_walked hwalked hrest]
  cases walked <;> rfl

/-- A firing belongs to a pass whose clock has reached its expiry. -/
theorem firedIn_due {call : ScheduledTimerCall} : ∀ {inputs : List Input} {queue : List ScheduledTimerCall},
    call ∈ firedIn sort inputs queue → ∃ clock now, ⟨clock, .woken now⟩ ∈ inputs ∧ call.first ≤ now := by
  intro inputs
  induction inputs with
  | nil => intro queue h; simp [firedIn, runLoop] at h
  | cons x inputs ih =>
    intro queue h
    simp only [firedIn, runLoop, List.flatMap_cons, List.mem_append] at h
    rcases h with h | h
    · obtain ⟨clock, wake⟩ := x
      cases wake with
      | interrupted => simp [iterate] at h
      | woken now =>
        rw [iterate_visited, sweep_visited] at h
        exact ⟨clock, now, List.mem_cons_self .., by simpa [expired] using List.mem_takeWhile_imp h⟩
    · obtain ⟨clock, now, hmem, hle⟩ := ih h
      exact ⟨clock, now, List.mem_cons_of_mem _ hmem, hle⟩

theorem passes_clock {clock now : Int} : ∀ {events : List Event} {p : Passes},
    ⟨clock, .woken now⟩ ∈ (events.foldl (fun p e => Event.note e p) p).inputs → ⟨clock, .woken now⟩ ∈ p.inputs ∨
      .clock now ∈ events := by
  intro events
  induction events with
  | nil => exact fun h => .inl h
  | cons e events ih =>
    intro p h
    rcases ih h with h | h
    · cases e with
      | select result => cases result <;> simp_all [Event.note]
      | clock now' => simp [Event.note] at h ⊢; tauto
      | _ => exact .inl h
    · exact .inr (List.mem_cons_of_mem _ h)

/-! ## The walk -/

def Pc.besideTimers : Pc → Bool
  | .test | .blocked | .woken | .check | .sockets _ | .inPacket _ => true
  | _ => false

/-- Where a call of `Run` is with its timers, that began with the queue `queue` behind the firings `old`. -/
inductive Walk (sort : StdSort) (queue old : List ScheduledTimerCall) (p : Passes) (w : World) : Prop
  | beside : w.pc.besideTimers = true → w.locals.timerQueue = queueBehind sort p.inputs queue →
      w.fired = old ++ firedIn sort p.inputs queue → Walk sort queue old p w
  | walking {inputs : List Input} {clock : Int} {walked rest : List ScheduledTimerCall} : w.pc = .timers walked.length →
      p.inputs = inputs ++ [⟨clock, .woken w.locals.currentTimeMs⟩] → queueBehind sort inputs queue = walked ++ rest →
      (∀ call ∈ walked, expired w.locals.currentTimeMs call = true) →
      w.locals.timerQueue = walked.map ScheduledTimerCall.reschedule ++ rest →
        w.fired = old ++ firedIn sort inputs queue ++ walked →
      Walk sort queue old p w
  | calling {inputs : List Input} {clock : Int} {walked rest : List ScheduledTimerCall} {call : ScheduledTimerCall} :
      w.pc = .inTimer walked.length → p.inputs = inputs ++ [⟨clock, .woken w.locals.currentTimeMs⟩] →
      queueBehind sort inputs queue = walked ++ call :: rest →
      (∀ x ∈ walked ++ [call], expired w.locals.currentTimeMs x = true) →
      w.locals.timerQueue = walked.map ScheduledTimerCall.reschedule ++ call :: rest →
      w.fired = old ++ firedIn sort inputs queue ++ (walked ++ [call]) → Walk sort queue old p w
  | stopped : w.pc.inLoop = false ∨ w.pc = .test ∧ w.mux.break_ = true →
      (∃ fired, w.fired = old ++ fired ∧ fired <+: firedIn sort p.inputs queue) → Walk sort queue old p w

variable {old : List ScheduledTimerCall} {p : Passes} {w w' : World}

/-- What has been fired, wherever `Run` is. -/
theorem Walk.fired (h : Walk sort queue old p w) : ∃ fired, w.fired = old ++ fired ∧
    fired <+: firedIn sort p.inputs queue := by
  cases h with
  | beside _ _ h => exact ⟨_, h, List.prefix_refl _⟩
  | stopped _ h => exact h
  | walking _ hp hq hdue _ hfired =>
    refine ⟨_, hfired.trans (List.append_assoc ..), ?_⟩
    rw [hp, firedIn_snoc, hq, iterate_visited]
    exact (List.prefix_append_right_inj _).mpr (prefix_visited hdue _)
  | @calling _ _ walked rest call _ hp hq hdue _ hfired =>
    refine ⟨_, hfired.trans (List.append_assoc ..), ?_⟩
    have hnext : walked ++ call :: rest = walked ++ [call] ++ rest := by simp
    rw [hp, firedIn_snoc, hq, hnext, iterate_visited]
    exact (List.prefix_append_right_inj _).mpr (prefix_visited hdue _)

theorem note_fired (e : Event) (p : Passes) : firedIn sort p.inputs queue <+: firedIn sort (e.note p).inputs queue := by
  cases e with
  | select result => cases result <;> simp [Event.note]
  | _ => simp [Event.note]

/-- Only a look at the clock begins a walk. -/
theorem note_beside {e : Event} (hclock : ∀ t, e ≠ .clock t) (p : Passes) :
    queueBehind sort (e.note p).inputs queue = queueBehind sort p.inputs queue ∧
      firedIn sort (e.note p).inputs queue = firedIn sort p.inputs queue := by
  cases e with
  | select result => cases result <;> simp [Event.note, iterate]
  | clock t => exact absurd rfl (hclock t)
  | _ => exact ⟨rfl, rfl⟩

/-! ## The steps -/

theorem Walk.unmoved (h : Walk sort queue old p w) (hpc : w'.pc = w.pc) (hl : w'.locals = w.locals)
    (hf : w'.fired = w.fired) (hb : w.mux.break_ = true → w'.mux.break_ = true) : Walk sort queue old p w' := by
  cases h with
  | beside h1 h2 h3 => exact .beside (hpc ▸ h1) (hl ▸ h2) (hf ▸ h3)
  | walking h1 h2 h3 h4 h5 h6 => exact .walking (hpc ▸ h1) (hl ▸ h2) h3 (hl ▸ h4) (hl ▸ h5) (hf ▸ h6)
  | calling h1 h2 h3 h4 h5 h6 => exact .calling (hpc ▸ h1) (hl ▸ h2) h3 (hl ▸ h4) (hl ▸ h5) (hf ▸ h6)
  | stopped h1 h2 => exact .stopped (hpc ▸ h1.imp_right fun h => ⟨h.1, hb h.2⟩) (hf ▸ h2)

/-- Out of the loop. -/
theorem Walk.leave (h : Walk sort queue old p w) (e : Event) (hpc : w'.pc.inLoop = false) (hf : w'.fired = w.fired) :
    Walk sort queue old (e.note p) w' := by
  obtain ⟨fired, hfired, hpre⟩ := h.fired
  exact .stopped (.inl hpc) ⟨fired, hf.trans hfired, hpre.trans (note_fired e p)⟩

theorem Walk.at_beside (h : Walk sort queue old p w) (hpc : w.pc.besideTimers = true)
    (hrun : w.pc = .test → w.mux.break_ = false) :
    w.locals.timerQueue = queueBehind sort p.inputs queue ∧ w.fired = old ++ firedIn sort p.inputs queue := by
  cases h with
  | beside _ hq hf => exact ⟨hq, hf⟩
  | walking h | calling h => rw [h] at hpc; cases hpc
  | stopped h =>
    rcases h with h | ⟨h, hb⟩
    · cases hw : w.pc <;> simp [hw, Pc.inLoop, Pc.besideTimers] at h hpc
    · rw [hrun h] at hb; cases hb

/-- A step that does not come near the timers. -/
theorem Walk.pass_by {e : Event} (h : Walk sort queue old p w) (hclock : ∀ t, e ≠ .clock t)
    (hpc : w.pc.besideTimers = true) (hrun : w.pc = .test → w.mux.break_ = false) (hpc' : w'.pc.besideTimers = true)
    (hq : w'.locals.timerQueue = w.locals.timerQueue)
    (hf : w'.fired = w.fired) : Walk sort queue old (e.note p) w' := by
  obtain ⟨h1, h2⟩ := h.at_beside hpc hrun
  obtain ⟨h3, h4⟩ := @note_beside sort queue _ hclock p
  exact .beside hpc' (by rw [hq, h1, h3]) (by rw [hf, h2, h4])

theorem getElem?_walked {walked rest : List ScheduledTimerCall} :
    (walked.map ScheduledTimerCall.reschedule ++ rest)[walked.length]? = rest.head? := by
  rw [List.getElem?_append_right (by simp)]
  simp [List.head?_eq_getElem?]

theorem modify_walked {walked rest : List ScheduledTimerCall} {call : ScheduledTimerCall} :
    (walked.map ScheduledTimerCall.reschedule ++ call :: rest).modify walked.length ScheduledTimerCall.reschedule =
      (walked ++ [call]).map ScheduledTimerCall.reschedule ++ rest := by
  induction walked with
  | nil => rfl
  | cons x walked ih => simpa using ih

theorem Moves.walk {e : Event} (h : Moves sort w e w') (hone : ∀ t, e ≠ .setUp t) (hw : Walk sort queue old p w) :
    Walk sort queue old (e.note p) w' := by
  cases h with
  | setUp => exact absurd rfl (hone _)
  | listeners _ hpc => exact hw.leave e (by rw [show World.pc { w with mux := _ } = _ from hpc]; rfl) rfl
  | arrived | failed | wrote => exact hw.unmoved rfl rfl rfl id
  | asked | broke => exact hw.unmoved rfl rfl rfl fun _ => rfl
  | run | outOfMemory | stopped | selectLeft | checkLeft | threw | cleared => exact hw.leave _ rfl rfl
  | tested hpc hb => exact hw.pass_by nofun (by rw [hpc]; rfl) (fun _ => hb) rfl rfl rfl
  | selected hpc | retried hpc | drained hpc | checked hpc | skipped hpc | lookFailed hpc | lookEmpty hpc | called hpc
  | packetReturned hpc =>
    exact hw.pass_by nofun (by rw [hpc]; rfl) (fun h => by rw [hpc] at h; cases h) rfl rfl rfl
  | clock hpc =>
    obtain ⟨hq, hf⟩ := hw.at_beside (by rw [hpc]; rfl) fun h => by rw [hpc] at h; cases h
    exact @Walk.walking _ _ _ _ _ p.inputs p.clock [] _ rfl rfl rfl (by simp) hq (by simpa using hf)
  | fired hpc hq hd =>
    cases hw with
    | walking hpc' hp hbehind hdue hqueue hfired =>
      obtain rfl := Pc.timers.inj (hpc.symm.trans hpc')
      rw [hqueue, getElem?_walked] at hq
      obtain ⟨rest, rfl⟩ := List.head?_eq_some_iff.mp hq
      exact .calling rfl hp hbehind (by simpa [or_imp, forall_and] using ⟨hdue, hd⟩) hqueue (by simp [hfired])
    | beside h | calling h => rw [hpc] at h; cases h
    | stopped h => rw [hpc] at h; simp [Pc.inLoop] at h
  | timersEnded hpc hend =>
    cases hw with
    | walking hpc' hp hbehind hdue hqueue hfired =>
      obtain rfl := Pc.timers.inj (hpc.symm.trans hpc')
      rw [hqueue, getElem?_walked] at hend
      refine .beside rfl ?_ ?_
      · simp [World.endTimers, Event.note, hp, hbehind, iterate_walked hdue hend, hqueue]
      · simp [World.endTimers, Event.note, hp, hbehind, iterate_walked hdue hend, hfired]
    | beside h | calling h => rw [hpc] at h; cases h
    | stopped h => rw [hpc] at h; simp [Pc.inLoop] at h
  | timerReturned hpc hb =>
    cases hw with
    | @calling inputs clock walked rest call hpc' hp hbehind hdue hqueue hfired =>
      obtain rfl := Pc.inTimer.inj (hpc.symm.trans hpc')
      refine @Walk.walking _ _ _ _ _ inputs clock (walked ++ [call]) rest (by simp) hp
        (by simpa using hbehind) hdue ?_ hfired
      rw [hqueue, modify_walked]
    | beside h | walking h => rw [hpc] at h; cases h
    | stopped h => rw [hpc] at h; simp [Pc.inLoop] at h
  | timerBroke hpc hb => exact .stopped (.inr ⟨rfl, hb⟩) hw.fired

def Waiting (p : Passes) (w : World) : Prop :=
  w.pc = .blocked → w.locals.timeout = timeoutMs p.clock w.locals.timerQueue

theorem Moves.waiting {e : Event} (h : Moves sort w e w') (hw : Waiting p w) : Waiting (e.note p) w' := by
  cases h with
  | tested => exact fun _ => rfl
  | listeners _ hpc => exact fun h => by rw [show World.pc { w with mux := _ } = _ from hpc] at h; cases h
  | arrived | failed | broke | asked | wrote => exact hw
  | timersEnded | run | setUp | outOfMemory | stopped | selected | retried | selectLeft | drained | checked
  | checkLeft | skipped | lookFailed | lookEmpty | called | clock | fired | packetReturned | timerReturned
  | timerBroke | threw | cleared =>
    exact fun h => by cases h

theorem queueBehind_onSchedule {start : Int} {timers : List AttachedTimerListener} {count : Nat → Nat} :
    ∀ (inputs : List Input)
    {queue : List ScheduledTimerCall}, OnSchedule start timers count queue →
    OnSchedule start timers (fun i => count i + times (firedIn sort inputs queue) i)
      (queueBehind sort inputs queue) := by
  intro inputs
  induction inputs generalizing count with
  | nil => exact fun h => by simpa [firedIn, queueBehind, runLoop, times] using h
  | cons x inputs ih =>
    intro queue h
    obtain ⟨-, -, hnext⟩ := iterate_onSchedule sort x.wake h
    simpa [firedIn, queueBehind, runLoop, times, Nat.add_assoc] using ih hnext

/-- Where a call of `Run` is with its timers. -/
theorem run_walk (sort : StdSort) {breakPipe : Nat} (hb : breakPipe < fdSetSize)
    {before rest : List Event} {start : Int} (hf : ∀ e ∈ before ++ .setUp start :: rest, e.Fits)
    (hp : Throughout (World.step sort) Possible (before ++ .setUp start :: rest) (.start breakPipe))
    (hone : ∀ t, .setUp t ∉ rest) :
    ∃ w w', runCaught (World.step sort) before (.start breakPipe) = ok w ∧
      runCaught (World.step sort) (.setUp start :: rest) w = ok w' ∧
      Walk sort (timerQueue sort start w.mux.timerListeners) w.fired (passes rest) w' ∧ Waiting (passes rest) w' := by
  obtain ⟨w, he, hi⟩ := run_inv sort hb (fun e he => hf e (List.mem_append_left _ he)) hp.of_append
  have hall : Throughout (World.step sort) Possible (.setUp start :: rest) w := hp.append_right he
  have hfits : ∀ e ∈ .setUp start :: rest, e.Fits := fun e he => hf e (List.mem_append_right _ he)
  obtain ⟨w₁, hstep, hm, hi₁⟩ := step_inv sort (hfits _ (List.mem_cons_self ..)) hall.1 hi
  have hrest := hall.2
  rw [after_of_attempt hstep] at hrest
  obtain ⟨hqueue, hfired, hpc⟩ : w₁.locals.timerQueue = timerQueue sort start w.mux.timerListeners ∧
    w₁.fired = w.fired ∧ w₁.pc = .test := by
    cases hm with
    | setUp => exact ⟨rfl, rfl, rfl⟩
    | listeners hown => cases hown
  have hkept : ∀ e ∈ rest, ∀ p v, Possible e v →
      Inv v ∧ Walk sort (timerQueue sort start w.mux.timerListeners) w.fired p v ∧ Waiting p v →
        ∃ v', attempt (World.step sort e v) = ok v' ∧
        Inv v' ∧ Walk sort (timerQueue sort start w.mux.timerListeners) w.fired (e.note p) v' ∧
          Waiting (e.note p) v' := by
    intro e hmem p v hpe ⟨hi, hw, hwait⟩
    obtain ⟨v', hstep, hm, hi'⟩ := step_inv sort (hfits e (List.mem_cons_of_mem _ hmem)) hpe hi
    exact ⟨v', hstep, hi', hm.walk (fun t h => hone t (h ▸ hmem)) hw, hm.waiting hwait⟩
  have hbegin : Walk sort (timerQueue sort start w.mux.timerListeners) w.fired ⟨0, []⟩ w₁ :=
    .beside (by rw [hpc]; rfl) hqueue (hfired.trans (List.append_nil _).symm)
  obtain ⟨w', he', -, hwalk, hwait⟩ :=
    hrest.observed Event.note _ ⟨hi₁, hbegin, fun h => by rw [hpc] at h; cases h⟩ hkept
  exact ⟨w, w', he, by rw [runCaught_cons hstep, he'], hwalk, hwait⟩

/-- The periodic timers keep their schedule whatever the sockets, the callbacks, stop requests and
    exceptions do: what a call of `Run` fires is what its passes fire, up to where it was stopped; the
    k-th call of a timer belongs to its k-th expiry, and comes when the clock has reached it. -/
theorem timers_follow_passes (sort : StdSort) {breakPipe : Nat} (hb : breakPipe < fdSetSize)
    {before rest : List Event} {start : Int} (hf : ∀ e ∈ before ++ .setUp start :: rest, e.Fits)
    (hp : Throughout (World.step sort) Possible (before ++ .setUp start :: rest) (.start breakPipe))
    (hone : ∀ t, .setUp t ∉ rest) :
    ∃ w w' fired, runCaught (World.step sort) before (.start breakPipe) = ok w ∧
      runCaught (World.step sort) (.setUp start :: rest) w = ok w' ∧ w'.fired = w.fired ++ fired ∧
      fired <+: (runLoop sort (passes rest).inputs (timerQueue sort start w.mux.timerListeners)).flatMap (·.fired) ∧
      (w'.pc = .blocked → fired =
        (runLoop sort (passes rest).inputs (timerQueue sort start w.mux.timerListeners)).flatMap (·.fired)) ∧
      (∀ (i k : Nat) (call : ScheduledTimerCall), (fired.filter (·.origin == i))[k]? = some call →
        w.mux.timerListeners[i]? = some call.second ∧
          call.first = start + call.second.initialDelayMs + k * call.second.periodMs) ∧
      ∀ call ∈ fired, ∃ now, .clock now ∈ rest ∧ call.first ≤ now := by
  obtain ⟨w, w', he, he', hwalk, -⟩ := run_walk sort hb hf hp hone
  obtain ⟨fired, hfired, hpre⟩ := hwalk.fired
  refine ⟨w, w', fired, he, he', hfired, hpre, fun hpc' => ?_, fun i k call hcall => ?_, fun call hcall => ?_⟩
  · obtain ⟨-, h⟩ := hwalk.at_beside (by rw [hpc']; rfl) fun h => by rw [hpc'] at h; cases h
    exact List.append_cancel_left (hfired.symm.trans h)
  · have hfirings : (fired.filter (·.origin == i)) <+:
      firings (runLoop sort (passes rest).inputs (timerQueue sort start w.mux.timerListeners)) i :=
      hpre.filter _
    obtain ⟨more, hmore⟩ := hfirings
    have hcall' : (firings (runLoop sort (passes rest).inputs (timerQueue sort start w.mux.timerListeners))
      i)[k]? = some call := by
      rw [← hmore, List.getElem?_append_left (List.getElem?_eq_some_iff.mp hcall).1, hcall]
    simpa [expiry] using runLoop_firings sort (timerQueue_onSchedule sort start w.mux.timerListeners) i k call hcall'
  · obtain ⟨clock, now, hmem, hle⟩ := firedIn_due (hpre.subset hcall)
    rcases passes_clock hmem with h | h
    · cases h
    · exact ⟨now, h, hle⟩

def oneTick : List Event := [.test 0, .select (.ready []), .drain, .check, .clock 0, .timer, .returned, .timer, .test 4]

theorem oneTick_possible :
    Throughout (World.step default) Possible ([.attachPeriodicTimerListener 0 10 0, .run] ++ .setUp 0 :: oneTick)
      (.start 3) := by
  refine ⟨rfl, rfl, rfl, rfl, ⟨rfl, fun fd => ⟨nofun, fun h => ?_⟩, fun _ => ?_⟩, rfl, rfl, rfl, ⟨_, rfl⟩, ?_,
    ⟨1, ?_⟩, ?_, trivial⟩
  · obtain rfl := List.mem_singleton.mp h.1
    exact absurd h.2.2 (by decide)
  · show Locals.timeout _ ≠ none
    decide +kernel
  · show Pc.inCallback (World.pc _) = true
    decide +kernel
  · decide +kernel
  · show World.pc _ = Pc.test
    decide +kernel

theorem timers_follow_passes_oneTick : ∃ w w' fired,
    runCaught (World.step default) [.attachPeriodicTimerListener 0 10 0, .run] (.start 3) = ok w ∧
      runCaught (World.step default) (.setUp 0 :: oneTick) w = ok w' ∧ w'.fired = w.fired ++ fired ∧
      ∀ call ∈ fired, ∃ now, .clock now ∈ oneTick ∧ call.first ≤ now := by
  obtain ⟨w, w', fired, he, he', hfired, -, -, -, hdue⟩ := timers_follow_passes default (by decide)
    (by simp [oneTick, Event.Fits]) oneTick_possible (by simp [oneTick])
  exact ⟨w, w', fired, he, he', hfired, hdue⟩

/-- `Run` never sleeps past a timer: in `select()` it has no time limit only without timers, and else
    one that ends no later than the next expiry of every timer, the one behind its calls so far. -/
theorem waits_for_next_expiry (sort : StdSort) {breakPipe : Nat} (hb : breakPipe < fdSetSize)
    {before rest : List Event} {start : Int} (hf : ∀ e ∈ before ++ .setUp start :: rest, e.Fits)
    (hp : Throughout (World.step sort) Possible (before ++ .setUp start :: rest) (.start breakPipe))
    (hone : ∀ t, .setUp t ∉ rest) :
    ∃ w w' fired, runCaught (World.step sort) before (.start breakPipe) = ok w ∧
      runCaught (World.step sort) (.setUp start :: rest) w = ok w' ∧ w'.fired = w.fired ++ fired ∧
      (w'.pc = .blocked → (w'.locals.timeout = none ↔ w.mux.timerListeners = []) ∧
        ∀ (i : Nat) (t : AttachedTimerListener), w.mux.timerListeners[i]? = some t →
          ∃ limit, w'.locals.timeout = some limit ∧ 0 ≤ limit ∧
          (limit = 0 ∨ (passes rest).clock + limit ≤ start + t.initialDelayMs + (times fired i) * t.periodMs)) := by
  obtain ⟨w, w', he, he', hwalk, hwait⟩ := run_walk sort hb hf hp hone
  obtain ⟨fired, hfired, -⟩ := hwalk.fired
  refine ⟨w, w', fired, he, he', hfired, fun hpc => ?_⟩
  obtain ⟨hqueue, hall⟩ := hwalk.at_beside (by rw [hpc]; rfl) fun h => by rw [hpc] at h; cases h
  have hschedule :=
    @queueBehind_onSchedule sort _ _ _ (passes rest).inputs _ (timerQueue_onSchedule sort start w.mux.timerListeners)
  rw [← List.append_cancel_left (hfired.symm.trans hall), ← hqueue] at hschedule
  have hlimit := hwait hpc
  refine ⟨?_, fun i t ht => ?_⟩
  · have hlen := hschedule.perm.length_eq
    rw [scheduled, List.length_mapIdx] at hlen
    rw [hlimit, timeoutMs, Option.map_eq_none_iff, List.head?_eq_none_iff, ← List.length_eq_zero_iff, hlen,
      List.length_eq_zero_iff]
  · have hmem : (⟨expiry start t (times fired i), t, i⟩ : ScheduledTimerCall) ∈ w'.locals.timerQueue := by
      refine hschedule.perm.mem_iff.mpr (List.mem_mapIdx.mpr ?_)
      obtain ⟨hi, rfl⟩ := List.getElem?_eq_some_iff.mp ht
      exact ⟨i, hi, by simp⟩
    obtain ⟨head, hhead⟩ := Option.ne_none_iff_exists'.mp fun h => List.ne_nil_of_mem hmem (List.head?_eq_none_iff.mp h)
    have hsome : timeoutMs (passes rest).clock w'.locals.timerQueue =
        some (if head.first - (passes rest).clock < 0 then 0 else head.first - (passes rest).clock) := by
      rw [timeoutMs, hhead, Option.map_some]
    obtain ⟨hpos, hreach, -⟩ := timeout_reaches sort hschedule.sorted hsome
    exact ⟨_, hlimit.trans hsome, hpos, hreach _ hmem⟩

theorem waits_for_next_expiry_oneTick : ∃ w w',
    runCaught (World.step default) [.attachPeriodicTimerListener 0 10 0, .run] (.start 3) = ok w ∧
      runCaught (World.step default) (.setUp 0 :: oneTick) w = ok w' ∧
      ∃ limit, w'.locals.timeout = some limit ∧ 0 ≤ limit ∧ (limit = 0 ∨ (passes oneTick).clock + limit ≤ 10) := by
  obtain ⟨w, w', fired, he, he', hfired, hwaits⟩ := waits_for_next_expiry default (by decide)
    (by simp [oneTick, Event.Fits]) oneTick_possible (by simp [oneTick])
  have hd : (fun w : World => (w.fired, w.mux.timerListeners)) <$>
      runCaught (World.step default) [.attachPeriodicTimerListener 0 10 0, .run] (.start 3) =
        ok ([], [⟨0, 10, 0⟩]) := by decide +kernel
  have hd' : (fun w : World => (w.pc, w.fired)) <$>
    (runCaught (World.step default) [.attachPeriodicTimerListener 0 10 0, .run] (.start 3) >>=
      runCaught (World.step default) (.setUp 0 :: oneTick)) = ok (.blocked, [⟨0, ⟨0, 10, 0⟩, 0⟩]) := by decide +kernel
  rw [he, map_ok] at hd
  rw [he, ok_bind, he', map_ok] at hd'
  obtain ⟨hnone, hlisteners⟩ := Prod.mk.inj (Out.ok.inj hd)
  obtain ⟨hpc, hone⟩ := Prod.mk.inj (Out.ok.inj hd')
  rw [hone, hnone, List.nil_append] at hfired
  obtain ⟨limit, h1, h2, h3⟩ := (hwaits hpc).2 0 ⟨0, 10, 0⟩ (by rw [hlisteners]; rfl)
  exact ⟨w, w', he, he', limit, h1, h2, by simpa [← hfired, times] using h3⟩

end OscTap.Ip.Multiplexer
