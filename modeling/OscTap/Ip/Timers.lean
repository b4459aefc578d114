/-
  OscTap.Ip.Timers — the periodic timers of the UDP receive loop (`Run` of
  `SocketReceiveMultiplexerImplementation` in `osctap/ip/posix/UdpSocket.h`).

  `Run` copies the attached timers into a queue, each with its first expiry, and sorts it. A
  pass of the loop waits in `select()` until the first expiry at most. When `select()` is
  interrupted the pass begins anew; otherwise the sockets are served, the clock is read, and
  the queue is walked from its front while the expiry there is not behind the clock: the
  timer is called and its expiry raised in place, and the queue is sorted again only behind
  the walk. Clock readings and expiries are exact integers. The passes are those in which
  `break_` stays unset.

  A timer's schedule is `expiry start t k`, whatever the clock reads. `scheduled` is the
  queue as its purpose has it: every attached timer once, at the expiry that follows its
  firings so far. A pass of the loop keeps the queue equal to it, up to the order of ties.

  Proved:
  - `iterate_onSchedule`: what one pass fires and leaves.
  - `timers_on_schedule`: every pass of every run fires the due timers, each once, in order,
    and the k-th firing of a timer belongs to its k-th expiry.
  - `timeout_reaches`: `select()` is never given a time past the next expiry, and a pass that
    wakes at the end of its time fires.
-/
import OscTap.Lib.Sweep
import Mathlib.Data.List.Induction
import Mathlib.Tactic.Ring

namespace OscTap.Ip.Timers

open OscTap.Lib

structure AttachedTimerListener where
  initialDelayMs : Int
  periodMs : Int
  listener : Nat
  deriving DecidableEq, Repr

/-- `std::pair<double, AttachedTimerListener>`: the expiry time in ms, the timer. -/
structure ScheduledTimerCall where
  first : Int
  second : AttachedTimerListener
  /-- Where in `timerListeners_` it was copied from; the code does not keep it. -/
  origin : Nat
  deriving DecidableEq, Repr

def compareScheduledTimerCalls (lhs rhs : ScheduledTimerCall) : Bool := decide (lhs.first < rhs.first)

/-- `std::sort` by `CompareScheduledTimerCalls`: the same calls, none behind a later one. Ties
    may come in any order. -/
structure StdSort where
  sort : List ScheduledTimerCall → List ScheduledTimerCall
  perm : ∀ q, (sort q).Perm q
  sorted : ∀ q, (sort q).Pairwise fun a b => compareScheduledTimerCalls b a = false

instance : Inhabited StdSort where
  default :=
    { sort := fun q => q.mergeSort fun a b => !compareScheduledTimerCalls b a
      perm := fun q => List.mergeSort_perm q _
      sorted := fun q => by
        have h : (q.mergeSort fun a b => !compareScheduledTimerCalls b a).Pairwise fun a b =>
            (!compareScheduledTimerCalls b a) = true :=
          List.pairwise_mergeSort (fun a b c => by
            simp only [compareScheduledTimerCalls, Bool.not_eq_true', decide_eq_false_iff_not]
            omega) (fun a b => by
            simp only [compareScheduledTimerCalls, Bool.or_eq_true, Bool.not_eq_true', decide_eq_false_iff_not]
            omega) q
        simpa using h }

/-! ## The loop -/

def timerQueue (s : StdSort) (currentTimeMs : Int) (timerListeners : List AttachedTimerListener) :
    List ScheduledTimerCall :=
  s.sort (timerListeners.mapIdx fun i t => ⟨currentTimeMs + t.initialDelayMs, t, i⟩)

/-- What `select()` is given; `none` is the code's null pointer, no limit. -/
def timeoutMs (currentTimeMs : Int) (queue : List ScheduledTimerCall) : Option Int :=
  queue.head?.map fun call =>
    if call.first - currentTimeMs < 0 then 0 else call.first - currentTimeMs

/-- How `select()` ends: by EINTR, or else with the clock that is read in front of the timers. -/
inductive Wake where
  | interrupted
  | woken (currentTimeMs : Int)
  deriving DecidableEq, Repr

def expired (currentTimeMs : Int) (call : ScheduledTimerCall) : Bool := decide (call.first ≤ currentTimeMs)

def ScheduledTimerCall.reschedule (call : ScheduledTimerCall) : ScheduledTimerCall :=
  { call with first := call.first + call.second.periodMs }

/-- The walk over the expired timers and the sort behind it; `visited` are the timers whose
    `TimerExpired` is called. `resort` is set where there is one. -/
def executeExpired (s : StdSort) (currentTimeMs : Int) (queue : List ScheduledTimerCall) : Swept ScheduledTimerCall :=
  let walked := sweep (expired currentTimeMs) ScheduledTimerCall.reschedule 0 ⟨queue, []⟩
  if walked.visited ≠ [] then { walked with queue := s.sort walked.queue } else walked

def iterate (s : StdSort) (wake : Wake) (queue : List ScheduledTimerCall) : Swept ScheduledTimerCall :=
  match wake with
  | .interrupted => ⟨queue, []⟩
  | .woken currentTimeMs => executeExpired s currentTimeMs queue

/-- What a pass is given: the clock in front of `select()`, and how `select()` ends. -/
structure Input where
  clock : Int
  wake : Wake
  deriving DecidableEq, Repr

structure Iteration where
  input : Input
  /-- At its start. -/
  queue : List ScheduledTimerCall
  timeout : Option Int
  fired : List ScheduledTimerCall
  deriving DecidableEq, Repr

def runLoop (s : StdSort) : List Input → List ScheduledTimerCall → List Iteration
  | [], _ => []
  | input :: inputs, queue =>
    let done := iterate s input.wake queue
    ⟨input, queue, timeoutMs input.clock queue, done.visited⟩ :: runLoop s inputs done.queue

/-! ## The schedule -/

/-- The k-th expiry of a timer of a loop begun at `start`. -/
def expiry (start : Int) (t : AttachedTimerListener) (k : Nat) : Int := start + t.initialDelayMs + k * t.periodMs

/-- Every attached timer, once, at the expiry behind the firings it has had. -/
def scheduled (start : Int) (timers : List AttachedTimerListener) (count : Nat → Nat) : List ScheduledTimerCall :=
  timers.mapIdx fun i t => ⟨expiry start t (count i), t, i⟩

def Sorted (queue : List ScheduledTimerCall) : Prop := queue.Pairwise fun a b => a.first ≤ b.first

def Wake.due : Wake → ScheduledTimerCall → Bool
  | .interrupted, _ => false
  | .woken currentTimeMs, call => expired currentTimeMs call

def times (calls : List ScheduledTimerCall) (i : Nat) : Nat := calls.countP (·.origin == i)

/-- The queue is as its purpose has it. -/
structure OnSchedule (start : Int) (timers : List AttachedTimerListener) (count : Nat → Nat)
    (queue : List ScheduledTimerCall) : Prop where
  sorted : Sorted queue
  perm : queue.Perm (scheduled start timers count)

theorem StdSort.sort_sorted (s : StdSort) (q : List ScheduledTimerCall) : Sorted (s.sort q) :=
  (s.sorted q).imp fun h => by simpa [compareScheduledTimerCalls] using h

theorem timerQueue_onSchedule (s : StdSort) (start : Int) (timers : List AttachedTimerListener) :
    OnSchedule start timers (fun _ => 0) (timerQueue s start timers) := by
  refine ⟨s.sort_sorted _, ?_⟩
  have h := s.perm (timers.mapIdx fun i t => ⟨start + t.initialDelayMs, t, i⟩)
  simpa [scheduled, expiry, timerQueue] using h

/-! ## One pass -/

theorem Sorted.dueFirst {queue : List ScheduledTimerCall} (h : Sorted queue) (now : Int) :
    DueFirst (expired now) queue :=
  h.imp fun hab hb => by
    simp only [expired, decide_eq_true_eq] at hb ⊢
    omega

/-- The calls behind a pass, those that were due rescheduled. -/
def moved (wake : Wake) (queue : List ScheduledTimerCall) : List ScheduledTimerCall :=
  queue.map fun call => if wake.due call then call.reschedule else call

/-- On a sorted queue a pass fires every call that is due and reschedules these, and no other. -/
theorem iterate_sorted (s : StdSort) (wake : Wake) {queue : List ScheduledTimerCall} (h : Sorted queue) :
    (iterate s wake queue).visited = queue.filter wake.due ∧ Sorted (iterate s wake queue).queue ∧
      (iterate s wake queue).queue.Perm (moved wake queue) := by
  cases wake with
  | interrupted => simpa [iterate, moved, Wake.due] using h
  | woken now =>
    have hv : (sweep (expired now) ScheduledTimerCall.reschedule 0 ⟨queue, []⟩).visited =
      queue.filter (expired now) := by
      rw [sweep_visited, (h.dueFirst now).takeWhile_eq]
    have hq : (sweep (expired now) ScheduledTimerCall.reschedule 0 ⟨queue, []⟩).queue = moved (.woken now) queue := by
      rw [sweep_queue, (h.dueFirst now).map_eq]
      rfl
    rw [iterate, executeExpired]
    by_cases hn : queue.filter (expired now) = []
    · -- nothing is fired, and the queue is not sorted again
      have hsame : moved (.woken now) queue = queue := by
        have hnone := List.filter_eq_nil_iff.mp hn
        conv_rhs => rw [← List.map_id queue]
        exact List.map_congr_left fun call hc => if_neg (hnone call hc)
      rw [if_neg (by rw [hv, hn]; simp)]
      refine ⟨hv, ?_, ?_⟩
      · rw [hq, hsame]; exact h
      · rw [hq]
    · rw [if_pos (by rw [hv]; exact hn)]
      refine ⟨hv, s.sort_sorted _, ?_⟩
      rw [← hq]
      exact s.perm _

/-! ## The firings of one timer -/

variable {start : Int} {timers : List AttachedTimerListener} {count : Nat → Nat}

/-- Among the calls of the schedule the timer at `i` has the one of its next expiry. -/
theorem scheduled_origin (start : Int) (timers : List AttachedTimerListener) (count : Nat → Nat) (i : Nat) :
    (scheduled start timers count).filter (·.origin == i) =
      (timers[i]?.map fun t => (⟨expiry start t (count i), t, i⟩ : ScheduledTimerCall)).toList := by
  induction timers using List.reverseRecOn with
  | nil => rfl
  | append_singleton timers t ih =>
    rw [scheduled, List.mapIdx_concat, List.filter_append, ← scheduled, ih]
    rcases Nat.lt_trichotomy i timers.length with h | rfl | h
    · have hne : (timers.length == i) = false := by simp; omega
      simp [h, hne, List.getElem?_append_left h]
    · simp
    · have hne : (timers.length == i) = false := by simp; omega
      have hout : timers.length ≤ i := by omega
      have hout' : (timers ++ [t]).length ≤ i := by simp; omega
      simp [hne, hout, List.getElem?_eq_none hout']

/-- What a pass fires of the timer at `i`: the call of its next expiry where that is due. -/
theorem fired_origin {wake : Wake} {fired : List ScheduledTimerCall}
    (h : fired.Perm ((scheduled start timers count).filter wake.due)) (i : Nat) :
    fired.filter (·.origin == i) =
      ((timers[i]?.map fun t => (⟨expiry start t (count i), t, i⟩ : ScheduledTimerCall)).toList).filter wake.due := by
  have hp := h.filter (·.origin == i)
  rw [List.filter_filter, List.filter_congr (fun call _ => Bool.and_comm _ _), ← List.filter_filter,
    scheduled_origin] at hp
  cases ht : timers[i]? with
  | none => simpa [ht] using hp
  | some t =>
    rw [ht] at hp
    by_cases hd : wake.due ⟨expiry start t (count i), t, i⟩ = true
    · simpa [hd] using hp
    · simpa [hd] using hp

theorem times_eq (calls : List ScheduledTimerCall) (i : Nat) : times calls i = (calls.filter (·.origin == i)).length :=
  List.countP_eq_length_filter

theorem expiry_succ (start : Int) (t : AttachedTimerListener) (k : Nat) :
    expiry start t (k + 1) = expiry start t k + t.periodMs := by
  simp only [expiry, Nat.cast_add, Nat.cast_one]
  ring

/-- The schedule behind a pass is that of the firings it adds. -/
theorem moved_scheduled {wake : Wake} {fired : List ScheduledTimerCall}
    (h : fired.Perm ((scheduled start timers count).filter wake.due)) :
    moved wake (scheduled start timers count) = scheduled start timers fun i => count i + times fired i := by
  refine List.ext_getElem (by simp [moved, scheduled]) fun i hi _ => ?_
  have hlen : i < timers.length := by simpa [moved, scheduled] using hi
  have hown := fired_origin h i
  rw [List.getElem?_eq_getElem hlen] at hown
  simp only [moved, scheduled, List.getElem_map, List.getElem_mapIdx, times_eq, hown]
  by_cases hd : wake.due ⟨expiry start timers[i] (count i), timers[i], i⟩ = true
  · simp [hd, ScheduledTimerCall.reschedule, expiry_succ]
  · simp [hd]

theorem moved_perm {wake : Wake} {q q' : List ScheduledTimerCall} (h : q.Perm q') :
    (moved wake q).Perm (moved wake q') :=
  h.map _

/-- One pass: it fires the due calls of the schedule, each once, in the order of their
    expiries, and leaves the queue on schedule. -/
theorem iterate_onSchedule (s : StdSort) (wake : Wake) {queue : List ScheduledTimerCall}
    (h : OnSchedule start timers count queue) :
    Sorted (iterate s wake queue).visited ∧
      (iterate s wake queue).visited.Perm ((scheduled start timers count).filter wake.due) ∧
      OnSchedule start timers (fun i => count i + times (iterate s wake queue).visited i)
        (iterate s wake queue).queue := by
  obtain ⟨hv, hs, hq⟩ := iterate_sorted s wake h.sorted
  have hp : (iterate s wake queue).visited.Perm ((scheduled start timers count).filter wake.due) := by
    rw [hv]
    exact h.perm.filter _
  refine ⟨?_, hp, hs, ?_⟩
  · rw [hv]
    exact h.sorted.filter _
  · rw [← moved_scheduled hp]
    exact hq.trans (moved_perm h.perm)

/-! ## Runs -/

def firings (its : List Iteration) (i : Nat) : List ScheduledTimerCall :=
  (its.flatMap (·.fired)).filter (·.origin == i)

theorem firings_cons (x : Iteration) (its : List Iteration) (i : Nat) :
    firings (x :: its) i = x.fired.filter (·.origin == i) ++ firings its i := by simp [firings]

/-- A pass of a run: its queue is on schedule at its start, and it fires the due calls of the
    schedule, each once, in the order of their expiries. -/
structure Punctual (start : Int) (timers : List AttachedTimerListener) (count : Nat → Nat) (x : Iteration) : Prop where
  queue : OnSchedule start timers count x.queue
  fired_sorted : Sorted x.fired
  fired : x.fired.Perm ((scheduled start timers count).filter x.input.wake.due)

theorem runLoop_punctual (s : StdSort) : ∀ {inputs : List Input} {queue : List ScheduledTimerCall} {count : Nat → Nat},
    OnSchedule start timers count queue → ∀ before x after, runLoop s inputs queue = before ++ x :: after →
      Punctual start timers (fun i => count i + (firings before i).length) x := by
  intro inputs
  induction inputs with
  | nil =>
    intro queue count _ before x after h
    simp [runLoop] at h
  | cons input inputs ih =>
    intro queue count hq before x after h
    obtain ⟨hsorted, hfired, hnext⟩ := iterate_onSchedule s input.wake hq
    rw [runLoop] at h
    cases before with
    | nil =>
      obtain ⟨rfl, -⟩ := List.cons.inj h
      exact ⟨by simpa [firings] using hq, hsorted, by simpa [firings] using hfired⟩
    | cons y before =>
      obtain ⟨rfl, hrest⟩ := List.cons.inj h
      have hx := ih hnext before x after hrest
      simpa only [firings_cons, List.length_append, times_eq, Nat.add_assoc] using hx

/-- The firings of a timer go through its expiries one by one. -/
theorem runLoop_firings (s : StdSort) : ∀ {inputs : List Input} {queue : List ScheduledTimerCall} {count : Nat → Nat},
    OnSchedule start timers count queue → ∀ (i k : Nat) (e : ScheduledTimerCall),
      (firings (runLoop s inputs queue) i)[k]? = some e →
        timers[i]? = some e.second ∧ e.first = expiry start e.second (count i + k) := by
  intro inputs
  induction inputs with
  | nil =>
    intro queue count _ i k e h
    simp [runLoop, firings] at h
  | cons input inputs ih =>
    intro queue count hq i k e h
    obtain ⟨-, hfired, hnext⟩ := iterate_onSchedule s input.wake hq
    have hrest := ih hnext i
    have hown := fired_origin hfired i
    rw [runLoop, firings_cons] at h
    simp only [times_eq, hown] at h hrest
    cases ht : timers[i]? with
    | none =>
      have := hrest k e (by simpa [ht] using h)
      simp [ht] at this
    | some t =>
      by_cases hd : input.wake.due ⟨expiry start t (count i), t, i⟩ = true
      · cases k with
        | zero =>
          have he : (⟨expiry start t (count i), t, i⟩ : ScheduledTimerCall) = e := by simpa [ht, hd] using h
          subst he
          simp
        | succ k =>
          have := hrest k e (by simpa [ht, hd] using h)
          simpa [ht, hd, Nat.add_assoc, Nat.add_comm 1 k] using this
      · have := hrest k e (by simpa [ht, hd] using h)
        simpa [ht, hd] using this

theorem runLoop_inputs (s : StdSort) (inputs : List Input) (queue : List ScheduledTimerCall) :
    (runLoop s inputs queue).map (·.input) = inputs := by
  induction inputs generalizing queue with
  | nil => rfl
  | cons input inputs ih => simp [runLoop, ih]

/-- Periodic timers fire on schedule. In every run, whatever the timers, the clock and the
    interruptions: at the start of every pass the queue is sorted and holds every attached
    timer once, at the expiry behind its firings so far; the pass fires those whose expiry is
    at most its clock reading, each once, in order; and the k-th firing of a timer belongs to
    its k-th expiry. -/
theorem timers_on_schedule (s : StdSort) (start : Int) (timers : List AttachedTimerListener) (inputs : List Input) :
    let its := runLoop s inputs (timerQueue s start timers)
    its.map (·.input) = inputs ∧
      (∀ before x after, its = before ++ x :: after →
        Punctual start timers (fun i => (firings before i).length) x) ∧
      ∀ (i k : Nat) (e : ScheduledTimerCall), (firings its i)[k]? = some e →
        timers[i]? = some e.second ∧ e.first = start + e.second.initialDelayMs + k * e.second.periodMs := by
  have h := timerQueue_onSchedule s start timers
  refine ⟨runLoop_inputs s inputs _, ?_, ?_⟩
  · intro before x after hx
    simpa only [Nat.zero_add] using runLoop_punctual s h before x after hx
  · intro i k e he
    simpa only [Nat.zero_add, expiry] using runLoop_firings s h i k e he

/-! ## The time given to `select()` -/

/-- The wait ends no later than any expiry that is still ahead, and where the clock is read at
    its end or later a timer fires. -/
theorem timeout_reaches (s : StdSort) {queue : List ScheduledTimerCall} (h : Sorted queue) {clock t : Int}
    (ht : timeoutMs clock queue = some t) :
    0 ≤ t ∧ (∀ call ∈ queue, t = 0 ∨ clock + t ≤ call.first) ∧
      ∀ now, clock + t ≤ now → (iterate s (.woken now) queue).visited ≠ [] := by
  cases queue with
  | nil => simp [timeoutMs] at ht
  | cons head rest =>
    obtain ⟨hhead, -⟩ := List.pairwise_cons.mp h
    have htime : (if head.first - clock < 0 then 0 else head.first - clock) = t := by simpa [timeoutMs] using ht
    have hfirst : head.first ≤ clock + t := by
      split at htime <;> omega
    refine ⟨by split at htime <;> omega, ?_, ?_⟩
    · intro call hc
      have hle : head.first ≤ call.first := by
        rcases List.mem_cons.mp hc with rfl | hc
        · exact Int.le_refl _
        · exact hhead call hc
      split at htime <;> omega
    · intro now hnow
      have hdue : head.first ≤ now := by omega
      rw [(iterate_sorted s (.woken now) h).1]
      simp [Wake.due, expired, hdue]

end OscTap.Ip.Timers
