/-
  OscTap.Ip.StopRequest — stopping a receive loop from another thread
  (`Run`, `Break`, `AsynchronousBreak` in `osctap/ip/posix/UdpSocket.h` and
  `osctap/ip/posix/TcpSocket.h`).

  One thread calls `Run`, any number of times; it leaves by return or by exception, and clears
  `break_` either way. Any number of `AsynchronousBreak` calls set `break_`, then write one
  byte to the break pipe: two steps, with anything in between. `Pc` is where `Run` is: each
  read of `break_`, the `select()`, the read of one byte from the pipe, the store that clears
  `break_`, and each callback, which may call `Break` or throw, is a step of its own. The two
  loops differ in what they look at behind the pipe: sockets, then expired timers (UDP); the
  listening socket and ready connections (TCP).

  `exits` counts how often `Run` has left. A call of `AsynchronousBreak` keeps the count of
  its beginning: it is honoured once the count is larger.

  Proved:
  - `inv`: in every reachable state, a call begun since the last exit has left `break_` set,
    and its byte, once written, is in the pipe while `Run` is in `select()`.
  - `no_request_lost`: so `Run` never waits on an empty pipe with a completed call unserved.
-/
import Mathlib.Data.List.Basic
import Mathlib.Tactic.Common

namespace OscTap.Ip

inductive Loop where
  | udp
  | tcp
  deriving DecidableEq, Repr

/-- What a pass of a loop goes through behind the break pipe. -/
inductive Phase where
  | sockets
  | timers
  | connections
  deriving DecidableEq, Repr

inductive Pc where
  | outside
  /-- Behind the guard, in front of the loop. -/
  | setUp
  /-- `while (!break_)`. -/
  | test
  /-- In `select()`. -/
  | blocked
  /-- `FD_ISSET(breakPipe_[0], ..)`. -/
  | woken (pipeReady : Bool)
  /-- `if (break_) break`, behind the pipe. -/
  | check
  /-- `n` more to look at. -/
  | looking (phase : Phase) (n : Nat)
  /-- In `ProcessPacket` or `TimerExpired`; over TCP, of any packet of one `ServiceConnection`. -/
  | callback (phase : Phase) (n : Nat)
  /-- Out of the loop, or unwinding, in front of `clearBreakOnExit`. -/
  | leaving
  deriving DecidableEq, Repr

structure Request where
  /-- The exits of `Run` before it. -/
  began : Nat
  /-- The byte is written. -/
  completed : Bool
  deriving DecidableEq, Repr

structure State where
  break_ : Bool
  /-- The bytes in the pipe. -/
  pipe : Nat
  pc : Pc
  exits : Nat
  requests : List Request
  deriving DecidableEq, Repr

def init : State := ⟨false, 0, .outside, 0, []⟩

inductive SelectResult where
  | ready
  | eintr
  | failed
  deriving DecidableEq, Repr

inductive Event where
  | run
  | setUp (throws : Bool)
  | test
  | select (result : SelectResult)
  | drain
  /-- Behind the pipe, `n` sockets or connections are to be looked at. -/
  | check (n : Nat)
  /-- The next one; `called` when there is something for the listener. -/
  | look (called : Bool)
  /-- Nothing more in this phase; `n` timers have expired. -/
  | done (n : Nat)
  /-- `Break()` in a callback. -/
  | breakInside
  | returned
  /-- By the listener, or by the loop itself in front of it. -/
  | threw
  | clear
  /-- `Break()` while `Run` is not running. -/
  | breakOutside
  | asynchronousBreak
  /-- The second step of the `i`-th call. -/
  | write (i : Nat)
  deriving DecidableEq, Repr

namespace State

variable (s : State)

def goto (pc : Pc) : State := { s with pc := pc }

def clear : State := { s with break_ := false, pc := .outside, exits := s.exits + 1 }

def begin : State := { s with break_ := true, requests := s.requests ++ [⟨s.exits, false⟩] }

def write (i began : Nat) : State := { s with pipe := s.pipe + 1, requests := s.requests.set i ⟨began, true⟩ }

end State

/-- The statement behind the guard, and what a pass looks at first. -/
def Loop.entry : Loop → Pc
  | .udp => .setUp
  | .tcp => .test

def Loop.first : Loop → Phase
  | .udp => .sockets
  | .tcp => .connections

/-- Where a phase's loop goes on, at its end or by `break`: UDP's timers come behind its sockets. -/
def Phase.behind (timers : Nat) : Phase → Pc
  | .sockets => .looking .timers timers
  | .timers | .connections => .test

def step (loop : Loop) (e : Event) (s : State) : Option State :=
  match e, s.pc with
  | .run, .outside => some (s.goto loop.entry)
  | .setUp throws, .setUp => some (s.goto (if throws then .leaving else .test))
  | .test, .test => some (s.goto (if s.break_ then .leaving else .blocked))
  | .select .ready, .blocked => some (s.goto (.woken (0 < s.pipe)))
  | .select .eintr, .blocked => some (s.goto (if s.break_ then .leaving else .test))
  | .select .failed, .blocked => some (s.goto .leaving)
  | .drain, .woken pipeReady => some { s with pipe := if pipeReady then s.pipe - 1 else s.pipe, pc := .check }
  | .check n, .check => some (s.goto (if s.break_ then .leaving else .looking loop.first n))
  | .look true, .looking phase (n + 1) => some (s.goto (.callback phase n))
  | .look false, .looking .sockets (n + 1) => some (s.goto (.looking .sockets n))
  -- a connection that is gone or closes: `break_` is read behind every `ServiceConnection`
  | .look false, .looking .connections (n + 1) => some (s.goto (if s.break_ then .test else .looking .connections n))
  | .done timers, .looking phase 0 => some (s.goto (phase.behind timers))
  | .breakInside, .callback _ _ => some { s with break_ := true }
  -- `0` more: `done` follows, so a break among the sockets goes on with the timers
  | .returned, .callback phase n => some (s.goto (.looking phase (if s.break_ then 0 else n)))
  | .threw, .callback _ _ => some (s.goto .leaving)
  | .threw, .looking _ _ => some (s.goto .leaving)
  | .clear, .leaving => some s.clear
  | .breakOutside, .outside => some { s with break_ := true }
  | .asynchronousBreak, _ => some s.begin
  | .write i, _ =>
    match s.requests[i]? with
    | some ⟨began, false⟩ => some (s.write i began)
    | _ => none
  | _, _ => none

inductive Reach (loop : Loop) : State → Prop
  | init : Reach loop init
  | step {s s' : State} (e : Event) : Reach loop s → step loop e s = some s' → Reach loop s'

/-! ## What a step does -/

inductive Effect : State → State → Prop
  /-- `Run` moves on, not into `select()`; it may have taken a byte. -/
  | moved {s : State} (pipe : Nat) (pc : Pc) : pc ≠ .blocked → Effect s { s with pipe := pipe, pc := pc }
  | blocked {s : State} : s.break_ = false → Effect s (s.goto .blocked)
  | cleared {s : State} : Effect s s.clear
  | broke {s : State} : s.pc ≠ .blocked → Effect s { s with break_ := true }
  | began {s : State} : Effect s s.begin
  | wrote {s : State} (i began : Nat) : s.requests[i]? = some ⟨began, false⟩ → Effect s (s.write i began)

theorem Effect.goto {s : State} {pc : Pc} (h : pc ≠ .blocked) : Effect s (s.goto pc) := .moved s.pipe pc h

@[simp] theorem Loop.entry_ne (loop : Loop) : loop.entry ≠ .blocked := by cases loop <;> decide

@[simp] theorem Phase.behind_ne (timers : Nat) (phase : Phase) : phase.behind timers ≠ .blocked := by
  cases phase <;> simp [behind]

theorem Effect.split {s : State} {c : Bool} {p q : Pc} (hp : p ≠ .blocked) (hq : q ≠ .blocked) :
    Effect s (s.goto (if c then p else q)) := by
  cases c
  · exact .goto hq
  · exact .goto hp

theorem step_effect {loop : Loop} {e : Event} {s s' : State} (h : step loop e s = some s') : Effect s s' := by
  obtain ⟨flag, pipe, pc, exits, requests⟩ := s
  cases e with
  | asynchronousBreak => cases h; exact .began
  | write i =>
    simp only [step] at h
    split at h
    case h_1 began hr => cases h; exact .wrote i began hr
    case h_2 => cases h
  | clear =>
    cases pc with
    | leaving => cases h; exact .cleared
    | _ => cases h
  | breakOutside =>
    cases pc with
    | outside => cases h; exact .broke (by simp)
    | _ => cases h
  | breakInside =>
    cases pc with
    | callback => cases h; exact .broke (by simp)
    | _ => cases h
  | test =>
    cases pc with
    | test =>
      cases h
      cases flag
      · exact .blocked rfl
      · exact .goto (by simp)
    | _ => cases h
  | drain =>
    cases pc with
    | woken => cases h; exact .moved _ _ (by simp)
    | _ => cases h
  | select result =>
    cases pc with
    | blocked =>
      cases result <;> cases h
      · exact .goto (by simp)
      · exact .split (by simp) (by simp)
      · exact .goto (by simp)
    | _ => cases result <;> cases h
  | look called =>
    cases pc with
    | looking phase n =>
      cases n with
      | zero => cases called <;> cases phase <;> cases h
      | succ n =>
        cases called
        · cases phase <;> cases h
          · exact .goto (by simp)
          · exact .split (by simp) (by simp)
        · cases h; exact .goto (by simp)
    | _ => cases called <;> cases h
  | done timers =>
    cases pc with
    | looking phase n =>
      cases n
      · cases h; exact .goto (by simp)
      · cases h
    | _ => cases h
  | run =>
    cases pc with
    | outside => cases h; exact .goto (by simp)
    | _ => cases h
  | setUp throws =>
    cases pc with
    | setUp => cases h; exact .split (by simp) (by simp)
    | _ => cases h
  | check n =>
    cases pc with
    | check => cases h; exact .split (by simp) (by simp)
    | _ => cases h
  | returned =>
    cases pc with
    | callback => cases h; exact .goto (by simp)
    | _ => cases h
  | threw =>
    cases pc with
    | callback | looking => cases h; exact .goto (by simp)
    | _ => cases h

/-! ## The invariant -/

structure Inv (s : State) : Prop where
  past : ∀ c ∈ s.requests, c.began ≤ s.exits
  /-- Only an exit clears the flag. -/
  honoured : s.break_ = false → ∀ c ∈ s.requests, c.began < s.exits
  /-- A request begun while `Run` waits leaves its byte in the pipe. -/
  wakes : s.pc = .blocked → ∀ c ∈ s.requests, c.completed = true → s.exits ≤ c.began → 0 < s.pipe
  asked : s.pc = .blocked → s.break_ = true → 0 < s.pipe ∨ ∃ c ∈ s.requests, c.completed = false

theorem init_inv : Inv init := by
  refine ⟨?_, ?_, ?_, ?_⟩ <;> simp [init]

theorem effect_inv {s s' : State} (hi : Inv s) (h : Effect s s') : Inv s' := by
  cases h with
  | moved pipe pc hpc => exact ⟨hi.past, hi.honoured, fun h => absurd h hpc, fun h => absurd h hpc⟩
  | blocked hb =>
    refine ⟨hi.past, hi.honoured, fun _ c hc _ hle => ?_, fun _ h => ?_⟩
    · have := hi.honoured hb c hc
      exact absurd hle (Nat.not_le.2 this)
    · exact absurd (hb.symm.trans h) (by decide)
  | cleared =>
    have hlt : ∀ c ∈ s.requests, c.began < s.exits + 1 := fun c hc => Nat.lt_succ_of_le (hi.past c hc)
    exact ⟨fun c hc => Nat.le_of_lt (hlt c hc), fun _ => hlt, nofun, nofun⟩
  | broke hpc => exact ⟨hi.past, nofun, fun h => absurd h hpc, fun h => absurd h hpc⟩
  | began =>
    refine ⟨fun c hc => ?_, nofun, fun hpc c hc hdone hle => ?_, fun _ _ => .inr ?_⟩
    · rcases List.mem_append.1 hc with hc | hc
      · exact hi.past c hc
      · rw [List.mem_singleton.1 hc]
        exact Nat.le_refl _
    · rcases List.mem_append.1 hc with hc | hc
      · exact hi.wakes hpc c hc hdone hle
      · rw [List.mem_singleton.1 hc] at hdone
        cases hdone
    · exact ⟨⟨s.exits, false⟩, by simp [State.begin], rfl⟩
  | wrote i began hr =>
    have hold : (⟨began, false⟩ : Request) ∈ s.requests := List.mem_of_getElem? hr
    refine ⟨fun c hc => ?_, fun hb c hc => ?_, fun _ _ _ _ _ => Nat.succ_pos _, fun _ _ => .inl (Nat.succ_pos _)⟩
    · rcases List.mem_or_eq_of_mem_set hc with hc | rfl
      · exact hi.past c hc
      · exact hi.past ⟨began, false⟩ hold
    · rcases List.mem_or_eq_of_mem_set hc with hc | rfl
      · exact hi.honoured hb c hc
      · exact hi.honoured hb ⟨began, false⟩ hold

theorem inv {loop : Loop} {s : State} (h : Reach loop s) : Inv s := by
  induction h with
  | init => exact init_inv
  | step _ _ hs ih => exact effect_inv ih (step_effect hs)

/-- `Run` blocked on an empty pipe: `Run` has left since the beginning of every completed call,
    and `break_` is set only while some call has its byte still to write. -/
theorem no_request_lost {loop : Loop} {s : State} (h : Reach loop s) (hpc : s.pc = .blocked) (hpipe : s.pipe = 0) :
    (∀ c ∈ s.requests, c.completed = true → c.began < s.exits) ∧
      (s.break_ = true → ∃ c ∈ s.requests, c.completed = false) := by
  have hi := inv h
  refine ⟨fun c hc hdone => ?_, fun hb => ?_⟩
  · by_contra hle
    have := hi.wakes hpc c hc hdone (Nat.not_lt.1 hle)
    omega
  · rcases hi.asked hpc hb with h | h
    · omega
    · exact h

/-- A call between two runs, its byte left behind by the first exit: the second run reads it,
    and waits with nothing owed. -/
def staleByte : List Event :=
  [.asynchronousBreak, .write 0, .run, .test, .clear, .run, .test, .select .ready, .drain, .check 0, .done 0, .test]

def steps (loop : Loop) : List Event → State → Option State
  | [], s => some s
  | e :: es, s => step loop e s >>= steps loop es

theorem Reach.steps {loop : Loop} (es : List Event) {s s' : State} (h : Reach loop s)
    (hs : steps loop es s = some s') : Reach loop s' := by
  induction es generalizing s with
  | nil => cases hs; exact h
  | cons e es ih =>
    obtain ⟨t, ht, hs⟩ := Option.bind_eq_some_iff.1 hs
    exact ih (.step e h ht) hs

theorem staleByte_served : ∃ s, steps .tcp staleByte init = some s ∧ s.pc = .blocked ∧
    (∀ c ∈ s.requests, c.completed = true → c.began < s.exits) ∧
      (s.break_ = true → ∃ c ∈ s.requests, c.completed = false) :=
  ⟨⟨false, 0, .blocked, 1, [⟨0, true⟩]⟩, by decide, rfl,
    no_request_lost (Reach.steps staleByte (Reach.init : Reach .tcp init) (by decide)) rfl rfl⟩

end OscTap.Ip
