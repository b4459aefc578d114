/-
  OscTap.Lib.AutoReset — events that a wait takes back, and sources that set them.

  A source (of messages, say) is selected for an event. A source that gets ready sets its event,
  and not again before it is re-enabled; where it is ready still when it is re-enabled, it sets the
  event at once. A wait takes the first event that is set, and resets that one only, so a waiter
  that leaves a source unserved may have lost the one wake-up that there was for it.

  `Heard` says of a source that it would set the event if it got ready; `Raised`, that the event is
  set unless the source is still to set it. Together (`ready_signalled`) they say that a source that
  is ready wakes whoever waits. Every operation keeps both, of every source, but a reset, which
  keeps `Raised` of the other events' sources only; re-enabling restores it.
-/
import Mathlib.Logic.Function.Basic

namespace OscTap.Lib

structure Source where
  event : Option Nat
  /-- Ready from now on, it sets its event. -/
  armed : Bool
  deriving DecidableEq, Repr

structure Signals where
  signalled : Nat → Bool
  source : Nat → Source

namespace Signals

def init : Signals := ⟨fun _ => false, fun _ => ⟨none, false⟩⟩

variable (σ : Signals)

def set (e : Nat) : Signals := { σ with signalled := Function.update σ.signalled e true }

def reset (e : Nat) : Signals := { σ with signalled := Function.update σ.signalled e false }

def enable (s : Nat) (ready : Bool) : Signals :=
  match (σ.source s).event with
  | some e =>
    { signalled := if ready then Function.update σ.signalled e true else σ.signalled
      source := Function.update σ.source s ⟨some e, !ready⟩ }
  | none => σ

def select (s e : Nat) (ready : Bool) : Signals :=
  { σ with source := Function.update σ.source s ⟨some e, false⟩ }.enable s ready

def cancel (s : Nat) : Signals := { σ with source := Function.update σ.source s ⟨none, false⟩ }

def arrive (s : Nat) : Signals := if (σ.source s).armed then σ.enable s true else σ

def First (events : List Nat) (i : Nat) : Prop :=
  ∃ e, events[i]? = some e ∧ σ.signalled e = true ∧ ∀ k < i, ∀ e', events[k]? = some e' → σ.signalled e' = false

def Quiet (events : List Nat) : Prop := ∀ e ∈ events, σ.signalled e = false

/-! ## Sources that are heard -/

structure Heard (s e : Nat) (ready : Prop) : Prop where
  event : (σ.source s).event = some e
  armed : (σ.source s).armed = true → ¬ ready

def Raised (s e : Nat) : Prop := (σ.source s).armed = false → σ.signalled e = true

variable {σ} {s t e f : Nat} {ready : Bool} {p : Prop}

theorem Heard.ready_signalled (h : σ.Heard s e p) (hr : σ.Raised s e) (hp : p) : σ.signalled e = true :=
  hr (by simpa using fun ha => h.armed ha hp)

/-! ## Frame -/

@[simp] theorem set_source : (σ.set e).source = σ.source := rfl
@[simp] theorem reset_source : (σ.reset e).source = σ.source := rfl
@[simp] theorem cancel_signalled : (σ.cancel s).signalled = σ.signalled := rfl
@[simp] theorem set_self : (σ.set e).signalled e = true := by simp [set]
@[simp] theorem reset_of_ne (h : f ≠ e) : (σ.reset e).signalled f = σ.signalled f := by simp [reset, h]
@[simp] theorem cancel_of_ne (h : t ≠ s) : (σ.cancel s).source t = σ.source t := by simp [cancel, h]

@[simp] theorem enable_of_ne (h : t ≠ s) : (σ.enable s ready).source t = σ.source t := by
  unfold enable
  split <;> simp [h]

@[simp] theorem select_of_ne (h : t ≠ s) : (σ.select s e ready).source t = σ.source t := by
  simp [select, h]

@[simp] theorem arrive_of_ne (h : t ≠ s) : (σ.arrive s).source t = σ.source t := by
  unfold arrive
  split <;> simp [h]

theorem set_signalled (h : σ.signalled f = true) : (σ.set e).signalled f = true := by
  by_cases he : f = e <;> simp [set, he, h]

theorem enable_signalled (h : σ.signalled f = true) : (σ.enable s ready).signalled f = true := by
  unfold enable
  split
  · rename_i e _
    by_cases he : f = e <;> cases ready <;> simp [he, h]
    simpa [he] using h
  · exact h

theorem select_signalled (h : σ.signalled f = true) : (σ.select s e ready).signalled f = true := enable_signalled h

theorem arrive_signalled (h : σ.signalled f = true) : (σ.arrive s).signalled f = true := by
  unfold arrive
  split
  · exact enable_signalled h
  · exact h

/-- What an operation leaves of the sources that it does not touch. -/
theorem Heard.of_source {τ : Signals} (h : σ.Heard t f p) (hs : τ.source t = σ.source t) : τ.Heard t f p :=
  ⟨by rw [hs, h.event], fun ha => h.armed (by rwa [hs] at ha)⟩

theorem Raised.of_source {τ : Signals} (h : σ.Raised t f) (hs : τ.source t = σ.source t)
    (hf : σ.signalled f = true → τ.signalled f = true) : τ.Raised t f :=
  fun ha => hf (h (by rwa [hs] at ha))

/-! ## The source itself -/

theorem enable_heard (h : (σ.source s).event = some e) (hp : p → ready = true) : (σ.enable s ready).Heard s e p := by
  refine ⟨by simp [enable, h], fun ha hp' => ?_⟩
  simp [enable, h, hp hp'] at ha

theorem enable_raised (h : (σ.source s).event = some e) : (σ.enable s ready).Raised s e := by
  cases ready <;> simp [enable, h, Raised]

theorem select_heard (hp : p → ready = true) : (σ.select s e ready).Heard s e p := enable_heard (by simp) hp

theorem select_raised : (σ.select s e ready).Raised s e := enable_raised (by simp)

theorem Heard.arrive (h : σ.Heard s e p) : (σ.arrive s).Heard s e True := by
  unfold Signals.arrive
  split
  · exact enable_heard h.event fun _ => rfl
  · rename_i ha
    exact ⟨h.event, fun h' => absurd h' ha⟩

theorem Raised.arrive (h : σ.Raised s e) (he : (σ.source s).event = some e) : (σ.arrive s).Raised s e := by
  unfold Signals.arrive
  split
  · exact enable_raised he
  · exact h

end Signals

end OscTap.Lib
