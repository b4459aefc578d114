/-
  OscTap.Ip.Stopping — how soon `Run` of the UDP receive loop leaves behind a stop request
  (see `OscTap.Ip.Multiplexer`).

  `break_` is read in front of `select()`, behind it, and behind each callback, and the loop over
  the sockets and the loop over the timers are left one by one. So a request that comes in between
  the sockets finds up to one more packet callback and one more timer callback to be made.
  `stepsLeft` is the most that `Run` still does, read off the source from the end to the front.

  Proved: `stops_promptly`, over every run.
-/
import OscTap.Ip.Datagrams

namespace OscTap.Ip.Multiplexer

open OscTap.Lib OscTap.Lib.Out OscTap.Tcp OscTap.Ip.Timers

namespace Pc

/-- The calls of `ProcessPacket` that can come once `break_` is set. -/
def packetsLeft : Pc → Nat
  | .sockets (_ :: _) => 1
  | _ => 0

def timersLeft : Pc → Nat
  | .sockets _ | .inPacket _ | .timers _ => 1
  | _ => 0

def stepsLeft : Pc → Nat
  | .leaving _ => 0
  | .test | .check => 1
  | .setUp | .woken | .inTimer _ => 2
  | .outside | .blocked | .timers _ => 3
  | .sockets [] => 4
  | .inPacket _ => 5
  | .sockets (_ :: rest) => rest.length + 6

theorem stepsLeft_cons (x : Nat × Nat) (rest : List (Nat × Nat)) :
    (Pc.sockets (x :: rest)).stepsLeft = rest.length + 6 := rfl

theorem stepsLeft_le {w : World} (h : w.ahead <:+ w.mux.socketListeners) :
    w.pc.stepsLeft ≤ w.mux.socketListeners.length + 5 := by
  have hlen := h.length_le
  unfold World.ahead at hlen
  cases hpc : w.pc with
  | sockets rest =>
    rw [hpc] at hlen
    cases rest with
    | nil => simp [stepsLeft]
    | cons x rest => simpa [stepsLeft] using hlen
  | _ => simp [stepsLeft]

theorem stepsLeft_sockets_le (rest : List (Nat × Nat)) : (Pc.sockets rest).stepsLeft ≤ rest.length + 5 := by
  cases rest <;> simp [stepsLeft]

theorem packetsLeft_sockets_le (rest : List (Nat × Nat)) : (Pc.sockets rest).packetsLeft ≤ 1 := by
  cases rest <;> simp [packetsLeft]

end Pc

structure Stopping (packets timers steps : Nat) (taken : Nat) (w : World) : Prop where
  set : w.mux.break_ = true
  packets : w.log.length + w.pc.packetsLeft ≤ packets
  timers : w.fired.length + w.pc.timersLeft ≤ timers
  steps : taken + w.pc.stepsLeft ≤ steps

def Event.count (e : Event) (taken : Nat) : Nat := taken + if e.own then 1 else 0

theorem foldl_count (events : List Event) (n : Nat) :
    events.foldl (fun taken e => e.count taken) n = n + events.countP Event.own := by
  induction events generalizing n with
  | nil => rfl
  | cons e events ih =>
    rw [List.foldl_cons, ih, List.countP_cons, Event.count]
    omega

variable {sort : StdSort} {w w' : World} {packets timers steps taken : Nat}

/-- A step that takes of what is left. -/
theorem Stopping.spend {e : Event} (hs : Stopping packets timers steps taken w) (hset : w'.mux.break_ = true)
    (hpackets : w'.log.length + w'.pc.packetsLeft ≤ w.log.length + w.pc.packetsLeft)
    (htimers : w'.fired.length + w'.pc.timersLeft ≤ w.fired.length + w.pc.timersLeft)
    (hsteps : (if e.own then 1 else 0) + w'.pc.stepsLeft ≤ w.pc.stepsLeft) :
      Stopping packets timers steps (e.count taken) w' where
  set := hset
  packets := hpackets.trans hs.packets
  timers := htimers.trans hs.timers
  steps := by
    rw [Event.count, Nat.add_assoc]
    exact (Nat.add_le_add_left hsteps taken).trans hs.steps

theorem Moves.stopping {e : Event} (h : Moves sort w e w') (hclear : e ≠ .clear)
    (hs : Stopping packets timers steps taken w) : Stopping packets timers steps (e.count taken) w' := by
  have hset := hs.set
  cases h with
  | listeners hown hpc hb => exact hs.spend (hb.trans hset) (Nat.le_refl _) (Nat.le_refl _) (by simp [hown])
  | tested hpc hb | retried hpc hb | checked hpc hb | timerReturned hpc hb => rw [hset] at hb; cases hb
  | cleared => exact absurd rfl hclear
  | arrived | failed | wrote =>
    exact hs.spend hset (Nat.le_refl _) (Nat.le_refl _) (by simp [Event.own, World.setInbox])
  | asked | broke => exact hs.spend rfl (Nat.le_refl _) (Nat.le_refl _) (by simp [Event.own, World.setBreak])
  | run hpc | setUp hpc | outOfMemory hpc | stopped hpc | selected hpc | selectLeft _ hpc | drained hpc
  | checkLeft hpc =>
    exact hs.spend hset (by simp [World.goto, hpc, Pc.packetsLeft]) (by simp [World.goto, hpc, Pc.timersLeft])
      (by simp [Event.own, World.goto, hpc, Pc.stepsLeft])
  | clock hpc =>
    exact hs.spend hset (by simp [hpc, Pc.packetsLeft]) (by simp [hpc, Pc.timersLeft])
      (by simp [Event.own, hpc, Pc.stepsLeft])
  | @skipped _ _ _ rest hpc | @lookFailed _ _ _ rest hpc | @lookEmpty _ _ _ rest _ _ hpc =>
    have hpackets := Pc.packetsLeft_sockets_le rest
    have hsteps := Pc.stepsLeft_sockets_le rest
    refine hs.spend hset ?_ ?_ ?_
    · simpa [World.goto, World.setInbox, hpc, Pc.packetsLeft] using hpackets
    · simp [World.goto, World.setInbox, hpc, Pc.timersLeft]
    · simp only [Event.own, World.goto, hpc, Pc.stepsLeft_cons, if_true]
      omega
  | called hpc =>
    exact hs.spend hset (by simp [hpc, Pc.packetsLeft]) (by simp [World.setInbox, hpc, Pc.timersLeft])
      (by simp [Event.own, hpc, Pc.stepsLeft])
  | fired hpc | timersEnded hpc | timerBroke hpc =>
    exact hs.spend hset (by simp [World.endTimers, hpc, Pc.packetsLeft]) (by simp [World.endTimers, hpc, Pc.timersLeft])
      (by simp [Event.own, World.endTimers, hpc, Pc.stepsLeft])
  | packetReturned hpc =>
    exact hs.spend hset (by simp [World.goto, hset, hpc, Pc.packetsLeft]) (by simp [World.goto, hpc, Pc.timersLeft])
      (by simp [Event.own, World.goto, hset, hpc, Pc.stepsLeft])
  | threw hp =>
    refine hs.spend hset ?_ ?_ ?_
    · simp [World.goto, Pc.packetsLeft]
    · simp [World.goto, Pc.timersLeft]
    · cases hpc : w.pc with
      | inPacket rest => simp [Event.own, World.goto, Pc.stepsLeft]
      | inTimer i => simp [Event.own, World.goto, Pc.stepsLeft]
      | _ => rw [hpc] at hp; cases hp

/-- A stop request takes effect promptly: once `break_` is set, and until `Run` has left, at most one
    packet callback and one timer callback begin, none of them behind a timer callback and no packet
    callback behind a packet callback, and `Run` takes at most five steps more than it has sockets. -/
theorem stops_promptly (sort : StdSort) {breakPipe : Nat} (hb : breakPipe < fdSetSize) {before more : List Event}
    (hf : ∀ e ∈ before ++ more, e.Fits) (hp : Throughout (World.step sort) Possible (before ++ more)
      (.start breakPipe)) :
    ∃ w w', runCaught (World.step sort) before (.start breakPipe) = ok w ∧ runCaught (World.step sort) more w = ok w' ∧
      (w.mux.break_ = true → .clear ∉ more →
        w'.log.length ≤ w.log.length + w.pc.packetsLeft ∧ w'.fired.length ≤ w.fired.length + w.pc.timersLeft ∧
        more.countP Event.own ≤ w.pc.stepsLeft ∧ w.pc.stepsLeft ≤ w.mux.socketListeners.length + 5) := by
  obtain ⟨w, he, hi⟩ := run_inv sort hb (fun e he => hf e (List.mem_append_left _ he)) hp.of_append
  have hmore : Throughout (World.step sort) Possible more w := hp.append_right he
  have hfmore : ∀ e ∈ more, e.Fits := fun e he => hf e (List.mem_append_right _ he)
  obtain ⟨w', he', -⟩ := run_keeps sort (I := fun _ => True) hfmore hmore hi trivial fun _ _ _ _ _ _ _ _ => trivial
  refine ⟨w, w', he, he', fun hset hclear => ?_⟩
  have hkept : ∀ e ∈ more, ∀ taken v, Possible e v → Inv v ∧ Stopping (w.log.length + w.pc.packetsLeft)
      (w.fired.length + w.pc.timersLeft) w.pc.stepsLeft taken v → ∃ v', attempt (World.step sort e v) = ok v' ∧ Inv v' ∧
        Stopping (w.log.length + w.pc.packetsLeft) (w.fired.length + w.pc.timersLeft) w.pc.stepsLeft
          (e.count taken) v' := by
    intro e hmem taken v hpe ⟨hi, hs⟩
    obtain ⟨v', hstep, hm, hi'⟩ := step_inv sort (hfmore e hmem) hpe hi
    exact ⟨v', hstep, hi', hm.stopping (fun h => hclear (h ▸ hmem)) hs⟩
  obtain ⟨w'', he'', -, hs⟩ :=
    hmore.observed Event.count _ ⟨hi, hset, Nat.le_refl _, Nat.le_refl _, (Nat.zero_add _).le⟩ hkept
  obtain rfl : w' = w'' := Out.ok.inj (he'.symm.trans he'')
  rw [foldl_count, Nat.zero_add] at hs
  exact ⟨(Nat.le_add_right _ _).trans hs.packets, (Nat.le_add_right _ _).trans hs.timers,
    (Nat.le_add_right _ _).trans hs.steps, Pc.stepsLeft_le hi.ahead⟩

/-- A stop request in front of the look at a socket that has a datagram, with a timer that is due. -/
def lateStop : List Event :=
  [.attachSocketListener 5 0, .attachPeriodicTimerListener 0 10 0, .arrive 5 ⟨[1], ⟨7, 8⟩⟩, .run, .setUp 0, .test 0,
    .select (.ready [5]), .drain, .check, .asynchronousBreak]

def lastCalls : List Event := [.look true, .returned, .clock 0, .timer, .returned, .test 0]

theorem lateStop_possible : Throughout (World.step default) Possible (lateStop ++ lastCalls) (.start 3) := by
  refine ⟨⟨rfl, by decide⟩, rfl, trivial, rfl, rfl, rfl, ⟨rfl, fun fd => ⟨fun h => ?_, fun h => ?_⟩, nofun⟩,
    rfl, rfl, trivial, ⟨_, _, _, rfl, fun _ => by decide⟩, rfl, rfl, ⟨_, rfl⟩, ?_, ?_, trivial⟩
  · obtain rfl := List.mem_singleton.mp h
    decide
  · have hm : fd ∈ [5, 3] := h.1
    simp only [List.mem_cons, List.not_mem_nil, or_false] at hm
    rcases hm with rfl | rfl
    · decide
    · exact absurd h.2.2 (by decide)
  · show Pc.inCallback (World.pc _) = true
    decide +kernel
  · show World.pc _ = Pc.test
    decide +kernel

theorem stops_promptly_lateStop : ∃ w w', runCaught (World.step default) lateStop (.start 3) = ok w ∧
    runCaught (World.step default) lastCalls w = ok w' ∧ w'.log.length ≤ w.log.length + 1 ∧
      w'.fired.length ≤ w.fired.length + 1 ∧
      lastCalls.countP Event.own ≤ w.mux.socketListeners.length + 5 := by
  obtain ⟨w, w', he, he', hall⟩ := stops_promptly default (by decide)
    (by simp [lateStop, lastCalls, Event.Fits, fdSetSize]) lateStop_possible
  have hd : (fun w : World => (w.mux.break_, w.pc)) <$>
    runCaught (World.step default) lateStop (.start 3) = ok (true, .sockets [(0, 5)]) := by
    decide +kernel
  rw [he, map_ok] at hd
  obtain ⟨hset, hpc⟩ := Prod.mk.inj (Out.ok.inj hd)
  obtain ⟨h1, h2, h3, h4⟩ := hall hset (by decide)
  rw [hpc] at h1 h2
  exact ⟨w, w', he, he', h1, h2, h3.trans h4⟩

end OscTap.Ip.Multiplexer
