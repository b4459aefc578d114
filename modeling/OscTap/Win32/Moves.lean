/-
  OscTap.Win32.Moves — what a step of the Winsock receive loop does (see
  `OscTap.Win32.Multiplexer`).

  `Moves` has one constructor for each way that a step can go, with the state behind it and the
  tests that led there. `step_moves`: a step of a loop whose wait has not failed does not go wrong,
  and is one of these.
-/
import OscTap.Win32.Multiplexer

namespace OscTap.Win32.Multiplexer

open OscTap.Lib OscTap.Lib.Out OscTap.Ip.Timers
open OscTap.Tcp (IpEndpointName)
open OscTap.Ip.Multiplexer (Datagram Inbox Call remoteName maxBufferSize callsOn)

/-- What is delivered of a datagram: an empty one is not told from a failure, and a long one fails. -/
def Deliverable (d : Datagram) : Prop := 0 < d.bytes.length ∧ d.bytes.length ≤ maxBufferSize

instance (d : Datagram) : Decidable (Deliverable d) := inferInstanceAs (Decidable (_ ∧ _))

/-- The socket behind a look that took a datagram, or did not. -/
def World.looked (w : World) (socket : Nat) (inbox : Inbox) : World :=
  { w.setInbox socket inbox with signals := w.signals.enable socket (inbox.queue != []) }

/-- The states behind the steps, each with what it took. -/
inductive Moves (sort : StdSort) (w : World) : Event → World → Prop
  | listeners {e : Event} {m : SocketReceiveMultiplexer} : w.pc = .outside → m.break_ = w.mux.break_ →
    m.breakEvent = w.mux.breakEvent →
      (∀ x ∈ m.socketListeners, x ∈ w.mux.socketListeners ∨ e = .attachSocketListener x.2 x.1) → e ≠ .run →
      (∀ socket, e ≠ .fail socket) → Moves sort w e { w with mux := m }
  | arrived (socket : Nat) (d : Datagram) : Moves sort w (.arrive socket d)
      { w.setInbox socket ⟨(w.inboxes socket).queue ++ [d], (w.inboxes socket).error⟩ with
        signals := w.signals.arrive socket
        arrived := Function.update w.arrived socket (w.arrived socket ++ [d]) }
  | failed (socket : Nat) : Moves sort w (.fail socket) (w.setInbox socket ⟨(w.inboxes socket).queue, true⟩)
  | run : w.pc = .outside → Moves sort w .run (w.goto .setUp)
  | outOfMemory : w.pc = .setUp ∨ w.pc = .selecting w.mux.socketListeners.length →
      Moves sort w .outOfMemory (w.goto (.leaving (some .badAlloc)))
  | allocated : w.pc = .setUp → Moves sort w .allocate
    { w with locals := { w.locals with events := [] }, pc := .selecting 0 }
  | selected {j listener socket : Nat} : w.pc = .selecting j → w.mux.socketListeners[j]? = some (listener, socket) →
      Moves sort w .selectEvent (w.selectEvent socket j)
  | setUp {currentTimeMs : Int} : w.pc = .selecting w.mux.socketListeners.length →
    Moves sort w (.setUp currentTimeMs) { w with
      locals := ⟨w.locals.events ++ [w.mux.breakEvent], none, currentTimeMs,
        timerQueue sort currentTimeMs w.mux.timerListeners, ⟨0xFFFFFFFF, -1⟩⟩
      pc := .test }
  | stopped {currentTimeMs : Int} : w.pc = .test → w.mux.break_ = true →
    Moves sort w (.test currentTimeMs) (w.goto (.freeing 0))
  | tested {currentTimeMs : Int} : w.pc = .test → w.mux.break_ = false → Moves sort w (.test currentTimeMs) { w with
      locals :=
        { w.locals with currentTimeMs := currentTimeMs, waitTime := timeoutMs currentTimeMs w.locals.timerQueue }
      pc := .blocked }
  | woken {i event : Nat} : w.pc = .blocked → w.locals.events[i]? = some event →
      (∀ k < i, ∀ e, w.locals.events[k]? = some e → w.signals.signalled e = false) →
      Moves sort w (.wait (.object i)) { w with signals := w.signals.reset event, pc := .check (.object i) }
  | timedOut : w.pc = .blocked → w.signals.Quiet w.locals.events →
    Moves sort w (.wait .timeout) (w.goto (.check .timeout))
  | checked {waitResult : WaitResult} {i : Nat} : w.pc = .check waitResult → w.mux.break_ = false →
      (waitResult = .object i ∨ waitResult = .timeout ∧ i = w.mux.socketListeners.length) →
        Moves sort w .check (w.goto (.sockets i))
  | checkLeft {waitResult : WaitResult} : w.pc = .check waitResult → w.mux.break_ = true →
    Moves sort w .check (w.goto (.freeing 0))
  | lookFailed {i listener socket : Nat} {taken : Bool} : w.pc = .sockets i →
    w.mux.socketListeners[i]? = some (listener, socket) →
      (w.inboxes socket).error = true ∨ (w.inboxes socket).queue = [] →
      Moves sort w (.look taken) { w.looked socket ⟨(w.inboxes socket).queue, false⟩ with pc := .sockets (i + 1) }
  | dropped {i listener socket : Nat} {taken : Bool} {d : Datagram} {queue : List Datagram}
    (remoteEndpoint : IpEndpointName) :
      w.pc = .sockets i → w.mux.socketListeners[i]? = some (listener, socket) →
        (w.inboxes socket).queue = d :: queue → ¬ Deliverable d →
      Moves sort w (.look taken) { w.looked socket ⟨queue, (w.inboxes socket).error⟩ with
        locals := { w.locals with remoteEndpoint := remoteEndpoint }
        pc := .sockets (i + 1) }
  | received {i listener socket : Nat} {taken : Bool} {d : Datagram} {queue : List Datagram} :
      w.pc = .sockets i → w.mux.socketListeners[i]? = some (listener, socket) →
        (w.inboxes socket).queue = d :: queue → Deliverable d →
      Moves sort w (.look taken) { w.looked socket ⟨queue, (w.inboxes socket).error⟩ with
        locals := { w.locals with remoteEndpoint := remoteName d.fromAddr }
        pc := .received i d.bytes d }
  | handed {i listener socket : Nat} {data : Bytes} {d : Datagram} : w.pc = .received i data d →
      w.mux.socketListeners[i]? = some (listener, socket) → w.mux.break_ = false → Moves sort w .hand { w with
        log := w.log ++ [⟨listener, socket, data, data.length, w.locals.remoteEndpoint⟩]
        pc := .inPacket i }
  | lost {i listener socket : Nat} {data : Bytes} {d : Datagram} : w.pc = .received i data d →
      w.mux.socketListeners[i]? = some (listener, socket) → w.mux.break_ = true →
      Moves sort w .hand { w with lost := w.lost ++ [(socket, d)], pc := .freeing 0 }
  | clock {i : Nat} {currentTimeMs : Int} : w.pc = .sockets i → w.mux.socketListeners.length ≤ i →
    w.mux.break_ = false →
      Moves sort w (.clock currentTimeMs)
        { w with locals := { w.locals with currentTimeMs := currentTimeMs }, pc := .timers 0 }
  | clockLeft {i : Nat} {currentTimeMs : Int} : w.pc = .sockets i → w.mux.socketListeners.length ≤ i →
    w.mux.break_ = true →
      Moves sort w (.clock currentTimeMs) (w.goto (.freeing 0))
  | fired {i : Nat} {call : ScheduledTimerCall} : w.pc = .timers i →
    Moves sort w .timer { w with fired := w.fired ++ [call], pc := .inTimer i }
  | timersEnded {i : Nat} : w.pc = .timers i → Moves sort w .timer (w.endTimers sort i)
  | packetReturned {i : Nat} : w.pc = .inPacket i → w.mux.break_ = false →
    Moves sort w .returned (w.goto (.sockets (i + 1)))
  | packetLeft {i : Nat} : w.pc = .inPacket i → w.mux.break_ = true → Moves sort w .returned (w.goto (.freeing 0))
  | timerReturned {i : Nat} : w.pc = .inTimer i → Moves sort w .returned
      { w with
        locals := { w.locals with timerQueue := w.locals.timerQueue.modify i ScheduledTimerCall.reschedule }
        pc := .timers (i + 1) }
  | timerBroke {i : Nat} : w.pc = .inTimer i → Moves sort w .returned (w.endTimers sort i)
  | threw : w.pc.inCallback = true → Moves sort w .threw (w.goto (.leaving (some .listener)))
  | freed {j listener socket : Nat} : w.pc = .freeing j → w.mux.socketListeners[j]? = some (listener, socket) →
      Moves sort w .free { w with signals := w.signals.cancel socket, pc := .freeing (j + 1) }
  | freedAll {j : Nat} : w.pc = .freeing j → Moves sort w .free (w.goto (.leaving none))
  | cleared {thrown : Option Exn} : w.pc = .leaving thrown → Moves sort w .clear
      { w with mux := { w.mux with break_ := false }, pc := .outside, exits := w.exits + 1 }
  | broke : w.pc = .outside ∨ w.pc.inCallback = true → Moves sort w .break_ (w.setBreak true)
  | asked : Moves sort w .asynchronousBreak { w.setBreak true with requests := w.requests ++ [⟨w.exits, false⟩] }
  | set {i began : Nat} : w.requests[i]? = some ⟨began, false⟩ → Moves sort w (.setEvent i)
      { w with signals := w.signals.set w.mux.breakEvent, requests := w.requests.set i ⟨began, true⟩ }

variable {w : World}

theorem wait_moves (sort : StdSort) (hpc : w.pc = .blocked) (hsmall : w.locals.events.length ≤ maximumWaitObjects)
    {waitResult : WaitResult} (hp : waitResult.Possible w) : Moves sort w (.wait waitResult) (w.wait waitResult) := by
  cases waitResult with
  | object i =>
    obtain ⟨-, e, he, -, hfirst⟩ := hp
    rw [World.wait, he]
    exact .woken hpc he hfirst
  | timeout => exact .timedOut hpc hp.2.1
  | failed => exact absurd hsmall (by simpa [WaitResult.Possible] using hp)

theorem check_moves (sort : StdSort) {waitResult : WaitResult} (hpc : w.pc = .check waitResult)
    (hok : waitResult ≠ .failed) :
    ∃ w', w.check = ok w' ∧ Moves sort w .check w' := by
  rw [World.check, hpc]
  cases hb : w.mux.break_ with
  | true => exact ⟨_, rfl, .checkLeft hpc hb⟩
  | false =>
    cases waitResult with
    | object i => exact ⟨_, rfl, .checked hpc hb (.inl rfl)⟩
    | timeout => exact ⟨_, rfl, .checked hpc hb (.inr ⟨rfl, rfl⟩)⟩
    | failed => exact absurd rfl hok

theorem receive_of_deliverable {i : Nat} {d : Datagram} (hd : Deliverable d) : w.receive i (some d) =
    { w with locals := { w.locals with remoteEndpoint := remoteName d.fromAddr }, pc := .received i d.bytes d } := by
  simp only [World.receive, receiveFrom, if_pos hd.2, if_pos hd.1]

theorem receive_of_not {i : Nat} {d : Datagram} (hd : ¬ Deliverable d) : ∃ remoteEndpoint, w.receive i (some d) =
    { w with locals := { w.locals with remoteEndpoint := remoteEndpoint }, pc := .sockets (i + 1) } := by
  refine ⟨(receiveFrom w.locals.remoteEndpoint maxBufferSize (some d)).2, ?_⟩
  have hsize : ¬ 0 < (receiveFrom w.locals.remoteEndpoint maxBufferSize (some d)).1.length := by
    rw [receiveFrom]
    split
    · exact fun h => hd ⟨h, ‹_›⟩
    · simp
  rw [World.receive]
  dsimp only
  rw [if_neg hsize]

theorem look_moves (sort : StdSort) {i listener socket : Nat} (hpc : w.pc = .sockets i)
    (hx : w.mux.socketListeners[i]? = some (listener, socket)) {taken : Bool}
    (hp : if taken then (w.inboxes socket).error = false ∧ (w.inboxes socket).queue ≠ []
      else (w.inboxes socket).error = true ∨ (w.inboxes socket).queue = []) :
    Moves sort w (.look taken) ((w.recvfrom socket taken).2.receive i (w.recvfrom socket taken).1) := by
  cases taken with
  | false => exact .lookFailed hpc hx hp
  | true =>
    cases hq : (w.inboxes socket).queue with
    | nil => exact absurd hq hp.2
    | cons d queue =>
      have he : w.recvfrom socket true = (some d, w.looked socket ⟨queue, (w.inboxes socket).error⟩) := by
        rw [World.recvfrom, if_pos rfl, hq]
        rfl
      rw [he]
      by_cases hd : Deliverable d
      · rw [receive_of_deliverable hd]
        exact .received hpc hx hq hd
      · obtain ⟨remoteEndpoint, hr⟩ := @receive_of_not (w.looked socket ⟨queue, (w.inboxes socket).error⟩) i d hd
        rw [hr]
        exact .dropped remoteEndpoint hpc hx hq hd

theorem timer_moves (sort : StdSort) {i : Nat} (hpc : w.pc = .timers i) : Moves sort w .timer (w.timer sort i) := by
  unfold World.timer
  split
  · split
    · exact .fired hpc
    · exact .timersEnded hpc
  · exact .timersEnded hpc

theorem returned_moves (sort : StdSort) (hp : w.pc.inCallback = true) : Moves sort w .returned (w.returned sort) := by
  unfold World.returned
  cases hpc : w.pc with
  | inPacket i =>
    cases hb : w.mux.break_ with
    | true => exact .packetLeft hpc hb
    | false => exact .packetReturned hpc hb
  | inTimer i =>
    dsimp only
    split
    · exact .timerBroke hpc
    · exact .timerReturned hpc
  | _ => simp [hpc, Pc.inCallback] at hp

/-- A step does what it says, when the wait has not failed. -/
theorem step_moves (sort : StdSort) {e : Event} (hp : Possible e w)
    (hsmall : w.pc = .blocked → w.locals.events.length ≤ maximumWaitObjects) (hok : w.pc ≠ .check .failed)
    (hindex : ∀ i data d, w.pc = .received i data d → i < w.mux.socketListeners.length)
    (hevents : ∀ j, w.pc = .freeing j → w.mux.socketListeners.length ≤ w.locals.events.length) :
    ∃ w', attempt (World.step sort e w) = ok w' ∧ Moves sort w e w' := by
  cases e with
  | attachSocketListener socket listener =>
    refine ⟨_, rfl, .listeners hp rfl rfl (fun x hx => ?_) (by simp) (by simp)⟩
    rcases List.mem_append.mp hx with hx | hx
    · exact .inl hx
    · rw [List.mem_singleton.mp hx]
      exact .inr rfl
  | detachSocketListener socket listener =>
    exact ⟨_, rfl, .listeners hp.1 rfl rfl (fun x hx => .inl (List.mem_of_mem_erase hx)) (by simp) (by simp)⟩
  | attachPeriodicTimerListener initial period listener =>
    exact ⟨_, rfl, .listeners hp rfl rfl (fun x hx => .inl hx) (by simp) (by simp)⟩
  | detachPeriodicTimerListener listener =>
    exact ⟨_, rfl, .listeners hp.1 rfl rfl (fun x hx => .inl hx) (by simp) (by simp)⟩
  | arrive socket d => exact ⟨_, rfl, .arrived socket d⟩
  | fail socket => exact ⟨_, rfl, .failed socket⟩
  | run => exact ⟨_, rfl, .run hp⟩
  | outOfMemory => exact ⟨_, rfl, .outOfMemory hp⟩
  | allocate => exact ⟨_, rfl, .allocated hp⟩
  | selectEvent =>
    obtain ⟨j, hpc, hj⟩ := hp
    have hx : w.mux.socketListeners[j]? = some (w.mux.socketListeners[j].1, w.mux.socketListeners[j].2) :=
      List.getElem?_eq_getElem hj
    simp only [World.step, hpc, hx]
    exact ⟨_, rfl, .selected hpc hx⟩
  | setUp currentTimeMs => exact ⟨_, rfl, .setUp hp⟩
  | test currentTimeMs =>
    rw [World.step]
    cases hb : w.mux.break_ with
    | true => exact ⟨_, rfl, .stopped hp hb⟩
    | false => exact ⟨_, rfl, .tested hp hb⟩
  | wait waitResult => exact ⟨_, rfl, wait_moves sort hp.1 (hsmall hp.1) hp.2⟩
  | check =>
    obtain ⟨waitResult, hpc⟩ := hp
    obtain ⟨w', he, hm⟩ := check_moves sort hpc fun h => hok (h ▸ hpc)
    exact ⟨w', by rw [World.step, he]; rfl, hm⟩
  | look taken =>
    obtain ⟨i, listener, socket, hpc, hx, hp⟩ := hp
    simp only [World.step, World.look, hpc, hx]
    exact ⟨_, rfl, look_moves sort hpc hx hp⟩
  | hand =>
    obtain ⟨i, data, d, hpc⟩ := hp
    have hi := hindex i data d hpc
    have hx : w.mux.socketListeners[i]? = some (w.mux.socketListeners[i].1, w.mux.socketListeners[i].2) :=
      List.getElem?_eq_getElem hi
    simp only [World.step, World.hand, hpc, hx]
    cases hb : w.mux.break_ with
    | true => exact ⟨_, rfl, .lost hpc hx hb⟩
    | false => exact ⟨_, rfl, .handed hpc hx hb⟩
  | clock currentTimeMs =>
    obtain ⟨i, hpc, hi⟩ := hp
    rw [World.step]
    cases hb : w.mux.break_ with
    | true => exact ⟨_, rfl, .clockLeft hpc hi hb⟩
    | false => exact ⟨_, rfl, .clock hpc hi hb⟩
  | timer =>
    obtain ⟨i, hpc⟩ := hp
    rw [World.step, hpc]
    exact ⟨_, rfl, timer_moves sort hpc⟩
  | returned => exact ⟨_, rfl, returned_moves sort hp⟩
  | threw => exact ⟨_, rfl, .threw hp⟩
  | free =>
    obtain ⟨j, hpc⟩ := hp
    by_cases hj : j < w.mux.socketListeners.length
    · have hj' := hj.trans_le (hevents j hpc)
      have hx : w.mux.socketListeners[j]? = some (w.mux.socketListeners[j].1, w.mux.socketListeners[j].2) :=
        List.getElem?_eq_getElem hj
      have he : w.locals.events[j]? = some w.locals.events[j] := List.getElem?_eq_getElem hj'
      simp only [World.step, World.free, hpc, hx, he]
      exact ⟨_, rfl, .freed hpc hx⟩
    · have hx : w.mux.socketListeners[j]? = none := List.getElem?_eq_none (Nat.not_lt.mp hj)
      simp only [World.step, World.free, hpc, hx]
      exact ⟨_, rfl, .freedAll hpc⟩
  | clear =>
    obtain ⟨thrown, hpc⟩ := hp
    rw [World.step, World.clear, hpc]
    cases thrown <;> exact ⟨_, rfl, .cleared hpc⟩
  | break_ => exact ⟨_, rfl, .broke hp⟩
  | asynchronousBreak => exact ⟨_, rfl, .asked⟩
  | setEvent i =>
    obtain ⟨began, hr⟩ := hp
    simp only [World.step, hr]
    exact ⟨_, rfl, .set hr⟩

end OscTap.Win32.Multiplexer
