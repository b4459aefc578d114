/-
  OscTap.Ip.Moves — what a step of the UDP receive loop does (see `OscTap.Ip.Multiplexer`).

  `Moves` has one constructor for each way that a step can go, with the state behind it and the
  tests that led there. `step_moves`: as long as the descriptors fit the sets of `select()`, no
  step goes wrong, and each is one of these. What a run keeps is read off it, constructor by
  constructor.
-/
import OscTap.Ip.Multiplexer

namespace OscTap.Ip.Multiplexer

open OscTap.Lib OscTap.Lib.Out OscTap.Tcp OscTap.Ip.Timers

def World.ahead (w : World) : List (Nat × Nat) :=
  match w.pc with
  | .woken | .check => w.mux.socketListeners
  | .sockets rest | .inPacket rest => rest
  | _ => []

/-- The states behind the steps, each with what it took. -/
inductive Moves (sort : StdSort) (w : World) : Event → World → Prop
  | listeners {e : Event} {m : SocketReceiveMultiplexer} : e.own = false → w.pc = .outside → m.break_ = w.mux.break_ →
    m.breakPipe = w.mux.breakPipe →
      (∀ x ∈ m.socketListeners, x ∈ w.mux.socketListeners ∨ e = .attachSocketListener x.2 x.1) →
        Moves sort w e { w with mux := m }
  | arrived (socket : Nat) (d : Datagram) : Moves sort w (.arrive socket d)
      { w.setInbox socket ⟨(w.inboxes socket).queue ++ [d], (w.inboxes socket).error⟩ with
        arrived := Function.update w.arrived socket (w.arrived socket ++ [d]) }
  | failed (socket : Nat) : Moves sort w (.fail socket) (w.setInbox socket ⟨(w.inboxes socket).queue, true⟩)
  | run : w.pc = .outside → Moves sort w .run (w.goto .setUp)
  | setUp {currentTimeMs : Int} {masterfds : List Nat} {fdmax : Nat} : w.pc = .setUp →
      (∀ fd, fd ∈ masterfds ∧ fd ≤ fdmax ↔ fd = w.mux.breakPipe ∨ ∃ x ∈ w.mux.socketListeners, x.2 = fd) →
      Moves sort w (.setUp currentTimeMs) { w with
        locals := ⟨masterfds, fdmax, [], none, currentTimeMs, timerQueue sort currentTimeMs w.mux.timerListeners,
          ⟨0xFFFFFFFF, -1⟩⟩
        pc := .test }
  | outOfMemory : w.pc = .setUp → Moves sort w .outOfMemory (w.goto (.leaving (some .badAlloc)))
  | stopped {currentTimeMs : Int} : w.pc = .test → w.mux.break_ = true →
    Moves sort w (.test currentTimeMs) (w.goto (.leaving none))
  | tested {currentTimeMs : Int} : w.pc = .test → w.mux.break_ = false → Moves sort w (.test currentTimeMs)
      { w with locals := { w.locals with timeout := timeoutMs currentTimeMs w.locals.timerQueue }, pc := .blocked }
  | selected {readfds : List Nat} : w.pc = .blocked → (SelectResult.ready readfds).Possible w →
    Moves sort w (.select (.ready readfds))
      { w with locals := { w.locals with tempfds := readfds }, pc := .woken }
  | retried : w.pc = .blocked → w.mux.break_ = false → Moves sort w (.select .eintr) (w.goto .test)
  | selectLeft {result : SelectResult} (thrown : Option Exn) : w.pc = .blocked →
    (result = .eintr → w.mux.break_ = true ∧ thrown = none) →
      (∀ readfds, result ≠ .ready readfds) → Moves sort w (.select result) (w.goto (.leaving thrown))
  | drained : w.pc = .woken → Moves sort w .drain
      { w with pipe := if w.mux.breakPipe ∈ w.locals.tempfds then w.pipe - 1 else w.pipe, pc := .check }
  | checked : w.pc = .check → w.mux.break_ = false → Moves sort w .check (w.goto (.sockets w.mux.socketListeners))
  | checkLeft : w.pc = .check → w.mux.break_ = true → Moves sort w .check (w.goto (.leaving none))
  | skipped {taken : Bool} {listener socket : Nat} {rest : List (Nat × Nat)} :
    w.pc = .sockets ((listener, socket) :: rest) →
      socket ∉ w.locals.tempfds → Moves sort w (.look taken) (w.goto (.sockets rest))
  | lookFailed {taken : Bool} {listener socket : Nat} {rest : List (Nat × Nat)} :
    w.pc = .sockets ((listener, socket) :: rest) →
      socket ∈ w.locals.tempfds → (w.inboxes socket).error = true ∨ (w.inboxes socket).queue = [] →
      Moves sort w (.look taken) { w.setInbox socket ⟨(w.inboxes socket).queue, false⟩ with pc := .sockets rest }
  | lookEmpty {taken : Bool} {listener socket : Nat} {rest : List (Nat × Nat)} {d : Datagram} {queue : List Datagram} :
      w.pc = .sockets ((listener, socket) :: rest) → socket ∈ w.locals.tempfds →
        (w.inboxes socket).queue = d :: queue → d.bytes = [] →
      Moves sort w (.look taken) { w.setInbox socket ⟨queue, (w.inboxes socket).error⟩ with
        locals := { w.locals with remoteEndpoint := remoteName d.fromAddr }
        pc := .sockets rest }
  | called {taken : Bool} {listener socket : Nat} {rest : List (Nat × Nat)} {d : Datagram} {queue : List Datagram} :
      w.pc = .sockets ((listener, socket) :: rest) → socket ∈ w.locals.tempfds →
        (w.inboxes socket).queue = d :: queue → d.bytes ≠ [] →
      Moves sort w (.look taken) { w.setInbox socket ⟨queue, (w.inboxes socket).error⟩ with
        locals := { w.locals with remoteEndpoint := remoteName d.fromAddr }
        log := w.log ++
          [⟨listener, socket, d.bytes.take maxBufferSize, (d.bytes.take maxBufferSize).length, remoteName d.fromAddr⟩]
        pc := .inPacket rest }
  | clock {currentTimeMs : Int} : w.pc = .sockets [] → Moves sort w (.clock currentTimeMs)
      { w with locals := { w.locals with currentTimeMs := currentTimeMs }, pc := .timers 0 }
  | fired {i : Nat} {call : ScheduledTimerCall} : w.pc = .timers i → w.locals.timerQueue[i]? = some call →
      expired w.locals.currentTimeMs call = true → Moves sort w .timer
        { w with fired := w.fired ++ [call], pc := .inTimer i }
  | timersEnded {i : Nat} : w.pc = .timers i →
      (∀ call, w.locals.timerQueue[i]? = some call → expired w.locals.currentTimeMs call = false) →
      Moves sort w .timer (w.endTimers sort i)
  | packetReturned {rest : List (Nat × Nat)} : w.pc = .inPacket rest →
      Moves sort w .returned (w.goto (.sockets (if w.mux.break_ then [] else rest)))
  | timerReturned {i : Nat} : w.pc = .inTimer i → w.mux.break_ = false → Moves sort w .returned
      { w with
        locals := { w.locals with timerQueue := w.locals.timerQueue.modify i ScheduledTimerCall.reschedule }
        pc := .timers (i + 1) }
  | timerBroke {i : Nat} : w.pc = .inTimer i → w.mux.break_ = true → Moves sort w .returned (w.endTimers sort i)
  | threw : w.pc.inCallback = true → Moves sort w .threw (w.goto (.leaving (some .listener)))
  | cleared {thrown : Option Exn} : w.pc = .leaving thrown → Moves sort w .clear
      { w with mux := { w.mux with break_ := false }, pc := .outside, exits := w.exits + 1 }
  | broke : w.pc = .outside ∨ w.pc.inCallback = true → Moves sort w .break_ (w.setBreak true)
  | asked : Moves sort w .asynchronousBreak { w.setBreak true with requests := w.requests ++ [⟨w.exits, false⟩] }
  | wrote {i began : Nat} : w.requests[i]? = some ⟨began, false⟩ → Moves sort w (.write i)
      { w with pipe := w.pipe + 1, requests := w.requests.set i ⟨began, true⟩ }

/-- The set of `select()` holds the break pipe and every socket, and nothing else. -/
theorem watched_eq {ε : Type} {m : SocketReceiveMultiplexer} (hp : m.breakPipe < fdSetSize)
    (hs : ∀ x ∈ m.socketListeners, x.2 < fdSetSize) :
    ∃ masterfds fdmax, (m.watched : Out ε _) = ok (masterfds, fdmax) ∧
      ∀ fd, fd ∈ masterfds ∧ fd ≤ fdmax ↔ fd = m.breakPipe ∨ ∃ x ∈ m.socketListeners, x.2 = fd := by
  have hset : ∀ (xs : List (Nat × Nat)) (fds : List Nat), (∀ x ∈ xs, x.2 < fdSetSize) →
      ∃ fds', (xs.foldlM (fun fds x => fdSet x.2 fds) fds : Out ε _) = ok fds' ∧ ∀ fd, fd ∈ fds' ↔ fd ∈ fds ∨
        ∃ x ∈ xs, x.2 = fd := by
    intro xs
    induction xs with
    | nil => exact fun fds _ => ⟨fds, rfl, by simp⟩
    | cons x xs ih =>
      intro fds h
      obtain ⟨hx, hxs⟩ := List.forall_mem_cons.mp h
      obtain ⟨fds', he, hmem⟩ := ih (x.2 :: fds) hxs
      refine ⟨fds', by rw [List.foldlM_cons, fdSet, if_pos hx]; exact he, fun fd => ?_⟩
      rw [hmem, List.mem_cons, List.exists_mem_cons_iff, eq_comm (a := fd)]
      tauto
  have hmax : ∀ (xs : List (Nat × Nat)) (n : Nat), n ≤ xs.foldl (fun fdmax x => max fdmax x.2) n ∧
      ∀ x ∈ xs, x.2 ≤ xs.foldl (fun fdmax x => max fdmax x.2) n := by
    intro xs
    induction xs with
    | nil => exact fun n => ⟨Nat.le_refl n, by simp⟩
    | cons x xs ih =>
      intro n
      obtain ⟨h1, h2⟩ := ih (max n x.2)
      rw [List.foldl_cons]
      exact ⟨by omega, List.forall_mem_cons.mpr ⟨by omega, h2⟩⟩
  obtain ⟨fds, he, hmem⟩ := hset m.socketListeners [m.breakPipe] hs
  obtain ⟨h1, h2⟩ := hmax m.socketListeners m.breakPipe
  refine ⟨fds, _, by rw [SocketReceiveMultiplexer.watched, fdSet, if_pos hp, ok_bind, he]; rfl, fun fd => ?_⟩
  rw [hmem, List.mem_singleton]
  refine ⟨And.left, fun h => ⟨h, ?_⟩⟩
  rcases h with rfl | ⟨x, hx, rfl⟩
  · exact h1
  · exact h2 x hx

theorem fdIsSet_eq {ε : Type} {fds : List Nat} {fd : Nat} (h : fd < fdSetSize) :
    (fdIsSet fds fd : Out ε Bool) = ok (decide (fd ∈ fds)) :=
  if_pos h

variable {w : World}

theorem timer_moves (sort : StdSort) {i : Nat} (hpc : w.pc = .timers i) : Moves sort w .timer (w.timer sort i) := by
  unfold World.timer
  cases hq : w.locals.timerQueue[i]? with
  | none => exact .timersEnded hpc fun call hc => by rw [hq] at hc; cases hc
  | some call =>
    dsimp only
    by_cases hd : expired w.locals.currentTimeMs call = true
    · rw [if_pos hd]
      exact .fired hpc hq hd
    · rw [if_neg hd]
      refine .timersEnded hpc fun call' hc => ?_
      rw [hq] at hc
      obtain rfl := Option.some.inj hc
      simpa using hd

theorem returned_moves (sort : StdSort) (hp : w.pc.inCallback = true) : Moves sort w .returned (w.returned sort) := by
  unfold World.returned
  cases hpc : w.pc with
  | inPacket rest => exact .packetReturned hpc
  | inTimer i =>
    dsimp only
    cases hb : w.mux.break_ with
    | true => exact .timerBroke hpc hb
    | false => exact .timerReturned hpc hb
  | _ => rw [hpc] at hp; cases hp

theorem select_moves (sort : StdSort) (hpc : w.pc = .blocked) {result : SelectResult} (hp : result.Possible w) :
    Moves sort w (.select result) (w.select result) := by
  cases result with
  | ready readfds => exact .selected hpc hp
  | eintr =>
    rw [World.select]
    cases hb : w.mux.break_ with
    | true => exact .selectLeft none hpc (fun _ => ⟨hb, rfl⟩) nofun
    | false => exact .retried hpc hb
  | failed => exact .selectLeft _ hpc (fun h => by cases h) nofun

theorem look_moves (sort : StdSort) {listener socket : Nat} {rest : List (Nat × Nat)}
    (hpc : w.pc = .sockets ((listener, socket) :: rest)) (hset : socket ∈ w.locals.tempfds) {taken : Bool}
    (hp : if taken then (w.inboxes socket).error = false ∧ (w.inboxes socket).queue ≠ []
      else (w.inboxes socket).error = true ∨ (w.inboxes socket).queue = []) :
    Moves sort w (.look taken)
      ((w.recvfrom socket taken).2.receive listener socket rest (w.recvfrom socket taken).1) := by
  cases taken with
  | false => exact .lookFailed hpc hset hp
  | true =>
    cases hq : (w.inboxes socket).queue with
    | nil => exact absurd hq hp.2
    | cons d queue =>
      have he : w.recvfrom socket true = (some d, w.setInbox socket ⟨queue, (w.inboxes socket).error⟩) := by
        rw [World.recvfrom, if_pos rfl, hq]
      rw [he, World.receive]
      by_cases hb : d.bytes = []
      · rw [if_neg (by simp [receiveFrom, hb])]
        exact .lookEmpty hpc hset hq hb
      · rw [if_pos (by simpa [receiveFrom, maxBufferSize] using List.length_pos_iff.mpr hb)]
        exact .called hpc hset hq hb

/-- A step does what it says, when the descriptors fit the sets of `select()`. -/
theorem step_moves (sort : StdSort) {e : Event} (hp : Possible e w) (hpipe : w.mux.breakPipe < fdSetSize)
    (hsockets : ∀ x ∈ w.mux.socketListeners, x.2 < fdSetSize) (hahead : w.ahead <:+ w.mux.socketListeners) :
    ∃ w', attempt (World.step sort e w) = ok w' ∧ Moves sort w e w' := by
  cases e with
  | attachSocketListener socket listener =>
    refine ⟨_, rfl, .listeners rfl hp.1 rfl rfl fun x hx => ?_⟩
    rcases List.mem_append.mp hx with hx | hx
    · exact .inl hx
    · rw [List.mem_singleton.mp hx]
      exact .inr rfl
  | detachSocketListener socket listener =>
    exact ⟨_, rfl, .listeners rfl hp.1 rfl rfl fun x hx => .inl (List.mem_of_mem_erase hx)⟩
  | attachPeriodicTimerListener initial period listener => exact ⟨_, rfl, .listeners rfl hp rfl rfl fun x hx => .inl hx⟩
  | detachPeriodicTimerListener listener => exact ⟨_, rfl, .listeners rfl hp.1 rfl rfl fun x hx => .inl hx⟩
  | arrive socket d => exact ⟨_, rfl, .arrived socket d⟩
  | fail socket => exact ⟨_, rfl, .failed socket⟩
  | run => exact ⟨_, rfl, .run hp⟩
  | setUp currentTimeMs =>
    obtain ⟨masterfds, fdmax, he, hwatched⟩ := watched_eq (ε := Exn × World) hpipe hsockets
    rw [World.step, he, ok_bind]
    exact ⟨_, rfl, .setUp hp hwatched⟩
  | outOfMemory => exact ⟨_, rfl, .outOfMemory hp⟩
  | test currentTimeMs =>
    rw [World.step]
    cases hb : w.mux.break_ with
    | true => exact ⟨_, rfl, .stopped hp hb⟩
    | false => exact ⟨_, rfl, .tested hp hb⟩
  | select result => exact ⟨_, rfl, select_moves sort hp.1 hp.2⟩
  | drain =>
    rw [World.step, fdIsSet_eq hpipe, ok_bind]
    simp only [decide_eq_true_eq]
    exact ⟨_, rfl, .drained hp⟩
  | check =>
    rw [World.step]
    cases hb : w.mux.break_ with
    | true => exact ⟨_, rfl, .checkLeft hp hb⟩
    | false => exact ⟨_, rfl, .checked hp hb⟩
  | look taken =>
    obtain ⟨listener, socket, rest, hpc, hp⟩ := hp
    have hmem : (listener, socket) ∈ w.mux.socketListeners :=
      hahead.subset (by rw [World.ahead, hpc]; exact List.mem_cons_self ..)
    rw [World.step, World.look, hpc]
    dsimp only
    rw [fdIsSet_eq (hsockets _ hmem), ok_bind]
    by_cases hset : socket ∈ w.locals.tempfds
    · rw [if_pos (by simpa using hset)]
      exact ⟨_, rfl, look_moves sort hpc hset (hp hset)⟩
    · rw [if_neg (by simpa using hset)]
      exact ⟨_, rfl, .skipped hpc hset⟩
  | clock currentTimeMs => exact ⟨_, rfl, .clock hp⟩
  | timer =>
    obtain ⟨i, hpc⟩ := hp
    rw [World.step, hpc]
    exact ⟨_, rfl, timer_moves sort hpc⟩
  | returned => exact ⟨_, rfl, returned_moves sort hp⟩
  | threw => exact ⟨_, rfl, .threw hp⟩
  | clear =>
    obtain ⟨thrown, hpc⟩ := hp
    rw [World.step, World.clear, hpc]
    cases thrown <;> exact ⟨_, rfl, .cleared hpc⟩
  | break_ => exact ⟨_, rfl, .broke hp⟩
  | asynchronousBreak => exact ⟨_, rfl, .asked⟩
  | write i =>
    obtain ⟨began, hr⟩ := hp
    simp only [World.step, hr]
    exact ⟨_, rfl, .wrote hr⟩

end OscTap.Ip.Multiplexer
