/-
  OscTap.Ip.Datagrams — what the UDP receive loop does with the datagrams that arrive
  (see `OscTap.Ip.Multiplexer`).

  Proved, over every run in which the descriptors fit the sets of `select()`:
  - `run_inv`: no step goes wrong, and the loop is, without its sockets and timers, the loop of
    `OscTap.Ip.StopRequest`.
  - `datagrams_delivered`: each socket's datagrams, in order, each once, to its listener.
  - `stop_requests_served`: `Run` does not wait with a stop request that it has not served.
  - `no_starvation`: a pass delivers of every socket that `select()` reports.
-/
import OscTap.Ip.Moves

namespace OscTap.Ip.Multiplexer

open OscTap.Lib OscTap.Lib.Out OscTap.Tcp OscTap.Ip.Timers

/-! ## The loop without its sockets and timers -/

def World.due (w : World) (i : Nat) : Nat :=
  ((w.locals.timerQueue.drop i).takeWhile (expired w.locals.currentTimeMs)).length

def World.stopPc (w : World) : Ip.Pc :=
  match w.pc with
  | .outside => .outside
  | .setUp => .setUp
  | .test => .test
  | .blocked => .blocked
  | .woken => .woken (decide (w.mux.breakPipe ∈ w.locals.tempfds))
  | .check => .check
  | .sockets rest => .looking .sockets rest.length
  | .inPacket rest => .callback .sockets rest.length
  | .timers i => .looking .timers (w.due i)
  | .inTimer i => .callback .timers (w.due (i + 1))
  | .leaving _ => .leaving

def World.stop (w : World) : Ip.State := ⟨w.mux.break_, w.pipe, w.stopPc, w.exits, w.requests⟩

/-! ## Datagrams -/

/-- What the listeners are given of the datagrams taken: empty ones are dropped, long ones are cut. -/
def delivered (taken : List Datagram) : List (Bytes × Int × IpEndpointName) :=
  (taken.filter fun d => d.bytes ≠ []).map fun d =>
    (d.bytes.take maxBufferSize, ((d.bytes.take maxBufferSize).length : Int), remoteName d.fromAddr)

def callsOn (log : List Call) (socket : Nat) : List (Bytes × Int × IpEndpointName) :=
  (log.filter fun call => call.socket = socket).map fun call => (call.data, call.size, call.remoteEndpoint)

/-- The datagrams of a socket are taken in the order of their arrival, and each is delivered once. -/
def Served (w : World) (socket : Nat) : Prop :=
  ∃ taken, w.arrived socket = taken ++ (w.inboxes socket).queue ∧ callsOn w.log socket = delivered taken

def Pc.inLoop : Pc → Bool
  | .outside | .setUp | .leaving _ => false
  | _ => true

/-- The documented use: each socket at most once. -/
def SocketReceiveMultiplexer.Once (m : SocketReceiveMultiplexer) : Prop := (m.socketListeners.map Prod.snd).Nodup

structure Inv (w : World) : Prop where
  pipeFits : w.mux.breakPipe < fdSetSize
  socketsFit : ∀ x ∈ w.mux.socketListeners, x.2 < fdSetSize ∧ x.2 ≠ w.mux.breakPipe
  watched : w.pc.inLoop = true → ∀ fd, fd ∈ w.locals.masterfds ∧ fd ≤ w.locals.fdmax ↔ fd = w.mux.breakPipe ∨
    ∃ x ∈ w.mux.socketListeners, x.2 = fd
  ahead : w.ahead <:+ w.mux.socketListeners
  served : ∀ socket, Served w socket
  /-- No look at a socket takes what another one has seen. -/
  readable : w.mux.Once → ∀ x ∈ w.ahead, x.2 ∈ w.locals.tempfds → (w.inboxes x.2).Readable
  stop : Ip.Reach .udp w.stop

variable {sort : StdSort} {w w' : World}

theorem start_inv {breakPipe : Nat} (h : breakPipe < fdSetSize) : Inv (.start breakPipe) where
  pipeFits := h
  socketsFit := fun _ hx => by cases hx
  watched := fun h => by cases h
  ahead := List.nil_suffix
  served := fun _ => ⟨[], rfl, rfl⟩
  readable := fun _ _ hx => by cases hx
  stop := .init

/-- A step that leaves the sockets alone. -/
theorem Inv.control (hi : Inv w) (hs : w'.mux.socketListeners = w.mux.socketListeners)
    (hp : w'.mux.breakPipe = w.mux.breakPipe) (hin : w'.inboxes = w.inboxes) (harr : w'.arrived = w.arrived)
    (hlog : w'.log = w.log)
    (hw : w'.pc.inLoop = true → w.pc.inLoop = true ∧ w'.locals.masterfds = w.locals.masterfds ∧
      w'.locals.fdmax = w.locals.fdmax)
    (hr : w'.ahead = [] ∨ w'.ahead <:+ w.ahead ∧ w'.locals.tempfds = w.locals.tempfds)
    (hstop : Ip.Reach .udp w'.stop) : Inv w' where
  pipeFits := hp ▸ hi.pipeFits
  socketsFit := by rw [hs, hp]; exact hi.socketsFit
  watched := fun h => by
    obtain ⟨h1, h2, h3⟩ := hw h
    rw [hs, hp, h2, h3]
    exact hi.watched h1
  ahead := by
    rw [hs]
    rcases hr with hr | ⟨hr, -⟩
    · rw [hr]; exact List.nil_suffix
    · exact hr.trans hi.ahead
  served := fun socket => by
    rw [Served, hin, harr, hlog]
    exact hi.served socket
  readable := fun honce x hx ht => by
    rw [SocketReceiveMultiplexer.Once, hs] at honce
    rcases hr with hr | ⟨hr, htemp⟩
    · rw [hr] at hx; cases hx
    · rw [hin]
      exact hi.readable honce x (hr.subset hx) (htemp ▸ ht)
  stop := hstop

/-! ## The steps -/

/-- An inbox that only gains leaves what was readable readable. -/
theorem Inv.inbox (hi : Inv w) {socket : Nat} {inbox : Inbox} {arrived : Nat → List Datagram}
    (hr : (w.inboxes socket).Readable → inbox.Readable)
    (hserved : ∃ new, inbox.queue = (w.inboxes socket).queue ++ new ∧
      arrived = Function.update w.arrived socket (w.arrived socket ++ new)) :
    Inv { w.setInbox socket inbox with arrived := arrived } where
  pipeFits := hi.pipeFits
  socketsFit := hi.socketsFit
  watched := hi.watched
  ahead := hi.ahead
  served := fun other => by
    obtain ⟨taken, h1, h2⟩ := hi.served other
    obtain ⟨new, hq, rfl⟩ := hserved
    refine ⟨taken, ?_, h2⟩
    show Function.update w.arrived socket _ other = taken ++ (Function.update w.inboxes socket inbox other).queue
    by_cases ho : other = socket
    · subst ho
      rw [Function.update_self, Function.update_self, hq, h1, List.append_assoc]
    · rw [Function.update_of_ne ho, Function.update_of_ne ho, h1]
  readable := fun honce x hx ht => by
    have h := hi.readable honce x hx ht
    show (Function.update w.inboxes socket inbox x.2).Readable
    by_cases ho : x.2 = socket
    · rw [ho, Function.update_self]
      exact hr (ho ▸ h)
    · rw [Function.update_of_ne ho]
      exact h
  stop := hi.stop

/-- A look at a socket that `select()` reported: it takes `taken` of the inbox, and calls the
    listener with what there is to deliver. -/
theorem Inv.looked (hi : Inv w) {listener socket : Nat} {rest : List (Nat × Nat)}
    (hpc : w.pc = .sockets ((listener, socket) :: rest)) (taken : List Datagram) (inbox : Inbox)
    (hq : (w.inboxes socket).queue = taken ++ inbox.queue) (new : List Call)
    (hnew : new.map (fun call => (call.data, call.size, call.remoteEndpoint)) = delivered taken)
    (hsocket : ∀ call ∈ new, call.socket = socket) (locals : Locals) (hl : locals.masterfds = w.locals.masterfds ∧
    locals.fdmax = w.locals.fdmax ∧ locals.tempfds = w.locals.tempfds) {pc : Pc}
    (hw' : w' = { w.setInbox socket inbox with locals := locals, log := w.log ++ new, pc := pc })
    (hpc' : pc = .sockets rest ∨ pc = .inPacket rest) (hstop : Ip.Reach .udp w'.stop) : Inv w' := by
  have hold : ((listener, socket) :: rest) <:+ w.mux.socketListeners := by simpa [hpc, World.ahead] using hi.ahead
  have hahead : w'.ahead = rest := by
    rw [hw', World.ahead]
    rcases hpc' with rfl | rfl <;> rfl
  subst hw'
  refine ⟨hi.pipeFits, hi.socketsFit, fun _ => ?_, ?_, fun other => ?_, fun honce x hx ht => ?_, hstop⟩
  · rw [hl.1, hl.2.1]
    exact hi.watched (by rw [hpc]; rfl)
  · rw [hahead]
    exact (List.suffix_cons _ rest).trans hold
  · obtain ⟨before, h1, h2⟩ := hi.served other
    rw [callsOn] at h2
    by_cases ho : socket = other
    · subst ho
      refine ⟨before ++ taken, ?_, ?_⟩
      · show w.arrived socket = _ ++ (Function.update w.inboxes socket inbox socket).queue
        rw [Function.update_self, h1, hq, List.append_assoc]
      · have hall : new.filter (fun call => call.socket = socket) = new :=
          List.filter_eq_self.mpr fun call hc => by simpa using hsocket call hc
        rw [callsOn, List.filter_append, hall, List.map_append, h2, hnew]
        simp [delivered]
    · refine ⟨before, ?_, ?_⟩
      · show w.arrived other = _ ++ (Function.update w.inboxes socket inbox other).queue
        rw [Function.update_of_ne (Ne.symm ho), h1]
      · have hnone : new.filter (fun call => call.socket = other) = [] :=
          List.filter_eq_nil_iff.mpr fun call hc => by simpa [hsocket call hc] using ho
        rw [callsOn, List.filter_append, hnone, List.append_nil, h2]
  · rw [hahead] at hx
    have hnodup : (((listener, socket) :: rest).map Prod.snd).Nodup := honce.sublist (hold.sublist.map _)
    have hne : x.2 ≠ socket := fun h => (List.nodup_cons.mp hnodup).1 (List.mem_map.mpr ⟨x, hx, h⟩)
    show (Function.update w.inboxes socket inbox x.2).Readable
    rw [Function.update_of_ne hne]
    exact hi.readable honce x (by rw [World.ahead, hpc]; exact List.mem_cons_of_mem _ hx) (hl.2.2 ▸ ht)

/-- A position of the timer queue in front of the loop's test. -/
theorem due_of_some {i : Nat} {call : ScheduledTimerCall} (hq : w.locals.timerQueue[i]? = some call)
    (hd : expired w.locals.currentTimeMs call = true) : w.due i = w.due (i + 1) + 1 := by
  obtain ⟨h, rfl⟩ := List.getElem?_eq_some_iff.mp hq
  rw [World.due, List.drop_eq_getElem_cons h, List.takeWhile_cons_of_pos hd]
  rfl

theorem due_of_none {i : Nat} (h : ∀ call, w.locals.timerQueue[i]? = some call →
    expired w.locals.currentTimeMs call = false) :
    w.due i = 0 := by
  unfold World.due
  by_cases hlt : i < w.locals.timerQueue.length
  · rw [List.drop_eq_getElem_cons hlt, List.takeWhile_cons_of_neg (by simp [h _ (List.getElem?_eq_getElem hlt)])]
    rfl
  · rw [List.drop_eq_nil_of_le (by omega)]
    rfl

/-- What a step does to the loop without its sockets and timers: a step of that loop, or two, or none. -/
theorem Moves.stop {e : Event} (h : Moves sort w e w') (hi : Inv w) : Ip.Reach .udp w'.stop := by
  have hstop := hi.stop
  cases h with
  | listeners _ hpc hb hp hl =>
    rw [show World.stop { w with mux := _ } = w.stop by simp only [World.stop, World.stopPc, hpc, hb]]
    exact hstop
  | arrived | failed => exact hstop
  | run hpc =>
    exact .step .run hstop (by simp [Ip.step, World.stop, World.stopPc, World.goto, hpc, State.goto, Loop.entry])
  | setUp hpc => exact .step (.setUp false) hstop (by simp [Ip.step, World.stop, World.stopPc, hpc, State.goto])
  | outOfMemory hpc =>
    exact .step (.setUp true) hstop (by simp [Ip.step, World.stop, World.stopPc, World.goto, hpc, State.goto])
  | stopped hpc hb =>
    exact .step .test hstop (by simp [Ip.step, World.stop, World.stopPc, World.goto, hpc, hb, State.goto])
  | tested hpc hb => exact .step .test hstop (by simp [Ip.step, World.stop, World.stopPc, hpc, hb, State.goto])
  | @selected readfds hpc hp =>
    have hpipe : w.mux.breakPipe ∈ readfds ↔ 0 < w.pipe := by
      rw [hp.1, ← and_assoc, hi.watched (by rw [hpc]; rfl), if_pos rfl]
      exact and_iff_right (.inl rfl)
    exact .step (.select .ready) hstop (by simp [Ip.step, World.stop, World.stopPc, hpc, State.goto, hpipe])
  | retried hpc hb =>
    exact .step (.select .eintr) hstop (by simp [Ip.step, World.stop, World.stopPc, World.goto, hpc, hb, State.goto])
  | @selectLeft result thrown hpc hb hr =>
    cases result with
    | ready readfds => exact absurd rfl (hr readfds)
    | eintr =>
      exact .step (.select .eintr) hstop
        (by simp [Ip.step, World.stop, World.stopPc, World.goto, hpc, (hb rfl).1, State.goto])
    | failed =>
      exact .step (.select .failed) hstop (by simp [Ip.step, World.stop, World.stopPc, World.goto, hpc, State.goto])
  | drained hpc => exact .step .drain hstop (by simp [Ip.step, World.stop, World.stopPc, hpc])
  | checked hpc hb =>
    exact .step (.check w.mux.socketListeners.length) hstop
      (by simp [Ip.step, World.stop, World.stopPc, World.goto, hpc, hb, State.goto, Loop.first])
  | checkLeft hpc hb =>
    exact .step (.check 0) hstop (by simp [Ip.step, World.stop, World.stopPc, World.goto, hpc, hb, State.goto])
  | skipped hpc _ =>
    exact .step (.look false) hstop (by simp [Ip.step, World.stop, World.stopPc, World.goto, hpc, State.goto])
  | lookFailed hpc | lookEmpty hpc =>
    exact .step (.look false) hstop (by simp [Ip.step, World.stop, World.stopPc, hpc, World.setInbox, State.goto])
  | called hpc =>
    exact .step (.look true) hstop (by simp [Ip.step, World.stop, World.stopPc, hpc, World.setInbox, State.goto])
  | clock hpc => exact .step (.done _) hstop (by rw [World.stop, World.stopPc, hpc]; rfl)
  | fired hpc hq hd =>
    exact .step (.look true) hstop (by rw [World.stop, World.stopPc, hpc]; dsimp only; rw [due_of_some hq hd]; rfl)
  | timersEnded hpc hnone =>
    exact .step (.done 0) hstop
      (by simp [Ip.step, World.stop, World.stopPc, World.endTimers, hpc, due_of_none hnone, State.goto, Phase.behind])
  | packetReturned hpc =>
    refine .step .returned hstop ?_
    cases hb : w.mux.break_ <;> simp [Ip.step, World.stop, World.stopPc, World.goto, hpc, hb, State.goto]
  | timerReturned hpc hb =>
    refine .step .returned hstop ?_
    simp [Ip.step, World.stop, World.stopPc, hpc, hb, State.goto, World.due, List.drop_modify_of_lt]
  | timerBroke hpc hb =>
    have hreturned : Ip.Reach .udp ⟨true, w.pipe, .looking .timers 0, w.exits, w.requests⟩ :=
      .step .returned hstop (by simp [Ip.step, World.stop, World.stopPc, hpc, hb, State.goto])
    exact .step (.done 0) hreturned (by simp [Ip.step, World.stop, World.stopPc, World.endTimers, hb,
      State.goto, Phase.behind])
  | threw hp =>
    refine .step .threw hstop ?_
    cases hpc : w.pc with
    | inPacket rest => simp [Ip.step, World.stop, World.stopPc, World.goto, hpc, State.goto]
    | inTimer i => simp [Ip.step, World.stop, World.stopPc, World.goto, hpc, State.goto]
    | _ => rw [hpc] at hp; cases hp
  | cleared hpc => exact .step .clear hstop (by simp [Ip.step, World.stop, World.stopPc, hpc, State.clear])
  | broke hp =>
    rcases hp with hpc | hp
    · exact .step .breakOutside hstop (by simp [Ip.step, World.stop, World.stopPc, World.setBreak, hpc])
    · cases hpc : w.pc with
      | inPacket rest =>
        exact .step .breakInside hstop (by simp [Ip.step, World.stop, World.stopPc, World.setBreak, hpc])
      | inTimer i =>
        exact .step .breakInside hstop (by simp [Ip.step, World.stop, World.stopPc, World.setBreak, hpc, World.due])
      | _ => rw [hpc] at hp; cases hp
  | asked => exact .step .asynchronousBreak hstop rfl
  | @wrote i began hr =>
    refine .step (.write i) hstop ?_
    simp only [Ip.step, World.stop, hr]
    rfl

/-- Every step keeps the invariant. -/
theorem Moves.inv {e : Event} (h : Moves sort w e w') (hf : e.Fits) (hp : Possible e w) (hi : Inv w) : Inv w' := by
  have hstop := h.stop hi
  cases h with
  | listeners _ hpc hb hpipe hl =>
    refine ⟨hpipe ▸ hi.pipeFits, fun x hx => ?_, fun h => ?_, ?_, hi.served, fun _ x hx => ?_, hstop⟩
    · rw [show World.mux { w with mux := _ } = _ from rfl, hpipe]
      rcases hl x hx with hx | rfl
      · exact hi.socketsFit x hx
      · exact ⟨hf, hp.2⟩
    · simp [hpc, Pc.inLoop] at h
    · simp [hpc, World.ahead]
    · simp [hpc, World.ahead] at hx
  | arrived socket d => exact hi.inbox (fun _ => .inl (by simp)) ⟨[d], rfl, rfl⟩
  | failed socket => exact hi.inbox (fun _ => .inr rfl) ⟨[], by simp, by simp⟩
  | setUp _ hwatched =>
    exact ⟨hi.pipeFits, hi.socketsFit, fun _ => hwatched, List.nil_suffix, hi.served, fun _ x hx =>
      absurd hx (by simp [World.ahead]), hstop⟩
  | run | outOfMemory | stopped | selectLeft | checkLeft | threw | cleared =>
    exact hi.control rfl rfl rfl rfl rfl (fun h => by cases h) (.inl rfl) hstop
  | tested hpc | retried hpc | clock hpc | fired hpc | timersEnded hpc | timerReturned hpc | timerBroke hpc =>
    exact hi.control rfl rfl rfl rfl rfl (fun _ => ⟨by rw [hpc]; rfl, rfl, rfl⟩) (.inl rfl) hstop
  | selected hpc hselect =>
    have hloop : w.pc.inLoop = true := by rw [hpc]; rfl
    refine ⟨hi.pipeFits, hi.socketsFit, fun _ => hi.watched hloop, List.suffix_refl _, hi.served,
      fun _ x hx ht => ?_, hstop⟩
    have hread := ((hselect.1 x.2).mp ht).2.2
    rwa [if_neg (hi.socketsFit x hx).2] at hread
  | drained hpc | checked hpc =>
    exact hi.control rfl rfl rfl rfl rfl (fun _ => ⟨by rw [hpc]; rfl, rfl, rfl⟩)
      (.inr ⟨by simp [World.ahead, World.goto, hpc], rfl⟩) hstop
  | @skipped _ listener socket rest hpc =>
    refine hi.control rfl rfl rfl rfl rfl (fun _ => ⟨by rw [hpc]; rfl, rfl, rfl⟩) (.inr ⟨?_, rfl⟩) hstop
    rw [show w.ahead = (listener, socket) :: rest by rw [World.ahead, hpc]]
    exact List.suffix_cons _ rest
  | @lookFailed _ _ socket _ hpc =>
    exact hi.looked hpc [] ⟨(w.inboxes socket).queue, false⟩ rfl [] rfl (by simp) w.locals ⟨rfl, rfl, rfl⟩
      (by rw [List.append_nil]; rfl) (.inl rfl) hstop
  | @lookEmpty _ _ socket _ d queue hpc _ hq hb =>
    exact hi.looked hpc [d] ⟨queue, (w.inboxes socket).error⟩ hq [] (by simp [delivered, hb]) (by simp)
      { w.locals with remoteEndpoint := remoteName d.fromAddr } ⟨rfl, rfl, rfl⟩ (by rw [List.append_nil]; rfl)
        (.inl rfl) hstop
  | @called _ listener socket _ d queue hpc _ hq hb =>
    exact hi.looked hpc [d] ⟨queue, (w.inboxes socket).error⟩ hq
      [⟨listener, socket, d.bytes.take maxBufferSize, (d.bytes.take maxBufferSize).length, remoteName d.fromAddr⟩]
      (by simp [delivered, hb]) (by simp) { w.locals with remoteEndpoint := remoteName d.fromAddr }
        ⟨rfl, rfl, rfl⟩ rfl (.inr rfl) hstop
  | @packetReturned rest hpc =>
    refine hi.control rfl rfl rfl rfl rfl (fun _ => ⟨by rw [hpc]; rfl, rfl, rfl⟩) (.inr ⟨?_, rfl⟩) hstop
    rw [show w.ahead = rest by rw [World.ahead, hpc]]
    cases w.mux.break_ <;> simp [World.ahead, World.goto]
  | broke | asked | wrote =>
    exact hi.control rfl rfl rfl rfl rfl (fun h => ⟨h, rfl, rfl⟩) (.inr ⟨List.suffix_refl _, rfl⟩) hstop

/-- One step, of any party. -/
theorem step_inv (sort : StdSort) {e : Event} (hf : e.Fits) (hp : Possible e w) (hi : Inv w) :
    ∃ w', attempt (World.step sort e w) = ok w' ∧ Moves sort w e w' ∧ Inv w' := by
  obtain ⟨w', he, hm⟩ := step_moves sort hp hi.pipeFits (fun x hx => (hi.socketsFit x hx).1) hi.ahead
  exact ⟨w', he, hm, hm.inv hf hp hi⟩

/-! ## Runs -/

/-- What every step keeps, a run keeps. -/
theorem run_keeps (sort : StdSort) {I : World → Prop} {events : List Event} (hf : ∀ e ∈ events, e.Fits)
    (hp : Throughout (World.step sort) Possible events w) (hi : Inv w) (hI : I w)
    (h : ∀ e ∈ events, ∀ w w', Inv w → Possible e w → Moves sort w e w' → I w → I w') :
    ∃ w', runCaught (World.step sort) events w = ok w' ∧ Inv w' ∧ I w' := by
  refine hp.caught (I := fun w => Inv w ∧ I w) (fun e he w hpe hw => ?_) ⟨hi, hI⟩
  obtain ⟨w', hstep, hm, hi'⟩ := step_inv sort (hf e he) hpe hw.1
  exact ⟨w', hstep, hi', h e he w w' hw.1 hpe hm hw.2⟩

theorem run_inv (sort : StdSort) {breakPipe : Nat} (hb : breakPipe < fdSetSize) {events : List Event}
    (hf : ∀ e ∈ events, e.Fits) (hp : Throughout (World.step sort) Possible events (.start breakPipe)) :
    ∃ w, runCaught (World.step sort) events (.start breakPipe) = ok w ∧ Inv w := by
  obtain ⟨w, he, hi, -⟩ := run_keeps sort (I := fun _ => True) hf hp
    (start_inv hb) trivial fun _ _ _ _ _ _ _ _ => trivial
  exact ⟨w, he, hi⟩

/-- Listeners and the calls they get come from the calls of `AttachSocketListener`. -/
structure Attached (events : List Event) (w : World) : Prop where
  listeners : ∀ x ∈ w.mux.socketListeners, .attachSocketListener x.2 x.1 ∈ events
  calls : ∀ call ∈ w.log, .attachSocketListener call.socket call.listener ∈ events

theorem Moves.attached {e : Event} {events : List Event} (h : Moves sort w e w') (he : e ∈ events) (hi : Inv w)
    (ha : Attached events w) :
    Attached events w' := by
  cases h with
  | listeners _ _ _ _ hl =>
    refine ⟨fun x hx => ?_, ha.calls⟩
    rcases hl x hx with hx | rfl
    · exact ha.listeners x hx
    · exact he
  | @called taken listener socket rest d queue hpc =>
    have hmem : (listener, socket) ∈ w.mux.socketListeners :=
      hi.ahead.subset (by rw [World.ahead, hpc]; exact List.mem_cons_self ..)
    refine ⟨ha.listeners, fun call hcall => ?_⟩
    rcases List.mem_append.mp hcall with hcall | hcall
    · exact ha.calls call hcall
    · rw [List.mem_singleton.mp hcall]
      exact ha.listeners _ hmem
  | _ => exact ⟨ha.listeners, ha.calls⟩

/-- Two sockets; two datagrams come in on one of them, an empty one and one more on the other. -/
def twoSockets : List Event :=
  [.attachSocketListener 5 0, .attachSocketListener 6 1, .arrive 5 ⟨[1], ⟨7, 8⟩⟩, .arrive 6 ⟨[], ⟨7, 8⟩⟩,
    .arrive 5 ⟨[2], ⟨7, 8⟩⟩, .arrive 6 ⟨[3], ⟨7, 9⟩⟩, .run, .setUp 0, .test 0, .select (.ready [5, 6])]

def onePass : List Event := [.drain, .check, .look true, .returned, .look true]

theorem twoSockets_fit : ∀ e ∈ twoSockets ++ onePass, e.Fits := by simp [twoSockets, onePass, Event.Fits, fdSetSize]

theorem twoSockets_possible : Throughout (World.step default) Possible (twoSockets ++ onePass) (.start 3) := by
  refine ⟨⟨rfl, by decide⟩, ⟨rfl, by decide⟩, trivial, trivial, trivial, trivial, rfl, rfl, rfl,
    ⟨rfl, fun fd => ⟨fun h => ?_, fun h => ?_⟩, nofun⟩, rfl, rfl, ⟨_, _, _, rfl, fun _ => by decide⟩, rfl,
    ⟨_, _, _, rfl, fun _ => by decide⟩, trivial⟩
  · rcases List.mem_cons.mp h with rfl | h
    · decide
    · obtain rfl := List.mem_singleton.mp h
      decide
  · have hm : fd ∈ [6, 5, 3] := h.1
    simp only [List.mem_cons, List.not_mem_nil, or_false] at hm
    rcases hm with rfl | rfl | rfl
    · decide
    · decide
    · exact absurd h.2.2 (by decide)

/-- Datagrams in order, each once: whatever comes in between, breaks, exceptions and further calls
    of `Run` included, the listener of a socket is called with its datagrams in the order in
    which they arrived, none left out but empty ones, and the others are still to be read. -/
theorem datagrams_delivered (sort : StdSort) {breakPipe : Nat} (hb : breakPipe < fdSetSize) {events : List Event}
    (hf : ∀ e ∈ events, e.Fits) (hp : Throughout (World.step sort) Possible events (.start breakPipe)) :
    ∃ w, runCaught (World.step sort) events (.start breakPipe) = ok w ∧
      (∀ call ∈ w.log, .attachSocketListener call.socket call.listener ∈ events) ∧ ∀ socket, ∃ taken,
      w.arrived socket = taken ++ (w.inboxes socket).queue ∧
        (w.log.filter fun call => call.socket = socket).map (fun call => (call.data, call.size, call.remoteEndpoint)) =
          (taken.filter fun d => d.bytes ≠ []).map fun d =>
            (d.bytes.take 4098, ((d.bytes.take 4098).length : Int), remoteName d.fromAddr) := by
  obtain ⟨w, he, hi, ha⟩ := run_keeps sort hf hp (start_inv hb)
    (⟨by simp [World.start], by simp [World.start]⟩ : Attached events _)
    fun e hmem w w' hi _ hm ha => hm.attached hmem hi ha
  exact ⟨w, he, ha.calls, hi.served⟩

theorem datagrams_delivered_twoSockets : ∃ w, runCaught (World.step default) (twoSockets ++ onePass) (.start 3) = ok w ∧
    (w.inboxes 5).queue = [⟨[2], ⟨7, 8⟩⟩] ∧ callsOn w.log 5 = [([1], 1, remoteName ⟨7, 8⟩)] := by
  obtain ⟨w, he, -, hserved⟩ := datagrams_delivered default (by decide) twoSockets_fit twoSockets_possible
  obtain ⟨taken, h1, h2⟩ := hserved 5
  have hd : (fun w : World => ((w.inboxes 5).queue, w.arrived 5)) <$>
    runCaught (World.step default) (twoSockets ++ onePass) (.start 3) =
      ok ([⟨[2], ⟨7, 8⟩⟩], [⟨[1], ⟨7, 8⟩⟩, ⟨[2], ⟨7, 8⟩⟩]) := by decide +kernel
  rw [he, map_ok] at hd
  obtain ⟨hqueue, harrived⟩ := Prod.mk.inj (Out.ok.inj hd)
  rw [hqueue, harrived] at h1
  obtain rfl : [⟨[1], ⟨7, 8⟩⟩] = taken := List.append_cancel_right (show [_] ++ [_] = taken ++ [_] from h1)
  exact ⟨w, he, hqueue, h2⟩

/-- `Run` waits: in `select()` with nothing in the pipe, or in `recvfrom()` with nothing to read. -/
def World.Waits (w : World) : Prop :=
  (w.pc = .blocked ∧ w.pipe = 0) ∨
    ∃ listener socket rest, w.pc = .sockets ((listener, socket) :: rest) ∧ socket ∈ w.locals.tempfds ∧
      ¬ (w.inboxes socket).Readable

/-- When each socket is attached once, `Run` waits in `select()` only, and never with a completed
    `AsynchronousBreak` that it has not been left for. -/
theorem stop_requests_served (sort : StdSort) {breakPipe : Nat} (hb : breakPipe < fdSetSize) {events : List Event}
    (hf : ∀ e ∈ events, e.Fits) (hp : Throughout (World.step sort) Possible events (.start breakPipe)) :
    ∃ w, runCaught (World.step sort) events (.start breakPipe) = ok w ∧ (w.mux.Once → w.Waits →
      w.pc = .blocked ∧ ∀ c ∈ w.requests, c.completed = true → c.began < w.exits) := by
  obtain ⟨w, he, hi⟩ := run_inv sort hb hf hp
  refine ⟨w, he, fun honce hwaits => ?_⟩
  rcases hwaits with ⟨hpc, hpipe⟩ | ⟨listener, socket, rest, hpc, hset, hnone⟩
  · refine ⟨hpc, fun c hc hdone => ?_⟩
    by_contra hlt
    have hwakes := (Ip.inv hi.stop).wakes (by simp [World.stop, World.stopPc, hpc]) c hc hdone (Nat.not_lt.mp hlt)
    exact absurd hpipe (Nat.pos_iff_ne_zero.mp hwakes)
  · exact absurd (hi.readable honce (listener, socket)
      (by rw [World.ahead, hpc]; exact List.mem_cons_self ..) hset) hnone

/-- A stop request in front of `Run`, whose byte the second call of `Run` reads. -/
def staleStop : List Event :=
  [.attachSocketListener 5 0, .asynchronousBreak, .write 0, .run, .setUp 0, .test 0, .clear, .run, .setUp 0, .test 0,
    .select (.ready [3]), .drain, .check, .look false, .clock 0, .timer, .test 0]

theorem staleStop_possible : Throughout (World.step default) Possible staleStop (.start 3) := by
  refine ⟨⟨rfl, by decide⟩, trivial, ⟨_, rfl⟩, rfl, rfl, rfl, ⟨_, rfl⟩, rfl, rfl, rfl,
    ⟨rfl, fun fd => ⟨fun h => ?_, fun h => ?_⟩, nofun⟩, rfl, rfl, ⟨_, _, _, rfl, fun h => absurd h (by decide)⟩, rfl,
    ⟨_, rfl⟩, ?_, trivial⟩
  · obtain rfl := List.mem_singleton.mp h
    decide
  · have hm : fd ∈ [5, 3] := h.1
    simp only [List.mem_cons, List.not_mem_nil, or_false] at hm
    rcases hm with rfl | rfl
    · exact absurd h.2.2 (by decide)
    · decide
  · show World.pc _ = Pc.test
    decide +kernel

theorem stop_requests_served_staleStop : ∃ w, runCaught (World.step default) staleStop (.start 3) = ok w ∧
    w.pc = .blocked ∧ w.requests = [⟨0, true⟩] ∧ ∀ c ∈ w.requests, c.completed = true → c.began < w.exits := by
  obtain ⟨w, he, hserved⟩ := stop_requests_served default (by decide)
    (by simp [staleStop, Event.Fits, fdSetSize]) staleStop_possible
  have hd : (fun w : World => (w.pc, w.pipe, w.mux.socketListeners, w.requests)) <$>
    runCaught (World.step default) staleStop (.start 3) =
      ok (.blocked, 0, [(0, 5)], [⟨0, true⟩]) := by decide +kernel
  rw [he, map_ok] at hd
  obtain ⟨hpc, hd⟩ := Prod.mk.inj (Out.ok.inj hd)
  obtain ⟨hpipe, hd⟩ := Prod.mk.inj hd
  obtain ⟨hlisteners, hrequests⟩ := Prod.mk.inj hd
  obtain ⟨h1, h2⟩ := hserved (by rw [SocketReceiveMultiplexer.Once, hlisteners]; decide) (.inl ⟨hpc, hpipe⟩)
  exact ⟨w, he, h1, hrequests, h2⟩

/-! ## One pass -/

def Pc.inPass : Pc → Bool
  | .woken | .check | .sockets _ | .inPacket _ => true
  | _ => false

/-- How far a pass that began in `w₀` has come with a socket that has the datagram `d` in front of `queue`. -/
inductive Progress (w₀ : World) (x : Nat × Nat) (d : Datagram) (queue : List Datagram) (w : World) : Prop
  | ahead : w.pc.inPass = true → w.locals.tempfds = w₀.locals.tempfds → x ∈ w.ahead → (w.inboxes x.2).error = false →
      (∃ new, (w.inboxes x.2).queue = d :: queue ++ new) → callsOn w.log x.2 = callsOn w₀.log x.2 →
        Progress w₀ x d queue w
  | behind : w.pc.inPass = true → x.2 ∉ w.ahead.map Prod.snd → callsOn w.log x.2 = callsOn w₀.log x.2 ++ delivered [d] →
      (∃ new, (w.inboxes x.2).queue = queue ++ new) → Progress w₀ x d queue w
  | brokenOff : w.pc.inPass = true → w.mux.break_ = true → Progress w₀ x d queue w
  | past : w.pc.inPass = false → Progress w₀ x d queue w

variable {w₀ : World} {x : Nat × Nat} {d : Datagram} {queue : List Datagram}

/-- A step between two looks. -/
theorem Progress.between (h : Progress w₀ x d queue w) (hpc : w'.pc.inPass = w.pc.inPass)
    (ht : w'.locals.tempfds = w.locals.tempfds) (ha : w.pc.inPass = true → w'.ahead = w.ahead)
    (hb : w'.mux.break_ = w.mux.break_)
    (he : (w.inboxes x.2).error = false → (w'.inboxes x.2).error = false)
    (hq : ∃ new, (w'.inboxes x.2).queue = (w.inboxes x.2).queue ++ new) (hl : w'.log = w.log) :
    Progress w₀ x d queue w' := by
  obtain ⟨new, hq⟩ := hq
  cases h with
  | ahead h1 h2 h3 h4 h5 h6 =>
    obtain ⟨old, h5⟩ := h5
    exact .ahead (hpc.trans h1) (ht.trans h2) (ha h1 ▸ h3) (he h4) ⟨old ++ new, by rw [hq, h5, List.append_assoc]⟩
      (by rw [hl, h6])
  | behind h1 h2 h3 h4 =>
    obtain ⟨old, h4⟩ := h4
    exact .behind (hpc.trans h1) (ha h1 ▸ h2) (by rw [hl, h3]) ⟨old ++ new, by rw [hq, h4, List.append_assoc]⟩
  | brokenOff h1 h2 => exact .brokenOff (hpc.trans h1) (hb.trans h2)
  | past h1 => exact .past (hpc.trans h1)

/-- A look at the next socket, which has no say in the others. -/
theorem Progress.look (h : Progress w₀ x d queue w) {y : Nat × Nat} {rest : List (Nat × Nat)}
    (hpc : w.pc = .sockets (y :: rest)) (hnodup : ((y :: rest).map Prod.snd).Nodup)
    (hpc' : w'.pc = .sockets rest ∨ w'.pc = .inPacket rest)
    (ht : w'.locals.tempfds = w.locals.tempfds) (hb : w'.mux.break_ = w.mux.break_)
    (hother : x.2 ≠ y.2 → w'.inboxes x.2 = w.inboxes x.2 ∧ callsOn w'.log x.2 = callsOn w.log x.2)
    (hown : x = y → x.2 ∈ w.locals.tempfds → (w.inboxes x.2).error = false →
      (∃ new, (w.inboxes x.2).queue = d :: queue ++ new) →
      callsOn w'.log x.2 = callsOn w.log x.2 ++ delivered [d] ∧ ∃ new, (w'.inboxes x.2).queue = queue ++ new)
    (hset : x.2 ∈ w₀.locals.tempfds) : Progress w₀ x d queue w' := by
  have hahead : w.ahead = y :: rest := by rw [World.ahead, hpc]
  have hin : w.pc.inPass = true := by rw [hpc]; rfl
  obtain ⟨hin', hahead'⟩ : w'.pc.inPass = true ∧ w'.ahead = rest := by
    rw [World.ahead]
    rcases hpc' with hpc' | hpc' <;> rw [hpc'] <;> exact ⟨rfl, rfl⟩
  obtain ⟨hy, hrest⟩ := List.nodup_cons.mp hnodup
  cases h with
  | ahead _ h2 h3 h4 h5 h6 =>
    rw [hahead] at h3
    rcases List.mem_cons.mp h3 with rfl | hx
    · obtain ⟨hcalls, hq⟩ := hown rfl (h2 ▸ hset) h4 h5
      exact .behind hin' (hahead' ▸ hy) (by rw [hcalls, h6]) hq
    · obtain ⟨hi1, hl1⟩ := hother fun h => hy (List.mem_map.mpr ⟨x, hx, h⟩)
      exact .ahead hin' (ht.trans h2) (hahead' ▸ hx) (by rw [hi1, h4]) (by rw [hi1]; exact h5) (hl1.trans h6)
  | behind _ h2 h3 h4 =>
    rw [hahead, List.map_cons, List.mem_cons, not_or] at h2
    obtain ⟨hinbox, hcalls⟩ := hother h2.1
    exact .behind hin' (hahead' ▸ h2.2) (by rw [hcalls, h3]) (by rw [hinbox]; exact h4)
  | brokenOff _ h2 => exact .brokenOff hin' (hb.trans h2)
  | past h1 => rw [hin] at h1; cases h1

/-- A step of the pass, or out of it. -/
theorem Moves.progress {e : Event} (h : Moves sort w e w') (hi : Inv w) (honce : w.pc.inPass = true → w.mux.Once)
    (hselect : ∀ result, e ≠ .select result) (hfail : e ≠ .fail x.2) (hset : x.2 ∈ w₀.locals.tempfds)
    (hp : Progress w₀ x d queue w) :
    Progress w₀ x d queue w' := by
  have hnodup : ∀ {y rest}, w.pc = .sockets (y :: rest) → ((y :: rest).map Prod.snd).Nodup := fun {y rest} hpc => by
    have hsuffix := hi.ahead
    rw [World.ahead, hpc] at hsuffix
    exact (honce (by rw [hpc]; rfl)).sublist (hsuffix.sublist.map _)
  cases h with
  | listeners _ hpc => exact .past (by rw [hpc]; rfl)
  | arrived socket d' =>
    refine hp.between rfl rfl (fun _ => rfl) rfl ?_ ?_ rfl
    all_goals by_cases ho : x.2 = socket
    · simp [World.setInbox, ho]
    · simp [World.setInbox, ho]
    · exact ⟨[d'], by simp [World.setInbox, ho]⟩
    · exact ⟨[], by simp [World.setInbox, ho]⟩
  | failed socket =>
    have ho : x.2 ≠ socket := fun h => hfail (h ▸ rfl)
    exact hp.between rfl rfl (fun _ => rfl) rfl (by simp [World.setInbox, ho]) ⟨[], by simp [World.setInbox, ho]⟩ rfl
  | selected | retried | selectLeft => exact absurd rfl (hselect _)
  | run | setUp | outOfMemory | stopped | tested | checkLeft | clock | fired | timersEnded | timerReturned
  | timerBroke | threw | cleared =>
    exact .past rfl
  | drained hpc | checked hpc =>
    exact hp.between (by rw [hpc]; rfl) rfl (fun _ => by simp [World.ahead, World.goto, hpc]) rfl id
      ⟨[], (List.append_nil _).symm⟩ rfl
  | @skipped _ listener socket rest hpc hout =>
    exact hp.look hpc (hnodup hpc) (.inl rfl) rfl rfl (fun _ => ⟨rfl, rfl⟩)
      (fun hx hmem _ _ => absurd (by rwa [hx] at hmem) hout) hset
  | @lookFailed _ listener socket rest hpc _ hnone =>
    refine hp.look hpc (hnodup hpc) (.inl rfl) rfl rfl (fun ho => ⟨by simp [World.setInbox, ho], rfl⟩)
      (fun hx _ he hq => ?_) hset
    obtain ⟨new, hq⟩ := hq
    rw [hx] at he hq
    rcases hnone with hnone | hnone
    · rw [he] at hnone; cases hnone
    · rw [hq] at hnone; cases hnone
  | @lookEmpty _ listener socket rest d' queue' hpc _ hq' hb =>
    refine hp.look hpc (hnodup hpc) (.inl rfl) rfl rfl (fun ho => ⟨by simp [World.setInbox, ho], rfl⟩)
      (fun hx _ _ hq => ?_) hset
    obtain ⟨new, hq⟩ := hq
    rw [hx, hq'] at hq
    obtain ⟨rfl, rfl⟩ := List.cons.inj hq
    exact ⟨by simp [World.setInbox, delivered, hb], new, by simp [World.setInbox, hx]⟩
  | @called _ listener socket rest d' queue' hpc _ hq' hb =>
    refine hp.look hpc (hnodup hpc) (.inr rfl) rfl rfl (fun ho => ⟨by simp [World.setInbox, ho], ?_⟩)
      (fun hx _ _ hq => ?_) hset
    · simp [callsOn, Ne.symm ho]
    · obtain ⟨new, hq⟩ := hq
      rw [hx, hq'] at hq
      obtain ⟨rfl, rfl⟩ := List.cons.inj hq
      exact ⟨by simp [callsOn, delivered, hx, hb], new, by simp [World.setInbox, hx]⟩
  | @packetReturned rest hpc =>
    cases hb : w.mux.break_ with
    | true => exact .brokenOff rfl hb
    | false =>
      exact hp.between (by rw [hpc]; rfl) rfl (fun _ => by simp [World.ahead, World.goto, hpc]) rfl id
        ⟨[], (List.append_nil _).symm⟩ rfl
  | broke | asked =>
    cases hin : w.pc.inPass with
    | true => exact .brokenOff hin rfl
    | false => exact .past hin
  | wrote => exact hp.between rfl rfl (fun _ => rfl) rfl id ⟨[], (List.append_nil _).symm⟩ rfl

theorem Moves.once {e : Event} (h : Moves sort w e w') (hselect : ∀ result, e ≠ .select result)
    (honce : w.pc.inPass = true → w.mux.Once) : w'.pc.inPass = true → w'.mux.Once := by
  cases h with
  | listeners _ hpc => exact fun h => by rw [show World.pc { w with mux := _ } = _ from hpc] at h; cases h
  | selected | retried | selectLeft => exact absurd rfl (hselect _)
  | run | setUp | outOfMemory | stopped | tested | checkLeft | clock | fired | timersEnded | timerReturned
  | timerBroke | threw | cleared =>
    exact fun h => by cases h
  | drained hpc | checked hpc | skipped hpc | lookFailed hpc | lookEmpty hpc | called hpc | packetReturned hpc =>
    exact fun _ => honce (by rw [hpc]; rfl)
  | arrived | failed | broke | asked | wrote => exact honce

/-- No socket starves another one: of every socket that `select()` reports, the pass delivers the
    datagram in front, however much there is on the others, unless it is broken off. The datagram
    has then left the socket, also where it is empty and the listener is not called. -/
theorem no_starvation (sort : StdSort) {breakPipe : Nat} (hb : breakPipe < fdSetSize) {before pass : List Event}
    (hf : ∀ e ∈ before ++ pass, e.Fits) (hp : Throughout (World.step sort) Possible (before ++ pass)
      (.start breakPipe)) :
    ∃ w w', runCaught (World.step sort) before (.start breakPipe) = ok w ∧ runCaught (World.step sort) pass w = ok w' ∧
      (w.pc = .woken → w.mux.Once → (∀ result, .select result ∉ pass) → w'.pc = .sockets [] → w'.mux.break_ = false →
        ∀ x ∈ w.mux.socketListeners, x.2 ∈ w.locals.tempfds → (w.inboxes x.2).error = false → .fail x.2 ∉ pass →
        ∃ d queue new, (w.inboxes x.2).queue = d :: queue ∧ (w'.inboxes x.2).queue = queue ++ new ∧
          callsOn w'.log x.2 = callsOn w.log x.2 ++ delivered [d]) := by
  obtain ⟨w, he, hi⟩ := run_inv sort hb (fun e he => hf e (List.mem_append_left _ he)) hp.of_append
  have hpass : Throughout (World.step sort) Possible pass w := hp.append_right he
  obtain ⟨w', he', -⟩ := run_keeps sort (I := fun _ => True)
    (fun e he => hf e (List.mem_append_right _ he)) hpass hi trivial
    fun _ _ _ _ _ _ _ _ => trivial
  refine ⟨w, w', he, he', fun hpc honce hselect hpc' hbreak x hx hset herror hfail => ?_⟩
  obtain ⟨d, queue, hq⟩ : ∃ d queue, (w.inboxes x.2).queue = d :: queue := by
    have hread := hi.readable honce x (by rw [World.ahead, hpc]; exact hx) hset
    rcases hread with hread | hread
    · exact List.exists_cons_of_ne_nil hread
    · rw [herror] at hread; cases hread
  obtain ⟨w'', he'', -, hprogress, -⟩ :=
    run_keeps sort (I := fun v => Progress w x d queue v ∧ (v.pc.inPass = true → v.mux.Once))
    (fun e he => hf e (List.mem_append_right _ he)) hpass hi
    ⟨.ahead (by rw [hpc]; rfl) rfl (by rw [World.ahead, hpc]; exact hx) herror
      ⟨[], by rw [hq, List.append_nil]⟩ rfl, fun _ => honce⟩
    fun e hmem v v' hi _ hm hv => by
      have hne : ∀ result, e ≠ .select result := fun result h => hselect result (h ▸ hmem)
      exact ⟨hm.progress hi hv.2 hne (fun h => hfail (h ▸ hmem)) hset hv.1, hm.once hne hv.2⟩
  obtain rfl : w' = w'' := Out.ok.inj (he'.symm.trans he'')
  cases hprogress with
  | ahead _ _ h => rw [World.ahead, hpc'] at h; cases h
  | behind _ _ hcalls hleft =>
    obtain ⟨new, hleft⟩ := hleft
    exact ⟨d, queue, new, hq, hleft, hcalls⟩
  | brokenOff _ h => rw [hbreak] at h; cases h
  | past h => rw [hpc'] at h; cases h

theorem no_starvation_twoSockets : ∃ w w', runCaught (World.step default) twoSockets (.start 3) = ok w ∧
    runCaught (World.step default) onePass w = ok w' ∧ ∃ d queue new, (w.inboxes 5).queue = d :: queue ∧
      (w'.inboxes 5).queue = queue ++ new ∧ callsOn w'.log 5 = callsOn w.log 5 ++ delivered [d] := by
  obtain ⟨w, w', he, he', hall⟩ := no_starvation default (by decide) twoSockets_fit twoSockets_possible
  have hd : (fun w : World => (w.pc, w.mux.socketListeners, w.locals.tempfds, (w.inboxes 5).error)) <$>
      runCaught (World.step default) twoSockets (.start 3) = ok (.woken, [(0, 5), (1, 6)], [5, 6], false) := by
        decide +kernel
  have hd' : (fun w : World => (w.pc, w.mux.break_)) <$> (runCaught (World.step default) twoSockets (.start 3) >>=
      runCaught (World.step default) onePass) = ok (.sockets [], false) := by decide +kernel
  rw [he, map_ok] at hd
  rw [he, ok_bind, he', map_ok] at hd'
  obtain ⟨hpc, hd⟩ := Prod.mk.inj (Out.ok.inj hd)
  obtain ⟨hlisteners, hd⟩ := Prod.mk.inj hd
  obtain ⟨htemp, herror⟩ := Prod.mk.inj hd
  obtain ⟨hpc', hbreak⟩ := Prod.mk.inj (Out.ok.inj hd')
  exact ⟨w, w', he, he', hall hpc (by rw [SocketReceiveMultiplexer.Once, hlisteners]; decide)
    (by simp [onePass]) hpc' hbreak (0, 5)
    (by rw [hlisteners]; decide) (by rw [htemp]; decide) herror (by simp [onePass])⟩

end OscTap.Ip.Multiplexer
