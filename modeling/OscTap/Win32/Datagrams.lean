/-
  OscTap.Win32.Datagrams — what the Winsock receive loop does with the datagrams that arrive
  (see `OscTap.Win32.Multiplexer`).

  Proved, over every run in which `Run` is called with fewer than 64 sockets:
  - `run_inv`: no step goes wrong.
  - `datagrams_handed`: each socket's datagrams, in order, each once, to its listener, but for those
    that are empty or too long, and for at most one in each call of `Run`.
  - `no_lost_wakeup`: `Run` does not wait while a datagram does, or a stop request that it has not
    served.
  - `pass_serves_all`: a pass delivers of every socket that had a datagram when the wait ended, those
    in front of the event that ended it included.
-/
import OscTap.Win32.Moves

namespace OscTap.Win32.Multiplexer

open OscTap.Lib OscTap.Lib.Out OscTap.Ip.Timers
open OscTap.Tcp (IpEndpointName)
open OscTap.Ip (Request)
open OscTap.Ip.Multiplexer (Datagram Inbox Call remoteName maxBufferSize callsOn)

/-! ## Events -/

def Pc.inLoop : Pc → Bool
  | .test | .blocked | .check _ | .sockets _ | .received _ _ _ | .inPacket _ | .timers _ | .inTimer _ => true
  | _ => false

/-- The documented use: each socket at most once. -/
def SocketReceiveMultiplexer.Once (m : SocketReceiveMultiplexer) : Prop := (m.socketListeners.map Prod.snd).Nodup

def World.bound (w : World) : Nat :=
  match w.pc with
  | .selecting j => j
  | .test | .blocked | .check _ | .sockets _ | .received _ _ _ | .inPacket _ | .timers _ | .inTimer _ =>
    w.mux.socketListeners.length
  | .outside | .setUp | .freeing _ | .leaving _ => 0

/-- The first socket that the pass is still to look at. -/
def World.next (w : World) : Nat :=
  match w.pc with
  | .check (.object i) | .sockets i => i
  | .received i _ _ | .inPacket i => i + 1
  | _ => w.mux.socketListeners.length

/-- Each socket has an event of its own, and the break event stands behind them. -/
structure Opened (w : World) : Prop where
  fresh : w.mux.breakEvent < w.nextEvent ∧ ∀ e ∈ w.locals.events, e < w.nextEvent
  selecting : ∀ j, w.pc = .selecting j →
    j ≤ w.mux.socketListeners.length ∧ w.locals.events.length = j ∧ (w.locals.events ++ [w.mux.breakEvent]).Nodup
  array : w.pc.inLoop = true →
    w.locals.events.length = w.mux.socketListeners.length + 1 ∧ w.locals.events.Nodup ∧
      w.mux.breakEvent ∈ w.locals.events
  freeing : ∀ j, w.pc = .freeing j → w.mux.socketListeners.length ≤ w.locals.events.length

/-- A socket with a datagram has its event set, unless the pass is still to look at it. -/
def World.Hears (w : World) (j : Nat) : Prop :=
  ∀ listener socket e, w.mux.socketListeners[j]? = some (listener, socket) → w.locals.events[j]? = some e →
    w.signals.Heard socket e ((w.inboxes socket).queue ≠ []) ∧ (j < w.next → w.signals.Raised socket e)

/-- A stop request that has not been served has `break_` set, and the break event too by the time that `Run` waits. -/
def World.Heeds (w : World) (c : Request) : Prop :=
  c.began ≤ w.exits ∧ (c.began = w.exits → w.mux.break_ = true ∧
    (c.completed = true → w.pc = .blocked → w.signals.signalled w.mux.breakEvent = true))

variable {sort : StdSort} {w w' : World} {e : Event}

theorem Opened.frame (h : Opened w) (hs : w'.mux.socketListeners = w.mux.socketListeners)
    (hb : w'.mux.breakEvent = w.mux.breakEvent) (hev : w'.locals.events = w.locals.events)
    (hne : w'.nextEvent = w.nextEvent) (hsel : ∀ j, w'.pc ≠ .selecting j)
    (hloop : w'.pc.inLoop = true → w.pc.inLoop = true)
    (hfree : ∀ j, w'.pc = .freeing j → w.pc.inLoop = true ∨ ∃ k, w.pc = .freeing k) :
    Opened w' where
  fresh := by rw [hb, hne, hev]; exact h.fresh
  selecting := fun j hj => absurd hj (hsel j)
  array := fun hl => by rw [hs, hb, hev]; exact h.array (hloop hl)
  freeing := fun j hj => by
    rw [hs, hev]
    rcases hfree j hj with hl | ⟨k, hk⟩
    · rw [(h.array hl).1]; exact Nat.le_succ _
    · exact h.freeing k hk

theorem Moves.opened (h : Moves sort w e w') (ho : Opened w) : Opened w' := by
  cases h with
  | listeners hpc _ hb => exact ⟨by simpa [hb] using ho.fresh, by simp [hpc], by simp [hpc, Pc.inLoop], by simp [hpc]⟩
  | arrived | failed | broke | asked | set => exact ⟨ho.fresh, ho.selecting, ho.array, ho.freeing⟩
  | run | outOfMemory | cleared =>
    exact ho.frame rfl rfl rfl rfl (by simp [World.goto]) (by simp [World.goto, Pc.inLoop]) (by simp [World.goto])
  | threw | freedAll =>
    exact ho.frame rfl rfl rfl rfl (by simp [World.goto]) (by simp [World.goto, Pc.inLoop]) (by simp [World.goto])
  | allocated => exact ⟨by simpa using ho.fresh.1, by simp, by simp [Pc.inLoop], by simp⟩
  | @selected j listener socket hpc hx =>
    obtain ⟨-, hlen, hnodup⟩ := ho.selecting j hpc
    obtain ⟨hb, hev⟩ := ho.fresh
    have hj := (List.getElem?_eq_some_iff.mp hx).1
    refine ⟨⟨Nat.lt_succ_of_lt hb, fun e he => ?_⟩, fun k hk => ?_,
      by simp [World.selectEvent, Pc.inLoop], by simp [World.selectEvent]⟩
    · rcases List.mem_append.mp he with he | he
      · exact Nat.lt_succ_of_lt (hev e he)
      · rw [List.mem_singleton.mp he]
        exact Nat.lt_succ_self _
    · obtain rfl : j + 1 = k := Pc.selecting.inj hk
      refine ⟨hj, by simp [World.selectEvent, hlen], ?_⟩
      have hnew : w.nextEvent ∉ w.locals.events := fun hmem => (hev _ hmem).false
      simp only [World.selectEvent, List.nodup_append, List.nodup_cons, List.not_mem_nil, not_false_eq_true,
        List.nodup_nil, and_self, List.mem_cons, or_false, forall_eq, List.mem_append] at hnodup ⊢
      refine ⟨⟨hnodup.1, trivial, fun a ha h => hnew (h ▸ ha)⟩, trivial, fun a ha => ?_⟩
      rcases ha with ha | rfl
      · exact hnodup.2.2 a ha
      · exact hb.ne'
  | setUp hpc =>
    obtain ⟨-, hlen, hnodup⟩ := ho.selecting _ hpc
    refine ⟨⟨ho.fresh.1, fun e he => ?_⟩, by simp, fun _ => ⟨by simp [hlen], hnodup, by simp⟩, by simp⟩
    rcases List.mem_append.mp he with he | he
    · exact ho.fresh.2 e he
    · rw [List.mem_singleton.mp he]
      exact ho.fresh.1
  | stopped hpc | checkLeft hpc | lost hpc | clockLeft hpc | packetLeft hpc =>
    exact ho.frame rfl rfl rfl rfl (by simp [World.goto]) (by simp [World.goto, Pc.inLoop]) (by simp [hpc, Pc.inLoop])
  | freed hpc => exact ho.frame rfl rfl rfl rfl (by simp) (by simp [Pc.inLoop]) (by simp [hpc])
  | tested hpc | woken hpc | timedOut hpc | checked hpc | lookFailed hpc | dropped _ hpc | received hpc | handed hpc
  | clock hpc | fired hpc | timersEnded hpc | packetReturned hpc | timerReturned hpc | timerBroke hpc =>
    exact ho.frame rfl rfl rfl rfl (by simp [World.goto, World.endTimers]) (by simp [hpc, Pc.inLoop])
      (by simp [World.goto, World.endTimers])

theorem SocketReceiveMultiplexer.Once.index {m : SocketReceiveMultiplexer} (h : m.Once)
    {i j listener listener' socket : Nat} (hi : m.socketListeners[i]? = some (listener, socket))
    (hj : m.socketListeners[j]? = some (listener', socket)) : i = j := by
  have hlt := (List.getElem?_eq_some_iff.mp hi).1
  exact (List.getElem?_inj (by simpa using hlt) h).mp (by simp [hi, hj])

theorem World.Hears.frame {j : Nat} (h : w.Hears j) (hs : w'.mux.socketListeners = w.mux.socketListeners)
    (hev : w'.locals.events = w.locals.events) (hin : w'.inboxes = w.inboxes) (hsig : w'.signals = w.signals)
    (hnext : j < w.mux.socketListeners.length → j < w'.next → j < w.next) : w'.Hears j := by
  intro listener socket e hx he
  rw [hs] at hx
  rw [hev] at he
  rw [hsig, hin]
  obtain ⟨h1, h2⟩ := h listener socket e hx he
  exact ⟨h1, fun hj => h2 (hnext (List.getElem?_eq_some_iff.mp hx).1 hj)⟩

/-- A look at a socket: its event is set again if there is more, and the other sockets are left alone. -/
theorem World.Hears.looked {j i listener socket : Nat} {inbox : Inbox} (h : w.Hears j)
    (hi : w.mux.socketListeners[i]? = some (listener, socket)) (hs : w'.mux.socketListeners = w.mux.socketListeners)
    (hev : w'.locals.events = w.locals.events) (hin : w'.inboxes = (w.looked socket inbox).inboxes)
    (hsig : w'.signals = (w.looked socket inbox).signals) (hnext : w.next = i) (hnext' : w'.next = i + 1) :
      w'.Hears j := by
  intro listener' socket' e hx he
  rw [hs] at hx
  rw [hev] at he
  rw [hsig, hin, hnext']
  obtain ⟨h1, h2⟩ := h listener' socket' e hx he
  by_cases ho : socket' = socket
  · subst ho
    exact ⟨Signals.enable_heard h1.event (by simp [World.looked, World.setInbox]), fun _ =>
      Signals.enable_raised h1.event⟩
  · have hne : j ≠ i := fun hji => ho (Prod.mk.inj (Option.some.inj ((hji ▸ hx).symm.trans hi))).2
    have hsame : (w.looked socket inbox).signals.source socket' = w.signals.source socket' := Signals.enable_of_ne ho
    refine ⟨?_, fun hj => (h2 (by omega)).of_source hsame Signals.enable_signalled⟩
    simpa [World.looked, World.setInbox, ho] using h1.of_source hsame

theorem World.Hears.arrived {j : Nat} (h : w.Hears j) (socket : Nat) (d : Datagram) (arrived : Nat → List Datagram) :
    World.Hears { w.setInbox socket ⟨(w.inboxes socket).queue ++ [d], (w.inboxes socket).error⟩ with
      signals := w.signals.arrive socket
      arrived := arrived } j := by
  intro listener socket' e hx he
  obtain ⟨h1, h2⟩ := h listener socket' e hx he
  by_cases ho : socket' = socket
  · subst ho
    have h1' := h1.arrive
    exact ⟨⟨h1'.event, fun ha => absurd trivial (h1'.armed ha)⟩, fun hj => (h2 hj).arrive h1.event⟩
  · refine ⟨?_, fun hj => (h2 hj).of_source (Signals.arrive_of_ne ho) Signals.arrive_signalled⟩
    simpa [World.setInbox, ho] using h1.of_source (Signals.arrive_of_ne ho)

/-- The next socket gets an event, and the events of those in front of it stay as they are. -/
theorem World.Hears.selected {j k listener socket : Nat} (hall : ∀ j < k, w.Hears j) (honce : w.mux.Once)
    (ho : Opened w) (hpc : w.pc = .selecting k) (hk : w.mux.socketListeners[k]? = some (listener, socket))
    (hj : j < k + 1) : (w.selectEvent socket k).Hears j := by
  obtain ⟨-, hlen, -⟩ := ho.selecting k hpc
  intro listener' socket' e hx he
  simp only [World.selectEvent] at hx he
  rcases Nat.lt_succ_iff_lt_or_eq.mp hj with hj | rfl
  · rw [List.getElem?_append_left (by omega)] at he
    have hne : socket' ≠ socket := fun h => hj.ne (honce.index (h ▸ hx) hk)
    have hfresh : e ≠ w.nextEvent := (ho.fresh.2 e (List.mem_of_getElem? he)).ne
    obtain ⟨h1, h2⟩ := hall j hj listener' socket' e hx he
    refine ⟨h1.of_source (by simp [World.selectEvent, hne]), fun _ =>
      (h2 ?_).of_source (by simp [World.selectEvent, hne]) fun hsig => ?_⟩
    · simpa [World.next, hpc] using (List.getElem?_eq_some_iff.mp hx).1
    · exact Signals.select_signalled (by simpa [hfresh] using hsig)
  · obtain ⟨-, rfl⟩ := Prod.mk.inj (Option.some.inj (hx.symm.trans hk))
    obtain rfl : w.nextEvent = e := by simpa [← hlen] using he
    exact ⟨Signals.select_heard (by simp [World.selectEvent]), fun _ => Signals.select_raised⟩

/-- The wait takes back the event that ends it; the pass begins at its socket. -/
theorem World.Hears.woken {j i e : Nat} (h : w.Hears j) (ho : Opened w) (hpc : w.pc = .blocked)
    (hi : w.locals.events[i]? = some e) :
    World.Hears { w with signals := w.signals.reset e, pc := .check (.object i) } j := by
  intro listener socket e' hx he
  obtain ⟨h1, h2⟩ := h listener socket e' hx he
  refine ⟨h1.of_source rfl, fun hj => (h2 ?_).of_source rfl fun hsig => ?_⟩
  · simpa [World.next, hpc] using (List.getElem?_eq_some_iff.mp hx).1
  · have hne : e' ≠ e := by
      rintro rfl
      have hlt : j < i := hj
      have hlen := (List.getElem?_eq_some_iff.mp he).1
      exact hlt.ne ((List.getElem?_inj hlen (ho.array (by simp [hpc, Pc.inLoop])).2.1).mp (he.trans hi.symm))
    simpa [hne] using hsig

theorem Moves.hears (h : Moves sort w e w') (ho : Opened w) (honce : w'.mux.Once)
    (hh : w.mux.Once → ∀ j < w.bound, w.Hears j) :
    ∀ j < w'.bound, w'.Hears j := by
  intro j hj
  cases h with
  | listeners hpc => simp [World.bound, hpc] at hj
  | run | outOfMemory | cleared | threw | freedAll | stopped | checkLeft | lost | clockLeft | packetLeft
  | freed | allocated =>
    simp [World.bound, World.goto] at hj
  | arrived socket d => exact (hh honce j hj).arrived socket d _
  | failed socket =>
    intro listener socket' e hx he
    have h := hh honce j hj listener socket' e hx he
    by_cases hs : socket' = socket
    · simpa [World.setInbox, World.next, hs] using h
    · simpa [World.setInbox, World.next, hs] using h
  | selected hpc hx => exact .selected (by simpa [World.bound, hpc] using hh honce) honce ho hpc hx hj
  | setUp hpc =>
    have hlen := (ho.selecting _ hpc).2.1
    have hlt : j < w.mux.socketListeners.length := by simpa [World.bound] using hj
    intro listener socket e hx he
    rw [List.getElem?_append_left (by omega)] at he
    simpa [World.next, hpc] using hh honce j (by simpa [World.bound, hpc] using hlt) listener socket e hx he
  | woken hpc he => exact (hh honce j (by simpa [World.bound, hpc] using hj)).woken ho hpc he
  | lookFailed hpc hx | dropped _ hpc hx | received hpc hx =>
    exact (hh honce j (by simpa [World.bound, World.looked, World.setInbox, hpc] using hj)).looked hx rfl rfl rfl rfl
      (by simp [World.next, hpc]) rfl
  | broke | asked => exact hh honce j hj
  | set =>
    intro listener socket e hx he
    obtain ⟨h1, h2⟩ := hh honce j hj listener socket e hx he
    exact ⟨h1.of_source rfl, fun hn => (h2 hn).of_source rfl Signals.set_signalled⟩
  | checked hpc _ hi =>
    refine (hh honce j (by simpa [World.bound, World.goto, hpc] using hj)).frame rfl rfl rfl rfl fun _ => ?_
    rcases hi with rfl | ⟨rfl, rfl⟩ <;> simp [World.next, World.goto, hpc]
  | clock hpc hi =>
    exact (hh honce j (by simpa [World.bound, hpc] using hj)).frame rfl rfl rfl rfl fun hlt _ =>
      by simpa [World.next, hpc] using hlt.trans_le hi
  | tested hpc | timedOut hpc | handed hpc | fired hpc | timersEnded hpc | packetReturned hpc | timerReturned hpc
  | timerBroke hpc =>
    refine (hh honce j (by simpa [World.bound, World.goto, World.endTimers, hpc] using hj)).frame rfl rfl
      rfl rfl fun _ => ?_
    simp [World.next, World.goto, World.endTimers, hpc]

/-! ## Datagrams -/

/-- What the listener is called with for the datagrams taken. -/
def delivered (taken : List Datagram) : List (Bytes × Int × IpEndpointName) :=
  (taken.filter fun d => decide (Deliverable d)).map fun d => (d.bytes, (d.bytes.length : Int), remoteName d.fromAddr)

def World.inHand (w : World) (socket : Nat) : List Datagram :=
  match w.pc with
  | .received i _ d => if w.mux.socketListeners[i]?.map Prod.snd = some socket then [d] else []
  | _ => []

def lostOn (lost : List (Nat × Datagram)) (socket : Nat) : List Datagram :=
  (lost.filter fun x => x.1 = socket).map Prod.snd

/-- The datagrams of a socket are taken in the order of their arrival; those marked are lost, the
    others are handed on once. -/
def Served (w : World) (socket : Nat) : Prop :=
  ∃ taken : List (Datagram × Bool), w.arrived socket = taken.map Prod.fst ++ w.inHand socket ++
    (w.inboxes socket).queue ∧
    callsOn w.log socket = delivered ((taken.filter fun x => !x.2).map Prod.fst) ∧
    lostOn w.lost socket = (taken.filter fun x => x.2).map Prod.fst

def Pc.left : Pc → Bool
  | .freeing _ | .leaving _ => true
  | _ => false

/-- The datagram in hand is what the buffer and the name were filled from. -/
def World.Holds (w : World) : Prop :=
  ∀ i data d, w.pc = .received i data d →
    i < w.mux.socketListeners.length ∧ data = d.bytes ∧ w.locals.remoteEndpoint = remoteName d.fromAddr ∧ Deliverable d

theorem Served.frame {socket : Nat} (h : Served w socket) (harr : w'.arrived = w.arrived) (hin : w'.inboxes = w.inboxes)
    (hlog : w'.log = w.log) (hlost : w'.lost = w.lost) (hhand : w'.inHand socket = w.inHand socket) :
      Served w' socket := by
  rw [Served, harr, hin, hlog, hlost, hhand]
  exact h

theorem Served.more {socket : Nat} (h : Served w socket) (new : List Datagram)
    (harr : w'.arrived socket = w.arrived socket ++ new)
    (hin : (w'.inboxes socket).queue = (w.inboxes socket).queue ++ new) (hlog : w'.log = w.log)
    (hlost : w'.lost = w.lost)
    (hhand : w'.inHand socket = w.inHand socket) : Served w' socket := by
  obtain ⟨taken, h1, h2, h3⟩ := h
  exact ⟨taken, by simp [harr, hin, hhand, h1], by rw [hlog, h2], by rw [hlost, h3]⟩

/-- A look takes some datagrams off the queue, into the hand or out of sight. -/
theorem Served.looked {socket other i listener : Nat} (h : Served w other) (hpc : w.pc = .sockets i) {inbox : Inbox}
    (dropped : List Datagram) (hdropped : ∀ d ∈ dropped, ¬ Deliverable d)
    (hq : other = socket → (w.inboxes socket).queue = dropped ++ w'.inHand socket ++ inbox.queue)
    (hx : w.mux.socketListeners[i]? = some (listener, socket)) (hne : other ≠ socket → w'.inHand other = [])
    (harr : w'.arrived = w.arrived) (hin : w'.inboxes = (w.looked socket inbox).inboxes) (hlog : w'.log = w.log)
    (hlost : w'.lost = w.lost) :
    Served w' other := by
  obtain ⟨taken, h1, h2, h3⟩ := h
  have hnone : w.inHand other = [] := by simp [World.inHand, hpc]
  rw [hnone, List.append_nil] at h1
  by_cases ho : other = socket
  · subst ho
    have hempty : dropped.filter (fun d => decide (Deliverable d)) = [] :=
      List.filter_eq_nil_iff.mpr fun d hd => by simpa using hdropped d hd
    refine ⟨taken ++ dropped.map fun d => (d, false), ?_, ?_, ?_⟩
    · rw [harr, h1, hq rfl, hin]
      simp [World.looked, World.setInbox, Function.comp_def]
    · rw [hlog, h2]
      simp [delivered, List.filter_map, Function.comp_def, hempty]
    · rw [hlost, h3]
      simp [List.filter_map, Function.comp_def]
  · refine ⟨taken, ?_, by rw [hlog, h2], by rw [hlost, h3]⟩
    rw [harr, h1, hin, hne ho]
    simp [World.looked, World.setInbox, ho]

/-- A datagram leaves the hand. -/
theorem Served.let_go {socket other i listener : Nat} {data : Bytes} {d : Datagram} (h : Served w other)
    (hpc : w.pc = .received i data d) (hx : w.mux.socketListeners[i]? = some (listener, socket)) (lost : Bool)
    (harr : w'.arrived = w.arrived)
    (hin : w'.inboxes = w.inboxes) (hhand : w'.inHand other = [])
    (hlog : callsOn w'.log other = callsOn w.log other ++ if other = socket ∧ lost = false then delivered [d] else [])
    (hlost : lostOn w'.lost other = lostOn w.lost other ++ if other = socket ∧ lost = true then [d] else []) :
      Served w' other := by
  obtain ⟨taken, h1, h2, h3⟩ := h
  by_cases ho : other = socket
  · subst ho
    have hone : w.inHand other = [d] := by simp [World.inHand, hpc, hx]
    refine ⟨taken ++ [(d, lost)], ?_, ?_, ?_⟩
    · rw [harr, h1, hin, hhand, hone]
      simp
    · rw [hlog, h2]
      cases lost <;> simp [delivered]
    · rw [hlost, h3]
      cases lost <;> simp
  · have hnone : w.inHand other = [] := by simp [World.inHand, hpc, hx, Ne.symm ho]
    exact ⟨taken, by rw [harr, h1, hin, hhand, hnone], by simp [hlog, h2, ho], by simp [hlost, h3, ho]⟩

theorem Moves.served (h : Moves sort w e w') (hh : w.Holds) {socket : Nat} (hs : Served w socket) :
    Served w' socket := by
  cases h with
  | listeners hpc => exact hs.frame rfl rfl rfl rfl (by simp [World.inHand, hpc])
  | arrived other d =>
    by_cases ho : socket = other
    · exact hs.more [d] (by simp [ho]) (by simp [World.setInbox, ho]) rfl rfl rfl
    · exact hs.more [] (by simp [ho]) (by simp [World.setInbox, ho]) rfl rfl rfl
  | failed other =>
    refine hs.more [] (by simp [World.setInbox]) ?_ rfl rfl rfl
    by_cases ho : socket = other <;> simp [World.setInbox, ho]
  | broke | asked | set => exact hs.frame rfl rfl rfl rfl rfl
  | lookFailed hpc hx =>
    exact hs.looked hpc [] (by simp) (fun _ => by simp [World.inHand]) hx
      (fun _ => by simp [World.inHand]) rfl rfl rfl rfl
  | @dropped _ _ _ _ d _ _ hpc hx hq hd =>
    exact hs.looked hpc [d] (by simpa using hd) (fun _ => by simp [World.inHand, hq]) hx
      (fun _ => by simp [World.inHand]) rfl rfl rfl rfl
  | received hpc hx hq =>
    refine hs.looked hpc [] (by simp) (fun _ => ?_) hx (fun ho => ?_) rfl rfl rfl rfl
    · simp [World.inHand, World.looked, World.setInbox, hx, hq]
    · simp [World.inHand, World.looked, World.setInbox, hx, Ne.symm ho]
  | @handed i listener other data d hpc hx =>
    obtain ⟨-, rfl, hr, hd⟩ := hh i data d hpc
    refine hs.let_go hpc hx false rfl rfl (by simp [World.inHand]) ?_ (by simp)
    by_cases ho : socket = other
    · subst ho
      simp [callsOn, delivered, hd, hr]
    · simp [callsOn, ho, Ne.symm ho]
  | @lost i listener other data d hpc hx =>
    refine hs.let_go hpc hx true rfl rfl (by simp [World.inHand]) (by simp) ?_
    by_cases ho : socket = other
    · subst ho
      simp [lostOn]
    · simp [lostOn, ho, Ne.symm ho]
  | threw hp =>
    exact hs.frame rfl rfl rfl rfl (by cases hpc : w.pc <;> simp_all [World.inHand, World.goto, Pc.inCallback])
  | outOfMemory hp => exact hs.frame rfl rfl rfl rfl (by rcases hp with hp | hp <;> simp [World.inHand, World.goto, hp])
  | run hpc | allocated hpc | selected hpc | setUp hpc | stopped hpc | tested hpc | woken hpc | timedOut hpc
  | checked hpc | checkLeft hpc | clock hpc | clockLeft hpc | fired hpc | timersEnded hpc | packetReturned hpc
  | packetLeft hpc | timerReturned hpc | timerBroke hpc
  | freed hpc | freedAll hpc | cleared hpc =>
    exact hs.frame rfl rfl rfl rfl (by simp [World.inHand, World.goto, World.selectEvent, World.endTimers, hpc])

theorem Moves.holds (h : Moves sort w e w') (hh : w.Holds) : w'.Holds := by
  cases h with
  | listeners hpc => simp [World.Holds, hpc]
  | arrived | failed | broke | asked | set => exact hh
  | received hpc hx _ hd =>
    intro i data d' he
    obtain ⟨rfl, rfl, rfl⟩ := Pc.received.inj he
    exact ⟨(List.getElem?_eq_some_iff.mp hx).1, rfl, rfl, hd⟩
  | _ => simp [World.Holds, World.goto, World.selectEvent, World.endTimers]

/-- How many datagrams can still be lost in this call of `Run`. -/
def World.mayLose (w : World) : Nat := if w.pc.left then 0 else 1

/-- A datagram is lost on the way out only; the next one can be lost when `Run` has returned. -/
theorem Moves.losses (h : Moves sort w e w') :
    w'.lost.length + w'.mayLose + w.exits ≤ w.lost.length + w.mayLose + w'.exits := by
  cases h with
  | listeners | arrived | failed | broke | asked | set => exact Nat.le_refl _
  | @lost i listener socket data d hpc => simp [World.mayLose, hpc, Pc.left]
  | cleared hpc =>
    simp only [World.mayLose, hpc, Pc.left, if_true, Bool.false_eq_true, if_false]
    omega
  | threw hp | outOfMemory hp => simp [World.mayLose, World.goto, Pc.left]
  | run hpc | allocated hpc | selected hpc | setUp hpc | stopped hpc | tested hpc | woken hpc | timedOut hpc
  | checked hpc | checkLeft hpc | lookFailed hpc | dropped _ hpc | received hpc | handed hpc | clock hpc
  | clockLeft hpc | fired hpc | timersEnded hpc | packetReturned hpc
  | packetLeft hpc | timerReturned hpc | timerBroke hpc | freed hpc | freedAll hpc =>
    simp [World.mayLose, World.goto, World.selectEvent, World.endTimers, World.looked, World.setInbox, Pc.left, hpc]

theorem Moves.exits_eq (h : Moves sort w e w') (he : e ≠ .clear) : w'.exits = w.exits := by
  cases h with
  | cleared => exact absurd rfl he
  | _ => rfl

/-! ## Stop requests -/

theorem World.Heeds.frame {c : Request} (h : w.Heeds c) (hexits : w'.exits = w.exits)
    (hb : w.mux.break_ = true → w'.mux.break_ = true)
    (hsig : w'.pc = .blocked → w.pc = .blocked ∧ w'.mux.breakEvent = w.mux.breakEvent ∧
      (w.signals.signalled w.mux.breakEvent = true → w'.signals.signalled w.mux.breakEvent = true)) : w'.Heeds c := by
  refine ⟨hexits ▸ h.1, fun hc => ?_⟩
  obtain ⟨h1, h2⟩ := h.2 (hexits ▸ hc)
  refine ⟨hb h1, fun hdone hpc => ?_⟩
  obtain ⟨hpc, hevent, hsig⟩ := hsig hpc
  rw [hevent]
  exact hsig (h2 hdone hpc)

theorem Moves.heeds (h : Moves sort w e w') (hh : ∀ c ∈ w.requests, w.Heeds c) : ∀ c ∈ w'.requests, w'.Heeds c := by
  cases h with
  | listeners hpc hb => exact fun c hc => (hh c hc).frame rfl (hb ▸ id) (by simp [hpc])
  | arrived => exact fun c hc => (hh c hc).frame rfl id fun hpc => ⟨hpc, rfl, Signals.arrive_signalled⟩
  | failed => exact fun c hc => (hh c hc).frame rfl id fun hpc => ⟨hpc, rfl, id⟩
  | broke => exact fun c hc => (hh c hc).frame rfl (fun _ => rfl) fun hpc => ⟨hpc, rfl, id⟩
  | asked =>
    intro c hc
    rcases List.mem_append.mp hc with hc | hc
    · exact (hh c hc).frame rfl (fun _ => rfl) fun hpc => ⟨hpc, rfl, id⟩
    · obtain rfl := List.mem_singleton.mp hc
      exact ⟨Nat.le_refl _, fun _ => ⟨rfl, by simp⟩⟩
  | @set i began hr =>
    intro c hc
    rcases List.mem_or_eq_of_mem_set hc with hc | rfl
    · exact (hh c hc).frame rfl id fun hpc => ⟨hpc, rfl, Signals.set_signalled⟩
    · obtain ⟨h1, h2⟩ := hh _ (List.mem_of_getElem? hr)
      exact ⟨h1, fun hc => ⟨(h2 hc).1, fun _ _ => Signals.set_self⟩⟩
  | tested _ hb =>
    intro c hc
    obtain ⟨h1, h2⟩ := hh c hc
    exact ⟨h1, fun hc => absurd (h2 hc).1 (by simp [hb])⟩
  | cleared =>
    intro c hc
    have h1 := (hh c hc).1
    exact ⟨Nat.le_succ_of_le h1, fun hc => absurd hc (Nat.lt_succ_of_le h1).ne⟩
  | _ => exact fun c hc => (hh c hc).frame rfl id (by simp [World.goto, World.selectEvent, World.endTimers])

/-! ## Runs -/

structure Inv (w : World) : Prop where
  small : w.pc ≠ .outside → w.mux.socketListeners.length < maximumWaitObjects
  waited : w.pc ≠ .check .failed
  opened : Opened w
  hears : w.mux.Once → ∀ j < w.bound, w.Hears j
  holds : w.Holds
  served : ∀ socket, Served w socket
  lost : w.lost.length + w.mayLose ≤ w.exits + 1
  heeds : ∀ c ∈ w.requests, w.Heeds c

/-- `Run` is called with so few sockets that their events and the break event can be waited for;
    the code does not check it. -/
def Allowed (e : Event) (w : World) : Prop :=
  Possible e w ∧ (e = .run → w.mux.socketListeners.length < maximumWaitObjects)

theorem start_inv : Inv .start where
  small := fun h => absurd rfl h
  waited := by simp [World.start]
  opened := ⟨by simp [World.start], by simp [World.start], by simp [World.start, Pc.inLoop], by simp [World.start]⟩
  hears := fun _ j hj => absurd hj (Nat.not_lt_zero j)
  holds := by simp [World.Holds, World.start]
  served := fun _ => ⟨[], rfl, rfl, rfl⟩
  lost := Nat.le_refl _
  heeds := by simp [World.start]

theorem Moves.small (h : Moves sort w e w') (ha : e = .run → w.mux.socketListeners.length < maximumWaitObjects)
    (hs : w.pc ≠ .outside → w.mux.socketListeners.length < maximumWaitObjects) :
    w'.pc ≠ .outside → w'.mux.socketListeners.length < maximumWaitObjects := by
  cases h with
  | listeners hpc => exact fun h => absurd hpc h
  | cleared => exact fun h => absurd rfl h
  | run => exact fun _ => ha rfl
  | arrived | failed | broke | asked | set => exact hs
  | threw hp => exact fun _ => hs fun h => by simp [h, Pc.inCallback] at hp
  | outOfMemory hp => exact fun _ => hs fun h => by simp [h] at hp
  | allocated hpc | selected hpc | setUp hpc | stopped hpc | tested hpc | woken hpc | timedOut hpc
  | checked hpc | checkLeft hpc | lookFailed hpc | dropped _ hpc | received hpc | handed hpc | lost hpc | clock hpc
  | clockLeft hpc | fired hpc | timersEnded hpc
  | packetReturned hpc | packetLeft hpc | timerReturned hpc | timerBroke hpc | freed hpc | freedAll hpc =>
    exact fun _ => hs (by simp [hpc])

theorem Moves.waited (h : Moves sort w e w') (hw : w.pc ≠ .check .failed) : w'.pc ≠ .check .failed := by
  cases h with
  | listeners | arrived | failed | broke | asked | set => exact hw
  | _ => simp [World.goto, World.selectEvent, World.endTimers]

/-- One step, of any party. -/
theorem step_inv (sort : StdSort) (ha : Allowed e w) (hi : Inv w) :
    ∃ w', attempt (World.step sort e w) = ok w' ∧ Moves sort w e w' ∧ Inv w' := by
  have hsmall : w.pc = .blocked → w.locals.events.length ≤ maximumWaitObjects := fun hpc => by
    rw [(hi.opened.array (by simp [hpc, Pc.inLoop])).1]
    exact hi.small (by simp [hpc])
  obtain ⟨w', he, hm⟩ := step_moves sort ha.1 hsmall hi.waited
    (fun i data d hpc => (hi.holds i data d hpc).1) hi.opened.freeing
  refine ⟨w', he, hm, hm.small ha.2 hi.small, hm.waited hi.waited, hm.opened hi.opened, fun honce => ?_,
    hm.holds hi.holds, fun socket => hm.served hi.holds (hi.served socket), ?_, hm.heeds hi.heeds⟩
  · exact hm.hears hi.opened honce hi.hears
  · have hlost := hi.lost
    have hloss := hm.losses
    omega

/-- What every step keeps, a run keeps. -/
theorem run_keeps (sort : StdSort) {I : World → Prop} {events : List Event}
    (hp : Throughout (World.step sort) Allowed events w) (hi : Inv w) (hI : I w)
    (h : ∀ e ∈ events, ∀ w w', Inv w → Possible e w → Moves sort w e w' → I w → I w') :
    ∃ w', runCaught (World.step sort) events w = ok w' ∧ Inv w' ∧ I w' := by
  refine hp.caught (I := fun w => Inv w ∧ I w) (fun e he w hpe hw => ?_) ⟨hi, hI⟩
  obtain ⟨w', hstep, hm, hi'⟩ := step_inv sort hpe hw.1
  exact ⟨w', hstep, hi', h e he w w' hw.1 hpe.1 hm hw.2⟩

theorem run_inv (sort : StdSort) {events : List Event} (hp : Throughout (World.step sort) Allowed events .start) :
    ∃ w, runCaught (World.step sort) events .start = ok w ∧ Inv w := by
  obtain ⟨w, he, hi, -⟩ := run_keeps sort (I := fun _ => True) hp start_inv trivial fun _ _ _ _ _ _ _ _ => trivial
  exact ⟨w, he, hi⟩

structure Attached (events : List Event) (w : World) : Prop where
  listeners : ∀ x ∈ w.mux.socketListeners, .attachSocketListener x.2 x.1 ∈ events
  calls : ∀ call ∈ w.log, .attachSocketListener call.socket call.listener ∈ events

theorem Moves.attached {events : List Event} (h : Moves sort w e w') (he : e ∈ events) (ha : Attached events w) :
    Attached events w' := by
  cases h with
  | listeners _ _ _ hl =>
    refine ⟨fun x hx => ?_, ha.calls⟩
    rcases hl x hx with hx | rfl
    · exact ha.listeners x hx
    · exact he
  | handed _ hx =>
    refine ⟨ha.listeners, fun call hcall => ?_⟩
    rcases List.mem_append.mp hcall with hcall | hcall
    · exact ha.calls call hcall
    · rw [List.mem_singleton.mp hcall]
      exact ha.listeners _ (List.mem_of_getElem? hx)
  | _ => exact ⟨ha.listeners, ha.calls⟩

/-- Two sockets; a stop request comes in while the second one's datagram is in hand. -/
def stopInPass : List Event :=
  [.attachSocketListener 5 0, .attachSocketListener 6 1, .arrive 5 ⟨[1], ⟨7, 8⟩⟩, .arrive 6 ⟨[2], ⟨7, 9⟩⟩, .run,
    .allocate, .selectEvent, .selectEvent, .setUp 0, .test 0, .wait (.object 0), .check, .look true, .hand, .returned,
    .look true, .asynchronousBreak, .hand, .free,
    .free, .free, .clear]

theorem first_zero {σ : Signals} {e : Nat} {events : List Nat} (h : σ.signalled e = true) : σ.First (e :: events) 0 :=
  ⟨e, rfl, h, fun _ hk => absurd hk (Nat.not_lt_zero _)⟩

theorem stopInPass_allowed : Throughout (World.step default) Allowed stopInPass .start := by
  refine ⟨⟨rfl, by simp⟩, ⟨rfl, by simp⟩, ⟨trivial, by simp⟩, ⟨trivial, by simp⟩,
    ⟨rfl, fun _ => by decide⟩, ⟨rfl, by simp⟩, ⟨⟨0, rfl, by decide⟩, by simp⟩, ⟨⟨1, rfl, by decide⟩, by simp⟩,
    ⟨rfl, by simp⟩, ⟨rfl, by simp⟩,
    ⟨⟨rfl, by decide, first_zero (by decide)⟩, by simp⟩, ⟨⟨_, rfl⟩, by simp⟩, ⟨⟨0, 0, 5, rfl, rfl, by decide⟩, by simp⟩,
    ⟨⟨_, _, _, rfl⟩, by simp⟩, ⟨rfl, by simp⟩, ⟨⟨1, 1, 6, rfl, rfl, by decide⟩, by simp⟩, ⟨trivial, by simp⟩,
    ⟨⟨_, _, _, rfl⟩, by simp⟩, ⟨⟨_, rfl⟩, by simp⟩, ⟨⟨_, rfl⟩, by simp⟩, ⟨⟨_, rfl⟩, by simp⟩,
    ⟨⟨_, rfl⟩, by simp⟩, trivial⟩

/-- While `Run` does not return, at most one datagram is lost. -/
theorem lost_in_call (sort : StdSort) {before call : List Event}
    (hp : Throughout (World.step sort) Allowed (before ++ call) .start) (hclear : .clear ∉ call) {w₁ w₂ : World}
    (h1 : runCaught (World.step sort) before .start = ok w₁)
    (h2 : runCaught (World.step sort) call w₁ = ok w₂) : w₂.lost.length ≤ w₁.lost.length + 1 := by
  obtain ⟨w, hw, hi⟩ := run_inv sort hp.of_append
  obtain rfl := Out.ok.inj (hw.symm.trans h1)
  obtain ⟨w', hw', -, hlosses, hexits⟩ := run_keeps sort (I := fun w' =>
    w'.lost.length + w'.mayLose + w.exits ≤ w.lost.length + w.mayLose + w'.exits ∧ w'.exits = w.exits)
      (hp.append_right h1) hi
    ⟨Nat.le_refl _, rfl⟩ fun e he w' w'' _ _ hm ⟨hlosses, hexits⟩ => by
      have hstep := hm.losses
      have hsame := hm.exits_eq fun h => hclear (h ▸ he)
      exact ⟨by omega, by omega⟩
  obtain rfl := Out.ok.inj (hw'.symm.trans h2)
  have hone : w.mayLose ≤ 1 := by
    rw [World.mayLose]
    split <;> omega
  omega

/-- Datagrams in order, each at most once: whatever comes in between, breaks, exceptions and further
    calls of `Run` included, the listener of a socket is called with its datagrams in the order in
    which they arrived. Left out are empty datagrams, those that are longer than the buffer, and those
    that were taken when `break_` was set; of these there is one at most in the steps between two
    returns of `Run`. -/
theorem datagrams_handed (sort : StdSort) {events : List Event}
    (hp : Throughout (World.step sort) Allowed events .start) :
    (∃ w, runCaught (World.step sort) events .start = ok w ∧
      (∀ call ∈ w.log, .attachSocketListener call.socket call.listener ∈ events) ∧ w.lost.length ≤ w.exits + 1 ∧
      ∀ socket, ∃ taken : List (Datagram × Bool), w.arrived socket = taken.map Prod.fst ++ w.inHand socket ++
        (w.inboxes socket).queue ∧
        callsOn w.log socket = delivered ((taken.filter fun x => !x.2).map Prod.fst) ∧
        lostOn w.lost socket = (taken.filter fun x => x.2).map Prod.fst) ∧
    ∀ before call rest w₁ w₂, events = before ++ call ++ rest → .clear ∉ call →
      runCaught (World.step sort) before .start = ok w₁ → runCaught (World.step sort) call w₁ = ok w₂ →
      w₂.lost.length ≤ w₁.lost.length + 1 := by
  obtain ⟨w, he, hi, ha⟩ := run_keeps sort hp start_inv
    (⟨by simp [World.start], by simp [World.start]⟩ : Attached events _)
    fun e hmem w w' _ _ hm ha => hm.attached hmem ha
  refine ⟨⟨w, he, ha.calls, le_trans (Nat.le_add_right _ _) hi.lost, hi.served⟩,
    fun before call rest w₁ w₂ hsplit hclear h1 h2 => ?_⟩
  subst hsplit
  exact lost_in_call sort hp.of_append hclear h1 h2

theorem datagrams_handed_stopInPass : ∃ w, runCaught (World.step default) stopInPass .start = ok w ∧ w.exits = 1 ∧
    lostOn w.lost 6 = [⟨[2], ⟨7, 9⟩⟩] ∧ callsOn w.log 6 = [] := by
  obtain ⟨⟨w, he, -, -, hserved⟩, -⟩ := datagrams_handed default stopInPass_allowed
  have hd : (fun w : World => (w.exits, w.arrived 6, w.lost)) <$> runCaught (World.step default) stopInPass .start =
      ok (1, [⟨[2], ⟨7, 9⟩⟩], [(6, ⟨[2], ⟨7, 9⟩⟩)]) := by decide +kernel
  rw [he, map_ok] at hd
  obtain ⟨hexits, hd⟩ := Prod.mk.inj (Out.ok.inj hd)
  obtain ⟨harrived, hlost⟩ := Prod.mk.inj hd
  have hlost6 : lostOn w.lost 6 = [⟨[2], ⟨7, 9⟩⟩] := by simp [hlost, lostOn]
  obtain ⟨taken, h1, h2, h3⟩ := hserved 6
  rw [harrived, List.append_assoc] at h1
  rw [hlost6] at h3
  refine ⟨w, he, hexits, hlost6, ?_⟩
  rcases taken with _ | ⟨⟨d, lost⟩, rest⟩
  · simp at h3
  · obtain ⟨-, hrest⟩ := List.cons.inj h1
    obtain rfl : rest = [] := List.map_eq_nil_iff.mp (List.append_eq_nil_iff.mp hrest.symm).1
    cases lost with
    | false => simp at h3
    | true => simpa [delivered] using h2

/-! ## Waiting -/

/-- `Run` waits: in `WaitForMultipleObjects`, with no event set. -/
def World.Waits (w : World) : Prop := w.pc = .blocked ∧ w.signals.Quiet w.locals.events

/-- In front of the wait, a socket with a datagram has its event set. -/
theorem Inv.ready (hi : Inv w) (hpc : w.pc = .blocked) (honce : w.mux.Once) {j listener socket : Nat}
    (hx : w.mux.socketListeners[j]? = some (listener, socket)) (hq : (w.inboxes socket).queue ≠ []) :
    ∃ e, w.locals.events[j]? = some e ∧ w.signals.signalled e = true := by
  have hj := (List.getElem?_eq_some_iff.mp hx).1
  have hlen := (hi.opened.array (by simp [hpc, Pc.inLoop])).1
  have hlt : j < w.locals.events.length := by omega
  have he : w.locals.events[j]? = some w.locals.events[j] := List.getElem?_eq_getElem hlt
  obtain ⟨h1, h2⟩ := hi.hears honce j (by simpa [World.bound, hpc] using hj) listener socket _ hx he
  exact ⟨_, he, h1.ready_signalled (h2 (by simpa [World.next, hpc] using hj)) hq⟩

/-- No wake-up is lost: in every run, `Run` does not wait while a datagram does in a socket of its
    own, or while there is a completed `AsynchronousBreak` that it has not been left for. -/
theorem no_lost_wakeup (sort : StdSort) {events : List Event}
    (hp : Throughout (World.step sort) Allowed events .start) :
    ∃ w, runCaught (World.step sort) events .start = ok w ∧ (w.Waits →
      (w.mux.Once → ∀ x ∈ w.mux.socketListeners, (w.inboxes x.2).queue = []) ∧
        ∀ c ∈ w.requests, c.completed = true → c.began < w.exits) := by
  obtain ⟨w, he, hi⟩ := run_inv sort hp
  refine ⟨w, he, fun ⟨hpc, hquiet⟩ => ⟨fun honce x hx => ?_, fun c hc hdone => ?_⟩⟩
  · by_contra hq
    obtain ⟨j, hj⟩ := List.mem_iff_getElem?.mp hx
    obtain ⟨e, he, hset⟩ := hi.ready hpc honce hj hq
    simp [hquiet e (List.mem_of_getElem? he)] at hset
  · obtain ⟨h1, h2⟩ := hi.heeds c hc
    refine Nat.lt_of_le_of_ne h1 fun h => ?_
    have hset := (h2 h).2 hdone hpc
    simp [hquiet _ (hi.opened.array (by simp [hpc, Pc.inLoop])).2.2] at hset

/-- The listener throws, so the socket stays selected; `Run` is called again, and waits. -/
def secondRun : List Event :=
  [.attachSocketListener 5 0, .run, .allocate, .selectEvent, .setUp 0, .test 0, .arrive 5 ⟨[1], ⟨7, 8⟩⟩,
    .wait (.object 0), .check, .look true, .hand, .asynchronousBreak, .threw, .clear, .run, .allocate, .selectEvent,
    .setUp 0, .test 0]

theorem secondRun_allowed : Throughout (World.step default) Allowed secondRun .start := by
  refine ⟨⟨rfl, by simp⟩, ⟨rfl, fun _ => by decide⟩, ⟨rfl, by simp⟩, ⟨⟨0, rfl, by decide⟩, by simp⟩,
    ⟨rfl, by simp⟩, ⟨rfl, by simp⟩, ⟨trivial, by simp⟩, ⟨⟨rfl, by decide, first_zero (by decide)⟩, by simp⟩,
    ⟨⟨_, rfl⟩, by simp⟩, ⟨⟨0, 0, 5, rfl, rfl, by decide⟩, by simp⟩,
    ⟨⟨_, _, _, rfl⟩, by simp⟩, ⟨trivial, by simp⟩, ⟨rfl, by simp⟩, ⟨⟨_, rfl⟩, by simp⟩,
    ⟨rfl, fun _ => by decide⟩, ⟨rfl, by simp⟩, ⟨⟨0, rfl, by decide⟩, by simp⟩, ⟨rfl, by simp⟩, ⟨rfl, by simp⟩, trivial⟩

theorem no_lost_wakeup_secondRun : ∃ w, runCaught (World.step default) secondRun .start = ok w ∧ w.pc = .blocked ∧
    (w.inboxes 5).queue = [] := by
  obtain ⟨w, he, hwaits⟩ := no_lost_wakeup default secondRun_allowed
  have hd : (fun w : World => (w.pc, w.mux.socketListeners, w.locals.events)) <$>
    runCaught (World.step default) secondRun .start =
      ok (.blocked, [(0, 5)], [2, 0]) := by decide +kernel
  have hd' : (fun w : World => (w.signals.signalled 2, w.signals.signalled 0)) <$>
    runCaught (World.step default) secondRun .start =
      ok (false, false) := by decide +kernel
  rw [he, map_ok] at hd hd'
  obtain ⟨hpc, hd⟩ := Prod.mk.inj (Out.ok.inj hd)
  obtain ⟨hlisteners, hevents⟩ := Prod.mk.inj hd
  obtain ⟨h2, h0⟩ := Prod.mk.inj (Out.ok.inj hd')
  obtain ⟨hqueues, -⟩ := hwaits ⟨hpc, by simp [Signals.Quiet, hevents, h2, h0]⟩
  exact ⟨w, he, hpc, hqueues (by simp [SocketReceiveMultiplexer.Once, hlisteners]) (0, 5) (by simp [hlisteners])⟩

/-! ## One pass -/

def Pc.inPass : Pc → Bool
  | .check _ | .sockets _ | .received _ _ _ | .inPacket _ => true
  | _ => false

/-- How far a pass has come with a socket that had the datagram `d` in front of `queue`; `calls` are
    those before it. -/
inductive Progress (calls : List (Bytes × Int × IpEndpointName)) (j socket : Nat) (d : Datagram) (queue : List Datagram)
    (w : World) : Prop
  | ahead : w.next ≤ j → (w.inboxes socket).error = false → (∃ new, (w.inboxes socket).queue = d :: queue ++ new) →
      callsOn w.log socket = calls → Progress calls j socket d queue w
  | inHand {data : Bytes} : w.pc = .received j data d → (∃ new, (w.inboxes socket).queue = queue ++ new) →
      callsOn w.log socket = calls → Progress calls j socket d queue w
  | behind : j < w.next → (∀ data d, w.pc ≠ .received j data d) → (∃ new, (w.inboxes socket).queue = queue ++ new) →
      callsOn w.log socket = calls ++ delivered [d] → Progress calls j socket d queue w

variable {calls : List (Bytes × Int × IpEndpointName)} {j socket : Nat} {d : Datagram} {queue : List Datagram}

/-- A step that is not about the socket. -/
theorem Progress.between (h : Progress calls j socket d queue w) (hnext : w'.next = w.next)
    (hpc : ∀ data d, w'.pc = .received j data d ↔ w.pc = .received j data d)
    (he : (w'.inboxes socket).error = (w.inboxes socket).error) (new : List Datagram)
    (hq : (w'.inboxes socket).queue = (w.inboxes socket).queue ++ new)
    (hlog : callsOn w'.log socket = callsOn w.log socket) :
    Progress calls j socket d queue w' := by
  have hmore : ∀ {front : List Datagram}, (∃ new, (w.inboxes socket).queue = front ++ new) →
      ∃ new, (w'.inboxes socket).queue = front ++ new := by
    rintro front ⟨old, hold⟩
    exact ⟨old ++ new, by rw [hq, hold, List.append_assoc]⟩
  cases h with
  | ahead h1 h2 h3 h4 => exact .ahead (hnext ▸ h1) (he ▸ h2) (hmore h3) (hlog ▸ h4)
  | inHand h1 h2 h3 => exact .inHand ((hpc _ _).mpr h1) (hmore h2) (hlog ▸ h3)
  | behind h1 h2 h3 h4 =>
    exact .behind (hnext ▸ h1) (fun data d h => h2 data d ((hpc data d).mp h)) (hmore h3) (hlog ▸ h4)

/-- A look at another socket. -/
theorem Progress.past (h : Progress calls j socket d queue w) {i : Nat} (hpc : w.pc = .sockets i) (hi : i ≠ j)
    (hnext : w'.next = i + 1) (hpc' : ∀ data d, w'.pc ≠ .received j data d)
    (hin : w'.inboxes socket = w.inboxes socket) (hlog : w'.log = w.log) :
    Progress calls j socket d queue w' := by
  have hi' : w.next = i := by simp [World.next, hpc]
  cases h with
  | ahead h1 h2 h3 h4 => exact .ahead (by omega) (hin ▸ h2) (hin ▸ h3) (hlog ▸ h4)
  | inHand h1 => simp [hpc] at h1
  | behind h1 _ h3 h4 => exact .behind (by omega) hpc' (hin ▸ h3) (hlog ▸ h4)

/-- A look at the socket itself finds the datagram there. -/
theorem Progress.own (h : Progress calls j socket d queue w) (hpc : w.pc = .sockets j) :
    (w.inboxes socket).error = false ∧ (∃ new, (w.inboxes socket).queue = d :: queue ++ new) ∧
      callsOn w.log socket = calls := by
  cases h with
  | ahead _ h2 h3 h4 => exact ⟨h2, h3, h4⟩
  | inHand h1 => simp [hpc] at h1
  | behind h1 => simp [World.next, hpc] at h1

/-- What holds of a pass until it is over. -/
def InPass (calls : List (Bytes × Int × IpEndpointName)) (j listener socket : Nat) (d : Datagram)
    (queue : List Datagram) (w : World) : Prop :=
  w.pc.inPass = true → w.mux.Once ∧ w.mux.socketListeners[j]? = some (listener, socket) ∧
    Progress calls j socket d queue w

theorem Moves.progress {listener : Nat} (h : Moves sort w e w') (hi : Inv w) (hwait : ∀ result, e ≠ .wait result)
    (hfail : e ≠ .fail socket) (hp : InPass calls j listener socket d queue w) :
    InPass calls j listener socket d queue w' := by
  intro hin
  cases h with
  | listeners hpc => simp [hpc, Pc.inPass] at hin
  | woken | timedOut => exact absurd rfl (hwait _)
  | run | outOfMemory | allocated | selected | setUp | stopped | tested | checkLeft | lost | clock | clockLeft | fired
  | timersEnded | packetLeft | timerReturned | timerBroke | threw | freed | freedAll | cleared =>
    simp [World.goto, World.selectEvent, World.endTimers, Pc.inPass] at hin
  | arrived other d' =>
    obtain ⟨honce, hx, hp⟩ := hp hin
    refine ⟨honce, hx, ?_⟩
    by_cases ho : socket = other
    · exact hp.between rfl (fun _ _ => Iff.rfl) (by simp [World.setInbox, ho]) [d'] (by simp [World.setInbox, ho]) rfl
    · exact hp.between rfl (fun _ _ => Iff.rfl) (by simp [World.setInbox, ho]) [] (by simp [World.setInbox, ho]) rfl
  | failed other =>
    have ho : socket ≠ other := fun h => hfail (h ▸ rfl)
    obtain ⟨honce, hx, hp⟩ := hp hin
    exact ⟨honce, hx, hp.between rfl (fun _ _ => Iff.rfl) (by simp [World.setInbox, ho]) []
      (by simp [World.setInbox, ho]) rfl⟩
  | broke | asked | set =>
    obtain ⟨honce, hx, hp⟩ := hp hin
    exact ⟨honce, hx, hp.between rfl (fun _ _ => Iff.rfl) rfl [] (List.append_nil _).symm rfl⟩
  | checked hpc _ hr =>
    obtain ⟨honce, hx, hp⟩ := hp (by simp [hpc, Pc.inPass])
    refine ⟨honce, hx, hp.between ?_ (by simp [World.goto, hpc]) rfl [] (List.append_nil _).symm rfl⟩
    rcases hr with rfl | ⟨rfl, rfl⟩ <;> simp [World.next, World.goto, hpc]
  | packetReturned hpc =>
    obtain ⟨honce, hx, hp⟩ := hp (by simp [hpc, Pc.inPass])
    exact ⟨honce, hx, hp.between (by simp [World.next, World.goto, hpc]) (by simp [World.goto, hpc]) rfl []
      (List.append_nil _).symm rfl⟩
  | @lookFailed i _ other _ hpc hx' hnone =>
    obtain ⟨honce, hx, hp⟩ := hp (by simp [hpc, Pc.inPass])
    refine ⟨honce, hx, ?_⟩
    by_cases hj : i = j
    · obtain ⟨-, rfl⟩ := Prod.mk.inj (Option.some.inj (hx.symm.trans (hj ▸ hx')))
      obtain ⟨h2, ⟨new, h3⟩, -⟩ := hp.own (hj ▸ hpc)
      simp [h2, h3] at hnone
    · have ho : socket ≠ other := fun h => hj (honce.index hx' (h ▸ hx))
      exact hp.past hpc hj rfl (by simp) (by simp [World.looked, World.setInbox, ho]) rfl
  | @dropped i _ other _ d' queue' _ hpc hx' hq hd =>
    obtain ⟨honce, hx, hp⟩ := hp (by simp [hpc, Pc.inPass])
    refine ⟨honce, hx, ?_⟩
    by_cases hj : i = j
    · obtain ⟨-, rfl⟩ := Prod.mk.inj (Option.some.inj (hx.symm.trans (hj ▸ hx')))
      obtain ⟨-, ⟨new, h3⟩, h4⟩ := hp.own (hj ▸ hpc)
      obtain ⟨rfl, rfl⟩ := List.cons.inj (h3.symm.trans hq)
      exact .behind (by simp [World.next, hj]) (by simp) ⟨new, by simp [World.looked, World.setInbox]⟩
        (by simp [World.looked, World.setInbox, delivered, hd, h4])
    · have ho : socket ≠ other := fun h => hj (honce.index hx' (h ▸ hx))
      exact hp.past hpc hj rfl (by simp) (by simp [World.looked, World.setInbox, ho]) rfl
  | @received i _ other _ d' queue' hpc hx' hq hd =>
    obtain ⟨honce, hx, hp⟩ := hp (by simp [hpc, Pc.inPass])
    refine ⟨honce, hx, ?_⟩
    by_cases hj : i = j
    · obtain ⟨-, rfl⟩ := Prod.mk.inj (Option.some.inj (hx.symm.trans (hj ▸ hx')))
      obtain ⟨-, ⟨new, h3⟩, h4⟩ := hp.own (hj ▸ hpc)
      obtain ⟨rfl, rfl⟩ := List.cons.inj (h3.symm.trans hq)
      exact .inHand (by rw [hj]) ⟨new, by simp [World.looked, World.setInbox]⟩ h4
    · have ho : socket ≠ other := fun h => hj (honce.index hx' (h ▸ hx))
      exact hp.past hpc hj rfl (by simp [hj]) (by simp [World.looked, World.setInbox, ho]) rfl
  | @handed i _ other data d' hpc hx' =>
    obtain ⟨honce, hx, hp⟩ := hp (by simp [hpc, Pc.inPass])
    obtain ⟨-, rfl, hname, hd⟩ := hi.holds i data d' hpc
    refine ⟨honce, hx, ?_⟩
    by_cases hj : i = j
    · obtain ⟨-, rfl⟩ := Prod.mk.inj (Option.some.inj (hx.symm.trans (hj ▸ hx')))
      cases hp with
      | ahead h1 => simp [World.next, hpc, hj] at h1
      | inHand h1 h2 h3 =>
        obtain ⟨-, -, rfl⟩ := Pc.received.inj (hpc.symm.trans h1)
        exact .behind (by simp [World.next, hj]) (by simp) h2 (by simpa [callsOn, delivered, hd, hname] using h3)
      | behind _ h2 => exact absurd (hj ▸ hpc) (h2 _ _)
    · have ho : other ≠ socket := fun h => hj (honce.index hx' (h ▸ hx))
      exact hp.between (by simp [World.next, hpc]) (by simp [hpc, hj]) rfl [] (List.append_nil _).symm
        (by simp [callsOn, ho])

/-- A pass serves every socket: whichever event ends the wait, of each socket that has a datagram by
    then the first one is taken and, if it is neither empty nor too long, handed on, unless `Run`
    leaves the pass in between. -/
theorem pass_serves_all (sort : StdSort) {before rest : List Event} {result : WaitResult}
    (hp : Throughout (World.step sort) Allowed (before ++ .wait result :: rest) .start)
    (hwait : ∀ result, .wait result ∉ rest) :
    ∃ w w', runCaught (World.step sort) before .start = ok w ∧
      runCaught (World.step sort) (.wait result :: rest) w = ok w' ∧
      (w.mux.Once → (∃ i, w'.pc = .sockets i ∧ w'.mux.socketListeners.length ≤ i) →
        ∀ x ∈ w.mux.socketListeners, (w.inboxes x.2).error = false → .fail x.2 ∉ rest →
        ∀ d queue, (w.inboxes x.2).queue = d :: queue →
          (∃ new, (w'.inboxes x.2).queue = queue ++ new) ∧
            callsOn w'.log x.2 = callsOn w.log x.2 ++ delivered [d]) := by
  obtain ⟨w, he, hi⟩ := run_inv sort hp.of_append
  have htail : Throughout (World.step sort) Allowed (.wait result :: rest) w := hp.append_right he
  have hpc : w.pc = .blocked := htail.1.1.1
  obtain ⟨w₁, he₁, hm, hi₁⟩ := step_inv sort htail.1 hi
  have hrest : Throughout (World.step sort) Allowed rest w₁ := by
    rw [← after_of_attempt he₁]
    exact htail.2
  obtain ⟨w', he', -⟩ := run_keeps sort (I := fun _ => True) hrest hi₁ trivial fun _ _ _ _ _ _ _ _ => trivial
  refine ⟨w, w', he, by rw [runCaught_cons he₁, he'], fun honce hend x hx herror hfail d queue hq => ?_⟩
  obtain ⟨j, hj⟩ := List.mem_iff_getElem?.mp hx
  obtain ⟨e, hevent, hset⟩ := hi.ready hpc honce hj (by simp [hq])
  have hstart : InPass (callsOn w.log x.2) j x.1 x.2 d queue w₁ := by
    cases hm with
    | listeners hpc' => simp [hpc] at hpc'
    | @woken i _ _ _ hfirst =>
      refine fun _ => ⟨honce, hj, .ahead (Nat.not_lt.mp fun hlt => ?_) herror
        ⟨[], hq.trans (List.append_nil _).symm⟩ rfl⟩
      simp [hfirst j hlt e hevent] at hset
    | timedOut _ hquiet => simp [hquiet e (List.mem_of_getElem? hevent)] at hset
  obtain ⟨w'', he'', -, hpass⟩ := run_keeps sort hrest hi₁ hstart fun e hmem v v' hi _ hm hv =>
    hm.progress hi (fun result h => hwait result (h ▸ hmem)) (fun h => hfail (h ▸ hmem)) hv
  obtain rfl : w' = w'' := Out.ok.inj (he'.symm.trans he'')
  obtain ⟨i, hpc', hlen⟩ := hend
  obtain ⟨-, hx', hprogress⟩ := hpass (by simp [hpc', Pc.inPass])
  have hlt := (List.getElem?_eq_some_iff.mp hx').1
  cases hprogress with
  | ahead h1 => simp only [World.next, hpc'] at h1; omega
  | inHand h1 => simp [hpc'] at h1
  | behind _ _ hleft hcalls => exact ⟨hleft, hcalls⟩

/-- `Run` in front of its first wait, with two sockets that have a datagram each, one of them two. -/
def waiting : List Event :=
  [.attachSocketListener 5 0, .attachSocketListener 6 1, .arrive 5 ⟨[1], ⟨7, 8⟩⟩, .arrive 6 ⟨[2], ⟨7, 9⟩⟩,
    .arrive 5 ⟨[3], ⟨7, 8⟩⟩, .run, .allocate, .selectEvent, .selectEvent, .setUp 0, .test 0]

def onePass : List Event := [.check, .look true, .hand, .returned, .look true, .hand, .returned]

theorem waiting_allowed : Throughout (World.step default) Allowed (waiting ++ .wait (.object 0) :: onePass) .start := by
  refine ⟨⟨rfl, by simp⟩, ⟨rfl, by simp⟩, ⟨trivial, by simp⟩, ⟨trivial, by simp⟩, ⟨trivial, by simp⟩,
    ⟨rfl, fun _ => by decide⟩, ⟨rfl, by simp⟩, ⟨⟨0, rfl, by decide⟩, by simp⟩, ⟨⟨1, rfl, by decide⟩, by simp⟩,
    ⟨rfl, by simp⟩, ⟨rfl, by simp⟩,
    ⟨⟨rfl, by decide, first_zero (by decide)⟩, by simp⟩, ⟨⟨_, rfl⟩, by simp⟩, ⟨⟨0, 0, 5, rfl, rfl, by decide⟩, by simp⟩,
    ⟨⟨_, _, _, rfl⟩, by simp⟩, ⟨rfl, by simp⟩, ⟨⟨1, 1, 6, rfl, rfl, by decide⟩, by simp⟩, ⟨⟨_, _, _, rfl⟩, by simp⟩,
    ⟨rfl, by simp⟩, trivial⟩

theorem pass_serves_all_waiting : ∃ w w', runCaught (World.step default) waiting .start = ok w ∧
    runCaught (World.step default) (.wait (.object 0) :: onePass) w = ok w' ∧
      callsOn w'.log 6 = callsOn w.log 6 ++ delivered [⟨[2], ⟨7, 9⟩⟩] := by
  obtain ⟨w, w', he, he', hall⟩ := pass_serves_all default waiting_allowed (by simp [onePass])
  have hd : (fun w : World => (w.mux.socketListeners, (w.inboxes 6).error, (w.inboxes 6).queue)) <$>
      runCaught (World.step default) waiting .start = ok ([(0, 5), (1, 6)], false, [⟨[2], ⟨7, 9⟩⟩]) := by decide +kernel
  have hd' : (fun w : World => (w.pc, w.mux.socketListeners)) <$> (runCaught (World.step default) waiting .start >>=
      runCaught (World.step default) (.wait (.object 0) :: onePass)) =
        ok (.sockets 2, [(0, 5), (1, 6)]) := by decide +kernel
  rw [he, map_ok] at hd
  rw [he, ok_bind, he', map_ok] at hd'
  obtain ⟨hlisteners, hd⟩ := Prod.mk.inj (Out.ok.inj hd)
  obtain ⟨herror, hqueue⟩ := Prod.mk.inj hd
  obtain ⟨hpc', hlisteners'⟩ := Prod.mk.inj (Out.ok.inj hd')
  exact ⟨w, w', he, he', hall (by simp [SocketReceiveMultiplexer.Once, hlisteners])
    ⟨2, hpc', by simp [hlisteners']⟩ (1, 6)
    (by simp [hlisteners]) herror (by simp [onePass]) _ _ hqueue |>.2⟩

end OscTap.Win32.Multiplexer
