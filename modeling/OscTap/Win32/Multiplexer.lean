/-
  OscTap.Win32.Multiplexer — the UDP receive loop over Winsock
  (`SocketReceiveMultiplexerImplementation` and `UdpSocketImplementation::ReceiveFrom` in
  `osctap/ip/win32/UdpSocket.h`).

  `Run` makes an event for each socket, selects the socket for it, and waits for the events and for
  the break event behind them in one array. The first one that is set ends the wait, which resets
  it; from that socket on each socket is asked for one datagram. The sockets do not block while they
  are selected. When the loop is left in the ordinary way the sockets are deselected, one by one;
  when it is left by an exception they are not.

  A `World` is as in `OscTap.Ip.Multiplexer`, and the events are those of `OscTap.Lib.AutoReset`: a
  socket with a datagram is a source that is ready, and `recvfrom()` re-enables it. `lost` are the
  datagrams that were taken and not handed on, for `break_` was set by then. That an event cannot be
  created, or a socket not be selected, is left out. `WaitForMultipleObjects` fails when the array
  is too long, and the index that the code makes of the failure is `-1`.
-/
import OscTap.Lib.AutoReset
import OscTap.Ip.Datagrams

namespace OscTap.Win32.Multiplexer

open OscTap.Lib OscTap.Lib.Out OscTap.Ip.Timers
open OscTap.Tcp (IpEndpointName)
open OscTap.Ip (Request)
open OscTap.Ip.Multiplexer (Datagram Inbox Call remoteName maxBufferSize callsOn)

/-- `ReceiveFrom(remoteEndpoint, data, size)`, given what `recvfrom()` took: it fails on a datagram
    that is longer than the buffer, and the datagram is gone. -/
def receiveFrom (remoteEndpoint : IpEndpointName) (size : Nat) : Option Datagram → Bytes × IpEndpointName
  | none => ([], remoteEndpoint)
  | some d => if d.bytes.length ≤ size then (d.bytes, remoteName d.fromAddr) else ([], remoteEndpoint)

def maximumWaitObjects : Nat := 64

inductive Exn where
  | badAlloc
  /-- From `ProcessPacket` or `TimerExpired`. -/
  | listener
  deriving DecidableEq, Repr

structure SocketReceiveMultiplexer where
  /-- The listener and its socket. -/
  socketListeners : List (Nat × Nat)
  timerListeners : List AttachedTimerListener
  break_ : Bool
  breakEvent : Nat
  deriving DecidableEq, Repr

namespace SocketReceiveMultiplexer

variable (m : SocketReceiveMultiplexer)

def attachSocketListener (socket listener : Nat) : SocketReceiveMultiplexer :=
  { m with socketListeners := m.socketListeners ++ [(listener, socket)] }

def detachSocketListener (socket listener : Nat) : SocketReceiveMultiplexer :=
  { m with socketListeners := m.socketListeners.erase (listener, socket) }

def attachPeriodicTimerListener (initialDelayMilliseconds periodMilliseconds : Int) (listener : Nat) :
    SocketReceiveMultiplexer :=
  { m with timerListeners := m.timerListeners ++ [⟨initialDelayMilliseconds, periodMilliseconds, listener⟩] }

def detachPeriodicTimerListener (listener : Nat) : SocketReceiveMultiplexer :=
  { m with timerListeners := m.timerListeners.eraseP fun t => t.listener = listener }

end SocketReceiveMultiplexer

/-- What `WaitForMultipleObjects` returns: `WAIT_OBJECT_0 + i`, `WAIT_TIMEOUT` or `WAIT_FAILED`. -/
inductive WaitResult where
  | object (i : Nat)
  | timeout
  | failed
  deriving DecidableEq, Repr

inductive Pc where
  | outside
  /-- In front of the events. -/
  | setUp
  /-- `j` sockets have been selected. -/
  | selecting (j : Nat)
  /-- `while (!break_)`. -/
  | test
  /-- In `WaitForMultipleObjects`. -/
  | blocked
  /-- `if (break_) break`, behind the wait. -/
  | check (waitResult : WaitResult)
  | sockets (i : Nat)
  /-- `if (break_) break`, behind `ReceiveFrom`; the datagram is there for the account only. -/
  | received (i : Nat) (data : Bytes) (d : Datagram)
  | inPacket (i : Nat)
  | timers (i : Nat)
  | inTimer (i : Nat)
  /-- Out of the loop; `j` sockets have been deselected. -/
  | freeing (j : Nat)
  /-- In front of `clearBreakOnExit`. -/
  | leaving (thrown : Option Exn)
  deriving DecidableEq, Repr

structure Locals where
  events : List Nat
  /-- `none` is `INFINITE`. -/
  waitTime : Option Int
  currentTimeMs : Int
  timerQueue : List ScheduledTimerCall
  remoteEndpoint : IpEndpointName

structure World where
  mux : SocketReceiveMultiplexer
  signals : Signals
  /-- What `CreateEvent` returns next. -/
  nextEvent : Nat
  locals : Locals
  pc : Pc
  /-- How often `Run` has left, and the calls of `AsynchronousBreak`. -/
  exits : Nat
  requests : List Request
  inboxes : Nat → Inbox
  arrived : Nat → List Datagram
  log : List Call
  lost : List (Nat × Datagram)
  fired : List ScheduledTimerCall

namespace World

def start : World where
  mux := ⟨[], [], false, 0⟩
  signals := .init
  nextEvent := 1
  locals := ⟨[], none, 0, [], ⟨0xFFFFFFFF, -1⟩⟩
  pc := .outside
  exits := 0
  requests := []
  inboxes := fun _ => ⟨[], false⟩
  arrived := fun _ => []
  log := []
  lost := []
  fired := []

variable (w : World)

def goto (pc : Pc) : World := { w with pc := pc }

def setBreak (b : Bool) : World := { w with mux := { w.mux with break_ := b } }

def setInbox (socket : Nat) (inbox : Inbox) : World := { w with inboxes := Function.update w.inboxes socket inbox }

end World

/-! ## Steps -/

inductive Event where
  | attachSocketListener (socket listener : Nat)
  | detachSocketListener (socket listener : Nat)
  | attachPeriodicTimerListener (initialDelayMilliseconds periodMilliseconds : Int) (listener : Nat)
  | detachPeriodicTimerListener (listener : Nat)
  /-- A datagram, or an error, comes in on a socket. -/
  | arrive (socket : Nat) (d : Datagram)
  | fail (socket : Nat)
  | run
  | outOfMemory
  /-- The array of events. -/
  | allocate
  /-- The next socket's event. -/
  | selectEvent
  /-- The break event and the timer queue, with the clock that is read. -/
  | setUp (currentTimeMs : Int)
  /-- `while (!break_)`, and the clock that is read for the wait. -/
  | test (currentTimeMs : Int)
  | wait (waitResult : WaitResult)
  | check
  /-- The next socket; `recvfrom()` fails or takes a datagram. -/
  | look (taken : Bool)
  /-- `if (break_) break` behind `ReceiveFrom`, and `ProcessPacket`. -/
  | hand
  /-- `if (break_) break` behind the sockets, and the clock. -/
  | clock (currentTimeMs : Int)
  /-- The next timer. -/
  | timer
  | returned
  | threw
  /-- The next socket is deselected. -/
  | free
  | clear
  /-- `Break()`, in a callback or while `Run` is not running. -/
  | break_
  | asynchronousBreak
  /-- `SetEvent(breakEvent_)` of the `i`-th call. -/
  | setEvent (i : Nat)
  deriving DecidableEq, Repr

namespace World

variable (w : World)

/-- `CreateEvent(NULL, FALSE, FALSE, NULL)` and `WSAEventSelect(socket, event, FD_READ)`. -/
def selectEvent (socket j : Nat) : World :=
  { w with
    signals := (w.signals.reset w.nextEvent).select socket w.nextEvent ((w.inboxes socket).queue != [])
    nextEvent := w.nextEvent + 1
    locals := { w.locals with events := w.locals.events ++ [w.nextEvent] }
    pc := .selecting (j + 1) }

/-- `recvfrom()` takes the first datagram, or fails: a pending error is reported first. The event is
    set again when there is another datagram. -/
def recvfrom (socket : Nat) (taken : Bool) : Option Datagram × World :=
  match if taken then (w.inboxes socket).queue else [] with
  | d :: queue =>
    (some d, { w.setInbox socket ⟨queue,
      (w.inboxes socket).error⟩ with signals := w.signals.enable socket (queue != []) })
  | [] =>
    (none, { w.setInbox socket ⟨(w.inboxes socket).queue, false⟩ with
      signals := w.signals.enable socket ((w.inboxes socket).queue != []) })

/-- `ReceiveFrom`, and the test of the size. -/
def receive (i : Nat) : Option Datagram → World
  | none => w.goto (.sockets (i + 1))
  | some d =>
    let x := receiveFrom w.locals.remoteEndpoint maxBufferSize (some d)
    { w with
      locals := { w.locals with remoteEndpoint := x.2 }
      pc := if 0 < x.1.length then .received i x.1 d else .sockets (i + 1) }

def look (taken : Bool) : Out (Exn × World) World :=
  match w.pc with
  | .sockets i =>
    match w.mux.socketListeners[i]? with
    | some (_, socket) =>
      let x := w.recvfrom socket taken
      ok (x.2.receive i x.1)
    | none => fault (.read i)
  | _ => ok w

def hand : Out (Exn × World) World :=
  match w.pc with
  | .received i data d =>
    match w.mux.socketListeners[i]? with
    | some (listener, socket) =>
      if w.mux.break_ then ok { w with lost := w.lost ++ [(socket, d)], pc := .freeing 0 }
      else ok { w with log := w.log ++ [⟨listener, socket, data, data.length,
        w.locals.remoteEndpoint⟩], pc := .inPacket i }
    | none => fault (.read i)
  | _ => ok w

/-- Behind the timers' loop; `resort` is set once the iterator has moved. -/
def endTimers (sort : StdSort) (i : Nat) : World :=
  { w with
    locals := { w.locals with timerQueue := if 0 < i then sort.sort w.locals.timerQueue else w.locals.timerQueue }
    pc := .test }

def timer (sort : StdSort) (i : Nat) : World :=
  match w.locals.timerQueue[i]? with
  | some call =>
    if expired w.locals.currentTimeMs call then { w with fired := w.fired ++ [call], pc := .inTimer i }
      else w.endTimers sort i
  | none => w.endTimers sort i

def returned (sort : StdSort) : World :=
  match w.pc with
  | .inPacket i => w.goto (if w.mux.break_ then .freeing 0 else .sockets (i + 1))
  | .inTimer i =>
    if w.mux.break_ then w.endTimers sort i
    else
      { w with
        locals := { w.locals with timerQueue := w.locals.timerQueue.modify i ScheduledTimerCall.reschedule }
        pc := .timers (i + 1) }
  | _ => w

/-- The wait takes back the event that ends it. -/
def wait : WaitResult → World
  | .object i => { w with signals := (w.locals.events[i]?).elim w.signals w.signals.reset, pc := .check (.object i) }
  | result => w.goto (.check result)

/-- `waitResult - WAIT_OBJECT_0` is `-1` when the wait has failed, and `socketListeners_[-1]` is read. -/
def check : Out (Exn × World) World :=
  match w.pc with
  | .check waitResult =>
    if w.mux.break_ then ok (w.goto (.freeing 0))
    else
      match waitResult with
      | .object i => ok (w.goto (.sockets i))
      | .timeout => ok (w.goto (.sockets w.mux.socketListeners.length))
      | .failed => fault (.read (2 ^ 64 - 1))
  | _ => ok w

def free : Out (Exn × World) World :=
  match w.pc with
  | .freeing j =>
    match w.mux.socketListeners[j]? with
    | some (_, socket) =>
      match w.locals.events[j]? with
      | some _ => ok { w with signals := w.signals.cancel socket, pc := .freeing (j + 1) }
      | none => fault (.read j)
    | none => ok (w.goto (.leaving none))
  | _ => ok w

/-- `clearBreakOnExit`, and out of `Run`. -/
def clear : Out (Exn × World) World :=
  let w' := { w with mux := { w.mux with break_ := false }, pc := .outside, exits := w.exits + 1 }
  match w.pc with
  | .leaving none => ok w'
  | .leaving (some e) => err (e, w')
  | _ => ok w

def step (sort : StdSort) (e : Event) (w : World) : Out (Exn × World) World :=
  match e with
  | .attachSocketListener socket listener => ok { w with mux := w.mux.attachSocketListener socket listener }
  | .detachSocketListener socket listener => ok { w with mux := w.mux.detachSocketListener socket listener }
  | .attachPeriodicTimerListener initial period listener =>
    ok { w with mux := w.mux.attachPeriodicTimerListener initial period listener }
  | .detachPeriodicTimerListener listener => ok { w with mux := w.mux.detachPeriodicTimerListener listener }
  | .arrive socket d =>
    let inbox := w.inboxes socket
    ok { w.setInbox socket { inbox with queue := inbox.queue ++ [d] } with
      signals := w.signals.arrive socket
      arrived := Function.update w.arrived socket (w.arrived socket ++ [d]) }
  | .fail socket => ok (w.setInbox socket { w.inboxes socket with error := true })
  | .run => ok (w.goto .setUp)
  | .outOfMemory => ok (w.goto (.leaving (some .badAlloc)))
  | .allocate => ok { w with locals := { w.locals with events := [] }, pc := .selecting 0 }
  | .selectEvent =>
    match w.pc with
    | .selecting j =>
      match w.mux.socketListeners[j]? with
      | some (_, socket) => ok (w.selectEvent socket j)
      | none => ok w
    | _ => ok w
  | .setUp currentTimeMs =>
    ok { w with
      locals := ⟨w.locals.events ++ [w.mux.breakEvent], none, currentTimeMs,
        timerQueue sort currentTimeMs w.mux.timerListeners, ⟨0xFFFFFFFF, -1⟩⟩
      pc := .test }
  | .test currentTimeMs =>
    if w.mux.break_ then ok (w.goto (.freeing 0))
    else
      ok { w with
        locals :=
          { w.locals with currentTimeMs := currentTimeMs, waitTime := timeoutMs currentTimeMs w.locals.timerQueue }
        pc := .blocked }
  | .wait waitResult => ok (w.wait waitResult)
  | .check => w.check
  | .look taken => w.look taken
  | .hand => w.hand
  | .clock currentTimeMs =>
    if w.mux.break_ then ok (w.goto (.freeing 0))
    else ok { w with locals := { w.locals with currentTimeMs := currentTimeMs }, pc := .timers 0 }
  | .timer =>
    match w.pc with
    | .timers i => ok (w.timer sort i)
    | _ => ok w
  | .returned => ok (w.returned sort)
  | .threw => ok (w.goto (.leaving (some .listener)))
  | .free => w.free
  | .clear => w.clear
  | .break_ => ok (w.setBreak true)
  | .asynchronousBreak => ok { w.setBreak true with requests := w.requests ++ [⟨w.exits, false⟩] }
  | .setEvent i =>
    match w.requests[i]? with
    | some ⟨began, false⟩ =>
      ok { w with signals := w.signals.set w.mux.breakEvent, requests := w.requests.set i ⟨began, true⟩ }
    | _ => ok w

end World

/-! ## What can happen -/

def Pc.inCallback : Pc → Bool
  | .inPacket _ | .inTimer _ => true
  | _ => false

/-- The first event that is set ends the wait; without one it ends at its time limit. -/
def WaitResult.Possible (w : World) : WaitResult → Prop
  | .object i => w.locals.events.length ≤ maximumWaitObjects ∧ w.signals.First w.locals.events i
  | .timeout => w.locals.events.length ≤ maximumWaitObjects ∧ w.signals.Quiet w.locals.events ∧ w.locals.waitTime ≠ none
  | .failed => maximumWaitObjects < w.locals.events.length

/-- The assumptions on the system and on the callers: sockets and timers are attached and detached
    only while `Run` is not running, and those detached are there; `Break` is called in a callback
    or outside; `recvfrom()` fails with an error, or when there is nothing. -/
def Possible : Event → World → Prop
  | .attachSocketListener _ _, w | .attachPeriodicTimerListener _ _ _, w | .run, w => w.pc = .outside
  | .detachSocketListener socket listener, w => w.pc = .outside ∧ (listener, socket) ∈ w.mux.socketListeners
  | .detachPeriodicTimerListener listener, w => w.pc = .outside ∧ ∃ t ∈ w.mux.timerListeners, t.listener = listener
  | .arrive _ _, _ | .fail _, _ | .asynchronousBreak, _ => True
  | .outOfMemory, w => w.pc = .setUp ∨ w.pc = .selecting w.mux.socketListeners.length
  | .allocate, w => w.pc = .setUp
  | .selectEvent, w => ∃ j, w.pc = .selecting j ∧ j < w.mux.socketListeners.length
  | .setUp _, w => w.pc = .selecting w.mux.socketListeners.length
  | .test _, w => w.pc = .test
  | .wait waitResult, w => w.pc = .blocked ∧ waitResult.Possible w
  | .check, w => ∃ waitResult, w.pc = .check waitResult
  | .look taken, w => ∃ i listener socket, w.pc = .sockets i ∧ w.mux.socketListeners[i]? = some (listener, socket) ∧
      if taken then (w.inboxes socket).error = false ∧ (w.inboxes socket).queue ≠ []
      else (w.inboxes socket).error = true ∨ (w.inboxes socket).queue = []
  | .hand, w => ∃ i data d, w.pc = .received i data d
  | .clock _, w => ∃ i, w.pc = .sockets i ∧ w.mux.socketListeners.length ≤ i
  | .timer, w => ∃ i, w.pc = .timers i
  | .returned, w | .threw, w => w.pc.inCallback = true
  | .free, w => ∃ j, w.pc = .freeing j
  | .clear, w => ∃ thrown, w.pc = .leaving thrown
  | .break_, w => w.pc = .outside ∨ w.pc.inCallback = true
  | .setEvent i, w => ∃ began, w.requests[i]? = some ⟨began, false⟩

end OscTap.Win32.Multiplexer
