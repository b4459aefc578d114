/-
  OscTap.Ip.Multiplexer — the UDP receive loop with its sockets and timers
  (`SocketReceiveMultiplexerImplementation` and `UdpSocketImplementation::ReceiveFrom` in
  `osctap/ip/posix/UdpSocket.h`).

  A `World` is one multiplexer, the thread that calls `Run`, the sockets' inboxes in the system,
  and the calls of `AsynchronousBreak`. A socket is its descriptor. `Pc` is where `Run` is, with
  the iterators of its two loops; each of its system calls, each read of `break_` and each
  callback is a step, and datagrams, errors and stop requests come in between any two. `arrived`
  is what came in on a socket, `log` what `ProcessPacket` was called with, `fired` the timers whose
  `TimerExpired` was called. `Possible` says which steps the system and the callers can take.
-/
import OscTap.Ip.StopRequest
import OscTap.Lib.Machine
import OscTap.Ip.Timers
import OscTap.Tcp.Socket

namespace OscTap.Ip.Multiplexer

open OscTap.Lib OscTap.Lib.Out OscTap.Tcp OscTap.Ip.Timers

/-! ## Sockets -/

structure Datagram where
  bytes : Bytes
  fromAddr : SockaddrIn
  deriving DecidableEq, Repr

/-- What the system holds for a socket: datagrams, and an error that is still to be reported. -/
structure Inbox where
  queue : List Datagram
  error : Bool
  deriving DecidableEq, Repr

def Inbox.Readable (i : Inbox) : Prop := i.queue ≠ [] ∨ i.error = true

instance (i : Inbox) : Decidable i.Readable := inferInstanceAs (Decidable (_ ∨ _))

/-- `ntohl(sin_addr.s_addr)` and `ntohs(sin_port)`: any address and any port have no names of their own here. -/
def remoteName (fromAddr : SockaddrIn) : IpEndpointName := ⟨fromAddr.addr.toUInt64, fromAddr.port.toUInt32.toInt32⟩

/-- `ReceiveFrom(remoteEndpoint, data, size)`, given what `recvfrom()` took; the returned size is
    the length of the data, 0 also when `recvfrom()` fails. -/
def receiveFrom (remoteEndpoint : IpEndpointName) (size : Nat) : Option Datagram → Bytes × IpEndpointName
  | none => ([], remoteEndpoint)
  | some d => (d.bytes.take size, remoteName d.fromAddr)

def maxBufferSize : Nat := 4098

/-! ## The multiplexer -/

inductive Exn where
  | selectFailed
  | badAlloc
  /-- From `ProcessPacket` or `TimerExpired`. -/
  | listener
  deriving DecidableEq, Repr

structure SocketReceiveMultiplexer where
  /-- The listener and its socket. -/
  socketListeners : List (Nat × Nat)
  timerListeners : List AttachedTimerListener
  break_ : Bool
  /-- The end that `Run` reads. -/
  breakPipe : Nat
  deriving DecidableEq, Repr

namespace SocketReceiveMultiplexer

variable (m : SocketReceiveMultiplexer)

def attachSocketListener (socket listener : Nat) : SocketReceiveMultiplexer :=
  { m with socketListeners := m.socketListeners ++ [(listener, socket)] }

def detachSocketListener (socket listener : Nat) : SocketReceiveMultiplexer :=
  { m with socketListeners := m.socketListeners.erase (listener, socket) }

def attachPeriodicTimerListener (initialDelayMilliseconds periodMilliseconds : Int) (listener : Nat) :
    SocketReceiveMultiplexer :=
  { m with timerListeners := m.timerListeners ++ [⟨initialDelayMilliseconds, periodMilliseconds, listener⟩] }

def detachPeriodicTimerListener (listener : Nat) : SocketReceiveMultiplexer :=
  { m with timerListeners := m.timerListeners.eraseP fun t => t.listener = listener }

def watched {ε : Type} : Out ε (List Nat × Nat) := do
  let masterfds ← fdSet m.breakPipe []
  let masterfds ← m.socketListeners.foldlM (fun fds x => fdSet x.2 fds) masterfds
  ok (masterfds, m.socketListeners.foldl (fun fdmax x => max fdmax x.2) m.breakPipe)

end SocketReceiveMultiplexer

inductive Pc where
  | outside
  /-- In front of the loop. -/
  | setUp
  /-- `while (!break_)`. -/
  | test
  /-- In `select()`. -/
  | blocked
  /-- `FD_ISSET(breakPipe_[0], &tempfds)`. -/
  | woken
  /-- `if (break_) break`, behind the pipe. -/
  | check
  | sockets (rest : List (Nat × Nat))
  /-- In `ProcessPacket`; `rest` comes next. -/
  | inPacket (rest : List (Nat × Nat))
  /-- `i` is the iterator's position in the queue. -/
  | timers (i : Nat)
  | inTimer (i : Nat)
  /-- Out of the loop, or unwinding, in front of `clearBreakOnExit`. -/
  | leaving (thrown : Option Exn)
  deriving DecidableEq, Repr

structure Locals where
  masterfds : List Nat
  fdmax : Nat
  tempfds : List Nat
  /-- `none` is `timeoutPtr` null. -/
  timeout : Option Int
  currentTimeMs : Int
  timerQueue : List ScheduledTimerCall
  remoteEndpoint : IpEndpointName

structure Call where
  listener : Nat
  socket : Nat
  data : Bytes
  size : Int
  remoteEndpoint : IpEndpointName
  deriving DecidableEq, Repr

structure World where
  mux : SocketReceiveMultiplexer
  /-- The bytes in the break pipe. -/
  pipe : Nat
  locals : Locals
  pc : Pc
  /-- How often `Run` has left, and the calls of `AsynchronousBreak`. -/
  exits : Nat
  requests : List Request
  inboxes : Nat → Inbox
  arrived : Nat → List Datagram
  log : List Call
  fired : List ScheduledTimerCall

namespace World

def start (breakPipe : Nat) : World where
  mux := ⟨[], [], false, breakPipe⟩
  pipe := 0
  locals := ⟨[], 0, [], none, 0, [], ⟨0xFFFFFFFF, -1⟩⟩
  pc := .outside
  exits := 0
  requests := []
  inboxes := fun _ => ⟨[], false⟩
  arrived := fun _ => []
  log := []
  fired := []

variable (w : World)

def goto (pc : Pc) : World := { w with pc := pc }

def setBreak (b : Bool) : World := { w with mux := { w.mux with break_ := b } }

def setInbox (socket : Nat) (inbox : Inbox) : World := { w with inboxes := Function.update w.inboxes socket inbox }

end World

/-! ## Steps -/

inductive SelectResult where
  | ready (readfds : List Nat)
  | eintr
  | failed
  deriving DecidableEq, Repr

inductive Event where
  | attachSocketListener (socket listener : Nat)
  | detachSocketListener (socket listener : Nat)
  | attachPeriodicTimerListener (initialDelayMilliseconds periodMilliseconds : Int) (listener : Nat)
  | detachPeriodicTimerListener (listener : Nat)
  /-- A datagram, or an error, comes in on a socket. -/
  | arrive (socket : Nat) (d : Datagram)
  | fail (socket : Nat)
  | run
  /-- What comes in front of the loop, with the clock that it reads. -/
  | setUp (currentTimeMs : Int)
  | outOfMemory
  /-- `while (!break_)`, and the clock that is read for the timeout. -/
  | test (currentTimeMs : Int)
  | select (result : SelectResult)
  | drain
  | check
  /-- The next socket; `recvfrom()`, if it comes to it, fails or takes a datagram. -/
  | look (taken : Bool)
  /-- The clock behind the sockets. -/
  | clock (currentTimeMs : Int)
  /-- The next timer. -/
  | timer
  | returned
  | threw
  | clear
  /-- `Break()`, in a callback or while `Run` is not running. -/
  | break_
  | asynchronousBreak
  /-- The second step of the `i`-th call. -/
  | write (i : Nat)
  deriving DecidableEq, Repr

namespace World

variable (w : World)

/-- A socket that `select()` reported: `ReceiveFrom`, and `ProcessPacket` unless the size is 0. -/
def receive (listener socket : Nat) (rest : List (Nat × Nat)) (taken : Option Datagram) : World :=
  let x := receiveFrom w.locals.remoteEndpoint maxBufferSize taken
  let w := { w with locals := { w.locals with remoteEndpoint := x.2 } }
  if 0 < x.1.length then
    { w with log := w.log ++ [⟨listener, socket, x.1, x.1.length, x.2⟩], pc := .inPacket rest }
  else w.goto (.sockets rest)

/-- `recvfrom()` takes the first datagram, or fails: a pending error is reported first. -/
def recvfrom (socket : Nat) (taken : Bool) : Option Datagram × World :=
  match if taken then (w.inboxes socket).queue else [] with
  | d :: queue => (some d, w.setInbox socket ⟨queue, (w.inboxes socket).error⟩)
  | [] => (none, w.setInbox socket ⟨(w.inboxes socket).queue, false⟩)

def look (taken : Bool) : Out (Exn × World) World :=
  match w.pc with
  | .sockets ((listener, socket) :: rest) => do
    let isSet ← fdIsSet w.locals.tempfds socket
    if isSet then
      let x := w.recvfrom socket taken
      ok (x.2.receive listener socket rest x.1)
    else ok (w.goto (.sockets rest))
  | _ => ok w

/-- Behind the timers' loop; `resort` is set once the iterator has moved. -/
def endTimers (sort : StdSort) (i : Nat) : World :=
  { w with
    locals := { w.locals with timerQueue := if 0 < i then sort.sort w.locals.timerQueue else w.locals.timerQueue }
    pc := .test }

def timer (sort : StdSort) (i : Nat) : World :=
  match w.locals.timerQueue[i]? with
  | some call =>
    if expired w.locals.currentTimeMs call then { w with fired := w.fired ++ [call], pc := .inTimer i }
      else w.endTimers sort i
  | none => w.endTimers sort i

def returned (sort : StdSort) : World :=
  match w.pc with
  | .inPacket rest => w.goto (.sockets (if w.mux.break_ then [] else rest))
  | .inTimer i =>
    if w.mux.break_ then w.endTimers sort i
    else
      { w with
        locals := { w.locals with timerQueue := w.locals.timerQueue.modify i ScheduledTimerCall.reschedule }
        pc := .timers (i + 1) }
  | _ => w

def select : SelectResult → World
  | .ready readfds => { w with locals := { w.locals with tempfds := readfds }, pc := .woken }
  | .eintr => w.goto (if w.mux.break_ then .leaving none else .test)
  | .failed => w.goto (.leaving (if w.mux.break_ then none else some .selectFailed))

/-- `clearBreakOnExit`, and out of `Run`. -/
def clear : Out (Exn × World) World :=
  let w' := { w with mux := { w.mux with break_ := false }, pc := .outside, exits := w.exits + 1 }
  match w.pc with
  | .leaving none => ok w'
  | .leaving (some e) => err (e, w')
  | _ => ok w

def step (sort : StdSort) (e : Event) (w : World) : Out (Exn × World) World :=
  match e with
  | .attachSocketListener socket listener => ok { w with mux := w.mux.attachSocketListener socket listener }
  | .detachSocketListener socket listener => ok { w with mux := w.mux.detachSocketListener socket listener }
  | .attachPeriodicTimerListener initial period listener =>
    ok { w with mux := w.mux.attachPeriodicTimerListener initial period listener }
  | .detachPeriodicTimerListener listener => ok { w with mux := w.mux.detachPeriodicTimerListener listener }
  | .arrive socket d =>
    let inbox := w.inboxes socket
    ok { w.setInbox socket { inbox with queue := inbox.queue ++ [d] } with
      arrived := Function.update w.arrived socket (w.arrived socket ++ [d]) }
  | .fail socket => ok (w.setInbox socket { w.inboxes socket with error := true })
  | .run => ok (w.goto .setUp)
  | .setUp currentTimeMs => do
    let x ← w.mux.watched
    ok { w with
      locals := ⟨x.1, x.2, [], none, currentTimeMs, timerQueue sort currentTimeMs w.mux.timerListeners,
        ⟨0xFFFFFFFF, -1⟩⟩
      pc := .test }
  | .outOfMemory => ok (w.goto (.leaving (some .badAlloc)))
  | .test currentTimeMs =>
    if w.mux.break_ then ok (w.goto (.leaving none))
    else
      ok { w with locals := { w.locals with timeout := timeoutMs currentTimeMs w.locals.timerQueue }, pc := .blocked }
  | .select result => ok (w.select result)
  | .drain => do
    let isSet ← fdIsSet w.locals.tempfds w.mux.breakPipe
    ok { w with pipe := if isSet then w.pipe - 1 else w.pipe, pc := .check }
  | .check => ok (w.goto (if w.mux.break_ then .leaving none else .sockets w.mux.socketListeners))
  | .look taken => w.look taken
  | .clock currentTimeMs => ok { w with locals := { w.locals with currentTimeMs := currentTimeMs }, pc := .timers 0 }
  | .timer =>
    match w.pc with
    | .timers i => ok (w.timer sort i)
    | _ => ok w
  | .returned => ok (w.returned sort)
  | .threw => ok (w.goto (.leaving (some .listener)))
  | .clear => w.clear
  | .break_ => ok (w.setBreak true)
  | .asynchronousBreak => ok { w.setBreak true with requests := w.requests ++ [⟨w.exits, false⟩] }
  | .write i =>
    match w.requests[i]? with
    | some ⟨began, false⟩ => ok { w with pipe := w.pipe + 1, requests := w.requests.set i ⟨began, true⟩ }
    | _ => ok w

end World

/-! ## What can happen -/

def Pc.inCallback : Pc → Bool
  | .inPacket _ | .inTimer _ => true
  | _ => false

/-- `select()` reports what can be read, and without a time limit something. -/
def SelectResult.Possible (w : World) : SelectResult → Prop
  | .ready readfds => (∀ fd, fd ∈ readfds ↔ fd ∈ w.locals.masterfds ∧ fd ≤ w.locals.fdmax ∧
      (if fd = w.mux.breakPipe then 0 < w.pipe else (w.inboxes fd).Readable)) ∧ (readfds = [] → w.locals.timeout ≠ none)
  | _ => True

/-- The assumptions on the system and on the callers: sockets and timers are attached and detached
    only while `Run` is not running, and those detached are there; `Break` is called in a callback
    or outside; `recvfrom()` waits until there is something, or is interrupted. -/
def Possible : Event → World → Prop
  | .attachSocketListener socket _, w => w.pc = .outside ∧ socket ≠ w.mux.breakPipe
  | .detachSocketListener socket listener, w => w.pc = .outside ∧ (listener, socket) ∈ w.mux.socketListeners
  | .attachPeriodicTimerListener _ _ _, w => w.pc = .outside
  | .detachPeriodicTimerListener listener, w => w.pc = .outside ∧ ∃ t ∈ w.mux.timerListeners, t.listener = listener
  | .arrive _ _, _ | .fail _, _ | .asynchronousBreak, _ => True
  | .run, w => w.pc = .outside
  | .setUp _, w | .outOfMemory, w => w.pc = .setUp
  | .test _, w => w.pc = .test
  | .select result, w => w.pc = .blocked ∧ result.Possible w
  | .drain, w => w.pc = .woken
  | .check, w => w.pc = .check
  | .look taken, w =>
    ∃ listener socket rest, w.pc = .sockets ((listener, socket) :: rest) ∧ (socket ∈ w.locals.tempfds →
      if taken then (w.inboxes socket).error = false ∧ (w.inboxes socket).queue ≠ []
      else (w.inboxes socket).error = true ∨ (w.inboxes socket).queue = [])
  | .clock _, w => w.pc = .sockets []
  | .timer, w => ∃ i, w.pc = .timers i
  | .returned, w | .threw, w => w.pc.inCallback = true
  | .clear, w => ∃ thrown, w.pc = .leaving thrown
  | .break_, w => w.pc = .outside ∨ w.pc.inCallback = true
  | .write i, w => ∃ began, w.requests[i]? = some ⟨began, false⟩

/-- The steps of `Run`; the others are the callers' and the system's. -/
def Event.own : Event → Bool
  | .run | .setUp _ | .outOfMemory | .test _ | .select _ | .drain | .check | .look _ | .clock _ | .timer | .returned
  | .threw | .clear => true
  | _ => false

/-- The descriptors fit the sets of `select()`. -/
def Event.Fits : Event → Prop
  | .attachSocketListener socket _ => socket < fdSetSize
  | _ => True

end OscTap.Ip.Multiplexer
