/-
  OscTap.Tcp.Network — one server, any number of connections, any interleaving.

  A connection is the byte stream from its peer, which is a `TcpTransmitSocket` or writes what
  it likes. The `World` has the server with its `Pc`, the connections by number, and the
  descriptors that `accept()` gave out: a descriptor is used again once it is closed, the
  number of a connection is not. `log` is what `ProcessPacket` was called with, in order, each
  call under the connection whose bytes were read. An `Action` is a step of one party with the
  results of its system calls; `Possible` says which results the system can give.
-/
import OscTap.Lib.Machine
import OscTap.Tcp.Socket

namespace OscTap.Tcp

open OscTap.Lib OscTap.Lib.Out OscTap.Framing

/-! ## States -/

inductive Peer where
  /-- A `TcpTransmitSocket`, the packets `Send` was called with, and the call in progress. -/
  | client (calls : List Bytes) (sending : Option Sending)
  | stranger
  deriving DecidableEq, Repr

structure Stream where
  peer : Peer
  /-- What the peer wrote. -/
  sent : Bytes
  /-- What `recv()` returned to the server. -/
  received : Bytes
  accepted : Bool

/-- A call `ProcessPacket(data, size, remoteEndpoint)`; `data` points to `packet`. -/
structure Call where
  connection : Nat
  packet : Bytes
  size : Int
  remoteEndpoint : IpEndpointName
  deriving DecidableEq

/-- The packets dispatched for a connection: the bytes and the size that the listener got. -/
def packetsOf (log : List Call) (c : Nat) : List (Bytes × Int) :=
  (log.filter fun call => call.connection = c).map fun call => (call.packet, call.size)

structure World where
  server : TcpListeningReceiveSocket
  pc : Pc
  /-- The bytes in the break pipe. -/
  pipe : Nat
  fds : Nat → Option Nat
  streams : Nat → Stream
  log : List Call

/-- Who takes part: the server's descriptors and bound, which connections are clients, and
    whether the listener's `ProcessPacket` calls `Break`, given its calls so far. -/
structure Setup where
  listenSocket : Nat
  breakPipe : Nat
  maxFrameSize : UInt32
  isClient : Nat → Bool
  breaks : List Call → Bool

namespace World

def start (x : Setup) : World where
  server := .mk' x.listenSocket x.breakPipe x.maxFrameSize
  pc := .outside
  pipe := 0
  fds := fun _ => none
  streams := fun c => ⟨if x.isClient c then .client [] none else .stranger, [], [], false⟩
  log := []

def dispatched (w : World) (c : Nat) : List (Bytes × Int) := packetsOf w.log c

def setStream (w : World) (c : Nat) (s : Stream) : World := { w with streams := Function.update w.streams c s }

theorem setStream_self (w : World) (c : Nat) (s : Stream) : (w.setStream c s).streams c = s := Function.update_self ..

theorem setStream_ne (w : World) {c c' : Nat} (s : Stream) (h : c' ≠ c) : (w.setStream c s).streams c' = w.streams c' :=
  Function.update_of_ne h ..

/-- `Run` returns or throws: `break_` is cleared. -/
def leave (w : World) : World := { w with server := { w.server with break_ := false }, pc := .outside }

end World

/-! ## Steps -/

inductive SelectResult where
  | ready (readfds : List Nat)
  | eintr
  | failed

inductive AcceptResult where
  | accepted (conn : Nat) (connection : Nat) (peerAddr : SockaddrIn) (header : Vector UInt8 4)
  | failed

inductive RecvResult where
  | bytes (n : Nat)
  | closed
  | failed

inductive Action where
  /-- A client calls `Send(packet, size)`. -/
  | call (connection : Nat) (packet : Bytes)
  /-- A client's `send()` returns. -/
  | send (connection : Nat) (result : SendResult)
  /-- Another peer writes. -/
  | write (connection : Nat) (bytes : Bytes)
  | run
  /-- The loop of `Run` up to `select()`. -/
  | enter
  /-- `select()` returns; `accept()`, if it comes to it, too. -/
  | select (result : SelectResult) (accept : AcceptResult)
  /-- The next descriptor of the ready list; `recv()`, if it comes to it, returns. -/
  | service (result : RecvResult)
  | break_
  | asynchronousBreak

namespace World

/-- What `ProcessPacket` does with the packets of a connection: to the log and to `break_`, and whether it throws. -/
abbrev Listener := Nat → IpEndpointName → Sink (List Call × Bool)

variable (listener : Listener)

def send (w : World) (c : Nat) (result : SendResult) : Out (RuntimeError × World) World :=
  let s := w.streams c
  match s.peer with
  | .client calls (some x) => do
    let y ← (x.pass result).mapErr fun e => (e, w.setStream c { s with peer := .client calls none })
    ok (w.setStream c { s with peer := .client calls y.2, sent := s.sent ++ y.1 })
  | _ => ok w

def enter (w : World) : Out (RuntimeError × World) World :=
  if w.server.break_ then ok w.leave
  else do
    let x ← w.server.watched
    ok { w with pc := .blocked x.1 x.2 }

def accept (w : World) : AcceptResult → World
  | .failed => w
  | .accepted conn c peerAddr header =>
    { w.setStream c { w.streams c with accepted := true } with
      server := w.server.acceptConnection conn peerAddr header, fds := Function.update w.fds conn (some c) }

/-- From the return of `select()` to the ready list. -/
def select (w : World) (result : SelectResult) (accepted : AcceptResult) : Out (RuntimeError × World) World :=
  match result with
  | .eintr => if w.server.break_ then ok w.leave else ok { w with pc := .loop }
  | .failed => if w.server.break_ then ok w.leave else err (.selectFailed, w.leave)
  | .ready readfds => do
    let woken ← fdIsSet readfds w.server.breakPipe
    let w := if woken then { w with pipe := w.pipe - 1 } else w
    if w.server.break_ then ok w.leave
    else do
      let incoming ← fdIsSet readfds w.server.listenSocket
      let w := if incoming then w.accept accepted else w
      let ready ← w.server.collectReady readfds
      ok { w with pc := .next ready }

/-- A listener that returns: `ProcessPacket` may call `Break`. -/
def sink (breaks : List Call → Bool) (c : Nat) (peer : IpEndpointName) : Sink (List Call × Bool) := fun s packet =>
  let log := s.1 ++ [⟨c, packet, asInt packet.length, peer⟩]
  ((log, s.2 || breaks log), false)

def note (w : World) (s : List Call × Bool) : World := { w with log := s.1, server := { w.server with break_ := s.2 } }

def store (w : World) (fd : Nat) (connection : Connection) (d : OscStreamDeframer) : World :=
  { w with server := { w.server with connections := w.server.connections.insert fd { connection with deframer := d } } }

def close (w : World) (fd : Nat) : World :=
  { w with server := w.server.closeConnection fd, fds := Function.update w.fds fd none }

def recv (w : World) (c n : Nat) : Bytes × World :=
  let s := w.streams c
  let bytes := (s.sent.drop s.received.length).take n
  (bytes, w.setStream c { s with received := s.received ++ bytes })

def serviceConnection (w : World) (fd : Nat) (result : RecvResult) : Out (RuntimeError × World) World :=
  match w.server.connections[fd]?, w.fds fd with
  | some connection, some c =>
    match result with
    | .closed | .failed => ok (w.close fd)
    | .bytes n => do
      let x := w.recv c n
      let y ← (connection.deframer.consume (listener c connection.peer) x.1 (w.log, w.server.break_)).mapErr
        fun e => (.listener, ((x.2.note e.2).store fd connection e.1).leave)
      let w := (x.2.note y.2.2).store fd connection y.2.1
      if y.1 then ok w else ok (w.close fd)
  | _, _ => ok w

def service (w : World) (result : RecvResult) : Out (RuntimeError × World) World :=
  match w.pc with
  | .servicing (fd :: rest) => do
    let w ← w.serviceConnection listener fd result
    ok { w with pc := if w.server.break_ then .loop else .next rest }
  | _ => ok w

def stepOf : Action → World → Out (RuntimeError × World) World
  | .call c packet, w =>
    match (w.streams c).peer with
    | .client calls none =>
      ok (w.setStream c { w.streams c with peer := .client (calls ++ [packet]) (some (.start packet packet.length)) })
    | _ => ok w
  | .send c result, w => w.send c result
  | .write c bytes, w => ok (w.setStream c { w.streams c with sent := (w.streams c).sent ++ bytes })
  | .run, w => ok { w with pc := .loop }
  | .enter, w => w.enter
  | .select result accept, w => w.select result accept
  | .service result, w => w.service listener result
  | .break_, w => ok { w with server := { w.server with break_ := true } }
  | .asynchronousBreak, w => ok { w with server := { w.server with break_ := true }, pipe := w.pipe + 1 }

def step (breaks : List Call → Bool) : Action → World → Out (RuntimeError × World) World := stepOf (sink breaks)

end World

/-! ## What the system can do -/

def bufSize : Nat := 4096

/-- `accept()` gives out an unused descriptor, for a connection that was not accepted before. -/
def AcceptResult.Possible (w : World) : AcceptResult → Prop
  | .failed => True
  | .accepted conn c _ _ => w.fds conn = none ∧ conn ≠ w.server.listenSocket ∧ conn ≠ w.server.breakPipe ∧
      (w.streams c).accepted = false

/-- `recv()` returns at least one byte, and no more than there are and `buf` holds. -/
def RecvResult.Possible (w : World) (fd : Nat) : RecvResult → Prop
  | .bytes n =>
    1 ≤ n ∧ n ≤ bufSize ∧ ∀ c, w.fds fd = some c → (w.streams c).received.length + n ≤ (w.streams c).sent.length
  | _ => True

/-- The assumptions on the system and on the callers: `send()` fails with `EINTR` only and
    takes no more than it is given; `select()` reports descriptors of its set; packets are no
    longer than the server's bound; one call of `Run`, and of a client's `Send`, at a time. -/
def Possible : Action → World → Prop
  | .call c packet, w => packet.length ≤ w.server.maxFrameSize.toNat ∧ ∃ calls, (w.streams c).peer = .client calls none
  | .send c result, w => ∃ calls x, (w.streams c).peer = .client calls (some x) ∧ result ≠ .failed ∧
      ∀ r, result = .wrote r → r ≤ x.room
  | .write c _, w => (w.streams c).peer = .stranger
  | .run, w => w.pc = .outside
  | .enter, w => w.pc = .loop
  | .select result accept, w => ∃ fdmax watched, w.pc = .blocked fdmax watched ∧
      (∀ readfds, result = .ready readfds → (∀ fd ∈ readfds, fd ∈ watched ∧ fd ≤ fdmax) ∧
        (w.server.breakPipe ∈ readfds → 0 < w.pipe)) ∧ accept.Possible w
  | .service result, w => ∃ fd rest, w.pc = .servicing (fd :: rest) ∧ result.Possible w fd
  | .break_, _ | .asynchronousBreak, _ => True

end OscTap.Tcp
