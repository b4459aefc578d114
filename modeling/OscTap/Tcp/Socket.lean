/-
  OscTap.Tcp.Socket — OSC over TCP (`osctap/ip/posix/TcpSocket.h`).

  The two sockets, over what the system calls return. `Sending` is a call of
  `TcpTransmitSocket::Send` in front of its next `send()`. `TcpListeningReceiveSocket` has its
  members, and `Pc` is where `Run` is: in front of the loop's test, in `select()`, or at a
  descriptor of the ready list. The descriptor sets of `select()` are checked: `FD_SET` and
  `FD_ISSET` of a descriptor outside the set are faults.
-/
import OscTap.Framing.Deframer
import OscTap.Osc.Types

namespace OscTap.Tcp

open OscTap.Lib OscTap.Lib.Out OscTap.Framing

inductive RuntimeError where
  | sendFailed
  | selectFailed
  /-- From `ProcessPacket`. -/
  | listener
  deriving DecidableEq, Repr

/-! ## TcpTransmitSocket -/

inductive SendResult where
  | wrote (r : Nat)
  | eintr
  | failed
  deriving DecidableEq, Repr

structure SendAll where
  p : Bytes
  n : Nat
  sent : Nat
  deriving DecidableEq, Repr

def SendAll.pass (a : SendAll) : SendResult → Out RuntimeError (Bytes × SendAll)
  | .wrote r => do
    let bytes ← rdBytes a.p a.sent r
    ok (bytes, { a with sent := a.sent + r })
  | .eintr => ok ([], a)
  | .failed => err .sendFailed

/-- `Send(data, size)`: in the header, or in the payload. -/
inductive Sending where
  | header (all : SendAll) (data : Bytes) (size : Nat)
  | payload (all : SendAll)
  deriving DecidableEq, Repr

namespace Sending

def start (data : Bytes) (size : Nat) : Sending :=
  .header ⟨be32 (size % 2 ^ 32), oscStreamFrameHeaderSize, 0⟩ data size

/-- The loops' tests behind a pass; `none` when the call has returned. -/
def advance : Sending → Option Sending
  | .header all data size =>
    if all.sent < all.n then some (.header all data size)
    else if 0 < size then some (.payload ⟨data, size, 0⟩)
    else none
  | .payload all => if all.sent < all.n then some (.payload all) else none

def pass (x : Sending) (r : SendResult) : Out RuntimeError (Bytes × Option Sending) :=
  match x with
  | .header all data size => do
    let y ← all.pass r
    ok (y.1, advance (.header y.2 data size))
  | .payload all => do
    let y ← all.pass r
    ok (y.1, advance (.payload y.2))

def room : Sending → Nat
  | .header all _ _ => all.n - all.sent
  | .payload all => all.n - all.sent

end Sending

/-! ## Descriptor sets -/

def fdSetSize : Nat := 1024

def fdSet {ε : Type} (fd : Nat) (fds : List Nat) : Out ε (List Nat) :=
  if fd < fdSetSize then ok (fd :: fds) else fault (.write fd)

def fdIsSet {ε : Type} (fds : List Nat) (fd : Nat) : Out ε Bool :=
  if fd < fdSetSize then ok (decide (fd ∈ fds)) else fault (.read fd)

/-! ## TcpListeningReceiveSocket -/

structure IpEndpointName where
  address : UInt64
  port : Int32
  deriving DecidableEq, Repr

/-- `sin_addr` and `sin_port`, in host order. -/
structure SockaddrIn where
  addr : UInt32
  port : UInt16
  deriving DecidableEq, Repr

/-- `INADDR_ANY` and the port 0 have names of their own. -/
def ipEndpointNameFromSockaddr (sockAddr : SockaddrIn) : IpEndpointName :=
  ⟨if sockAddr.addr = 0 then 0xFFFFFFFF else sockAddr.addr.toUInt64,
    if sockAddr.port = 0 then -1 else sockAddr.port.toUInt32.toInt32⟩

structure Connection where
  peer : IpEndpointName
  deframer : OscStreamDeframer

structure TcpListeningReceiveSocket where
  listenSocket : Nat
  maxFrameSize : UInt32
  break_ : Bool
  /-- The end that `Run` reads. -/
  breakPipe : Nat
  connections : Std.TreeMap Nat Connection

inductive Pc where
  | outside
  | loop
  | blocked (fdmax : Nat) (readfds : List Nat)
  | servicing (ready : List Nat)
  deriving DecidableEq, Repr

namespace TcpListeningReceiveSocket

def mk' (listenSocket breakPipe : Nat) (maxFrameSize : UInt32) : TcpListeningReceiveSocket :=
  ⟨listenSocket, maxFrameSize, false, breakPipe, ∅⟩

/-- `fdmax` and `readfds` in front of `select()`. -/
def watched {ε : Type} (s : TcpListeningReceiveSocket) : Out ε (Nat × List Nat) := do
  let readfds ← fdSet s.listenSocket []
  let readfds ← fdSet s.breakPipe readfds
  let readfds ← s.connections.keys.foldlM (fun fds fd => fdSet fd fds) readfds
  ok (s.connections.keys.foldl max (max s.listenSocket s.breakPipe), readfds)

/-- The connections to service; they are collected before any is erased. -/
def collectReady {ε : Type} (s : TcpListeningReceiveSocket) (readfds : List Nat) : Out ε (List Nat) :=
  s.connections.keys.foldlM (fun ready fd => do
    let isSet ← fdIsSet readfds fd
    ok (if isSet then ready ++ [fd] else ready)) []

/-- `AcceptConnection` behind `accept()`; `header` is what the new deframer's `header_` holds. -/
def acceptConnection (s : TcpListeningReceiveSocket) (conn : Nat) (peerAddr : SockaddrIn) (header : Vector UInt8 4) :
    TcpListeningReceiveSocket :=
  let connection := ⟨ipEndpointNameFromSockaddr peerAddr, .mk' s.maxFrameSize.toNat header⟩
  { s with connections := s.connections.insertIfNew conn connection }

def closeConnection (s : TcpListeningReceiveSocket) (fd : Nat) : TcpListeningReceiveSocket :=
  { s with connections := s.connections.erase fd }

end TcpListeningReceiveSocket

def Pc.next : List Nat → Pc
  | [] => .loop
  | fd :: rest => .servicing (fd :: rest)

/-- `(int)size`, of a `uint32_t`. -/
def asInt (size : Nat) : Int := (Int32.ofNat size).toInt

end OscTap.Tcp
