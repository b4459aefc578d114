/-
  OscTap.Listener.PacketListener — dispatching a packet (`osctap/osc/OscPacketListener.h`).

  `processPacket` and `processBundle` over the state of a running call: the listener's two
  members and a record of what the call did (`Event`), in order. What the subclass does in
  `ProcessMessage` is a parameter: given the record so far and the message, it returns or
  throws. An exception carries the state at the throw, as the object that the caller still
  holds; `depthGuard` is the destructor of the scope guard, on both ways out.
-/
import OscTap.Received.Reader

namespace OscTap.Listener

open OscTap.Lib OscTap.Lib.Out OscTap.Osc OscTap.Received

structure OscPacketListener where
  bundleNestingDepth : Nat
  maxBundleNestingDepth : Nat
  deriving DecidableEq, Repr

namespace OscPacketListener

def defaultMaxBundleNestingDepth : Nat := 64

def fresh : OscPacketListener := ⟨0, defaultMaxBundleNestingDepth⟩

def setMaxBundleNestingDepth (l : OscPacketListener) (depth : Nat) : OscPacketListener :=
  { l with maxBundleNestingDepth := depth }

end OscPacketListener

inductive Event where
  /-- `ProcessMessage` was called. -/
  | message (r : ReceivedMessage)
  /-- `ProcessBundle` returned at once: nested too deeply. -/
  | skipped (b : ReceivedBundle)
  deriving DecidableEq, Repr

inductive Thrown where
  | exn (e : Exn)
  /-- From `ProcessMessage`. -/
  | handler
  deriving DecidableEq, Repr

structure Dispatch where
  listener : OscPacketListener
  trace : List Event
  deriving DecidableEq, Repr

/-- Whether `ProcessMessage` throws. -/
abbrev Handler := List Event → ReceivedMessage → Bool

namespace Dispatch

def record (s : Dispatch) (e : Event) : Dispatch := { s with trace := s.trace ++ [e] }

def enter (s : Dispatch) : Dispatch :=
  { s with listener := { s.listener with bundleNestingDepth := s.listener.bundleNestingDepth + 1 } }

def leave (s : Dispatch) : Dispatch :=
  { s with listener := { s.listener with bundleNestingDepth := s.listener.bundleNestingDepth - 1 } }

end Dispatch

/-- Run a parser: its exception leaves the state as it is. -/
def parse {α : Type} (s : Dispatch) (x : Out Exn α) : Out (Thrown × Dispatch) α := x.mapErr fun e => (.exn e, s)

def depthGuard (x : Dispatch → Out (Thrown × Dispatch) Dispatch) (s : Dispatch) : Out (Thrown × Dispatch) Dispatch :=
  match x s.enter with
  | ok s => ok s.leave
  | err (e, s) => err (e, s.leave)
  | fault f => fault f

def processMessage (handler : Handler) (r : ReceivedMessage) (s : Dispatch) : Out (Thrown × Dispatch) Dispatch :=
  if handler s.trace r then err (.handler, s.record (.message r)) else ok (s.record (.message r))

def processElements (m : Bytes) (element : Nat → Dispatch → Out (Thrown × Dispatch) Dispatch) (end_ : Nat) :
    Nat → Nat → Dispatch → Out (Thrown × Dispatch) Dispatch
  | n, it, s =>
    if it = end_ then ok s
    else
      match n with
      | 0 => fault .diverge
      | n + 1 => do
        let s ← element it s
        let next ← parse s (elementAdvance m it)
        processElements m element end_ n next s

/-- Construct the bundle or the message at `p` and process it; `bundle` is `ProcessBundle`. -/
def processContents (m : Bytes) (handler : Handler) (bundle : ReceivedBundle → Dispatch →
    Out (Thrown × Dispatch) Dispatch)
    (p : Nat) (size : Int) (s : Dispatch) : Out (Thrown × Dispatch) Dispatch := do
  let isBundle ← isBundle m p size
  if isBundle then do
    let b ← parse s (ReceivedBundle.mk' m p size)
    bundle b s
  else do
    let r ← parse s (ReceivedMessage.mk' m p size)
    processMessage handler r s

/-- `ProcessBundle`; the fuel bounds the recursion. -/
def processBundle (m : Bytes) (handler : Handler) (fuel : Nat) (b : ReceivedBundle) (s : Dispatch) :
    Out (Thrown × Dispatch) Dispatch :=
  if s.listener.maxBundleNestingDepth ≤ s.listener.bundleNestingDepth then ok (s.record (.skipped b))
  else
    match fuel with
    | 0 => fault .diverge
    | fuel + 1 =>
      depthGuard (processElements m (fun i s => do
        let size ← parse s (elementSize m i)
        processContents m handler (processBundle m handler fuel) (i + 4) size s)
        b.elementsEnd m.length b.elementsBegin) s

def processPacket (m : Bytes) (handler : Handler) (size : Int) (s : Dispatch) : Out (Thrown × Dispatch) Dispatch := do
  let packet ← parse s (ReceivedPacket.mk' 0 size)
  processContents m handler (processBundle m handler s.listener.maxBundleNestingDepth) packet.contents packet.size s

/-- The states of a listener between calls: after construction, after any number of calls of
    `SetMaxBundleNestingDepth`, and after any number of packets, whether the call returned or
    left by an exception, whatever `ProcessMessage` did. -/
inductive Reachable : OscPacketListener → Prop
  | fresh : Reachable .fresh
  | setMax {l : OscPacketListener} (depth : Nat) : Reachable l → Reachable (l.setMaxBundleNestingDepth depth)
  | returned {l : OscPacketListener} {m : Bytes} {handler : Handler} {size : Int} {s : Dispatch} : Reachable l →
      m.length = size.toNat → processPacket m handler size ⟨l, []⟩ = ok s → Reachable s.listener
  | threw {l : OscPacketListener} {m : Bytes} {handler : Handler} {size : Int} {e : Thrown}
    {s : Dispatch} : Reachable l →
      m.length = size.toNat → processPacket m handler size ⟨l, []⟩ = err (e, s) → Reachable s.listener

end OscTap.Listener
