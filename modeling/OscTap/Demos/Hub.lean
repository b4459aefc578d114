/-
  OscTap.Demos.Hub — the router between a controller and a device (`demos/pi5_hub.cpp`).

  The hub listens on a UDP socket. It writes `/hub/<x>` anew as `/<x>` for the Pico and
  `/sensor/<x>` as `/ui/<x>` for Android, with those arguments that it knows how to copy, in a
  buffer of 256 bytes on the stack, and hands the packet to `Forward`. What it prints is left out,
  and so is what becomes of a datagram that it sends. An exception of the parser or of the stream
  is caught around the whole datagram, so a message that is too long for the buffer takes with it
  those behind it in its bundle.

  Proved: `hub_forwards`: over every run of the receive loop, whatever arrives, the hub forwards of
  each datagram in turn what there is to forward, message by message, up to the first element that
  cannot be read; and whoever receives it reads the message that was meant.
-/
import OscTap.Ip.Datagrams
import OscTap.Listener.Plan
import OscTap.Outbound.Sender
import OscTap.Received.Inspect

namespace OscTap.Demos

open OscTap.Lib OscTap.Lib.Out OscTap.Osc OscTap.Received OscTap.Outbound OscTap.Listener OscTap.Tcp

inductive Exn where
  | received (e : Received.Exn)
  | outbound (e : Outbound.Exn)
  deriving DecidableEq, Repr

structure Forwarded where
  destination : IpEndpointName
  packet : Bytes
  deriving DecidableEq, Repr

structure HubListener where
  pico : IpEndpointName
  android : IpEndpointName
  deriving DecidableEq, Repr

def hubPath : Bytes := [ch '/', ch 'h', ch 'u', ch 'b', ch '/']

def sensorPath : Bytes := [ch '/', ch 's', ch 'e', ch 'n', ch 's', ch 'o', ch 'r', ch '/']

def uiPath : Bytes := [ch '/', ch 'u', ch 'i', ch '/']

/-- The C string that begins some bytes. -/
def cStr (bytes : Bytes) : CStr := ⟨bytes.takeWhile (· ≠ 0), fun h => by simpa using List.mem_takeWhile_imp h⟩

/-- A call on the stream; the stream is gone when it throws. -/
def stream {α : Type} (x : Out (Outbound.Exn × OutboundPacketStream) α) : Out Exn α := x.mapErr fun e => .outbound e.1

def receive {α : Type} (x : Out Received.Exn α) : Out Exn α := x.mapErr .received

def copyArg (m : Bytes) (a : ReceivedMessageArgument) (p : OutboundPacketStream) : Out Exn OutboundPacketStream := do
  let isInt32 ← receive (a.isInt32 m)
  if isInt32 then do
    let v ← receive (a.asInt32Unchecked m)
    stream (p.int32 v)
  else do
    let isFloat ← receive (a.isFloat m)
    if isFloat then do
      let v ← receive (a.asFloatUnchecked m)
      stream (p.float v)
    else do
      let isString ← receive (a.isString m)
      if isString then do
        let s ← receive (readString m a.asStringUnchecked)
        stream (p.cString (cStr s))
      else do
        let isBool ← receive (a.isBool m)
        if isBool then do
          let b ← receive (a.asBoolUnchecked m)
          stream (p.bool b)
        else ok p

def copyArgs (m : Bytes) (end_ : ReceivedMessageArgument) : Nat → ReceivedMessageArgument → OutboundPacketStream →
    Out Exn OutboundPacketStream
  | n, a, p =>
    if a.typeTagPtr = end_.typeTagPtr then ok p
    else
      match n with
      | 0 => fault .diverge
      | n + 1 => do
        let p ← copyArg m a p
        let next ← receive (advance m a)
        copyArgs m end_ n next p

/-- The message under another address, in the buffer `out`. -/
def readdress (out : Bytes) (m : Bytes) (r : ReceivedMessage) (addressPattern : CStr) : Out Exn Bytes := do
  let p ← stream ((OutboundPacketStream.mk' out).beginMessage addressPattern)
  let p ← copyArgs m r.argumentsEnd m.length r.argumentsBegin p
  let p ← stream p.endMessage
  ok p.packet

namespace HubListener

variable (hub : HubListener)

def processMessage (out : Bytes) (m : Bytes) (r : ReceivedMessage) : Out Exn (List Forwarded) := do
  let addr ← receive (rdCString m r.addressPattern)
  if addr.take 5 = hubPath then do
    let packet ← readdress out m r (cStr (addr.drop 4))
    ok [⟨hub.pico, packet⟩]
  else if addr.take 8 = sensorPath then do
    let packet ← readdress out m r (cStr (uiPath ++ addr.drop 8))
    ok [⟨hub.android, packet⟩]
  else ok []

/-- What the calls of a record forward, each with what its stack holds; the one that throws forwards nothing. -/
def forwards (out : List Event → Bytes) (m : Bytes) : List Event → List Event → Out Empty (List Forwarded)
  | _, [] => ok []
  | before, .message r :: behind =>
    match hub.processMessage (out before) m r with
    | ok first => do
      let rest ← forwards out m (before ++ [.message r]) behind
      ok (first ++ rest)
    | err _ => forwards out m (before ++ [.message r]) behind
    | fault f => fault f
  | before, .skipped b :: behind => forwards out m (before ++ [.skipped b]) behind

def handler (out : List Event → Bytes) (m : Bytes) : Handler := fun before r =>
  match hub.processMessage (out before) m r with
  | err _ => true
  | _ => false

/-- `ProcessPacket`: what `OscPacketListener::ProcessPacket` throws is caught. -/
def processPacket (out : List Event → Bytes) (l : OscPacketListener) (data : Bytes) (size : Int) :
    Out Empty (OscPacketListener × List Forwarded) :=
  match Listener.processPacket data (hub.handler out data) size ⟨l, []⟩ with
  | ok s | err (_, s) => do
    let forwarded ← hub.forwards out data [] s.trace
    ok (s.listener, forwarded)
  | fault f => fault f

/-- The calls for a socket, one after the other; the stack holds something else for each. -/
def processPackets (out : Nat → List Event → Bytes) : List (Bytes × Int × IpEndpointName) → OscPacketListener →
    Out Empty (OscPacketListener × List Forwarded)
  | [], l => ok (l, [])
  | call :: calls, l => do
    let x ← hub.processPacket (out calls.length) l call.1 call.2.1
    let y ← processPackets out calls x.1
    ok (y.1, x.2 ++ y.2)

/-! ## What there is to forward -/

def copied : ArgValue → Bool
  | .int32 _ | .float _ | .string _ | .bool _ => true
  | _ => false

/-- Where a message goes, and as what. -/
def route : PacketTree → Option (IpEndpointName × PacketTree)
  | .message address arguments =>
    if address.take 5 = hubPath then some (hub.pico, .message (address.drop 4) (arguments.filter copied))
    else if address.take 8 = sensorPath then some (hub.android,
      .message (uiPath ++ address.drop 8) (arguments.filter copied))
    else none
  | .bundle _ _ => none

/-- The messages of a datagram that are forwarded, up to the first that is too long. -/
def routes (ts : List PacketTree) : List (IpEndpointName × PacketTree) :=
  (ts.takeWhile fun t => (hub.route t).all fun x => x.2.enc.length ≤ 256).filterMap hub.route

end HubListener

/-! ## Copying the arguments -/

def copies : ArgValue → Option Operand
  | .int32 v => some (.int32 v)
  | .float bits => some (.float bits)
  | .string s => some (.cString (cStr s))
  | .bool b => some (.bool b)
  | _ => none

def copyOps (arguments : List ArgValue) : List Op := (arguments.filterMap copies).map .append

variable {m : Bytes}

theorem copyArg_eq {a : ReceivedMessageArgument} {tag : UInt8} {v : ArgValue} (h : readTagged m a = ok (tag, v))
    (p : OutboundPacketStream) :
    copyArg m a p = stream (match copies v with | some rhs => append p rhs | none => ok p) := by
  obtain ⟨c, hc, h⟩ := bind_eq_ok.mp h
  obtain ⟨w, hw, h⟩ := bind_eq_ok.mp h
  obtain ⟨rfl, rfl⟩ := Prod.mk.inj (Out.ok.inj h)
  have hquery : ∀ t : TypeTag, a.isTag m t = ok (c == t.value) :=
    fun t => by rw [ReceivedMessageArgument.isTag, hc, ok_bind]
  rw [readUnchecked, hc, ok_bind] at hw
  cases ht : TypeTag.ofByte c with
  | none => rw [ht] at hw; cases hw
  | some t =>
    obtain rfl := TypeTag.ofByte_eq_some.mp ht
    rw [ht] at hw
    simp only [copyArg, ReceivedMessageArgument.isInt32, ReceivedMessageArgument.isFloat,
      ReceivedMessageArgument.isString, ReceivedMessageArgument.isBool, hquery, receive, mapErr_ok, ok_bind]
    cases t with
    | int32Tag =>
      obtain ⟨v, hv, rfl⟩ := map_eq_ok.mp hw
      simp only [hv]
      rfl
    | floatTag =>
      obtain ⟨v, hv, rfl⟩ := map_eq_ok.mp hw
      simp only [hv]
      rfl
    | stringTag =>
      obtain ⟨v, hv, rfl⟩ := map_eq_ok.mp hw
      simp only [hv]
      rfl
    | trueTag | falseTag =>
      obtain ⟨v, hv, rfl⟩ := map_eq_ok.mp hw
      simp only [hv]
      rfl
    | nilTag | infinitumTag | arrayBeginTag | arrayEndTag =>
      obtain rfl := Out.ok.inj hw
      rfl
    | charTag | rgbaColorTag | midiMessageTag | int64Tag | timeTagTag | doubleTag | symbolTag =>
      obtain ⟨v, -, rfl⟩ := map_eq_ok.mp hw
      rfl
    | blobTag =>
      obtain ⟨b, -, hw⟩ := bind_eq_ok.mp hw
      obtain ⟨v, -, rfl⟩ := map_eq_ok.mp hw
      rfl

theorem stream_bind {α β : Type} (x : Out (Outbound.Exn × OutboundPacketStream) α)
    (f : α → Out (Outbound.Exn × OutboundPacketStream) β) :
    stream (x >>= f) = stream x >>= fun a => stream (f a) := mapErr_bind x f

/-- The loop makes the calls of what it copies. -/
theorem copyArgs_eq {end_ : ReceivedMessageArgument} : ∀ {n : Nat} {a : ReceivedMessageArgument}
    {walk : List (ReceivedMessageArgument × UInt8 × ArgValue) × ReceivedMessageArgument},
    walkArguments m (readTagged m) end_ n a = ok walk →
    ∀ p, copyArgs m end_ n a p = stream (runAll apply (copyOps (walk.1.map (·.2.2))) p) := by
  intro n
  induction n with
  | zero =>
    intro a walk h p
    rw [walkArguments] at h
    rw [copyArgs]
    split
    · rw [if_pos ‹_›] at h
      obtain rfl := Out.ok.inj h
      rfl
    · rw [if_neg ‹_›] at h
      cases h
  | succ n ih =>
    intro a walk h p
    rw [walkArguments] at h
    rw [copyArgs]
    split
    · rw [if_pos ‹_›] at h
      obtain rfl := Out.ok.inj h
      rfl
    · rw [if_neg ‹_›] at h
      obtain ⟨⟨tag, v⟩, hv, h⟩ := bind_eq_ok.mp h
      obtain ⟨next, hnext, h⟩ := bind_eq_ok.mp h
      obtain ⟨⟨rest, last⟩, hrest, h⟩ := bind_eq_ok.mp h
      obtain rfl := Out.ok.inj h
      dsimp only
      rw [copyArg_eq hv, hnext, receive, mapErr_ok]
      simp only [ok_bind, ih hrest]
      cases hcopy : copies v with
      | none => simp [copyOps, hcopy, stream]
      | some rhs =>
        have hops : copyOps (((a, tag, v) :: rest).map (·.2.2)) = .append rhs :: copyOps (rest.map (·.2.2)) := by
          simp [copyOps, hcopy]
        rw [hops, runAll, List.foldlM_cons, stream_bind]
        rfl

def readdressOps (addressPattern : CStr) (arguments : List ArgValue) : List Op :=
  .beginMessage addressPattern :: (copyOps arguments ++ [.endMessage])

theorem readdress_eq {out : Bytes} {r : ReceivedMessage} {d : Decoded} (h : r.decode m = ok d) (addressPattern : CStr) :
    readdress out m r addressPattern =
      stream (runAll apply (readdressOps addressPattern d.arguments) (OutboundPacketStream.mk' out)) >>= fun p =>
        ok p.packet := by
  obtain ⟨address, -, h⟩ := bind_eq_ok.mp h
  obtain ⟨walk, hwalk, h⟩ := bind_eq_ok.mp h
  obtain rfl := Out.ok.inj h
  simp only [readdress, readdressOps, copyArgs_eq hwalk, runAll, List.foldlM_cons, List.foldlM_append,
    List.foldlM_nil, stream, mapErr_bind, bind_assoc, mapErr_ok, ok_bind, pure_eq]
  rfl

/-! ## One message -/

theorem walk_reads {β : Type} {f : ReceivedMessageArgument → Out Received.Exn β} {end_ : ReceivedMessageArgument} :
    ∀ {n : Nat} {a : ReceivedMessageArgument} {walk : List (ReceivedMessageArgument × β) × ReceivedMessageArgument},
    walkArguments m f end_ n a = ok walk → ∀ x ∈ walk.1, f x.1 = ok x.2 := by
  intro n
  induction n with
  | zero =>
    intro a walk h
    rw [walkArguments] at h
    split at h
    · obtain rfl := Out.ok.inj h
      intro x hx
      simp at hx
    · cases h
  | succ n ih =>
    intro a walk h
    rw [walkArguments] at h
    split at h
    · obtain rfl := Out.ok.inj h
      intro x hx
      simp at hx
    · obtain ⟨b, hb, h⟩ := bind_eq_ok.mp h
      obtain ⟨next, -, h⟩ := bind_eq_ok.mp h
      obtain ⟨⟨rest, last⟩, hrest, h⟩ := bind_eq_ok.mp h
      obtain rfl := Out.ok.inj h
      exact List.forall_mem_cons.mpr ⟨hb, ih hrest⟩

theorem readTagged_string {a : ReceivedMessageArgument} {tag : UInt8} {s : Bytes}
    (h : readTagged m a = ok (tag, .string s)) :
    ∃ p, CStrAt m p s := by
  obtain ⟨c, hc, h⟩ := bind_eq_ok.mp h
  obtain ⟨v, hv, h⟩ := bind_eq_ok.mp h
  obtain ⟨-, rfl⟩ := Prod.mk.inj (Out.ok.inj h)
  rw [readUnchecked, hc, ok_bind] at hv
  cases ht : TypeTag.ofByte c with
  | none => rw [ht] at hv; cases hv
  | some t =>
    rw [ht] at hv
    cases t with
    | stringTag =>
      obtain ⟨s', hs, he⟩ := map_eq_ok.mp hv
      obtain rfl := ArgValue.string.inj he
      obtain ⟨p, -, hp⟩ := bind_eq_ok.mp hs
      exact ⟨p, cStrAt_of_read hp⟩
    | nilTag | infinitumTag | arrayBeginTag | arrayEndTag => cases hv
    | blobTag =>
      obtain ⟨b, -, hv⟩ := bind_eq_ok.mp hv
      obtain ⟨data, -, he⟩ := map_eq_ok.mp hv
      cases he
    | _ =>
      obtain ⟨v', -, he⟩ := map_eq_ok.mp hv
      cases he

/-- What is read of a message: C strings that lie in the buffer. -/
theorem decode_strings {r : ReceivedMessage} {d : Decoded} (h : r.decode m = ok d) :
    (0 ∉ d.address ∧ d.address.length < m.length) ∧ ∀ s, .string s ∈ d.arguments → 0 ∉ s ∧ s.length < m.length := by
  obtain ⟨address, haddress, h⟩ := bind_eq_ok.mp h
  obtain ⟨walk, hwalk, h⟩ := bind_eq_ok.mp h
  obtain rfl := Out.ok.inj h
  have hin : ∀ {p : Nat} {s : Bytes}, CStrAt m p s → 0 ∉ s ∧ s.length < m.length :=
    fun h => ⟨h.noNul, by have := h.lt; omega⟩
  refine ⟨hin (cStrAt_of_read haddress), fun s hs => ?_⟩
  obtain ⟨⟨a, tag, v⟩, hmem, rfl⟩ := List.mem_map.mp hs
  obtain ⟨p, hp⟩ := readTagged_string (walk_reads hwalk _ hmem)
  exact hin hp

theorem cStr_bytes {s : Bytes} (h : 0 ∉ s) : (cStr s).bytes = s :=
  List.takeWhile_eq_self_iff.mpr fun c hc => by simpa using fun h0 : c = 0 => h (h0 ▸ hc)

theorem copies_pass {arguments : List ArgValue} (h : ∀ s, .string s ∈ arguments → 0 ∉ s) :
    List.Forall₂ Passes (arguments.filter HubListener.copied) (arguments.filterMap copies) := by
  induction arguments with
  | nil => exact .nil
  | cons v vs ih =>
    have hrest := ih fun s hs => h s (List.mem_cons_of_mem _ hs)
    cases v with
    | int32 v => exact .cons (.int32 v) hrest
    | float bits => exact .cons (.float bits) hrest
    | bool b => exact .cons (.bool b) hrest
    | string s =>
      have hs := Passes.cString (cStr s)
      rw [cStr_bytes (h s (List.mem_cons_self ..))] at hs
      exact .cons hs hrest
    | _ => exact hrest

/-- A message is written anew, if there is room for it. -/
theorem readdress_spec {out : Bytes} (hout : out.length = 256) (hm : m.length < 2 ^ 31)
    {r : ReceivedMessage} {d : Decoded} (h : r.decode m = ok d) {address : Bytes} (haddr : 0 ∉ address)
    (hlen : address.length < m.length + 4) :
    readdress out m r (cStr address) =
      (if (PacketTree.message address (d.arguments.filter HubListener.copied)).enc.length ≤ 256
      then ok (PacketTree.message address (d.arguments.filter HubListener.copied)).enc
      else err (.outbound .outOfBufferMemory)) := by
  obtain ⟨-, hstrings⟩ := decode_strings h
  have hstreams : Streams (.message address (d.arguments.filter HubListener.copied))
    (readdressOps (cStr address) d.arguments) := by
    rw [Streams]
    refine ⟨_, _, ?_, copies_pass fun s hs => (hstrings s hs).1, rfl⟩
    have hb := Begins.beginMessage (cStr address)
    rwa [cStr_bytes haddr] at hb
  have hfits : ∀ op ∈ readdressOps (cStr address) d.arguments, op.Fits := by
    intro op hop
    rcases List.mem_cons.mp hop with rfl | hop
    · show (cStr address).bytes.length + 4 < 2 ^ 32
      rw [cStr_bytes haddr]
      omega
    · rcases List.mem_append.mp hop with hop | hop
      · obtain ⟨rhs, hrhs, rfl⟩ := List.mem_map.mp hop
        obtain ⟨v, hv, hcopy⟩ := List.mem_filterMap.mp hrhs
        cases v with
        | string s =>
          obtain rfl := Option.some.inj hcopy
          obtain ⟨h0, hlt⟩ := hstrings s hv
          show (cStr s).bytes.length + 4 < 2 ^ 32
          rw [cStr_bytes h0]
          omega
        | int32 v | float v | bool v => obtain rfl := Option.some.inj hcopy; trivial
        | _ => cases hcopy
      · rw [List.mem_singleton.mp hop]
        trivial
  obtain ⟨s, hbuild, -⟩ := build_spec (by omega) (mk'_ordered out) hstreams hfits
  rw [build, show (OutboundPacketStream.mk' out).clear = .mk' out from rfl, fitted, hout] at hbuild
  rw [readdress_eq h]
  cases hrun : runAll apply (readdressOps (cStr address) d.arguments) (.mk' out) with
  | ok p =>
    rw [hrun] at hbuild
    obtain ⟨-, hpacket⟩ := Prod.mk.inj (Out.ok.inj hbuild)
    split at hpacket
    · rw [stream, mapErr_ok, ok_bind, Except.ok.inj hpacket, if_pos ‹_›]
    · cases hpacket
  | err e =>
    rw [hrun] at hbuild
    obtain ⟨-, hpacket⟩ := Prod.mk.inj (Out.ok.inj hbuild)
    split at hpacket
    · cases hpacket
    · rw [stream, mapErr_err, err_bind, Except.error.inj hpacket, if_neg ‹_›]
  | fault f => rw [hrun] at hbuild; cases hbuild

def HubListener.expected (hub : HubListener) (t : PacketTree) : Out Exn (List Forwarded) :=
  match hub.route t with
  | none => ok []
  | some x => if x.2.enc.length ≤ 256 then ok [⟨x.1, x.2.enc⟩] else err (.outbound .outOfBufferMemory)

variable {hub : HubListener}

theorem processMessage_spec {out : Bytes} (hout : out.length = 256) (hm : m.length < 2 ^ 31) {r : ReceivedMessage}
    {t : PacketTree} (h : Seen m (.message r) t) : hub.processMessage out m r = hub.expected t := by
  cases h with
  | @message _ d hd =>
    obtain ⟨⟨h0, hlt⟩, -⟩ := decode_strings hd
    obtain ⟨address, haddress, hrest⟩ := bind_eq_ok.mp hd
    obtain ⟨walk, -, hdecoded⟩ := bind_eq_ok.mp hrest
    have hsame : d.address = address := (congrArg Decoded.address (Out.ok.inj hdecoded)).symm
    rw [HubListener.processMessage, haddress, receive, mapErr_ok, ok_bind, HubListener.expected,
      HubListener.route, ← hsame]
    split
    · rw [readdress_spec hout hm hd (fun h => h0 (List.mem_of_mem_drop h)) (by rw [List.length_drop]; omega)]
      dsimp only
      split <;> rfl
    · split
      · have hui : (0 : UInt8) ∉ uiPath ++ d.address.drop 8 := by
          rw [List.mem_append, not_or]
          exact ⟨by decide, fun h => h0 (List.mem_of_mem_drop h)⟩
        rw [readdress_spec hout hm hd hui
          (by rw [List.length_append, List.length_drop, show uiPath.length = 4 from rfl]; omega)]
        dsimp only
        split <;> rfl
      · rfl

/-- Without the arrays there is nothing to nest. -/
theorem copied_nested (arguments : List ArgValue) :
    Nested bracket ((arguments.filter HubListener.copied).map ArgValue.tag) := by
  induction arguments with
  | nil => exact .nil
  | cons v vs ih =>
    cases v with
    | bool b => cases b <;> exact .item rfl ih
    | int32 v | float v | string v => exact .item rfl ih
    | _ => exact ih

theorem head_of_take {path address : Bytes} {c : UInt8} {n : Nat} (h : address.take (n + 1) = path)
    (hc : path[n]? = some c) :
    (address.drop n).head? = some c := by
  rw [List.head?_drop, ← hc, ← h, List.getElem?_take_of_succ]

theorem sendable_message {e : Event} {address : Bytes} {arguments : List ArgValue}
    (h : Seen m e (.message address arguments)) {path : Bytes} (hpath : 0 ∉ path)
    (hhead : path.head? ≠ some (ch '#')) :
    (PacketTree.message path (arguments.filter HubListener.copied)).Sendable := by
  cases h with
  | message hd =>
    obtain ⟨-, hstrings⟩ := decode_strings hd
    rw [PacketTree.Sendable]
    refine ⟨⟨hpath, hhead⟩, fun v hv => ?_, copied_nested _⟩
    obtain ⟨hmem, hcopied⟩ := List.mem_filter.mp hv
    cases v with
    | string s => exact (hstrings s hmem).1
    | int32 v | float v | bool v => trivial
    | _ => cases hcopied

/-- A message that is sent can be read by whoever receives it. -/
theorem route_sendable {e : Event} {t : PacketTree} (h : Seen m e t) {x : IpEndpointName × PacketTree}
    (hx : hub.route t = some x) :
    x.2.Sendable ∧ x.2.nesting = 0 := by
  cases t with
  | bundle => cases hx
  | message address arguments =>
    have h0 : 0 ∉ address := by
      cases h with
      | message hd => exact (decode_strings hd).1.1
    rw [HubListener.route] at hx
    split at hx
    · obtain rfl := Option.some.inj hx
      refine ⟨sendable_message h (fun h => h0 (List.mem_of_mem_drop h)) ?_, rfl⟩
      rw [head_of_take ‹_› (c := ch '/') rfl]
      decide
    · split at hx
      · obtain rfl := Option.some.inj hx
        refine ⟨sendable_message h ?_ (show some (ch '/') ≠ some (ch '#') by decide), rfl⟩
        rw [List.mem_append, not_or]
        exact ⟨by decide, fun h => h0 (List.mem_of_mem_drop h)⟩
      · cases hx

/-! ## One datagram -/

def datagrams (xs : List (IpEndpointName × PacketTree)) : List Forwarded := xs.map fun x => ⟨x.1, x.2.enc⟩

namespace HubListener

variable {t : PacketTree} {ts : List PacketTree} {x : IpEndpointName × PacketTree}

theorem routes_skip (h : hub.route t = none) : hub.routes (t :: ts) = hub.routes ts := by simp [routes, h]

theorem routes_send (h : hub.route t = some x) (hlen : x.2.enc.length ≤ 256) :
    hub.routes (t :: ts) = x :: hub.routes ts := by
  simp [routes, h, hlen]

theorem routes_stop (h : hub.route t = some x) (hlen : ¬ x.2.enc.length ≤ 256) : hub.routes (t :: ts) = [] := by
    simp [routes, h, hlen]

end HubListener

/-- The calls of a datagram's messages, up to the one that throws. -/
theorem forwards_spec {out : List Event → Bytes} (hout : ∀ before, (out before).length = 256) (hm : m.length < 2 ^ 31)
    {events : List Event} {ts : List PacketTree} (h : List.Forall₂ (Seen m) events ts) : ∀ before, ∃ behind,
    (events.foldlM (perform (hub.handler out m)) before = ok (before ++ behind) ∨
      events.foldlM (perform (hub.handler out m)) before = err (.handler, before ++ behind)) ∧
      hub.forwards out m before behind = ok (datagrams (hub.routes ts)) := by
  induction h with
  | nil => exact fun before => ⟨[], .inl (by rw [List.append_nil]; rfl), rfl⟩
  | @cons e t events ts hseen _ ih =>
    intro before
    obtain ⟨behind, hrun, hforwards⟩ := ih (before ++ [e])
    -- an event that does not throw, in front of the others
    have hgo : perform (hub.handler out m) before e = ok (before ++ [e]) →
        (e :: events).foldlM (perform (hub.handler out m)) before = ok (before ++ e :: behind) ∨
          (e :: events).foldlM (perform (hub.handler out m)) before = err (.handler, before ++ e :: behind) := by
      intro h
      rw [List.foldlM_cons, h, ok_bind]
      simpa using hrun
    cases e with
    | skipped b =>
      have hnone : hub.route t = none := by
        cases hseen
        rfl
      exact ⟨_, hgo rfl, by rw [HubListener.forwards, hforwards, HubListener.routes_skip hnone]⟩
    | message r =>
      have hone : hub.processMessage (out before) m r = hub.expected t := processMessage_spec (hout before) hm hseen
      rw [HubListener.expected] at hone
      cases hroute : hub.route t with
      | none =>
        rw [hroute] at hone
        refine ⟨_, hgo ?_, by rw [HubListener.forwards, hone, hforwards, HubListener.routes_skip hroute]; rfl⟩
        rw [perform, HubListener.handler, hone]
        rfl
      | some x =>
        rw [hroute] at hone
        by_cases hlen : x.2.enc.length ≤ 256
        · replace hone := hone.trans (if_pos hlen)
          refine ⟨_, hgo ?_, by rw [HubListener.forwards, hone, hforwards, HubListener.routes_send hroute hlen]; rfl⟩
          rw [perform, HubListener.handler, hone]
          rfl
        · replace hone := hone.trans (if_neg hlen)
          refine ⟨[.message r], .inr ?_, by rw [HubListener.forwards, hone, HubListener.routes_stop hroute hlen]; rfl⟩
          rw [List.foldlM_cons, perform, HubListener.handler, hone]
          rfl

/-- One datagram: the listener is as it was, and what there is to forward of what is found in the
    bytes has been forwarded. -/
theorem processPacket_spec {l : OscPacketListener} (hr : Reachable l) {out : List Event → Bytes}
    (hout : ∀ before, (out before).length = 256) {data : Bytes} {size : Int} (hsize : data.length = size.toNat)
    (hlt : data.length < 2 ^ 31) :
    ∃ events, ∀ ts whole, Found data l.maxBundleNestingDepth 0 size ts whole →
      List.Forall₂ (Seen data) events ts ∧ hub.processPacket out l data size = ok (l, datagrams (hub.routes ts)) := by
  obtain ⟨plan, hreplay, hcovers⟩ := packet_plan hr data size hsize
  refine ⟨plan.events, fun ts whole hfound => ?_⟩
  have hts := (hcovers ts whole hfound).2
  obtain ⟨behind, hfold, hforwards⟩ := @forwards_spec _ hub _ hout hlt _ _ hts []
  rw [List.nil_append] at hfold
  refine ⟨hts, ?_⟩
  rw [HubListener.processPacket, hreplay, Plan.replay]
  rcases hfold with hfold | hfold
  · rw [hfold, ok_bind]
    cases plan.stop <;> simp [onListener, hforwards]
  · rw [hfold, err_bind]
    simp [onListener, hforwards]

/-! ## All datagrams -/

def Forwarded.Readable (f : Forwarded) : Prop :=
  ∃ t r, f.packet = t.enc ∧ tryValidatePacket f.packet 0 f.packet.length 0 = ok () ∧
    readPacket f.packet f.packet.length = ok r ∧
    ReadsAs f.packet r t

theorem routes_mem {ts : List PacketTree} {x : IpEndpointName × PacketTree} (h : x ∈ hub.routes ts) :
    ∃ t ∈ ts, hub.route t = some x ∧ x.2.enc.length ≤ 256 := by
  obtain ⟨t, ht, hx⟩ := List.mem_filterMap.mp h
  refine ⟨t, (List.takeWhile_subset _) ht, hx, ?_⟩
  simpa [hx] using List.mem_takeWhile_imp ht

theorem exists_seen {events : List Event} {ts : List PacketTree} (h : List.Forall₂ (Seen m) events ts) :
    ∀ t ∈ ts, ∃ e, Seen m e t := by
  induction h with
  | nil => exact nofun
  | cons hseen _ ih => exact List.forall_mem_cons.mpr ⟨⟨_, hseen⟩, ih⟩

theorem datagrams_readable {events : List Event} {ts : List PacketTree} (h : List.Forall₂ (Seen m) events ts) :
    ∀ f ∈ datagrams (hub.routes ts), f.Readable := by
  intro f hf
  obtain ⟨x, hx, rfl⟩ := List.mem_map.mp hf
  obtain ⟨t, ht, hroute, hlen⟩ := routes_mem hx
  obtain ⟨e, hseen⟩ := exists_seen h t ht
  obtain ⟨hs, hnesting⟩ := route_sendable hseen hroute
  obtain ⟨r, hr, hreads⟩ := readPacket_enc hs (by omega)
  exact ⟨x.2, r, rfl, enc_accepted hs hnesting.le (by omega), hr, hreads⟩

/-- What is sent for a datagram: what there is to forward of what is found in the bytes that were
    received of it; and whoever receives it reads it. -/
def HubListener.Answers (hub : HubListener) (depth : Nat) (d : Ip.Multiplexer.Datagram) (fs : List Forwarded) : Prop :=
  (∀ f ∈ fs, f.Readable) ∧ ∀ ts whole, Found (d.bytes.take 4098) depth 0 (d.bytes.take 4098).length ts whole →
    fs = datagrams (hub.routes ts)

theorem processPackets_spec {l : OscPacketListener} (hr : Reachable l) {out : Nat → List Event → Bytes}
    (hout : ∀ n before, (out n before).length = 256) : ∀ (taken : List Ip.Multiplexer.Datagram),
    ∃ sent, hub.processPackets out (Ip.Multiplexer.delivered taken) l = ok (l, sent.flatten) ∧
      List.Forall₂ (hub.Answers l.maxBundleNestingDepth) taken sent
  | [] => ⟨[], rfl, .nil⟩
  | d :: taken => by
    obtain ⟨sent, hrun, hsent⟩ := processPackets_spec hr hout taken
    by_cases hempty : d.bytes = []
    · refine ⟨[] :: sent, ?_, .cons ⟨nofun, fun ts whole hfound => ?_⟩ hsent⟩
      · rw [show Ip.Multiplexer.delivered (d :: taken) =
          Ip.Multiplexer.delivered taken by simp [Ip.Multiplexer.delivered, hempty]]
        exact hrun
      · rw [hempty] at hfound
        rw [(hfound.nothing fun hs => absurd hs.1 (by simp)).1]
        rfl
    · have hcons : Ip.Multiplexer.delivered (d :: taken) = (d.bytes.take 4098, ((d.bytes.take 4098).length : Int),
          Ip.Multiplexer.remoteName d.fromAddr) :: Ip.Multiplexer.delivered taken := by
        simp [Ip.Multiplexer.delivered, Ip.Multiplexer.maxBufferSize, hempty]
      have hsize : (d.bytes.take 4098).length = ((d.bytes.take 4098).length : Int).toNat := rfl
      obtain ⟨events, hone⟩ := @processPacket_spec hub _ hr _ (hout (Ip.Multiplexer.delivered taken).length) _ _ hsize
        (by rw [List.length_take]; omega)
      obtain ⟨ts, whole, hfound⟩ := Found.total (d.bytes.take 4098) l.maxBundleNestingDepth 0 (d.bytes.take 4098).length
      obtain ⟨hseen, hpacket⟩ := hone ts whole hfound
      refine ⟨datagrams (hub.routes ts) :: sent, ?_,
        .cons ⟨datagrams_readable hseen, fun ts' whole' hfound' => ?_⟩ hsent⟩
      · rw [hcons, HubListener.processPackets, hpacket, ok_bind, hrun]
        rfl
      · exact (Prod.mk.inj (Out.ok.inj (hpacket.symm.trans (hone ts' whole' hfound').2))).2

/-- The hub at work: in any run of the receive loop it has forwarded, of the datagrams taken from
    its socket and in their order, the messages for the device and for the controller that stand
    in front of the first element that cannot be read, each under its new address, up to the first
    of a datagram that is too long; and all that it forwards can be read. -/
theorem hub_forwards (hub : HubListener) (sort : Ip.Timers.StdSort) {breakPipe : Nat} (hb : breakPipe < fdSetSize)
    {events : List Ip.Multiplexer.Event} (hf : ∀ e ∈ events, e.Fits)
    (hp : Throughout (Ip.Multiplexer.World.step sort) Ip.Multiplexer.Possible events (.start breakPipe)) (socket : Nat)
    {out : Nat → List Event → Bytes} (hout : ∀ n before, (out n before).length = 256) :
    ∃ w taken sent, runCaught (Ip.Multiplexer.World.step sort) events (.start breakPipe) = ok w ∧
      w.arrived socket = taken ++ (w.inboxes socket).queue ∧
      hub.processPackets out (Ip.Multiplexer.callsOn w.log socket) .fresh = ok (.fresh, sent.flatten) ∧
      List.Forall₂ (fun d fs => (∀ f ∈ fs, f.Readable) ∧
        (∃ ts whole, Found (d.bytes.take 4098) 64 0 (d.bytes.take 4098).length ts whole ∧
          fs = datagrams (hub.routes ts)) ∧
        ∀ t, d.bytes.length ≤ 4098 → Means d.bytes 0 d.bytes.length t →
          fs = datagrams (hub.routes (reached 64 t))) taken sent := by
  obtain ⟨w, he, hi⟩ := Ip.Multiplexer.run_inv sort hb hf hp
  obtain ⟨taken, harrived, hcalls⟩ := hi.served socket
  obtain ⟨sent, hrun, hsent⟩ := @processPackets_spec hub _ .fresh _ hout taken
  refine ⟨w, taken, sent, he, harrived, by rw [hcalls, hrun], hsent.imp fun d fs h => ⟨h.1, ?_, fun t hlen ht => ?_⟩⟩
  · obtain ⟨ts, whole, hfound⟩ := Found.total (d.bytes.take 4098) 64 0 (d.bytes.take 4098).length
    exact ⟨ts, whole, hfound, h.2 ts whole hfound⟩
  · rw [← List.take_of_length_le hlen] at ht
    exact h.2 _ _ (Means.found t ht)

def led : PacketTree := .message (hubPath ++ [ch 'l', ch 'e', ch 'd']) [.int32 1]

def ledRun : List Ip.Multiplexer.Event :=
  [.attachSocketListener 5 0, .arrive 5 ⟨led.enc, ⟨7, 9001⟩⟩, .run, .setUp 0, .test 0, .select (.ready [5]), .drain,
    .check, .look true]

theorem hub_forwards_led : ∃ w, runCaught (Ip.Multiplexer.World.step default) ledRun (.start 3) = ok w ∧
    (HubListener.mk ⟨1, 9000⟩ ⟨2, 9001⟩).processPackets (fun _ _ => List.replicate 256 255)
    (Ip.Multiplexer.callsOn w.log 5) .fresh =
      ok (.fresh, [⟨⟨1, 9000⟩, (PacketTree.message [ch '/', ch 'l', ch 'e', ch 'd'] [.int32 1]).enc⟩]) := by
  have hp : Throughout (Ip.Multiplexer.World.step default) Ip.Multiplexer.Possible ledRun (.start 3) := by
    refine ⟨⟨rfl, by decide⟩, trivial, rfl, rfl, rfl, ⟨rfl, fun fd => ⟨fun h => ?_, fun h => ?_⟩, nofun⟩, rfl, rfl,
      ⟨_, _, _, rfl, fun _ => by decide⟩, trivial⟩
    · obtain rfl := List.mem_singleton.mp h
      decide
    · have hm : fd ∈ [5, 3] := h.1
      simp only [List.mem_cons, List.not_mem_nil, or_false] at hm
      rcases hm with rfl | rfl
      · decide
      · exact absurd h.2.2 (by decide)
  obtain ⟨w, taken, sent, he, harrived, hrun, hsent⟩ :=
    hub_forwards (HubListener.mk ⟨1, 9000⟩ ⟨2, 9001⟩) default (by decide)
    (by simp [ledRun, Ip.Multiplexer.Event.Fits, fdSetSize]) hp 5 fun _ _ => List.length_replicate
  have hd : (fun w : Ip.Multiplexer.World => ((w.inboxes 5).queue, w.arrived 5)) <$>
      runCaught (Ip.Multiplexer.World.step default) ledRun (.start 3) = ok ([], [⟨led.enc, ⟨7, 9001⟩⟩]) := by
        decide +kernel
  rw [he, map_ok] at hd
  obtain ⟨hqueue, htaken⟩ := Prod.mk.inj (Out.ok.inj hd)
  rw [hqueue, List.append_nil] at harrived
  obtain rfl := htaken.symm.trans harrived
  cases hsent with
  | @cons _ fs _ _ hone hrest =>
    cases hrest
    have hmeans : Means led.enc 0 led.enc.length led :=
      means_enc (by simp [led, PacketTree.Sendable, SendableAddress, ArgValue.Sendable]; decide) (by decide +kernel)
    have hfs := hone.2.2 led (by decide +kernel) hmeans
    refine ⟨w, he, hrun.trans ?_⟩
    rw [hfs]
    decide +kernel

end OscTap.Demos
