/-
  OscTap.Tcp.Delivery — what the listener is given, in any run (see `OscTap.Tcp.Network`).

  A client's stream and what its call of `Send` still has to write are the frames of its
  packets (`Sending.left`). An open connection's deframer stands for the bytes behind the last
  complete frame of the bytes received on it (`Serves`); no two descriptors have one
  connection, so a step of one leaves the others as they are. Both hold in every state that a
  run reaches (`Inv`), as long as the descriptors fit the sets of `select()`.
  Proved: `delivery`.
-/
import OscTap.Framing.Reassembly
import OscTap.Tcp.Network

namespace OscTap.Tcp

open OscTap.Lib OscTap.Lib.Out OscTap.Framing OscTap.Framing.OscStreamDeframer

/-! ## Sending -/

def SendAll.left (a : SendAll) : Bytes := slice a.p a.sent a.n

structure SendAll.Ok (a : SendAll) : Prop where
  sent : a.sent ≤ a.n
  inside : a.n ≤ a.p.length

namespace Sending

def left : Sending → Bytes
  | .header all data size => all.left ++ slice data 0 size
  | .payload all => all.left

def leftOf : Option Sending → Bytes
  | none => []
  | some x => x.left

def Ok : Sending → Prop
  | .header all data size => all.Ok ∧ size ≤ data.length
  | .payload all => all.Ok

theorem start_ok (packet : Bytes) : (start packet packet.length).Ok :=
  ⟨⟨Nat.zero_le _, by rw [length_be32]; exact Nat.le_refl 4⟩, Nat.le_refl _⟩

theorem start_left {packet : Bytes} (h : packet.length < 2 ^ 32) :
    (start packet packet.length).left = frame packet := by
  show slice (be32 (packet.length % 2 ^ 32)) 0 4 ++ slice packet 0 packet.length = _
  rw [Nat.mod_eq_of_lt h, slice_all, frame]
  congr 1

theorem left_done {a : SendAll} (h : ¬ a.sent < a.n) : a.left = [] := by
  rw [SendAll.left, slice, Nat.sub_eq_zero_of_le (by omega), List.take_zero]

theorem advance_spec {x : Sending} (h : x.Ok) : leftOf x.advance = x.left ∧ ∀ y ∈ x.advance, y.Ok := by
  cases x with
  | header all data size =>
    rw [advance]
    by_cases hlt : all.sent < all.n
    · rw [if_pos hlt]
      exact ⟨rfl, fun y hy => by cases hy; exact h⟩
    · have hd := left_done hlt
      rw [if_neg hlt]
      by_cases hs : 0 < size
      · rw [if_pos hs]
        exact ⟨by rw [left, hd]; rfl, fun y hy => by cases hy; exact ⟨Nat.zero_le _, h.2⟩⟩
      · rw [if_neg hs, left, hd, show size = 0 by omega, slice_self]
        exact ⟨rfl, fun y hy => by cases hy⟩
  | payload all =>
    rw [advance]
    by_cases hlt : all.sent < all.n
    · rw [if_pos hlt]
      exact ⟨rfl, fun y hy => by cases hy; exact h⟩
    · rw [if_neg hlt]
      exact ⟨(left_done hlt).symm, fun y hy => by cases hy⟩

theorem pass_all {a : SendAll} (h : a.Ok) {r : SendResult} (hf : r ≠ .failed)
    (hr : ∀ k, r = .wrote k → k ≤ a.n - a.sent) :
    ∃ bytes a', a.pass r = ok (bytes, a') ∧ a.left = bytes ++ a'.left ∧ a'.Ok := by
  cases r with
  | failed => exact absurd rfl hf
  | eintr => exact ⟨[], a, rfl, rfl, h⟩
  | wrote k =>
    have hk := hr k rfl
    have h1 := h.sent
    have h2 := h.inside
    refine ⟨slice a.p a.sent (a.sent + k), { a with sent := a.sent + k }, ?_, slice_split a.p (by omega) ?_, ?_, h2⟩
    · rw [SendAll.pass, rdBytes_of_le (by omega)]; rfl
    · show a.sent + k ≤ a.n; omega
    · show a.sent + k ≤ a.n; omega

/-- What a pass hands to TCP is the front of what is left to write. -/
theorem pass_spec {x : Sending} (h : x.Ok) {r : SendResult} (hf : r ≠ .failed) (hr : ∀ k, r = .wrote k → k ≤ x.room) :
    ∃ bytes x', x.pass r = ok (bytes, x') ∧ x.left = bytes ++ leftOf x' ∧ ∀ y ∈ x', y.Ok := by
  cases x with
  | header all data size =>
    obtain ⟨bytes, a', hp, hl, hok⟩ := pass_all h.1 hf hr
    obtain ⟨h1, h2⟩ := advance_spec (x := .header a' data size) ⟨hok, h.2⟩
    refine ⟨bytes, _, by rw [pass, hp]; rfl, ?_, h2⟩
    rw [h1, left, left, hl, List.append_assoc]
  | payload all =>
    obtain ⟨bytes, a', hp, hl, hok⟩ := pass_all h hf hr
    obtain ⟨h1, h2⟩ := advance_spec (x := .payload a') hok
    refine ⟨bytes, _, by rw [pass, hp]; rfl, ?_, h2⟩
    rw [h1, left, left, hl]

end Sending

/-- A stream: the server received its front, and a client's is made of frames. -/
structure Stream.Inv (n : UInt32) (s : Stream) : Prop where
  received : s.received <+: s.sent
  fresh : s.accepted = false → s.received = []
  client : ∀ calls sending, s.peer = .client calls sending →
    s.sent ++ Sending.leftOf sending = (calls.map frame).flatten ∧ (∀ p ∈ calls, p.length ≤ n.toNat) ∧
      ∀ x ∈ sending, x.Ok

variable {n : UInt32} {s : Stream}

theorem Stream.Inv.call (h : s.Inv n) {calls : List Bytes} (hs : s.peer = .client calls none) {packet : Bytes}
    (hp : packet.length ≤ n.toNat) :
    ({ s with peer := .client (calls ++ [packet]) (some (.start packet packet.length)) } : Stream).Inv n := by
  obtain ⟨h1, h2, -⟩ := h.client calls none hs
  have hlt := n.toNat_lt
  refine ⟨h.received, h.fresh, fun calls' sending' he => ?_⟩
  cases he
  refine ⟨?_, fun p hp' => ?_, fun x hx => by cases hx; exact Sending.start_ok packet⟩
  · rw [Sending.leftOf, List.append_nil] at h1
    rw [Sending.leftOf, Sending.start_left (by omega), h1, List.map_append, List.flatten_append]
    simp
  · rcases List.mem_append.mp hp' with hp' | hp'
    · exact h2 p hp'
    · rw [List.mem_singleton.mp hp']; exact hp

theorem Stream.Inv.write (h : s.Inv n) (hs : s.peer = .stranger) (bytes : Bytes) :
    ({ s with sent := s.sent ++ bytes } : Stream).Inv n :=
  ⟨h.received.trans (List.prefix_append ..), h.fresh, fun calls sending he => by
    rw [show s.peer = _ from he] at hs; cases hs⟩

theorem Stream.Inv.send (h : s.Inv n) {calls : List Bytes} {x : Sending}
    (hs : s.peer = .client calls (some x)) {bytes : Bytes} {x' : Option Sending}
    (hl : x.left = bytes ++ Sending.leftOf x') (hok : ∀ y ∈ x', y.Ok) :
    ({ s with peer := .client calls x', sent := s.sent ++ bytes } : Stream).Inv n := by
  obtain ⟨h1, h2, -⟩ := h.client calls _ hs
  refine ⟨h.received.trans (List.prefix_append ..), h.fresh, fun calls' sending' he => ?_⟩
  cases he
  rw [Sending.leftOf, hl] at h1
  exact ⟨by rw [← h1, List.append_assoc], h2, hok⟩

/-- The frames received from a client are the first of its packets. -/
theorem Stream.Inv.frames_first (h : s.Inv n) {calls : List Bytes} {sending : Option Sending}
    (hs : s.peer = .client calls sending) :
    ((frames n.toNat).split s.received).1 <+: calls := by
  obtain ⟨h1, h2, -⟩ := h.client calls sending hs
  have hlt := n.toNat_lt
  obtain ⟨rest, hrest⟩ := h.received
  have hall : (frames n.toNat).split (s.received ++ (rest ++ Sending.leftOf sending)) = (calls, .pending []) := by
    rw [← List.append_assoc, hrest, h1]
    exact split_frames fun p hp => ⟨h2 p hp, lt_of_le_of_lt (h2 p hp) hlt⟩
  have := Splitter.split_prefix (c := frames n.toNat) s.received (rest ++ Sending.leftOf sending)
  rwa [hall] at this

/-! ## The server -/

def told (packet : Bytes) : Bytes × Int := (packet, asInt packet.length)

theorem packetsOf_append (log : List Call) (c c' : Nat) (peer : IpEndpointName) (packets : List Bytes) :
    packetsOf (log ++ packets.map fun p => ⟨c, p, asInt p.length, peer⟩) c' =
      packetsOf log c' ++ if c = c' then packets.map told else [] := by
  unfold packetsOf
  rw [List.filter_append, List.map_append]
  congr 1
  by_cases h : c = c'
  · rw [if_pos h, List.filter_eq_self.mpr (by simp [h]), List.map_map]; rfl
  · rw [if_neg h, List.filter_eq_nil_iff.mpr (by simp [h])]; rfl

theorem sink_returns (breaks : List Call → Bool) (c : Nat) (peer : IpEndpointName) :
    Returns (World.sink breaks c peer) :=
  fun _ _ => rfl

theorem given_sink (breaks : List Call → Bool) (c : Nat) (peer : IpEndpointName) :
    ∀ (packets : List Bytes) (log : List Call) (b : Bool),
    ∃ b', given (World.sink breaks c peer) (log, b) packets =
      (log ++ packets.map fun p => ⟨c, p, asInt p.length, peer⟩, b')
  | [], log, b => ⟨b, by rw [List.map_nil, List.append_nil]; rfl⟩
  | p :: packets, log, b => by
    obtain ⟨b', h⟩ := given_sink breaks c peer packets (log ++ [⟨c, p, asInt p.length, peer⟩])
      (b || breaks (log ++ [⟨c, p, asInt p.length, peer⟩]))
    exact ⟨b', by rw [List.map_cons, List.append_cons]; exact h⟩

/-- A deframer between two reads of a connection. -/
structure Serves (n : Nat) (received : Bytes) (d : OscStreamDeframer) : Prop where
  inv : d.Inv
  bound : d.maxFrameSize = n
  rest : ((frames n).split received).2 = .pending d.pending

structure Core (x : Setup) (w : World) : Prop where
  bound : w.server.maxFrameSize = x.maxFrameSize
  listen : w.server.listenSocket = x.listenSocket
  pipe : w.server.breakPipe = x.breakPipe
  streams : ∀ c, (w.streams c).Inv x.maxFrameSize
  accepted : ∀ fd c, w.fds fd = some c → (w.streams c).accepted = true
  distinct : ∀ fd fd' c, w.fds fd = some c → w.fds fd' = some c → fd = fd'
  log : ∀ c, packetsOf w.log c = ((frames x.maxFrameSize.toNat).split (w.streams c).received).1.map told

/-- An open connection is served, under a descriptor that fits the sets of `select()`. -/
def Open (x : Setup) (w : World) (fd : Nat) (connection : Connection) : Prop :=
  fd < fdSetSize ∧ ∃ c, w.fds fd = some c ∧ Serves x.maxFrameSize.toNat (w.streams c).received connection.deframer

structure Inv (x : Setup) (w : World) : Prop extends Core x w where
  connections : ∀ fd connection, w.server.connections[fd]? = some connection → Open x w fd connection

variable {x : Setup} {w : World}

theorem start_inv (x : Setup) : Inv x (.start x) where
  bound := rfl
  listen := rfl
  pipe := rfl
  streams := fun c => ⟨List.prefix_refl _, fun _ => rfl, fun calls sending he => by
    have hp : (if x.isClient c then Peer.client [] none else .stranger) = .client calls sending := he
    split at hp
    · cases hp; exact ⟨rfl, fun p h => (by cases h), fun p h => (by cases h)⟩
    · cases hp⟩
  accepted := fun _ _ h => by cases h
  distinct := fun _ _ _ h => by cases h
  log := fun c => by rw [show ((World.start x).streams c).received = [] from rfl, split_nil]; rfl
  connections := fun fd connection h => by
    rw [show (World.start x).server.connections[fd]? = none from Std.TreeMap.getElem?_emptyc] at h; cases h

/-- `Pc`, the pipe and `break_` are free. -/
theorem Inv.frame (h : Inv x w) (pc : Pc) (pipe : Nat) (b : Bool) :
    Inv x { w with pc := pc, pipe := pipe, server := { w.server with break_ := b } } := { h with }

/-- A stream changes, but not what was received on it. -/
theorem Inv.setStream (h : Inv x w) {c : Nat} {s : Stream} (hs : s.Inv x.maxFrameSize)
    (hr : s.received = (w.streams c).received) (ha : s.accepted = (w.streams c).accepted) :
      Inv x (w.setStream c s) := by
  have hrec : ∀ c', ((w.setStream c s).streams c').received = (w.streams c').received := fun c' => by
    by_cases hc : c' = c
    · rw [hc, World.setStream_self, hr]
    · rw [World.setStream_ne w s hc]
  have hacc : ∀ c', ((w.setStream c s).streams c').accepted = (w.streams c').accepted := fun c' => by
    by_cases hc : c' = c
    · rw [hc, World.setStream_self, ha]
    · rw [World.setStream_ne w s hc]
  refine { h with streams := fun c' => ?_, accepted := fun fd c' hfd => ?_, log := fun c' => ?_,
                  connections := fun fd k hk => ?_ }
  · by_cases hc : c' = c
    · rw [hc, World.setStream_self]; exact hs
    · rw [World.setStream_ne w s hc]; exact h.streams c'
  · rw [hacc]; exact h.accepted fd c' hfd
  · rw [hrec]; exact h.log c'
  · obtain ⟨hlt, c', hc', hs'⟩ := h.connections fd k hk
    exact ⟨hlt, c', hc', by rw [hrec]; exact hs'⟩

theorem Inv.keys_lt (h : Inv x w) : ∀ fd ∈ w.server.connections.keys, fd < fdSetSize := by
  intro fd hfd
  obtain ⟨k, hk⟩ := Option.isSome_iff_exists.mp (Std.TreeMap.mem_iff_isSome_getElem?.mp (Std.TreeMap.mem_keys.mp hfd))
  exact (h.connections fd k hk).1

theorem fdSet_sat {ε : Type} {fd : Nat} (h : fd < fdSetSize) (fds : List Nat) :
    Sat (fdSet fd fds : Out ε (List Nat)) (fun _ => True) (fun _ => False) := by
  rw [fdSet, if_pos h]; trivial

theorem watched_ok {ε : Type} {s : TcpListeningReceiveSocket} (hl : s.listenSocket < fdSetSize)
    (hb : s.breakPipe < fdSetSize) (hk : ∀ fd ∈ s.connections.keys, fd < fdSetSize) :
    ∃ y, (s.watched : Out ε _) = ok y := by
  have h : Sat (s.watched : Out ε _) (fun _ => True) (fun _ => False) :=
    (fdSet_sat hl _).bind fun _ _ => (fdSet_sat hb _).bind fun _ _ =>
      (Sat.foldlM (fun fd hfd _ _ => fdSet_sat (hk fd hfd) _) trivial).bind fun _ _ => trivial
  obtain ⟨y, hy, -⟩ := h.returns
  exact ⟨y, hy⟩

theorem collectReady_ok {ε : Type} {s : TcpListeningReceiveSocket} (readfds : List Nat)
    (hk : ∀ fd ∈ s.connections.keys, fd < fdSetSize) : ∃ ready, (s.collectReady readfds : Out ε _) = ok ready := by
  have h : Sat (s.collectReady readfds : Out ε _) (fun _ => True) (fun _ => False) :=
    Sat.foldlM (fun fd hfd _ _ => by rw [fdIsSet, if_pos (hk fd hfd)]; trivial) trivial
  obtain ⟨ready, hr, -⟩ := h.returns
  exact ⟨ready, hr⟩

/-! ## The steps of the server -/

theorem Inv.accept (h : Inv x w) {conn c : Nat} (peerAddr : SockaddrIn) (header : Vector UInt8 4)
    (hfree : w.fds conn = none) (hnew : (w.streams c).accepted = false) (hlt : conn < fdSetSize) :
    Inv x (w.accept (.accepted conn c peerAddr header)) := by
  have hs := h.streams c
  have hempty := hs.fresh hnew
  have hrec : ∀ c', ((w.accept (.accepted conn c peerAddr header)).streams c').received = (w.streams c').received := by
    intro c'
    show ((w.setStream c { w.streams c with accepted := true }).streams c').received = _
    by_cases hc : c' = c
    · rw [hc, World.setStream_self]
    · rw [World.setStream_ne w _ hc]
  have hunused : ∀ fd, w.fds fd ≠ some c := fun fd hfd => by
    have := h.accepted fd c hfd
    rw [hnew] at this; cases this
  refine { h with bound := h.bound, streams := fun c' => ?_, accepted := fun fd c' hfd => ?_,
                  distinct := fun fd fd' c' h1 h2 => ?_, log := fun c' => ?_, connections := fun fd k hk => ?_ }
  · show ((w.setStream c { w.streams c with accepted := true }).streams c').Inv _
    by_cases hc : c' = c
    · rw [hc, World.setStream_self]
      exact ⟨hs.received, fun h => (by cases h), hs.client⟩
    · rw [World.setStream_ne w _ hc]; exact h.streams c'
  · show ((w.setStream c { w.streams c with accepted := true }).streams c').accepted = true
    by_cases hc : c' = c
    · rw [hc, World.setStream_self]
    · rw [World.setStream_ne w _ hc]
      have hfd' : Function.update w.fds conn (some c) fd = some c' := hfd
      rw [Function.update_apply] at hfd'
      split at hfd'
      · cases hfd'; exact absurd rfl hc
      · exact h.accepted fd c' hfd'
  · have h1' : Function.update w.fds conn (some c) fd = some c' := h1
    have h2' : Function.update w.fds conn (some c) fd' = some c' := h2
    rw [Function.update_apply] at h1' h2'
    split at h1' <;> split at h2'
    · rename_i e1 e2; rw [e1, e2]
    · cases h1'; exact absurd h2' (hunused fd')
    · cases h2'; exact absurd h1' (hunused fd)
    · exact h.distinct fd fd' c' h1' h2'
  · rw [hrec]; exact h.log c'
  · have hk' : (w.server.connections.insertIfNew conn
        ⟨ipEndpointNameFromSockaddr peerAddr, .mk' w.server.maxFrameSize.toNat header⟩)[fd]? = some k := hk
    show fd < fdSetSize ∧ ∃ c', Function.update w.fds conn (some c) fd = some c' ∧ _
    rw [Std.TreeMap.getElem?_insertIfNew] at hk'
    split at hk'
    · rename_i e
      obtain rfl : conn = fd := Std.LawfulEqCmp.eq_of_compare e.1
      cases hk'
      refine ⟨hlt, c, Function.update_self .., mk'_inv .., ?_, ?_⟩
      · show w.server.maxFrameSize.toNat = _; rw [h.bound]
      · rw [hrec, hempty, split_nil]
        simp [pending, mk']
    · obtain ⟨hlt', c', hc', hs'⟩ := h.connections fd k hk'
      refine ⟨hlt', c', ?_, by rw [hrec]; exact hs'⟩
      rw [Function.update_of_ne (fun e => by rw [e, hfree] at hc'; cases hc')]; exact hc'

/-- A closed connection: its descriptor is free again. -/
theorem Core.close (h : Core x w) {fd : Nat}
    (hrest : ∀ fd' k, fd' ≠ fd → w.server.connections[fd']? = some k → Open x w fd' k) : Inv x (w.close fd) := by
  have hfds : ∀ fd' c, Function.update w.fds fd none fd' = some c → w.fds fd' = some c := fun fd' c hc => by
    rw [Function.update_apply] at hc
    split at hc
    · cases hc
    · exact hc
  refine { h with accepted := fun fd' c hc => h.accepted fd' c (hfds fd' c hc),
                  distinct := fun fd₁ fd₂ c h1 h2 => h.distinct fd₁ fd₂ c (hfds fd₁ c h1) (hfds fd₂ c h2),
                  connections := fun fd' k hk => ?_ }
  have hk' : (w.server.connections.erase fd)[fd']? = some k := hk
  rw [Std.TreeMap.getElem?_erase] at hk'
  split at hk'
  · cases hk'
  · rename_i hne
    have hfd : fd' ≠ fd := fun e => hne (by rw [e]; exact Std.ReflCmp.compare_self)
    obtain ⟨hlt, c, hc, hs⟩ := hrest fd' k hfd hk'
    exact ⟨hlt, c, (Function.update_of_ne hfd ..).trans hc, hs⟩

theorem recv_streams (w : World) (c n c' : Nat) : ((w.recv c n).2.streams c').received =
    if c' = c then (w.streams c).received ++ (w.recv c n).1 else (w.streams c').received := by
  by_cases hc : c' = c
  · rw [if_pos hc, hc]
    exact congrArg Stream.received (World.setStream_self ..)
  · rw [if_neg hc]
    exact congrArg Stream.received (World.setStream_ne w _ hc)

/-- The bytes of a read, and the packets that they complete. -/
theorem Core.receive (h : Core x w) {c n : Nat} {packets : List Bytes} (hacc : (w.streams c).accepted = true)
    (hp : ((frames x.maxFrameSize.toNat).split ((w.streams c).received ++ (w.recv c n).1)).1 =
      ((frames x.maxFrameSize.toNat).split (w.streams c).received).1 ++ packets) (peer : IpEndpointName) (b : Bool) :
    Core x ((w.recv c n).2.note (w.log ++ packets.map fun p => ⟨c, p, asInt p.length, peer⟩, b)) := by
  have hs := h.streams c
  have hstream : ∀ c', ((w.recv c n).2.streams c').Inv x.maxFrameSize := fun c' => by
    by_cases hc : c' = c
    · rw [hc]
      show ((w.setStream c _).streams c).Inv _
      rw [World.setStream_self]
      refine ⟨?_, fun hf => ?_, hs.client⟩
      · obtain ⟨rest, hr⟩ := hs.received
        show (w.streams c).received ++ ((w.streams c).sent.drop (w.streams c).received.length).take n <+:
          (w.streams c).sent
        rw [← hr, List.drop_left]
        exact (List.prefix_append_right_inj _).mpr (List.take_prefix n rest)
      · rw [show (w.streams c).accepted = false from hf] at hacc; cases hacc
    · show ((w.setStream c _).streams c').Inv _
      rw [World.setStream_ne w _ hc]
      exact h.streams c'
  have haccepted : ∀ c', ((w.recv c n).2.streams c').accepted = (w.streams c').accepted := fun c' => by
    by_cases hc : c' = c
    · show ((w.setStream c _).streams c').accepted = _
      rw [hc, World.setStream_self]
    · exact congrArg Stream.accepted (World.setStream_ne w _ hc)
  refine { h with streams := hstream, accepted := fun fd c' hfd => (haccepted c').trans (h.accepted fd c' hfd),
                  log := fun c' => ?_ }
  show packetsOf (w.log ++ packets.map fun p => ⟨c, p, asInt p.length, peer⟩) c' =
    ((frames x.maxFrameSize.toNat).split ((w.recv c n).2.streams c').received).1.map told
  rw [packetsOf_append, recv_streams, h.log c']
  by_cases hc : c = c'
  · rw [if_pos hc, if_pos hc.symm, ← hc, hp, List.map_append]
  · rw [if_neg hc, if_neg (Ne.symm hc), List.append_nil]

/-- A read of an open connection: its deframer takes the bytes, or the connection is closed;
    the other connections have other streams. -/
theorem Inv.serve (h : Inv x w) {fd c n : Nat} {connection : Connection}
    (hk : w.server.connections[fd]? = some connection) (hc : w.fds fd = some c) :
    ∃ w', World.serviceConnection (World.sink x.breaks) w fd (.bytes n) = ok w' ∧ Inv x w' := by
  obtain ⟨hlt, c', hc', hserves⟩ := h.connections fd connection hk
  obtain rfl : c' = c := by rw [hc] at hc'; cases hc'; rfl
  obtain ⟨r, hr, h1, h2⟩ := consume_spec (sink_returns x.breaks c' connection.peer) (w.log, w.server.break_) hserves.inv
    (w.recv c' n).1
  have hsplit := Splitter.split_append_pending (c := frames x.maxFrameSize.toNat) (w.recv c' n).1
    (show (frames x.maxFrameSize.toNat).split (w.streams c').received = (_, .pending _) from Prod.ext rfl hserves.rest)
  rw [hserves.bound] at h1 h2
  obtain ⟨b, hg⟩ := given_sink x.breaks c' connection.peer
    ((frames x.maxFrameSize.toNat).split (pending connection.deframer ++ (w.recv c' n).1)).1 w.log w.server.break_
  rw [hg] at h1
  have hcore := h.toCore.receive (n := n) (h.accepted fd c' hc) (congrArg Prod.fst hsplit) connection.peer b
  have hstored : Core x (((w.recv c' n).2.note r.2.2).store fd connection r.2.1) := by
    rw [h1]; exact { hcore with }
  have hrest : ∀ fd' k, fd' ≠ fd →
      (((w.recv c' n).2.note r.2.2).store fd connection r.2.1).server.connections[fd']? = some k →
      Open x (((w.recv c' n).2.note r.2.2).store fd connection r.2.1) fd' k := by
    intro fd' k hne hk'
    have hk'' : (w.server.connections.insert fd { connection with deframer := r.2.1 })[fd']? = some k := hk'
    rw [Std.TreeMap.getElem?_insert, if_neg (fun e => hne (Std.LawfulEqCmp.eq_of_compare e).symm)] at hk''
    obtain ⟨hlt', d, hd, hs⟩ := h.connections fd' k hk''
    have hdc : d ≠ c' := fun e => hne (h.distinct fd' fd c' (e ▸ hd) hc)
    refine ⟨hlt', d, hd, ?_⟩
    show Serves _ ((w.recv c' n).2.streams d).received k.deframer
    rw [recv_streams, if_neg hdc]
    exact hs
  rw [World.serviceConnection, hk, hc]
  simp only [hr, mapErr_ok, ok_bind]
  by_cases hok : r.1 = true
  · rw [if_pos hok]
    refine ⟨_, rfl, { hstored with connections := fun fd' k hk' => ?_ }⟩
    by_cases hne : fd' = fd
    · subst hne
      have hk'' : (w.server.connections.insert fd' { connection with deframer := r.2.1 })[fd']? = some k := hk'
      rw [Std.TreeMap.getElem?_insert, if_pos Std.ReflCmp.compare_self] at hk''
      cases hk''
      refine ⟨hlt, c', hc, ?_⟩
      show Serves _ ((w.recv c' n).2.streams c').received r.2.1
      rw [recv_streams, if_pos rfl]
      split at h2
      · rename_i rest he
        exact ⟨h2.2.1, h2.2.2.1, by rw [hsplit, he, h2.2.2.2]⟩
      · rw [h2] at hok; cases hok
    · exact hrest fd' k hne hk'
  · rw [if_neg hok]
    exact ⟨_, rfl, hstored.close hrest⟩

theorem Inv.serviceConnection (h : Inv x w) (fd : Nat) (result : RecvResult) :
    ∃ w', World.serviceConnection (World.sink x.breaks) w fd result = ok w' ∧ Inv x w' := by
  cases hk : w.server.connections[fd]? with
  | none => exact ⟨w, by rw [World.serviceConnection, hk], h⟩
  | some connection =>
    cases hc : w.fds fd with
    | none => exact ⟨w, by rw [World.serviceConnection, hk, hc], h⟩
    | some c =>
      have hclose : Inv x (w.close fd) := h.toCore.close fun fd' k _ => h.connections fd' k
      cases result with
      | bytes n => exact h.serve hk hc
      | closed => exact ⟨w.close fd, by rw [World.serviceConnection, hk, hc], hclose⟩
      | failed => exact ⟨w.close fd, by rw [World.serviceConnection, hk, hc], hclose⟩

theorem Inv.leave (h : Inv x w) : Inv x w.leave := h.frame .outside w.pipe false

/-- The server's own descriptors fit the sets of `select()`. -/
structure Setup.Fits (x : Setup) : Prop where
  listen : x.listenSocket < fdSetSize
  pipe : x.breakPipe < fdSetSize

/-- So does a descriptor that `accept()` gives out. -/
def Action.Fits : Action → Prop
  | .select _ (.accepted conn _ _ _) => conn < fdSetSize
  | _ => True

instance (a : Action) : Decidable a.Fits := by
  unfold Action.Fits
  split <;> infer_instance

theorem Inv.select (hx : x.Fits) (h : Inv x w) {result : SelectResult} {accept : AcceptResult}
    (hf : (Action.select result accept).Fits) (hp : accept.Possible w) :
    ∃ w', Lib.attempt (w.select result accept) = ok w' ∧ Inv x w' := by
  have hl : w.server.listenSocket < fdSetSize := h.listen ▸ hx.listen
  have hb : w.server.breakPipe < fdSetSize := h.pipe ▸ hx.pipe
  cases result with
  | eintr =>
    rw [World.select]
    by_cases hbr : w.server.break_ = true
    · rw [if_pos hbr]; exact ⟨_, rfl, h.leave⟩
    · rw [if_neg hbr]; exact ⟨_, rfl, h.frame .loop w.pipe w.server.break_⟩
  | failed =>
    rw [World.select]
    by_cases hbr : w.server.break_ = true
    · rw [if_pos hbr]; exact ⟨_, rfl, h.leave⟩
    · rw [if_neg hbr]; exact ⟨_, rfl, h.leave⟩
  | ready readfds =>
    -- the byte of the break pipe
    obtain ⟨w₁, hw₁, h1, hserver, hfree⟩ : ∃ w₁,
        (if decide (w.server.breakPipe ∈ readfds) then { w with pipe := w.pipe - 1 } else w) = w₁ ∧ Inv x w₁ ∧
          w₁.server = w.server ∧ accept.Possible w₁ := by
      by_cases hm : decide (w.server.breakPipe ∈ readfds) = true
      · rw [if_pos hm]
        exact ⟨_, rfl, h.frame w.pc (w.pipe - 1) w.server.break_, rfl, by cases accept <;> exact hp⟩
      · rw [if_neg hm]; exact ⟨w, rfl, h, rfl, hp⟩
    -- the connection that came in
    obtain ⟨w₂, hw₂, h2⟩ : ∃ w₂,
        (if decide (w.server.listenSocket ∈ readfds) then w₁.accept accept else w₁) = w₂ ∧ Inv x w₂ := by
      by_cases hm : decide (w.server.listenSocket ∈ readfds) = true
      · rw [if_pos hm]
        cases accept with
        | failed => exact ⟨w₁, rfl, h1⟩
        | accepted conn c peerAddr header => exact ⟨_, rfl, h1.accept peerAddr header hfree.1 hfree.2.2.2 hf⟩
      · rw [if_neg hm]; exact ⟨w₁, rfl, h1⟩
    obtain ⟨ready, hr⟩ := collectReady_ok (ε := RuntimeError × World) readfds h2.keys_lt
    rw [World.select, fdIsSet, if_pos hb, ok_bind, hw₁]
    by_cases hbr : w₁.server.break_ = true
    · rw [if_pos hbr]; exact ⟨_, rfl, h1.leave⟩
    · rw [if_neg hbr, fdIsSet, hserver, if_pos hl, ok_bind, hw₂]
      dsimp only
      rw [hr, ok_bind]
      exact ⟨_, rfl, h2.frame (.next ready) w₂.pipe w₂.server.break_⟩

/-- One step, of any party. -/
theorem step_inv (hx : x.Fits) {a : Action} (hf : a.Fits) (hp : Possible a w) (h : Inv x w) :
    ∃ w', Lib.attempt (World.step x.breaks a w) = ok w' ∧ Inv x w' := by
  cases a with
  | call c packet =>
    obtain ⟨hlen, calls, hc⟩ := hp
    rw [World.step, World.stepOf, hc]
    exact ⟨_, rfl, h.setStream ((h.streams c).call hc (h.bound ▸ hlen)) rfl rfl⟩
  | send c result =>
    obtain ⟨calls, y, hc, hr, hroom⟩ := hp
    obtain ⟨-, -, hok⟩ := (h.streams c).client calls _ hc
    obtain ⟨bytes, y', he, hl, hok'⟩ := Sending.pass_spec (hok y rfl) hr hroom
    rw [World.step, World.stepOf, World.send, hc]
    simp only [he, mapErr_ok, ok_bind]
    exact ⟨_, rfl, h.setStream ((h.streams c).send hc hl hok') rfl rfl⟩
  | write c bytes => exact ⟨_, rfl, h.setStream ((h.streams c).write hp bytes) rfl rfl⟩
  | run => exact ⟨_, rfl, h.frame .loop w.pipe w.server.break_⟩
  | enter =>
    rw [World.step, World.stepOf, World.enter]
    by_cases hbr : w.server.break_ = true
    · rw [if_pos hbr]; exact ⟨_, rfl, h.leave⟩
    · obtain ⟨y, hy⟩ := watched_ok (ε := RuntimeError × World) (h.listen ▸ hx.listen) (h.pipe ▸ hx.pipe) h.keys_lt
      rw [if_neg hbr, hy, ok_bind]
      exact ⟨_, rfl, h.frame (.blocked y.1 y.2) w.pipe w.server.break_⟩
  | select result accept =>
    obtain ⟨_, _, _, _, hacc⟩ := hp
    exact h.select hx hf hacc
  | service result =>
    obtain ⟨fd, rest, hpc, -⟩ := hp
    obtain ⟨w', he, h'⟩ := h.serviceConnection fd result
    rw [World.step, World.stepOf, World.service, hpc]
    simp only [he, ok_bind]
    exact ⟨_, rfl, h'.frame _ w'.pipe w'.server.break_⟩
  | break_ => exact ⟨_, rfl, h.frame w.pc w.pipe true⟩
  | asynchronousBreak => exact ⟨_, rfl, h.frame w.pc (w.pipe + 1) true⟩

/-! ## Delivery -/

/-- The size reaches the listener as an `int`. -/
theorem asInt_iff (size : Nat) : asInt size = size ↔ size < 2 ^ 31 := by
  unfold asInt
  by_cases h : size < 2 ^ 31
  · exact ⟨fun _ => h, fun _ => Int32.toInt_ofNat_of_lt h⟩
  · have := (Int32.ofNat size).toInt_lt
    exact ⟨fun he => by omega, fun h' => absurd h' h⟩

theorem told_iff (packets : List Bytes) :
    packets.map told = packets.map (fun p => (p, (p.length : Int))) ↔ ∀ p ∈ packets, p.length < 2 ^ 31 := by
  rw [List.map_inj_left]
  refine forall₂_congr fun p _ => ?_
  rw [told, Prod.mk.injEq, asInt_iff]
  exact and_iff_right rfl

/-- The state that a run reaches. -/
theorem run_inv (hx : x.Fits) {actions : List Action} (hf : ∀ a ∈ actions, a.Fits)
    (hp : Throughout (World.step x.breaks) Possible actions (.start x)) :
    ∃ w, runCaught (World.step x.breaks) actions (.start x) = ok w ∧ Inv x w :=
  hp.caught (fun a ha _ hpa hi => step_inv hx (hf a ha) hpa hi) (start_inv x)

/-- A run of a server, of any clients and other peers, whose descriptors fit. -/
structure Reaches (x : Setup) (w : World) : Prop where
  fits : x.Fits
  run : ∃ actions, (∀ a ∈ actions, a.Fits) ∧ Throughout (World.step x.breaks) Possible actions (.start x) ∧
    runCaught (World.step x.breaks) actions (.start x) = ok w

theorem Reaches.inv (h : Reaches x w) : Inv x w := by
  obtain ⟨actions, hf, hp, he⟩ := h.run
  obtain ⟨w', he', hi⟩ := run_inv h.fits hf hp
  rw [he'] at he
  cases he
  exact hi

/-- In every run whose descriptors fit no step goes wrong, and in the state that it reaches the
    packets dispatched for a connection are the frames received on it, if and only if these are
    shorter than `2 ^ 31` bytes; they are the first of a client's packets, and no other
    connection has a say in them. -/
theorem delivery (hx : x.Fits) {actions : List Action} (hf : ∀ a ∈ actions, a.Fits)
    (hp : Throughout (World.step x.breaks) Possible actions (.start x)) :
    ∃ w, runCaught (World.step x.breaks) actions (.start x) = ok w ∧ ∀ c,
      (w.dispatched c = ((frames x.maxFrameSize.toNat).split (w.streams c).received).1.map
        (fun p => (p, (p.length : Int))) ↔
        ∀ p ∈ ((frames x.maxFrameSize.toNat).split (w.streams c).received).1, p.length < 2 ^ 31) ∧
      (∀ calls sending, (w.streams c).peer = .client calls sending →
        ((frames x.maxFrameSize.toNat).split (w.streams c).received).1 <+: calls) ∧
      ∀ x' w' c', Reaches x' w' → x'.maxFrameSize = x.maxFrameSize → (w'.streams c').received = (w.streams c).received →
        w'.dispatched c' = w.dispatched c := by
  obtain ⟨w, he, hi⟩ := run_inv hx hf hp
  refine ⟨w, he, fun c => ⟨?_, fun calls sending hc => (hi.streams c).frames_first hc, fun x' w' c' hr hb hs => ?_⟩⟩
  · rw [show w.dispatched c = _ from hi.log c]
    exact told_iff _
  · rw [show w'.dispatched c' = _ from hr.inv.log c', show w.dispatched c = _ from hi.log c, hb, hs]

/-- A client and another peer; the listener calls `Break` from each callback. -/
def pair : Setup := ⟨3, 4, .ofNat oscDefaultMaxFrameSize, fun c => c = 0, fun _ => true⟩

/-- The client's one packet is sent in three pieces, with an interrupt, and read at once. -/
def pieces : List Action :=
  [.call 0 [7], .write 1 [255], .send 0 (.wrote 3), .send 0 .eintr, .run, .enter,
    .select (.ready [3]) (.accepted 5 0 ⟨0, 0⟩ (Vector.replicate 4 0)), .enter, .send 0 (.wrote 1), .send 0 (.wrote 1),
    .select (.ready [5]) .failed, .service (.bytes 5), .enter]

theorem delivery_pieces : ∃ w, runCaught (World.step pair.breaks) pieces (.start pair) = ok w ∧
    w.dispatched 0 = [([7], 1)] ∧
    w.dispatched 0 = ((frames 65536).split (w.streams 0).received).1.map (fun p => (p, (p.length : Int))) := by
  have hp : Throughout (World.step pair.breaks) Possible pieces (.start pair) :=
    ⟨⟨by decide, [], rfl⟩, rfl, ⟨_, _, rfl, by decide, fun r hr => by cases hr; decide⟩,
      ⟨_, _, rfl, by decide, fun r hr => by cases hr⟩, rfl, rfl,
      ⟨_, _, rfl, fun fds hf => by cases hf; decide +kernel, rfl, by decide +kernel, by decide +kernel, rfl⟩, rfl,
      ⟨_, _, rfl, by decide, fun r hr => by cases hr; decide +kernel⟩,
      ⟨_, _, rfl, by decide, fun r hr => by cases hr; decide +kernel⟩,
      ⟨_, _, rfl, fun fds hf => by cases hf; decide +kernel, trivial⟩,
      ⟨_, _, rfl, by decide, by decide, fun c hc => by cases hc; decide +kernel⟩, rfl, trivial⟩
  obtain ⟨w, he, h⟩ := @delivery pair ⟨by decide, by decide⟩ pieces (by decide) hp
  have hd : (fun w : World => (w.dispatched 0, (w.streams 0).peer)) <$>
      runCaught (World.step pair.breaks) pieces (.start pair) = ok ([([7], 1)], .client [[7]] none) := by decide +kernel
  rw [he, map_ok] at hd
  obtain ⟨hd, hpeer⟩ := Prod.mk.inj (Out.ok.inj hd)
  obtain ⟨hiff, hfirst, -⟩ := h 0
  refine ⟨w, he, hd, hiff.mpr fun p hmem => ?_⟩
  have hm := (hfirst _ _ hpeer).subset hmem
  rw [List.mem_singleton.mp hm]
  decide

def manyDescriptors : List Action :=
  [.run, .enter, .select (.ready [3]) (.accepted 1024 0 ⟨0, 0⟩ (Vector.replicate 4 0))]

/-- `FD_ISSET` reads outside the set. -/
theorem undelivered : Throughout (World.step pair.breaks) Possible manyDescriptors (.start pair) ∧
    runCaught (World.step pair.breaks) manyDescriptors (.start pair) = fault (.read 1024) :=
  ⟨⟨rfl, rfl, ⟨_, _, rfl, fun fds hf => by cases hf; decide +kernel, rfl, by decide +kernel, by decide +kernel, rfl⟩,
    trivial⟩, rfl⟩

end OscTap.Tcp
