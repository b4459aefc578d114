/-
  OscTap.Tcp.Descriptors — which runs stay inside the sets of `select()` (see
  `OscTap.Tcp.Network`).

  Of any listener, one that throws included. `Run` puts the listening socket, the break pipe
  and every connection into an `fd_set`. The first two are tested by nothing; `AcceptConnection`
  stores whatever `accept()` returns, and the same pass asks `FD_ISSET` for it. So a run is
  safe exactly when its steps are `Within` the sets: the invariant `Watched` has every stored
  descriptor inside, and a step that is not `Within` faults at once.
  Proved: `within_sets`.
-/
import OscTap.Framing.Progress
import OscTap.Tcp.Delivery

namespace OscTap.Tcp

open OscTap.Lib OscTap.Lib.Out OscTap.Framing OscTap.Framing.OscStreamDeframer

/-- The step passes descriptors inside the sets to `FD_SET` and `FD_ISSET`, when every
    connection's is. -/
def Within : Action → World → Prop
  | .enter, w => w.server.break_ = false → w.server.listenSocket < fdSetSize ∧ w.server.breakPipe < fdSetSize
  | .select (.ready readfds) (.accepted conn _ _ _), w =>
    w.server.break_ = false → w.server.listenSocket ∈ readfds → conn < fdSetSize
  | _, _ => True

def OutOfSet (f : Fault) : Prop := ∃ fd, fdSetSize ≤ fd ∧ (f = .read fd ∨ f = .write fd)

structure Watched (w : World) : Prop where
  sending : ∀ c calls x, (w.streams c).peer = .client calls (some x) → x.Ok
  connections : ∀ fd k, w.server.connections[fd]? = some k → fd < fdSetSize ∧ Shape k.deframer
  blocked : ∀ fdmax readfds, w.pc = .blocked fdmax readfds → w.server.listenSocket < fdSetSize ∧
    w.server.breakPipe < fdSetSize

variable {listener : World.Listener} {x : Setup} {w : World}

theorem start_watched (x : Setup) : Watched (.start x) where
  sending := fun c calls y he => by
    have hp : (if x.isClient c then Peer.client [] none else .stranger) = .client calls (some y) := he
    split at hp <;> cases hp
  connections := fun fd k h => by
    rw [show (World.start x).server.connections[fd]? = none from Std.TreeMap.getElem?_emptyc] at h; cases h
  blocked := fun _ _ h => by cases h

/-- What a run keeps of the connections does not depend on the rest. -/
theorem Watched.elsewhere (h : Watched w) {w' : World} (hs : w'.streams = w.streams)
    (hk : w'.server.connections = w.server.connections)
    (hpc : ∀ fdmax readfds, w'.pc ≠ .blocked fdmax readfds) : Watched w' :=
  ⟨by rw [hs]; exact h.sending, by rw [hk]; exact h.connections, fun a b hb => absurd hb (hpc a b)⟩

theorem Watched.keys_lt (h : Watched w) : ∀ fd ∈ w.server.connections.keys, fd < fdSetSize := by
  intro fd hfd
  obtain ⟨k, hk⟩ := Option.isSome_iff_exists.mp (Std.TreeMap.mem_iff_isSome_getElem?.mp (Std.TreeMap.mem_keys.mp hfd))
  exact (h.connections fd k hk).1

/-- A stream changes; its peer is a client in the middle of a call only when it was, or the call is sound. -/
theorem Watched.setStream (h : Watched w) {c : Nat} {s : Stream}
    (hs : ∀ calls y, s.peer = .client calls (some y) → y.Ok) :
    Watched (w.setStream c s) := by
  refine ⟨fun c' calls y hp => ?_, h.connections, h.blocked⟩
  by_cases hc : c' = c
  · rw [hc, World.setStream_self] at hp
    exact hs calls y hp
  · rw [World.setStream_ne w s hc] at hp
    exact h.sending c' calls y hp

theorem loop_ne_blocked (fdmax : Nat) (readfds : List Nat) : Pc.loop ≠ .blocked fdmax readfds := by
  intro h
  cases h

theorem next_ne_blocked (ready : List Nat) (fdmax : Nat) (readfds : List Nat) :
    Pc.next ready ≠ .blocked fdmax readfds := by
  cases ready <;> nofun

theorem Watched.leave (h : Watched w) : Watched w.leave := h.elsewhere rfl rfl nofun

theorem Watched.close (h : Watched w) (fd : Nat) : Watched (w.close fd) := by
  refine ⟨h.sending, fun fd' k hk => ?_, h.blocked⟩
  have hk' : (w.server.connections.erase fd)[fd']? = some k := hk
  rw [Std.TreeMap.getElem?_erase] at hk'
  split at hk'
  · cases hk'
  · exact h.connections fd' k hk'

theorem Watched.store (h : Watched w) {fd : Nat} {connection : Connection} {d : OscStreamDeframer}
    (hfd : fd < fdSetSize) (hd : Shape d) : Watched (w.store fd connection d) := by
  refine ⟨h.sending, fun fd' k hk => ?_, h.blocked⟩
  have hk' : (w.server.connections.insert fd { connection with deframer := d })[fd']? = some k := hk
  rw [Std.TreeMap.getElem?_insert] at hk'
  split at hk'
  · rename_i e
    obtain rfl : fd = fd' := Std.LawfulEqCmp.eq_of_compare e
    cases hk'
    exact ⟨hfd, hd⟩
  · exact h.connections fd' k hk'

/-! ## The steps of the server -/

/-- In front of `select()`: the sets hold every descriptor, or one of the server's own is outside. -/
theorem watched_decides {ε : Type} (h : Watched w) :
    ((w.server.listenSocket < fdSetSize ∧ w.server.breakPipe < fdSetSize) ∧ ∃ y, (w.server.watched : Out ε _) = ok y) ∨
    (¬ (w.server.listenSocket < fdSetSize ∧ w.server.breakPipe < fdSetSize) ∧
      ∃ f, (w.server.watched : Out ε _) = fault f ∧ OutOfSet f) := by
  by_cases hl : w.server.listenSocket < fdSetSize
  · by_cases hb : w.server.breakPipe < fdSetSize
    · exact .inl ⟨⟨hl, hb⟩, watched_ok hl hb h.keys_lt⟩
    · refine .inr ⟨fun hc => hb hc.2, .write w.server.breakPipe, ?_, _, Nat.not_lt.mp hb, .inr rfl⟩
      rw [TcpListeningReceiveSocket.watched, fdSet, if_pos hl, ok_bind, fdSet, if_neg hb]
      rfl
  · refine .inr ⟨fun hc => hl hc.1, .write w.server.listenSocket, ?_, _, Nat.not_lt.mp hl, .inr rfl⟩
    rw [TcpListeningReceiveSocket.watched, fdSet, if_neg hl]
    rfl

/-- `FD_ISSET` of a connection outside the sets. -/
theorem collectReady_fault {ε : Type} {s : TcpListeningReceiveSocket} (readfds : List Nat) {conn : Nat}
    (hc : conn ∈ s.connections.keys) (hlt : ¬ conn < fdSetSize) : ∃ f, (s.collectReady readfds : Out ε _) = fault f ∧
    OutOfSet f := by
  have loop : ∀ (keys ready : List Nat), conn ∈ keys → ∃ f, (keys.foldlM (fun ready fd => do
      let isSet ← fdIsSet readfds fd
      ok (if isSet then ready ++ [fd] else ready)) ready : Out ε _) = fault f ∧ OutOfSet f := by
    intro keys
    induction keys with
    | nil => exact fun _ hc => by cases hc
    | cons fd keys ih =>
      intro ready hc
      rw [List.foldlM_cons, fdIsSet]
      by_cases hfd : fd < fdSetSize
      · rw [if_pos hfd, ok_bind, ok_bind]
        exact ih _ ((List.mem_cons.mp hc).resolve_left fun e => hlt (e ▸ hfd))
      · rw [if_neg hfd]
        exact ⟨_, rfl, fd, Nat.not_lt.mp hfd, .inl rfl⟩
  exact loop _ _ hc

theorem Watched.accept (h : Watched w) {conn c : Nat} (peerAddr : SockaddrIn) (header : Vector UInt8 4)
    (hlt : conn < fdSetSize) :
    Watched (w.accept (.accepted conn c peerAddr header)) := by
  have hstream : Watched (w.setStream c { w.streams c with accepted := true }) := h.setStream (h.sending c)
  refine ⟨hstream.sending, fun fd k hk => ?_, h.blocked⟩
  have hk' : (w.server.connections.insertIfNew conn
      ⟨ipEndpointNameFromSockaddr peerAddr, .mk' w.server.maxFrameSize.toNat header⟩)[fd]? = some k := hk
  rw [Std.TreeMap.getElem?_insertIfNew] at hk'
  split at hk'
  · rename_i e
    obtain rfl : conn = fd := Std.LawfulEqCmp.eq_of_compare e.1
    cases hk'
    exact ⟨hlt, (mk'_inv ..).shape⟩
  · exact h.connections fd k hk'

theorem mem_accept (w : World) (conn c : Nat) (peerAddr : SockaddrIn) (header : Vector UInt8 4) :
    conn ∈ (w.accept (.accepted conn c peerAddr header)).server.connections.keys :=
  Std.TreeMap.mem_keys.mpr Std.TreeMap.mem_insertIfNew_self

theorem select_decides (h : Watched w) {result : SelectResult} {accept : AcceptResult} {fdmax : Nat} {fds : List Nat}
    (hpc : w.pc = .blocked fdmax fds) :
    (Within (.select result accept) w ∧ ∃ w', attempt (w.select result accept) = ok w' ∧ Watched w') ∨
    (¬ Within (.select result accept) w ∧ ∃ f, attempt (w.select result accept) = fault f ∧ OutOfSet f) := by
  obtain ⟨hl, hb⟩ := h.blocked fdmax fds hpc
  cases result with
  | eintr =>
    refine .inl ⟨trivial, ?_⟩
    rw [World.select]
    by_cases hbr : w.server.break_ = true
    · rw [if_pos hbr]; exact ⟨_, rfl, h.leave⟩
    · rw [if_neg hbr]; exact ⟨_, rfl, h.elsewhere rfl rfl loop_ne_blocked⟩
  | failed =>
    refine .inl ⟨trivial, ?_⟩
    rw [World.select]
    by_cases hbr : w.server.break_ = true
    · rw [if_pos hbr]; exact ⟨_, rfl, h.leave⟩
    · rw [if_neg hbr]; exact ⟨_, rfl, h.leave⟩
  | ready readfds =>
    -- the byte of the break pipe
    obtain ⟨w₁, hw₁, h1, hserver⟩ : ∃ w₁,
        (if decide (w.server.breakPipe ∈ readfds) then { w with pipe := w.pipe - 1 } else w) = w₁ ∧ Watched w₁ ∧
          w₁.server = w.server := by
      by_cases hm : decide (w.server.breakPipe ∈ readfds) = true
      · rw [if_pos hm]; exact ⟨_, rfl, ⟨h.sending, h.connections, h.blocked⟩, rfl⟩
      · rw [if_neg hm]; exact ⟨w, rfl, h, rfl⟩
    rw [World.select, fdIsSet, if_pos hb, ok_bind, hw₁]
    dsimp only
    rw [hserver]
    by_cases hbr : w.server.break_ = true
    · rw [if_pos hbr]
      refine .inl ⟨?_, _, rfl, h1.leave⟩
      cases accept with
      | failed => trivial
      | accepted conn c peerAddr header =>
        intro hf
        rw [hbr] at hf
        cases hf
    · rw [if_neg hbr, fdIsSet, if_pos hl, ok_bind]
      -- a connection inside the sets, or none, comes in
      have inside : ∀ w₂, Watched w₂ → ∃ w', attempt (w₂.server.collectReady readfds >>= fun ready =>
          ok { w₂ with pc := .next ready } : Out (RuntimeError × World) World) = ok w' ∧ Watched w' := by
        intro w₂ h2
        obtain ⟨ready, hr⟩ := collectReady_ok (ε := RuntimeError × World) readfds h2.keys_lt
        rw [hr, ok_bind]
        exact ⟨_, rfl, h2.elsewhere rfl rfl (next_ne_blocked ready)⟩
      by_cases hin : w.server.listenSocket ∈ readfds
      · rw [if_pos (decide_eq_true hin)]
        cases accept with
        | failed => exact .inl ⟨trivial, inside w₁ h1⟩
        | accepted conn c peerAddr header =>
          by_cases hlt : conn < fdSetSize
          · exact .inl ⟨fun _ _ => hlt, inside _ (h1.accept peerAddr header hlt)⟩
          · obtain ⟨f, hf, hout⟩ := collectReady_fault (ε := RuntimeError × World) readfds
              (mem_accept w₁ conn c peerAddr header) hlt
            refine .inr ⟨fun hc => hlt (hc (by simpa using hbr) hin), f, ?_, hout⟩
            rw [hf]; rfl
      · rw [if_neg (by simpa using hin)]
        refine .inl ⟨?_, inside w₁ h1⟩
        cases accept with
        | failed => trivial
        | accepted conn c peerAddr header => exact fun _ hc => absurd hc hin

/-- `ServiceConnection`, whatever the listener does. -/
theorem service_watched (listener : World.Listener) (h : Watched w) (fd : Nat) (result : RecvResult) :
    Sat (w.serviceConnection listener fd result) Watched (fun e => Watched e.2) := by
  unfold World.serviceConnection
  split
  · rename_i connection c hk hc
    split
    · exact h.close fd
    · exact h.close fd
    · rename_i n
      obtain ⟨hlt, hd⟩ := h.connections fd connection hk
      have hrecv : Watched (w.recv c n).2 := h.setStream (h.sending c)
      have hstore : ∀ (s : List Call × Bool) (d : OscStreamDeframer), Shape d →
          Watched (((w.recv c n).2.note s).store fd connection d) := fun s d hd' => by
        have hnote : Watched ((w.recv c n).2.note s) := ⟨hrecv.sending, hrecv.connections, hrecv.blocked⟩
        exact hnote.store hlt hd'
      have hread := @consume_any _ (listener c connection.peer) (fun _ => True) (fun _ _ h => h) _ hd (w.recv c n).1
        (s := (w.log, w.server.break_)) trivial
      refine Sat.bind (Sat.mapErr (hread.mono (fun _ hr => hr) fun e he => (hstore e.2 e.1 he.1).leave)) fun r hr => ?_
      dsimp only
      split
      · exact hstore r.2.2 r.2.1 hr.1
      · exact (hstore r.2.2 r.2.1 hr.1).close fd
  · exact h

theorem step_decides {a : Action} (hp : Possible a w) (h : Watched w) :
    (Within a w ∧ ∃ w', attempt (World.stepOf listener a w) = ok w' ∧ Watched w') ∨
    (¬ Within a w ∧ ∃ f, attempt (World.stepOf listener a w) = fault f ∧ OutOfSet f) := by
  cases a with
  | call c packet =>
    obtain ⟨-, calls, hc⟩ := hp
    refine .inl ⟨trivial, ?_⟩
    rw [World.stepOf, hc]
    refine ⟨_, rfl, h.setStream fun calls' y he => ?_⟩
    cases he
    exact Sending.start_ok packet
  | send c result =>
    obtain ⟨calls, y, hc, hr, hroom⟩ := hp
    obtain ⟨bytes, y', he, -, hok⟩ := Sending.pass_spec (h.sending c calls y hc) hr hroom
    refine .inl ⟨trivial, ?_⟩
    rw [World.stepOf, World.send, hc]
    simp only [he, mapErr_ok, ok_bind]
    refine ⟨_, rfl, h.setStream fun calls' z hz => ?_⟩
    cases hz
    exact hok z rfl
  | write c bytes => exact .inl ⟨trivial, _, rfl, h.setStream (h.sending c)⟩
  | run => exact .inl ⟨trivial, _, rfl, h.elsewhere rfl rfl loop_ne_blocked⟩
  | enter =>
    rw [World.stepOf, World.enter]
    by_cases hbr : w.server.break_ = true
    · rw [if_pos hbr]
      refine .inl ⟨fun hf => ?_, _, rfl, h.leave⟩
      rw [hbr] at hf
      cases hf
    · rw [if_neg hbr]
      have hbr' : w.server.break_ = false := by simpa using hbr
      rcases watched_decides (ε := RuntimeError × World) h with ⟨hin, y, hy⟩ | ⟨hout, f, hf, ho⟩
      · rw [hy, ok_bind]
        exact .inl ⟨fun _ => hin, _, rfl, h.sending, h.connections, fun _ _ _ => hin⟩
      · rw [hf]
        exact .inr ⟨fun hc => hout (hc hbr'), f, rfl, ho⟩
  | select result accept =>
    obtain ⟨fdmax, fds, hpc, -⟩ := hp
    exact select_decides h hpc
  | service result =>
    obtain ⟨fd, rest, hpc, -⟩ := hp
    have hs := service_watched listener h fd result
    refine .inl ⟨trivial, ?_⟩
    rw [World.stepOf, World.service, hpc]
    dsimp only
    cases hx : w.serviceConnection listener fd result with
    | ok w' =>
      rw [hx] at hs
      refine ⟨_, rfl, Watched.elsewhere hs rfl rfl fun a b => ?_⟩
      dsimp only
      split
      · exact loop_ne_blocked a b
      · exact next_ne_blocked rest a b
    | err e => rw [hx] at hs; exact ⟨e.2, rfl, hs⟩
    | fault f => rw [hx] at hs; exact hs.elim
  | break_ => exact .inl ⟨trivial, _, rfl, h.sending, h.connections, h.blocked⟩
  | asynchronousBreak => exact .inl ⟨trivial, _, rfl, h.sending, h.connections, h.blocked⟩

/-! ## Runs -/

/-- Of any listener, any peers and any results the system may give: no step of a run passes a
    descriptor outside the sets to `FD_SET` or `FD_ISSET`, if and only if every step is within
    them; and nothing else goes wrong. -/
theorem within_sets (listener : World.Listener) (x : Setup) {actions : List Action}
    (hp : Throughout (World.stepOf listener) Possible actions (.start x)) :
    ((∃ w, runCaught (World.stepOf listener) actions (.start x) = ok w) ↔
      Throughout (World.stepOf listener) Within actions (.start x)) ∧
    ∀ f, runCaught (World.stepOf listener) actions (.start x) = fault f → OutOfSet f := by
  rcases Throughout.decides (I := Watched) (fun _ _ hq hi => step_decides hq hi) hp (start_watched x) with
    ⟨hin, w, hw, -⟩ | ⟨hout, f, hf, ho⟩
  · refine ⟨⟨fun _ => hin, fun _ => ⟨w, hw⟩⟩, fun f hf => ?_⟩
    rw [hw] at hf; cases hf
  · refine ⟨⟨fun ⟨w, hw⟩ => ?_, fun h => absurd h hout⟩, fun g hg => ?_⟩
    · rw [hf] at hw; cases hw
    · rw [hf] at hg; cases hg; exact ho

def refusing : World.Listener := fun c peer s packet => ((s.1 ++ [⟨c, packet, asInt packet.length, peer⟩], s.2), true)

/-- A connection at the last descriptor of the set; its frame makes `Run` leave, and `Run` is called again. -/
def lastDescriptor : List Action :=
  [.write 1 [0, 0, 0, 0], .run, .enter, .select (.ready [3]) (.accepted 1023 1 ⟨0, 0⟩ (Vector.replicate 4 0)), .enter,
    .select (.ready [1023]) .failed, .service (.bytes 4), .run, .enter]

theorem within_sets_lastDescriptor : ∃ w, runCaught (World.stepOf refusing) lastDescriptor (.start pair) = ok w :=
  (@within_sets refusing pair lastDescriptor ⟨rfl, rfl, rfl,
    ⟨_, _, rfl, fun fds hf => by cases hf; decide +kernel, rfl, by decide +kernel, by decide +kernel, rfl⟩, rfl,
    ⟨_, _, rfl, fun fds hf => by cases hf; decide +kernel, trivial⟩,
    ⟨_, _, rfl, by decide, by decide, fun c hc => by cases hc; decide +kernel⟩, rfl, rfl, trivial⟩).1.mpr
    ⟨trivial, trivial, fun _ => by decide, fun _ _ => by decide, fun _ => by decide, trivial, trivial, trivial,
      fun _ => by decide, trivial⟩

def oneMore : List Action :=
  [.run, .enter, .select (.ready [3]) (.accepted 1023 0 ⟨0, 0⟩ (Vector.replicate 4 0)), .enter,
    .select (.ready [3]) (.accepted 1024 1 ⟨0, 0⟩ (Vector.replicate 4 0))]

theorem oneMore_outside : Throughout (World.stepOf refusing) Possible oneMore (.start pair) ∧
    runCaught (World.stepOf refusing) oneMore (.start pair) = fault (.read 1024) :=
  ⟨⟨rfl, rfl, ⟨_, _, rfl, fun fds hf => by cases hf; decide +kernel, rfl, by decide +kernel, by decide +kernel, rfl⟩,
    rfl, ⟨_, _, rfl, fun fds hf => by cases hf; decide +kernel, rfl, by decide +kernel, by decide +kernel, rfl⟩,
    trivial⟩, rfl⟩

end OscTap.Tcp
