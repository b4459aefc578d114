/-
  OscTap.Tcp.Server — what a server hears of a client (`demos/tcp_server.cpp`, `demos/tcp_send.cpp`).

  The server's listener is an `OscPacketListener` that catches the exceptions of each packet
  (`PrintingListener`); what it prints is left out, its calls of `ProcessMessage` are kept, under
  the connection and with the bytes that the messages point into. A client builds its packets in
  one stream and calls `Send` with those that are finished. Proved: `heard_in_order`: in any run,
  whatever other peers send, the server hears of a client the messages of the packets it sent, in
  the order in which it sent them, with the values that were streamed.
-/
import OscTap.Listener.Plan
import OscTap.Outbound.Sender
import OscTap.Tcp.Delivery

namespace OscTap.Tcp

open OscTap.Lib OscTap.Lib.Out OscTap.Osc OscTap.Received OscTap.Framing
    OscTap.Framing.OscStreamDeframer OscTap.Listener

structure Heard where
  connection : Nat
  packet : Bytes
  event : Event
  deriving DecidableEq

namespace PrintingListener

/-- `ProcessPacket`: what `OscPacketListener::ProcessPacket` throws is caught. -/
def processPacket (l : OscPacketListener) (data : Bytes) (size : Int) : Out Empty (OscPacketListener × List Event) :=
  match Listener.processPacket data (fun _ _ => false) size ⟨l, []⟩ with
  | ok s => ok (s.listener, s.trace)
  | err e => ok (e.2.listener, e.2.trace)
  | fault f => fault f

def processPackets : List Call → OscPacketListener → Out Empty (OscPacketListener × List Heard)
  | [], l => ok (l, [])
  | call :: log, l => do
    let x ← processPacket l call.packet call.size
    let y ← processPackets log x.1
    ok (y.1, x.2.map (⟨call.connection, call.packet, ·⟩) ++ y.2)

end PrintingListener

/-! ## One packet -/

theorem asInt_of_pos {n : Nat} (hn : n < 2 ^ 32) (h : 0 < asInt n) : asInt n = n := by
  refine (asInt_iff n).mpr ?_
  by_contra hlt
  have hneg : asInt n = n - 2 ^ 32 := by
    rw [asInt, Int32.toInt_ofNat', Int.bmod_def, show Int32.size = 2 ^ 32 from rfl]
    omega
  omega

/-- The listener is as it was, and of a packet it has heard what there is to hear. -/
theorem PrintingListener.processPacket_spec {l : OscPacketListener} (hr : Reachable l) {packet : Bytes}
    (hlt : packet.length < 2 ^ 32) :
    ∃ events, processPacket l packet (asInt packet.length) = ok (l, events) ∧
      ∀ t, Means packet 0 (asInt packet.length) t →
        List.Forall₂ (Seen packet) events (reached l.maxBundleNestingDepth t) := by
  by_cases hs : SizeOk (asInt packet.length)
  · have hlen := asInt_of_pos hlt hs.1
    obtain ⟨plan, hreplay, hcovers⟩ := packet_plan hr packet (asInt packet.length) (by omega)
    refine ⟨plan.events, ?_, fun t ht => (hcovers _ _ (Means.found t ht)).2⟩
    rw [processPacket, hreplay, plan.replay_quiet fun _ _ => rfl]
    cases plan.stop <;> rfl
  · obtain ⟨e, he⟩ : ∃ e, Listener.processPacket packet (fun _ _ => false) (asInt packet.length)
      ⟨l, []⟩ = err (e, ⟨l, []⟩) :=
      processPacket_throws hs
    exact ⟨[], by rw [processPacket, he], fun t ht => absurd ht.sizeOk hs⟩

/-! ## The log -/

/-- The packets of one connection among all others. -/
theorem PrintingListener.processPackets_spec {l : OscPacketListener} (hr : Reachable l) : ∀ {log : List Call},
    (∀ call ∈ log, call.packet.length < 2 ^ 32 ∧ call.size = asInt call.packet.length) →
    ∃ heard, processPackets log l = ok (l, heard) ∧ ∀ (c : Nat) (ts : List PacketTree),
      packetsOf log c = ts.map (fun t => told t.enc) →
      (∀ t ∈ ts, Means t.enc 0 (asInt t.enc.length) t) →
      List.Forall₂ (fun h => Seen h.packet h.event) (heard.filter fun h => h.connection = c)
        (ts.flatMap (reached l.maxBundleNestingDepth))
  | [], _ => by
    refine ⟨[], rfl, fun c ts hts _ => ?_⟩
    obtain rfl := List.map_eq_nil_iff.mp hts.symm
    exact .nil
  | call :: log, hlog => by
    obtain ⟨⟨hlt, hsize⟩, hrest⟩ := List.forall_mem_cons.mp hlog
    obtain ⟨events, he, hevents⟩ := processPacket_spec hr hlt
    obtain ⟨heard, hh, hheard⟩ := processPackets_spec hr hrest
    refine ⟨events.map (⟨call.connection, call.packet, ·⟩) ++ heard, ?_, fun c ts hts hmeans => ?_⟩
    · rw [processPackets, hsize, he, ok_bind, hh]
      rfl
    · rw [List.filter_append]
      by_cases hc : call.connection = c
      · have hcons : packetsOf (call :: log) c = (call.packet, call.size) :: packetsOf log c := by simp [packetsOf, hc]
        rw [hcons] at hts
        obtain ⟨t, ts, rfl, ht, hts⟩ := List.map_eq_cons_iff.mp hts.symm
        obtain ⟨hm, hms⟩ := List.forall_mem_cons.mp hmeans
        obtain ⟨hpacket, -⟩ := Prod.mk.inj ht
        rw [hpacket] at hm
        rw [List.flatMap_cons, List.filter_eq_self.mpr (by simp [hc])]
        refine List.rel_append ?_ (hheard c ts hts.symm hms)
        exact List.forall₂_map_left_iff.mpr (hevents t hm)
      · have hskip : packetsOf (call :: log) c = packetsOf log c := by simp [packetsOf, hc]
        rw [List.filter_eq_nil_iff.mpr (by simp [hc])]
        exact hheard c ts (hskip ▸ hts) hmeans

/-- What the listener was told of in a run. -/
theorem Inv.calls {x : Setup} {w : World} (h : Inv x w) : ∀ call ∈ w.log, call.packet.length < 2 ^ 32 ∧
    call.size = asInt call.packet.length := by
  intro call hcall
  have hmem : (call.packet, call.size) ∈ packetsOf w.log call.connection :=
    List.mem_map.mpr ⟨call, List.mem_filter.mpr ⟨hcall, by simp⟩, rfl⟩
  rw [h.log] at hmem
  obtain ⟨packet, hp, he⟩ := List.mem_map.mp hmem
  obtain ⟨hpacket, hsize⟩ := Prod.mk.inj he
  have hbound := Splitter.split_forall (c := frames x.maxFrameSize.toNat)
    (P := fun p => p.length ≤ x.maxFrameSize.toNat) (fun hc => by
      obtain ⟨h1, h2, he, -⟩ := cut_item hc
      rw [he, length_slice (by omega)]
      omega) _ packet hp
  have := x.maxFrameSize.toNat_lt
  rw [← hpacket, ← hsize]
  exact ⟨by omega, rfl⟩

/-! ## A client -/

def fitting (cap : Nat) (ts : List PacketTree) : List PacketTree := ts.filter fun t => t.enc.length ≤ cap

/-- A client streamed `ts` through one buffer of `cap` bytes, and took `packets`. -/
def Built (cap : Nat) (ts : List PacketTree) (packets : List Bytes) : Prop :=
  ∃ (buffer : Bytes) (jobs : List (List Outbound.Op)) (s : Outbound.OutboundPacketStream)
    (results : List (Except Outbound.Exn Bytes)), buffer.length = cap ∧
    List.Forall₂ (fun t ops => Outbound.Streams t ops ∧ ∀ op ∈ ops, op.Fits) ts jobs ∧
      Outbound.buildAll jobs (.mk' buffer) = ok (s, results) ∧ packets = results.filterMap Except.toOption

theorem Built.packets_eq {cap : Nat} (hcap : cap < 2 ^ 31) {ts : List PacketTree} {packets : List Bytes}
    (h : Built cap ts packets) :
    packets = (fitting cap ts).map PacketTree.enc := by
  obtain ⟨buffer, jobs, s, results, rfl, hjobs, hbuild, rfl⟩ := h
  obtain ⟨s', hb, -⟩ := Outbound.buildAll_spec hcap hjobs (Outbound.mk'_ordered buffer)
  rw [hb] at hbuild
  obtain ⟨-, rfl⟩ := Prod.mk.inj (Out.ok.inj hbuild)
  clear hb hbuild hjobs
  induction ts with
  | nil => rfl
  | cons t ts ih =>
    rw [List.map_cons, Outbound.fitted, fitting]
    by_cases h : t.enc.length ≤ buffer.length
    · rw [if_pos h, List.filter_cons_of_pos (by simpa using h)]
      exact congrArg _ ih
    · rw [if_neg h, List.filter_cons_of_neg (by simpa using h)]
      exact ih

/-- Packets that were streamed have been built. -/
theorem built_streamed {cap : Nat} (hcap : cap < 2 ^ 31) {ts : List PacketTree} {jobs : List (List Outbound.Op)}
    (hj : List.Forall₂ (fun t ops => Outbound.Streams t ops ∧ ∀ op ∈ ops, op.Fits) ts jobs) :
      Built cap ts ((fitting cap ts).map PacketTree.enc) := by
  have hlen : (List.replicate cap (0 : UInt8)).length = cap := List.length_replicate
  have hordered := Outbound.mk'_ordered (List.replicate cap 0)
  rw [hlen] at hordered
  obtain ⟨s, hs, -⟩ := Outbound.buildAll_spec hcap hj hordered
  have hbuilt : Built cap ts ((ts.map (Outbound.fitted cap)).filterMap Except.toOption) :=
    ⟨_, jobs, s, _, hlen, hj, hs, rfl⟩
  rwa [hbuilt.packets_eq hcap] at hbuilt

/-- In any run the server has heard, of a client that sends what it builds, the messages of the
    first packets that had room, in order; of all of them, once nothing is left to write or read. -/
theorem heard_in_order {x : Setup} (hx : x.Fits) {actions : List Action} (hf : ∀ a ∈ actions, a.Fits)
    (hp : Throughout (World.step x.breaks) Possible actions (.start x)) {l : OscPacketListener} (hr : Reachable l) :
    ∃ w heard, runCaught (World.step x.breaks) actions (.start x) = ok w ∧
      PrintingListener.processPackets w.log l = ok (l, heard) ∧
      ∀ c cap ts packets sending, cap < 2 ^ 31 → (∀ t ∈ ts, t.Sendable) → Built cap ts packets →
        (w.streams c).peer = .client packets sending →
        ∃ k, List.Forall₂ (fun h => Seen h.packet h.event) (heard.filter fun h => h.connection = c)
          (((fitting cap ts).take k).flatMap (reached l.maxBundleNestingDepth)) ∧
          (sending = none → (w.streams c).received = (w.streams c).sent → k = (fitting cap ts).length) := by
  obtain ⟨w, he, hi⟩ := run_inv hx hf hp
  obtain ⟨heard, hh, hheard⟩ := PrintingListener.processPackets_spec hr hi.calls
  refine ⟨w, heard, he, hh, fun c cap ts packets sending hcap hsend hbuilt hpeer => ?_⟩
  rw [hbuilt.packets_eq hcap] at hpeer
  have hmeans : ∀ t ∈ fitting cap ts, Means t.enc 0 (asInt t.enc.length) t := by
    intro t ht
    obtain ⟨hmem, hroom⟩ := List.mem_filter.mp ht
    have hlt : t.enc.length < 2 ^ 31 := lt_of_le_of_lt (by simpa using hroom) hcap
    have := enc_aligned t
    rw [(asInt_iff _).mpr hlt]
    exact means_enc (hsend t hmem) (by omega)
  -- the frames that have come in are the first packets
  generalize hsplit : ((frames x.maxFrameSize.toNat).split (w.streams c).received).1 = first
  have hfirst : first = ((fitting cap ts).take first.length).map PacketTree.enc := by
    have hpre := (hi.streams c).frames_first hpeer
    rw [hsplit] at hpre
    rw [List.map_take]
    exact List.prefix_iff_eq_take.mp hpre
  refine ⟨first.length, hheard c _ ?_ fun t ht => hmeans t (List.mem_of_mem_take ht), fun hsending hreceived => ?_⟩
  · rw [hi.log, hsplit]
    conv_lhs => rw [hfirst]
    exact List.map_map
  · obtain ⟨h1, h2, -⟩ := (hi.streams c).client _ _ hpeer
    rw [hsending, Sending.leftOf, List.append_nil, ← hreceived] at h1
    have hn := x.maxFrameSize.toNat_lt
    rw [h1, split_frames fun p hp => ⟨h2 p hp, lt_of_le_of_lt (h2 p hp) hn⟩] at hsplit
    rw [← hsplit, List.length_map]

def ping : PacketTree := .message [ch '/', ch 'a'] []

def pingOps : List Outbound.Op := [.beginMessageN [ch '/', ch 'a'], .endMessage]

/-- The client sends it twice, in four pieces, next to another peer; both are read at once. -/
def pings : List Action :=
  [.call 0 ping.enc, .send 0 (.wrote 4), .send 0 (.wrote 8), .write 1 [255], .run, .enter,
    .select (.ready [3]) (.accepted 5 0 ⟨0, 0⟩ (Vector.replicate 4 0)), .enter,
    .select (.ready [3]) (.accepted 6 1 ⟨0, 0⟩ (Vector.replicate 4 0)), .call 0 ping.enc, .send 0 (.wrote 4),
    .send 0 (.wrote 8), .enter, .select (.ready [5, 6]) .failed, .service (.bytes 24)]

theorem heard_in_order_pings : ∃ w heard, runCaught (World.step pair.breaks) pings (.start pair) = ok w ∧
    PrintingListener.processPackets w.log .fresh = ok (.fresh, heard) ∧
    List.Forall₂ (fun h => Seen h.packet h.event) (heard.filter fun h => h.connection = 0) [ping, ping] := by
  have hp : Throughout (World.step pair.breaks) Possible pings (.start pair) :=
    ⟨⟨by decide +kernel, [], rfl⟩, ⟨_, _, rfl, by decide, fun r hr => by cases hr; decide +kernel⟩,
      ⟨_, _, rfl, by decide, fun r hr => by cases hr; decide +kernel⟩, rfl, rfl, rfl,
      ⟨_, _, rfl, fun fds hf => by cases hf; decide +kernel, rfl, by decide +kernel, by decide +kernel, rfl⟩, rfl,
      ⟨_, _, rfl, fun fds hf => by cases hf; decide +kernel, rfl, by decide +kernel, by decide +kernel, rfl⟩,
      ⟨by decide +kernel, _, rfl⟩, ⟨_, _, rfl, by decide, fun r hr => by cases hr; decide +kernel⟩,
      ⟨_, _, rfl, by decide, fun r hr => by cases hr; decide +kernel⟩, rfl,
      ⟨_, _, rfl, fun fds hf => by cases hf; decide +kernel, trivial⟩,
      ⟨_, _, rfl, by decide, by decide, fun c hc => by cases hc; decide +kernel⟩, trivial⟩
  obtain ⟨w, heard, he, hh, hheard⟩ := heard_in_order (x := pair) ⟨by decide, by decide⟩ (by decide) hp .fresh
  have hd : (fun w : World => ((w.streams 0).peer, (w.streams 0).received, (w.streams 0).sent)) <$>
      runCaught (World.step pair.breaks) pings (.start pair) =
      ok (.client [ping.enc, ping.enc] none, frame ping.enc ++ frame ping.enc, frame ping.enc ++ frame ping.enc) := by
        decide +kernel
  rw [he, map_ok] at hd
  obtain ⟨hpeer, hd⟩ := Prod.mk.inj (Out.ok.inj hd)
  obtain ⟨hreceived, hsent⟩ := Prod.mk.inj hd
  have hbuild : Prod.snd <$> Outbound.buildAll [pingOps, pingOps] (.mk' (List.replicate 8 255)) =
    ok [.ok ping.enc, .ok ping.enc] := by
    decide +kernel
  obtain ⟨⟨s, results⟩, hs, hresults⟩ := map_eq_ok.mp hbuild
  have hjob : Outbound.Streams ping pingOps ∧ ∀ op ∈ pingOps, op.Fits := by
    refine ⟨?_, by simp [pingOps, Outbound.Op.Fits]⟩
    rw [ping, Outbound.Streams]
    exact ⟨_, [], .beginMessageN _, .nil, rfl⟩
  have hbuilt : Built 8 [ping, ping] [ping.enc, ping.enc] :=
    ⟨_, _, s, results, List.length_replicate, .cons hjob (.cons hjob .nil), hs,
      by rw [show results = _ from hresults]; rfl⟩
  have hsend : ∀ t ∈ [ping, ping], t.Sendable := by
    simp [ping, PacketTree.Sendable, SendableAddress]
    decide
  obtain ⟨k, hk, hall⟩ := hheard 0 8 [ping, ping] _ none (by decide) hsend hbuilt hpeer
  rw [hall rfl (hreceived.trans hsent.symm)] at hk
  exact ⟨w, heard, he, hh, hk⟩

end OscTap.Tcp
