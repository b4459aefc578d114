/-
  OscTap.Demos.TcpSend — the sender on the command line, over TCP (`demos/tcp_send.cpp`), and the
  server that hears it.

  The arguments are typed, and the message is built, as in `demos/osc_send.cpp`; the packet is the
  only one that goes over the connection.

  Proved: `typed_is_heard`: in any run the server hears, of a client that is such a program, nothing
  yet or one message, with the values that were typed.
-/
import OscTap.Demos.OscSend
import OscTap.Tcp.Server

namespace OscTap.Demos.TcpSend

open OscTap.Lib OscTap.Lib.Out OscTap.Osc OscTap.Received OscTap.Outbound OscTap.Listener OscTap.Tcp
open OscTap.Framing (frame)
open OscTap.Demos.OscSend (CLibrary Outcome Types)

/-- `main`: of the one over UDP but for the socket. -/
def main (c : CLibrary) (getaddrinfo : Bytes → Option (Option UInt32)) (buffer : Bytes) (argv : List CStr) :
    Out Empty Outcome :=
  OscSend.main c getaddrinfo buffer argv

/-! ## The packet -/

variable {c : CLibrary} {getaddrinfo : Bytes → Option (Option UInt32)} {buffer : Bytes}
    {program host portText address : CStr}
  {args : List CStr} {vs : List ArgValue} {remote : IpEndpointName} {packet : Bytes}

/-- What it sends is the message of what was typed. -/
theorem sent_typed (hbuf : buffer.length = 1024) (hl : ∀ tok ∈ address :: args, tok.bytes.length + 4 < 2 ^ 32)
    (h : List.Forall₂ (fun tok v => Types c tok.bytes v) args vs)
    (hmain : main c getaddrinfo buffer (program :: host :: portText :: address :: args) = ok (.send remote packet)) :
    packet = (PacketTree.message address.bytes vs).enc ∧ packet.length ≤ 1024 := by
  obtain ⟨port, hport, -⟩ := bind_eq_ok.mp hmain
  rw [main, OscSend.sent_exactly hbuf (atoi_eq.mp hport) hl h] at hmain
  split at hmain
  · cases hmain
  · obtain ⟨-, rfl⟩ := Outcome.send.inj (Out.ok.inj hmain)
    exact ⟨rfl, by omega⟩

theorem typed_sendable (ha : address.bytes.head? ≠ some (ch '#')) (hl : ∀ tok ∈ args, tok.bytes.length + 4 < 2 ^ 32)
    (h : List.Forall₂ (fun tok v => Types c tok.bytes v) args vs) : (PacketTree.message address.bytes vs).Sendable := by
  obtain ⟨hplain, -⟩ := OscSend.appendArgs_eq h hl
  have hnested := copied_nested vs
  rw [List.filter_eq_self.mpr fun v hv => (hplain v hv).2] at hnested
  rw [PacketTree.Sendable]
  exact ⟨⟨address.noNul, ha⟩, fun v hv => (hplain v hv).1, hnested⟩

theorem typed_built (hl : ∀ tok ∈ address :: args, tok.bytes.length + 4 < 2 ^ 32)
    (h : List.Forall₂ (fun tok v => Types c tok.bytes v) args vs) :
    Built 1024 [.message address.bytes vs] ((fitting 1024 [.message address.bytes vs]).map PacketTree.enc) := by
  obtain ⟨-, operands, hpasses, hfits, -⟩ := OscSend.appendArgs_eq h fun tok ht => hl tok (List.mem_cons_of_mem _ ht)
  have hops := OscSend.begun_fits (hl address (List.mem_cons_self ..)) hfits
  have hjob : Streams (.message address.bytes vs)
    (.beginMessage address :: (operands.map .append ++ [.endMessage])) := by
    rw [Streams]
    exact ⟨_, operands, .beginMessage address, hpasses, rfl⟩
  refine built_streamed (by decide) (.cons ⟨hjob, ?_⟩ .nil)
  rw [← List.cons_append]
  exact List.forall_mem_append.mpr ⟨hops, fun op hop => List.mem_singleton.mp hop ▸ trivial⟩

/-! ## The server -/

theorem reached_message (d : Nat) (address : Bytes) (arguments : List ArgValue) :
    reached d (.message address arguments) = [.message address arguments] := by cases d <;> rfl

/-- In any run of the server, whatever its other peers send: of a client that is this program it has
    heard nothing, or one message, which has the address and the values that were typed; and that
    message, once nothing is left to write or read. -/
theorem typed_is_heard {x : Setup} (hx : x.Fits) {actions : List Action} (hf : ∀ a ∈ actions, a.Fits)
    (hp : Throughout (World.step x.breaks) Possible actions (.start x)) {l : OscPacketListener} (hr : Reachable l) :
    ∃ w heard, runCaught (World.step x.breaks) actions (.start x) = ok w ∧
      PrintingListener.processPackets w.log l = ok (l, heard) ∧
      ∀ (connection : Nat) (c : CLibrary) (getaddrinfo : Bytes → Option (Option UInt32)) (buffer : Bytes)
        (program host portText address : CStr) (args : List CStr) (vs : List ArgValue) (remote : IpEndpointName)
          (packet : Bytes) sending,
        buffer.length = 1024 → (∀ tok ∈ address :: args, tok.bytes.length + 4 < 2 ^ 32) →
          address.bytes.head? ≠ some (ch '#') →
        List.Forall₂ (fun tok v => Types c tok.bytes v) args vs →
        main c getaddrinfo buffer (program :: host :: portText :: address :: args) = ok (.send remote packet) →
        (w.streams connection).peer = .client [packet] sending →
        ((heard.filter fun h => h.connection = connection) = [] ∨
          ∃ h, (heard.filter fun h => h.connection = connection) = [h] ∧
            Seen h.packet h.event (.message address.bytes vs)) ∧
        (sending = none → (w.streams connection).received = (w.streams connection).sent →
          (heard.filter fun h => h.connection = connection) ≠ []) := by
  obtain ⟨w, heard, he, hh, hheard⟩ := heard_in_order hx hf hp hr
  refine ⟨w, heard, he, hh, ?_⟩
  intro connection c getaddrinfo buffer program host portText address args vs remote packet sending hbuf hl ha
    hargs hmain hpeer
  obtain ⟨rfl, hfit⟩ := sent_typed hbuf hl hargs hmain
  have hone : fitting 1024 [PacketTree.message address.bytes vs] = [.message address.bytes vs] := by
    simp [fitting, hfit]
  have hsend := typed_sendable ha (fun tok ht => hl tok (List.mem_cons_of_mem _ ht)) hargs
  have hbuilt := typed_built hl hargs
  rw [hone] at hbuilt
  obtain ⟨k, hk, hall⟩ := hheard connection 1024 _ _ sending (by decide) (by simpa using hsend) hbuilt hpeer
  rw [hone] at hk hall
  generalize (heard.filter fun h => h.connection = connection) = here at hk
  cases k with
  | zero =>
    rw [List.take_zero, List.flatMap_nil] at hk
    cases hk
    exact ⟨.inl rfl, fun hs hr => absurd (hall hs hr) (by simp)⟩
  | succ k =>
    rw [List.take_succ_cons, List.take_nil, List.flatMap_cons, List.flatMap_nil, reached_message, List.append_nil] at hk
    obtain ⟨h, _, hseen, hrest, rfl⟩ := List.forall₂_cons_right_iff.mp hk
    cases hrest
    exact ⟨.inr ⟨h, rfl, hseen⟩, fun _ _ => List.cons_ne_nil _ _⟩

def typed : PacketTree := .message [ch '/', ch 'a'] [.bool true]

def typedRun : List Action :=
  [.call 0 typed.enc, .send 0 (.wrote 4), .send 0 (.wrote 8), .run, .enter,
    .select (.ready [3]) (.accepted 5 0 ⟨0, 0⟩ (Vector.replicate 4 0)), .enter, .select (.ready [5]) .failed,
    .service (.bytes 12)]

theorem typed_is_heard_a : ∃ w heard, runCaught (World.step pair.breaks) typedRun (.start pair) = ok w ∧
    PrintingListener.processPackets w.log .fresh = ok (.fresh, heard) ∧
    ∃ h, (heard.filter fun h => h.connection = 0) = [h] ∧ Seen h.packet h.event typed := by
  have hp : Throughout (World.step pair.breaks) Possible typedRun (.start pair) :=
    ⟨⟨by decide +kernel, [], rfl⟩, ⟨_, _, rfl, by decide, fun r hr => by cases hr; decide +kernel⟩,
      ⟨_, _, rfl, by decide, fun r hr => by cases hr; decide +kernel⟩, rfl, rfl,
      ⟨_, _, rfl, fun fds hf => by cases hf; decide +kernel, rfl, by decide +kernel, by decide +kernel, rfl⟩, rfl,
      ⟨_, _, rfl, fun fds hf => by cases hf; decide +kernel, trivial⟩,
      ⟨_, _, rfl, by decide, by decide, fun c hc => by cases hc; decide +kernel⟩, trivial⟩
  obtain ⟨w, heard, he, hh, hheard⟩ := typed_is_heard (x := pair) ⟨by decide, by decide⟩ (by decide) hp .fresh
  have hd : (fun w : World => ((w.streams 0).peer, (w.streams 0).received, (w.streams 0).sent)) <$>
      runCaught (World.step pair.breaks) typedRun (.start pair) =
      ok (.client [typed.enc] none, frame typed.enc, frame typed.enc) := by decide +kernel
  rw [he, map_ok] at hd
  obtain ⟨hpeer, hd⟩ := Prod.mk.inj (Out.ok.inj hd)
  obtain ⟨hreceived, hsent⟩ := Prod.mk.inj hd
  have hsend : main OscSend.noFloats numericOnly (List.replicate 1024 255)
      [⟨bytesOf "tcp_send", by decide⟩, ⟨bytesOf "127.0.0.1", by decide⟩, ⟨bytesOf "9000", by decide⟩,
        ⟨[ch '/', ch 'a'], by decide⟩, ⟨bytesOf "T", by decide⟩] =
        ok (.send ⟨0x7F000001, 9000⟩ typed.enc) := by decide +kernel
  obtain ⟨hone, hall⟩ := hheard 0 OscSend.noFloats numericOnly _ _ _ _ _ _ [.bool true] _ _ none List.length_replicate
    (by decide) (by decide) (.cons .yes .nil) hsend hpeer
  exact ⟨w, heard, he, hh, hone.resolve_left (hall rfl (hreceived.trans hsent.symm))⟩

end OscTap.Demos.TcpSend
