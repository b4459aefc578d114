/-
  OscTap.Outbound.Relay — sending on what was received.

  A relay reads a packet and streams it again. The gate accepts many spellings of a packet:
  padding that is not NUL, strings with bytes behind their NUL, a message without type tags,
  bytes behind the last argument. What is sent on is the packet's own encoding.

  Proved: `relay`: whatever is accepted can be sent on, in at most twice the bytes; the next
  gate accepts it at the same bound, and its reader sees the same packet.
-/
import OscTap.Outbound.RoundTrip
import OscTap.Received.Meaning

namespace OscTap.Outbound

open OscTap.Lib OscTap.Lib.Out OscTap.Osc OscTap.Received

/-- Whatever is accepted can be sent on, by any calls that stream it: what is sent is accepted,
    reads as the same packet, and depends on that packet only. -/
theorem relay {m : Bytes} {size : Int} {d : Nat} (hm : m.length = size.toNat)
    (h : tryValidatePacket m 0 size d = ok ()) :
    ∃ t r, readPacket m size = ok r ∧ ReadsAs m r t ∧ t.enc.length ≤ 2 * size ∧
      (t.enc.length ≤ 0x7FFFFFFC → (∃ ops, Streams t ops) ∧ ∀ ops, Streams t ops → ∀ buffer : Bytes,
        t.enc.length ≤ buffer.length → ∃ s r', runAll apply ops (OutboundPacketStream.mk' buffer) = ok s ∧
          s.isReady = true ∧
          s.packet = t.enc ∧ tryValidatePacket s.packet 0 s.size d = ok () ∧
          readPacket s.packet s.size = ok r' ∧ ReadsAs s.packet r' t) := by
  have hl : 0 + size.toNat ≤ m.length := by omega
  obtain ⟨t, ht, hn⟩ := ((tryValidatePacket_decides d 0 size hl).iff.mp h).means hl
  obtain ⟨r, hr, hra⟩ := ht.readPacket hm
  obtain ⟨hs, hlen⟩ := ht.sendable t hl
  have hpos := ht.sizeOk.1
  refine ⟨t, r, hr, hra, by omega, fun hmax => ⟨exists_streams t hs, fun ops ho buffer hcap => ?_⟩⟩
  obtain ⟨s, hrun, hready, hsize, hpacket⟩ := streamed ho hmax hcap
  obtain ⟨r', hread, hra'⟩ := readPacket_enc hs hmax
  refine ⟨s, r', hrun, hready, hpacket, ?_, by rw [hpacket, hsize, hread], hpacket ▸ hra'⟩
  rw [hpacket, hsize]
  exact enc_accepted hs hn hmax

/-- The address "/" with a byte between its NULs, and no tag behind the comma. -/
def oddMessage : Bytes := [ch '/', 0, 7, 0, ch ',', 0, 9, 9]

theorem relay_oddMessage : ∃ t ops s, Streams t ops ∧
    runAll apply ops (OutboundPacketStream.mk' (List.replicate 16 255)) = ok s ∧
    tryValidatePacket s.packet 0 s.size 0 = ok () := by
  obtain ⟨t, r, -, -, hlen, hall⟩ := @relay oddMessage 8 0 rfl (by decide +kernel)
  obtain ⟨⟨ops, ho⟩, hrelay⟩ := hall (by omega)
  obtain ⟨s, -, hrun, -, -, hgate, -⟩ := hrelay ops ho (List.replicate 16 255) (by rw [List.length_replicate]; omega)
  exact ⟨t, ops, s, ho, hrun, hgate⟩

end OscTap.Outbound
