/-
  OscTap.Outbound.RelayPrint — what is printed of a packet depends on the packet, not on how it is
  written.

  `PacketTree.text` is the text of a packet that is known by its addresses, arguments and time tags
  alone. The printer takes an address that begins with NUL for a number, of which the padding is a
  part, so packets with such an address are left out (`Named`).

  Proved: `relay_prints`: an accepted packet is printed as the text of what it means, and so is what
  a relay sends on.
-/
import OscTap.Outbound.Relay
import OscTap.Received.PrintHistory

namespace OscTap.Osc.PacketTree

open OscTap.Lib OscTap.Received

variable (fmt : Formats)

mutual

/-- The text of a packet, at an indentation. -/
def text : Nat → PacketTree → Bytes
  | n, message address arguments =>
    indentText n ++ (bytesOf "[" ++ address ++ argumentsText fmt true arguments ++ bytesOf "]")
  | n, bundle timeTag elements =>
    indentText n ++ bytesOf "\x7b ( " ++ timeTagText timeTag ++ bytesOf " )\n" ++
      lines (n + 1) elements ++ indentText n ++ bytesOf "\x7d"

def lines : Nat → List PacketTree → Bytes
  | _, [] => []
  | n, t :: ts => text n t ++ bytesOf "\n" ++ lines n ts

end

mutual

/-- No address is empty. -/
def Named : PacketTree → Prop
  | message address _ => address ≠ []
  | bundle _ elements => AllNamed elements

def AllNamed : List PacketTree → Prop
  | [] => True
  | t :: ts => Named t ∧ AllNamed ts

end

theorem allNamed_iff {ts : List PacketTree} : AllNamed ts ↔ ∀ t ∈ ts, t.Named := by
  induction ts with
  | nil => simp [AllNamed]
  | cons t ts ih => simp [AllNamed, ih]

end OscTap.Osc.PacketTree

namespace OscTap.Outbound

open OscTap.Lib OscTap.Lib.Out OscTap.Osc OscTap.Received

variable {m : Bytes}

theorem addressText_eq {p : Nat} {address : Bytes} (h : (rdCString m p : Out Received.Exn Bytes) = ok address)
    (hne : address ≠ []) :
    addressText m p = address := by
  have hs := cStrAt_of_read h
  cases hs with
  | nil => exact absurd rfl hne
  | cons hc h0 hrest =>
    rw [addressText, if_neg (by simp [hc, h0])]
    exact CStrAt.takeWhile_eq (.cons hc h0 hrest)

variable (fmt : Formats)

/-- The full read of a packet has the text of what it means. -/
theorem readTree_text (t : PacketTree) : ∀ {r : ReadTree} {n : Nat}, ReadsAs m r t → t.Named →
    r.text m fmt n = t.text fmt n := by
  induction t using PacketTree.induction with
  | message address arguments =>
    intro r n h hn
    cases h with
    | message haddress hvalues _ _ =>
      rw [ReadTree.text, PacketTree.text, messageText,
        addressText_eq haddress (by simpa [PacketTree.Named] using hn), hvalues]
  | bundle timeTag elements ih =>
    intro r n h hn
    have hall := PacketTree.allNamed_iff.mp (show PacketTree.AllNamed elements by simpa [PacketTree.Named] using hn)
    cases h with
    | @bundle b _ trees _ hcount hreads =>
      have hlines : ReadTree.lines m fmt (n + 1) trees = PacketTree.lines fmt (n + 1) elements := by
        clear hcount hn
        induction hreads with
        | nil => rw [ReadTree.lines, PacketTree.lines]
        | cons hx _ ihs =>
          rw [ReadTree.lines, PacketTree.lines, ih _ (List.mem_cons_self ..) hx (hall _ (List.mem_cons_self ..)),
            ihs (fun t ht => ih t (List.mem_cons_of_mem _ ht)) fun t ht => hall t (List.mem_cons_of_mem _ ht)]
      rw [ReadTree.text, PacketTree.text, hlines]

/-- An accepted packet is printed as what it means. -/
theorem printPacket_means {q : PacketBuffer} (h : tryValidatePacket q.bytes 0 q.bytes.length 64 = ok ())
    {r : ReadTree} {t : PacketTree} (hr : readPacket q.bytes q.bytes.length = ok r) (ha : ReadsAs q.bytes r t)
    (hn : t.Named) :
    Ends (printPacket fmt q) 0 (.done (t.text fmt 0 ++ bytesOf "\n")) := by
  obtain ⟨r', hr', hends⟩ := printPacket_full fmt h
  obtain rfl : r = r' := Out.ok.inj (hr.symm.trans hr')
  rwa [readTree_text fmt t ha hn] at hends

/-- Printing does not tell a packet from its copy: whatever is accepted is printed as the text of
    the packet that it means, and so is what is sent on by any calls that stream that packet. -/
theorem relay_prints {q : PacketBuffer} (h : tryValidatePacket q.bytes 0 q.bytes.length 64 = ok ()) :
    ∃ t r, readPacket q.bytes q.bytes.length = ok r ∧ ReadsAs q.bytes r t ∧ (t.Named →
      Ends (printPacket fmt q) 0 (.done (t.text fmt 0 ++ bytesOf "\n")) ∧
      (t.enc.length ≤ 0x7FFFFFFC → (∃ ops, Streams t ops) ∧ ∀ ops, Streams t ops →
        ∀ buffer : Bytes, t.enc.length ≤ buffer.length →
        ∃ s copy, runAll apply ops (OutboundPacketStream.mk' buffer) = ok s ∧ copy.bytes = s.packet ∧
          Ends (printPacket fmt copy) 0 (.done (t.text fmt 0 ++ bytesOf "\n")))) := by
  have hl : 0 + (q.bytes.length : Int).toNat ≤ q.bytes.length := by simp
  obtain ⟨t, ht, hn⟩ := ((tryValidatePacket_decides 64 0 _ hl).iff.mp h).means hl
  obtain ⟨r, hr, ha⟩ := ht.readPacket (by simp)
  obtain ⟨hs, -⟩ := ht.sendable t hl
  refine ⟨t, r, hr, ha, fun hnamed => ⟨printPacket_means fmt h hr ha hnamed, fun hmax =>
    ⟨exists_streams t hs, fun ops ho buffer hcap => ?_⟩⟩⟩
  obtain ⟨s, hrun, -, -, hpacket⟩ := streamed ho hmax hcap
  obtain ⟨r', hr', ha'⟩ := readPacket_enc hs hmax
  have hsize := (means_enc hs hmax).sizeOk
  exact ⟨s, ⟨t.enc, validateSizeNoThrow_none.mpr hsize⟩, hrun, hpacket.symm,
    printPacket_means fmt (enc_accepted hs hn hmax) hr' ha' hnamed⟩

/-- `oddMessage`, in a buffer. -/
def oddPacket : PacketBuffer := ⟨oddMessage, by decide⟩

/-- No argument of `oddMessage` asks for a number or a date. -/
def noFormats : Formats := ⟨fun _ => [], fun _ => [], fun _ => none⟩

theorem relay_prints_oddMessage : ∃ t : PacketTree, t.Named ∧
    Ends (printPacket noFormats oddPacket) 0 (.done (t.text noFormats 0 ++ bytesOf "\n")) := by
  obtain ⟨t, r, hr, ha, hall⟩ := @relay_prints noFormats oddPacket (by decide +kernel)
  have hd : (fun r => match r with | .message x _ _ => some x.addressPattern | .bundle .. => none) <$>
    readPacket oddMessage 8 = ok (some 0) := by
    decide +kernel
  rw [show readPacket oddMessage 8 = ok r from hr, map_ok] at hd
  have hnamed : t.Named := by
    cases ha with
    | bundle => cases Out.ok.inj hd
    | @message x _ _ address _ haddress _ _ _ =>
      rw [Option.some.inj (Out.ok.inj hd)] at haddress
      obtain rfl : [ch '/'] = address := Out.ok.inj
        ((show (rdCString oddMessage 0 : Out Received.Exn Bytes) = _ by decide +kernel).symm.trans haddress)
      simp [PacketTree.Named]
  exact ⟨t, hnamed, (hall hnamed).1⟩

end OscTap.Outbound
