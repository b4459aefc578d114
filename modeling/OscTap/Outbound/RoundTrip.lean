/-
  OscTap.Outbound.RoundTrip — decode undoes encode.

  A sendable packet whose encoding is an element size is streamed into any buffer that has
  the space, also one of `2 ^ 31` bytes or more: the stack never grows beyond the encoding
  (`streamed`). Proved: `round_trip`: reading the packet back sees what was streamed.
-/
import OscTap.Outbound.Encode
import OscTap.Received.Decode

namespace OscTap.Outbound

open OscTap.Lib OscTap.Lib.Out OscTap.Osc OscTap.Received

/-! ## The calls of a packet -/

theorem exists_passes {v : ArgValue} (h : v.Sendable) : ∃ rhs, Passes v rhs := by
  cases v with
  | bool b => exact ⟨_, .bool b⟩
  | nil => exact ⟨_, .nil⟩
  | infinitum => exact ⟨_, .infinitum⟩
  | int32 v => exact ⟨_, .int32 v⟩
  | float v => exact ⟨_, .float v⟩
  | char c => exact ⟨_, .char c⟩
  | rgbaColor v => exact ⟨_, .rgbaColor v⟩
  | midiMessage v => exact ⟨_, .midiMessage v⟩
  | int64 v => exact ⟨_, .int64 v⟩
  | timeTag v => exact ⟨_, .timeTag v⟩
  | double v => exact ⟨_, .double v⟩
  | string s => exact ⟨_, .stringView s⟩
  | symbol s => exact ⟨_, .symbol ⟨s, h⟩⟩
  | blob data =>
    have hd : data.length ≤ 0x7FFFFFFC := h
    have hn : (Int32.ofNat data.length).toInt = data.length := Int32.toInt_ofNat_of_lt (by omega)
    exact ⟨_, .blob hn (List.prefix_refl data)⟩
  | arrayBegin => exact ⟨_, .arrayBegin⟩
  | arrayEnd => exact ⟨_, .arrayEnd⟩

theorem exists_streams (t : PacketTree) : t.Sendable → ∃ ops, Streams t ops := by
  induction t using PacketTree.induction with
  | message address arguments =>
    intro hs
    rw [PacketTree.Sendable] at hs
    have hargs : ∃ operands, List.Forall₂ Passes arguments operands := by
      have hv := hs.2.1
      clear hs
      induction arguments with
      | nil => exact ⟨[], .nil⟩
      | cons v vs ih =>
        obtain ⟨rhs, h1⟩ := exists_passes (hv v (List.mem_cons_self ..))
        obtain ⟨operands, h2⟩ := ih fun w hw => hv w (List.mem_cons_of_mem _ hw)
        exact ⟨rhs :: operands, .cons h1 h2⟩
    obtain ⟨operands, ho⟩ := hargs
    exact ⟨_, by rw [Streams]; exact ⟨_, operands, .beginMessageN address, ho, rfl⟩⟩
  | bundle timeTag elements ih =>
    intro hs
    rw [PacketTree.Sendable, PacketTree.allSendable_iff] at hs
    have hall : ∃ inner, StreamsAll elements inner := by
      induction elements with
      | nil => exact ⟨[], by rw [StreamsAll]⟩
      | cons e es ihs =>
        obtain ⟨first, h1⟩ := ih e (List.mem_cons_self ..) (hs e (List.mem_cons_self ..))
        obtain ⟨rest, h2⟩ := ihs (fun e' he => ih e' (List.mem_cons_of_mem _ he)) fun e' he =>
          hs e' (List.mem_cons_of_mem _ he)
        exact ⟨first ++ rest, by rw [StreamsAll]; exact ⟨first, rest, h1, h2, rfl⟩⟩
    obtain ⟨inner, hi⟩ := hall
    exact ⟨_, by rw [Streams]; exact ⟨inner, hi, rfl⟩⟩

/-- An operand is not longer than what it is encoded as. -/
theorem Passes.fits {v : ArgValue} {rhs : Operand} (h : Passes v rhs) (hl : v.enc.length ≤ 0x7FFFFFFC) : rhs.Fits := by
  have hstr : ∀ s : Bytes, (strBlock s).length ≤ 0x7FFFFFFC → s.length + 1 ≤ 0x7FFFFFFC := fun s h => by
    rw [OpenStack.length_strBlock] at h; omega
  cases h with
  | stringView s => have := hstr s hl; show s.length + 4 < 2 ^ 32; omega
  | stdString s => have := hstr s hl; show s.length + 4 < 2 ^ 32; omega
  | cString s => have := hstr s.bytes hl; show s.bytes.length + 4 < 2 ^ 32; omega
  | symbol s => have := hstr s.bytes hl; show s.bytes.length + 4 < 2 ^ 32; omega
  | charArray s =>
    have := hstr s hl
    show (s ++ [0]).length + 4 < 2 ^ 32
    rw [length_snoc_zero]; omega
  | blob h hp =>
    have := hp.length_le
    exact ⟨by omega, by omega⟩
  | _ => trivial

theorem operands_fit {arguments : List ArgValue} {operands : List Operand} (h : List.Forall₂ Passes arguments operands)
    (hl : (arguments.flatMap ArgValue.enc).length ≤ 0x7FFFFFFC) : ∀ rhs ∈ operands, rhs.Fits := by
  induction h with
  | nil => intro rhs h; cases h
  | cons hv _ ih =>
    rw [List.flatMap_cons, List.length_append] at hl
    intro rhs hm
    rcases List.mem_cons.mp hm with rfl | hm
    · exact hv.fits (by omega)
    · exact ih (by omega) rhs hm

theorem streams_fit (t : PacketTree) : ∀ {ops : List Op}, Streams t ops → t.enc.length ≤ 0x7FFFFFFC →
    ∀ op ∈ ops, op.Fits := by
  induction t using PacketTree.induction with
  | message address arguments =>
    intro ops hs hl op hop
    rw [Streams] at hs
    obtain ⟨begin, operands, hb, ho, rfl⟩ := hs
    rw [PacketTree.enc, List.length_append, List.length_append, OpenStack.length_strBlock] at hl
    rcases List.mem_cons.mp hop with rfl | hop
    · cases hb with
      | beginMessage a => show a.bytes.length + 4 < 2 ^ 32; omega
      | beginMessageN a => show address.length + 4 < 2 ^ 32; omega
    · rcases List.mem_append.mp hop with hop | hop
      · obtain ⟨rhs, hr, rfl⟩ := List.mem_map.mp hop
        exact operands_fit ho (by omega) rhs hr
      · rw [List.mem_singleton.mp hop]; trivial
  | bundle timeTag elements ih =>
    intro ops hs hl op hop
    rw [Streams] at hs
    obtain ⟨inner, hi, rfl⟩ := hs
    rw [PacketTree.enc, List.length_append] at hl
    have hinner : ∀ o ∈ inner, o.Fits := by
      have hl' : (PacketTree.encElements elements).length ≤ 0x7FFFFFFC := by omega
      clear hl hop
      induction elements generalizing inner with
      | nil => rw [StreamsAll] at hi; rw [hi]; intro o ho; cases ho
      | cons e es ihs =>
        rw [StreamsAll] at hi
        obtain ⟨first, rest, h1, h2, rfl⟩ := hi
        rw [PacketTree.encElements, List.length_append, List.length_append] at hl'
        intro o ho
        rcases List.mem_append.mp ho with ho | ho
        · exact ih e (List.mem_cons_self ..) h1 (by omega) o ho
        · exact ihs (fun e' he => ih e' (List.mem_cons_of_mem _ he)) _ h2 (by omega) o ho
    rcases List.mem_cons.mp hop with rfl | hop
    · trivial
    · rcases List.mem_append.mp hop with hop | hop
      · exact hinner op hop
      · rw [List.mem_singleton.mp hop]; trivial

/-! ## The round trip -/

/-- In a buffer of any size that has the space, the stack never outgrows the packet. -/
theorem streamed {t : PacketTree} {ops : List Op} (h : Streams t ops) (hl : t.enc.length ≤ 0x7FFFFFFC) {buffer : Bytes}
    (hcap : t.enc.length ≤ buffer.length) :
    ∃ s, runAll apply ops (OutboundPacketStream.mk' buffer) = ok s ∧ s.isReady = true ∧ s.size = t.enc.length ∧
      s.packet = t.enc := by
  have hbetween : OpenStack.Between OpenStack.empty := ⟨by decide, rfl, rfl⟩
  have hask := @OpenStack.streams_run t.enc.length t _ _ h hbetween (Nat.zero_le _)
  rw [show OpenStack.empty.size + OpenStack.empty.slot + t.enc.length = t.enc.length from Nat.zero_add _,
    OpenStack.require_self (Nat.le_refl _)] at hask
  exact placed_run hask (streams_fit t h hl) (by omega) hcap

/-- Every sendable packet can be streamed, and every way to stream it reads back as it. -/
theorem round_trip {t : PacketTree} (hs : t.Sendable) (hl : t.enc.length ≤ 0x7FFFFFFC) :
    (∃ ops, Streams t ops) ∧ ∀ ops, Streams t ops → ∀ buffer : Bytes, t.enc.length ≤ buffer.length →
      ∃ s r, runAll apply ops (OutboundPacketStream.mk' buffer) = ok s ∧ s.isReady = true ∧
        readPacket s.packet s.size = ok r ∧ ReadsAs s.packet r t := by
  refine ⟨exists_streams t hs, fun ops h buffer hcap => ?_⟩
  obtain ⟨s, he, hready, hsize, hpacket⟩ := streamed h hl hcap
  obtain ⟨r, hread, hr⟩ := readPacket_enc hs hl
  exact ⟨s, r, he, hready, by rw [hpacket, hsize, hread], hpacket ▸ hr⟩

/-- A bundle of an empty bundle and of a message with a string, a blob and an array. -/
def nestedBundle : PacketTree :=
  .bundle 1 [.bundle 2 [], .message [ch '/', ch 'a'] [.string [], .blob [0, 1, 2], .arrayBegin, .double 3, .arrayEnd]]

theorem round_trip_nestedBundle : ∃ ops, Streams nestedBundle ops ∧
    ∃ s r, runAll apply ops (OutboundPacketStream.mk' (List.replicate 80 255)) = ok s ∧
      readPacket s.packet s.size = ok r ∧
      ReadsAs s.packet r nestedBundle := by
  have hs : nestedBundle.Sendable := by
    simp [nestedBundle, PacketTree.Sendable, PacketTree.AllSendable, SendableAddress, ArgValue.Sendable]
    decide
  have hl : nestedBundle.enc.length ≤ 80 := by decide +kernel
  obtain ⟨⟨ops, ho⟩, hall⟩ := round_trip hs (by omega)
  obtain ⟨s, r, h1, -, h2, h3⟩ := hall ops ho (List.replicate 80 255) (by rw [List.length_replicate]; exact hl)
  exact ⟨ops, ho, s, r, h1, h2, h3⟩

end OscTap.Outbound
