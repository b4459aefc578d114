/-
  OscTap.Outbound.Message — one message, whatever its operands, and what a reader of it sees.

  `messageOps` are the calls that stream an address and operands; `message_streams`: in any
  buffer they write `messageBytes` if it fits, and otherwise one throws. `Operand.value` is
  what an operand says: a string up to its first NUL. An operand that keeps its place has a
  block that is one argument of its tag. Proved: `message_spells`: where all of them do, the
  message spells what was streamed.
-/
import OscTap.Outbound.Encode
import OscTap.Received.Decode
import OscTap.Received.Reading

namespace OscTap.Outbound

open OscTap.Lib OscTap.Lib.Out OscTap.Osc OscTap.Received
open OscTap.Received.Grammar (StrBlock)

namespace Operand

def value : Operand → ArgValue
  | bool rhs => .bool rhs
  | infinitum => .infinitum
  | nil => .nil
  | int32 rhs => .int32 rhs
  | float bits => .float bits
  | char rhs => .char rhs
  | rgbaColor rhs => .rgbaColor rhs
  | midiMessage rhs => .midiMessage rhs
  | int64 rhs => .int64 rhs
  | timeTag bits => .timeTag bits
  | double bits => .double bits
  | stringView rhs | stdString rhs => .string (upToNul rhs)
  | cString rhs => .string rhs.bytes
  | charArray ref => .string (upToNul ref)
  | symbol rhs => .symbol rhs.bytes
  | blob data size => .blob (data.take size.toInt.toNat)
  | arrayInitiator => .arrayBegin
  | arrayTerminator => .arrayEnd

/-- A blob's size is not negative, and its bytes are there. -/
def Copies : Operand → Prop
  | blob data size => 0 ≤ size.toInt ∧ size.toInt ≤ data.length
  | _ => True

/-- A string's block is one padded string, with a NUL in it. -/
def KeepsPlace : Operand → Prop
  | stringView rhs | stdString rhs => StaysWhole rhs
  | charArray ref => 0 ∈ ref ∧ StrBlock (padded ref)
  | _ => True

theorem tag_value (rhs : Operand) : rhs.value.tag = rhs.tag := by
  cases rhs with
  | bool rhs => cases rhs <;> rfl
  | _ => rfl

theorem Copies.fits {rhs : Operand} (h : rhs.Copies) (hl : rhs.bytes.length ≤ 0x7FFFFFFC) : rhs.Fits := by
  have hstr : ∀ s : Bytes, (strBlock s).length ≤ 0x7FFFFFFC → s.length + 4 < 2 ^ 32 := fun s h => by
    rw [OpenStack.length_strBlock] at h
    omega
  cases rhs with
  | stringView rhs => exact hstr rhs hl
  | stdString rhs => exact hstr rhs hl
  | cString rhs => exact hstr rhs.bytes hl
  | symbol rhs => exact hstr rhs.bytes hl
  | charArray ref =>
    have hl' : (padded ref).length ≤ 0x7FFFFFFC := hl
    rw [length_padded] at hl'
    show ref.length + 4 < 2 ^ 32
    omega
  | blob data size => exact h
  | _ => trivial

end Operand

theorem values_tags (operands : List Operand) :
    (operands.map Operand.value).map ArgValue.tag = operands.map Operand.tag := by
  rw [List.map_map]
  exact List.map_congr_left fun rhs _ => rhs.tag_value

theorem operandTags_eq (operands : List Operand) : operandTags operands = tagBytes (operands.map Operand.value) := by
  rw [tagBytes_eq, values_tags, List.map_map]
  rfl

theorem Operand.length_bytes_mod (rhs : Operand) : rhs.bytes.length % 4 = 0 := by
  cases rhs with
  | int32 v | float v | char v | rgbaColor v | midiMessage v => exact length_be32_mod _
  | int64 v | timeTag v | double v => exact length_be64_mod _
  | stringView s => exact length_strBlock_mod s
  | stdString s => exact length_strBlock_mod s
  | cString s => exact length_strBlock_mod s.bytes
  | symbol s => exact length_strBlock_mod s.bytes
  | charArray ref =>
    show (padded ref).length % 4 = 0
    rw [length_padded]
    exact padLen_mod _
  | blob data size => exact length_blob_mod _ (data.take size.toInt.toNat)
  | _ => rfl

/-- The size of a message is one that a packet can have. -/
theorem length_messageBytes (address : Bytes) (operands : List Operand) :
    0 < (messageBytes address operands).length ∧ (messageBytes address operands).length % 4 = 0 := by
  have h1 := length_strBlock_mod address
  have h2 : (tagBlock (operandTags operands)).length % 4 = 0 := length_strBlock_mod _
  have h3 : (operands.flatMap Operand.bytes).length % 4 = 0 := by
    induction operands with
    | nil => rfl
    | cons rhs operands ih =>
      have := rhs.length_bytes_mod
      have := ih (length_strBlock_mod _)
      rw [List.flatMap_cons, List.length_append]
      omega
  have h4 := (strBlock_ended address).pos
  rw [messageBytes, List.length_append, List.length_append]
  omega

/-! ## The calls -/

def messageOps (address : Bytes) (operands : List Operand) : List Op :=
  .beginMessageN address :: (operands.map Op.append ++ [.endMessage])

theorem length_bytes_le {operands : List Operand} {rhs : Operand} (h : rhs ∈ operands) :
    rhs.bytes.length ≤ (operands.flatMap Operand.bytes).length := by
  obtain ⟨xs, ys, rfl⟩ := List.append_of_mem h
  simp only [List.flatMap_append, List.flatMap_cons, List.length_append]
  omega

theorem messageOps_fit {address : Bytes} {operands : List Operand} (hc : ∀ rhs ∈ operands, rhs.Copies)
    (hl : (messageBytes address operands).length ≤ 0x7FFFFFFC) : ∀ op ∈ messageOps address operands, op.Fits := by
  rw [messageBytes, List.length_append, List.length_append, OpenStack.length_strBlock] at hl
  intro op hop
  rcases List.mem_cons.mp hop with rfl | hop
  · show address.length + 4 < 2 ^ 32
    omega
  · rcases List.mem_append.mp hop with hop | hop
    · obtain ⟨rhs, hrhs, rfl⟩ := List.mem_map.mp hop
      have := length_bytes_le hrhs
      exact (hc rhs hrhs).fits (by omega)
    · rw [List.mem_singleton.mp hop]
      trivial

/-- The calls for a message throw in a buffer that it does not fit, and write it in one it does. -/
theorem message_streams {address : Bytes} {operands : List Operand} (hc : ∀ rhs ∈ operands, rhs.Copies)
    (hl : (messageBytes address operands).length ≤ 0x7FFFFFFC) (buffer : Bytes) :
    if buffer.length < (messageBytes address operands).length then
      ∃ s, runAll apply (messageOps address operands) (.mk' buffer) = err (.outOfBufferMemory, s)
    else ∃ s, runAll apply (messageOps address operands) (.mk' buffer) = ok s ∧ s.isReady = true ∧
      s.size = (messageBytes address operands).length ∧ s.packet = messageBytes address operands := by
  have hfits := messageOps_fit hc hl
  have hbetween : OpenStack.Between OpenStack.empty := ⟨by decide, rfl, rfl⟩
  have hask : ∀ cap, askAll (OpenStack.step cap) (messageOps address operands) .empty =
      OpenStack.require cap (messageBytes address operands).length
        (OpenStack.empty.placed (messageBytes address operands)) := by
    intro cap
    have h := @OpenStack.message_run _ cap hbetween _ _ operands (.beginMessageN address)
    rwa [show OpenStack.empty.size + OpenStack.empty.slot + (messageBytes address operands).length =
      (messageBytes address operands).length from Nat.zero_add _] at h
  by_cases hfit : buffer.length < (messageBytes address operands).length
  · rw [if_pos hfit]
    have hrun := @runs_as _ hfits buffer (by omega)
    rw [hask, OpenStack.require, if_pos hfit] at hrun
    exact hrun
  · rw [if_neg hfit]
    exact placed_run (hask _ |>.trans (OpenStack.require_self (Nat.le_refl _))) hfits (by omega) (by omega)

/-- The calls of a message that begins with a C string. -/
theorem begun_streams {address : CStr} {operands : List Operand}
    (hfits : ∀ op ∈ Op.beginMessage address :: operands.map .append, op.Fits) {buffer : Bytes}
    (hcap : buffer.length < 2 ^ 31) :
    if buffer.length < (messageBytes address.bytes operands).length then
      ∃ s, runAll apply (.beginMessage address :: (operands.map .append ++ [.endMessage])) (.mk' buffer) =
        err (.outOfBufferMemory, s)
    else ∃ s, runAll apply (.beginMessage address :: (operands.map .append ++ [.endMessage])) (.mk' buffer) = ok s ∧
      s.packet = messageBytes address.bytes operands := by
  have hrun := @runs_as ((.beginMessage address :: operands.map .append) ++ [.endMessage])
    (List.forall_mem_append.mpr ⟨hfits, fun op hop => List.mem_singleton.mp hop ▸ trivial⟩) buffer hcap
  have hask := @OpenStack.message_run _ buffer.length
    (show OpenStack.Between .empty from ⟨by decide, rfl, rfl⟩) _ _ operands (.beginMessage address)
  rw [show OpenStack.empty.size + OpenStack.empty.slot + (messageBytes address.bytes operands).length =
    (messageBytes address.bytes operands).length from Nat.zero_add _, OpenStack.require] at hask
  rw [List.cons_append, hask] at hrun
  split
  · rw [if_pos ‹_›] at hrun
    exact hrun
  · rw [if_neg ‹_›] at hrun
    obtain ⟨s, hs, hr, hi⟩ := hrun
    obtain ⟨-, -, hpacket⟩ := hr.placed hi (by omega)
    exact ⟨s, hs, hpacket⟩

/-! ## What the bytes say -/

variable {m : Bytes}

theorem str4_at {w : Bytes} {p : Nat} (h : At m p w) : IsStr4 m p (p + w.length) ↔ StrBlock w := by
  rw [isStr4_iff (Nat.le_add_right ..) h.1, h.2]

theorem cstr_at {w : Bytes} {p : Nat} (h : At m p w) (h0 : 0 ∈ w) : CStrAt m p (upToNul w) :=
  .of_mem h0 fun _ hi => h.getElem? hi

/-- A string's block spells the string up to its first NUL. -/
theorem strBlock_at {s : Bytes} {p : Nat} (h : At m p (strBlock s)) : CStrAt m p (upToNul s) := by
  have h0 : (0 : UInt8) ∈ s ++ [0] := List.mem_append_right _ (List.mem_singleton.mpr rfl)
  have := cstr_at h (List.mem_append_left _ h0)
  rwa [strBlock, padded, upToNul_append h0, upToNul_snoc] at this

theorem passes_at {rhs : Operand} {p : Nat} (hp : Passes rhs.value rhs) (h : At m p rhs.bytes)
    (hs : rhs.value.Sendable) :
    ArgRange m rhs.value.tag p (p + rhs.bytes.length) ∧ Holds m rhs.value.tag p rhs.value := by
  rw [hp.bytes_eq] at h ⊢
  exact arg_at h hs

theorem string_at {w s : Bytes} {p : Nat} (h : At m p w) (hw : StrBlock w) (hs : CStrAt m p s) :
    ArgRange m .stringTag p (p + w.length) ∧ Holds m .stringTag p (.string s) :=
  ⟨(str4_at h).mpr hw, s, hs, rfl⟩

/-- An operand that keeps its place is where its tag has it, with its value. -/
theorem operand_at {rhs : Operand} {p : Nat} (h : At m p rhs.bytes) (hk : rhs.KeepsPlace) (hc : rhs.Copies)
    (hl : rhs.bytes.length ≤ 0x7FFFFFFC) :
    ArgRange m rhs.value.tag p (p + rhs.bytes.length) ∧ Holds m rhs.value.tag p rhs.value := by
  cases rhs with
  | stringView rhs => exact string_at h (strBlock_whole.mpr hk) (strBlock_at h)
  | stdString rhs => exact string_at h (strBlock_whole.mpr hk) (strBlock_at h)
  | charArray ref =>
    have hs := cstr_at h (List.mem_append_left _ hk.1)
    rw [Operand.bytes, padded, upToNul_append hk.1] at hs
    exact string_at h hk.2 hs
  | cString rhs => exact passes_at (.cString rhs) h rhs.noNul
  | symbol rhs => exact passes_at (.symbol rhs) h rhs.noNul
  | blob data size =>
    obtain ⟨h0, hle⟩ := hc
    have hlen : (data.take size.toInt.toNat).length = size.toInt.toNat := by rw [List.length_take]; omega
    rw [Operand.bytes, List.length_append, length_padded, hlen] at hl
    exact passes_at (.blob (by omega) (List.take_prefix _ _)) h
      (show (data.take size.toInt.toNat).length ≤ 0x7FFFFFFC by omega)
  | bool rhs => exact passes_at (.bool rhs) h trivial
  | infinitum => exact passes_at .infinitum h trivial
  | nil => exact passes_at .nil h trivial
  | int32 rhs => exact passes_at (.int32 rhs) h trivial
  | float bits => exact passes_at (.float bits) h trivial
  | char rhs => exact passes_at (.char rhs) h trivial
  | rgbaColor rhs => exact passes_at (.rgbaColor rhs) h trivial
  | midiMessage rhs => exact passes_at (.midiMessage rhs) h trivial
  | int64 rhs => exact passes_at (.int64 rhs) h trivial
  | timeTag bits => exact passes_at (.timeTag bits) h trivial
  | double bits => exact passes_at (.double bits) h trivial
  | arrayInitiator => exact passes_at .arrayBegin h trivial
  | arrayTerminator => exact passes_at .arrayEnd h trivial

/-- So are all of them. -/
theorem operands_at : ∀ {operands : List Operand} {p : Nat}, At m p (operands.flatMap Operand.bytes) →
    (∀ rhs ∈ operands, rhs.KeepsPlace ∧ rhs.Copies) → (operands.flatMap Operand.bytes).length ≤ 0x7FFFFFFC →
    Lies m (operands.map Operand.value) p (p + (operands.flatMap Operand.bytes).length)
  | [], p, _, _, _ => .nil p
  | rhs :: operands, p, h, hk, hl => by
    rw [List.flatMap_cons] at h hl ⊢
    rw [List.length_append] at hl ⊢
    obtain ⟨h1, h2⟩ := (at_append _ _).mp h
    obtain ⟨hk1, hc1⟩ := hk rhs (List.mem_cons_self ..)
    obtain ⟨hr, hv⟩ := operand_at h1 hk1 hc1 (by omega)
    have hrest := operands_at h2 (fun x hx => hk x (List.mem_cons_of_mem _ hx)) (by omega)
    rw [Nat.add_assoc] at hrest
    exact .cons hr hv hrest

/-- What was streamed, each string up to its first NUL. -/
def sent (address : Bytes) (operands : List Operand) : Decoded :=
  ⟨upToNul address, operands.length, operandTags operands, operands.map Operand.value⟩

/-- The tag block of a message whose address keeps its place. -/
theorem tags_at {tags : Bytes} {p : Nat} (h : At m p (tagBlock tags)) (h0 : 0 ∉ tags) :
    m[p]? = some (ch ',') ∧ IsStr4 m p (p + (tagBlock tags).length) ∧ CStrAt m (p + 1) tags := by
  have hcomma : 0 ∉ ch ',' :: tags := by
    intro hz
    rcases List.mem_cons.mp hz with hz | hz
    · exact absurd hz (by decide)
    · exact h0 hz
  obtain ⟨hstr, hc⟩ := str_at h hcomma
  cases hc with
  | cons hc _ hrest => exact ⟨hc, hstr, hrest⟩

/-- The three blocks of a message. -/
theorem message_parts {address : Bytes} {operands : List Operand} {p : Nat}
    (h : At m p (messageBytes address operands)) :
    At m p (strBlock address) ∧ At m (p + (strBlock address).length) (tagBlock (operandTags operands)) ∧
      At m (p + (strBlock address).length + (tagBlock (operandTags operands)).length)
        (operands.flatMap Operand.bytes) := by
  obtain ⟨h12, h3⟩ := (at_append _ _).mp h
  obtain ⟨h1, h2⟩ := (at_append _ _).mp h12
  rw [List.length_append, ← Nat.add_assoc] at h3
  exact ⟨h1, h2, h3⟩

theorem operandTags_noNul (operands : List Operand) : 0 ∉ operandTags operands :=
  operandTags_eq operands ▸ tagBytes_noNul _

/-- An address that stays whole, the tags of some values, and the values. -/
theorem spells_at {address bytes : Bytes} {vs : List ArgValue} {p : Nat}
    (h : At m p (strBlock address ++ tagBlock (tagBytes vs) ++ bytes)) (ha : StaysWhole address)
    (hn : Nested bracket (vs.map ArgValue.tag))
    (hv : Lies m vs (p + (strBlock address).length + (tagBlock (tagBytes vs)).length)
      (p + (strBlock address).length + (tagBlock (tagBytes vs)).length + bytes.length)) :
    Spells m p (p + (strBlock address ++ tagBlock (tagBytes vs) ++ bytes).length)
      ⟨upToNul address, vs.length, tagBytes vs, vs⟩ := by
  obtain ⟨h12, -⟩ := (at_append _ _).mp h
  obtain ⟨h1, h2⟩ := (at_append _ _).mp h12
  obtain ⟨hcomma, hstr, hct⟩ := tags_at h2 (tagBytes_noNul vs)
  have hpos := hstr.lt
  have haddr := (str4_at h1).mpr (strBlock_whole.mpr ha)
  rw [List.length_append, List.length_append]
  refine ⟨strBlock_at h1, rfl, rfl, _, by omega, haddr, ?_⟩
  by_cases he : vs = []
  · subst he
    exact .inl ⟨rfl, .inr ⟨by omega, hcomma, hct.nul⟩⟩
  · exact .inr ⟨he, by omega, hcomma, _, by omega, hstr, hct, hn, _, by omega, hv⟩

/-- A message whose strings keep their place spells what was streamed. -/
theorem message_spells {address : Bytes} {operands : List Operand} {p : Nat}
    (h : At m p (messageBytes address operands)) (ha : StaysWhole address)
    (hk : ∀ rhs ∈ operands, rhs.KeepsPlace ∧ rhs.Copies) (hn : Nested bracket (operands.map Operand.tag))
    (hl : (messageBytes address operands).length ≤ 0x7FFFFFFC) :
    Spells m p (p + (messageBytes address operands).length) (sent address operands) := by
  obtain ⟨-, -, h3⟩ := message_parts h
  rw [messageBytes, operandTags_eq] at h hl ⊢
  rw [List.length_append] at hl
  rw [operandTags_eq] at h3
  have hs := spells_at h ha (by rwa [values_tags]) (operands_at h3 hk (by omega))
  rw [List.length_map, ← operandTags_eq] at hs
  rwa [← operandTags_eq]

/-- A read of a message that has the size of a packet shows what it spells. -/
theorem message_reads {address : Bytes} {operands : List Operand} {d : Decoded}
    (hl : (messageBytes address operands).length ≤ 0x7FFFFFFC) :
    readMessage (messageBytes address operands) 0 (messageBytes address operands).length = ok d ↔
      Spells (messageBytes address operands) 0 (messageBytes address operands).length d := by
  have hpos := length_messageBytes address operands
  rw [(readMessage_decides (by simp)).iff, Int.toNat_natCast, Nat.zero_add]
  exact and_iff_right ⟨by omega, by omega, by omega⟩

theorem values_at : ∀ {vs : List ArgValue} {p : Nat}, At m p (vs.flatMap ArgValue.enc) → (∀ v ∈ vs, v.Sendable) →
    Lies m vs p (p + (vs.flatMap ArgValue.enc).length)
  | [], p, _, _ => .nil p
  | v :: vs, p, h, hs => by
    rw [List.flatMap_cons] at h ⊢
    obtain ⟨h1, h2⟩ := (at_append _ _).mp h
    obtain ⟨hr, hv⟩ := arg_at h1 (hs v (List.mem_cons_self ..))
    have hrest := values_at h2 fun w hw => hs w (List.mem_cons_of_mem _ hw)
    rw [Nat.add_assoc, ← List.length_append] at hrest
    exact .cons hr hv hrest

/-- So does the encoding of a message. -/
theorem enc_spells {address : Bytes} {arguments : List ArgValue} {p : Nat}
    (h : At m p (PacketTree.message address arguments).enc) (hs : (PacketTree.message address arguments).Sendable) :
    Spells m p (p + (PacketTree.message address arguments).enc.length)
      ⟨upToNul address, arguments.length, tagBytes arguments, arguments⟩ := by
  rw [PacketTree.Sendable] at hs
  obtain ⟨hsa, hsv, hsn⟩ := hs
  rw [PacketTree.enc] at h ⊢
  have h3 := ((at_append _ _).mp h).2
  rw [List.length_append, ← Nat.add_assoc] at h3
  exact spells_at h (.of_noNul hsa.1) hsn (values_at h3 hsv)

end OscTap.Outbound
