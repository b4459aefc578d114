/-
  OscTap.Outbound.Encode — what the encoder writes for a packet, and in how much space.

  `Streams t ops`: the calls `ops` stream the packet `t` depth first, each string through one
  of its overloads. On the stack they put `enc t` behind what is there, if and only if it
  fits (`streams_run`, by induction over the packet); a packet below `2 ^ 31` bytes then
  appears in the buffer (`encode_exact`).
-/
import OscTap.Outbound.Layout

namespace OscTap.Outbound

open OscTap.Lib OscTap.Lib.Out OscTap.Osc

/-! ## The calls that stream a packet -/

/-- The operands that carry a value: a string has four overloads, the array's with its NUL. -/
inductive Passes : ArgValue → Operand → Prop
  | bool (b : Bool) : Passes (.bool b) (.bool b)
  | nil : Passes .nil .nil
  | infinitum : Passes .infinitum .infinitum
  | int32 (v : Int32) : Passes (.int32 v) (.int32 v)
  | float (bits : UInt32) : Passes (.float bits) (.float bits)
  | char (c : UInt8) : Passes (.char c) (.char c)
  | rgbaColor (v : UInt32) : Passes (.rgbaColor v) (.rgbaColor v)
  | midiMessage (v : UInt32) : Passes (.midiMessage v) (.midiMessage v)
  | int64 (v : Int64) : Passes (.int64 v) (.int64 v)
  | timeTag (v : UInt64) : Passes (.timeTag v) (.timeTag v)
  | double (bits : UInt64) : Passes (.double bits) (.double bits)
  | stringView (s : Bytes) : Passes (.string s) (.stringView s)
  | cString (s : CStr) : Passes (.string s.bytes) (.cString s)
  | stdString (s : Bytes) : Passes (.string s) (.stdString s)
  | charArray (s : Bytes) : Passes (.string s) (.charArray (s ++ [0]))
  | symbol (s : CStr) : Passes (.symbol s.bytes) (.symbol s)
  | blob {data memory : Bytes} {size : Int32} : size.toInt = data.length → data <+: memory →
      Passes (.blob data) (.blob memory size)
  | arrayBegin : Passes .arrayBegin .arrayInitiator
  | arrayEnd : Passes .arrayEnd .arrayTerminator

inductive Begins : Bytes → Op → Prop
  | beginMessage (address : CStr) : Begins address.bytes (.beginMessage address)
  | beginMessageN (address : Bytes) : Begins address (.beginMessageN address)

mutual

/-- The calls that stream a packet, depth first. -/
def Streams : PacketTree → List Op → Prop
  | .message address arguments, ops => ∃ begin operands, Begins address begin ∧ List.Forall₂ Passes arguments operands ∧
      ops = begin :: (operands.map Op.append ++ [.endMessage])
  | .bundle timeTag elements, ops =>
    ∃ inner, StreamsAll elements inner ∧ ops = .beginBundle timeTag :: (inner ++ [.endBundle])

def StreamsAll : List PacketTree → List Op → Prop
  | [], ops => ops = []
  | e :: es, ops => ∃ first rest, Streams e first ∧ StreamsAll es rest ∧ ops = first ++ rest

end

theorem Passes.tag_eq {v : ArgValue} {rhs : Operand} (h : Passes v rhs) : rhs.tag = v.tag := by
  cases h with
  | bool b => cases b <;> rfl
  | _ => rfl

theorem Passes.bytes_eq {v : ArgValue} {rhs : Operand} (h : Passes v rhs) : rhs.bytes = v.enc := by
  cases h with
  | @blob data memory size h hp =>
    show be32 size.toUInt32.toNat ++ padded (memory.take size.toInt.toNat) = be32 data.length ++ padded data
    rw [toNat_toInt (by omega), h, Int.toNat_natCast, ← List.prefix_iff_eq_take.mp hp]
  | _ => rfl

def operandTags (operands : List Operand) : Bytes := operands.map fun rhs => rhs.tag.value

/-- The message that streaming operands gives, whatever they are. -/
def messageBytes (address : Bytes) (operands : List Operand) : Bytes :=
  strBlock address ++ tagBlock (operandTags operands) ++ operands.flatMap Operand.bytes

theorem Passes.messageBytes {arguments : List ArgValue} {operands : List Operand}
    (h : List.Forall₂ Passes arguments operands) (address : Bytes) :
    messageBytes address operands = (PacketTree.message address arguments).enc := by
  have hparts : operandTags operands = tagBytes arguments ∧
    operands.flatMap Operand.bytes = arguments.flatMap ArgValue.enc := by
    induction h with
    | nil => exact ⟨rfl, rfl⟩
    | cons hv _ ih =>
      obtain ⟨h1, h2⟩ := ih
      rw [operandTags, List.map_cons, hv.tag_eq, List.flatMap_cons, List.flatMap_cons, hv.bytes_eq, h2]
      exact ⟨congrArg _ h1, rfl⟩
  rw [Outbound.messageBytes, PacketTree.enc, hparts.1, hparts.2]

/-! ## On the stack -/

namespace OpenStack

/-- An element is put behind what is there. -/
def placed (a : OpenStack) (x : Bytes) : OpenStack :=
  match a.opens with
  | [] => { a with closed := a.closed ++ x }
  | b :: bs => { a with opens := (b ++ be32 x.length ++ x) :: bs }

variable {a : OpenStack} {cap : Nat}

theorem pop_push (h : a.args = []) (b : Bytes) : (a.push b).pop = a.placed b := by
  unfold placed
  cases ho : a.opens with
  | nil => simp only [push, pop, ho, h]
  | cons b' bs => simp only [push, pop, ho, h]

theorem size_placed (ha : a.args = []) (hm : ¬ a.inMessage = true) (x : Bytes) :
    (a.placed x).size = a.size + a.slot + x.length := by
  rw [← pop_push ha, size_pop, size_push hm, size, ha, if_neg hm]; rfl

/-- Nothing is open but bundles. -/
structure Between (a : OpenStack) : Prop where
  inMessage : ¬ a.inMessage = true
  tags : a.tags = []
  args : a.args = []

theorem Between.push (h : Between a) (b : Bytes) : Between (a.push b) := ⟨h.inMessage, h.tags, rfl⟩

theorem Between.placed (h : Between a) (x : Bytes) : Between (a.placed x) := by
  unfold OpenStack.placed
  split <;> exact ⟨h.inMessage, h.tags, h.args⟩

/-- The sequence rule for calls that succeed when the space is there. -/
theorem require_bind {n m : Nat} {a' a'' : OpenStack} {f : OpenStack → Except Exn OpenStack}
    (h : n ≤ cap → f a' = require cap m a'') (hnm : n ≤ m) : (require cap n a' >>= f) = require cap m a'' := by
  unfold require at h ⊢
  by_cases hn : cap < n
  · rw [if_pos hn, if_pos (by omega)]; rfl
  · rw [if_neg hn]
    exact h (by omega)

theorem require_self {n : Nat} {a' : OpenStack} (h : n ≤ cap) : require cap n a' = .ok a' := if_neg (by omega)

/-- The arguments of a message. -/
theorem operands_run : ∀ (operands : List Operand) {a : OpenStack}, a.inMessage = true → a.size ≤ cap →
    askAll (step cap) (operands.map Op.append) a =
      require cap
        (a.front.length + (a.args ++ operands.flatMap Operand.bytes).length + tagSlot (a.tags.length + operands.length))
        { a with tags := (operandTags operands).reverse ++ a.tags, args := a.args ++ operands.flatMap Operand.bytes }
  | [], a, hm, hs => by
    rw [size, if_pos hm] at hs
    simp only [List.flatMap_nil, List.append_nil, List.length_nil, Nat.add_zero, operandTags, List.map_nil,
      List.reverse_nil, List.nil_append]
    exact (require_self hs).symm
  | rhs :: operands, a, hm, hs => by
    rw [List.map_cons, askAll_cons, step, append]
    refine require_bind (fun hn => ?_) ?_
    · have hsize :
          ({ a with tags := rhs.tag.value :: a.tags, args := a.args ++ rhs.bytes } : OpenStack).size ≤ cap := by
        rw [size, if_pos (by exact hm)]
        show a.front.length + (a.args ++ rhs.bytes).length + tagSlot (a.tags.length + 1) ≤ cap
        rw [List.length_append]; omega
      refine (operands_run operands (by exact hm) hsize).trans ?_
      have hargs : a.args ++ rhs.bytes ++ operands.flatMap Operand.bytes = a.args ++
        (rhs :: operands).flatMap Operand.bytes := by
        rw [List.flatMap_cons, List.append_assoc]
      have htags : (operandTags operands).reverse ++ (rhs.tag.value :: a.tags) =
        (operandTags (rhs :: operands)).reverse ++ a.tags := by
        simp [operandTags]
      have hcount : a.tags.length + 1 + operands.length = a.tags.length + (rhs :: operands).length := by
        rw [List.length_cons]; omega
      rw [← hargs, ← htags, ← hcount]
      rfl
    · have := @tagSlot_mono (a.tags.length + 1) (a.tags.length + (rhs :: operands).length) (by
        rw [List.length_cons]; omega)
      rw [List.flatMap_cons]
      simp only [List.length_append]
      omega

theorem finish_push (h : Between a) (b tags args : Bytes) :
    finish { (a.push b) with inMessage := true, tags := tags, args := args } =
      a.push (b ++ (tagBlock tags.reverse ++ args)) := by
  have hm : a.inMessage = false := by simpa using h.inMessage
  simp only [finish, push, grow, hm, h.tags]

/-- A message. -/
theorem message_run (h : Between a) {address : Bytes} {begin : Op} (operands : List Operand)
    (hb : Begins address begin) :
    askAll (step cap) (begin :: (operands.map Op.append ++ [.endMessage])) a =
      require cap (a.size + a.slot + (messageBytes address operands).length)
        (a.placed (messageBytes address operands)) := by
  have hstep : step cap begin a = a.beginMessage cap address := by cases hb <;> rfl
  have htb : (tagBlock (operandTags operands)).length = tagSlot operands.length := by
    rw [length_tagBlock, operandTags, List.length_map]
  have hsa : a.size = a.front.length := by rw [size, h.args, if_neg h.inMessage]; rfl
  rw [askAll_cons, hstep, beginMessage, if_neg h.inMessage]
  refine require_bind (fun hn => ?_) ?_
  · have hfront : (a.push (strBlock address)).front.length = a.size + a.slot + (strBlock address).length := by
      rw [length_front_push, hsa]
    have hbegun : ({ (a.push (strBlock address)) with inMessage := true, tags := [] } : OpenStack).size ≤ cap := by
      rw [size, if_pos rfl]
      show (a.push (strBlock address)).front.length + 0 + tagSlot 0 ≤ cap
      rw [hfront, show tagSlot 0 = 4 from rfl]
      omega
    rw [askAll_append, operands_run operands rfl hbegun]
    have hneed : (a.push (strBlock address)).front.length + ([] ++ operands.flatMap Operand.bytes).length +
        tagSlot (([] : Bytes).length + operands.length) = a.size + a.slot + (messageBytes address operands).length := by
      rw [hfront, messageBytes]
      simp only [List.length_append, htb, List.nil_append, List.length_nil, Nat.zero_add]
      omega
    refine require_bind (fun hn' => ?_) (Nat.le_of_eq hneed)
    have hfin := finish_push h (strBlock address) (operandTags operands).reverse (operands.flatMap Operand.bytes)
    rw [List.reverse_reverse, ← List.append_assoc] at hfin
    rw [require_self (hneed ▸ hn'), ← pop_push h.args, messageBytes, ← hfin, List.append_nil]
    rfl
  · rw [messageBytes]
    simp only [List.length_append, htb]
    unfold tagSlot padLen
    omega

/-- Elements, one after the other. -/
theorem elements_run {elements : List PacketTree}
    (ih : ∀ e ∈ elements, ∀ {ops : List Op} {a : OpenStack}, Streams e ops → Between a → a.size ≤ cap →
      askAll (step cap) ops a = require cap (a.size + a.slot + e.enc.length) (a.placed e.enc)) :
    ∀ {ops : List Op} {b : Bytes}, StreamsAll elements ops → Between a → (a.push b).size ≤ cap →
      askAll (step cap) ops (a.push b) =
        require cap ((a.push b).size + (PacketTree.encElements elements).length)
          (a.push (b ++ PacketTree.encElements elements)) := by
  induction elements with
  | nil =>
    intro ops b hs hb hsize
    rw [StreamsAll] at hs
    rw [hs, PacketTree.encElements, List.append_nil, require_self (by rw [List.length_nil]; omega)]; rfl
  | cons e es ihs =>
    intro ops b hs hb hsize
    rw [StreamsAll] at hs
    obtain ⟨first, rest, h1, h2, rfl⟩ := hs
    have hplaced : (a.push b).placed e.enc = a.push (b ++ be32 e.enc.length ++ e.enc) := rfl
    have hslot : (a.push b).slot = 4 := rfl
    have hsz := size_placed (a := a.push b) rfl hb.inMessage e.enc
    have hlen : (PacketTree.encElements (e :: es)).length = 4 + e.enc.length + (PacketTree.encElements es).length := by
      rw [PacketTree.encElements, List.length_append, List.length_append, length_be32]
    rw [hslot, hplaced] at hsz
    rw [askAll_append, ih e (List.mem_cons_self ..) h1 (hb.push b) hsize, hslot, hplaced]
    refine require_bind (fun hn => ?_) (by omega)
    rw [ihs (fun e' he => ih e' (List.mem_cons_of_mem _ he)) h2 hb (by omega), hsz, hlen, PacketTree.encElements]
    simp only [List.append_assoc, Nat.add_assoc]

/-- The calls for a packet succeed exactly when its encoding fits, and put it in place. -/
theorem streams_run (t : PacketTree) : ∀ {ops : List Op} {a : OpenStack}, Streams t ops → Between a → a.size ≤ cap →
    askAll (step cap) ops a = require cap (a.size + a.slot + t.enc.length) (a.placed t.enc) := by
  induction t using PacketTree.induction with
  | message address arguments =>
    intro ops a hs hb hsize
    rw [Streams] at hs
    obtain ⟨begin, operands, h1, h2, rfl⟩ := hs
    rw [← Passes.messageBytes h2]
    exact message_run hb operands h1
  | bundle timeTag elements ih =>
    intro ops a hs hb hsize
    rw [Streams] at hs
    obtain ⟨inner, h1, rfl⟩ := hs
    have hhead : (bundleTag ++ be64 timeTag.toNat).length = 16 := by simp only [List.length_append, length_be64]; rfl
    have hsz := size_push hb.inMessage (bundleTag ++ be64 timeTag.toNat)
    have hsa : a.size = a.front.length := by rw [size, hb.args, if_neg hb.inMessage]; rfl
    have hlen : (PacketTree.bundle timeTag elements).enc.length = 16 + (PacketTree.encElements elements).length := by
      rw [PacketTree.enc, List.length_append, hhead]
    rw [askAll_cons, step, if_neg hb.inMessage]
    refine require_bind (fun hn => ?_) (by omega)
    rw [askAll_append, elements_run (fun e he => ih e he) h1 hb (by omega)]
    refine require_bind (fun hn' => ?_) (by omega)
    have hend : ∀ x, step cap .endBundle (a.push x) = .ok (a.placed x) := fun x => by
      rw [step, if_neg (by simp [push]), if_neg (by exact hb.inMessage), pop_push hb.args]
    rw [askAll_cons, hend, require_self (by omega), PacketTree.enc]; rfl

end OpenStack

/-! ## In the buffer -/

theorem Rep.packet_eq {s : OutboundPacketStream} {a : OpenStack} {cap : Nat} (h : Rep cap s a)
    (hm : ¬ a.inMessage = true) :
    s.packet = a.front ++ a.args := by
  have hs : s.size = s.argumentCurrent := by
    rw [OutboundPacketStream.size, if_neg (by rw [h.message]; exact hm), Nat.add_zero]
  rw [OutboundPacketStream.packet, hs, h.bytes]

/-- The stack with one closed element: what `IsReady`, `Size` and `Data` report. -/
theorem Rep.placed {s : OutboundPacketStream} {x : Bytes} {cap B : Nat} (h : Rep cap s (OpenStack.empty.placed x))
    (hi : OpenStack.Inv B (OpenStack.empty.placed x)) (hB : B < 2 ^ 31) :
    s.isReady = true ∧ s.size = x.length ∧ s.packet = x := by
  have htags := lt_of_le_of_lt hi.tagsFit hB
  refine ⟨h.isReady.mpr ⟨rfl, rfl⟩, ?_, ?_⟩
  · rw [h.size_eq htags, OpenStack.size_placed rfl (by decide)]
    exact Nat.zero_add _
  · rw [h.packet_eq (fun hm => by cases hm)]
    exact List.append_nil _

/-- Where the stack ends, the stream ends; where the stack throws, the stream throws the same. -/
theorem runs_as {ops : List Op} (hops : ∀ op ∈ ops, op.Fits) {buffer : Bytes} (hcap : buffer.length < 2 ^ 31) :
    EndsAs (fun s a => Rep buffer.length s a ∧ OpenStack.Inv buffer.length a)
      (runAll apply ops (OutboundPacketStream.mk' buffer))
        (askAll (OpenStack.step buffer.length) ops OpenStack.empty) :=
  (stream_refines hcap).all hops ⟨mk'_rep buffer, OpenStack.empty_inv buffer.length⟩

/-- Calls that place one element in as much space as it takes write it in any buffer that has
    the space: the stack never outgrows it. -/
theorem placed_run {x : Bytes} {ops : List Op}
    (hask : askAll (OpenStack.step x.length) ops .empty = .ok (OpenStack.empty.placed x))
    (hops : ∀ op ∈ ops, op.Fits) (hB : x.length < 2 ^ 31) {buffer : Bytes} (hcap : x.length ≤ buffer.length) :
    ∃ s, runAll apply ops (.mk' buffer) = ok s ∧ s.isReady = true ∧ s.size = x.length ∧ s.packet = x := by
  obtain ⟨s, he, hr, hi⟩ := follows (R := fun s a => Rep buffer.length s a ∧ OpenStack.Inv x.length a) hask
    ⟨mk'_rep buffer, OpenStack.empty_inv x.length⟩ fun op hop s a a' hra hstep => by
      have hm := apply_matches hra.1 hra.2 hB hcap (hops op hop)
      rw [OpenStack.step_mono hstep hcap] at hm
      obtain ⟨s', h1, h2⟩ := hm
      exact ⟨s', h1, h2, OpenStack.step_inv hra.2 hstep⟩
  exact ⟨s, he, hr.placed hi hB⟩

theorem encode_exact {t : PacketTree} {ops : List Op} (h : Streams t ops) (hops : ∀ op ∈ ops, op.Fits) (buffer : Bytes)
    (hcap : buffer.length < 2 ^ 31) :
    ((∃ s, runAll apply ops (OutboundPacketStream.mk' buffer) = ok s) ↔ t.enc.length ≤ buffer.length) ∧
      (buffer.length < t.enc.length → ∃ s, runAll apply ops (OutboundPacketStream.mk' buffer) =
        err (.outOfBufferMemory, s)) ∧
      ∀ s, runAll apply ops (OutboundPacketStream.mk' buffer) = ok s →
        s.isReady = true ∧ s.size = t.enc.length ∧ s.packet = t.enc := by
  have hrun := runs_as hops hcap
  have hbetween : OpenStack.Between OpenStack.empty := ⟨by decide, rfl, rfl⟩
  rw [OpenStack.streams_run t h hbetween (Nat.zero_le _)] at hrun
  rw [show OpenStack.empty.size + OpenStack.empty.slot + t.enc.length = t.enc.length from Nat.zero_add _] at hrun
  unfold OpenStack.require at hrun
  by_cases hfit : buffer.length < t.enc.length
  · rw [if_pos hfit] at hrun
    obtain ⟨s, he⟩ := hrun
    refine ⟨⟨fun ⟨s', hs'⟩ => ?_, fun hle => by omega⟩, fun _ => ⟨s, he⟩, fun s' hs' => ?_⟩
    · rw [he] at hs'; cases hs'
    · rw [he] at hs'; cases hs'
  · rw [if_neg hfit] at hrun
    obtain ⟨s, he, hr, hi⟩ := hrun
    refine ⟨⟨fun _ => by omega, fun _ => ⟨s, he⟩⟩, fun hlt => absurd hlt hfit, fun s' hs' => ?_⟩
    rw [he] at hs'
    cases hs'
    exact hr.placed hi hcap

/-- A bundle of a message with an integer and a string, in as many bytes as it takes. -/
def pairBundle : PacketTree :=
  .bundle 1 [.message [ch '/', ch 'a'] [.int32 (-1), .string [ch 'x', ch 'y', ch 'z', ch 'w']]]

def pairBundleOps : List Op :=
  [.beginBundle 1, .beginMessageN [ch '/', ch 'a'], .append (.int32 (-1)),
    .append (.stringView [ch 'x', ch 'y', ch 'z', ch 'w']), .endMessage, .endBundle]

theorem encode_exact_pairBundle :
    pairBundle.enc.length = 40 ∧ ∃ s,
      runAll apply pairBundleOps (OutboundPacketStream.mk' (List.replicate 40 255)) = ok s ∧
      s.size = 40 ∧ s.packet = pairBundle.enc := by
  have hstreams : Streams pairBundle pairBundleOps := by
    rw [pairBundle, Streams]
    refine ⟨pairBundleOps.tail.dropLast, ?_, rfl⟩
    rw [StreamsAll]
    refine ⟨pairBundleOps.tail.dropLast, [], ?_, by rw [StreamsAll], rfl⟩
    rw [Streams]
    exact ⟨_, _, .beginMessageN _, .cons (.int32 (-1)) (.cons (.stringView _) .nil), rfl⟩
  have hfits : ∀ op ∈ pairBundleOps, op.Fits := by
    intro op hop
    simp only [pairBundleOps, List.mem_cons, List.not_mem_nil, or_false] at hop
    rcases hop with rfl | rfl | rfl | rfl | rfl | rfl <;> first | trivial | (simp [Op.Fits, Operand.Fits])
  have hlen : pairBundle.enc.length = 40 := by decide +kernel
  obtain ⟨hiff, -, hall⟩ := encode_exact hstreams hfits (List.replicate 40 255) (by decide)
  obtain ⟨s, hs⟩ := hiff.mpr (by rw [hlen]; decide)
  obtain ⟨-, h1, h2⟩ := hall s hs
  exact ⟨hlen, s, hs, h1.trans hlen, h2⟩

end OscTap.Outbound
