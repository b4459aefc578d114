/-
  OscTap.Demos.Bridge — the bridge to the Android app (`android/osctap_jni.cpp`).

  `buildMessage` streams an address and boxed arguments in a buffer of 1024 bytes on the stack and
  hands the packet to Java; `describe` reads the bytes of one message and hands a text back. What the
  library throws becomes an `IllegalArgumentException` with its text. A Java string is the bytes that
  the JNI gives for it, a C string; what `NewStringUTF` makes of bytes that are not modified UTF-8 is
  left out. `to_string` of a `float` is a parameter.

  Proved: `built_exactly`: which address and arguments are built, as what, and with which text the
  others are refused, whatever is on the stack; `described_exactly`: a description of any array stays
  inside it, and is the text of the message that the array spells, where it spells one;
  `describes_what_was_built`: the two together.
-/
import OscTap.Demos.Hub
import OscTap.Lib.Decimal
import OscTap.Outbound.Message
import OscTap.Received.PacketSize

namespace OscTap.Received

def Exn.what : Exn → String
  | malformedPacket what | malformedMessage what | malformedBundle what => what
  | wrongArgumentType => "wrong argument type"
  | missingArgument => "missing argument"
  | excessArgument => "too many arguments"

end OscTap.Received

namespace OscTap.Demos.Bridge

open OscTap.Lib OscTap.Lib.Out OscTap.Osc OscTap.Received OscTap.Outbound

/-- A boxed argument, by its class; `other` is null or an object of another one. -/
inductive Boxed where
  | integer (v : Int32)
  | float (bits : UInt32)
  | boolean (b : Bool)
  | string (utf : CStr)
  | other
  deriving DecidableEq

inductive JavaException where
  | illegalArgument (message : String)
  deriving DecidableEq, Repr

/-- `ThrowJava` in the handler of `osctap::Exception`. -/
def throwJava {α : Type} (what : String) : Out JavaException α := err (.illegalArgument what)

/-! ## Building -/

/-- `AppendBoxedArg`: whether the class is supported. -/
def appendBoxedArg (p : OutboundPacketStream) : Boxed →
    Out (Outbound.Exn × OutboundPacketStream) (Bool × OutboundPacketStream)
  | .integer v => do
    let p ← p.int32 v
    ok (true, p)
  | .float v => do
    let p ← p.float v
    ok (true, p)
  | .boolean v => do
    let p ← p.bool v
    ok (true, p)
  | .string s => do
    let p ← p.cString s
    ok (true, p)
  | .other => ok (false, p)

def appendBoxedArgs : List Boxed → OutboundPacketStream →
    Out (Outbound.Exn × OutboundPacketStream) (Bool × OutboundPacketStream)
  | [], p => ok (true, p)
  | a :: args, p => do
    let (supported, p) ← appendBoxedArg p a
    if supported then appendBoxedArgs args p else ok (false, p)

def unsupported : String := "unsupported OSC argument type (use Integer/Float/Boolean/String)"

/-- `buildMessage`, over what the stack holds; null for `args` is no arguments. -/
def buildMessage (buffer : Bytes) (address : CStr) (args : List Boxed) : Out JavaException Bytes :=
  let built : Out (Outbound.Exn × OutboundPacketStream) (Option Bytes) := do
    let p ← (OutboundPacketStream.mk' buffer).beginMessage address
    let (supported, p) ← appendBoxedArgs args p
    if supported then do
      let p ← p.endMessage
      ok (some p.packet)
    else ok none
  match built with
  | ok (some packet) => ok packet
  | ok none => throwJava unsupported
  | err (e, _) => throwJava e.what
  | fault f => fault f

/-! ## Describing -/

variable (fmt : UInt32 → CStr)

/-- The body of the loop, behind the blank. -/
def describeArg (m : Bytes) (a : ReceivedMessageArgument) : Out Received.Exn Bytes := do
  let isInt32 ← a.isInt32 m
  if isInt32 then do
    let v ← a.asInt32Unchecked m
    ok (Ostream.decimal v.toInt)
  else do
    let isFloat ← a.isFloat m
    if isFloat then do
      let v ← a.asFloatUnchecked m
      ok (fmt v).bytes
    else do
      let isString ← a.isString m
      if isString then do
        let s ← readString m a.asStringUnchecked
        ok (bytesOf "\"" ++ s ++ bytesOf "\"")
      else do
        let isBool ← a.isBool m
        if isBool then do
          let b ← a.asBoolUnchecked m
          ok (bytesOf (if b then "true" else "false"))
        else ok (bytesOf "?")

/-- `describe`; the string is handed over as a C string. -/
def describe (packet : Bytes) : Out JavaException Bytes :=
  let described : Out Received.Exn Bytes := do
    let p ← ReceivedPacket.ofSizeT 0 (UInt64.ofNat packet.length)
    let r ← ReceivedMessage.mk' packet p.contents p.size
    let address ← rdCString packet r.addressPattern
    forArguments packet (fun a out => do
      let text ← describeArg fmt packet a
      ok (out ++ bytesOf " " ++ text)) r.argumentsEnd packet.length r.argumentsBegin address
  match described with
  | ok out => ok (cStr out).bytes
  | err e => throwJava e.what
  | fault f => fault f

/-! ## What there is to say -/

def Boxed.value : Boxed → Option ArgValue
  | integer v => some (.int32 v)
  | float bits => some (.float bits)
  | boolean b => some (.bool b)
  | string utf => some (.string utf.bytes)
  | other => none

def supportedValues (args : List Boxed) : List ArgValue :=
  (args.takeWhile fun a => a.value.isSome).filterMap Boxed.value

def shown : ArgValue → Bytes
  | .int32 v => Ostream.decimal v.toInt
  | .float bits => (fmt bits).bytes
  | .string s => bytesOf "\"" ++ s ++ bytesOf "\""
  | .bool b => bytesOf (if b then "true" else "false")
  | _ => bytesOf "?"

def text (address : Bytes) (arguments : List ArgValue) : Bytes :=
  address ++ arguments.flatMap fun v => bytesOf " " ++ shown fmt v

/-! ## What is built -/

def Boxed.operand : Boxed → Option Operand
  | integer v => some (.int32 v)
  | float bits => some (.float bits)
  | boolean b => some (.bool b)
  | string utf => some (.cString utf)
  | other => none

def supportedOperands (args : List Boxed) : List Operand :=
  (args.takeWhile fun a => a.value.isSome).filterMap Boxed.operand

theorem supported_pass (args : List Boxed) : List.Forall₂ Passes (supportedValues args) (supportedOperands args) := by
  induction args with
  | nil => exact .nil
  | cons a args ih =>
    cases a with
    | integer v => exact .cons (.int32 v) ih
    | float bits => exact .cons (.float bits) ih
    | boolean b => exact .cons (.bool b) ih
    | string utf => exact .cons (.cString utf) ih
    | other => exact .nil

/-- The loop makes the calls for the supported arguments in front. -/
theorem appendBoxedArgs_eq (args : List Boxed) : ∀ p : OutboundPacketStream,
    appendBoxedArgs args p = (fun p => (args.all fun a => a.value.isSome, p)) <$>
      runAll apply ((supportedOperands args).map .append) p := by
  induction args with
  | nil => exact fun p => rfl
  | cons a args ih =>
    intro p
    have hone : ∀ (rhs : Operand), a.operand = some rhs → a.value.isSome = true →
        appendBoxedArg p a = (fun p => (true, p)) <$> append p rhs →
        appendBoxedArgs (a :: args) p =
          (fun p => ((a :: args).all fun a => a.value.isSome, p)) <$>
            runAll apply ((supportedOperands (a :: args)).map .append) p := by
      intro rhs hrhs hsome happend
      have hops : supportedOperands (a :: args) = rhs :: supportedOperands args := by
        rw [supportedOperands, List.takeWhile_cons, if_pos hsome, List.filterMap_cons, hrhs]
        rfl
      rw [appendBoxedArgs, happend, hops, List.map_cons, runAll, List.foldlM_cons, List.all_cons, hsome, Bool.true_and]
      show _ = _ <$> (append p rhs >>= fun p => runAll apply ((supportedOperands args).map .append) p)
      cases append p rhs with
      | ok p => exact ih p
      | err e => rfl
      | fault f => rfl
    cases a with
    | integer v => exact hone (.int32 v) rfl rfl rfl
    | float bits => exact hone (.float bits) rfl rfl rfl
    | boolean b => exact hone (.bool b) rfl rfl rfl
    | string utf => exact hone (.cString utf) rfl rfl rfl
    | other => rfl

/-- A message that is not ended runs out of space where the ended one does. -/
theorem begun_run {cap : Nat} (address : CStr) (operands : List Operand) :
    if cap < (messageBytes address.bytes operands).length then
      askAll (OpenStack.step cap) (.beginMessage address :: operands.map .append) .empty = .error .outOfBufferMemory
    else ∃ a, askAll (OpenStack.step cap) (.beginMessage address :: operands.map .append) .empty = .ok a := by
  have hrun := @OpenStack.message_run _ cap (show OpenStack.Between .empty from ⟨by decide, rfl, rfl⟩) _ _ operands
    (.beginMessage address)
  rw [show OpenStack.empty.size + OpenStack.empty.slot + (messageBytes address.bytes operands).length =
    (messageBytes address.bytes operands).length from Nat.zero_add _, ← List.cons_append, askAll_append] at hrun
  cases hbegun : askAll (OpenStack.step cap) (.beginMessage address :: operands.map .append) .empty with
  | ok a =>
    rw [if_neg]
    · exact ⟨a, rfl⟩
    · intro hfull
      rw [hbegun, OpenStack.require, if_pos hfull] at hrun
      change (OpenStack.step cap .endMessage a >>= fun a => .ok a) = .error .outOfBufferMemory at hrun
      rw [OpenStack.step] at hrun
      split at hrun <;> cases hrun
  | error e =>
    rw [hbegun, OpenStack.require] at hrun
    split at hrun
    · rw [if_pos ‹_›]
      exact hrun
    · cases hrun

/-- The strings that Java hands over are below 4 GiB. -/
def Handed (address : CStr) (args : List Boxed) : Prop :=
  address.bytes.length + 4 < 2 ^ 32 ∧ ∀ utf, .string utf ∈ args → utf.bytes.length + 4 < 2 ^ 32

theorem Handed.fits {address : CStr} {args : List Boxed} (h : Handed address args) :
    ∀ op ∈ Op.beginMessage address :: (supportedOperands args).map .append, op.Fits := by
  intro op hop
  rcases List.mem_cons.mp hop with rfl | hop
  · exact h.1
  · obtain ⟨rhs, hrhs, rfl⟩ := List.mem_map.mp hop
    obtain ⟨a, ha, hoperand⟩ := List.mem_filterMap.mp hrhs
    have hmem := (List.takeWhile_sublist _).subset ha
    cases a with
    | string utf =>
      obtain rfl := Option.some.inj hoperand
      exact h.2 utf hmem
    | integer v | float v | boolean v => obtain rfl := Option.some.inj hoperand; trivial
    | other => cases hoperand

/-- The calls on the stream: they run out of space, or behind them the message can be ended. -/
theorem calls_spec {buffer : Bytes} (hbuf : buffer.length = 1024) {address : CStr} {args : List Boxed}
    (h : Handed address args) :
    if 1024 < (messageBytes address.bytes (supportedOperands args)).length then
      ∃ s, runAll apply (.beginMessage address :: (supportedOperands args).map .append) (.mk' buffer) =
        err (.outOfBufferMemory, s)
    else ∃ s s', runAll apply (.beginMessage address :: (supportedOperands args).map .append) (.mk' buffer) = ok s ∧
      s.endMessage = ok s' ∧ s'.packet = messageBytes address.bytes (supportedOperands args) := by
  have hcap : buffer.length < 2 ^ 31 := by omega
  have hbegun := @begun_run 1024 address (supportedOperands args)
  have hrun := runs_as h.fits hcap
  rw [hbuf] at hrun
  split at hbegun
  · rw [if_pos ‹_›]
    rwa [hbegun] at hrun
  · rw [if_neg ‹_›]
    obtain ⟨a, ha⟩ := hbegun
    rw [ha] at hrun
    obtain ⟨s, hs, -, -⟩ := hrun
    have hended := begun_streams h.fits hcap
    rw [hbuf, if_neg ‹_›] at hended
    obtain ⟨s', hs', hpacket⟩ := hended
    refine ⟨s, s', hs, ?_, hpacket⟩
    rw [← List.cons_append, runAll_append, hs, ok_bind] at hs'
    change (s.endMessage >>= fun s => ok s) = ok s' at hs'
    obtain ⟨s'', h1, h2⟩ := bind_eq_ok.mp hs'
    rw [h1, h2]

/-- The supported arguments in front are streamed. If there is no room for them the packet is
    refused; otherwise it is built, or refused for the argument that is not supported. -/
theorem built_exactly {buffer : Bytes} (hbuf : buffer.length = 1024) {address : CStr} {args : List Boxed}
    (h : Handed address args) :
    buildMessage buffer address args =
      if 1024 < (PacketTree.message address.bytes (supportedValues args)).enc.length then
        throwJava "out of buffer memory"
      else if args.all fun a => a.value.isSome then ok (PacketTree.message address.bytes (supportedValues args)).enc
      else throwJava unsupported := by
  have hcalls := calls_spec hbuf h
  rw [show runAll apply (.beginMessage address :: (supportedOperands args).map .append) (.mk' buffer) =
    ((OutboundPacketStream.mk' buffer).beginMessage address >>= fun p =>
      runAll apply ((supportedOperands args).map .append) p) from
    List.foldlM_cons] at hcalls
  rw [← Passes.messageBytes (supported_pass args) address.bytes, buildMessage]
  simp only [appendBoxedArgs_eq]
  split at hcalls
  · rw [if_pos ‹_›]
    obtain ⟨s, hs⟩ := hcalls
    cases hbegin : (OutboundPacketStream.mk' buffer).beginMessage address with
    | ok p =>
      rw [hbegin, ok_bind] at hs
      simp only [ok_bind, hs, map_err, err_bind]
      rfl
    | err e =>
      rw [hbegin] at hs
      obtain rfl := Out.err.inj hs
      rfl
    | fault f => rw [hbegin] at hs; cases hs
  · rw [if_neg ‹_›]
    obtain ⟨s, s', hs, hend, hpacket⟩ := hcalls
    obtain ⟨p, hbegin, hs⟩ := bind_eq_ok.mp hs
    simp only [hbegin, ok_bind, hs, map_ok, hend, hpacket]
    cases args.all fun a => a.value.isSome <;> rfl

/-! ## What is described -/

variable {fmt : UInt32 → CStr} {m : Bytes}

theorem describeArg_eq {a : ReceivedMessageArgument} {tag : UInt8} {v : ArgValue} (h : readTagged m a = ok (tag, v)) :
    describeArg fmt m a = ok (shown fmt v) := by
  obtain ⟨t, ht, hread⟩ := readTagged_tag h
  have hquery : ∀ t' : TypeTag, a.isTag m t' = ok (t.value == t'.value) :=
    fun t' => by rw [ReceivedMessageArgument.isTag, ht, ok_bind]
  rw [readUnchecked, ht, ok_bind, TypeTag.ofByte_value] at hread
  simp only [describeArg, ReceivedMessageArgument.isInt32, ReceivedMessageArgument.isFloat,
    ReceivedMessageArgument.isString, ReceivedMessageArgument.isBool, hquery, ok_bind]
  cases t with
  | int32Tag | floatTag | stringTag | trueTag | falseTag =>
    obtain ⟨v, hv, rfl⟩ := map_eq_ok.mp hread
    simp only [hv]
    rfl
  | nilTag | infinitumTag | arrayBeginTag | arrayEndTag =>
    obtain rfl := Out.ok.inj hread
    rfl
  | charTag | rgbaColorTag | midiMessageTag | int64Tag | timeTagTag | doubleTag | symbolTag =>
    obtain ⟨v, -, rfl⟩ := map_eq_ok.mp hread
    rfl
  | blobTag =>
    obtain ⟨b, -, hread⟩ := bind_eq_ok.mp hread
    obtain ⟨v, -, rfl⟩ := map_eq_ok.mp hread
    rfl

theorem foldl_text (arguments : List ArgValue) (out : Bytes) :
    arguments.foldl (fun out v => out ++ bytesOf " " ++ shown fmt v) out = text fmt out arguments := by
  induction arguments generalizing out with
  | nil => simp [text]
  | cons v vs ih =>
    rw [List.foldl_cons, ih, text, text, List.flatMap_cons]
    simp only [List.append_assoc]

/-- A text has no NUL: it is handed over whole. -/
theorem text_noNul {address : Bytes} {arguments : List ArgValue} (h : 0 ∉ address)
    (hs : ∀ s, .string s ∈ arguments → 0 ∉ s) :
    (cStr (text fmt address arguments)).bytes = text fmt address arguments := by
  refine cStr_bytes ?_
  rw [text, List.mem_append, not_or]
  refine ⟨h, fun h0 => ?_⟩
  obtain ⟨v, hv, h0⟩ := List.mem_flatMap.mp h0
  rcases List.mem_append.mp h0 with h0 | h0
  · exact absurd h0 (by decide)
  · cases v with
    | int32 v =>
      rcases mem_decimal h0 with hc | hc
      · exact absurd hc (by decide)
      · exact absurd hc (by decide)
    | float bits => exact (fmt bits).noNul h0
    | string s =>
      rcases List.mem_append.mp h0 with h0 | h0
      · rcases List.mem_append.mp h0 with h0 | h0
        · exact absurd h0 (by decide)
        · exact hs s hv h0
      · exact absurd h0 (by decide)
    | bool b =>
      cases b with
      | true => exact absurd h0 (show ¬ (0 : UInt8) ∈ bytesOf "true" by decide)
      | false => exact absurd h0 (show ¬ (0 : UInt8) ∈ bytesOf "false" by decide)
    | _ => exact absurd h0 (show ¬ (0 : UInt8) ∈ bytesOf "?" by decide)

/-- A description of an array stays inside it and ends; it is the text of the message that the
    array spells, and an `IllegalArgumentException` where it spells none. -/
theorem described_exactly (fmt : UInt32 → CStr) {packet : Bytes} (hn : packet.length < 2 ^ 31) :
    Decides (describe fmt packet) fun out => ∃ d, SizeOk packet.length ∧ Spells packet 0 packet.length d ∧
      out = text fmt d.address d.arguments := by
  have hl : 0 + (packet.length : Int).toNat ≤ packet.length := by simp
  have hsize : ReceivedPacket.ofSizeT 0 (UInt64.ofNat packet.length) = ReceivedPacket.mk' 0 packet.length := by
    have hsame : toElementSize packet.length = packet.length := by
      rw [ReceivedPacket.toElementSize_eq]
      split <;> omega
    rw [ReceivedPacket.ofSizeT, UInt64.toNat_ofNat_of_lt' (show packet.length < 2 ^ 64 by omega), hsame]
  have hspells := readMessage_decides hl
  rw [Int.toNat_natCast, Nat.zero_add] at hspells
  rw [describe, hsize]
  rcases ReceivedPacket.mk'_eq 0 packet.length with ⟨hok, hmk⟩ | ⟨hok, what, hmk⟩
  · rw [hmk, ok_bind]
    rcases ((ReceivedMessage.tryInit_decides hl).mapErr (g := Exn.malformedMessage)).ok_or_err with
      ⟨r, hr, hmessage⟩ | ⟨e, he, hnone⟩
    · obtain ⟨d, hd, hdecode⟩ := hmessage.2.2.decode hl
      rw [Int.toNat_natCast, Nat.zero_add] at hd
      obtain ⟨⟨haddr, -⟩, hstrings⟩ := decode_strings hdecode
      obtain ⟨haddress, hloop⟩ := ReceivedMessage.decode_forArguments
        (b := fun a out => do
          let text ← describeArg fmt packet a
          ok (out ++ bytesOf " " ++ text))
        (f := fun out v => out ++ bytesOf " " ++ shown fmt v) hdecode
        (fun a tag v s h => by rw [describeArg_eq h, ok_bind]) d.address
      rw [ReceivedMessage.mk', hr, ok_bind, haddress, ok_bind, hloop, foldl_text]
      dsimp only
      rw [text_noNul haddr fun s hs => (hstrings s hs).1]
      refine (decides_ok _).congr fun out => ⟨fun h => ⟨d, hok, hd, h⟩, fun h => ?_⟩
      obtain ⟨d', -, hd', rfl⟩ := h
      rw [hd.unique hd']
    · rw [ReceivedMessage.mk', he, err_bind]
      refine (decides_err _).congr fun out => ⟨False.elim, fun h => ?_⟩
      obtain ⟨d, -, hd, -⟩ := h
      obtain ⟨r, hsame, hmessage⟩ := hd.message packet.length
      exact hnone r ⟨hok, hsame, by rwa [Int.toNat_natCast, Nat.zero_add]⟩
  · rw [hmk, err_bind]
    exact (decides_err _).congr fun out => ⟨False.elim, fun h => hok h.choose_spec.1⟩

theorem describe_spelled {packet : Bytes} (hn : packet.length < 2 ^ 31) {d : Decoded} (hs : SizeOk packet.length)
    (hd : Spells packet 0 packet.length d) : describe fmt packet = ok (text fmt d.address d.arguments) :=
  (described_exactly fmt hn).iff.mpr ⟨d, hs, hd, rfl⟩

/-! ## Both -/

theorem supported_plain (args : List Boxed) : ∀ v ∈ supportedValues args, v.Sendable ∧ HubListener.copied v = true := by
  intro v hv
  obtain ⟨a, -, ha⟩ := List.mem_filterMap.mp hv
  cases a with
  | string utf => obtain rfl := Option.some.inj ha; exact ⟨utf.noNul, rfl⟩
  | integer v | float v | boolean v => obtain rfl := Option.some.inj ha; exact ⟨trivial, rfl⟩
  | other => cases ha

/-- The packet of an address and arguments of the kinds that are copied spells them, also behind a `#`. -/
theorem plain_spells (address : CStr) {vs : List ArgValue} (h : ∀ v ∈ vs, v.Sendable ∧ HubListener.copied v = true) :
    Spells (PacketTree.message address.bytes vs).enc 0 (PacketTree.message address.bytes vs).enc.length
      ⟨address.bytes, vs.length, tagBytes vs, vs⟩ := by
  have hnested := copied_nested vs
  rw [List.filter_eq_self.mpr fun v hv => (h v hv).2] at hnested
  have hat := at_self (PacketTree.message address.bytes vs).enc
  have hwhole : upToNul address.bytes = address.bytes :=
    List.takeWhile_eq_self_iff.mpr fun c hc => by simpa using fun h0 : c = 0 => address.noNul (h0 ▸ hc)
  rw [PacketTree.enc] at hat ⊢
  have h3 := ((at_append _ _).mp hat).2
  rw [List.length_append, ← Nat.add_assoc] at h3
  have hspells := spells_at hat (.of_noNul address.noNul) hnested (values_at h3 fun v hv => (h v hv).1)
  rwa [hwhole, Nat.zero_add] at hspells

/-- What Java builds it can have described: the text is that of the address and the arguments. What
    it cannot build, it is told why. -/
theorem describes_what_was_built (fmt : UInt32 → CStr) {buffer : Bytes} (hbuf : buffer.length = 1024) {address : CStr}
    {args : List Boxed} (h : Handed address args) :
    (buildMessage buffer address args >>= describe fmt) =
      if 1024 < (PacketTree.message address.bytes (supportedValues args)).enc.length then
        throwJava "out of buffer memory"
      else if args.all fun a => a.value.isSome then ok (text fmt address.bytes (supportedValues args))
      else throwJava unsupported := by
  rw [built_exactly hbuf h]
  have hmessage := length_messageBytes address.bytes (supportedOperands args)
  rw [Passes.messageBytes (supported_pass args)] at hmessage
  split
  · rfl
  · split
    · rw [ok_bind, describe_spelled (by omega) ⟨by omega, by omega, by omega⟩
        (plain_spells address (supported_plain args))]
    · rfl

/-- "/a" with 5, true and "x". -/
theorem describes_what_was_built_a :
    (buildMessage (List.replicate 1024 255) ⟨bytesOf "/a", by decide⟩
      [.integer 5, .boolean true, .string ⟨bytesOf "x", by decide⟩] >>=
      describe fun _ => ⟨bytesOf "0.000000", by decide⟩) = ok (bytesOf "/a 5 true \"x\"") := by
  refine (describes_what_was_built _ (by rw [List.length_replicate]) ⟨by decide, fun utf hutf => ?_⟩).trans (by decide)
  obtain rfl : utf = ⟨bytesOf "x", by decide⟩ := by simpa using hutf
  decide

def fiveAndX : Bytes := [ch '/', ch 'a', 0, 0, ch ',', ch 'i', ch 's', 0, 0, 0, 0, 5, ch 'x', 0, 0, 0]

theorem described_exactly_fiveAndX : ∃ d, Spells fiveAndX 0 16 d ∧
    bytesOf "/a 5 \"x\"" = text (fun _ => ⟨[], by decide⟩) d.address d.arguments := by
  obtain ⟨d, -, hd, htext⟩ := (described_exactly (fun _ => ⟨[], by decide⟩)
    (show fiveAndX.length < 2 ^ 31 by decide)).iff.mp
    (show describe _ fiveAndX = ok (bytesOf "/a 5 \"x\"") by decide +kernel)
  exact ⟨d, hd, htext⟩

end OscTap.Demos.Bridge
