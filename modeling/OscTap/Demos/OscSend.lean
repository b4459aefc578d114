/-
  OscTap.Demos.OscSend — the sender on the command line (`demos/osc_send.cpp`).

  An argument is typed by a prefix of one letter; without one it is an integer if it reads as one,
  else a float if it reads as one, else a string. The message is streamed into a buffer of 1024 bytes
  on the stack, and sent. `strtol` is written out, for a `long` of any width; `strtof` and `atof` are
  the library's. What the socket makes of the packet is left out.

  Proved: `parseInt_iff`: what reads as an integer is a numeral to its end, and becomes the low 32
  bits of the `long`; `sends_what_is_typed`: the packet that a command line sends; `typed_sent`: every
  value of the four kinds can be typed.
-/
import OscTap.Demos.Bridge
import OscTap.Demos.Endpoint
import OscTap.Lib.Strtol

namespace OscTap.Demos.OscSend

open OscTap.Lib OscTap.Lib.Out OscTap.Lib.Ostream OscTap.Osc OscTap.Received OscTap.Outbound OscTap.Ip
open OscTap.Tcp (IpEndpointName)

/-- The width of `long`; `strtof`: the value and where it ended; `atof`, as a `float`. -/
structure CLibrary where
  longBits : Nat
  strtof : Bytes → UInt32 × Nat
  atof : Bytes → UInt32

/-! ## The command line -/

variable (c : CLibrary)

def parseInt (s : Bytes) : Option Int32 :=
  let (v, end_) := strtol c.longBits s
  if end_ = 0 ∨ end_ ≠ s.length then none else some (Int32.ofInt v)

def parseFloat (s : Bytes) : Option UInt32 :=
  let (v, end_) := c.strtof s
  if end_ = 0 ∨ end_ ≠ s.length then none else some v

def behind (tok : CStr) (n : Nat) : CStr := ⟨tok.bytes.drop n, fun h => tok.noNul (List.mem_of_mem_drop h)⟩

def appendArg (p : OutboundPacketStream) (tok : CStr) :
    Out (Outbound.Exn × OutboundPacketStream) OutboundPacketStream :=
  if tok.bytes = bytesOf "T" then p.bool true
  else if tok.bytes = bytesOf "F" then p.bool false
  else if tok.bytes.take 2 = bytesOf "i:" then do
    let v ← atoi (tok.bytes.drop 2)
    p.int32 v
  else if tok.bytes.take 2 = bytesOf "f:" then p.float (c.atof (tok.bytes.drop 2))
  else if tok.bytes.take 2 = bytesOf "s:" then p.cString (behind tok 2)
  else
    match parseInt c tok.bytes with
    | some i => p.int32 i
    | none =>
      match parseFloat c tok.bytes with
      | some f => p.float f
      | none => p.cString tok

def appendArgs : List CStr → OutboundPacketStream → Out (Outbound.Exn × OutboundPacketStream) OutboundPacketStream
  | [], p => ok p
  | tok :: args, p => do
    let p ← appendArg c p tok
    appendArgs args p

inductive Outcome where
  | usage
  | failed (what : String)
  | send (remote : IpEndpointName) (packet : Bytes)
  deriving DecidableEq

def main (getaddrinfo : Bytes → Option (Option UInt32)) (buffer : Bytes) : List CStr → Out Empty Outcome
  | _ :: host :: port :: address :: args => do
    let port ← atoi port.bytes
    let built : Out (Outbound.Exn × OutboundPacketStream) OutboundPacketStream := do
      let p ← (OutboundPacketStream.mk' buffer).beginMessage address
      let p ← appendArgs c args p
      p.endMessage
    match built with
    | ok p => ok (.send ⟨getHostByName getaddrinfo host.bytes, port⟩ p.packet)
    | err (e, _) => ok (.failed e.what)
    | fault f => fault f
  | _ => ok .usage

/-! ## What a token is -/

/-- Neither a truth value nor behind a prefix. -/
def Auto (s : Bytes) : Prop :=
  s ≠ bytesOf "T" ∧ s ≠ bytesOf "F" ∧ s.take 2 ≠ bytesOf "i:" ∧ s.take 2 ≠ bytesOf "f:" ∧ s.take 2 ≠ bytesOf "s:"

instance (s : Bytes) : Decidable (Auto s) := inferInstanceAs (Decidable (_ ∧ _))

def WholeFloat (s : Bytes) : Prop := s ≠ [] ∧ (c.strtof s).2 = s.length

/-- The usage: what a token is typed as. -/
inductive Types : Bytes → ArgValue → Prop
  | yes : Types (bytesOf "T") (.bool true)
  | no : Types (bytesOf "F") (.bool false)
  | int {s : Bytes} {v : Int32} : readInt s = v.toInt → Types (bytesOf "i:" ++ s) (.int32 v)
  | float (s : Bytes) : Types (bytesOf "f:" ++ s) (.float (c.atof s))
  | string (s : Bytes) : Types (bytesOf "s:" ++ s) (.string s)
  | autoInt {s : Bytes} {n : Int} : Auto s → Numeral s n → Types s (.int32 (Int32.ofInt (saturate c.longBits n)))
  | autoFloat {s : Bytes} : Auto s → (∀ n, ¬ Numeral s n) → WholeFloat c s → Types s (.float (c.strtof s).1)
  | autoString {s : Bytes} : Auto s → (∀ n, ¬ Numeral s n) → ¬ WholeFloat c s → Types s (.string s)

/-! ## Reading a token -/

variable {c} {s : Bytes}

/-- A token reads as an integer when it is a numeral; the number is that of the `long`, modulo 2^32. -/
theorem parseInt_iff {v : Int32} : parseInt c s = some v ↔ ∃ n, Numeral s n ∧
    v = Int32.ofInt (saturate c.longBits n) := by
  constructor
  · intro h
    simp only [parseInt] at h
    split at h
    · cases h
    · rename_i hn
      obtain ⟨h0, hall⟩ := not_or.mp hn
      obtain ⟨n, hn⟩ := numeral_of_strtol h0 (not_not.mp hall)
      rw [hn.strtol.1] at h
      exact ⟨n, hn, (Option.some.inj h).symm⟩
  · intro h
    obtain ⟨n, hn, rfl⟩ := h
    obtain ⟨hread, hne⟩ := @Numeral.strtol c.longBits s n hn
    have hlen : s.length ≠ 0 := fun h0 => hne (List.eq_nil_of_length_eq_zero h0)
    simp [parseInt, hread, hlen]

theorem parseInt_none : parseInt c s = none ↔ ∀ n, ¬ Numeral s n := by
  rw [Option.eq_none_iff_forall_ne_some]
  refine ⟨fun h n hn => h _ (parseInt_iff.mpr ⟨n, hn, rfl⟩), fun h v hv => ?_⟩
  obtain ⟨n, hn, -⟩ := parseInt_iff.mp hv
  exact h n hn

theorem parseFloat_whole (h : WholeFloat c s) : parseFloat c s = some (c.strtof s).1 := by
  have hlen : s.length ≠ 0 := fun h0 => h.1 (List.eq_nil_of_length_eq_zero h0)
  simp [parseFloat, h.2, hlen]

theorem parseFloat_none (h : ¬ WholeFloat c s) : parseFloat c s = none := by
  simp only [parseFloat]
  rw [if_pos]
  by_contra hno
  obtain ⟨h0, hall⟩ := not_or.mp hno
  have hall := not_not.mp hall
  refine h ⟨?_, hall⟩
  rintro rfl
  exact h0 hall

/-! ## Tokens -/

theorem letters : bytesOf "T" = [84] ∧ bytesOf "F" = [70] ∧ bytesOf "i:" = [105, 58] ∧ bytesOf "f:" = [102, 58] ∧
    bytesOf "s:" = [115, 58] := by
  decide

/-- A token is streamed as what it is typed as. -/
theorem Types.appended {tok : CStr} {v : ArgValue} (h : Types c tok.bytes v) (hl : tok.bytes.length + 4 < 2 ^ 32) :
    v.Sendable ∧ HubListener.copied v = true ∧ ∃ rhs, Passes v rhs ∧ rhs.Fits ∧
      ∀ p, appendArg c p tok = append p rhs := by
  obtain ⟨hT, hF, hi, hf, hs⟩ := letters
  generalize hb : tok.bytes = s at h
  cases h with
  | yes => exact ⟨trivial, rfl, _, .bool true, trivial, fun p => by rw [appendArg, if_pos hb]; rfl⟩
  | no =>
    exact ⟨trivial, rfl, _, .bool false, trivial, fun p => by rw [appendArg, hb, if_neg (by decide), if_pos rfl]; rfl⟩
  | @int s v hv =>
    refine ⟨trivial, rfl, _, .int32 v, trivial, fun p => ?_⟩
    simp [appendArg, hb, hT, hF, hi, atoi_eq.mpr hv, append]
  | float s =>
    refine ⟨trivial, rfl, _, .float _, trivial, fun p => ?_⟩
    simp [appendArg, hb, hT, hF, hi, hf, append]
  | string s =>
    have hbehind : (behind tok 2).bytes = s := by simp [behind, hb, hs]
    have hpass := Passes.cString (behind tok 2)
    rw [hbehind] at hpass
    refine ⟨hbehind ▸ (behind tok 2).noNul, rfl, _, hpass, ?_, fun p => ?_⟩
    · rw [hb, List.length_append] at hl
      show (behind tok 2).bytes.length + 4 < 2 ^ 32
      rw [hbehind]
      omega
    · simp [appendArg, hb, hT, hF, hi, hf, hs, append]
  | autoInt ha hn =>
    obtain ⟨h1, h2, h3, h4, h5⟩ := ha
    refine ⟨trivial, rfl, _, .int32 _, trivial, fun p => ?_⟩
    simp only [appendArg, hb, if_neg h1, if_neg h2, if_neg h3, if_neg h4, if_neg h5, parseInt_iff.mpr ⟨_, hn, rfl⟩]
    rfl
  | autoFloat ha hn hw =>
    obtain ⟨h1, h2, h3, h4, h5⟩ := ha
    refine ⟨trivial, rfl, _, .float _, trivial, fun p => ?_⟩
    simp only [appendArg, hb, if_neg h1, if_neg h2, if_neg h3, if_neg h4, if_neg h5, parseInt_none.mpr hn,
      parseFloat_whole hw]
    rfl
  | autoString ha hn hw =>
    obtain ⟨h1, h2, h3, h4, h5⟩ := ha
    have hpass := Passes.cString tok
    rw [hb] at hpass
    refine ⟨hb ▸ tok.noNul, rfl, _, hpass, hl, fun p => ?_⟩
    simp only [appendArg, hb, if_neg h1, if_neg h2, if_neg h3, if_neg h4, if_neg h5, parseInt_none.mpr hn,
      parseFloat_none hw]
    rfl

/-- An integer behind its prefix that is outside `int`. -/
def Overlong (s : Bytes) : Prop := s.take 2 = bytesOf "i:" ∧
    ¬ (-2 ^ 31 ≤ readInt (s.drop 2) ∧ readInt (s.drop 2) < 2 ^ 31)

instance (s : Bytes) : Decidable (Overlong s) := inferInstanceAs (Decidable (_ ∧ _))

/-- Any other token is typed as something. -/
theorem types_total (h : ¬ Overlong s) : ∃ v, Types c s v := by
  by_cases hT : s = bytesOf "T"
  · rw [hT]
    exact ⟨_, .yes⟩
  by_cases hF : s = bytesOf "F"
  · rw [hF]
    exact ⟨_, .no⟩
  have hsplit : s = s.take 2 ++ s.drop 2 := (List.take_append_drop 2 s).symm
  by_cases hi : s.take 2 = bytesOf "i:"
  · rw [hi] at hsplit
    have hv := not_not.mp fun hno => h ⟨hi, hno⟩
    rw [hsplit]
    exact ⟨_, .int (v := Int32.ofInt (readInt (s.drop 2))) (Int32.toInt_ofInt_of_le hv.1 hv.2).symm⟩
  by_cases hf : s.take 2 = bytesOf "f:"
  · rw [hf] at hsplit
    rw [hsplit]
    exact ⟨_, .float _⟩
  by_cases hs : s.take 2 = bytesOf "s:"
  · rw [hs] at hsplit
    rw [hsplit]
    exact ⟨_, .string _⟩
  have hauto : Auto s := ⟨hT, hF, hi, hf, hs⟩
  by_cases hn : ∃ n, Numeral s n
  · obtain ⟨n, hn⟩ := hn
    exact ⟨_, .autoInt hauto hn⟩
  · by_cases hw : WholeFloat c s
    · exact ⟨_, .autoFloat hauto (not_exists.mp hn) hw⟩
    · exact ⟨_, .autoString hauto (not_exists.mp hn) hw⟩

theorem all_typed {args : List CStr} (h : ∀ tok ∈ args, ¬ Overlong tok.bytes) :
    ∃ vs, List.Forall₂ (fun tok v => Types c tok.bytes v) args vs := by
  obtain ⟨vs, hvs, -⟩ := exists_forall₂ (R := fun (tok : CStr) v => Types c tok.bytes v)
    (P := fun _ => True) fun tok htok => by
    obtain ⟨v, hv⟩ := @types_total c _ (h tok htok)
    exact ⟨v, hv, trivial⟩
  exact ⟨vs, hvs⟩

/-! ## The packet -/

/-- The loop over the arguments makes a call for each. -/
theorem appendArgs_eq {args : List CStr} {vs : List ArgValue}
    (h : List.Forall₂ (fun tok v => Types c tok.bytes v) args vs) (hl : ∀ tok ∈ args, tok.bytes.length + 4 < 2 ^ 32) :
    (∀ v ∈ vs, v.Sendable ∧ HubListener.copied v = true) ∧ ∃ operands, List.Forall₂ Passes vs operands ∧
    (∀ rhs ∈ operands, rhs.Fits) ∧
      ∀ p, appendArgs c args p = runAll apply (operands.map .append) p := by
  induction h with
  | nil => exact ⟨by simp, [], .nil, by simp, fun p => rfl⟩
  | @cons tok v args vs hv _ ih =>
    obtain ⟨hsend, hcopied, rhs, hpass, hfits, happend⟩ := hv.appended (hl tok (List.mem_cons_self ..))
    obtain ⟨hplain, operands, hall, hops, hrun⟩ := ih fun t ht => hl t (List.mem_cons_of_mem _ ht)
    refine ⟨List.forall_mem_cons.mpr ⟨⟨hsend, hcopied⟩, hplain⟩, rhs :: operands, .cons hpass hall,
      List.forall_mem_cons.mpr ⟨hfits, hops⟩, fun p => ?_⟩
    rw [appendArgs, happend, List.map_cons, runAll, List.foldlM_cons]
    show _ = append p rhs >>= fun p => runAll apply (operands.map .append) p
    cases append p rhs with
    | ok p => exact hrun p
    | err e => rfl
    | fault f => rfl

theorem begun_fits {address : CStr} {operands : List Operand} (ha : address.bytes.length + 4 < 2 ^ 32)
    (h : ∀ rhs ∈ operands, rhs.Fits) :
    ∀ op ∈ Op.beginMessage address :: operands.map .append, op.Fits := by
  refine List.forall_mem_cons.mpr ⟨ha, fun op hop => ?_⟩
  obtain ⟨rhs, hrhs, rfl⟩ := List.mem_map.mp hop
  exact h rhs hrhs

/-- What a command line sends. -/
theorem sent_exactly {getaddrinfo : Bytes → Option (Option UInt32)} {buffer : Bytes} (hbuf : buffer.length = 1024)
    {program host portText address : CStr} {args : List CStr} {port : Int32} {vs : List ArgValue}
    (hp : readInt portText.bytes = port.toInt) (hl : ∀ tok ∈ address :: args, tok.bytes.length + 4 < 2 ^ 32)
    (h : List.Forall₂ (fun tok v => Types c tok.bytes v) args vs) :
    main c getaddrinfo buffer (program :: host :: portText :: address :: args) =
      ok (if 1024 < (PacketTree.message address.bytes vs).enc.length then .failed "out of buffer memory"
        else .send ⟨getHostByName getaddrinfo host.bytes, port⟩ (PacketTree.message address.bytes vs).enc) := by
  obtain ⟨-, operands, hpasses, hfits, hargs⟩ := appendArgs_eq h fun tok ht => hl tok (List.mem_cons_of_mem _ ht)
  have hrun := begun_streams (begun_fits (hl address (List.mem_cons_self ..)) hfits)
    (show buffer.length < 2 ^ 31 by omega)
  have hcalls : runAll apply (.beginMessage address :: (operands.map .append ++ [.endMessage])) (.mk' buffer) =
      ((OutboundPacketStream.mk' buffer).beginMessage address >>= fun p => appendArgs c args p >>= fun p =>
        p.endMessage) := by
    rw [runAll, List.foldlM_cons]
    show ((OutboundPacketStream.mk' buffer).beginMessage address >>= fun p =>
      runAll apply (operands.map .append ++ [.endMessage]) p) = _
    congr 1
    funext p
    rw [runAll_append, hargs]
    congr 1
    funext p
    show (p.endMessage >>= fun p => ok p) = p.endMessage
    cases p.endMessage <;> rfl
  rw [hcalls, hbuf, Passes.messageBytes hpasses] at hrun
  rw [main, atoi_eq.mpr hp, ok_bind]
  split at hrun
  · rw [if_pos ‹_›]
    obtain ⟨s, hs⟩ := hrun
    simp only [hs]
    rfl
  · rw [if_neg ‹_›]
    obtain ⟨s, hs, hpacket⟩ := hrun
    simp only [hs, hpacket]

/-- Unless `atoi` is given a number outside `int`: every argument is typed as something, and the
    packet is sent, if there is room for it, that spells what they are typed as. -/
theorem sends_what_is_typed (c : CLibrary) (getaddrinfo : Bytes → Option (Option UInt32)) {buffer : Bytes}
    (hbuf : buffer.length = 1024) {program host portText address : CStr} {args : List CStr} {port : Int32}
    (hp : readInt portText.bytes = port.toInt)
    (hl : ∀ tok ∈ address :: args, tok.bytes.length + 4 < 2 ^ 32) (ht : ∀ tok ∈ args, ¬ Overlong tok.bytes) :
    (∃ vs, List.Forall₂ (fun tok v => Types c tok.bytes v) args vs) ∧
      ∀ vs, List.Forall₂ (fun tok v => Types c tok.bytes v) args vs →
        main c getaddrinfo buffer (program :: host :: portText :: address :: args) =
          ok (if 1024 < (PacketTree.message address.bytes vs).enc.length then .failed "out of buffer memory"
            else .send ⟨getHostByName getaddrinfo host.bytes, port⟩ (PacketTree.message address.bytes vs).enc) ∧
        Spells (PacketTree.message address.bytes vs).enc 0 (PacketTree.message address.bytes vs).enc.length
          ⟨address.bytes, vs.length, tagBytes vs, vs⟩ := by
  refine ⟨all_typed ht, fun vs hvs => ⟨sent_exactly hbuf hp hl hvs, Bridge.plain_spells address ?_⟩⟩
  exact (appendArgs_eq hvs fun tok htok => hl tok (List.mem_cons_of_mem _ htok)).1

def noFloats : CLibrary := ⟨64, fun _ => (0, 0), fun _ => 0⟩

/-- The arguments "T", "-7" and "on" behind "/led", to a port of the loopback. -/
theorem sends_what_is_typed_led :
    main noFloats numericOnly (List.replicate 1024 255)
        [⟨bytesOf "osc_send", by decide⟩, ⟨bytesOf "127.0.0.1", by decide⟩, ⟨bytesOf "9000", by decide⟩,
          ⟨bytesOf "/led", by decide⟩, ⟨bytesOf "T", by decide⟩, ⟨bytesOf "-7", by decide⟩, ⟨bytesOf "on", by decide⟩] =
      ok (.send ⟨0x7F000001, 9000⟩ (PacketTree.message (bytesOf "/led")
        [.bool true, .int32 (-7), .string (bytesOf "on")]).enc) := by
  have hport : readInt (bytesOf "9000") = (9000 : Int32).toInt := by decide
  have hminus : Types noFloats (bytesOf "-7") (.int32 (-7)) :=
    .autoInt (n := -7) (by decide) (@Numeral.minus [] [55] (List.forall_mem_nil _) (by decide)
      (List.forall_mem_singleton.mpr (by decide)))
  have hon : Types noFloats (bytesOf "on") (.string (bytesOf "on")) :=
    .autoString (by decide) (parseInt_none (c := noFloats).mp (by decide)) fun h => absurd h.2 (by decide)
  refine ((sends_what_is_typed noFloats numericOnly (by rw [List.length_replicate]) hport (by decide) (by decide)).2
    _ (.cons .yes (.cons hminus (.cons hon .nil)))).1.trans ?_
  rw [if_neg (by decide)]
  rfl

/-! ## Typing what is meant -/

/-- How a value may be typed, given a text for each float: an integer as its decimal numeral alone. -/
def token (floatText : UInt32 → Bytes) : ArgValue → Bytes
  | .int32 v => decimal v.toInt
  | .float bits => bytesOf "f:" ++ floatText bits
  | .bool b => bytesOf (if b then "T" else "F")
  | .string s => bytesOf "s:" ++ s
  | _ => []

/-- No numeral is taken for something else. -/
theorem auto_decimal (n : Int) : Auto (decimal n) := by
  obtain ⟨hT, hF, hi, hf, hs⟩ := letters
  have hone : ∀ x, x ∈ decimal n → x ≠ 84 ∧ x ≠ 70 ∧ x ≠ 58 := by
    intro x hx
    rcases mem_decimal hx with rfl | hx
    · decide
    · refine ⟨?_, ?_, ?_⟩ <;> (rintro rfl; exact absurd hx (by decide))
  have htwo : ∀ x, (decimal n).take 2 ≠ [x, 58] := fun x h =>
    (hone 58 (List.mem_of_mem_take (show 58 ∈ (decimal n).take 2 by simp [h]))).2.2 rfl
  rw [Auto, hT, hF, hi, hf, hs]
  exact ⟨fun h => (hone 84 (by simp [h])).1 rfl, fun h => (hone 70 (by simp [h])).2.1 rfl, htwo _, htwo _, htwo _⟩

theorem token_types (hbits : 32 ≤ c.longBits) {floatText : UInt32 → Bytes} {v : ArgValue}
    (hkind : HubListener.copied v = true) (hfloat : ∀ bits, v = .float bits → c.atof (floatText bits) = bits) :
    Types c (token floatText v) v := by
  cases v with
  | int32 v =>
    have h := Types.autoInt (c := c) (auto_decimal v.toInt) (numeral_decimal v.toInt)
    rwa [saturate_int32 hbits, Int32.ofInt_toInt] at h
  | float bits =>
    have h := Types.float (c := c) (floatText bits)
    rwa [hfloat bits rfl] at h
  | bool b =>
    cases b with
    | true => exact .yes
    | false => exact .no
  | string s => exact .string s
  | _ => cases hkind

/-- Every message of the four kinds of values that fits can be typed. -/
theorem typed_sent {c : CLibrary} (hbits : 32 ≤ c.longBits) (getaddrinfo : Bytes → Option (Option UInt32))
    {buffer : Bytes} (hbuf : buffer.length = 1024) {program host portText address : CStr} {args : List CStr}
    {port : Int32} {vs : List ArgValue}
    {floatText : UInt32 → Bytes} (hp : portText.bytes = decimal port.toInt)
    (hl : ∀ tok ∈ address :: args, tok.bytes.length + 4 < 2 ^ 32) (hkinds : ∀ v ∈ vs, HubListener.copied v = true)
    (hfloats : ∀ bits, .float bits ∈ vs → c.atof (floatText bits) = bits)
    (ha : args.map CStr.bytes = vs.map (token floatText))
    (hfit : (PacketTree.message address.bytes vs).enc.length ≤ 1024) :
    main c getaddrinfo buffer (program :: host :: portText :: address :: args) =
      ok (.send ⟨getHostByName getaddrinfo host.bytes, port⟩ (PacketTree.message address.bytes vs).enc) := by
  have htyped : List.Forall₂ (fun tok v => Types c tok.bytes v) args vs := by
    refine List.forall₂_map_left_iff.mp (?_ : List.Forall₂ (Types c) (args.map CStr.bytes) vs)
    rw [ha, List.forall₂_map_left_iff, List.forall₂_same]
    exact fun v hv => token_types hbits (hkinds v hv) fun bits h => hfloats bits (h ▸ hv)
  rw [sent_exactly hbuf (by rw [hp, readInt_decimal]) hl htyped, if_neg (by omega)]

def oneAndHalf : CLibrary := ⟨64, fun _ => (0, 0), fun s => if s = bytesOf "1.5" then 0x3FC00000 else 0⟩

/-- The values true, -7, "on" and 1.5. -/
theorem typed_sent_led :
    main oneAndHalf numericOnly (List.replicate 1024 255)
        [⟨bytesOf "osc_send", by decide⟩, ⟨bytesOf "127.0.0.1", by decide⟩, ⟨bytesOf "9000", by decide⟩,
          ⟨bytesOf "/led", by decide⟩, ⟨bytesOf "T", by decide⟩, ⟨bytesOf "-7", by decide⟩,
          ⟨bytesOf "s:on", by decide⟩, ⟨bytesOf "f:1.5", by decide⟩] =
      ok (.send ⟨0x7F000001, 9000⟩
        (PacketTree.message (bytesOf "/led") [.bool true, .int32 (-7), .string (bytesOf "on"),
          .float 0x3FC00000]).enc) :=
  typed_sent (c := oneAndHalf) (by decide) numericOnly (by rw [List.length_replicate])
    (show bytesOf "9000" = decimal (9000 : Int32).toInt by decide) (by decide) (by decide)
    (fun bits hbits => show oneAndHalf.atof (bytesOf "1.5") = bits by
      obtain rfl : bits = 0x3FC00000 := by simpa using hbits
      rfl)
    (show [bytesOf "T", bytesOf "-7", bytesOf "s:on", bytesOf "f:1.5"] =
      [ArgValue.bool true, .int32 (-7), .string (bytesOf "on"), .float 0x3FC00000].map
        (token fun _ => bytesOf "1.5") by decide)
    (by decide)

end OscTap.Demos.OscSend
