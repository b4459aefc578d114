/-
  OscTap.Osc.Packet — what a packet is: messages and bundles as trees, and their encoding.

  An argument has a tag and an encoding. A packet is a message (an address and its arguments)
  or a bundle (a time tag and packets). `enc` is the reference encoding: the padded address,
  the padded `,` and tags, the arguments; or the bundle header and each element behind its
  length. Floats and doubles are their bits, a `char` is its byte. `Sendable` says which
  packets a reader of the encoding gets back.
-/
import OscTap.Lib.Brackets
import OscTap.Osc.Types

namespace OscTap.Osc

open OscTap.Lib

/-! ## Arguments -/

inductive ArgValue where
  | bool (b : Bool)
  | nil
  | infinitum
  | int32 (v : Int32)
  | float (bits : UInt32)
  | char (c : UInt8)
  | rgbaColor (v : UInt32)
  | midiMessage (v : UInt32)
  | int64 (v : Int64)
  | timeTag (v : UInt64)
  | double (bits : UInt64)
  | string (s : Bytes)
  | symbol (s : Bytes)
  | blob (data : Bytes)
  | arrayBegin
  | arrayEnd
  deriving DecidableEq, Repr

def strBlock (s : Bytes) : Bytes := padded (s ++ [0])

/-- A `char` as the `int32_t` it is sent as; it is signed. -/
def charBits (c : UInt8) : UInt32 := c.toInt8.toInt32.toUInt32

theorem toUInt8_charBits (c : UInt8) : (charBits c).toUInt8 = c := by
  have h : (c.toBitVec.signExtend 32).setWidth 8 = c.toBitVec := by
    ext i hi
    simp only [BitVec.getElem_setWidth, BitVec.getLsbD_signExtend, BitVec.getLsbD_eq_getElem hi]
    simp [hi, show i < 32 by omega]
  apply UInt8.toBitVec_inj.mp
  simpa [charBits] using h

namespace ArgValue

def tag : ArgValue → TypeTag
  | bool true => .trueTag
  | bool false => .falseTag
  | nil => .nilTag
  | infinitum => .infinitumTag
  | int32 _ => .int32Tag
  | float _ => .floatTag
  | char _ => .charTag
  | rgbaColor _ => .rgbaColorTag
  | midiMessage _ => .midiMessageTag
  | int64 _ => .int64Tag
  | timeTag _ => .timeTagTag
  | double _ => .doubleTag
  | string _ => .stringTag
  | symbol _ => .symbolTag
  | blob _ => .blobTag
  | arrayBegin => .arrayBeginTag
  | arrayEnd => .arrayEndTag

def enc : ArgValue → Bytes
  | bool _ | nil | infinitum | arrayBegin | arrayEnd => []
  | int32 v => be32 v.toUInt32.toNat
  | char c => be32 (charBits c).toNat
  | float v | rgbaColor v | midiMessage v => be32 v.toNat
  | int64 v => be64 v.toUInt64.toNat
  | timeTag v | double v => be64 v.toNat
  | string s | symbol s => strBlock s
  | blob data => be32 data.length ++ padded data

end ArgValue

/-- What a tag does to the arrays. -/
def bracket : TypeTag → Bracket
  | .arrayBeginTag => .opens
  | .arrayEndTag => .closes
  | _ => .item

/-! ## Packets -/

inductive PacketTree where
  | message (address : Bytes) (arguments : List ArgValue)
  | bundle (timeTag : UInt64) (elements : List PacketTree)

/-- `,` and the tags, as a padded string. -/
def tagBlock (tags : Bytes) : Bytes := strBlock (ch ',' :: tags)

def tagBytes (arguments : List ArgValue) : Bytes := arguments.map fun a => a.tag.value

namespace PacketTree

mutual

def enc : PacketTree → Bytes
  | message address arguments => strBlock address ++ tagBlock (tagBytes arguments) ++ arguments.flatMap ArgValue.enc
  | bundle timeTag elements => bundleTag ++ be64 timeTag.toNat ++ encElements elements

def encElements : List PacketTree → Bytes
  | [] => []
  | e :: es => be32 (enc e).length ++ enc e ++ encElements es

end

/-- Induction over a packet and its elements. -/
theorem induction {P : PacketTree → Prop} (message : ∀ address arguments, P (message address arguments))
    (bundle : ∀ timeTag elements, (∀ e ∈ elements, P e) → P (bundle timeTag elements)) (t : PacketTree) : P t :=
  @PacketTree.rec P (fun es => ∀ e ∈ es, P e) message bundle (fun _ h => by cases h)
    (fun _ _ h hs e he => by
      rcases List.mem_cons.mp he with rfl | he
      · exact h
      · exact hs e he) t

end PacketTree

/-- A value that a reader gets back: a C string ends at its first NUL, a blob's size is an
    element size. -/
def ArgValue.Sendable : ArgValue → Prop
  | .string s | .symbol s => 0 ∉ s
  | .blob data => data.length ≤ oscBundleElementSizeMax
  | _ => True

/-- An address that is a C string and does not read as a bundle. -/
def SendableAddress (address : Bytes) : Prop := 0 ∉ address ∧ address.head? ≠ some (ch '#')

namespace PacketTree

mutual

def Sendable : PacketTree → Prop
  | message address arguments => SendableAddress address ∧ (∀ v ∈ arguments, v.Sendable) ∧
      Nested bracket (arguments.map ArgValue.tag)
  | bundle _ elements => AllSendable elements

def AllSendable : List PacketTree → Prop
  | [] => True
  | e :: es => Sendable e ∧ AllSendable es

end

theorem allSendable_iff {es : List PacketTree} : AllSendable es ↔ ∀ e ∈ es, e.Sendable := by
  induction es with
  | nil => simp [AllSendable]
  | cons e es ih => simp [AllSendable, ih]

/-- The bundles on the longest way down. -/
def nesting : PacketTree → Nat
  | message _ _ => 0
  | bundle _ elements => nestingOf elements + 1
where
  nestingOf : List PacketTree → Nat
    | [] => 0
    | e :: es => max (nesting e) (nestingOf es)

end PacketTree

end OscTap.Osc
