/-
  OscTap.Outbound.PacketStream — the encoder (`osctap/osc/OscOutboundPacketStream.h`).

  `OutboundPacketStream` with its fields, and every `operator<<` as a function under the
  operand's name. Pointers are offsets into the buffer `data`, whose length is the capacity
  (`end_`); every write is bounds-checked. An exception carries the stream as it is at the
  throw, as the caller still holds it. `static_cast<uint32_t>` is a reduction modulo `2 ^ 32`.
-/
import OscTap.Osc.Packet

namespace OscTap.Outbound

open OscTap.Lib OscTap.Lib.Out OscTap.Osc

inductive Exn where
  | outOfBufferMemory
  | bundleNotInProgress
  | messageInProgress
  | messageNotInProgress
  deriving DecidableEq, Repr

namespace Exn

def what : Exn → String
  | outOfBufferMemory => "out of buffer memory"
  | bundleNotInProgress => "call to EndBundle when bundle is not in progress"
  | messageInProgress => "opening or closing bundle or message while message is in progress"
  | messageNotInProgress => "call to EndMessage when message is not in progress"

end Exn

structure CStr where
  bytes : Bytes
  noNul : 0 ∉ bytes
  deriving DecidableEq

structure OutboundPacketStream where
  data : Bytes
  /-- The type tags lie behind it, in reverse. -/
  typeTagsCurrent : Nat
  messageCursor : Nat
  argumentCurrent : Nat
  /-- Null when nothing is open; 0 (`data_`) when the open element has no size slot. -/
  elementSizePtr : Option Nat
  messageIsInProgress : Bool
  deriving DecidableEq

/-- Write NULs at `cursor` while `i & 0x3`, counting `i` up. -/
def zeroPad {ε : Type} (data : Bytes) (cursor i : Nat) : Out ε (Bytes × Nat) :=
  if i % 4 ≠ 0 then do
    let data ← wr data cursor [0]
    zeroPad data (cursor + 1) (i + 1)
  else ok (data, cursor)
termination_by (4 - i % 4) % 4

/-- `for (i = 0; i < n; ++i) *p++ = '\0'`. -/
def zeroFill {ε : Type} (data : Bytes) (p : Nat) : Nat → Out ε Bytes
  | 0 => ok data
  | n + 1 => do
    let data ← wr data p [0]
    zeroFill data (p + 1) n

/-- `for (i = 0; i < tags.length; ++i) p[i] = tags[(tags.length - 1) - i]`. -/
def copyReversed {ε : Type} (data : Bytes) (p : Nat) (tags : Bytes) (i : Nat) : Out ε Bytes :=
  if h : i < tags.length then do
    let data ← wr data (p + i) [tags[(tags.length - 1) - i]]
    copyReversed data p tags (i + 1)
  else ok data
termination_by tags.length - i

namespace OutboundPacketStream

/-- The constructor, over a buffer with arbitrary contents. -/
def mk' (buffer : Bytes) : OutboundPacketStream := ⟨buffer, buffer.length, 0, 0, none, false⟩

def clear (s : OutboundPacketStream) : OutboundPacketStream := mk' s.data

variable (s : OutboundPacketStream)

def capacity : Nat := s.data.length

def size : Nat :=
  s.argumentCurrent + if s.messageIsInProgress then roundUp4 ((s.capacity - s.typeTagsCurrent + 2) % 2 ^ 32) else 0

def isMessageInProgress : Bool := s.messageIsInProgress

def isBundleInProgress : Bool := s.elementSizePtr.isSome

def isReady : Bool := !s.isMessageInProgress && !s.isBundleInProgress

/-- The bytes a caller sends: `Data()` up to `Size()`. -/
def packet : Bytes := s.data.take s.size

/-! ### Space checks -/

def elementSizeSlotRequired : Bool := s.elementSizePtr.isSome

def require (required : Nat) : Out (Exn × OutboundPacketStream) Unit :=
  if s.capacity < required then err (.outOfBufferMemory, s) else ok ()

def checkForAvailableBundleSpace : Out (Exn × OutboundPacketStream) Unit :=
  s.require (s.size + (if s.elementSizeSlotRequired then 4 else 0) + 16)

def checkForAvailableMessageSpace (addressPatternSize : Nat) : Out (Exn × OutboundPacketStream) Unit :=
  s.require (s.size + (if s.elementSizeSlotRequired then 4 else 0) + roundUp4 ((addressPatternSize + 1) % 2 ^ 32) + 4)

def checkForAvailableArgumentSpace (argumentLength : Nat) : Out (Exn × OutboundPacketStream) Unit :=
  s.require (s.argumentCurrent + argumentLength + roundUp4 ((s.capacity - s.typeTagsCurrent + 3) % 2 ^ 32))

/-! ### Elements -/

/-- `BeginElement(beginPtr)`: where the element's bytes begin. The slot of a nested element
    keeps the offset of the enclosing element's slot until the element ends. -/
def beginElement {ε : Type} (beginPtr : Nat) : Out ε (Nat × OutboundPacketStream) :=
  match s.elementSizePtr with
  | none => ok (beginPtr, { s with elementSizePtr := some 0 })
  | some p => do
    let data ← wr s.data beginPtr (be32 p)
    ok (beginPtr + 4, { s with data := data, elementSizePtr := some beginPtr })

def endElement {ε : Type} (endPtr : Nat) : Out ε OutboundPacketStream :=
  match s.elementSizePtr with
  | none => fault .null
  | some 0 => ok { s with elementSizePtr := none }
  | some p => do
    let previous ← rd32 s.data p
    let d : Int := endPtr - p
    let data ← wr s.data p (be32 (bitsOfInt32 (d - 4)))
    ok { s with data := data, elementSizePtr := some previous }

/-! ### Bundles and messages -/

def beginBundle (timeTag : UInt64) : Out (Exn × OutboundPacketStream) OutboundPacketStream :=
  if s.messageIsInProgress then err (.messageInProgress, s)
  else do
    s.checkForAvailableBundleSpace
    let (cursor, s) ← s.beginElement s.messageCursor
    let data ← wr s.data cursor bundleTag
    let data ← wr data (cursor + 8) (be64 timeTag.toNat)
    ok { s with data := data, messageCursor := cursor + 16, argumentCurrent := cursor + 16 }

def endBundle : Out (Exn × OutboundPacketStream) OutboundPacketStream :=
  if ¬ s.isBundleInProgress then err (.bundleNotInProgress, s)
  else if s.messageIsInProgress then err (.messageInProgress, s)
  else s.endElement s.messageCursor

/-- `BeginMessage`: the address and its NUL are one copy. -/
def beginMessage (addressPattern : CStr) : Out (Exn × OutboundPacketStream) OutboundPacketStream :=
  if s.messageIsInProgress then err (.messageInProgress, s)
  else do
    let rhsLength := addressPattern.bytes.length
    s.checkForAvailableMessageSpace rhsLength
    let (cursor, s) ← s.beginElement s.messageCursor
    let data ← wr s.data cursor (addressPattern.bytes ++ [0])
    let (data, cursor) ← zeroPad data (cursor + (rhsLength + 1)) (rhsLength + 1)
    ok { s with data := data, messageCursor := cursor, argumentCurrent := cursor, typeTagsCurrent := data.length,
                messageIsInProgress := true }

def beginMessageN (addressPattern : Bytes) : Out (Exn × OutboundPacketStream) OutboundPacketStream :=
  if s.messageIsInProgress then err (.messageInProgress, s)
  else do
    s.checkForAvailableMessageSpace addressPattern.length
    let (cursor, s) ← s.beginElement s.messageCursor
    let data ← wr s.data cursor addressPattern
    let cursor := cursor + addressPattern.length
    let data ← wr data cursor [0]
    let (data, cursor) ← zeroPad data (cursor + 1) (addressPattern.length + 1)
    ok { s with data := data, messageCursor := cursor, argumentCurrent := cursor, typeTagsCurrent := data.length,
                messageIsInProgress := true }

def endMessage : Out (Exn × OutboundPacketStream) OutboundPacketStream :=
  if ¬ s.messageIsInProgress then err (.messageNotInProgress, s)
  else do
    let typeTagsCount := s.capacity - s.typeTagsCurrent
    if typeTagsCount ≠ 0 then do
      let tempTypeTags ← rdBytes s.data s.typeTagsCurrent typeTagsCount
      -- the slot includes the comma and the NUL
      let typeTagSlotSize := roundUp4 ((typeTagsCount + 2) % 2 ^ 32)
      let argumentsSize := s.argumentCurrent - s.messageCursor
      let arguments ← rdBytes s.data s.messageCursor argumentsSize
      let data ← wr s.data (s.messageCursor + typeTagSlotSize) arguments
      let data ← wr data s.messageCursor [ch ',']
      let data ← copyReversed data (s.messageCursor + 1) tempTypeTags 0
      let data ← zeroFill data (s.messageCursor + 1 + typeTagsCount) (typeTagSlotSize - (typeTagsCount + 1))
      let cursor := s.messageCursor + (typeTagSlotSize + argumentsSize)
      let s :=
        { s with data := data, typeTagsCurrent := data.length, messageCursor := cursor, argumentCurrent := cursor }
      let s ← s.endElement s.messageCursor
      ok { s with messageIsInProgress := false }
    else do
      let data ← wr s.data s.messageCursor [ch ',', 0, 0, 0]
      let cursor := s.messageCursor + 4
      let s := { s with data := data, messageCursor := cursor, argumentCurrent := cursor }
      let s ← s.endElement s.messageCursor
      ok { s with messageIsInProgress := false }

/-! ### Arguments -/

/-- `*(--typeTagsCurrent_) = tag`. -/
def pushTag {ε : Type} (tag : TypeTag) : Out ε OutboundPacketStream :=
  match s.typeTagsCurrent with
  | 0 => fault (.write 0)
  | t + 1 => do
    let data ← wr s.data t [tag.value]
    ok { s with data := data, typeTagsCurrent := t }

def put {ε : Type} (bytes : Bytes) : Out ε OutboundPacketStream := do
  let data ← wr s.data s.argumentCurrent bytes
  ok { s with data := data, argumentCurrent := s.argumentCurrent + bytes.length }

def padArgument {ε : Type} (i : Nat) : Out ε OutboundPacketStream := do
  let (data, cursor) ← zeroPad s.data s.argumentCurrent i
  ok { s with data := data, argumentCurrent := cursor }

/-- The appends of `bool`, `InfinitumType`, `NilType` and the array operators: only a tag. -/
def appendTag (tag : TypeTag) : Out (Exn × OutboundPacketStream) OutboundPacketStream := do
  s.checkForAvailableArgumentSpace 0
  s.pushTag tag

/-- The appends of a fixed width: a tag, and the bytes of one `From..` call. -/
def appendFixed (tag : TypeTag) (bytes : Bytes) : Out (Exn × OutboundPacketStream) OutboundPacketStream := do
  s.checkForAvailableArgumentSpace bytes.length
  let s ← s.pushTag tag
  s.put bytes

def bool (rhs : Bool) : Out (Exn × OutboundPacketStream) OutboundPacketStream :=
  s.appendTag (if rhs then .trueTag else .falseTag)

def infinitum : Out (Exn × OutboundPacketStream) OutboundPacketStream := s.appendTag .infinitumTag

def nil : Out (Exn × OutboundPacketStream) OutboundPacketStream := s.appendTag .nilTag

def int32 (rhs : Int32) : Out (Exn × OutboundPacketStream) OutboundPacketStream :=
  s.appendFixed .int32Tag (be32 rhs.toUInt32.toNat)

def float (bits : UInt32) : Out (Exn × OutboundPacketStream) OutboundPacketStream :=
  s.appendFixed .floatTag (be32 bits.toNat)

def char (rhs : UInt8) : Out (Exn × OutboundPacketStream) OutboundPacketStream :=
  s.appendFixed .charTag (be32 (charBits rhs).toNat)

def rgbaColor (rhs : UInt32) : Out (Exn × OutboundPacketStream) OutboundPacketStream :=
  s.appendFixed .rgbaColorTag (be32 rhs.toNat)

def midiMessage (rhs : UInt32) : Out (Exn × OutboundPacketStream) OutboundPacketStream :=
  s.appendFixed .midiMessageTag (be32 rhs.toNat)

def int64 (rhs : Int64) : Out (Exn × OutboundPacketStream) OutboundPacketStream :=
  s.appendFixed .int64Tag (be64 rhs.toUInt64.toNat)

def timeTag (rhs : UInt64) : Out (Exn × OutboundPacketStream) OutboundPacketStream :=
  s.appendFixed .timeTagTag (be64 rhs.toNat)

def double (bits : UInt64) : Out (Exn × OutboundPacketStream) OutboundPacketStream :=
  s.appendFixed .doubleTag (be64 bits.toNat)

def stringView (rhs : Bytes) : Out (Exn × OutboundPacketStream) OutboundPacketStream := do
  s.checkForAvailableArgumentSpace (roundUp4 ((rhs.length + 1) % 2 ^ 32))
  let s ← s.pushTag .stringTag
  let s ← if rhs ≠ [] then s.put rhs else ok s
  let s ← s.put [0]
  s.padArgument (rhs.length + 1)

def cString (rhs : CStr) : Out (Exn × OutboundPacketStream) OutboundPacketStream := s.stringView rhs.bytes

def stdString (rhs : Bytes) : Out (Exn × OutboundPacketStream) OutboundPacketStream := s.stringView rhs

/-- A `const char (&)[N]`: all its `N` bytes. -/
def charArray (ref : Bytes) : Out (Exn × OutboundPacketStream) OutboundPacketStream := do
  s.checkForAvailableArgumentSpace (roundUp4 (ref.length % 2 ^ 32))
  let s ← s.pushTag .stringTag
  let s ← s.put ref
  s.padArgument ref.length

def symbol (rhs : CStr) : Out (Exn × OutboundPacketStream) OutboundPacketStream := do
  s.checkForAvailableArgumentSpace (roundUp4 ((rhs.bytes.length + 1) % 2 ^ 32))
  let s ← s.pushTag .symbolTag
  let s ← s.put (rhs.bytes ++ [0])
  s.padArgument (rhs.bytes.length + 1)

/-- A blob of `size` bytes at `data`; `4 + RoundUp4(size)` is a `uint32_t`, and the copy's
    length is a `size_t`. -/
def blob (data : Bytes) (size : Int32) : Out (Exn × OutboundPacketStream) OutboundPacketStream := do
  s.checkForAvailableArgumentSpace ((4 + roundUp4 size.toUInt32.toNat) % 2 ^ 32)
  let s ← s.pushTag .blobTag
  let s ← s.put (be32 size.toUInt32.toNat)
  let n := (size.toInt % 2 ^ 64).toNat
  let bytes ← rdBytes data 0 n
  let s ← s.put bytes
  s.padArgument n

def arrayInitiator : Out (Exn × OutboundPacketStream) OutboundPacketStream := s.appendTag .arrayBeginTag

def arrayTerminator : Out (Exn × OutboundPacketStream) OutboundPacketStream := s.appendTag .arrayEndTag

end OutboundPacketStream

/-! ## Runs -/

inductive Operand where
  | bool (rhs : Bool)
  | infinitum
  | nil
  | int32 (rhs : Int32)
  | float (bits : UInt32)
  | char (rhs : UInt8)
  | rgbaColor (rhs : UInt32)
  | midiMessage (rhs : UInt32)
  | int64 (rhs : Int64)
  | timeTag (rhs : UInt64)
  | double (bits : UInt64)
  | stringView (rhs : Bytes)
  | cString (rhs : CStr)
  | stdString (rhs : Bytes)
  | charArray (ref : Bytes)
  | symbol (rhs : CStr)
  | blob (data : Bytes) (size : Int32)
  | arrayInitiator
  | arrayTerminator
  deriving DecidableEq

inductive Op where
  | clear
  | beginBundle (timeTag : UInt64)
  | endBundle
  | beginMessage (addressPattern : CStr)
  | beginMessageN (addressPattern : Bytes)
  | endMessage
  | append (rhs : Operand)
  deriving DecidableEq

open OutboundPacketStream in
def append (s : OutboundPacketStream) : Operand → Out (Exn × OutboundPacketStream) OutboundPacketStream
  | .bool rhs => s.bool rhs
  | .infinitum => s.infinitum
  | .nil => s.nil
  | .int32 rhs => s.int32 rhs
  | .float bits => s.float bits
  | .char rhs => s.char rhs
  | .rgbaColor rhs => s.rgbaColor rhs
  | .midiMessage rhs => s.midiMessage rhs
  | .int64 rhs => s.int64 rhs
  | .timeTag rhs => s.timeTag rhs
  | .double bits => s.double bits
  | .stringView rhs => s.stringView rhs
  | .cString rhs => s.cString rhs
  | .stdString rhs => s.stdString rhs
  | .charArray ref => s.charArray ref
  | .symbol rhs => s.symbol rhs
  | .blob data size => s.blob data size
  | .arrayInitiator => s.arrayInitiator
  | .arrayTerminator => s.arrayTerminator

def apply (op : Op) (s : OutboundPacketStream) : Out (Exn × OutboundPacketStream) OutboundPacketStream :=
  match op with
  | .clear => ok s.clear
  | .beginBundle timeTag => s.beginBundle timeTag
  | .endBundle => s.endBundle
  | .beginMessage addressPattern => s.beginMessage addressPattern
  | .beginMessageN addressPattern => s.beginMessageN addressPattern
  | .endMessage => s.endMessage
  | .append rhs => append s rhs

end OscTap.Outbound
