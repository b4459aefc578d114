/-
  OscTap.Received.Reader — reading a parsed packet (`osctap/osc/OscReceivedElements.h`).

  `ReceivedMessageArgument` with its checked and unchecked accessors, the argument iterator
  with its own copy of the size logic (`Advance`), the element iterator, the argument
  stream, and a full read of a packet: every bundle walked from `ElementsBegin` to
  `ElementsEnd`, every message from `ArgumentsBegin` to `ArgumentsEnd`.

  A walk is the code's `for (i = begin; i != end; ++i)`. It has fuel, because nothing in the
  iterators bounds it; running out is a fault (`diverge`), not an end.
-/
import OscTap.Lib.CString
import OscTap.Osc.Packet
import OscTap.Received.Elements

namespace OscTap.Received

open OscTap.Lib OscTap.Lib.Out OscTap.Osc

/-! ## Arguments -/

structure ReceivedMessageArgument where
  typeTagPtr : Option Nat
  argumentPtr : Option Nat
  deriving DecidableEq, Repr

namespace ReceivedMessageArgument

variable (m : Bytes) (a : ReceivedMessageArgument)

def typeTag : Out Exn UInt8 := do
  let t ← deref a.typeTagPtr
  rd m t

def toUInt32 : Out Exn UInt32 := do
  let p ← deref a.argumentPtr
  UInt32.ofNat <$> rd32 m p

def toUInt64 : Out Exn UInt64 := do
  let p ← deref a.argumentPtr
  UInt64.ofNat <$> rd64 m p

def asBoolUnchecked : Out Exn Bool := do
  let c ← a.typeTag m
  ok (c == TypeTag.trueTag.value)

def asInt32Unchecked : Out Exn Int32 := UInt32.toInt32 <$> a.toUInt32 m

def asFloatUnchecked : Out Exn UInt32 := a.toUInt32 m

def asCharUnchecked : Out Exn UInt8 := UInt32.toUInt8 <$> a.toUInt32 m

def asRgbaColorUnchecked : Out Exn UInt32 := a.toUInt32 m

def asMidiMessageUnchecked : Out Exn UInt32 := a.toUInt32 m

def asInt64Unchecked : Out Exn Int64 := UInt64.toInt64 <$> a.toUInt64 m

def asTimeTagUnchecked : Out Exn UInt64 := a.toUInt64 m

def asDoubleUnchecked : Out Exn UInt64 := a.toUInt64 m

def asStringUnchecked : Option Nat := a.argumentPtr

def asSymbolUnchecked : Option Nat := a.argumentPtr

def asBlobUnchecked : Out Exn (Nat × Int) := do
  let size ← a.toUInt32 m
  let p ← deref a.argumentPtr
  ok (p + 4, int32OfBits size.toNat)

/-- The checked accessors: null, the wrong tag, or the unchecked accessor. -/
def checkedAs {α : Type} (tag : TypeTag) (unchecked : Out Exn α) : Out Exn α :=
  match a.typeTagPtr with
  | none => err .missingArgument
  | some t => do
    let c ← rd m t
    if c = tag.value then unchecked else err .wrongArgumentType

def asBool : Out Exn Bool :=
  match a.typeTagPtr with
  | none => err .missingArgument
  | some t => do
    let c ← rd m t
    if c = TypeTag.trueTag.value then ok true
    else if c = TypeTag.falseTag.value then ok false
    else err .wrongArgumentType

def asInt32 : Out Exn Int32 := a.checkedAs m .int32Tag (a.asInt32Unchecked m)

def asFloat : Out Exn UInt32 := a.checkedAs m .floatTag (a.asFloatUnchecked m)

def asChar : Out Exn UInt8 := a.checkedAs m .charTag (a.asCharUnchecked m)

def asRgbaColor : Out Exn UInt32 := a.checkedAs m .rgbaColorTag (a.asRgbaColorUnchecked m)

def asMidiMessage : Out Exn UInt32 := a.checkedAs m .midiMessageTag (a.asMidiMessageUnchecked m)

def asInt64 : Out Exn Int64 := a.checkedAs m .int64Tag (a.asInt64Unchecked m)

def asTimeTag : Out Exn UInt64 := a.checkedAs m .timeTagTag (a.asTimeTagUnchecked m)

def asDouble : Out Exn UInt64 := a.checkedAs m .doubleTag (a.asDoubleUnchecked m)

def asString : Out Exn Nat := a.checkedAs m .stringTag (deref a.argumentPtr)

def asSymbol : Out Exn Nat := a.checkedAs m .symbolTag (deref a.argumentPtr)

def asBlob : Out Exn (Nat × Int) := a.checkedAs m .blobTag (a.asBlobUnchecked m)

end ReceivedMessageArgument

def readString (m : Bytes) (p : Option Nat) : Out Exn Bytes := do
  let p ← deref p
  rdCString m p

/-- Read a blob over its declared size; a negative one is a huge `size_t`. -/
def readBlob (m : Bytes) (b : Nat × Int) : Out Exn Bytes :=
  rdBytes m b.1 (b.2 % 2 ^ 64).toNat

open ReceivedMessageArgument in
/-- Read an argument through the unchecked accessor of its tag. -/
def readUnchecked (m : Bytes) (a : ReceivedMessageArgument) : Out Exn ArgValue := do
  let c ← a.typeTag m
  match TypeTag.ofByte c with
  | some .trueTag | some .falseTag => .bool <$> a.asBoolUnchecked m
  | some .nilTag => ok .nil
  | some .infinitumTag => ok .infinitum
  | some .int32Tag => .int32 <$> a.asInt32Unchecked m
  | some .floatTag => .float <$> a.asFloatUnchecked m
  | some .charTag => .char <$> a.asCharUnchecked m
  | some .rgbaColorTag => .rgbaColor <$> a.asRgbaColorUnchecked m
  | some .midiMessageTag => .midiMessage <$> a.asMidiMessageUnchecked m
  | some .int64Tag => .int64 <$> a.asInt64Unchecked m
  | some .timeTagTag => .timeTag <$> a.asTimeTagUnchecked m
  | some .doubleTag => .double <$> a.asDoubleUnchecked m
  | some .stringTag => .string <$> readString m a.asStringUnchecked
  | some .symbolTag => .symbol <$> readString m a.asSymbolUnchecked
  | some .blobTag => do
    let b ← a.asBlobUnchecked m
    .blob <$> readBlob m b
  | some .arrayBeginTag => ok .arrayBegin
  | some .arrayEndTag => ok .arrayEnd
  | none => err .wrongArgumentType

/-! ## The argument iterator -/

/-- `ReceivedMessageArgumentIterator::Advance`, over the argument it holds. -/
def advance (m : Bytes) (a : ReceivedMessageArgument) : Out Exn ReceivedMessageArgument :=
  match a.typeTagPtr with
  | none => ok a
  | some t => do
    let c ← rd m t
    -- the end of the tags and an unknown tag both take the increment back
    match TypeTag.ofByte c with
    | some .trueTag | some .falseTag | some .nilTag | some .infinitumTag => ok { a with typeTagPtr := some (t + 1) }
    | some .int32Tag | some .floatTag | some .charTag | some .rgbaColorTag | some .midiMessageTag =>
      ok ⟨some (t + 1), a.argumentPtr.map (· + 4)⟩
    | some .int64Tag | some .timeTagTag | some .doubleTag => ok ⟨some (t + 1), a.argumentPtr.map (· + 8)⟩
    | some .stringTag | some .symbolTag => do
      let p ← deref a.argumentPtr
      let q ← findStr4EndUnchecked m p
      ok ⟨some (t + 1), some q⟩
    | some .blobTag => do
      let p ← deref a.argumentPtr
      let blobSize ← rd32 m p
      ok ⟨some (t + 1), some (p + 4 + roundUp4 blobSize)⟩
    | some .arrayBeginTag | some .arrayEndTag => ok { a with typeTagPtr := some (t + 1) }
    | none => ok a

namespace ReceivedMessage

def argumentsBegin (r : ReceivedMessage) : ReceivedMessageArgument := ⟨r.typeTagsBegin, r.arguments⟩

def argumentsEnd (r : ReceivedMessage) : ReceivedMessageArgument := ⟨r.typeTagsEnd, none⟩

end ReceivedMessage

/-- The arguments from an iterator to an end, each with what `f` reads; and the iterator there. -/
def walkArguments {β : Type} (m : Bytes) (f : ReceivedMessageArgument → Out Exn β) (end_ : ReceivedMessageArgument) :
    Nat → ReceivedMessageArgument → Out Exn (List (ReceivedMessageArgument × β) × ReceivedMessageArgument)
  | n, it =>
    if it.typeTagPtr = end_.typeTagPtr then ok ([], it)
    else
      match n with
      | 0 => fault .diverge
      | n + 1 => do
        let b ← f it
        let next ← advance m it
        let (rest, last) ← walkArguments m f end_ n next
        ok ((it, b) :: rest, last)

/-! ## The argument stream -/

structure ReceivedMessageArgumentStream where
  p : ReceivedMessageArgument
  end_ : ReceivedMessageArgument
  deriving DecidableEq, Repr

namespace ReceivedMessageArgumentStream

variable (m : Bytes) (st : ReceivedMessageArgumentStream)

def eos : Bool := st.p.typeTagPtr == st.end_.typeTagPtr

def extract {α : Type} (as : ReceivedMessageArgument → Out Exn α) : Out Exn (α × ReceivedMessageArgumentStream) :=
  if st.eos then err .missingArgument
  else do
    let next ← advance m st.p
    let v ← as st.p
    ok (v, { st with p := next })

def extractTerminator : Out Exn Unit := if st.eos then ok () else err .excessArgument

end ReceivedMessageArgumentStream

def ReceivedMessage.argumentStream (r : ReceivedMessage) : ReceivedMessageArgumentStream :=
  ⟨r.argumentsBegin, r.argumentsEnd⟩

/-! ## The element iterator -/

/-- `ReceivedBundleElement::Size`, of the element whose size slot is at `sizePtr`. -/
def elementSize (m : Bytes) (sizePtr : Nat) : Out Exn Int := int32OfBits <$> rd32 m sizePtr

/-- `ReceivedBundleElementIterator::Advance`; a pointer in front of the buffer is a fault. -/
def elementAdvance (m : Bytes) (sizePtr : Nat) : Out Exn Nat := do
  let size ← elementSize m sizePtr
  let next : Int := sizePtr + 4 + size
  if 0 ≤ next then ok next.toNat else fault .wrap

namespace ReceivedBundle

def elementsBegin (b : ReceivedBundle) : Nat := b.timeTag + 8

def elementsEnd (b : ReceivedBundle) : Nat := b.end_

end ReceivedBundle

/-- The elements from an iterator to an end, each as `f` reads it. -/
def walkElements {β : Type} (m : Bytes) (f : Nat → Out Exn β) (end_ : Nat) : Nat → Nat → Out Exn (List β)
  | n, it =>
    if it = end_ then ok []
    else
      match n with
      | 0 => fault .diverge
      | n + 1 => do
        let b ← f it
        let next ← elementAdvance m it
        let rest ← walkElements m f end_ n next
        ok (b :: rest)

/-! ## The full read -/

/-- What a full read saw: each message with the positions of its iterator and the values
    read there, and where the iterator ended; each bundle with its elements. -/
inductive ReadTree where
  | message (r : ReceivedMessage) (visits : List (ReceivedMessageArgument × ArgValue)) (last : ReceivedMessageArgument)
  | bundle (b : ReceivedBundle) (timeTag : UInt64) (elements : List ReadTree)

/-- Read the message or bundle in `[p, p + size)`; the fuel bounds the nesting. -/
def readContents (m : Bytes) (p : Nat) (size : Int) (fuel : Nat) : Out Exn ReadTree := do
  let bundle ← isBundle m p size
  if bundle then do
    let b ← ReceivedBundle.mk' m p size
    let timeTag ← UInt64.ofNat <$> rd64 m b.timeTag
    match fuel with
    | 0 => fault .diverge
    | fuel + 1 => do
      let elements ← walkElements m (fun i => do
        let n ← elementSize m i
        readContents m (i + 4) n fuel) b.elementsEnd m.length b.elementsBegin
      ok (.bundle b timeTag elements)
  else do
    let r ← ReceivedMessage.mk' m p size
    let (visits, last) ← walkArguments m (readUnchecked m) r.argumentsEnd m.length r.argumentsBegin
    ok (.message r visits last)

def readPacket (m : Bytes) (size : Int) : Out Exn ReadTree := do
  let packet ← ReceivedPacket.mk' 0 size
  readContents m packet.contents packet.size m.length

end OscTap.Received
