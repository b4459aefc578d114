/-
  OscTap.Received.Elements — parsing a received packet (`osctap/osc/OscReceivedElements.h`).

  `ReceivedMessage.tryInit`, `ReceivedBundle.tryInit` and `tryValidatePacket` are the code's
  functions of these names over the bytes `m` of the buffer, at the offset `data`. A parse
  that fails ends with its error text (`err`); the code's null pointer is `none` or `()`.
  The loop over the type tags and the loop over the elements of a bundle are functions of
  their own (`checkArguments`, `checkElements`, `validateElements`), one iteration at a time.
-/
import OscTap.Osc.Types

namespace OscTap.Received

open OscTap.Lib OscTap.Lib.Out OscTap.Osc

/-! ## Packets -/

/-- The exceptions of the reading side, with the text given to them. -/
inductive Exn where
  | malformedPacket (what : String)
  | malformedMessage (what : String)
  | malformedBundle (what : String)
  | wrongArgumentType
  | missingArgument
  | excessArgument
  deriving DecidableEq, Repr

structure ReceivedPacket where
  contents : Nat
  size : Int
  deriving DecidableEq, Repr

namespace ReceivedPacket

def validateSizeNoThrow (size : Int) : Option String :=
  if ¬ isValidElementSizeValue size then some "invalid packet size"
  else if size = 0 then some "zero length elements not permitted"
  else if ¬ isMultipleOf4 size then some "element size must be multiple of four"
  else none

/-- The constructor: `ValidateSize` throws. -/
def mk' (contents : Nat) (size : Int) : Out Exn ReceivedPacket :=
  match validateSizeNoThrow size with
  | some e => err (.malformedPacket e)
  | none => ok ⟨contents, size⟩

end ReceivedPacket

/-- `IsBundle()` of a packet or an element: `Size() > 0 && Contents()[0] == '#'`. -/
def isBundle {ε : Type} (m : Bytes) (contents : Nat) (size : Int) : Out ε Bool :=
  if 0 < size then do
    let c ← rd m contents
    ok (c == ch '#')
  else ok false

/-! ## Messages -/

structure ReceivedMessage where
  addressPattern : Nat
  /-- Null when the message has no arguments. -/
  typeTagsBegin : Option Nat
  typeTagsEnd : Option Nat
  arguments : Option Nat
  size : Int
  deriving DecidableEq, Repr

namespace ReceivedMessage

/-- One iteration of `TryInit`'s loop: the `switch` on a type tag. -/
def checkArgument (m : Bytes) (end_ : Nat) (typeTag : UInt8) (argument arrayLevel : Nat) : Out String (Nat × Nat) :=
  match TypeTag.ofByte typeTag with
  | some .trueTag | some .falseTag | some .nilTag | some .infinitumTag => ok (argument, arrayLevel)
  | some .arrayBeginTag => ok (argument, arrayLevel + 1)
  | some .arrayEndTag =>
    if arrayLevel = 0 then err "array close tag ']' without matching open tag '['" else ok (argument, arrayLevel - 1)
  | some .int32Tag | some .floatTag | some .charTag | some .rgbaColorTag | some .midiMessageTag =>
    if argument = end_ then err "arguments exceed message size"
    else if end_ < argument + 4 then err "arguments exceed message size"
    else ok (argument + 4, arrayLevel)
  | some .int64Tag | some .timeTagTag | some .doubleTag =>
    if argument = end_ then err "arguments exceed message size"
    else if end_ < argument + 8 then err "arguments exceed message size"
    else ok (argument + 8, arrayLevel)
  | some .stringTag | some .symbolTag =>
    if argument = end_ then err "arguments exceed message size"
    else do
      match ← findStr4End m argument end_ with
      | none => err "unterminated string argument"
      | some q => ok (q, arrayLevel)
  | some .blobTag =>
    if end_ < argument + 4 then err "arguments exceed message size"
    else do
      let blobSize ← rd32 m argument
      if ¬ isValidElementSizeValue (int32OfBits blobSize) then err "invalid blob size"
      else do
        let blobData := argument + 4
        let padded ← roundUp4Checked blobSize
        let left ← sizeLeft end_ blobData
        if left < padded then err "arguments exceed message size" else ok (blobData + padded, arrayLevel)
  | none => err "unknown type tag"

/-- `TryInit`'s loop: `do { .. } while (*++typeTag != '\0')`. It ends at the tag behind the last. -/
def checkArguments (m : Bytes) (end_ typeTag argument arrayLevel : Nat) : Out String (Nat × Nat) := do
  let tag ← rd m typeTag
  let (argument, arrayLevel) ← checkArgument m end_ tag argument arrayLevel
  if h : typeTag + 1 < m.length then
    if m[typeTag + 1] = 0 then ok (typeTag + 1, arrayLevel)
    else checkArguments m end_ (typeTag + 1) argument arrayLevel
  else fault (.read (typeTag + 1))
termination_by m.length - typeTag

def tryInit (m : Bytes) (message : Nat) (size : Int) : Out String ReceivedMessage :=
  if ¬ isValidElementSizeValue size then err "invalid message size"
  else if size = 0 then err "zero length messages not permitted"
  else if ¬ isMultipleOf4 size then err "message size must be multiple of four"
  else do
    let end_ := message + size.toNat
    match ← findStr4End m message end_ with
    | none => err "unterminated address pattern"
    | some typeTagsBegin =>
      -- only the address pattern: no type tags, no arguments
      if typeTagsBegin = end_ then ok ⟨message, none, none, none, size⟩
      else do
        let c ← rd m typeTagsBegin
        if c ≠ ch ',' then err "type tags not present"
        else do
          let c ← rd m (typeTagsBegin + 1)
          if c = 0 then ok ⟨message, none, none, none, size⟩
          else do
            match ← findStr4End m typeTagsBegin end_ with
            | none => err "type tags were not terminated before end of message"
            | some arguments => do
              let (typeTagsEnd, arrayLevel) ← checkArguments m end_ (typeTagsBegin + 1) arguments 0
              if arrayLevel ≠ 0 then
                err "array was not terminated before end of message (expected ']' end of array tag)"
              else ok ⟨message, some (typeTagsBegin + 1), some typeTagsEnd, some arguments, size⟩

/-- The throwing constructors: `Init`. -/
def mk' (m : Bytes) (contents : Nat) (size : Int) : Out Exn ReceivedMessage :=
  (tryInit m contents size).mapErr .malformedMessage

def argumentCount (r : ReceivedMessage) : Nat := r.typeTagsEnd.getD 0 - r.typeTagsBegin.getD 0

end ReceivedMessage

/-! ## Bundles -/

structure ReceivedBundle where
  timeTag : Nat
  end_ : Nat
  elementCount : Nat
  deriving DecidableEq, Repr

namespace ReceivedBundle

/-- The short-circuit chain `p[0] != a || p[1] != b || ..`. -/
def differs {ε : Type} (m : Bytes) : Nat → Bytes → Out ε Bool
  | _, [] => ok false
  | p, b :: bs => do
    let c ← rd m p
    if c = b then differs m (p + 1) bs else ok true

/-- `TryInit`'s loop over the element sizes; the result is where it ends and the count. -/
def checkElements (m : Bytes) (end_ p elementCount : Nat) : Out String (Nat × Nat) :=
  if p < end_ then
    if end_ < p + 4 then err "packet too short for elementSize"
    else do
      let elementSize ← rd32 m p
      if elementSize % 4 ≠ 0 then err "bundle element size must be multiple of four"
      else do
        let elementData := p + 4
        let left ← sizeLeft end_ elementData
        if left < elementSize then err "packet too short for bundle element"
        else checkElements m end_ (elementData + elementSize) (elementCount + 1)
  else ok (p, elementCount)
termination_by end_ - p

def tryInit (m : Bytes) (bundle : Nat) (size : Int) : Out String ReceivedBundle :=
  if ¬ isValidElementSizeValue size then err "invalid bundle size"
  else if size < 16 then err "packet too short for bundle"
  else if ¬ isMultipleOf4 size then err "bundle size must be multiple of four"
  else do
    let bad ← differs m bundle bundleTag
    if bad then err "bad bundle address pattern"
    else do
      let end_ := bundle + size.toNat
      let timeTag := bundle + 8
      let (p, elementCount) ← checkElements m end_ (timeTag + 8) 0
      if p ≠ end_ then err "bundle contents did not match bundle size" else ok ⟨timeTag, end_, elementCount⟩

/-- The throwing constructors: `Init`. -/
def mk' (m : Bytes) (contents : Nat) (size : Int) : Out Exn ReceivedBundle :=
  (tryInit m contents size).mapErr .malformedBundle

end ReceivedBundle

/-! ## The gate -/

/-- `TryValidatePacket`'s loop over the elements of a bundle; `check` is the recursive call. -/
def validateElements (m : Bytes) (check : Nat → Int → Out String Unit) (end_ p : Nat) : Out String Unit :=
  if p < end_ then do
    let elementSize ← rd32 m p
    let elementData := p + 4
    check elementData (int32OfBits elementSize)
    validateElements m check end_ (elementData + elementSize)
  else ok ()
termination_by end_ - p

def tryValidatePacket (m : Bytes) (data : Nat) (size : Int) (maxBundleNestingDepth : Nat) : Out String Unit :=
  match ReceivedPacket.validateSizeNoThrow size with
  | some e => err e
  | none => do
    let bundle ← isBundle m data size
    if bundle then do
      let _ ← ReceivedBundle.tryInit m data size
      match maxBundleNestingDepth with
      | 0 => err "bundle nested too deeply"
      | depth + 1 =>
        validateElements m (fun p n => tryValidatePacket m p n depth) (data + size.toNat) (data + 16)
    else do
      let _ ← ReceivedMessage.tryInit m data size
      ok ()

end OscTap.Received
