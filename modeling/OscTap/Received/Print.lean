/-
  OscTap.Received.Print — printing a received packet (`operator<<` of an argument, a message,
  a bundle and a packet in `osctap/osc/OscPrintReceivedElements.h`).

  The printer reads the packet as it prints it: a nested bundle or message is constructed,
  and so validated, when its turn comes, and where its constructor throws, the exception
  leaves through every `operator<<` above. `Thread` is what lasts from one call to the next:
  the `static thread_local int indent` of the bundle printer, and here the stream. An
  exception carries the thread as the throw leaves it. `++indent` is checked (`wrap`).

  How floating-point numbers and calendar times are spelled is left to the environment
  (`Formats`). `ReadTree.text` is the text that the printer is for: the whole of a packet's
  full read, at an indentation, with no limit to its nesting.
-/
import OscTap.Lib.Ostream
import OscTap.Received.Reader

namespace OscTap.Received

open OscTap.Lib OscTap.Lib.Out OscTap.Osc

/-- What the printer takes from the environment: `operator<<` of `float` and `double`, and
    `ctime`, which may return null. -/
structure Formats where
  float : UInt32 → Bytes
  double : UInt64 → Bytes
  ctime : UInt64 → Option Bytes

variable (m : Bytes) (fmt : Formats)

/-! ## Arguments -/

def byteAt (v : UInt32) (shift : Nat) : Nat := v.toNat / 2 ^ shift % 256

def printRgbaColor (color : UInt32) (os : Ostream) : Ostream :=
  let os := ((os.put (bytesOf "RGBA:0x")).setBase .hex).setFill (ch '0')
  let os := (((os.putHexByte (byteAt color 24)).putHexByte (byteAt color 16)).putHexByte (byteAt color 8)).putHexByte
    (byteAt color 0)
  (os.setFill (ch ' ')).setBase .unset

def printMidiMessage (v : UInt32) (os : Ostream) : Ostream :=
  let os := ((os.put (bytesOf "midi (port, status, data1, data2):<<")).setBase .hex).setFill (ch '0')
  let os := (os.put (bytesOf "0x")).putHexByte (byteAt v 24)
  let os := (os.put (bytesOf " 0x")).putHexByte (byteAt v 16)
  let os := (os.put (bytesOf " 0x")).putHexByte (byteAt v 8)
  let os := (os.put (bytesOf " 0x")).putHexByte (byteAt v 0)
  ((os.setFill (ch ' ')).put (bytesOf ">>")).setBase .unset

/-- `ctime` ends its text with a newline, which is left out. -/
def printTimeTag (v : UInt64) (os : Ostream) : Ostream :=
  let os := ((os.put (bytesOf "OSC-timetag:")).putInt 64 v.toNat).put (bytesOf " ")
  match fmt.ctime (v >>> 32) with
  | none => os
  | some timeString => if 1 < timeString.length then os.write (timeString.take (timeString.length - 1)) else os

def printBlobBytes (data size i : Nat) (os : Ostream) : Out Exn Ostream :=
  if i < size then do
    let b ← rd m (data + i)
    let os := (os.put (bytesOf "0x")).putHexByte b.toNat
    let os := if i ≠ size - 1 then os.put (bytesOf " ") else os
    printBlobBytes data size (i + 1) os
  else ok os
termination_by size - i

def printBlob (blob : Nat × Int) (os : Ostream) : Out Exn Ostream := do
  let os := ((os.put (bytesOf "OSC-blob:<<")).setBase .hex).setFill (ch '0')
  let os ← printBlobBytes m blob.1 blob.2.toNat 0 os
  ok (((os.setBase .unset).put (bytesOf ">>")).setFill (ch ' '))

def printString (before : String) (p : Option Nat) (os : Ostream) : Out Exn Ostream := do
  let s ← readString m p
  ok (((os.put (bytesOf before)).put s).put (bytesOf "'"))

open ReceivedMessageArgument in
def printArgument (arg : ReceivedMessageArgument) (os : Ostream) : Out Exn Ostream := do
  let c ← arg.typeTag m
  match TypeTag.ofByte c with
  | some .trueTag => ok (os.put (bytesOf "bool:true"))
  | some .falseTag => ok (os.put (bytesOf "bool:false"))
  | some .nilTag => ok (os.put (bytesOf "(Nil)"))
  | some .infinitumTag => ok (os.put (bytesOf "(Infinitum)"))
  | some .int32Tag => do
    let v ← arg.asInt32Unchecked m
    ok ((os.put (bytesOf "int32_t:")).putInt 32 v.toInt)
  | some .floatTag => do
    let v ← arg.asFloatUnchecked m
    ok ((os.put (bytesOf "float32:")).put (fmt.float v))
  | some .charTag => do
    -- a string of one character, or of none where it is NUL
    let c ← arg.asCharUnchecked m
    ok (((os.put (bytesOf "char:'")).put (if c = 0 then [] else [c])).put (bytesOf "'"))
  | some .rgbaColorTag => do
    let color ← arg.asRgbaColorUnchecked m
    ok (printRgbaColor color os)
  | some .midiMessageTag => do
    let v ← arg.asMidiMessageUnchecked m
    ok (printMidiMessage v os)
  | some .int64Tag => do
    let v ← arg.asInt64Unchecked m
    ok ((os.put (bytesOf "int64_t:")).putInt 64 v.toInt)
  | some .timeTagTag => do
    let v ← arg.asTimeTagUnchecked m
    ok (printTimeTag fmt v os)
  | some .doubleTag => do
    let v ← arg.asDoubleUnchecked m
    ok ((os.put (bytesOf "double:")).put (fmt.double v))
  | some .stringTag => printString m "OSC-string:`" arg.asStringUnchecked os
  | some .symbolTag => printString m "OSC-string (symbol):`" arg.asSymbolUnchecked os
  | some .blobTag => do
    let blob ← arg.asBlobUnchecked m
    printBlob m blob os
  | some .arrayBeginTag => ok (os.put (bytesOf "["))
  | some .arrayEndTag => ok (os.put (bytesOf "]"))
  | none => ok (os.put (bytesOf "unknown"))

/-! ## Messages -/

/-- The loop over the arguments; it has fuel, as a walk has. -/
def printArguments (end_ : ReceivedMessageArgument) : Nat → Bool → ReceivedMessageArgument → Ostream → Out Exn Ostream
  | n, first, it, os =>
    if it.typeTagPtr = end_.typeTagPtr then ok os
    else
      match n with
      | 0 => fault .diverge
      | n + 1 => do
        let os := os.put (bytesOf (if first then " " else ", "))
        let os ← printArgument m fmt it os
        let next ← advance m it
        printArguments end_ n false next os

/-- The address pattern; one that begins with NUL is a word. -/
def printAddress (addressPattern : Nat) (os : Ostream) : Out Exn Ostream := do
  let c ← rd m addressPattern
  if c = 0 then do
    let v ← rd32 m addressPattern
    ok (os.putInt 32 v)
  else do
    let s ← rdCString m addressPattern
    ok (os.put s)

def printMessage (r : ReceivedMessage) (os : Ostream) : Out Exn Ostream := do
  let os ← printAddress m r.addressPattern (os.put (bytesOf "["))
  let os ← printArguments m fmt r.argumentsEnd m.length true r.argumentsBegin os
  ok (os.put (bytesOf "]"))

/-! ## Bundles -/

def indentation : Nat → Ostream → Ostream
  | 0, os => os
  | n + 1, os => indentation n (os.put (bytesOf "  "))

structure Thread where
  indent : Nat
  os : Ostream
  deriving DecidableEq, Repr

namespace Thread

def fresh : Thread := ⟨0, .fresh⟩

/-- Output of the thread; an exception leaves it as it is. -/
def output (s : Thread) (f : Ostream → Out Exn Ostream) : Out (Exn × Thread) Thread :=
  match f s.os with
  | ok os => ok { s with os := os }
  | err e => err (e, s)
  | fault x => fault x

def put (s : Thread) (t : Bytes) : Thread := { s with os := s.os.put t }

def putIndent (s : Thread) : Thread := { s with os := indentation s.indent s.os }

def raise (s : Thread) : Out (Exn × Thread) Thread :=
  if s.indent + 1 < 2 ^ 31 then ok { s with indent := s.indent + 1 } else fault .wrap

def lower (s : Thread) : Thread := { s with indent := s.indent - 1 }

end Thread

def maxBundlePrintDepth : Nat := 64

/-- An exception thrown while the thread is `s`. -/
def throwing {α : Type} (s : Thread) (x : Out Exn α) : Out (Exn × Thread) α := x.mapErr (·, s)

variable (nested : ReceivedBundle → Thread → Out (Exn × Thread) Thread)

/-- One pass of the loop over the elements, for the element whose size slot is at `i`;
    `nested` is the recursive call. -/
def printElement (i : Nat) (s : Thread) : Out (Exn × Thread) Thread := do
  let size ← throwing s (elementSize m i)
  let bundle ← isBundle m (i + 4) size
  if bundle then
    if maxBundlePrintDepth ≤ s.indent then
      ok (s.putIndent.put (bytesOf "\x7b ...bundle nesting depth limit reached... \x7d\n"))
    else do
      let b ← throwing s (ReceivedBundle.mk' m (i + 4) size)
      let s ← nested b s
      ok (s.put (bytesOf "\n"))
  else do
    let r ← throwing s (ReceivedMessage.mk' m (i + 4) size)
    let s ← s.putIndent.output (printMessage m fmt r)
    ok (s.put (bytesOf "\n"))

def printElements (end_ : Nat) : Nat → Nat → Thread → Out (Exn × Thread) Thread
  | n, i, s =>
    if i = end_ then ok s
    else
      match n with
      | 0 => fault .diverge
      | n + 1 => do
        let s ← printElement m fmt nested i s
        let next ← throwing s (elementAdvance m i)
        printElements end_ n next s

def printBundleBody (b : ReceivedBundle) (s : Thread) : Out (Exn × Thread) Thread := do
  let timeTag ← throwing s (UInt64.ofNat <$> rd64 m b.timeTag)
  let s := s.putIndent.put (bytesOf "\x7b ( ")
  let s := if timeTag = 1 then s.put (bytesOf "immediate") else { s with os := s.os.putInt 64 timeTag.toNat }
  let s ← (s.put (bytesOf " )\n")).raise
  let s ← printElements m fmt nested b.elementsEnd m.length b.elementsBegin s
  ok (s.lower.putIndent.put (bytesOf "\x7d"))

/-- `operator<<` of a bundle; the fuel bounds the recursion, which the limit does too. -/
def printBundle : Nat → ReceivedBundle → Thread → Out (Exn × Thread) Thread
  | 0 => printBundleBody m fmt fun _ _ => fault .diverge
  | n + 1 => printBundleBody m fmt (printBundle n)

/-! ## Packets -/

/-- A buffer that holds a packet: its size has passed the constructor of `ReceivedPacket`. -/
structure PacketBuffer where
  bytes : Bytes
  valid : ReceivedPacket.validateSizeNoThrow bytes.length = none
  deriving DecidableEq

def printPacket (packet : PacketBuffer) (s : Thread) : Out (Exn × Thread) Thread := do
  let m := packet.bytes
  let bundle ← isBundle m 0 m.length
  if bundle then do
    let b ← throwing s (ReceivedBundle.mk' m 0 m.length)
    let s ← printBundle m fmt maxBundlePrintDepth b s
    ok (s.put (bytesOf "\n"))
  else do
    let r ← throwing s (ReceivedMessage.mk' m 0 m.length)
    let s ← s.output (printMessage m fmt r)
    ok (s.put (bytesOf "\n"))

/-! ## The text of a packet -/

def timeText (v : UInt64) : Bytes :=
  match fmt.ctime (v >>> 32) with
  | none => []
  | some timeString => timeString.take (timeString.length - 1)

def blobText : Bytes → Bytes
  | [] => []
  | [b] => bytesOf "0x" ++ Ostream.hexByte b.toNat
  | b :: bs => bytesOf "0x" ++ Ostream.hexByte b.toNat ++ bytesOf " " ++ blobText bs

def rgbaText (v : UInt32) : Bytes :=
  Ostream.hexByte (byteAt v 24) ++ Ostream.hexByte (byteAt v 16) ++ Ostream.hexByte (byteAt v 8) ++
    Ostream.hexByte (byteAt v 0)

def midiText (v : UInt32) : Bytes :=
  bytesOf "0x" ++ Ostream.hexByte (byteAt v 24) ++ bytesOf " 0x" ++ Ostream.hexByte (byteAt v 16) ++ bytesOf " 0x" ++
    Ostream.hexByte (byteAt v 8) ++ bytesOf " 0x" ++ Ostream.hexByte (byteAt v 0)

def valueText : ArgValue → Bytes
  | .bool b => bytesOf (if b then "bool:true" else "bool:false")
  | .nil => bytesOf "(Nil)"
  | .infinitum => bytesOf "(Infinitum)"
  | .int32 v => bytesOf "int32_t:" ++ Ostream.decimal v.toInt
  | .float bits => bytesOf "float32:" ++ fmt.float bits
  | .char c => bytesOf "char:'" ++ (if c = 0 then [] else [c]) ++ bytesOf "'"
  | .rgbaColor v => bytesOf "RGBA:0x" ++ rgbaText v
  | .midiMessage v => bytesOf "midi (port, status, data1, data2):<<" ++ midiText v ++ bytesOf ">>"
  | .int64 v => bytesOf "int64_t:" ++ Ostream.decimal v.toInt
  | .timeTag v => bytesOf "OSC-timetag:" ++ Ostream.decimal v.toNat ++ bytesOf " " ++ timeText fmt v
  | .double bits => bytesOf "double:" ++ fmt.double bits
  | .string s => bytesOf "OSC-string:`" ++ s ++ bytesOf "'"
  | .symbol s => bytesOf "OSC-string (symbol):`" ++ s ++ bytesOf "'"
  | .blob data => bytesOf "OSC-blob:<<" ++ blobText data ++ bytesOf ">>"
  | .arrayBegin => bytesOf "["
  | .arrayEnd => bytesOf "]"

/-- The arguments of a message: a blank in front of the first, a comma between two. -/
def argumentsText : Bool → List ArgValue → Bytes
  | _, [] => []
  | first, v :: vs => bytesOf (if first then " " else ", ") ++ valueText fmt v ++ argumentsText false vs

def addressText (addressPattern : Nat) : Bytes :=
  if m[addressPattern]? = some 0 then Ostream.decimal (word m addressPattern)
  else (m.drop addressPattern).takeWhile (· ≠ 0)

def messageText (r : ReceivedMessage) (values : List ArgValue) : Bytes :=
  bytesOf "[" ++ addressText m r.addressPattern ++ argumentsText fmt true values ++ bytesOf "]"

def indentText : Nat → Bytes
  | 0 => []
  | n + 1 => bytesOf "  " ++ indentText n

def timeTagText (v : UInt64) : Bytes := if v = 1 then bytesOf "immediate" else Ostream.decimal v.toNat

mutual

/-- The text of a packet's full read, at an indentation. -/
def ReadTree.text : Nat → ReadTree → Bytes
  | n, .message r visits _ => indentText n ++ messageText m fmt r (visits.map Prod.snd)
  | n, .bundle _ timeTag elements =>
    indentText n ++ bytesOf "\x7b ( " ++ timeTagText timeTag ++ bytesOf " )\n" ++ ReadTree.lines (n + 1) elements ++
      indentText n ++ bytesOf "\x7d"

def ReadTree.lines : Nat → List ReadTree → Bytes
  | _, [] => []
  | n, t :: ts => ReadTree.text n t ++ bytesOf "\n" ++ ReadTree.lines n ts

end

end OscTap.Received
