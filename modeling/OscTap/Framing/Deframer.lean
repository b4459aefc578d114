/-
  OscTap.Framing.Deframer — length-prefixed packets on a byte stream
  (`osctap/osc/OscStreamFraming.h`).

  `OscStreamDeframer` with its five members, and `consume` over a chunk `data`, whose bytes
  are read through the chunk's bounds. One pass of the loop in `Consume` is `step`: it
  returns from the call (`done`) or goes on at an offset (`next`). The sink is a parameter:
  it changes a state of its own and returns or throws; an exception carries the deframer as
  it is at the throw.
-/
import OscTap.Lib.Checked

namespace OscTap.Framing

open OscTap.Lib OscTap.Lib.Out

def oscStreamFrameHeaderSize : Nat := 4

def oscDefaultMaxFrameSize : Nat := 64 * 1024

/-! ## The encoder -/

/-- `FrameOscPacket(packet, packetSize, out, outCapacity)`: what it returns, and `out` after it. -/
def frameOscPacket {ε : Type} (packet : Bytes) (packetSize : Nat) (out : Bytes) : Out ε (Nat × Bytes) :=
  if out.length < packetSize + oscStreamFrameHeaderSize then ok (0, out)
  else do
    let out ← wr out 0 (be32 packetSize)
    let out ←
      if packetSize ≠ 0 then do
        let bytes ← rdBytes packet 0 packetSize
        wr out oscStreamFrameHeaderSize bytes
      else ok out
    ok (packetSize + oscStreamFrameHeaderSize, out)

/-! ## The decoder -/

structure OscStreamDeframer where
  buffer : Bytes
  maxFrameSize : Nat
  frameSize : Nat
  header : Vector UInt8 4
  headerFill : Nat
  haveHeader : Bool
  deriving DecidableEq

/-- What a sink does with a packet: its next state, and whether it throws. -/
abbrev Sink (σ : Type) := σ → Bytes → σ × Bool

namespace OscStreamDeframer

/-- The constructor; `header_` is not initialised. -/
def mk' (maxFrameSize : Nat) (header : Vector UInt8 4) : OscStreamDeframer := ⟨[], maxFrameSize, 0, header, 0, false⟩

def reset (d : OscStreamDeframer) : OscStreamDeframer :=
  { d with buffer := [], frameSize := 0, headerFill := 0, haveHeader := false }

/-- `while (headerFill_ < OSC_STREAM_FRAME_HEADER_SIZE && p < end) header_[headerFill_++] = *p++`. -/
def fillHeader {ε : Type} (data : Bytes) (d : OscStreamDeframer) (p : Nat) : Out ε (OscStreamDeframer × Nat) :=
  if h : d.headerFill < 4 then
    if h' : p < data.length then
      fillHeader data { d with header := d.header.set d.headerFill data[p], headerFill := d.headerFill + 1 } (p + 1)
    else ok (d, p)
  else ok (d, p)
termination_by 4 - d.headerFill

def headerWord (header : Vector UInt8 4) : Nat := val32 header[0] header[1] header[2] header[3]

theorem headerWord_lt (header : Vector UInt8 4) : headerWord header < 2 ^ 32 := val32_lt _ _ _ _

theorem be32_headerWord (header : Vector UInt8 4) : be32 (headerWord header) = header.toList := by
  rw [headerWord, be32_val32]
  apply List.ext_getElem
  · simp
  · intro i h1 h2
    simp only [List.length_cons, List.length_nil, Nat.zero_add, Nat.reduceAdd] at h1
    rw [Vector.getElem_toList]
    rcases i with _ | _ | _ | _ | i
    · rfl
    · rfl
    · rfl
    · rfl
    · omega

/-- Read the header, or as much of it as there is; whether it is complete. -/
def readHeader {ε : Type} (data : Bytes) (d : OscStreamDeframer) (p : Nat) : Out ε (Bool × OscStreamDeframer × Nat) :=
  if d.headerFill = 0 ∧ oscStreamFrameHeaderSize ≤ data.length - p then do
    let n ← rd32 data p
    ok (true, { d with frameSize := n }, p + oscStreamFrameHeaderSize)
  else do
    let (d, p) ← fillHeader data d p
    if d.headerFill < oscStreamFrameHeaderSize then ok (false, d, p)
    else ok (true, { d with frameSize := headerWord d.header, headerFill := 0 }, p)

variable {σ : Type}

inductive Step (σ : Type) where
  | done (result : Bool) (d : OscStreamDeframer) (s : σ)
  | next (d : OscStreamDeframer) (p : Nat) (s : σ)

def callSink (sink : Sink σ) (d : OscStreamDeframer) (packet : Bytes) (s : σ) : Out (OscStreamDeframer × σ) σ :=
  let (s, threw) := sink s packet
  if threw then err (d, s) else ok s

def payload (sink : Sink σ) (data : Bytes) (d : OscStreamDeframer) (p : Nat) (s : σ) :
    Out (OscStreamDeframer × σ) (Step σ) :=
  if d.buffer = [] ∧ d.frameSize ≤ data.length - p then do
    let packet ← rdBytes data p d.frameSize
    let s ← callSink sink d packet s
    ok (.next { d with haveHeader := false } (p + d.frameSize) s)
  else if d.frameSize < d.buffer.length then fault .wrap
  else do
    let still := d.frameSize - d.buffer.length
    let avail := data.length - p
    let take := if avail < still then avail else still
    let bytes ← rdBytes data p take
    let d := { d with buffer := d.buffer ++ bytes }
    if d.buffer.length = d.frameSize then do
      let s ← callSink sink d d.buffer s
      ok (.next { d with buffer := [], haveHeader := false } (p + take) s)
    else ok (.next d (p + take) s)

def step (sink : Sink σ) (data : Bytes) (d : OscStreamDeframer) (p : Nat) (s : σ) :
    Out (OscStreamDeframer × σ) (Step σ) :=
  if d.haveHeader then payload sink data d p s
  else do
    let (complete, d, p) ← readHeader data d p
    if ¬ complete then ok (.done true d s)
    else if d.maxFrameSize < d.frameSize then ok (.done false d s)
    else payload sink data { d with haveHeader := true } p s

def loop (sink : Sink σ) (data : Bytes) : Nat → OscStreamDeframer → Nat → σ →
    Out (OscStreamDeframer × σ) (Bool × OscStreamDeframer × σ)
  | n, d, p, s =>
    if p < data.length then
      match n with
      | 0 => fault .diverge
      | n + 1 => do
        match ← step sink data d p s with
        | .done result d s => ok (result, d, s)
        | .next d p s => loop sink data n d p s
    else ok (true, d, s)

/-- `Consume(data, size, sink)`. A pass that reads no byte of the chunk ends a frame, so the
    passes are at most one more than the bytes. -/
def consume (sink : Sink σ) (d : OscStreamDeframer) (data : Bytes) (s : σ) :
    Out (OscStreamDeframer × σ) (Bool × OscStreamDeframer × σ) :=
  loop sink data (data.length + 1) d 0 s

/-- Successive calls on the chunks, up to the first that returns false: what each call
    returned, with the deframer and the sink's state behind it. -/
def calls (sink : Sink σ) : OscStreamDeframer → σ → List Bytes →
    Out (OscStreamDeframer × σ) (List (Bool × OscStreamDeframer × σ))
  | _, _, [] => ok []
  | d, s, data :: chunks => do
    let r ← consume sink d data s
    if r.1 then do
      let rs ← calls sink r.2.1 r.2.2 chunks
      ok (r :: rs)
    else ok [r]

end OscStreamDeframer

end OscTap.Framing
