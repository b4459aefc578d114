/-
  OscTap.Fuzz.Deframe — the fuzz target of the stream path (`fuzz/fuzz_deframe.cpp`).

  An input is fed to a deframer for frames of at most 4096 bytes, in chunks of one to eight bytes; how
  long a chunk is, its own first byte says. Each frame is copied and parsed (`handleFrame`): of a
  bundle the elements that are messages, of a message its type tags. Exceptions are caught. A chunk
  that the deframer refuses ends the input.

  Proved: `finds_frames`: whatever the input, the target returns, and has handled the frames that the
  input holds as one piece, each of them whole and at most as long as the bound.
-/
import OscTap.Framing.Reassembly
import OscTap.Received.Meaning
import OscTap.Received.PacketSize

namespace OscTap.Fuzz

open OscTap.Lib OscTap.Lib.Out OscTap.Osc OscTap.Received
open OscTap.Framing (OscStreamDeframer Sink frames)
open OscTap.Framing.OscStreamDeframer (Inv Returns given given_append mk'_inv consume_spec splits_pending
    drop_eq_slice_append pending)

/-! ## The target -/

/-- The body of the loop over the elements of a bundle: a message is constructed, and counted. -/
def handleElement (m : Bytes) (i : Nat) : Out Exn Unit := do
  let size ← elementSize m i
  let bundle ← isBundle m (i + 4) size
  if bundle then ok ()
  else do
    let r ← ReceivedMessage.mk' m (i + 4) size
    let _ := r.argumentCount
    ok ()

def parseFrame (buffer : Bytes) : Out Exn Unit := do
  let p ← ReceivedPacket.mk' 0 (toElementSize buffer.length)
  let bundle ← isBundle buffer p.contents p.size
  if bundle then do
    let b ← ReceivedBundle.mk' buffer p.contents p.size
    discard (walkElements buffer (handleElement buffer) b.elementsEnd buffer.length b.elementsBegin)
  else do
    let r ← ReceivedMessage.mk' buffer p.contents p.size
    forArguments buffer (fun a _ => discard (a.typeTag buffer)) r.argumentsEnd buffer.length r.argumentsBegin ()

def handleFrame (buffer : Bytes) : Out Empty Unit :=
  if buffer.length = 0 then ok ()
  else
    match parseFrame buffer with
    | ok _ | err _ => ok ()
    | fault f => fault f

/-- The sink: the frames handled so far, or the fault of one of them. -/
def frameSink : Sink (Out Empty (List Bytes)) := fun handled frame =>
  (do
    let before ← handled
    handleFrame frame
    ok (before ++ [frame]), false)

def feed {σ : Type} (sink : Sink σ) (data : Bytes) (i : Nat) (d : OscStreamDeframer) (s : σ) :
    Out (OscStreamDeframer × σ) σ :=
  if h : i < data.length then do
    let chunk := data[i].toNat % 8 + 1
    let chunk := if data.length < i + chunk then data.length - i else chunk
    let r ← d.consume sink (slice data i (i + chunk)) s
    if r.1 then feed sink data (i + chunk) r.2.1 r.2.2 else ok r.2.2
  else ok s
termination_by data.length - i
decreasing_by split <;> omega

def maxFrameSize : Nat := 4096

def testStream (header : Vector UInt8 4) (data : Bytes) : Out Empty (List Bytes) :=
  match feed frameSink data 0 (.mk' maxFrameSize header) (ok []) with
  | ok handled | err (_, handled) => handled
  | fault f => fault f

/-! ## One frame -/

variable {m : Bytes} {p q e : Nat}

theorem handleElement_sat {size : Nat} (hm : m.length < 2 ^ 31) (h : p + 4 + size ≤ m.length) (hw : word m p = size) :
    Sat (handleElement m p) (fun _ => True) fun _ => True := by
  rw [handleElement, elementSize_eq (by omega) (by omega), hw, ok_bind]
  have hl : p + 4 + (size : Int).toNat ≤ m.length := by simpa using h
  have hmessage : Sat (ReceivedMessage.mk' m (p + 4) size >>= fun _ => (ok () : Out Exn Unit))
      (fun _ => True) fun _ => True :=
    (((ReceivedMessage.tryInit_decides hl).mapErr (g := Exn.malformedMessage)).sat.mono
      (fun _ _ => trivial) fun _ h => h).bind fun _ _ => trivial
  by_cases h0 : 0 < size
  · rw [isBundle_eq hl (by omega), ok_bind]
    split
    · trivial
    · exact hmessage
  · rw [isBundle, if_neg (by omega), ok_bind]
    exact hmessage

/-- A frame below the bound is parsed inside its copy. -/
theorem parseFrame_sat {frame : Bytes} (h : frame.length ≤ maxFrameSize) :
    Sat (parseFrame frame) (fun _ => True) fun _ => True := by
  have hmax : frame.length ≤ 4096 := h
  have hl : 0 + (frame.length : Int).toNat ≤ frame.length := by simp
  have hsize : toElementSize frame.length = frame.length :=
    ReceivedPacket.toElementSize_of_range
      ⟨by omega, by rw [show (oscBundleElementSizeMax : Int) = 0x7FFFFFFC from rfl]; omega⟩
  rw [parseFrame, hsize]
  rcases ReceivedPacket.mk'_eq 0 frame.length with ⟨hok, hmk⟩ | ⟨-, what, hmk⟩
  · rw [hmk, ok_bind, isBundle_eq hl hok.1, ok_bind]
    dsimp only
    split
    · refine ((ReceivedBundle.tryInit_decides hl).mapErr (g := Exn.malformedBundle)).sat.bind fun b hb => ?_
      obtain ⟨es, hes, rfl⟩ := hb
      have h16 := hes.2.1
      have hf := hes.2.2.2
      have hlen := hf.length_le
      have hsat := walkElements_sat (f := handleElement frame) (S := fun _ _ => True) hl (by omega) hf (fun x hx => by
        obtain ⟨h4, hw⟩ := hf.word_eq x hx
        have hin := hf.inside x hx
        exact handleElement_sat (by omega) (by omega) hw.symm) frame.length (by omega)
      exact hsat.bind fun _ _ => trivial
    · refine ((ReceivedMessage.tryInit_decides hl).mapErr (g := Exn.malformedMessage)).sat.bind fun r hr => ?_
      obtain ⟨d, -, hdecode⟩ := hr.2.2.decode hl
      obtain ⟨-, hloop⟩ := ReceivedMessage.decode_forArguments (b := fun a _ => discard (a.typeTag frame))
        (f := fun _ _ => ()) hdecode
        (fun a tag v s ha => by
          obtain ⟨t, ht, -⟩ := readTagged_tag ha
          rw [ht]
          rfl) ()
      rw [hloop]
      trivial
  · rw [hmk]
    trivial

theorem handleFrame_ok {frame : Bytes} (h : frame.length ≤ maxFrameSize) : handleFrame frame = ok () := by
  have hsat := parseFrame_sat h
  rw [handleFrame]
  split
  · rfl
  · cases hp : parseFrame frame with
    | ok _ | err _ => rfl
    | fault f => rw [hp] at hsat; exact hsat.elim

/-! ## The stream -/

variable {σ : Type} {sink : Sink σ}

/-- The chunks give the sink what the bytes from `i` on do as one piece, behind those that are held. -/
theorem feed_spec (hs : Returns sink) (data : Bytes) :
    ∀ (k i : Nat) (d : OscStreamDeframer) (s : σ), data.length - i ≤ k →
    i ≤ data.length → Inv d → feed sink data i d s =
      ok (given sink s ((frames d.maxFrameSize).split (pending d ++ data.drop i)).1) := by
  intro k
  induction k with
  | zero =>
    intro i d s hk hi hd
    have hend : i = data.length := by omega
    have hsplit := @splits_pending _ sink _ s hd
    rw [feed, dif_neg (by omega), hend, List.drop_length, List.append_nil, ← hsplit.1]
  | succ k ih =>
    intro i d s hk hi hd
    rw [feed]
    split
    · rename_i hlt
      dsimp only
      generalize hchunk : (if data.length < i + (data[i].toNat % 8 + 1) then data.length - i
        else data[i].toNat % 8 + 1) = chunk
      have hc : 0 < chunk ∧ i + chunk ≤ data.length := by
        split at hchunk <;> omega
      obtain ⟨r, hr, hsplits⟩ := consume_spec hs s hd (slice data i (i + chunk))
      rw [hr, ok_bind]
      rw [drop_eq_slice_append (show i ≤ i + chunk by omega), ← List.append_assoc]
      obtain ⟨hgiven, hcase⟩ := hsplits
      cases hpieces : (frames d.maxFrameSize).split (pending d ++ slice data i (i + chunk)) with
      | mk packets rest =>
        rw [hpieces] at hgiven hcase
        cases rest with
        | pending rest =>
          obtain ⟨h1, h2, h3, h4⟩ := hcase
          rw [if_pos h1, ih _ _ _ (by omega) hc.2 h2, h3, h4, Splitter.split_append_pending _ hpieces,
            given_append, ← hgiven]
        | bad =>
          rw [if_neg (by rw [show r.1 = false from hcase]; decide), Splitter.split_append_bad _ hpieces, hgiven]
    · have hend : data.length ≤ i := by omega
      have hsplit := @splits_pending _ sink _ s hd
      rw [List.drop_eq_nil_of_le hend, List.append_nil, ← hsplit.1]

/-- A sink whose frames are handled has handled them all. -/
theorem given_handled : ∀ {packets before : List Bytes}, (∀ frame ∈ packets, handleFrame frame = ok ()) →
    given frameSink (ok before) packets = ok (before ++ packets)
  | [], before, _ => by rw [List.append_nil]; rfl
  | frame :: packets, before, h => by
    have hfirst : frameSink (ok before) frame = (ok (before ++ [frame]), false) := by
      rw [frameSink, ok_bind, h frame (List.mem_cons_self ..), ok_bind]
    have hrest := @given_handled packets (before ++ [frame]) fun x hx => h x (List.mem_cons_of_mem _ hx)
    rw [given, List.foldl_cons, hfirst]
    rwa [given, List.append_assoc] at hrest

/-- Whatever the input and the chunks that it is cut into: the target returns, and the frames it has
    handled are those of the input as one piece, up to the first that is too long. -/
theorem finds_frames (header : Vector UInt8 4) (data : Bytes) :
    testStream header data = ok ((frames maxFrameSize).split data).1 ∧
      ∀ frame ∈ ((frames maxFrameSize).split data).1, frame.length ≤ maxFrameSize ∧ handleFrame frame = ok () := by
  have hframes : ∀ frame ∈ ((frames maxFrameSize).split data).1, frame.length ≤ maxFrameSize :=
    Splitter.split_forall (fun {xs a rest} h => by
      obtain ⟨hin, hle, rfl, -⟩ := Framing.cut_item h
      rw [length_slice hin]
      omega) data
  have hfeed := @feed_spec _ frameSink (fun _ _ => rfl) data data.length 0 (.mk' maxFrameSize header) (ok [])
    (by omega) (Nat.zero_le _) (mk'_inv maxFrameSize header)
  have hheld : pending (.mk' maxFrameSize header) = [] := rfl
  rw [hheld, List.nil_append, List.drop_zero] at hfeed
  refine ⟨?_, fun frame hf => ⟨hframes frame hf, handleFrame_ok (hframes frame hf)⟩⟩
  rw [testStream, hfeed]
  exact given_handled fun frame hf => handleFrame_ok (hframes frame hf)

end OscTap.Fuzz
