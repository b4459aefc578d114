/-
  OscTap.Outbound.Sender — one stream, packet after packet.

  A sender keeps one `OutboundPacketStream` over one buffer. For each packet it calls `Clear`
  and the operators, and takes `Data` and `Size`; the first exception ends the packet, and the
  stream stays as it is at the throw. Proved: `sends_fitting`: the packets that fit in the
  buffer are taken as they are encoded, the others are refused for want of space, and no packet
  depends on those before it.
-/
import OscTap.Outbound.Fresh

namespace OscTap.Outbound

open OscTap.Lib OscTap.Lib.Out OscTap.Osc

/-- A packet's calls behind a `Clear`: the stream, and what is taken of it or what was thrown. -/
def build (ops : List Op) (s : OutboundPacketStream) : Out Empty (OutboundPacketStream × Except Exn Bytes) :=
  match runAll apply ops s.clear with
  | ok s => ok (s, .ok s.packet)
  | err e => ok (e.2, .error e.1)
  | fault f => fault f

def buildAll : List (List Op) → OutboundPacketStream → Out Empty (OutboundPacketStream × List (Except Exn Bytes))
  | [], s => ok (s, [])
  | ops :: jobs, s => do
    let (s, packet) ← build ops s
    let (s, packets) ← buildAll jobs s
    ok (s, packet :: packets)

/-- What a buffer of `cap` bytes has room for. -/
def fitted (cap : Nat) (t : PacketTree) : Except Exn Bytes :=
  if t.enc.length ≤ cap then .ok t.enc else .error .outOfBufferMemory

/-- The first call that throws leaves the stream in order, as one that returns does. -/
theorem runAll_ordered {cap : Nat} {s : OutboundPacketStream} (h : Ordered cap s) (ops : List Op) :
    Weakly (runAll apply ops s) (Ordered cap) (fun e => Ordered cap e.2) :=
  Weakly.foldlM (fun op _ s h => (apply_any h op).mono (fun _ h' => h') fun e he =>
    by rw [show e.2 = s from he]; exact h) h

theorem clear_ordered {cap : Nat} {s : OutboundPacketStream} (h : Ordered cap s) : Ordered cap s.clear := by
  rw [← h.capacity]
  exact mk'_ordered s.data

/-- One packet, whatever is in the buffer. -/
theorem build_spec {cap : Nat} (hcap : cap < 2 ^ 31) {s : OutboundPacketStream} (h : Ordered cap s)
    {t : PacketTree} {ops : List Op} (hs : Streams t ops) (hops : ∀ op ∈ ops, op.Fits) :
    ∃ s', build ops s = ok (s', fitted cap t) ∧ Ordered cap s' := by
  have hordered := runAll_ordered (clear_ordered h) ops
  have hrun := @runs_as ops hops s.data (h.capacity ▸ hcap)
  rw [h.capacity, OpenStack.streams_run t hs ⟨by decide, rfl, rfl⟩ (Nat.zero_le _),
    show OpenStack.empty.size + OpenStack.empty.slot + t.enc.length = t.enc.length from Nat.zero_add _,
      OpenStack.require] at hrun
  rw [build, fitted, OutboundPacketStream.clear] at *
  by_cases hfit : cap < t.enc.length
  · rw [if_pos hfit] at hrun
    obtain ⟨s', he⟩ := hrun
    rw [he] at hordered ⊢
    exact ⟨s', by rw [if_neg (by omega)], hordered⟩
  · rw [if_neg hfit] at hrun
    obtain ⟨s', he, hr, hi⟩ := hrun
    rw [he] at hordered ⊢
    obtain ⟨-, -, hpacket⟩ := hr.placed hi hcap
    exact ⟨s', by rw [if_pos (by omega), ← hpacket], hordered⟩

theorem buildAll_spec {cap : Nat} (hcap : cap < 2 ^ 31) {ts : List PacketTree} {jobs : List (List Op)}
    (hj : List.Forall₂ (fun t ops => Streams t ops ∧ ∀ op ∈ ops, op.Fits) ts jobs) {s : OutboundPacketStream}
    (h : Ordered cap s) :
    ∃ s', buildAll jobs s = ok (s', ts.map (fitted cap)) ∧ Ordered cap s' := by
  induction hj generalizing s with
  | nil => exact ⟨s, rfl, h⟩
  | cons hjob _ ih =>
    obtain ⟨s₁, h1, ho1⟩ := build_spec hcap h hjob.1 hjob.2
    obtain ⟨s₂, h2, ho2⟩ := ih ho1
    refine ⟨s₂, ?_, ho2⟩
    rw [buildAll, h1, ok_bind]
    dsimp only
    rw [h2]
    rfl

theorem sends_fitting {buffer : Bytes} (hcap : buffer.length < 2 ^ 31) {past : List Op} {s : OutboundPacketStream}
    (hpast : runCaught apply past (.mk' buffer) = ok s) {ts : List PacketTree} {jobs : List (List Op)}
    (hj : List.Forall₂ (fun t ops => Streams t ops ∧ ∀ op ∈ ops, op.Fits) ts jobs) :
    ∃ s', buildAll jobs s = ok (s', ts.map fun t =>
      if t.enc.length ≤ buffer.length then .ok t.enc else .error .outOfBufferMemory) := by
  obtain ⟨s', h, -⟩ := buildAll_spec hcap hj (run_ordered (mk'_ordered buffer) hpast)
  exact ⟨s', h⟩

/-- A message that is too long, with one that fits behind it, over one that was never finished. -/
theorem sends_fitting_long : ∃ s s', runCaught apply [.beginMessageN [ch '/']] (.mk' (List.replicate 8 255)) = ok s ∧
    buildAll [[.beginMessageN [ch '/'], .append (.int32 5), .endMessage], [.beginMessageN [ch '/'], .endMessage]] s =
      ok (s', [.error .outOfBufferMemory, .ok [ch '/', 0, 0, 0, ch ',', 0, 0, 0]]) := by
  have hpast : ∀ op ∈ [Op.beginMessageN [ch '/']], op.Fits := by simp [Op.Fits]
  obtain ⟨s, hs, -⟩ := (stream_refines (show 8 < 2 ^ 31 by decide)).caught hpast
    ⟨mk'_rep (List.replicate 8 255), OpenStack.empty_inv 8⟩
  have hlong : Streams (.message [ch '/'] [.int32 5]) [.beginMessageN [ch '/'], .append (.int32 5), .endMessage] := by
    rw [Streams]
    exact ⟨_, [.int32 5], .beginMessageN _, .cons (.int32 5) .nil, rfl⟩
  have hshort : Streams (.message [ch '/'] []) [.beginMessageN [ch '/'], .endMessage] := by
    rw [Streams]
    exact ⟨_, [], .beginMessageN _, .nil, rfl⟩
  obtain ⟨s', h⟩ := sends_fitting (by decide) hs
    (.cons ⟨hlong, by simp [Op.Fits, Operand.Fits]⟩ (.cons ⟨hshort, by simp [Op.Fits]⟩ .nil))
  exact ⟨s, s', hs, h.trans (congrArg _ (congrArg _ (by decide +kernel)))⟩

end OscTap.Outbound
