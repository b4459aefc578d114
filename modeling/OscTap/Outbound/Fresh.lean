/-
  OscTap.Outbound.Fresh — a finished packet shows nothing of the buffer's past.

  Two buffers of one size below `2 ^ 31`, each with its own contents and its own calls before
  a `Clear`. Both stand for the same empty stack behind it, so any further calls keep them at
  one stack, whatever the bytes that no call has written. Proved: `packet_fresh`: the same calls
  throw, and when the streams are ready they show the same packet.
-/
import OscTap.Outbound.AnyCall
import OscTap.Outbound.Encode

namespace OscTap.Outbound

open OscTap.Lib OscTap.Lib.Out OscTap.Osc

/-- Two streams that stand for one stack. -/
theorem Rep.agree {s₁ s₂ : OutboundPacketStream} {a : OpenStack} {cap : Nat} (h₁ : Rep cap s₁ a) (h₂ : Rep cap s₂ a)
    (hi : OpenStack.Inv cap a) (hcap : cap < 2 ^ 31) :
    s₁.isReady = s₂.isReady ∧ s₁.size = s₂.size ∧ (s₁.isReady = true → s₁.packet = s₂.packet) := by
  have htags : a.tags.length < 2 ^ 31 := lt_of_le_of_lt hi.tagsFit hcap
  refine ⟨Bool.eq_iff_iff.mpr (h₁.isReady.trans h₂.isReady.symm), ?_, fun hready => ?_⟩
  · rw [h₁.size_eq htags, h₂.size_eq htags]
  · have hm : ¬ a.inMessage = true := by
      rw [(h₁.isReady.mp hready).1]
      exact Bool.false_ne_true
    rw [h₁.packet_eq hm, h₂.packet_eq hm]

/-- `Clear` behind any calls leaves the buffer's bytes, and the stack empty. -/
theorem clear_rep {buffer : Bytes} {past : List Op} {s : OutboundPacketStream}
    (h : runCaught apply past (.mk' buffer) = ok s) : Rep buffer.length s.clear .empty := by
  have hlen := (run_ordered (mk'_ordered buffer) h).capacity
  rw [← hlen]
  exact mk'_rep s.data

theorem packet_fresh {buffer₁ buffer₂ : Bytes} (hlen : buffer₁.length = buffer₂.length) (hcap : buffer₁.length < 2 ^ 31)
    {past₁ past₂ : List Op} {s₁ s₂ : OutboundPacketStream} (h₁ : runCaught apply past₁ (.mk' buffer₁) = ok s₁)
    (h₂ : runCaught apply past₂ (.mk' buffer₂) = ok s₂) (ops : List Op) (hops : ∀ op ∈ ops, op.Fits) :
    thrown apply ops s₁.clear = thrown apply ops s₂.clear ∧
      ∃ t₁ t₂, runCaught apply ops s₁.clear = ok t₁ ∧ runCaught apply ops s₂.clear = ok t₂ ∧
        t₁.isReady = t₂.isReady ∧ t₁.size = t₂.size ∧ (t₁.isReady = true → t₁.packet = t₂.packet) := by
  have hrefines := stream_refines hcap
  have hi := OpenStack.empty_inv buffer₁.length
  have hr₁ := clear_rep h₁
  have hr₂ := clear_rep h₂
  rw [← hlen] at hr₂
  obtain ⟨t₁, ht₁, hrt₁, hit⟩ := hrefines.caught hops ⟨hr₁, hi⟩
  obtain ⟨t₂, ht₂, hrt₂, -⟩ := hrefines.caught hops ⟨hr₂, hi⟩
  refine ⟨?_, t₁, t₂, ht₁, ht₂, hrt₁.agree hrt₂ hit hcap⟩
  rw [hrefines.thrown hops ⟨hr₁, hi⟩, hrefines.thrown hops ⟨hr₂, hi⟩]

/-- A bundle with a message of a short string, behind an unfinished message and behind nothing. -/
theorem packet_fresh_pairBundle : ∃ s₁, runCaught apply [.beginMessageN [ch '/'], .append (.bool true)]
    (.mk' (List.replicate 48 255)) = ok s₁ ∧
    ∃ t₁ t₂, runCaught apply pairBundleOps s₁.clear = ok t₁ ∧
      runCaught apply pairBundleOps (.mk' (List.replicate 48 0)) = ok t₂ ∧
      t₁.size = t₂.size ∧ (t₁.isReady = true → t₁.packet = t₂.packet) := by
  have hfits : ∀ op ∈ pairBundleOps, op.Fits := by
    intro op hop
    simp only [pairBundleOps, List.mem_cons, List.not_mem_nil, or_false] at hop
    rcases hop with rfl | rfl | rfl | rfl | rfl | rfl <;> first | trivial | (simp [Op.Fits, Operand.Fits])
  have hpast : ∀ op ∈ [Op.beginMessageN [ch '/'], .append (.bool true)], op.Fits := by
    intro op hop
    simp only [List.mem_cons, List.not_mem_nil, or_false] at hop
    rcases hop with rfl | rfl
    · show 1 + 4 < 2 ^ 32
      decide
    · trivial
  obtain ⟨s₁, h₁, -⟩ := (stream_refines (show 48 < 2 ^ 31 by decide)).caught hpast
    ⟨mk'_rep (List.replicate 48 255), OpenStack.empty_inv 48⟩
  have h₂ : runCaught apply [] (.mk' (List.replicate 48 0)) = ok (.mk' (List.replicate 48 0)) := rfl
  have hlen : (List.replicate 48 255 : Bytes).length = (List.replicate 48 0 : Bytes).length := by
    rw [List.length_replicate, List.length_replicate]
  obtain ⟨-, t₁, t₂, ht₁, ht₂, -, hsize, hpacket⟩ := packet_fresh hlen (by decide) h₁ h₂ pairBundleOps hfits
  exact ⟨s₁, h₁, t₁, t₂, ht₁, ht₂, hsize, hpacket⟩

end OscTap.Outbound
