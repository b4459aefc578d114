/-
  OscTap.Outbound.Layout — the buffer of the encoder in any run.

  A buffer below `2 ^ 31` bytes, any calls in any order, exceptions caught.
  Proved: `layout_safe`: no call touches a byte outside the buffer, `Size()` is at most the
  capacity, and while a message is open its arguments end before its tags, `EndMessage`
  succeeds without changing `Size()`, and so do as many `EndBundle` as bundles are open.
-/
import OscTap.Outbound.Refinement

namespace OscTap.Outbound

open OscTap.Lib OscTap.Lib.Out OscTap.Osc

/-! ## The stack in a run -/

namespace OpenStack

theorem length_opens_pop (a : OpenStack) : a.pop.opens.length = a.opens.length - 1 := by
  unfold pop
  split <;> rename_i h <;> rw [h] <;> rfl

/-- The open bundles can all be closed, whatever the space. -/
theorem endBundles_ok (cap : Nat) : ∀ (k : Nat) {a : OpenStack}, a.inMessage = false → k ≤ a.opens.length →
    ∃ a', askAll (step cap) (List.replicate k .endBundle) a = .ok a' ∧ a'.opens.length = a.opens.length - k ∧
      a'.inMessage = false ∧ a'.size = a.size
  | 0, a, hm, _ => ⟨a, rfl, rfl, hm, rfl⟩
  | k + 1, a, hm, hk => by
    have ho : a.opens ≠ [] := by intro h; rw [h] at hk; simp at hk
    have hstep : step cap .endBundle a = .ok a.pop := by
      rw [step, if_neg ho, if_neg (by rw [hm]; decide)]
    have hl := length_opens_pop a
    obtain ⟨a', h1, h2, h3, h4⟩ := endBundles_ok cap k (a := a.pop) (pop_fields.1.trans hm) (by omega)
    refine ⟨a', ?_, by omega, h3, h4.trans size_pop⟩
    rw [List.replicate_succ, askAll, List.foldlM_cons, hstep]
    exact h1

end OpenStack

variable {s : OutboundPacketStream} {a : OpenStack} {cap : Nat}

theorem Rep.isReady (h : Rep cap s a) : s.isReady = true ↔ a.inMessage = false ∧ a.opens = [] := by
  have hp : a.ptr = none ↔ a.opens = [] := layout_ptr_none
  rw [OutboundPacketStream.isReady, OutboundPacketStream.isMessageInProgress, OutboundPacketStream.isBundleInProgress,
    h.message, h.ptr, ← hp]
  cases a.inMessage <;> cases a.ptr <;> simp

/-! ## The stream in a run -/

/-- What holds behind every call: the two ends of the buffer do not meet. -/
theorem Rep.layout (h : Rep cap s a) (hi : OpenStack.Inv cap a) (hcap : cap < 2 ^ 31) :
    s.size ≤ s.capacity ∧ s.messageCursor ≤ s.argumentCurrent ∧ s.typeTagsCurrent ≤ s.capacity ∧
      (s.messageIsInProgress = true → s.argumentCurrent < s.typeTagsCurrent) := by
  have hc := h.capacity
  have htc := h.tagCount
  have hfits := hi.fits
  have htags := hi.tagsFit
  have harg := h.argument
  unfold OutboundPacketStream.capacity
  refine ⟨?_, by rw [h.cursor, harg]; omega, by omega, fun hm => ?_⟩
  · rw [h.size_eq (by omega), hc]; exact hfits
  · rw [OpenStack.size, if_pos (h.message ▸ hm)] at hfits
    unfold Outbound.tagSlot at hfits
    omega

/-- An open message can be ended, and the bundles around it after it. -/
theorem Rep.ends (h : Rep cap s a) (hi : OpenStack.Inv cap a) (hcap : cap < 2 ^ 31)
    (hm : s.messageIsInProgress = true) :
    ∃ s', s.endMessage = ok s' ∧ s'.size = s.size ∧ ∃ depth, ∀ k ≤ depth,
      ∃ s'', runAll apply (List.replicate k .endBundle) s' = ok s'' ∧ s''.size = s.size ∧
        (s''.isReady = true ↔ k = depth) := by
  have hm' : a.inMessage = true := h.message ▸ hm
  have hstep : OpenStack.step cap .endMessage a = .ok a.finish.pop := by
    rw [OpenStack.step, if_neg (not_not_intro hm')]
  have hsize := OpenStack.size_finish hm' (hi.message hm').1
  have hmatch := stream_refines hcap .endMessage s a trivial ⟨h, hi⟩
  rw [hstep] at hmatch
  obtain ⟨s', he, hr, hi'⟩ := hmatch
  have htags : a.tags.length < 2 ^ 31 := lt_of_le_of_lt hi.tagsFit hcap
  have htags' : a.finish.pop.tags.length < 2 ^ 31 := lt_of_le_of_lt hi'.tagsFit hcap
  have hs' : s'.size = s.size := by rw [hr.size_eq htags', h.size_eq htags, hsize]
  have hn : a.finish.pop.inMessage = false := OpenStack.pop_fields.1
  refine ⟨s', he, hs', a.finish.pop.opens.length, fun k hk => ?_⟩
  obtain ⟨a', h1, h2, h3, h4⟩ := OpenStack.endBundles_ok cap k hn hk
  have hops : ∀ op ∈ List.replicate k Op.endBundle, op.Fits := fun op hop => by
    rw [(List.mem_replicate.mp hop).2]; trivial
  have hall := (stream_refines hcap).all hops ⟨hr, hi'⟩
  rw [h1] at hall
  obtain ⟨s'', he', hr', hi''⟩ := hall
  refine ⟨s'', he', ?_, ?_⟩
  · rw [hr'.size_eq (lt_of_le_of_lt hi''.tagsFit hcap), h4, hsize, h.size_eq htags]
  · rw [hr'.isReady, ← List.length_eq_zero_iff, h2, h3]
    constructor
    · intro hx
      rcases hx with ⟨-, h0⟩
      omega
    · intro h0; exact ⟨rfl, by omega⟩

theorem layout_safe (buffer : Bytes) (hcap : buffer.length < 2 ^ 31) (ops : List Op) (hops : ∀ op ∈ ops, op.Fits) :
    ∃ s, runCaught apply ops (OutboundPacketStream.mk' buffer) = ok s ∧ s.capacity = buffer.length ∧
      s.size ≤ s.capacity ∧
      (s.messageIsInProgress = true →
        s.messageCursor ≤ s.argumentCurrent ∧ s.argumentCurrent < s.typeTagsCurrent ∧ s.typeTagsCurrent ≤ s.capacity ∧
        ∃ s', s.endMessage = ok s' ∧ s'.size = s.size ∧ ∃ depth, ∀ k ≤ depth,
          ∃ s'', runAll apply (List.replicate k .endBundle) s' = ok s'' ∧ s''.size = s.size ∧
            (s''.isReady = true ↔ k = depth)) := by
  obtain ⟨s, he, hr, hi⟩ := (stream_refines hcap).caught hops
    ⟨mk'_rep buffer, OpenStack.empty_inv buffer.length⟩
  obtain ⟨h1, h2, h3, h4⟩ := hr.layout hi hcap
  exact ⟨s, he, hr.capacity, h1, fun hm => ⟨h2, h4 hm, h3, hr.ends hi hcap hm⟩⟩

/-- A stray argument, a bundle, a rejected `EndMessage`, then a message with one argument. -/
def strayRun : List Op :=
  [.append (.int32 7), .beginBundle 1, .endMessage, .beginMessageN [ch '/', ch 'a'], .append (.bool true)]

theorem layout_safe_strayRun : ∃ s, runCaught apply strayRun (OutboundPacketStream.mk' (List.replicate 64 255)) = ok s ∧
    s.messageIsInProgress = true ∧ s.argumentCurrent < s.typeTagsCurrent ∧ ∃ s', s.endMessage = ok s' ∧
      s'.size = s.size := by
  obtain ⟨s, he, -, -, hm⟩ := layout_safe (List.replicate 64 255) (by decide) strayRun (by
    intro op hop
    simp only [strayRun, List.mem_cons, List.not_mem_nil, or_false] at hop
    rcases hop with rfl | rfl | rfl | rfl | rfl <;> first | trivial | (show 2 + 4 < 2 ^ 32; decide))
  have hp : s.messageIsInProgress = true := by
    have h1 : OutboundPacketStream.messageIsInProgress <$> runCaught apply strayRun
        (OutboundPacketStream.mk' (List.replicate 64 255)) = ok true := by decide +kernel
    rw [he, map_ok] at h1
    injection h1
  obtain ⟨-, h1, -, s', h2, h3, -⟩ := hm hp
  exact ⟨s, he, hp, h1, s', h2, h3⟩

end OscTap.Outbound
