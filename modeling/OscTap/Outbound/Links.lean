/-
  OscTap.Outbound.Links — the links in the buffer are the stack of open elements.

  The encoder keeps no stack: `elementSizePtr_` is the innermost size slot, and every open
  slot holds the offset of the enclosing one. Null is nothing open, and offset 0 (`data_`) is
  the outermost element, which has no slot. `stackOf` is the stack that a caller would keep:
  a begin that returns pushes, an end that returns pops.

  Proved: `links`: behind any calls the links read back as that stack, every guard is decided
  by its top, each pop leaves the element's length in its slot, and the calls that throw can
  be left out.
-/
import OscTap.Outbound.Layout

namespace OscTap.Outbound

open OscTap.Lib OscTap.Lib.Out OscTap.Osc
open OpenStack (pop_fields grow_fields)

inductive Kind where
  | bundle
  | message
  deriving DecidableEq

structure Element where
  kind : Kind
  /-- Where its size slot is; 0 when it has none. -/
  slot : Nat
  deriving DecidableEq

def top (stack : List Element) : Option Kind := stack.head?.map Element.kind

/-- What a call that returns pushes or pops. -/
def moved (op : Op) (s : OutboundPacketStream) (stack : List Element) : List Element :=
  match op with
  | .clear => []
  | .beginBundle _ => ⟨.bundle, if stack = [] then 0 else s.messageCursor⟩ :: stack
  | .beginMessage _ | .beginMessageN _ => ⟨.message, if stack = [] then 0 else s.messageCursor⟩ :: stack
  | .endBundle | .endMessage => stack.tail
  | .append _ => stack

def seen (op : Op) (s : OutboundPacketStream) (stack : List Element) : List Element :=
  match apply op s with
  | ok _ => moved op s stack
  | _ => stack

/-- The open elements behind a run on a fresh stream, innermost first. -/
def stackOf (ops : List Op) (buffer : Bytes) : List Element := watch apply seen ops (.mk' buffer) []

/-- The slots in the first `n` bytes lie one behind the other, each with the offset of the one
    around it. -/
def Linked (data : Bytes) : Nat → List Nat → Prop
  | _, [] => True
  | _, [p] => p = 0
  | n, p :: q :: rest => q < p ∧ p + 4 ≤ n ∧ word data p = q ∧ Linked data p (q :: rest)

/-- The stream's observers and pointers say what is open. -/
structure Describes (s : OutboundPacketStream) (stack : List Element) : Prop where
  message : s.isMessageInProgress = true ↔ top stack = some .message
  ready : s.isReady = true ↔ stack = []
  outer : ∀ e ∈ stack.tail, e.kind = .bundle
  pointer : s.elementSizePtr = stack.head?.map Element.slot
  links : Linked s.data s.messageCursor (stack.map Element.slot)

/-- The exception of a call that the open elements do not allow. -/
def guardOf (stack : List Element) : Op → Option Exn
  | .beginBundle _ | .beginMessage _ | .beginMessageN _ =>
    if top stack = some .message then some .messageInProgress else none
  | .endBundle =>
    if stack = [] then some .bundleNotInProgress
    else if top stack = some .message then some .messageInProgress
    else none
  | .endMessage => if top stack = some .message then none else some .messageNotInProgress
  | .clear | .append _ => none

/-- A call that needs no space. -/
def Op.Ends : Op → Prop
  | .clear | .endBundle | .endMessage => True
  | _ => False

/-- The slot of a nested element that a call has ended holds the length of what lies behind it. -/
def Measured (op : Op) (stack : List Element) (s' : OutboundPacketStream) : Prop :=
  op = .endBundle ∨ op = .endMessage → ∀ e e' rest, stack = e :: e' :: rest →
    e.slot + 4 + word s'.data e.slot = s'.messageCursor

/-- A call throws what its guard says, with the stream as it was. With no objection from the
    guard it returns, or a call that needs space throws for it, with the stream as it was. -/
def Answers (op : Op) (s : OutboundPacketStream) (stack : List Element) : Prop :=
  match guardOf stack op with
  | some e => apply op s = err (e, s)
  | none => Sat (apply op s) (Measured op stack) (fun e => ¬ op.Ends ∧ e = (.outOfBufferMemory, s))

/-! ## The elements of a stack -/

def slots (closed : Bytes) : List Bytes → List Nat
  | [] => []
  | _ :: bs => elementPtr (layout closed bs).2 (layout closed bs).1.length :: slots closed bs

namespace OpenStack

def elements (a : OpenStack) : List Element :=
  match slots a.closed a.opens with
  | [] => []
  | p :: ps => ⟨if a.inMessage then .message else .bundle, p⟩ :: ps.map (Element.mk .bundle)

variable {a : OpenStack} {cap : Nat}

theorem elements_nil : a.elements = [] ↔ a.opens = [] := by
  unfold elements
  cases h : a.opens <;> simp [slots]

theorem elements_tail : a.elements.tail = (slots a.closed a.opens).tail.map (Element.mk .bundle) := by
  unfold elements
  cases slots a.closed a.opens <;> rfl

/-- Outside a message only bundles are open. -/
theorem elements_bundles (hm : ¬ a.inMessage = true) :
    a.elements = (slots a.closed a.opens).map (Element.mk .bundle) := by
  unfold elements
  cases slots a.closed a.opens with
  | nil => rfl
  | cons p ps => rw [if_neg hm]; rfl

theorem elements_head : a.elements.head?.map Element.slot = a.ptr := by
  unfold elements ptr
  cases h : a.opens <;> rfl

theorem elements_slots : a.elements.map Element.slot = slots a.closed a.opens := by
  unfold elements
  cases slots a.closed a.opens with
  | nil => rfl
  | cons p ps =>
    show p :: (ps.map (Element.mk .bundle)).map Element.slot = p :: ps
    rw [List.map_map, show Element.slot ∘ Element.mk .bundle = id from rfl, List.map_id]

theorem elements_top (hi : Inv cap a) : top a.elements = some .message ↔ a.inMessage = true := by
  by_cases hm : a.inMessage = true
  · obtain ⟨b, bs, ho⟩ := List.exists_cons_of_ne_nil (hi.message hm).1
    rw [elements, ho]
    simp [slots, top, hm]
  · rw [elements_bundles hm, top]
    cases slots a.closed a.opens <;> simp [hm]

theorem slots_grow (x : Bytes) : slots (a.grow x).closed (a.grow x).opens = slots a.closed a.opens := by
  unfold grow
  cases h : a.opens with
  | nil => rw [h]
  | cons b bs => rfl

theorem slots_pop : slots a.pop.closed a.pop.opens = (slots a.closed a.opens).tail := by
  unfold pop
  cases h : a.opens with
  | nil => rw [h]; rfl
  | cons b bs => cases bs <;> rfl

/-- An element is pushed with the slot that the layout gives it. -/
theorem elements_begun (hm : ¬ a.inMessage = true) (b : Bytes) (m : Bool) (tags : Bytes) :
    elements { a.push b with inMessage := m, tags := tags } =
      ⟨if m then .message else .bundle, if a.elements = [] then 0 else a.front.length⟩ :: a.elements := by
  rw [elements_bundles hm]
  unfold elements push front
  cases h : a.opens with
  | nil => rfl
  | cons b' bs => rfl

theorem elements_ended (hm : ¬ a.inMessage = true) : a.pop.elements = a.elements.tail := by
  rw [elements_bundles (by rw [pop_fields.1]; exact hm), slots_pop, elements_tail]

theorem elements_finished : a.finish.pop.elements = a.elements.tail := by
  rw [elements_ended (a := a.finish) (by exact Bool.false_ne_true), elements_tail, elements_tail]
  exact congrArg (fun l => l.tail.map (Element.mk .bundle)) (slots_grow _)

/-! ## Calls -/

theorem step_guard (hi : Inv cap a) {op : Op} {e : Exn} (h : guardOf a.elements op = some e) :
    step cap op a = .error e := by
  have htop := elements_top hi
  cases op <;> simp only [guardOf, htop, elements_nil] at h <;> grind [step, beginMessage]

theorem step_space (hi : Inv cap a) {op : Op} {e : Exn} (hg : guardOf a.elements op = none)
    (h : step cap op a = .error e) :
    ¬ op.Ends ∧ e = .outOfBufferMemory := by
  have htop := elements_top hi
  cases op <;> simp only [guardOf, htop, elements_nil] at hg <;> grind [step, beginMessage, append, require, Op.Ends]

/-- A call that returns does to the elements what `moved` says. -/
theorem moved_step {op : Op} {a' : OpenStack} {s : OutboundPacketStream} (hc : s.messageCursor = a.front.length)
    (h : step cap op a = .ok a') : moved op s a.elements = a'.elements := by
  have begun : ∀ {address : Bytes}, a.beginMessage cap address = .ok a' →
      ⟨.message, if a.elements = [] then 0 else s.messageCursor⟩ :: a.elements = a'.elements := by
    intro address h
    unfold beginMessage at h
    split at h
    · cases h
    · rename_i hm
      obtain ⟨-, rfl⟩ := require_ok h
      exact (hc ▸ elements_begun hm (strBlock address) true []).symm
  cases op with
  | clear => cases h; rfl
  | beginBundle timeTag =>
    simp only [step] at h
    split at h
    · cases h
    · rename_i hm
      obtain ⟨-, rfl⟩ := require_ok h
      have hb := elements_begun hm (bundleTag ++ be64 timeTag.toNat) a.inMessage a.tags
      rw [if_neg hm] at hb
      exact (hc ▸ hb).symm
  | endBundle =>
    simp only [step] at h
    split at h
    · cases h
    · split at h
      · cases h
      · rename_i hm
        cases h
        exact (elements_ended hm).symm
  | beginMessage addressPattern => exact begun h
  | beginMessageN addressPattern => exact begun h
  | endMessage =>
    simp only [step] at h
    split at h
    · cases h
    · cases h
      exact elements_finished.symm
  | append rhs =>
    obtain ⟨-, rfl⟩ := require_ok h
    rfl

/-- A nested element that is popped lies behind its slot, which holds its length. -/
theorem pop_measured {data front : Bytes} {b b' : Bytes} {bs : List Bytes} (ho : a.opens = b :: b' :: bs)
    (hb : b.length < 2 ^ 32) (hf : a.pop.front = front) (hd : front <+: data) :
    (layout a.closed (b' :: bs)).1.length + 4 + word data (layout a.closed (b' :: bs)).1.length = front.length := by
  obtain ⟨rest, rfl⟩ := hd
  have hfront : front = (layout a.closed (b' :: bs)).1 ++ be32 b.length ++ b := by
    rw [← hf, pop, ho, OpenStack.front, layout_append, layout_append]
  have hword : word (front ++ rest) (layout a.closed (b' :: bs)).1.length = b.length := by
    rw [hfront, List.append_assoc _ b]
    exact (word_of_slice (slice_append_middle _ _ _)).trans (Nat.mod_eq_of_lt hb)
  rw [hword, hfront, List.length_append, List.length_append, length_be32]

end OpenStack

/-- The links of the layout, in any bytes that start with it. -/
theorem layout_linked {closed data : Bytes} : ∀ {bs : List Bytes} {n : Nat}, (∀ b ∈ bs, b ≠ []) →
    (layout closed bs).1 <+: data → (layout closed bs).1.length ≤ n → data.length < 2 ^ 32 →
      Linked data n (slots closed bs)
  | [], _, _, _, _, _ => trivial
  | [_], _, _, _, _, _ => rfl
  | b :: b' :: bs, n, hh, hd, hn, hl => by
    obtain ⟨q, hq⟩ : ∃ q, (layout closed (b' :: bs)).2 = some q := ⟨_, rfl⟩
    have hb' : b' ≠ [] := hh b' (by simp)
    have hsplit : (layout closed (b :: b' :: bs)).1 = (layout closed (b' :: bs)).1 ++ be32 q ++ b :=
      by rw [layout, hq]; rfl
    have hslot : q = elementPtr (layout closed bs).2 (layout closed bs).1.length := (Option.some.inj hq).symm
    have hlt : q < (layout closed (b' :: bs)).1.length := by
      have := List.length_pos_iff.mpr hb'
      rw [hslot, length_layout]
      unfold elementPtr
      split <;> omega
    rw [hsplit] at hd hn
    have hpre : (layout closed (b' :: bs)).1 <+: data :=
      List.IsPrefix.trans ⟨be32 q ++ b, (List.append_assoc ..).symm⟩ hd
    obtain ⟨rest, hrest⟩ := hd
    have hword : word data (layout closed (b' :: bs)).1.length = q := by
      have hle := hpre.length_le
      rw [← hrest, List.append_assoc _ b]
      exact (word_of_slice (slice_append_middle _ _ _)).trans (Nat.mod_eq_of_lt (by omega))
    have ih := layout_linked (fun c hc => hh c (List.mem_cons_of_mem _ hc)) hpre (Nat.le_refl _) hl
    refine ⟨hslot ▸ hlt, ?_, hslot ▸ hword, ih⟩
    rw [List.length_append, List.length_append, length_be32] at hn
    show (layout closed (b' :: bs)).1.length + 4 ≤ n
    omega

/-! ## Runs -/

variable {s : OutboundPacketStream} {a : OpenStack} {cap : Nat}

theorem Rep.front_prefix (h : Rep cap s a) : a.front <+: s.data := by
  have := List.take_prefix a.front.length s.data
  rwa [h.front_bytes] at this

theorem Rep.describes (h : Rep cap s a) (hi : OpenStack.Inv cap a) (hcap : cap < 2 ^ 31) : Describes s a.elements where
  message := by
    rw [OpenStack.elements_top hi, ← h.message]
    rfl
  ready := by
    rw [h.isReady, OpenStack.elements_nil]
    refine ⟨fun hr => hr.2, fun ho => ⟨?_, ho⟩⟩
    have hm : ¬ a.inMessage = true := fun hm => (hi.message hm).1 ho
    simpa using hm
  outer := by
    intro e he
    rw [OpenStack.elements_tail] at he
    obtain ⟨p, -, rfl⟩ := List.mem_map.mp he
    rfl
  pointer := by rw [h.ptr, OpenStack.elements_head]
  links := by
    have hc := h.capacity
    rw [OpenStack.elements_slots, h.cursor]
    exact layout_linked hi.heads h.front_prefix (Nat.le_refl _) (by omega)

/-- The element that an end closes is measured. -/
theorem Rep.measured {s' : OutboundPacketStream} {a' : OpenStack} {op : Op}
    (hstep : OpenStack.step cap op a = .ok a') (h : Rep cap s' a') (hcap : cap < 2 ^ 31) :
      Measured op a.elements s' := by
  intro hop e e' rest hstack
  obtain ⟨c, hc, rfl⟩ : ∃ c : OpenStack, slots c.closed c.opens = slots a.closed a.opens ∧ a' = c.pop := by
    rcases hop with rfl | rfl
    · simp only [OpenStack.step] at hstep
      split at hstep
      · cases hstep
      · split at hstep
        · cases hstep
        · cases hstep
          exact ⟨a, rfl, rfl⟩
    · simp only [OpenStack.step] at hstep
      split at hstep
      · cases hstep
      · cases hstep
        exact ⟨a.finish, OpenStack.slots_grow _, rfl⟩
  have hslots : slots c.closed c.opens = e.slot :: e'.slot :: rest.map Element.slot := by
    rw [hc, ← OpenStack.elements_slots, hstack]
    rfl
  cases ho : c.opens with
  | nil => rw [ho] at hslots; cases hslots
  | cons b bs =>
    cases bs with
    | nil => rw [ho] at hslots; simp [slots] at hslots
    | cons b' bs =>
      rw [ho] at hslots
      have hslot : (Outbound.layout c.closed (b' :: bs)).1.length = e.slot := (List.cons.inj hslots).1
      have hlen : b.length ≤ s'.data.length := by
        have := h.front_prefix.length_le
        rw [OpenStack.length_front_pop, OpenStack.front, ho, length_layout] at this
        omega
      have hcap' := h.capacity
      have := OpenStack.pop_measured ho (by omega) rfl h.front_prefix
      rw [hslot] at this
      rw [this, h.cursor]

theorem Rep.answers (h : Rep cap s a) (hi : OpenStack.Inv cap a) (hcap : cap < 2 ^ 31) {op : Op} (hop : op.Fits) :
    Answers op s a.elements := by
  have hm := stream_refines hcap op s a hop ⟨h, hi⟩
  unfold Answers
  cases hg : guardOf a.elements op with
  | some e =>
    rw [OpenStack.step_guard hi hg] at hm
    exact hm
  | none =>
    cases hs : OpenStack.step cap op a with
    | error e =>
      obtain ⟨hends, rfl⟩ := OpenStack.step_space hi hg hs
      rw [hs] at hm
      rw [show apply op s = err _ from hm]
      exact ⟨hends, rfl⟩
    | ok a' =>
      rw [hs] at hm
      obtain ⟨s', he, hr, -⟩ := hm
      rw [he]
      exact Rep.measured hs hr hcap

theorem seen_settle (hcap : cap < 2 ^ 31) (op : Op) (s : OutboundPacketStream) (a : OpenStack) (hop : op.Fits)
    (hr : Rep cap s a ∧ OpenStack.Inv cap a) :
    seen op s a.elements = (settle (OpenStack.step cap) op a).elements := by
  have hm := stream_refines hcap op s a hop hr
  unfold seen settle
  cases hs : OpenStack.step cap op a with
  | error e =>
    rw [hs] at hm
    rw [show apply op s = err _ from hm]
  | ok a' =>
    rw [hs] at hm
    obtain ⟨s', he, -⟩ := hm
    rw [he]
    exact OpenStack.moved_step hr.1.cursor hs

/-- A buffer below `2 ^ 31` bytes, any calls in any order, exceptions caught: the stream is
    described by the stack of what was begun and not ended, which decides every further call;
    the calls that throw can be left out. -/
theorem links (buffer : Bytes) (hcap : buffer.length < 2 ^ 31) (ops : List Op) (hops : ∀ op ∈ ops, op.Fits) :
    ∃ s, runCaught apply ops (.mk' buffer) = ok s ∧ Describes s (stackOf ops buffer) ∧
      (∀ op : Op, op.Fits → Answers op s (stackOf ops buffer)) ∧
      runAll apply (returning apply ops (.mk' buffer)) (.mk' buffer) = ok s := by
  have hrefines := stream_refines hcap
  have hinit : Rep buffer.length (.mk' buffer) .empty ∧ OpenStack.Inv buffer.length .empty :=
    ⟨mk'_rep buffer, OpenStack.empty_inv buffer.length⟩
  obtain ⟨s, he, hr, hi⟩ := hrefines.caught hops hinit
  obtain ⟨s', he', hall⟩ := hrefines.returning hops hinit
  have hstack : stackOf ops buffer = (settleAll (OpenStack.step buffer.length) ops .empty).elements :=
    hrefines.watch (seen_settle hcap) hops hinit
  obtain rfl : s' = s := Out.ok.inj (he'.symm.trans he)
  rw [hstack]
  exact ⟨s', he, hr.describes hi hcap, fun op hop => hr.answers hi hcap hop, hall⟩

/-- A message in a bundle in a bundle, and an `EndBundle` too early. -/
def nestedRun : List Op := [.beginBundle 1, .beginBundle 2, .beginMessageN [ch '/', ch 'a'], .endBundle]

theorem links_nestedRun : ∃ s, runCaught apply nestedRun (.mk' (List.replicate 64 255)) = ok s ∧
    Describes s [⟨.message, 36⟩, ⟨.bundle, 16⟩, ⟨.bundle, 0⟩] := by
  obtain ⟨s, he, hd, -⟩ := links (List.replicate 64 255) (by decide) nestedRun (by
    intro op hop
    simp only [nestedRun, List.mem_cons, List.not_mem_nil, or_false] at hop
    rcases hop with rfl | rfl | rfl | rfl <;> first | trivial | (show 2 + 4 < 2 ^ 32; decide))
  have hstack : stackOf nestedRun (List.replicate 64 255) = [⟨.message, 36⟩, ⟨.bundle, 16⟩, ⟨.bundle, 0⟩] := by
    decide +kernel
  exact ⟨s, he, hstack ▸ hd⟩

end OscTap.Outbound
