/-
  OscTap.Listener.Plan — what a packet makes a listener do, apart from `ProcessMessage`.

  A plan is the list of a packet's events and, when the packet is malformed, the exception
  that comes behind them. It depends on the bytes and on the depth that is left, and on
  nothing else: `Plan.replay` goes through the events until `ProcessMessage` throws.

  `Found` says what there is to dispatch in a buffer, whatever its bytes: the messages in wire
  order, with one skipped bundle in the place of each that is nested too deeply, up to the first
  element that is neither a message nor a bundle.

  Proved: `dispatch_replays`: every buffer has a plan at every bound, its events are what is
  found in the buffer, and `ProcessPacket` replays it, whatever `ProcessMessage` does.
-/
import OscTap.Listener.Agreement
import OscTap.Received.Meaning

namespace OscTap.Listener

open OscTap.Lib OscTap.Lib.Out OscTap.Osc OscTap.Received

/-! ## Plans -/

structure Plan where
  events : List Event
  stop : Option Exn
  deriving DecidableEq, Repr

def perform (handler : Handler) (trace : List Event) (e : Event) : Out (Thrown × List Event) (List Event) :=
  match e with
  | .message r => if handler trace r then err (.handler, trace ++ [e]) else ok (trace ++ [e])
  | .skipped _ => ok (trace ++ [e])

namespace Plan

def replay (handler : Handler) (plan : Plan) (trace : List Event) : Out (Thrown × List Event) (List Event) := do
  let trace ← plan.events.foldlM (perform handler) trace
  match plan.stop with
  | none => ok trace
  | some e => err (.exn e, trace)

/-- One plan behind another; an exception ends the first. -/
def append (first second : Plan) : Plan :=
  match first.stop with
  | none => ⟨first.events ++ second.events, second.stop⟩
  | some e => ⟨first.events, some e⟩

theorem replay_append (handler : Handler) (first second : Plan) (trace : List Event) :
    (first.append second).replay handler trace = first.replay handler trace >>= second.replay handler := by
  obtain ⟨events, stop⟩ := first
  cases stop with
  | none => simp only [append, replay, List.foldlM_append, bind_assoc, ok_bind]
  | some e => simp only [append, replay, bind_assoc, err_bind]

end Plan

/-- The outcome for a listener whose members stay as they are. -/
def onListener (l : OscPacketListener) : Out (Thrown × List Event) (List Event) → Out (Thrown × Dispatch) Dispatch
  | ok trace => ok ⟨l, trace⟩
  | err e => err (e.1, ⟨l, e.2⟩)
  | fault f => fault f

theorem onListener_bind (l : OscPacketListener) (x : Out (Thrown × List Event) (List Event))
    {f : List Event → Out (Thrown × List Event) (List Event)} {g : Dispatch → Out (Thrown × Dispatch) Dispatch}
    (h : ∀ trace, g ⟨l, trace⟩ = onListener l (f trace)) : (onListener l x >>= g) = onListener l (x >>= f) := by
  cases x with
  | ok trace => exact h trace
  | err e => rfl
  | fault f => rfl

/-! ## The plan of a packet -/

/-- The messages of a packet, and its bundles that are `d` deep. -/
def reached : Nat → PacketTree → List PacketTree
  | 0, t => [t]
  | _ + 1, .message address arguments => [.message address arguments]
  | d + 1, .bundle _ elements => elements.flatMap (reached d)

/-- The event of a message that is dispatched, or of a bundle that is skipped. -/
inductive Seen (m : Bytes) : Event → PacketTree → Prop
  | message {r : ReceivedMessage} {d : Decoded} : r.decode m = ok d →
    Seen m (.message r) (.message d.address d.arguments)
  | skipped {b : ReceivedBundle} {timeTag : UInt64} {elements : List PacketTree} : b.elementCount = elements.length →
      UInt64.ofNat <$> rd64 (ε := Exn) m b.timeTag = ok timeTag → Seen m (.skipped b) (.bundle timeTag elements)

variable {m : Bytes} {p : Nat} {size : Int} {handler : Handler} {l : OscPacketListener}

/-- The message in `[p, p + size)`. -/
def MeansMessage (m : Bytes) (p : Nat) (size : Int) (d : Decoded) : Prop :=
  SizeOk size ∧ m[p]? ≠ some (ch '#') ∧ Spells m p (p + size.toNat) d

mutual

/-- What is found in a range, at the depth that is left; `whole` is false where an
    element is neither a message nor a bundle. The elements of a skipped bundle are not looked at. -/
inductive Found (m : Bytes) : Nat → Nat → Int → List PacketTree → Bool → Prop
  | message {d p : Nat} {size : Int} {x : Decoded} : MeansMessage m p size x →
      Found m d p size [.message x.address x.arguments] true
  | skipped {p : Nat} {size : Int} {es : List (Nat × Nat)} {elements : List PacketTree} : IsBundle m p size es →
      elements.length = es.length → Found m 0 p size [.bundle (timeTagAt m p) elements] true
  | bundle {d p : Nat} {size : Int} {es : List (Nat × Nat)} {ts : List PacketTree}
    {whole : Bool} : IsBundle m p size es →
      FoundOf m d es ts whole → Found m (d + 1) p size ts whole
  | malformed {d p : Nat} {size : Int} : (∀ x, ¬ MeansMessage m p size x) → (∀ es, ¬ IsBundle m p size es) →
      Found m d p size [] false

/-- The elements one behind the other, up to the first that is not read to its end. -/
inductive FoundOf (m : Bytes) : Nat → List (Nat × Nat) → List PacketTree → Bool → Prop
  | nil {d : Nat} : FoundOf m d [] [] true
  | cons {d : Nat} {x : Nat × Nat} {es : List (Nat × Nat)} {ts ts' : List PacketTree} {whole : Bool} :
      Found m d x.1 x.2 ts true → FoundOf m d es ts' whole → FoundOf m d (x :: es) (ts ++ ts') whole
  | stop {d : Nat} {x : Nat × Nat} {es : List (Nat × Nat)} {ts : List PacketTree} : Found m d x.1 x.2 ts false →
      FoundOf m d (x :: es) ts false

end

theorem FoundOf.total {d : Nat} (h : ∀ p size, ∃ ts whole, Found m d p size ts whole) :
    ∀ es, ∃ ts whole, FoundOf m d es ts whole
  | [] => ⟨[], true, .nil⟩
  | x :: es => by
    obtain ⟨ts, whole, hx⟩ := h x.1 x.2
    cases whole with
    | false => exact ⟨ts, false, .stop hx⟩
    | true =>
      obtain ⟨ts', whole, hes⟩ := FoundOf.total h es
      exact ⟨ts ++ ts', whole, .cons hx hes⟩

/-- Something is found in every range, if only that it is malformed. -/
theorem Found.total (m : Bytes) : ∀ (d p : Nat) (size : Int), ∃ ts whole, Found m d p size ts whole := by
  intro d
  induction d with
  | zero =>
    intro p size
    by_cases hb : ∃ es, IsBundle m p size es
    · exact ⟨_, true, .skipped hb.choose_spec (List.length_replicate (a := .message [] []))⟩
    · by_cases hx : ∃ x, MeansMessage m p size x
      · exact ⟨_, true, .message hx.choose_spec⟩
      · exact ⟨[], false, .malformed (not_exists.mp hx) (not_exists.mp hb)⟩
  | succ d ih =>
    intro p size
    by_cases hb : ∃ es, IsBundle m p size es
    · obtain ⟨es, hb⟩ := hb
      obtain ⟨ts, whole, hes⟩ := FoundOf.total ih es
      exact ⟨ts, whole, .bundle hb hes⟩
    · by_cases hx : ∃ x, MeansMessage m p size x
      · exact ⟨_, true, .message hx.choose_spec⟩
      · exact ⟨[], false, .malformed (not_exists.mp hx) (not_exists.mp hb)⟩

theorem Found.nothing {d : Nat} {ts : List PacketTree} {whole : Bool} (h : Found m d p size ts whole)
    (hs : ¬ SizeOk size) :
    ts = [] ∧ whole = false := by
  cases h with
  | message h => exact absurd h.1 hs
  | skipped h _ => exact absurd h.1 hs
  | bundle h _ => exact absurd h.1 hs
  | malformed _ _ => exact ⟨rfl, rfl⟩

/-- In a packet all of it that is in reach is found. -/
theorem Means.found (t : PacketTree) : ∀ {d p : Nat} {size : Int}, Means m p size t →
    Found m d p size (reached d t) true := by
  induction t using PacketTree.induction with
  | message address arguments =>
    intro d p size h
    cases h with
    | message hs hh hx => cases d <;> exact .message ⟨hs, hh, hx⟩
  | bundle timeTag elements ih =>
    intro d p size h
    cases h with
    | bundle hb hall =>
      cases d with
      | zero => exact .skipped hb hall.length_eq.symm
      | succ d =>
        refine .bundle hb ?_
        clear hb
        induction hall with
        | nil => exact .nil
        | cons hx _ ihs =>
          exact .cons (ih _ (List.mem_cons_self ..) hx) (ihs fun e he => ih e (List.mem_cons_of_mem _ he))

/-- A plan goes through what is found. -/
def Plan.Covers (m : Bytes) (plan : Plan) (ts : List PacketTree) (whole : Bool) : Prop :=
  plan.stop.isNone = whole ∧ List.Forall₂ (Seen m) plan.events ts

theorem Plan.Covers.append {first second : Plan} {ts ts' : List PacketTree} {whole : Bool} (h : first.Covers m ts true)
    (h' : second.Covers m ts' whole) : (first.append second).Covers m (ts ++ ts') whole := by
  rw [Plan.Covers, Plan.append, Option.isNone_iff_eq_none.mp h.1]
  exact ⟨h'.1, List.rel_append h.2 h'.2⟩

theorem Plan.Covers.stop {first : Plan} (second : Plan) {ts : List PacketTree} (h : first.Covers m ts false) :
    (first.append second).Covers m ts false := by
  obtain ⟨hstop, hseen⟩ := h
  obtain ⟨events, stop⟩ := first
  cases stop with
  | none => cases hstop
  | some e => exact ⟨rfl, hseen⟩

/-- What the listener does with one packet, at the depth that is left. -/
structure Plans (m : Bytes) (d p : Nat) (size : Int) (plan : Plan) : Prop where
  replays : ∀ handler fuel (l : OscPacketListener) trace,
    l.maxBundleNestingDepth - l.bundleNestingDepth = d → d ≤ fuel →
    processContents m handler (processBundle m handler fuel) p size ⟨l, trace⟩ =
      onListener l (plan.replay handler trace)
  covers : ∀ ts whole, Found m d p size ts whole → plan.Covers m ts whole

/-- Contents that do not parse: nothing is done. -/
theorem plans_malformed {d : Nat} {e : Exn} (h : ∀ handler bundle (s : Dispatch),
    processContents m handler bundle p size s = err (.exn e, s)) (hx : ∀ x, ¬ MeansMessage m p size x)
    (hb : ∀ es, ¬ IsBundle m p size es) : Plans m d p size ⟨[], some e⟩ := by
  refine ⟨fun handler _ _ _ _ _ => h handler _ _, fun ts whole hfound => ?_⟩
  cases hfound with
  | message h => exact absurd h (hx _)
  | skipped h _ => exact absurd h (hb _)
  | bundle h _ => exact absurd h (hb _)
  | malformed _ _ => exact ⟨rfl, .nil⟩

theorem plans_message (d : Nat) (hl : p + size.toNat ≤ m.length) (hh : ¬ (0 < size ∧ m[p]? = some (ch '#'))) :
    ∃ plan, Plans m d p size plan := by
  have hbundle : ∀ es, ¬ IsBundle m p size es := fun es hb => hh ⟨hb.1.1, bundleTag_head hb.2.2.1⟩
  rcases (message_decides hl).ok_or_err with ⟨r, hr, hs, -, hm⟩ | ⟨e, he, hnone⟩
  · refine ⟨⟨[.message r], none⟩, fun handler fuel l trace _ _ => ?_, fun ts whole hfound => ?_⟩
    · rw [processContents, isBundle_decide hl, ok_bind, decide_eq_false hh, hr]
      simp only [Bool.false_eq_true, if_false, parse, mapErr_ok, ok_bind, processMessage, Plan.replay, List.foldlM_cons,
        List.foldlM_nil, perform]
      split <;> rfl
    · obtain ⟨x', hx', hdecode⟩ := hm.decode hl
      cases hfound with
      | skipped hb _ => exact absurd hb (hbundle _)
      | bundle hb _ => exact absurd hb (hbundle _)
      | malformed hx _ => exact absurd ⟨hs, fun h => hh ⟨hs.1, h⟩, hx'⟩ (hx x')
      | message hx =>
        obtain rfl := hx.2.2.unique hx'
        exact ⟨rfl, .cons (.message hdecode) .nil⟩
  · refine ⟨_, plans_malformed (e := e) (fun handler bundle s => ?_) (fun x hx => ?_) hbundle⟩
    · rw [processContents, isBundle_decide hl, ok_bind, decide_eq_false hh, he]
      rfl
    · obtain ⟨r, hr, hm⟩ := hx.2.2.message size
      exact hnone r ⟨hx.1, hr, hm⟩

/-- The plans of the elements, one behind the other. -/
theorem plans_elements {d : Nat} : ∀ {es : List (Nat × Nat)}, (∀ x ∈ es, ∃ plan, Plans m d x.1 x.2 plan) →
    ∃ plan : Plan, (∀ (handler : Handler) (fuel : Nat) (l : OscPacketListener) (trace : List Event),
      l.maxBundleNestingDepth - l.bundleNestingDepth = d → d ≤ fuel →
      es.foldlM (processElement m handler fuel) ⟨l, trace⟩ = onListener l (plan.replay handler trace)) ∧
      ∀ ts whole, FoundOf m d es ts whole → plan.Covers m ts whole
  | [], _ => ⟨⟨[], none⟩, fun _ _ _ _ _ _ => rfl, fun ts whole hfound => by cases hfound; exact ⟨rfl, .nil⟩⟩
  | x :: es, h => by
    obtain ⟨first, hfirst⟩ := h x (List.mem_cons_self ..)
    obtain ⟨rest, hrest, hcovers⟩ := plans_elements fun y hy => h y (List.mem_cons_of_mem _ hy)
    refine ⟨first.append rest, fun handler fuel l trace hd hfuel => ?_, fun ts whole hfound => ?_⟩
    · rw [List.foldlM_cons, processElement, hfirst.replays handler fuel l trace hd hfuel, Plan.replay_append]
      exact onListener_bind l _ fun trace => hrest handler fuel l trace hd hfuel
    · cases hfound with
      | cons hx hes => exact (hfirst.covers _ _ hx).append (hcovers _ _ hes)
      | stop hx => exact (hfirst.covers _ _ hx).stop rest

theorem depthGuard_onListener {x : Dispatch → Out (Thrown × Dispatch) Dispatch} {trace : List Event}
    {y : Out (Thrown × List Event) (List Event)}
    (h : x ⟨{ l with bundleNestingDepth := l.bundleNestingDepth + 1 }, trace⟩ =
      onListener { l with bundleNestingDepth := l.bundleNestingDepth + 1 } y) :
    depthGuard x ⟨l, trace⟩ = onListener l y := by
  rw [depthGuard, Dispatch.enter, h]
  cases y <;> rfl

theorem plans_bundle (d : Nat) (hl : p + size.toNat ≤ m.length) (hh : 0 < size ∧ m[p]? = some (ch '#'))
    (hx : ∀ d', d = d' + 1 → ∀ es, IsBundle m p size es → ∀ x ∈ es, ∃ plan, Plans m d' x.1 x.2 plan) :
    ∃ plan, Plans m d p size plan := by
  have hmessage : ∀ x, ¬ MeansMessage m p size x := fun x hx => hx.2.1 hh.2
  rcases (bundle_decides hl).ok_or_err with ⟨b, hb, es, hes, rfl⟩ | ⟨e, he, hnone⟩
  · have hparsed : ∀ handler bundle (s : Dispatch), processContents m handler bundle p size s =
        bundle ⟨p + 8, p + size.toNat, es.length⟩ s := by
      intro handler bundle s
      rw [processContents, isBundle_decide hl, ok_bind, decide_eq_true hh, if_pos rfl, hb]
      rfl
    cases d with
    | zero =>
      have hword : UInt64.ofNat <$> rd64 (ε := Exn) m (p + 8) =
        ok (UInt64.ofNat (word m (p + 8) * 2 ^ 32 + word m (p + 12))) := by
        have h16 := hes.2.1
        rw [rd64_of_le (by omega)]
        rfl
      refine ⟨⟨[.skipped ⟨p + 8, p + size.toNat, es.length⟩], none⟩, fun handler fuel l trace hd _ => ?_,
        fun ts whole hfound => ?_⟩
      · rw [hparsed, processBundle_skips (by dsimp only; omega)]
        rfl
      · cases hfound with
        | message h => exact absurd h (hmessage _)
        | malformed _ h => exact absurd hes (h es)
        | skipped hb' hlength =>
          obtain rfl := IsBundle.unique hes hb'
          exact ⟨rfl, .cons (.skipped hlength.symm hword) .nil⟩
    | succ d =>
      obtain ⟨plan, hreplay, hcovers⟩ := plans_elements (hx d rfl es hes)
      refine ⟨plan, fun handler fuel l trace hd hfuel => ?_, fun ts whole hfound => ?_⟩
      · obtain ⟨fuel, rfl⟩ : ∃ n, fuel = n + 1 := ⟨fuel - 1, by omega⟩
        rw [hparsed, processBundle_eq hl hes (by dsimp only; omega)]
        exact depthGuard_onListener (hreplay handler fuel _ trace (by dsimp only; omega) (by omega))
      · cases hfound with
        | message h => exact absurd h (hmessage _)
        | malformed _ h => exact absurd hes (h es)
        | bundle hb' hes' =>
          obtain rfl := IsBundle.unique hes hb'
          exact hcovers _ _ hes'
  · refine ⟨_, plans_malformed (e := e) (fun handler bundle s => ?_) hmessage fun es hb => hnone _ ⟨es, hb, rfl⟩⟩
    rw [processContents, isBundle_decide hl, ok_bind, decide_eq_true hh, if_pos rfl, he]
    rfl

/-- Every range has a plan at every depth. -/
theorem exists_plans (m : Bytes) : ∀ (d p : Nat) (size : Int), p + size.toNat ≤ m.length →
    ∃ plan, Plans m d p size plan := by
  intro d
  induction d with
  | zero =>
    intro p size hl
    by_cases hh : 0 < size ∧ m[p]? = some (ch '#')
    · exact plans_bundle 0 hl hh fun d' h => by cases h
    · exact plans_message 0 hl hh
  | succ d ih =>
    intro p size hl
    by_cases hh : 0 < size ∧ m[p]? = some (ch '#')
    · refine plans_bundle (d + 1) hl hh fun d' h es hes x hx => ?_
      cases h
      have hin := hes.2.2.2.inside x hx
      exact ih x.1 x.2 (by have := hh.1; simp only [Int.toNat_natCast]; omega)
    · exact plans_message (d + 1) hl hh

/-! ## Dispatching a packet -/

/-- What is on the record behind a replay: the events up to the first throw of `ProcessMessage`. -/
theorem Plan.replay_prefix (handler : Handler) (plan : Plan) (trace : List Event) :
    Sat (plan.replay handler trace) (fun t => t = trace ++ plan.events ∧ plan.stop = none)
      fun e => ∃ seen, seen <+: plan.events ∧ e.2 = trace ++ seen ∧ (e.1 = .handler ∨ seen = plan.events) := by
  obtain ⟨events, stop⟩ := plan
  have hfold : Sat (events.foldlM (perform handler) trace) (fun t => t = trace ++ events)
      fun e => ∃ seen, seen <+: events ∧ e.2 = trace ++ seen ∧ e.1 = .handler := by
    induction events generalizing trace with
    | nil => exact (List.append_nil trace).symm
    | cons e events ih =>
      have hnext : Sat (perform handler trace e) (fun t => t = trace ++ [e]) fun x => x.2 = trace ++ [e] ∧
        x.1 = .handler := by
        cases e with
        | message r =>
          rw [perform]
          split
          · exact ⟨rfl, rfl⟩
          · rfl
        | skipped b => rfl
      rw [List.foldlM_cons]
      refine (hnext.mono (fun _ h => h) fun x hx => ⟨[e], by simp, hx⟩).bind fun t ht => ?_
      subst ht
      refine (ih (trace ++ [e])).mono (fun t ht => by simpa using ht) fun x hx => ?_
      obtain ⟨seen, hpre, hx, hthrown⟩ := hx
      exact ⟨e :: seen, by simpa using hpre, by simpa using hx, hthrown⟩
  refine (hfold.mono (fun _ h => h) fun e he => ?_).bind fun t ht => ?_
  · obtain ⟨seen, hpre, he, hthrown⟩ := he
    exact ⟨seen, hpre, he, .inl hthrown⟩
  · cases stop with
    | none => exact ⟨ht, rfl⟩
    | some e => exact ⟨events, List.prefix_refl _, ht, .inr rfl⟩

/-- Where `ProcessMessage` never throws, all events are on the record. -/
theorem Plan.replay_quiet (hq : Quiet handler) (plan : Plan) (trace : List Event) :
    plan.replay handler trace = match plan.stop with
      | none => ok (trace ++ plan.events)
      | some e => err (.exn e, trace ++ plan.events) := by
  have hfold : plan.events.foldlM (perform handler) trace = ok (trace ++ plan.events) := by
    induction plan.events generalizing trace with
    | nil => exact congrArg ok (List.append_nil trace).symm
    | cons e events ih =>
      have hnext : perform handler trace e = ok (trace ++ [e]) := by
        cases e with
        | message r => rw [perform, hq]; rfl
        | skipped b => rfl
      rw [List.foldlM_cons, hnext, ok_bind, ih, List.append_assoc]
      rfl
  rw [Plan.replay, hfold, ok_bind]

/-- The outcome of a replay: all events are on the record, or those up to the throw. -/
theorem Plan.outcome (handler : Handler) (plan : Plan) (l : OscPacketListener) (trace : List Event) :
    Sat (onListener l (plan.replay handler trace)) (fun s => s = ⟨l, trace ++ plan.events⟩ ∧ plan.stop = none)
      fun e => ∃ seen, seen <+: plan.events ∧ e.2 = ⟨l, trace ++ seen⟩ ∧ (e.1 = .handler ∨ seen = plan.events) := by
  have hreplayed := plan.replay_prefix handler trace
  cases hx : plan.replay handler trace with
  | ok t =>
    rw [hx] at hreplayed
    exact ⟨by rw [hreplayed.1], hreplayed.2⟩
  | err e =>
    rw [hx] at hreplayed
    obtain ⟨seen, hpre, he, hthrown⟩ := hreplayed
    exact ⟨seen, hpre, by rw [he], hthrown⟩
  | fault f =>
    rw [hx] at hreplayed
    exact hreplayed

/-- The plan of a buffer, for a listener with a given bound. -/
theorem packet_plan {l : OscPacketListener} (hr : Reachable l) (m : Bytes) (size : Int) (hm : m.length = size.toNat) :
    ∃ plan : Plan, (∀ handler trace, processPacket m handler size ⟨l, trace⟩ =
      onListener l (plan.replay handler trace)) ∧
      ∀ ts whole, Found m l.maxBundleNestingDepth 0 size ts whole → plan.Covers m ts whole := by
  have hdepth : l.maxBundleNestingDepth - l.bundleNestingDepth = l.maxBundleNestingDepth :=
    by rw [reachable_depth hr]; rfl
  by_cases hs : SizeOk size
  · obtain ⟨plan, hreplay, hcovers⟩ := exists_plans m l.maxBundleNestingDepth 0 size (by omega)
    refine ⟨plan, fun handler trace => ?_, hcovers⟩
    rw [processPacket_eq hs]
    exact hreplay handler _ l trace hdepth (Nat.le_refl _)
  · cases hv : ReceivedPacket.validateSizeNoThrow size with
    | none => exact absurd (validateSizeNoThrow_none.mp hv) hs
    | some e =>
      refine ⟨⟨[], some (.malformedPacket e)⟩, fun handler trace => ?_, fun ts whole hfound => ?_⟩
      · rw [processPacket, ReceivedPacket.mk', hv]
        rfl
      · obtain ⟨rfl, rfl⟩ := hfound.nothing hs
        exact ⟨rfl, .nil⟩

/-- Every buffer has one plan for a listener with a given bound: its events are what there is to
    dispatch in front of the first element that is neither a message nor a bundle, and it stops
    with an exception there, if there is such an element. Whatever `ProcessMessage` does, the call
    goes through the plan up to the first throw and leaves the listener as it was. In a packet
    there is no such element: the plan is its messages in wire order, with the bundles that are
    too deep skipped. -/
theorem dispatch_replays {l : OscPacketListener} (hr : Reachable l) (m : Bytes) (size : Int)
    (hm : m.length = size.toNat) :
    ∃ plan : Plan, (∀ handler trace, processPacket m handler size ⟨l, trace⟩ =
      onListener l (plan.replay handler trace)) ∧
      (∀ handler trace, Sat (processPacket m handler size ⟨l, trace⟩)
        (fun s => s = ⟨l, trace ++ plan.events⟩ ∧ plan.stop = none)
        fun e => ∃ seen, seen <+: plan.events ∧ e.2 = ⟨l, trace ++ seen⟩ ∧ (e.1 = .handler ∨ seen = plan.events)) ∧
      (∃ ts, Found m l.maxBundleNestingDepth 0 size ts plan.stop.isNone) ∧
      (∀ ts whole, Found m l.maxBundleNestingDepth 0 size ts whole →
        plan.stop.isNone = whole ∧ List.Forall₂ (Seen m) plan.events ts) ∧
      ∀ t, Means m 0 size t → plan.stop = none ∧
        List.Forall₂ (Seen m) plan.events (reached l.maxBundleNestingDepth t) := by
  obtain ⟨plan, hreplay, hcovers⟩ := packet_plan hr m size hm
  obtain ⟨ts, whole, hfound⟩ := Found.total m l.maxBundleNestingDepth 0 size
  obtain rfl := (hcovers ts whole hfound).1
  refine ⟨plan, hreplay, fun handler trace => ?_, ⟨ts, hfound⟩, hcovers, fun t ht => ?_⟩
  · rw [hreplay]
    exact plan.outcome handler l trace
  · obtain ⟨hstop, hseen⟩ := hcovers _ _ (Means.found t ht)
    exact ⟨Option.isNone_iff_eq_none.mp hstop, hseen⟩

theorem dispatch_replays_oneMessageBundle : ∃ plan : Plan, plan.stop = none ∧ plan.events.length = 1 ∧
    ∀ handler trace, processPacket oneMessageBundle handler 32 ⟨.fresh, trace⟩ =
      onListener .fresh (plan.replay handler trace) := by
  obtain ⟨plan, hreplay, houtcome, -⟩ := dispatch_replays .fresh oneMessageBundle 32 rfl
  have hquiet : processPacket oneMessageBundle (fun _ _ => false) 32 ⟨.fresh, []⟩ =
      ok ⟨.fresh, [.message ⟨20, some 25, some 26, some 28, 12⟩]⟩ := by decide +kernel
  obtain ⟨htrace, hstop⟩ := (houtcome (fun _ _ => false) []).ok_of_eq hquiet
  exact ⟨plan, hstop, by simpa using congrArg (fun s => s.trace.length) htrace.symm, hreplay⟩

end OscTap.Listener
