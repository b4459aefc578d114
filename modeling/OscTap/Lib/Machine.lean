/-
  OscTap.Lib.Machine — machines whose operations may throw, and refinement between them.

  An operation of the concrete machine ends with a state, or with an exception and the state
  at the throw, or faults; one of the abstract machine ends with a state or an exception. In
  a run the exceptions are caught and the run goes on (`runCaught`), or the first one ends it
  (`runAll`). `Refines` says for one operation that the concrete machine does what the
  abstract one does, and that a throw leaves the state as it was; `Refines.caught` and
  `Refines.all` say it for runs.
-/
import OscTap.Lib.Checked

namespace OscTap.Lib

open Out

variable {O S A E : Type}

/-- The state behind a call whose exception is caught. -/
def attempt (x : Out (E × S) S) : Out Empty S :=
  match x with
  | ok s => ok s
  | err e => ok e.2
  | fault f => fault f

def runCaught (step : O → S → Out (E × S) S) (ops : List O) (s : S) : Out Empty S :=
  ops.foldlM (fun s op => attempt (step op s)) s

def runAll (step : O → S → Out (E × S) S) (ops : List O) (s : S) : Out (E × S) S := ops.foldlM (fun s op => step op s) s

def settle (astep : O → A → Except E A) (op : O) (a : A) : A :=
  match astep op a with
  | .ok a' => a'
  | .error _ => a

def settleAll (astep : O → A → Except E A) (ops : List O) (a : A) : A := ops.foldl (fun a op => settle astep op a) a

def askAll (astep : O → A → Except E A) (ops : List O) (a : A) : Except E A := ops.foldlM (fun a op => astep op a) a

theorem askAll_cons (astep : O → A → Except E A) (op : O) (ops : List O) (a : A) :
    askAll astep (op :: ops) a = astep op a >>= askAll astep ops := List.foldlM_cons

theorem askAll_append (astep : O → A → Except E A) (xs ys : List O) (a : A) :
    askAll astep (xs ++ ys) a = askAll astep xs a >>= askAll astep ys := List.foldlM_append

/-- One concrete outcome for one abstract outcome. -/
def Matches (R : S → A → Prop) (s : S) (x : Out (E × S) S) (y : Except E A) : Prop :=
  match y with
  | .ok a => ∃ s', x = ok s' ∧ R s' a
  | .error e => x = err (e, s)

/-- One concrete outcome for one abstract outcome, of a whole run: a throw may leave a later state. -/
def EndsAs (R : S → A → Prop) (x : Out (E × S) S) (y : Except E A) : Prop :=
  match y with
  | .ok a => ∃ s, x = ok s ∧ R s a
  | .error e => ∃ s, x = err (e, s)

/-- On the operations of `Fit` the concrete machine does what the abstract one does. -/
def Refines (step : O → S → Out (E × S) S) (astep : O → A → Except E A) (R : S → A → Prop) (Fit : O → Prop) : Prop :=
  ∀ op s a, Fit op → R s a → Matches R s (step op s) (astep op a)

/-- The state behind a call that does not fault, its exception caught. -/
def after (step : O → S → Out (E × S) S) (op : O) (s : S) : S :=
  match step op s with
  | ok s' => s'
  | err e => e.2
  | fault _ => s

/-- The calls of a run that count, each in the state it finds. -/
def countWhere (step : O → S → Out (E × S) S) (p : O → S → Bool) : List O → S → Nat
  | [], _ => 0
  | op :: ops, s => (if p op s then 1 else 0) + countWhere step p ops (after step op s)

/-- Every call of a run meets a condition in the state it finds. -/
def Throughout (step : O → S → Out (E × S) S) (P : O → S → Prop) : List O → S → Prop
  | [], _ => True
  | op :: ops, s => P op s ∧ Throughout step P ops (after step op s)

instance Throughout.decidable (step : O → S → Out (E × S) S) (P : O → S → Prop) [∀ op s, Decidable (P op s)] :
    ∀ (ops : List O) (s : S), Decidable (Throughout step P ops s)
  | [], _ => .isTrue trivial
  | op :: ops, s =>
    have := Throughout.decidable step P ops (after step op s)
    inferInstanceAs (Decidable (_ ∧ _))

theorem Throughout.of_append {step : O → S → Out (E × S) S} {P : O → S → Prop} : ∀ {xs ys : List O} {s : S},
    Throughout step P (xs ++ ys) s → Throughout step P xs s
  | [], _, _, _ => trivial
  | _ :: _, _, _, h => ⟨h.1, h.2.of_append⟩

theorem countWhere_append_le (step : O → S → Out (E × S) S) (p : O → S → Bool) : ∀ (xs ys : List O) (s : S),
    countWhere step p xs s ≤ countWhere step p (xs ++ ys) s
  | [], _, _ => Nat.zero_le _
  | _ :: xs, ys, _ => Nat.add_le_add_left (countWhere_append_le step p xs ys _) _

def returning (step : O → S → Out (E × S) S) : List O → S → List O
  | [], _ => []
  | op :: ops, s =>
    match step op s with
    | ok s' => op :: returning step ops s'
    | err e => returning step ops e.2
    | fault _ => returning step ops s

def thrown (step : O → S → Out (E × S) S) : List O → S → List (Option E)
  | [], _ => []
  | op :: ops, s =>
    match step op s with
    | ok s' => none :: thrown step ops s'
    | err e => some e.1 :: thrown step ops e.2
    | fault _ => none :: thrown step ops s

/-- The exceptions of the abstract run. -/
def refused (astep : O → A → Except E A) : List O → A → List (Option E)
  | [], _ => []
  | op :: ops, a =>
    match astep op a with
    | .ok a' => none :: refused astep ops a'
    | .error e => some e :: refused astep ops a

/-- What an observer of the calls and of the states they find has seen behind a run. -/
def watch {G : Type} (step : O → S → Out (E × S) S) (see : O → S → G → G) : List O → S → G → G
  | [], _, g => g
  | op :: ops, s, g => watch step see ops (after step op s) (see op s g)

variable {step : O → S → Out (E × S) S} {astep : O → A → Except E A} {R : S → A → Prop} {Fit : O → Prop}

theorem after_of_attempt {op : O} {s s' : S} (h : Lib.attempt (step op s) = ok s') : after step op s = s' := by
  unfold after
  cases hx : step op s with
  | ok x => rw [hx] at h; exact Out.ok.inj h
  | err e => rw [hx] at h; exact Out.ok.inj h
  | fault f => rw [hx] at h; cases h

theorem runCaught_cons {op : O} {ops : List O} {s s' : S} (h : Lib.attempt (step op s) = ok s') :
    runCaught step (op :: ops) s = runCaught step ops s' := by
  rw [runCaught, List.foldlM_cons, h]; rfl

theorem runAll_append (step : O → S → Out (E × S) S) (xs ys : List O) (s : S) :
    runAll step (xs ++ ys) s = runAll step xs s >>= runAll step ys := List.foldlM_append

theorem runAll_cons {op : O} {ops : List O} {s s' : S} (h : runAll step (op :: ops) s = ok s') :
    ∃ s₁, step op s = ok s₁ ∧ runAll step ops s₁ = ok s' := by
  rw [runAll, List.foldlM_cons] at h
  cases hx : step op s with
  | ok s₁ => exact ⟨s₁, rfl, by rw [hx] at h; exact h⟩
  | err e => rw [hx] at h; cases h
  | fault f => rw [hx] at h; cases h

/-- A run in which nothing is thrown. -/
theorem runCaught_of_all : ∀ {ops : List O} {s s' : S}, runAll step ops s = ok s' → runCaught step ops s = ok s'
  | [], _, _, h => congrArg ok (Out.ok.inj h)
  | op :: ops, s, s', h => by
    obtain ⟨s₁, h1, h2⟩ := runAll_cons h
    rw [runCaught_cons (by rw [h1]; rfl)]
    exact runCaught_of_all h2

/-- The second part of a run, in the state that the first part leaves. -/
theorem Throughout.append_right {P : O → S → Prop} : ∀ {xs ys : List O} {s s' : S}, Throughout step P (xs ++ ys) s →
    runCaught step xs s = ok s' → Throughout step P ys s'
  | [], _, _, _, h, hr => Out.ok.inj hr ▸ h
  | op :: xs, ys, s, s', h, hr => by
    rw [runCaught, List.foldlM_cons] at hr
    obtain ⟨s₁, h1, h2⟩ := bind_eq_ok.mp hr
    exact Throughout.append_right (after_of_attempt h1 ▸ h.2) h2

/-- What every call that meets its condition keeps, a run of such calls keeps. -/
theorem Throughout.caught {P : O → S → Prop} {I : S → Prop} : ∀ {ops : List O} {s : S},
    (∀ op ∈ ops, ∀ s, P op s → I s → ∃ s', Lib.attempt (step op s) = ok s' ∧ I s') → Throughout step P ops s → I s →
    ∃ s', runCaught step ops s = ok s' ∧ I s'
  | [], s, _, _, hi => ⟨s, rfl, hi⟩
  | op :: ops, s, h, hp, hi => by
    obtain ⟨s₁, h1, hi1⟩ := h op (List.mem_cons_self ..) s hp.1 hi
    have hrest := hp.2
    rw [after_of_attempt h1] at hrest
    obtain ⟨s₂, h2, hi2⟩ := Throughout.caught (fun o ho => h o (List.mem_cons_of_mem _ ho)) hrest hi1
    exact ⟨s₂, by rw [runCaught_cons h1, h2], hi2⟩

/-- What every call keeps together with what an observer has noted of the calls, a run keeps. -/
theorem Throughout.observed {G : Type} (note : O → G → G) {P : O → S → Prop} (I : G → S → Prop) :
    ∀ {ops : List O} {s : S} {g : G}, Throughout step P ops s → I g s →
    (∀ op ∈ ops, ∀ g s, P op s → I g s → ∃ s', Lib.attempt (step op s) = ok s' ∧ I (note op g) s') →
    ∃ s', runCaught step ops s = ok s' ∧ I (ops.foldl (fun g op => note op g) g) s'
  | [], s, _, _, hi, _ => ⟨s, rfl, hi⟩
  | op :: ops, s, g, hp, hi, h => by
    obtain ⟨s₁, h1, hi1⟩ := h op (List.mem_cons_self ..) g s hp.1 hi
    have hrest := hp.2
    rw [after_of_attempt h1] at hrest
    obtain ⟨s₂, h2, hi2⟩ := Throughout.observed note I hrest hi1 fun o ho => h o (List.mem_cons_of_mem _ ho)
    exact ⟨s₂, by rw [runCaught_cons h1, h2], hi2⟩

/-- When every call either meets a condition and goes on, or does not and faults, so does a run
    of them: it goes on exactly when all its calls meet the condition. -/
theorem Throughout.decides {P Q : O → S → Prop} {I : S → Prop} {F : Fault → Prop}
    (h : ∀ op s, Q op s → I s → (P op s ∧ ∃ s', Lib.attempt (step op s) = ok s' ∧ I s') ∨
      (¬ P op s ∧ ∃ f, Lib.attempt (step op s) = fault f ∧ F f)) : ∀ {ops : List O} {s : S},
        Throughout step Q ops s → I s →
    (Throughout step P ops s ∧ ∃ s', runCaught step ops s = ok s' ∧ I s') ∨
      (¬ Throughout step P ops s ∧ ∃ f, runCaught step ops s = fault f ∧ F f)
  | [], s, _, hi => .inl ⟨trivial, s, rfl, hi⟩
  | op :: ops, s, hq, hi => by
    rcases h op s hq.1 hi with ⟨hp, s₁, h1, hi1⟩ | ⟨hp, f, hf, hF⟩
    · have hrest := hq.2
      rw [Throughout, runCaught_cons h1, after_of_attempt h1]
      rw [after_of_attempt h1] at hrest
      rcases Throughout.decides h hrest hi1 with ⟨hps, h2⟩ | ⟨hps, h2⟩
      · exact .inl ⟨⟨hp, hps⟩, h2⟩
      · exact .inr ⟨fun hc => hps hc.2, h2⟩
    · refine .inr ⟨fun hc => hp hc.1, f, ?_, hF⟩
      rw [runCaught, List.foldlM_cons, hf]
      rfl

theorem Refines.attempt (h : Refines step astep R Fit) {op : O} {s : S} {a : A} (hop : Fit op) (hr : R s a) :
    ∃ s', Lib.attempt (step op s) = ok s' ∧ R s' (settle astep op a) := by
  have hm := h op s a hop hr
  rw [settle]
  cases ha : astep op a with
  | ok a' =>
    rw [ha] at hm
    obtain ⟨s', he, hr'⟩ := hm
    exact ⟨s', by rw [he]; rfl, hr'⟩
  | error e =>
    rw [ha] at hm
    exact ⟨s, by rw [show step op s = _ from hm]; rfl, hr⟩

theorem Refines.caught (h : Refines step astep R Fit) {ops : List O} (hops : ∀ op ∈ ops, Fit op) {s : S} {a : A}
    (hr : R s a) : ∃ s', runCaught step ops s = ok s' ∧ R s' (settleAll astep ops a) := by
  induction ops generalizing s a with
  | nil => exact ⟨s, rfl, hr⟩
  | cons op ops ih =>
    obtain ⟨s₁, h1, hr1⟩ := h.attempt (hops op (List.mem_cons_self ..)) hr
    obtain ⟨s₂, h2, hr2⟩ := ih (fun o ho => hops o (List.mem_cons_of_mem _ ho)) hr1
    refine ⟨s₂, ?_, hr2⟩
    rw [runCaught, List.foldlM_cons, h1, ok_bind]
    exact h2

/-- The calls that throw can be left out of a run. -/
theorem Refines.returning (h : Refines step astep R Fit) {ops : List O} (hops : ∀ op ∈ ops, Fit op) {s : S} {a : A}
    (hr : R s a) : ∃ s', runCaught step ops s = ok s' ∧ runAll step (Lib.returning step ops s) s = ok s' := by
  induction ops generalizing s a with
  | nil => exact ⟨s, rfl, rfl⟩
  | cons op ops ih =>
    have hm := h op s a (hops op (List.mem_cons_self ..)) hr
    have hrest : ∀ o ∈ ops, Fit o := fun o ho => hops o (List.mem_cons_of_mem _ ho)
    cases ha : astep op a with
    | error e =>
      rw [ha] at hm
      have he : step op s = err (e, s) := hm
      obtain ⟨s', h1, h2⟩ := ih hrest hr
      refine ⟨s', by rw [runCaught_cons (by rw [he]; rfl), h1], ?_⟩
      rw [Lib.returning, he]
      exact h2
    | ok a' =>
      rw [ha] at hm
      obtain ⟨s₁, he, hr1⟩ := hm
      obtain ⟨s', h1, h2⟩ := ih hrest hr1
      refine ⟨s', by rw [runCaught_cons (by rw [he]; rfl), h1], ?_⟩
      rw [Lib.returning, he, runAll, List.foldlM_cons, he, ok_bind]
      exact h2

/-- A run throws what the abstract run throws. -/
theorem Refines.thrown (h : Refines step astep R Fit) {ops : List O} (hops : ∀ op ∈ ops, Fit op) {s : S} {a : A}
    (hr : R s a) : Lib.thrown step ops s = refused astep ops a := by
  induction ops generalizing s a with
  | nil => rfl
  | cons op ops ih =>
    have hm := h op s a (hops op (List.mem_cons_self ..)) hr
    have hrest : ∀ o ∈ ops, Fit o := fun o ho => hops o (List.mem_cons_of_mem _ ho)
    rw [Lib.thrown, refused]
    cases ha : astep op a with
    | error e =>
      rw [ha] at hm
      rw [show step op s = err (e, s) from hm]
      exact congrArg _ (ih hrest hr)
    | ok a' =>
      rw [ha] at hm
      obtain ⟨s₁, he, hr1⟩ := hm
      rw [he]
      exact congrArg _ (ih hrest hr1)

/-- What an observer sees of the abstract state, step by step, it has seen behind a run. -/
theorem Refines.watch {G : Type} {see : O → S → G → G} {view : A → G} (h : Refines step astep R Fit)
    (hsee : ∀ op s a, Fit op → R s a → see op s (view a) = view (settle astep op a)) {ops : List O}
    (hops : ∀ op ∈ ops, Fit op) {s : S} {a : A} (hr : R s a) :
    Lib.watch step see ops s (view a) = view (settleAll astep ops a) := by
  induction ops generalizing s a with
  | nil => rfl
  | cons op ops ih =>
    have hop := hops op (List.mem_cons_self ..)
    obtain ⟨s₁, h1, hr1⟩ := h.attempt hop hr
    rw [Lib.watch, hsee op s a hop hr, after_of_attempt h1]
    exact ih (fun o ho => hops o (List.mem_cons_of_mem _ ho)) hr1

/-- A run of the abstract machine that ends is followed, when its calls are. -/
theorem follows {R : S → A → Prop} {ops : List O} {s : S} {a a' : A} (ha : askAll astep ops a = .ok a') (hr : R s a)
    (h : ∀ op ∈ ops, ∀ s a a', R s a → astep op a = .ok a' → ∃ s', step op s = ok s' ∧ R s' a') :
    ∃ s', runAll step ops s = ok s' ∧ R s' a' := by
  induction ops generalizing s a with
  | nil => cases ha; exact ⟨s, rfl, hr⟩
  | cons op ops ih =>
    rw [askAll_cons] at ha
    cases h1 : astep op a with
    | error e => rw [h1] at ha; cases ha
    | ok a₁ =>
      rw [h1] at ha
      obtain ⟨s₁, he, hr1⟩ := h op (List.mem_cons_self ..) s a a₁ hr h1
      obtain ⟨s₂, he2, hr2⟩ := ih ha hr1 fun o ho => h o (List.mem_cons_of_mem _ ho)
      exact ⟨s₂, by rw [runAll, List.foldlM_cons, he, ok_bind]; exact he2, hr2⟩

theorem Refines.all (h : Refines step astep R Fit) {ops : List O} (hops : ∀ op ∈ ops, Fit op) {s : S} {a : A}
    (hr : R s a) : EndsAs R (runAll step ops s) (askAll astep ops a) := by
  induction ops generalizing s a with
  | nil => exact ⟨s, rfl, hr⟩
  | cons op ops ih =>
    have hm := h op s a (hops op (List.mem_cons_self ..)) hr
    rw [askAll, List.foldlM_cons]
    cases ha : astep op a with
    | error e =>
      rw [ha] at hm
      refine ⟨s, ?_⟩
      rw [runAll, List.foldlM_cons, show step op s = _ from hm]; rfl
    | ok a' =>
      rw [ha] at hm
      obtain ⟨s', he, hr'⟩ := hm
      have := ih (fun o ho => hops o (List.mem_cons_of_mem _ ho)) hr'
      rw [runAll, List.foldlM_cons, he, ok_bind]
      exact this

/-! ## Machines that move when they throw -/

/-- One concrete outcome for one abstract outcome, where a throw may move both states. -/
def Tracks (R : S → A → Prop) (x : Out (E × S) S) (y : Except (E × A) A) : Prop :=
  match y with
  | .ok a => ∃ s, x = ok s ∧ R s a
  | .error e => ∃ s, x = err (e.1, s) ∧ R s e.2

def settled (y : Except (E × A) A) : A :=
  match y with
  | .ok a => a
  | .error e => e.2

def runSettled (astep : O → A → Except (E × A) A) (ops : List O) (a : A) : A :=
  ops.foldl (fun a op => settled (astep op a)) a

def refusals (astep : O → A → Except (E × A) A) : List O → A → List (Option E)
  | [], _ => []
  | op :: ops, a =>
    match astep op a with
    | .ok a' => none :: refusals astep ops a'
    | .error e => some e.1 :: refusals astep ops e.2

/-- A machine that tracks another one call by call tracks it over every run. -/
theorem Tracks.caught {step : O → S → Out (E × S) S} {astep : O → A → Except (E × A) A} {R : S → A → Prop}
    (h : ∀ op s a, R s a → Tracks R (step op s) (astep op a)) : ∀ (ops : List O) {s : S} {a : A}, R s a →
    ∃ s', runCaught step ops s = ok s' ∧ R s' (runSettled astep ops a) ∧ Lib.thrown step ops s = refusals astep ops a
  | [], s, _, hr => ⟨s, rfl, hr, rfl⟩
  | op :: ops, s, a, hr => by
    have hstep := h op s a hr
    rw [Lib.thrown, refusals]
    cases ha : astep op a with
    | ok a' =>
      rw [ha] at hstep
      obtain ⟨s₁, he, hr1⟩ := hstep
      obtain ⟨s', hrun, hr', hthrown⟩ := Tracks.caught h ops hr1
      refine ⟨s', by rw [runCaught_cons (by rw [he]; rfl), hrun], ?_, by rw [he]; exact congrArg _ hthrown⟩
      rwa [runSettled, List.foldl_cons, ha]
    | error e =>
      rw [ha] at hstep
      obtain ⟨s₁, he, hr1⟩ := hstep
      obtain ⟨s', hrun, hr', hthrown⟩ := Tracks.caught h ops hr1
      refine ⟨s', by rw [runCaught_cons (by rw [he]; rfl), hrun], ?_, by rw [he]; exact congrArg _ hthrown⟩
      rwa [runSettled, List.foldl_cons, ha]

end OscTap.Lib
