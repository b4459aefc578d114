/-
  OscTap.Lib.Checked — computations over a buffer whose accesses are checked.

  A computation ends with a value (`ok`), leaves early with an error or an exception
  (`err`), or does what the language leaves undefined (`fault`): it touches a byte outside
  its buffer, follows a null pointer, lets a size computation leave the range of its type,
  or runs out of the fuel of a loop. `Sat x P Q` is the triple of `x`: no fault, `P` of the value, `Q` of the error;
  `Weakly x P Q` is the same up to a fault.
  A program is memory safe when its computation satisfies some triple.
-/
import OscTap.Lib.Bytes

namespace OscTap.Lib

inductive Fault where
  | read (off : Nat)
  | write (off : Nat)
  | null
  | wrap
  | diverge
  deriving DecidableEq, Repr

inductive Out (ε α : Type) where
  | ok (a : α)
  | err (e : ε)
  | fault (f : Fault)
  deriving DecidableEq, Repr

namespace Out

variable {ε ε' α β γ : Type}

def bind (x : Out ε α) (f : α → Out ε β) : Out ε β :=
  match x with
  | ok a => f a
  | err e => err e
  | fault f => fault f

instance : Monad (Out ε) where
  pure := ok
  bind := bind

def mapErr (g : ε → ε') : Out ε α → Out ε' α
  | ok a => ok a
  | err e => err (g e)
  | fault f => fault f

@[simp] theorem pure_eq (a : α) : (pure a : Out ε α) = ok a := rfl
@[simp] theorem ok_bind (a : α) (f : α → Out ε β) : (ok a >>= f) = f a := rfl
@[simp] theorem err_bind (e : ε) (f : α → Out ε β) : ((err e : Out ε α) >>= f) = err e := rfl
@[simp] theorem fault_bind (x : Fault) (f : α → Out ε β) : ((fault x : Out ε α) >>= f) = fault x := rfl
@[simp] theorem mapErr_ok (g : ε → ε') (a : α) : mapErr g (ok a) = ok a := rfl
@[simp] theorem mapErr_err (g : ε → ε') (e : ε) : mapErr g (err e : Out ε α) = err (g e) := rfl
@[simp] theorem mapErr_fault (g : ε → ε') (f : Fault) : mapErr g (fault f : Out ε α) = fault f := rfl

instance : LawfulMonad (Out ε) :=
  LawfulMonad.mk' _ (fun x => by cases x <;> rfl) (fun _ _ => rfl) (fun x _ _ => by cases x <;> rfl)

@[simp] theorem map_ok (f : α → β) (a : α) : (f <$> (ok a : Out ε α)) = ok (f a) := rfl

theorem map_err (f : α → β) (e : ε) : (f <$> (err e : Out ε α)) = err e := rfl

theorem bind_eq_ok {x : Out ε α} {f : α → Out ε β} {b : β} :
    (x >>= f) = ok b ↔ ∃ a, x = ok a ∧ f a = ok b := by
  cases x <;> simp

theorem map_eq_ok {f : α → β} {x : Out ε α} {b : β} : f <$> x = ok b ↔ ∃ a, x = ok a ∧ f a = b := by
  cases x with
  | ok a => simp
  | err e | fault f =>
    constructor
    · intro h; cases h
    · intro h
      obtain ⟨_, h, _⟩ := h
      cases h

theorem mapErr_bind {g : ε → ε'} (x : Out ε α) (f : α → Out ε β) : mapErr g (x >>= f) = mapErr g x >>= fun a =>
    mapErr g (f a) := by
  cases x <;> rfl

theorem mapErr_eq_ok {g : ε → ε'} {x : Out ε α} {a : α} : mapErr g x = ok a ↔ x = ok a := by
  cases x <;> simp

/-! ## Triples -/

def Sat (x : Out ε α) (P : α → Prop) (Q : ε → Prop) : Prop :=
  match x with
  | ok a => P a
  | err e => Q e
  | fault _ => False

variable {P P' : α → Prop} {Q Q' : ε → Prop}

@[simp] theorem sat_ok (a : α) : Sat (ok a : Out ε α) P Q ↔ P a := Iff.rfl
@[simp] theorem sat_err (e : ε) : Sat (err e : Out ε α) P Q ↔ Q e := Iff.rfl
@[simp] theorem sat_fault (f : Fault) : Sat (fault f : Out ε α) P Q ↔ False := Iff.rfl

theorem Sat.mono {x : Out ε α} (h : Sat x P Q) (hP : ∀ a, P a → P' a) (hQ : ∀ e, Q e → Q' e) : Sat x P' Q' := by
  cases x with
  | ok a => exact hP a h
  | err e => exact hQ e h
  | fault f => exact h

/-- The sequence rule. -/
theorem Sat.bind {x : Out ε α} {f : α → Out ε β} {R : β → Prop} (h : Sat x P Q) (hf : ∀ a, P a → Sat (f a) R Q) :
    Sat (x >>= f) R Q := by
  cases x with
  | ok a => exact hf a h
  | err e => exact h
  | fault f => exact h

theorem Sat.mapErr {g : ε → ε'} {x : Out ε α} {Q : ε' → Prop} (h : Sat x P (fun e => Q (g e))) :
    Sat (mapErr g x) P Q := by
  cases x <;> exact h

theorem Sat.ok_of_eq {x : Out ε α} {a : α} (h : Sat x P Q) (e : x = ok a) : P a := by subst e; exact h

theorem Sat.err_of_eq {x : Out ε α} {b : ε} (h : Sat x P Q) (e : x = err b) : Q b := by subst e; exact h

abbrev Safe (x : Out ε α) : Prop := Sat x (fun _ => True) (fun _ => True)

theorem safe_iff {x : Out ε α} : Safe x ↔ ∀ f, x ≠ fault f := by
  cases x <;> simp [Safe]

theorem Sat.safe {x : Out ε α} (h : Sat x P Q) : Safe x := h.mono (fun _ _ => trivial) (fun _ _ => trivial)

/-- A computation that neither faults nor throws returns. -/
theorem Sat.returns {x : Out ε α} (h : Sat x P (fun _ => False)) : ∃ a, x = ok a ∧ P a := by
  cases x with
  | ok a => exact ⟨a, rfl, h⟩
  | err e => exact h.elim
  | fault f => exact h.elim

/-- The rule for a loop over a list, with an invariant. -/
theorem Sat.foldlM {σ : Type} {f : σ → α → Out ε σ} {I : σ → Prop} {as : List α} {s : σ}
    (h : ∀ a ∈ as, ∀ s, I s → Sat (f s a) I Q) (hs : I s) : Sat (as.foldlM f s) I Q := by
  induction as generalizing s with
  | nil => exact hs
  | cons a as ih =>
    rw [List.foldlM_cons]
    exact (h a (List.mem_cons_self ..) s hs).bind fun s hs => ih (fun b hb => h b (List.mem_cons_of_mem _ hb)) hs

/-- A loop that ends has run every one of its iterations. -/
theorem foldlM_ok_at {σ : Type} {f : σ → α → Out ε σ} {as : List α} {a : α} {s s' : σ} (h : as.foldlM f s = ok s')
    (ha : a ∈ as) : ∃ pre post s₁ s₂, as = pre ++ a :: post ∧ pre.foldlM f s = ok s₁ ∧ f s₁ a = ok s₂ ∧
      post.foldlM f s₂ = ok s' := by
  obtain ⟨pre, post, rfl⟩ := List.append_of_mem ha
  rw [List.foldlM_append] at h
  obtain ⟨s₁, h1, h⟩ := bind_eq_ok.mp h
  rw [List.foldlM_cons] at h
  obtain ⟨s₂, h2, h3⟩ := bind_eq_ok.mp h
  exact ⟨pre, post, s₁, s₂, rfl, h1, h2, h3⟩

/-! ## Triples up to a fault -/

/-- What holds of the outcome when there is no fault. -/
def Weakly (x : Out ε α) (P : α → Prop) (Q : ε → Prop) : Prop :=
  match x with
  | ok a => P a
  | err e => Q e
  | fault _ => True

@[simp] theorem weakly_ok (a : α) : Weakly (ok a : Out ε α) P Q ↔ P a := Iff.rfl
@[simp] theorem weakly_err (e : ε) : Weakly (err e : Out ε α) P Q ↔ Q e := Iff.rfl
@[simp] theorem weakly_fault (f : Fault) : Weakly (fault f : Out ε α) P Q ↔ True := Iff.rfl

theorem Weakly.mono {x : Out ε α} (h : Weakly x P Q) (hP : ∀ a, P a → P' a) (hQ : ∀ e, Q e → Q' e) :
    Weakly x P' Q' := by
  cases x with
  | ok a => exact hP a h
  | err e => exact hQ e h
  | fault f => trivial

/-- The sequence rule. -/
theorem Weakly.bind {x : Out ε α} {f : α → Out ε β} {R : β → Prop} (h : Weakly x P Q)
    (hf : ∀ a, P a → Weakly (f a) R Q) :
    Weakly (x >>= f) R Q := by
  cases x with
  | ok a => exact hf a h
  | err e => exact h
  | fault f => trivial

theorem Weakly.ok_of_eq {x : Out ε α} {a : α} (h : Weakly x P Q) (e : x = ok a) : P a := by subst e; exact h

/-- A step that cannot throw. -/
theorem Weakly.quiet {x : Out ε α} (h : Weakly x P (fun _ => False)) : Weakly x P Q :=
  h.mono (fun _ h => h) fun _ h => h.elim

/-- The rule for a loop over a list, with an invariant. -/
theorem Weakly.foldlM {σ : Type} {f : σ → α → Out ε σ} {I : σ → Prop} {as : List α} {s : σ}
    (h : ∀ a ∈ as, ∀ s, I s → Weakly (f s a) I Q) (hs : I s) : Weakly (as.foldlM f s) I Q := by
  induction as generalizing s with
  | nil => exact hs
  | cons a as ih =>
    rw [List.foldlM_cons]
    exact (h a (List.mem_cons_self ..) s hs).bind fun s hs => ih (fun b hb => h b (List.mem_cons_of_mem _ hb)) hs

/-! ## Exact triples -/

/-- `x` has no fault and returns exactly the values of `S`; on no other it ends with an error. -/
def Decides (x : Out ε α) (S : α → Prop) : Prop := Safe x ∧ ∀ a, x = ok a ↔ S a

variable {S S' : α → Prop}

theorem Decides.safe {x : Out ε α} (h : Decides x S) : Safe x := h.1
theorem Decides.iff {x : Out ε α} (h : Decides x S) {a : α} : x = ok a ↔ S a := h.2 a

theorem Decides.sat {x : Out ε α} (h : Decides x S) : Sat x S (fun _ => True) := by
  cases hx : x with
  | ok a => exact (h.2 a).mp hx
  | err e => trivial
  | fault f => exact absurd hx (safe_iff.mp h.1 f)

theorem Decides.ok_or_err {x : Out ε α} (h : Decides x S) : (∃ a, x = ok a ∧ S a) ∨ ∃ e, x = err e ∧ ∀ a, ¬ S a := by
  cases hx : x with
  | ok a => exact .inl ⟨a, rfl, (h.2 a).mp hx⟩
  | err e => exact .inr ⟨e, rfl, fun a ha => by simp [hx] at h; simpa [hx] using (h.2 a).mpr ha⟩
  | fault f =>
    have hs := h.1
    rw [hx] at hs
    exact hs.elim

theorem Decides.congr {x : Out ε α} (h : Decides x S) (hS : ∀ a, S a ↔ S' a) : Decides x S' :=
  ⟨h.1, fun a => (h.2 a).trans (hS a)⟩

theorem decides_ok (a : α) : Decides (ok a : Out ε α) (fun b => b = a) :=
  ⟨trivial, fun b => by simp [eq_comm]⟩

theorem decides_err (e : ε) : Decides (err e : Out ε α) (fun _ => False) :=
  ⟨trivial, fun b => by simp⟩

/-- The sequence rule. -/
theorem Decides.bind {x : Out ε α} {f : α → Out ε β} {T : α → β → Prop} (h : Decides x S)
    (hf : ∀ a, S a → Decides (f a) (T a)) : Decides (x >>= f) (fun b => ∃ a, S a ∧ T a b) := by
  refine ⟨?_, fun b => ?_⟩
  · cases hx : x with
    | ok a => exact (hf a ((h.2 a).mp hx)).1
    | err e => trivial
    | fault f => have := h.1; rw [hx] at this; exact this
  · rw [bind_eq_ok]
    constructor
    · intro hx
      rcases hx with ⟨a, ha, hb⟩
      have hs := (h.2 a).mp ha
      exact ⟨a, hs, ((hf a hs).2 b).mp hb⟩
    · intro hx
      rcases hx with ⟨a, hs, ht⟩
      exact ⟨a, (h.2 a).mpr hs, ((hf a hs).2 b).mpr ht⟩

/-- A check that ends with an error where `c` holds. -/
theorem Decides.guard {c : Prop} [Decidable c] {e : ε} {x : Out ε α} (h : ¬ c → Decides x S) :
    Decides (if c then err e else x) (fun a => ¬ c ∧ S a) := by
  by_cases hc : c
  · rw [if_pos hc]; exact (decides_err e).congr fun a => by simp [hc]
  · rw [if_neg hc]; exact (h hc).congr fun a => by simp [hc]

theorem Decides.mapErr {g : ε → ε'} {x : Out ε α} (h : Decides x S) : Decides (mapErr g x) S :=
  ⟨h.1.mapErr, fun a => mapErr_eq_ok.trans (h.2 a)⟩

end Out

open Out

variable {ε : Type}

/-! ## Reads -/

def deref (p : Option Nat) : Out ε Nat :=
  match p with
  | some p => ok p
  | none => fault .null

@[simp] theorem deref_some (p : Nat) : (deref (some p) : Out ε Nat) = ok p := rfl

def rd (m : Bytes) (i : Nat) : Out ε UInt8 :=
  match m[i]? with
  | some b => ok b
  | none => fault (.read i)

theorem rd_ok {m : Bytes} {i : Nat} {b : UInt8} : (rd m i : Out ε UInt8) = ok b ↔ m[i]? = some b := by
  unfold rd; cases m[i]? <;> simp

theorem rd_of_some {m : Bytes} {i : Nat} {b : UInt8} (h : m[i]? = some b) : (rd m i : Out ε UInt8) = ok b := rd_ok.mpr h

theorem rd_of_lt {m : Bytes} {i : Nat} (h : i < m.length) : (rd m i : Out ε UInt8) = ok m[i] :=
  rd_of_some (List.getElem?_eq_getElem h)

/-- Read the big-endian word at `p`, byte by byte. -/
def rd32 (m : Bytes) (p : Nat) : Out ε Nat := do
  let a ← rd m p
  let b ← rd m (p + 1)
  let c ← rd m (p + 2)
  let d ← rd m (p + 3)
  ok (val32 a b c d)

def rd64 (m : Bytes) (p : Nat) : Out ε Nat := do
  let h ← rd32 m p
  let l ← rd32 m (p + 4)
  ok (h * 2 ^ 32 + l)

def word (m : Bytes) (p : Nat) : Nat :=
  val32 (m.getD p 0) (m.getD (p + 1) 0) (m.getD (p + 2) 0) (m.getD (p + 3) 0)

theorem word_lt (m : Bytes) (p : Nat) : word m p < 2 ^ 32 := val32_lt _ _ _ _

theorem word_append {m : Bytes} (b : Bytes) {p : Nat} (h : p + 4 ≤ m.length) : word (m ++ b) p = word m p := by
  have g : ∀ i < m.length, (m ++ b).getD i 0 = m.getD i 0 := fun i hi => by
    rw [List.getD_eq_getElem?_getD, List.getD_eq_getElem?_getD, List.getElem?_append_left hi]
  rw [word, word, g p (by omega), g _ (by omega), g _ (by omega), g _ (by omega)]

theorem rd32_of_le {m : Bytes} {p : Nat} (h : p + 4 ≤ m.length) : (rd32 m p : Out ε Nat) = ok (word m p) := by
  have g : ∀ i, i < m.length → (rd m i : Out ε UInt8) = ok (m.getD i 0) := fun i hi => by
    rw [rd_of_lt hi, List.getD_eq_getElem?_getD, List.getElem?_eq_getElem hi, Option.getD_some]
  simp [rd32, g p (by omega), g (p + 1) (by omega), g (p + 2) (by omega), g (p + 3) (by omega), word]

theorem rd64_of_le {m : Bytes} {p : Nat} (h : p + 8 ≤ m.length) :
    (rd64 m p : Out ε Nat) = ok (word m p * 2 ^ 32 + word m (p + 4)) := by
  simp [rd64, rd32_of_le (show p + 4 ≤ m.length by omega), rd32_of_le (show p + 4 + 4 ≤ m.length by omega)]

def rdBytes (m : Bytes) (p : Nat) (n : Nat) : Out ε Bytes :=
  if n = 0 ∨ p + n ≤ m.length then ok (slice m p (p + n)) else fault (.read (max p m.length))

theorem rdBytes_of_le {m : Bytes} {p n : Nat} (h : p + n ≤ m.length) :
    (rdBytes m p n : Out ε Bytes) = ok (slice m p (p + n)) := if_pos (Or.inr h)

/-! ## Writes -/

def wr (m : Bytes) (p : Nat) (w : Bytes) : Out ε Bytes :=
  if w = [] ∨ p + w.length ≤ m.length then ok (splice m p w) else fault (.write (max p m.length))

theorem wr_of_le {m w : Bytes} {p : Nat} (h : p + w.length ≤ m.length) : (wr m p w : Out ε Bytes) = ok (splice m p w) :=
  if_pos (Or.inr h)

/-- Two adjacent writes are one. -/
theorem wr_wr {m v w : Bytes} {p : Nat} (h : p + v.length + w.length ≤ m.length) :
    (wr m p v >>= fun m' => wr m' (p + v.length) w : Out ε Bytes) = wr m p (v ++ w) := by
  have h1 : p + v.length ≤ m.length := by omega
  rw [wr_of_le h1, ok_bind, wr_of_le (by rw [length_splice h1]; exact h), splice_splice h,
    wr_of_le (by rw [List.length_append]; omega)]

/-! ## The word of a known range -/

theorem word_of_slice {m : Bytes} {p n : Nat} (h : slice m p (p + 4) = be32 n) : word m p = n % 2 ^ 32 := by
  have g : ∀ i, i < 4 → m.getD (p + i) 0 = (be32 n).getD i 0 := by
    intro i hi
    have := getElem?_slice m p (p + 4) i
    rw [h, if_pos (by omega)] at this
    rw [List.getD_eq_getElem?_getD, List.getD_eq_getElem?_getD, this]
  have g0 := g 0 (by omega); have g1 := g 1 (by omega); have g2 := g 2 (by omega); have g3 := g 3 (by omega)
  simp only [Nat.add_zero] at g0
  rw [word, g0, g1, g2, g3]
  exact val32_be32 n

theorem At.word_eq {m w : Bytes} {p : Nat} (h : At m p w) (hl : 4 ≤ w.length) : word m p = word w 0 := by
  have g : ∀ i, i < 4 → m.getD (p + i) 0 = w.getD (0 + i) 0 := fun i hi => by
    rw [List.getD_eq_getElem?_getD, List.getD_eq_getElem?_getD, Nat.zero_add, h.getElem? (by omega)]
  have g0 := g 0 (by omega)
  rw [Nat.add_zero, Nat.add_zero] at g0
  rw [word, word, g0, g 1 (by omega), g 2 (by omega), g 3 (by omega)]

theorem slice_word {m : Bytes} {p : Nat} (hl : p + 4 ≤ m.length) : slice m p (p + 4) = be32 (word m p) := by
  have g : ∀ i, i < 4 → m[p + i]? = some (m.getD (p + i) 0) := fun i hi => by
    rw [List.getD_eq_getElem?_getD, List.getElem?_eq_getElem (by omega), Option.getD_some]
  rw [word, be32_val32]
  apply List.ext_getElem?
  intro i
  rw [getElem?_slice]
  match i with
  | 0 => simpa using g 0 (by omega)
  | 1 => simpa using g 1 (by omega)
  | 2 => simpa using g 2 (by omega)
  | 3 => simpa using g 3 (by omega)
  | i + 4 => rw [if_neg (by omega)]; rfl

end OscTap.Lib
