/-
  OscTap.Received.PrintBundle — how the printing of a bundle ends (see
  `OscTap.Received.Print`).

  A call on a thread either returns, and leaves the indentation as it was, or throws and
  leaves it raised once for every bundle it was in (`Ending`). Which of the two it is depends
  on the bytes alone: `Printable m d p size` is what the printer can print of an element with
  `d` levels of nesting left before its limit. Below the limit it constructs what it meets;
  at the limit a bundle is a line of text, whatever is in it.

  Proved:
  - `printBundle_ends`: how the printing of a framed bundle ends, at every indentation.
  - `valid_shown`: what the gate accepts at a bound within the limit is printed as its full read.
-/
import OscTap.Received.Printing

namespace OscTap.Received

open OscTap.Lib OscTap.Lib.Out OscTap.Osc OscTap.Lib.Ostream

/-! ## Endings -/

/-- How a call ends, and what it writes. -/
inductive Ending where
  | done (text : Bytes)
  /-- By an exception, `raised` levels above the indentation it began with. -/
  | thrown (e : Exn) (raised : Nat) (text : Bytes)
  deriving DecidableEq, Repr

namespace Ending

def Done : Ending → Prop
  | done _ => True
  | thrown .. => False

def after (t : Bytes) : Ending → Ending
  | done u => done (t ++ u)
  | thrown e k u => thrown e k (t ++ u)

/-- In front of a text, which an exception leaves out. -/
def before (t : Bytes) : Ending → Ending
  | done u => done (u ++ t)
  | thrown e k u => thrown e k u

/-- Inside a bundle, whose last line an exception leaves out. -/
def inside (header footer : Bytes) : Ending → Ending
  | done u => done (header ++ u ++ footer)
  | thrown e k u => thrown e (k + 1) (header ++ u)

@[simp] theorem after_done (t : Bytes) (y : Ending) : (y.after t).Done ↔ y.Done := by cases y <;> rfl
@[simp] theorem before_done (t : Bytes) (y : Ending) : (y.before t).Done ↔ y.Done := by cases y <;> rfl
@[simp] theorem inside_done (h f : Bytes) (y : Ending) : (y.inside h f).Done ↔ y.Done := by cases y <;> rfl

end Ending

/-- From the indentation `n` the call ends so, on any stream. -/
def Ends (f : Thread → Out (Exn × Thread) Thread) (n : Nat) : Ending → Prop
  | .done t => ∀ os, ∃ os', f ⟨n, os⟩ = ok ⟨n, os'⟩ ∧ Wrote os t os'
  | .thrown e k t => ∀ os, ∃ os', f ⟨n, os⟩ = err (e, ⟨n + k, os'⟩) ∧ Wrote os t os'

variable {f g : Thread → Out (Exn × Thread) Thread} {n : Nat}

/-- A constructor that throws. -/
theorem ends_thrown {e : Exn} (h : ∀ os, f ⟨n, os⟩ = err (e, ⟨n, os⟩)) : Ends f n (.thrown e 0 []) :=
  fun os => ⟨os, h os, Wrote.refl os⟩

theorem Ends.congr {y : Ending} (h : Ends f n y) (hfg : ∀ os, g ⟨n, os⟩ = f ⟨n, os⟩) : Ends g n y := by
  cases y with
  | done t =>
    intro os
    obtain ⟨os', he, hw⟩ := h os
    exact ⟨os', (hfg os).trans he, hw⟩
  | thrown e k t =>
    intro os
    obtain ⟨os', he, hw⟩ := h os
    exact ⟨os', (hfg os).trans he, hw⟩

/-- The sequence rule. -/
theorem Ends.seq {t : Bytes} {y : Ending} (hf : Ends f n (.done t)) (hg : Ends g n y) :
    Ends (fun s => f s >>= g) n (y.after t) := by
  cases y with
  | done u =>
    intro os
    obtain ⟨os₁, h1, hw1⟩ := hf os
    obtain ⟨os₂, h2, hw2⟩ := hg os₁
    exact ⟨os₂, by simp [h1, h2], hw1.trans hw2⟩
  | thrown e k u =>
    intro os
    obtain ⟨os₁, h1, hw1⟩ := hf os
    obtain ⟨os₂, h2, hw2⟩ := hg os₁
    exact ⟨os₂, by simp [h1, h2], hw1.trans hw2⟩

/-- What comes behind an exception is left out. -/
theorem Ends.stop {e : Exn} {k : Nat} {t : Bytes} (hf : Ends f n (.thrown e k t))
    (g : Thread → Out (Exn × Thread) Thread) :
    Ends (fun s => f s >>= g) n (.thrown e k t) := by
  intro os
  obtain ⟨os', h, hw⟩ := hf os
  exact ⟨os', by simp [h], hw⟩

/-- A text behind a call. -/
theorem Ends.put {y : Ending} (hf : Ends f n y) (t : Bytes) :
    Ends (fun s => f s >>= fun s => ok (s.put t)) n (y.before t) := by
  cases y with
  | done u => exact hf.seq (y := .done t) fun os => ⟨os.put t, rfl, wrote_put os t⟩
  | thrown e k u => exact hf.stop _

theorem indentation_wrote : ∀ (n : Nat) (os : Ostream), Wrote os (indentText n) (indentation n os)
  | 0, os => Wrote.refl os
  | n + 1, os => (wrote_put os _).trans (indentation_wrote n _)

@[simp] theorem throwing_ok {α : Type} (s : Thread) (a : α) : throwing s (ok a) = ok a := rfl
@[simp] theorem throwing_err {α : Type} (s : Thread) (e : Exn) : throwing s (err e : Out Exn α) = err (e, s) := rfl

/-! ## Elements -/

/-- What the printer can print at `p`, with `d` levels of nesting left. -/
inductive Printable (m : Bytes) : Nat → Nat → Int → Prop
  | message {d p : Nat} {size : Int} {r : ReceivedMessage} : SizeOk size → m[p]? ≠ some (ch '#') →
      IsMessage m p (p + size.toNat) r → Printable m d p size
  /-- The limit's text is printed instead. -/
  | limit {p : Nat} {size : Int} : 0 < size → m[p]? = some (ch '#') → Printable m 0 p size
  | bundle {d p : Nat} {size : Int} {es : List (Nat × Nat)} : IsBundle m p size es → (∀ x ∈ es, Printable m d x.1 x.2) →
      Printable m (d + 1) p size

variable {m : Bytes} {fmt : Formats} {nested : ReceivedBundle → Thread → Out (Exn × Thread) Thread}

/-- The size slot at `i` and the element behind it, inside the buffer. -/
structure ElementAt (m : Bytes) (i : Nat) (size : Nat) : Prop where
  inside : i + 4 + size ≤ m.length
  size_eq : elementSize m i = ok (size : Int)

theorem elementAt_of_le {p : Nat} (hm : m.length < 2 ^ 31) (h : p + 4 + word m p ≤ m.length) :
    ElementAt m p (word m p) :=
  ⟨h, elementSize_eq (by omega) (by omega)⟩

theorem ElementAt.isBundle_eq {i size : Nat} (h : ElementAt m i size) {ε : Type} :
    (isBundle m (i + 4) size : Out ε Bool) = ok (decide (0 < size ∧ m[i + 4]? = some (ch '#'))) := by
  by_cases h0 : 0 < size
  · rw [Received.isBundle_eq (by simpa using h.inside) (by omega)]
    simp [h0]
  · simp [isBundle, h0]

/-- A bundle behind its size slot, at the limit. -/
theorem printElement_limit {i size : Nat} (h : ElementAt m i size)
    (hb : 0 < size ∧ m[i + 4]? = some (ch '#')) (hn : 64 ≤ n) :
    Ends (printElement m fmt nested i) n
      (.done (indentText n ++ bytesOf "\x7b ...bundle nesting depth limit reached... \x7d\n")) := by
  intro os
  refine ⟨_, ?_, (indentation_wrote n os).put _⟩
  simp [printElement, h.size_eq, h.isBundle_eq, hb, maxBundlePrintDepth, hn]
  rfl

/-- A bundle below the limit is constructed, then printed on its own line. -/
theorem printElement_bundle {i size : Nat} (h : ElementAt m i size)
    (hb : 0 < size ∧ m[i + 4]? = some (ch '#')) (hn : n < 64) {b : ReceivedBundle}
    (hi : ReceivedBundle.tryInit m (i + 4) size = ok b) {y : Ending} (hy : Ends (nested b) n y) :
    Ends (printElement m fmt nested i) n (y.before (bytesOf "\n")) := by
  refine (hy.put (bytesOf "\n")).congr fun os => ?_
  have hlt : ¬ 64 ≤ n := by omega
  simp [printElement, h.size_eq, h.isBundle_eq, hb, maxBundlePrintDepth, hlt, ReceivedBundle.mk', hi]

theorem printElement_bundle_refused {i size : Nat} (h : ElementAt m i size) (hb : 0 < size ∧ m[i + 4]? = some (ch '#'))
    (hn : n < 64) {e : String} (hi : ReceivedBundle.tryInit m (i + 4) size = err e) :
    Ends (printElement m fmt nested i) n (.thrown (.malformedBundle e) 0 []) := by
  refine ends_thrown fun os => ?_
  have hlt : ¬ 64 ≤ n := by omega
  simp [printElement, h.size_eq, h.isBundle_eq, hb, maxBundlePrintDepth, hlt, ReceivedBundle.mk', hi]

theorem printElement_message {i size : Nat} (h : ElementAt m i size) (hb : ¬ (0 < size ∧ m[i + 4]? = some (ch '#')))
    {r : ReceivedMessage} (hi : ReceivedMessage.tryInit m (i + 4) size = ok r) {t : Bytes}
    (hp : Prints (printMessage m fmt r) t) :
    Ends (printElement m fmt nested i) n (.done (indentText n ++ t ++ bytesOf "\n")) := by
  intro os
  obtain ⟨os₁, h1, hw1⟩ := hp (indentation n os)
  refine ⟨_, ?_, ((indentation_wrote n os).trans hw1).put _⟩
  simp [printElement, h.size_eq, h.isBundle_eq, hb, ReceivedMessage.mk', hi, Thread.output, Thread.putIndent, h1]
  rfl

theorem printElement_message_refused {i size : Nat} (h : ElementAt m i size)
    (hb : ¬ (0 < size ∧ m[i + 4]? = some (ch '#'))) {e : String} (hi : ReceivedMessage.tryInit m (i + 4) size = err e) :
    Ends (printElement m fmt nested i) n (.thrown (.malformedMessage e) 0 []) := by
  refine ends_thrown fun os => ?_
  simp [printElement, h.size_eq, h.isBundle_eq, hb, ReceivedMessage.mk', hi]

/-! ## What can be printed -/

theorem printable_message {d p : Nat} {size : Int} (hb : ¬ (0 < size ∧ m[p]? = some (ch '#'))) :
    Printable m d p size ↔ ∃ r, SizeOk size ∧ IsMessage m p (p + size.toNat) r := by
  constructor
  · intro h
    cases h with
    | message hs _ hr => exact ⟨_, hs, hr⟩
    | limit h0 hh => exact absurd ⟨h0, hh⟩ hb
    | bundle hes _ => exact absurd ⟨hes.1.1, bundleTag_head hes.2.2.1⟩ hb
  · intro ⟨r, hs, hr⟩
    exact .message hs (fun hh => hb ⟨hs.1, hh⟩) hr

theorem printable_bundle {d p : Nat} {size : Int} (hb : 0 < size ∧ m[p]? = some (ch '#')) :
    Printable m (d + 1) p size ↔ ∃ es, IsBundle m p size es ∧ ∀ x ∈ es, Printable m d x.1 x.2 := by
  constructor
  · intro h
    cases h with
    | message _ hh _ => exact absurd hb.2 hh
    | bundle hes hall => exact ⟨_, hes, hall⟩
  · intro ⟨es, hes, hall⟩
    exact .bundle hes hall

/-- How the printing of every framed bundle ends, below an indentation. -/
def BundleSpec (m : Bytes) (print : ReceivedBundle → Thread → Out (Exn × Thread) Thread) (n : Nat) : Prop :=
  ∀ p size es, IsBundle m p size es → p + size.toNat ≤ m.length →
    ∃ y, Ends (print ⟨p + 8, p + size.toNat, es.length⟩) n y ∧ (y.Done ↔ ∀ x ∈ es, Printable m (63 - n) x.1 x.2)

variable (fmt) in
/-- One element. -/
theorem printElement_ends {i size : Nat} (hm : m.length < 2 ^ 31) (h : ElementAt m i size)
    (hspec : n < 64 → BundleSpec m nested n) :
    ∃ y, Ends (printElement m fmt nested i) n y ∧ (y.Done ↔ Printable m (64 - n) (i + 4) size) := by
  have hl : i + 4 + (size : Int).toNat ≤ m.length := by simpa using h.inside
  by_cases hb : 0 < size ∧ m[i + 4]? = some (ch '#')
  · have hb' : 0 < (size : Int) ∧ m[i + 4]? = some (ch '#') := ⟨by omega, hb.2⟩
    by_cases hn : 64 ≤ n
    · refine ⟨_, printElement_limit h hb hn, ?_⟩
      rw [show 64 - n = 0 by omega]
      exact iff_of_true trivial (.limit hb'.1 hb'.2)
    · rw [show 64 - n = 63 - n + 1 by omega, printable_bundle hb']
      rcases (ReceivedBundle.tryInit_decides hl).ok_or_err with ⟨b, hi, es, hes, rfl⟩ | ⟨e, hi, hno⟩
      · obtain ⟨y, hy, hdone⟩ := hspec (by omega) _ _ es hes hl
        refine ⟨_, printElement_bundle h hb (by omega) hi hy, ?_⟩
        rw [Ending.before_done, hdone]
        constructor
        · exact fun hall => ⟨es, hes, hall⟩
        · intro ⟨es', hes', hall⟩
          rwa [hes.unique hes']
      · refine ⟨_, printElement_bundle_refused h hb (by omega) hi, ?_⟩
        exact iff_of_false id fun ⟨es, hes, _⟩ => hno _ ⟨es, hes, rfl⟩
  · have hb' : ¬ (0 < (size : Int) ∧ m[i + 4]? = some (ch '#')) := fun hc => hb ⟨by omega, hc.2⟩
    rw [printable_message hb']
    rcases (ReceivedMessage.tryInit_decides hl).ok_or_err with ⟨r, hi, hs, -, hr⟩ | ⟨e, hi, hno⟩
    · obtain ⟨visits, last, -, hp⟩ := printMessage_prints fmt hm hl hi
      exact ⟨_, printElement_message h hb hi hp, iff_of_true trivial ⟨r, hs, hr⟩⟩
    · refine ⟨_, printElement_message_refused h hb hi, ?_⟩
      exact iff_of_false id fun ⟨r, hs, hr⟩ => hno { r with size := size } ⟨hs, rfl, hr⟩

/-! ## Bundles -/

theorem printElements_end {e i fuel : Nat} (h : i = e) : Ends (printElements m fmt nested e fuel i) n (.done []) := by
  intro os
  refine ⟨os, ?_, Wrote.refl os⟩
  unfold printElements
  exact if_pos h

theorem printElements_next {e i size fuel : Nat} (hne : i ≠ e) (h : ElementAt m i size) (hsize : size < 2 ^ 31)
    {t : Bytes} (ht : Ends (printElement m fmt nested i) n (.done t)) {y : Ending}
    (hy : Ends (printElements m fmt nested e fuel (i + 4 + size)) n y) :
    Ends (printElements m fmt nested e (fuel + 1) i) n (y.after t) := by
  refine (ht.seq hy).congr fun os => ?_
  have hadvance : elementAdvance m i = ok (i + 4 + size) := by
    rw [elementAdvance, h.size_eq, ok_bind]
    dsimp only
    rw [if_pos (by omega)]
    congr 1
  rw [printElements, if_neg hne]
  simp [hadvance]

theorem printElements_stop {e i fuel : Nat} (hne : i ≠ e) {x : Exn} {k : Nat} {t : Bytes}
    (ht : Ends (printElement m fmt nested i) n (.thrown x k t)) :
    Ends (printElements m fmt nested e (fuel + 1) i) n (.thrown x k t) := by
  refine (ht.stop fun s => do
    let next ← throwing s (elementAdvance m i)
    printElements m fmt nested e fuel next s).congr fun os => ?_
  rw [printElements, if_neg hne]

variable (fmt nested) in
/-- The loop over framed elements prints them one by one, up to the first that it cannot. -/
theorem printElements_ends {e p : Nat} {es : List (Nat × Nat)} (hm : m.length < 2 ^ 31) (he : e ≤ m.length)
    (hf : Framed m e p es) (hspec : n < 64 → BundleSpec m nested n) : ∀ fuel, es.length ≤ fuel →
    ∃ y, Ends (printElements m fmt nested e fuel p) n y ∧ (y.Done ↔ ∀ x ∈ es, Printable m (64 - n) x.1 x.2) := by
  induction hf with
  | nil =>
    intro fuel _
    exact ⟨_, printElements_end rfl, by simp [Ending.Done]⟩
  | @cons p es h1 _ h2 hf ih =>
    intro fuel hfuel
    obtain ⟨fuel, rfl⟩ : ∃ k, fuel = k + 1 := ⟨fuel - 1, by simp only [List.length_cons] at hfuel; omega⟩
    have hat := elementAt_of_le hm (Nat.le_trans h2 he)
    obtain ⟨y, hy, hdone⟩ := printElement_ends fmt hm hat hspec
    cases y with
    | done t =>
      obtain ⟨z, hz, hrest⟩ := ih fuel (by simpa using hfuel)
      refine ⟨_, printElements_next (by omega) hat (by omega) hy hz, ?_⟩
      rw [Ending.after_done, hrest, List.forall_mem_cons]
      exact ⟨fun hall => ⟨hdone.mp trivial, hall⟩, fun hall => hall.2⟩
    | thrown x k t =>
      refine ⟨_, printElements_stop (by omega) hy, ?_⟩
      have hnot : ¬ Printable m (64 - n) (p + 4) (word m p) := fun hc => hdone.mpr hc
      exact iff_of_false id fun hall => hnot (hall _ (List.mem_cons_self ..))

def headerText (n : Nat) (timeTag : UInt64) : Bytes :=
  indentText n ++ bytesOf "\x7b ( " ++ timeTagText timeTag ++ bytesOf " )\n"

def footerText (n : Nat) : Bytes := indentText n ++ bytesOf "\x7d"

def timeTagAt (m : Bytes) (p : Nat) : UInt64 := UInt64.ofNat (word m (p + 8) * 2 ^ 32 + word m (p + 12))

variable (fmt nested) in
/-- Where the loop is reached, and on what. -/
theorem printBundleBody_eq {p : Nat} {size : Int} {es : List (Nat × Nat)} (hb : IsBundle m p size es)
    (hl : p + size.toNat ≤ m.length) (hn : n + 1 < 2 ^ 31) (os : Ostream) :
    ∃ os₁, Wrote os (headerText n (timeTagAt m p)) os₁ ∧
      printBundleBody m fmt nested ⟨p + 8, p + size.toNat, es.length⟩ ⟨n, os⟩ =
        (printElements m fmt nested (p + size.toNat) m.length (p + 16) ⟨n + 1, os₁⟩ >>= fun s =>
          ok (s.lower.putIndent.put (bytesOf "\x7d"))) := by
  have h16 := hb.2.1
  have hhead := (indentation_wrote n os).put (bytesOf "\x7b ( ")
  have htime := rd64_of_le (ε := Exn) (show p + 8 + 8 ≤ m.length by omega)
  by_cases h1 : timeTagAt m p = 1
  · have h1' : UInt64.ofNat (word m (p + 8) * 2 ^ 32 + word m (p + 8 + 4)) = 1 := h1
    rw [headerText, timeTagText, if_pos h1]
    refine ⟨_, (hhead.put (bytesOf "immediate")).put (bytesOf " )\n"), ?_⟩
    rw [printBundleBody, htime, map_ok, throwing_ok, ok_bind]
    dsimp only
    rw [if_pos h1', Thread.raise, if_pos (by exact hn), ok_bind]
    rfl
  · have h1' : ¬ UInt64.ofNat (word m (p + 8) * 2 ^ 32 + word m (p + 8 + 4)) = 1 := h1
    rw [headerText, timeTagText, if_neg h1]
    refine ⟨_, (hhead.putInt 64 _).put (bytesOf " )\n"), ?_⟩
    rw [printBundleBody, htime, map_ok, throwing_ok, ok_bind]
    dsimp only
    rw [if_neg h1', Thread.raise, if_pos (by exact hn), ok_bind]
    rfl

variable (fmt nested) in
theorem printBundleBody_ends {p : Nat} {size : Int} {es : List (Nat × Nat)} (hb : IsBundle m p size es)
    (hl : p + size.toNat ≤ m.length) (hn : n + 1 < 2 ^ 31) {y : Ending}
    (hy : Ends (printElements m fmt nested (p + size.toNat) m.length (p + 16)) (n + 1) y) :
    Ends (printBundleBody m fmt nested ⟨p + 8, p + size.toNat, es.length⟩) n
      (y.inside (headerText n (timeTagAt m p)) (footerText n)) := by
  cases y with
  | done u =>
    intro os
    obtain ⟨os₁, hw1, he⟩ := printBundleBody_eq fmt nested hb hl hn os
    obtain ⟨os₂, h2, hw2⟩ := hy os₁
    refine ⟨_, ?_, (hw1.trans hw2).trans ((indentation_wrote n os₂).put (bytesOf "\x7d"))⟩
    rw [he, h2, ok_bind]
    rfl
  | thrown x k u =>
    intro os
    obtain ⟨os₁, hw1, he⟩ := printBundleBody_eq fmt nested hb hl hn os
    obtain ⟨os₂, h2, hw2⟩ := hy os₁
    refine ⟨os₂, ?_, hw1.trans hw2⟩
    rw [he, h2, Nat.add_assoc n 1, Nat.add_comm 1 k]
    rfl

variable (fmt) in
/-- The fuel lasts: below the limit there is a level left. -/
theorem printBundle_ends (hm : m.length < 2 ^ 31) : ∀ (levels : Nat) {n : Nat}, 64 ≤ n + 1 + levels → n + 1 < 2 ^ 31 →
    ∀ p size es, IsBundle m p size es → p + size.toNat ≤ m.length →
      ∃ y : Ending, Ends (printBundle m fmt levels ⟨p + 8, p + size.toNat, es.length⟩) n
        (y.inside (headerText n (timeTagAt m p)) (footerText n)) ∧ (y.Done ↔ ∀ x ∈ es, Printable m (63 - n) x.1 x.2)
  | 0, n, hlev, hn, p, size, es, hb, hl => by
    have hlen := hb.2.2.2.length_le
    obtain ⟨y, hy, hdone⟩ := printElements_ends fmt (fun _ _ => fault .diverge) (n := n + 1) hm hl hb.2.2.2
      (fun h => by omega) m.length (by omega)
    exact ⟨y, printBundleBody_ends _ _ hb hl hn hy, by rw [hdone, show 64 - (n + 1) = 63 - n by omega]⟩
  | levels + 1, n, hlev, hn, p, size, es, hb, hl => by
    have hlen := hb.2.2.2.length_le
    obtain ⟨y, hy, hdone⟩ := printElements_ends fmt (printBundle m fmt levels) (n := n + 1) hm hl hb.2.2.2
      (fun h p size es hb hl => by
        obtain ⟨y, hy, hdone⟩ := printBundle_ends hm levels (n := n + 1) (by omega) (by omega) p size es hb hl
        exact ⟨_, hy, by rw [Ending.inside_done, hdone]⟩) m.length (by omega)
    exact ⟨y, printBundleBody_ends _ _ hb hl hn hy, by rw [hdone, show 64 - (n + 1) = 63 - n by omega]⟩

/-! ## Packets that the gate accepts -/

/-- What is at `p` is printed as the tree of its read. -/
inductive Shown (m : Bytes) (fmt : Formats) (nested : ReceivedBundle → Thread → Out (Exn × Thread) Thread)
    (n p : Nat) (size : Int) :
    ReadTree → Prop
  | message {r : ReceivedMessage} {visits : List (ReceivedMessageArgument × ArgValue)}
    {last : ReceivedMessageArgument} :
      m[p]? ≠ some (ch '#') → ReceivedMessage.tryInit m p size = ok r →
      Prints (printMessage m fmt r) (messageText m fmt r (visits.map Prod.snd)) →
        Shown m fmt nested n p size (.message r visits last)
  | bundle {b : ReceivedBundle} {timeTag : UInt64} {ts : List ReadTree} : n < 64 → 0 < size → m[p]? = some (ch '#') →
      ReceivedBundle.tryInit m p size = ok b →
        Ends (nested b) n (.done (ReadTree.text m fmt n (.bundle b timeTag ts))) →
      Shown m fmt nested n p size (.bundle b timeTag ts)

theorem Shown.printElement {i size : Nat} {t : ReadTree} (h : Shown m fmt nested n (i + 4) size t)
    (hat : ElementAt m i size) :
    Ends (printElement m fmt nested i) n (.done (t.text m fmt n ++ bytesOf "\n")) := by
  cases h with
  | message hh hi hp =>
    rw [ReadTree.text]
    exact printElement_message hat (fun hb => hh hb.2) hi hp
  | bundle hn h0 hh hi hy => exact printElement_bundle hat ⟨by omega, hh⟩ hn hi hy

/-- The loop prints what a walk over the elements reads. -/
theorem printElements_shown {f : Nat → Out Exn ReadTree} {e p : Nat} {es : List (Nat × Nat)} (hm : m.length < 2 ^ 31)
    (he : e ≤ m.length) (hf : Framed m e p es)
    (hx : ∀ x ∈ es, ∃ t, f (x.1 - 4) = ok t ∧
      Ends (printElement m fmt nested (x.1 - 4)) n (.done (t.text m fmt n ++ bytesOf "\n"))) : ∀ fuel,
        es.length ≤ fuel →
    ∃ ts, walkElements m f e fuel p = ok ts ∧
      Ends (printElements m fmt nested e fuel p) n (.done (ReadTree.lines m fmt n ts)) := by
  induction hf with
  | nil =>
    intro fuel _
    exact ⟨[], by unfold walkElements; rw [if_pos rfl], printElements_end rfl⟩
  | @cons p es h1 _ h2 hf ih =>
    intro fuel hfuel
    obtain ⟨fuel, rfl⟩ : ∃ k, fuel = k + 1 := ⟨fuel - 1, by simp only [List.length_cons] at hfuel; omega⟩
    have hat := elementAt_of_le hm (Nat.le_trans h2 he)
    obtain ⟨t, ht, hprint⟩ := hx _ (List.mem_cons_self ..)
    obtain ⟨ts, hts, hrest⟩ := ih (fun x hm => hx x (List.mem_cons_of_mem _ hm)) fuel (by simpa using hfuel)
    refine ⟨t :: ts, ?_, printElements_next (by omega) hat (by omega) hprint hrest⟩
    rw [walkElements, if_neg (by omega), show f p = ok t from ht, ok_bind,
      elementAdvance_eq (show p + 4 ≤ m.length by omega) (by omega), ok_bind, hts, ok_bind]

variable (fmt) in
/-- What the gate accepts at a bound within the limit is printed as its full read. -/
theorem valid_shown (hm : m.length < 2 ^ 31) {d p : Nat} {size : Int} (h : Valid m d p size) :
    p + size.toNat ≤ m.length →
    ∀ (n levels fuel : Nat) (nested : ReceivedBundle → Thread → Out (Exn × Thread) Thread), n + d ≤ 64 →
      (0 < d → nested = printBundle m fmt levels ∧ d ≤ levels + 1) → size.toNat ≤ fuel →
      ∃ t, readContents m p size fuel = ok t ∧ Shown m fmt nested n p size t := by
  induction h with
  | @message d p size r hs hh hmsg =>
    intro hl n levels fuel nested _ _ _
    have hinit := (ReceivedMessage.tryInit_decides hl).iff.mpr
      ⟨hs, rfl, show IsMessage m p (p + size.toNat) { r with size := size } from hmsg⟩
    obtain ⟨visits, last, hw, hp⟩ := printMessage_prints fmt hm hl hinit
    exact ⟨_, readContents_message hl hs hh hinit hw fuel, .message hh hinit hp⟩
  | @bundle d p size es hb _ ih =>
    intro hl n levels fuel nested hn hnested hfuel
    obtain ⟨rfl, hd⟩ := hnested (by omega)
    have hf := hb.2.2.2
    have hlen := hf.length_le
    obtain ⟨h1, h2, h3⟩ := hb.1
    obtain ⟨fuel, rfl⟩ : ∃ k, fuel = k + 1 := ⟨fuel - 1, by omega⟩
    -- the recursive call that the elements are printed with
    obtain ⟨inner, levels', hinner, hcall⟩ : ∃ inner levels', printBundle m fmt levels = printBundleBody m fmt inner ∧
        (0 < d → inner = printBundle m fmt levels' ∧ d ≤ levels' + 1) := by
      cases levels with
      | zero => exact ⟨_, 0, rfl, fun h0 => by omega⟩
      | succ levels => exact ⟨_, levels, rfl, fun _ => ⟨rfl, by omega⟩⟩
    let read : Nat → Out Exn ReadTree := fun i => do
      let n ← elementSize m i
      readContents m (i + 4) n fuel
    have hx : ∀ x ∈ es, ∃ t, read (x.1 - 4) = ok t ∧
        Ends (printElement m fmt inner (x.1 - 4)) (n + 1) (.done (t.text m fmt (n + 1) ++ bytesOf "\n")) := by
      intro x hxm
      obtain ⟨h4, hw⟩ := hf.word_eq x hxm
      have hin := hf.inside x hxm
      have hpos : x.1 - 4 + 4 = x.1 := Nat.sub_add_cancel h4
      have hsz := elementSize_eq (show x.1 - 4 + 4 ≤ m.length by omega) (show word m (x.1 - 4) < 2 ^ 31 by omega)
      rw [← hw] at hsz
      obtain ⟨t, ht, hshown⟩ := ih x hxm (by omega) (n + 1) levels' fuel inner (by omega) hcall (by omega)
      refine ⟨t, ?_, Shown.printElement (by rwa [hpos]) ⟨by omega, hsz⟩⟩
      dsimp only [read]
      rw [hsz, ok_bind, hpos, ht]
    obtain ⟨ts, hts, hprint⟩ := printElements_shown hm hl hf hx m.length (by omega)
    have hends := printBundleBody_ends _ _ hb hl (by omega) hprint
    rw [← hinner] at hends
    refine ⟨_, readContents_bundle hl hb hts, .bundle (by omega) h1 (bundleTag_head hb.2.2.1)
      ((ReceivedBundle.tryInit_decides hl).iff.mpr ⟨es, hb, rfl⟩) ?_⟩
    simp only [Ending.inside, headerText, footerText, List.append_assoc] at hends
    simp only [ReadTree.text, List.append_assoc]
    exact hends

end OscTap.Received
