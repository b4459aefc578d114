/-
  OscTap.Received.PrintHistory — sequences of packets printed on one thread (see
  `OscTap.Received.Print`).

  The one thing that lasts from a call of the printer to the next is `indent`. A bundle
  raises it in front of its elements and lowers it behind them; an exception from an element
  leaves without lowering it, once for every bundle that is open, and every later bundle is
  printed that much further in and reaches the limit that much earlier.

  Proved: `printing_history_free`, for every sequence of packets with the exceptions caught:
  what is printed later is what a fresh thread prints, and what the gate accepts is printed
  in full, if and only if every packet of the sequence is `ElementsPrintable`.
-/
import OscTap.Lib.Machine
import OscTap.Received.PrintBundle
import OscTap.Received.Reading

namespace OscTap.Received

open OscTap.Lib OscTap.Lib.Out OscTap.Osc OscTap.Lib.Ostream

variable {fmt : Formats}

/-! ## The indentation -/

/-- A call that returns leaves the indentation as it was, and one that throws does not lower it. -/
def Steady (f : Thread → Out (Exn × Thread) Thread) : Prop :=
  ∀ s, Weakly (f s) (fun s' => s'.indent = s.indent) fun e => s.indent ≤ e.2.indent

theorem weakly_throwing {α : Type} (s : Thread) (x : Out Exn α) :
    Weakly (throwing s x) (fun _ => True) fun e => s.indent ≤ e.2.indent := by
  cases x <;> simp [throwing]

theorem weakly_isBundle {ε : Type} (m : Bytes) (p : Nat) (size : Int) {Q : ε → Prop} :
    Weakly (isBundle m p size : Out ε Bool) (fun _ => True) Q := by
  rw [isBundle]
  split
  · cases hc : m[p]? <;> simp [rd, hc]
  · trivial

theorem weakly_output (s : Thread) (f : Ostream → Out Exn Ostream) :
    Weakly (s.output f) (fun s' => s'.indent = s.indent) fun e => s.indent ≤ e.2.indent := by
  rw [Thread.output]
  cases f s.os <;> simp

variable {m : Bytes} {nested : ReceivedBundle → Thread → Out (Exn × Thread) Thread}

theorem printElement_steady (h : ∀ b, Steady (nested b)) (i : Nat) : Steady (printElement m fmt nested i) := by
  intro s
  refine (weakly_throwing s _).bind fun size _ => (weakly_isBundle m _ _).bind fun bundle _ => ?_
  split
  · split
    · rfl
    · refine (weakly_throwing s _).bind fun b _ => (h b s).bind fun s' hs => hs
  · refine (weakly_throwing s _).bind fun r _ => (weakly_output s.putIndent _).bind fun s' hs => hs

theorem printElements_steady (h : ∀ b, Steady (nested b)) (e : Nat) :
    ∀ fuel i, Steady (printElements m fmt nested e fuel i) := by
  intro fuel
  induction fuel with
  | zero =>
    intro i s
    unfold printElements
    split
    · rfl
    · trivial
  | succ fuel ih =>
    intro i s
    unfold printElements
    split
    · rfl
    · refine (printElement_steady h i s).bind fun s₁ h1 => ?_
      have hnext := weakly_throwing s₁ (elementAdvance m i)
      rw [h1] at hnext
      refine hnext.bind fun next _ => ?_
      have hrest := ih next s₁
      rwa [h1] at hrest

theorem weakly_raise (s : Thread) {Q : Exn × Thread → Prop} :
    Weakly s.raise (fun s' => s'.indent = s.indent + 1) Q := by
  rw [Thread.raise]
  split
  · rfl
  · trivial

theorem printBundleBody_steady (h : ∀ b, Steady (nested b)) (b : ReceivedBundle) :
    Steady (printBundleBody m fmt nested b) := by
  intro s
  refine (weakly_throwing s _).bind fun timeTag _ => ?_
  refine (weakly_raise _).bind fun s₁ h1 => ?_
  -- neither way of writing the time tag changes the indentation
  have hraised : s₁.indent = s.indent + 1 := by split at h1 <;> exact h1
  refine Weakly.bind ((printElements_steady h _ _ _ s₁).mono (fun _ h => h) fun e he => by omega) fun s₂ h2 => ?_
  show s₂.indent - 1 = s.indent
  omega

theorem printBundle_steady : ∀ (levels : Nat) (b : ReceivedBundle), Steady (printBundle m fmt levels b)
  | 0, b => printBundleBody_steady (fun _ _ => (weakly_fault _).mpr trivial) b
  | levels + 1, b => printBundleBody_steady (printBundle_steady levels) b

variable (fmt) in
theorem printPacket_steady (q : PacketBuffer) : Steady (printPacket fmt q) := by
  intro s
  refine (weakly_isBundle _ _ _).bind fun bundle _ => ?_
  split
  · exact (weakly_throwing s _).bind fun b _ => (printBundle_steady _ b s).bind fun s' hs => hs
  · exact (weakly_throwing s _).bind fun r _ => (weakly_output s _).bind fun s' hs => hs

/-! ## One packet -/

/-- All that the printer constructs in a framed packet is well formed: bundles down to the
    limit, and messages. Of a packet that is no framed bundle nothing is asked. -/
def ElementsPrintable (q : PacketBuffer) : Prop :=
  ∀ es, IsBundle q.bytes 0 q.bytes.length es → ∀ x ∈ es, Printable q.bytes 63 x.1 x.2

def Ending.raised : Ending → Nat
  | done _ => 0
  | thrown _ k _ => k

theorem Ending.raised_inside (y : Ending) (h f : Bytes) : (y.inside h f).raised = 0 ↔ y.Done := by
  cases y with
  | done u => exact iff_of_true rfl trivial
  | thrown e k u => exact iff_of_false (Nat.succ_ne_zero k) id

theorem Ending.raised_before (y : Ending) (t : Bytes) : (y.before t).raised = y.raised := by cases y <;> rfl

theorem PacketBuffer.sizeOk (q : PacketBuffer) : SizeOk (q.bytes.length : Int) := validateSizeNoThrow_none.mp q.valid

theorem PacketBuffer.isBundle_eq (q : PacketBuffer) {ε : Type} :
    (isBundle q.bytes 0 q.bytes.length : Out ε Bool) = ok (decide (q.bytes[0]? = some (ch '#'))) :=
  Received.isBundle_eq (by simp) q.sizeOk.1

theorem printPacket_bundle {q : PacketBuffer} (hh : q.bytes[0]? = some (ch '#')) {b : ReceivedBundle}
    (hi : ReceivedBundle.tryInit q.bytes 0 q.bytes.length = ok b) {n : Nat} {y : Ending}
    (hy : Ends (printBundle q.bytes fmt maxBundlePrintDepth b) n y) :
      Ends (printPacket fmt q) n (y.before (bytesOf "\n")) := by
  refine (hy.put (bytesOf "\n")).congr fun os => ?_
  simp [printPacket, q.isBundle_eq, hh, ReceivedBundle.mk', hi]

theorem printPacket_bundle_refused {q : PacketBuffer} (hh : q.bytes[0]? = some (ch '#')) {e : String}
    (hi : ReceivedBundle.tryInit q.bytes 0 q.bytes.length = err e) (n : Nat) :
    Ends (printPacket fmt q) n (.thrown (.malformedBundle e) 0 []) := by
  refine ends_thrown fun os => ?_
  simp [printPacket, q.isBundle_eq, hh, ReceivedBundle.mk', hi]

theorem printPacket_message {q : PacketBuffer} (hh : q.bytes[0]? ≠ some (ch '#')) {r : ReceivedMessage}
    (hi : ReceivedMessage.tryInit q.bytes 0 q.bytes.length = ok r) {t : Bytes}
    (hp : Prints (printMessage q.bytes fmt r) t) (n : Nat) :
    Ends (printPacket fmt q) n (.done (t ++ bytesOf "\n")) := by
  intro os
  obtain ⟨os₁, h1, hw1⟩ := hp os
  refine ⟨_, ?_, hw1.put _⟩
  simp [printPacket, q.isBundle_eq, hh, ReceivedMessage.mk', hi, Thread.output, h1]
  rfl

theorem printPacket_message_refused {q : PacketBuffer} (hh : q.bytes[0]? ≠ some (ch '#')) {e : String}
    (hi : ReceivedMessage.tryInit q.bytes 0 q.bytes.length = err e) (n : Nat) :
    Ends (printPacket fmt q) n (.thrown (.malformedMessage e) 0 []) := by
  refine ends_thrown fun os => ?_
  simp [printPacket, q.isBundle_eq, hh, ReceivedMessage.mk', hi]

variable (fmt) in
/-- How the printing of a packet ends, at any indentation. -/
theorem printPacket_ends (q : PacketBuffer) {n : Nat} (hn : n + 1 < 2 ^ 31) :
    ∃ y, Ends (printPacket fmt q) n y ∧
      (y.raised = 0 ↔ ∀ es, IsBundle q.bytes 0 q.bytes.length es → ∀ x ∈ es, Printable q.bytes (63 - n) x.1 x.2) := by
  obtain ⟨hpos, hmax, hal⟩ := q.sizeOk
  have hm : q.bytes.length < 2 ^ 31 := by omega
  have hl : 0 + (q.bytes.length : Int).toNat ≤ q.bytes.length := by simp
  by_cases hh : q.bytes[0]? = some (ch '#')
  · rcases (ReceivedBundle.tryInit_decides hl).ok_or_err with ⟨b, hi, es, hes, rfl⟩ | ⟨e, hi, hno⟩
    · obtain ⟨y, hy, hdone⟩ := printBundle_ends fmt hm 64 (by omega) hn 0 _ es hes hl
      refine ⟨_, printPacket_bundle hh hi hy, ?_⟩
      rw [Ending.raised_before, Ending.raised_inside, hdone]
      constructor
      · intro hall es' hes'
        rwa [← hes.unique hes']
      · exact fun hall => hall es hes
    · refine ⟨_, printPacket_bundle_refused hh hi n, ?_⟩
      exact iff_of_true rfl fun es hes => (hno _ ⟨es, hes, rfl⟩).elim
  · have hnone : ∀ es, ¬ IsBundle q.bytes 0 q.bytes.length es := fun es hes => hh (bundleTag_head hes.2.2.1)
    rcases (ReceivedMessage.tryInit_decides hl).ok_or_err with ⟨r, hi, -⟩ | ⟨e, hi, -⟩
    · obtain ⟨visits, last, -, hp⟩ := printMessage_prints fmt hm hl hi
      exact ⟨_, printPacket_message hh hi hp n, iff_of_true rfl fun es hes => absurd hes (hnone es)⟩
    · exact ⟨_, printPacket_message_refused hh hi n, iff_of_true rfl fun es hes => absurd hes (hnone es)⟩

variable (fmt) in
/-- It ends without an exception exactly if all of the packet is printable. -/
theorem printPacket_done (q : PacketBuffer) : ∃ y, Ends (printPacket fmt q) 0 y ∧
    (y.Done ↔ Printable q.bytes 64 0 q.bytes.length) := by
  obtain ⟨hpos, hmax, hal⟩ := q.sizeOk
  have hm : q.bytes.length < 2 ^ 31 := by omega
  have hl : 0 + (q.bytes.length : Int).toNat ≤ q.bytes.length := by simp
  by_cases hh : q.bytes[0]? = some (ch '#')
  · rcases (ReceivedBundle.tryInit_decides hl).ok_or_err with ⟨b, hi, es, hes, rfl⟩ | ⟨e, hi, hno⟩
    · obtain ⟨y, hy, hdone⟩ := printBundle_ends fmt hm 64 (by omega) (show 0 + 1 < 2 ^ 31 by decide) 0 _ es hes hl
      refine ⟨_, printPacket_bundle hh hi hy, ?_⟩
      rw [Ending.before_done, Ending.inside_done, hdone]
      constructor
      · exact fun hall => .bundle hes hall
      · intro h
        cases h with
        | message _ hno _ => exact absurd hh hno
        | @bundle _ _ _ es' hes' hall =>
          obtain rfl := hes.unique hes'
          exact hall
    · refine ⟨_, printPacket_bundle_refused hh hi 0, iff_of_false id fun h => ?_⟩
      cases h with
      | message _ hno _ => exact hno hh
      | @bundle _ _ _ es hes _ => exact hno _ ⟨es, hes, rfl⟩
  · rcases (ReceivedMessage.tryInit_decides hl).ok_or_err with ⟨r, hi, hr⟩ | ⟨e, hi, hno⟩
    · obtain ⟨visits, last, -, hp⟩ := printMessage_prints fmt hm hl hi
      exact ⟨_, printPacket_message hh hi hp 0, iff_of_true trivial (.message hr.1 hh hr.2.2)⟩
    · refine ⟨_, printPacket_message_refused hh hi 0, iff_of_false id fun h => ?_⟩
      cases h with
      | message hs _ hr =>
        obtain ⟨d, hd, -⟩ := hr.decode hl
        obtain ⟨r, hsize, hr⟩ := hd.message q.bytes.length
        exact hno r ⟨hs, hsize, hr⟩
      | bundle hes _ => exact hh (bundleTag_head hes.2.2.1)

variable (fmt) in
/-- What the gate accepts at the bound 64 is printed as its full read. -/
theorem printPacket_full {q : PacketBuffer} (h : tryValidatePacket q.bytes 0 q.bytes.length 64 = ok ()) :
    ∃ t, readPacket q.bytes q.bytes.length = ok t ∧
      Ends (printPacket fmt q) 0 (.done (t.text q.bytes fmt 0 ++ bytesOf "\n")) := by
  obtain ⟨hpos, hmax, hal⟩ := q.sizeOk
  have hl : 0 + (q.bytes.length : Int).toNat ≤ q.bytes.length := by simp
  have hv := (tryValidatePacket_decides 64 0 _ hl).iff.mp h
  obtain ⟨t, hread, hshown⟩ := valid_shown fmt (by omega) hv hl 0 64 q.bytes.length
    (printBundle q.bytes fmt maxBundlePrintDepth) (by omega) (fun _ => ⟨rfl, by omega⟩) (by simp)
  refine ⟨t, ?_, ?_⟩
  · rw [readPacket, ReceivedPacket.mk', q.valid]
    exact hread
  · cases hshown with
    | message hh hi hp =>
      rw [ReadTree.text]
      exact printPacket_message hh hi hp 0
    | bundle _ _ hh hi hy => exact printPacket_bundle hh hi hy

/-! ## Sequences -/

/-- Print a packet to a stream; one that is used again is the one the last call left. -/
def printOn (fmt : Formats) (op : PacketBuffer × Ostream) (s : Thread) : Out (Exn × Thread) Thread :=
  printPacket fmt op.1 { s with os := op.2 }

variable (fmt) in
/-- Printing with the indentation at its start. -/
theorem printOn_level (op : PacketBuffer × Ostream) {s : Thread} (h : s.indent = 0) :
    ∃ s', attempt (printOn fmt op s) = ok s' ∧ (s'.indent = 0 ↔ ElementsPrintable op.1) := by
  obtain ⟨y, hy, hraised⟩ := printPacket_ends fmt op.1 (show 0 + 1 < 2 ^ 31 by decide)
  rw [printOn, h]
  cases y with
  | done t =>
    obtain ⟨os', he, -⟩ := hy op.2
    exact ⟨_, by rw [he]; rfl, hraised⟩
  | thrown e k t =>
    obtain ⟨os', he, -⟩ := hy op.2
    refine ⟨_, by rw [he]; rfl, ?_⟩
    rw [Nat.zero_add]
    exact hraised

theorem printOn_mono {op : PacketBuffer × Ostream} {s s' : Thread} (h : attempt (printOn fmt op s) = ok s') :
    s.indent ≤ s'.indent := by
  have hs := printPacket_steady fmt op.1 { s with os := op.2 }
  rw [printOn] at h
  cases hx : printPacket fmt op.1 { s with os := op.2 } with
  | ok x =>
    rw [hx] at h hs
    rw [← Out.ok.inj h]
    exact Nat.le_of_eq hs.symm
  | err e =>
    rw [hx] at h hs
    rw [← Out.ok.inj h]
    exact hs
  | fault f =>
    rw [hx] at h
    cases h

theorem runCaught_mono : ∀ {ops : List (PacketBuffer × Ostream)} {s s' : Thread},
    runCaught (printOn fmt) ops s = ok s' → s.indent ≤ s'.indent
  | [], s, s', h => by
    rw [show s = s' from Out.ok.inj h]
  | op :: ops, s, s', h => by
    rw [runCaught, List.foldlM_cons] at h
    obtain ⟨s₁, h1, h2⟩ := bind_eq_ok.mp h
    exact Nat.le_trans (printOn_mono h1) (runCaught_mono h2)

/-- The indentation is at its start again exactly behind a sequence of sound packets. -/
theorem runCaught_level : ∀ {ops : List (PacketBuffer × Ostream)} {s : Thread}, s.indent = 0 →
    ((∃ s', runCaught (printOn fmt) ops s = ok s' ∧ s'.indent = 0) ↔ ∀ op ∈ ops, ElementsPrintable op.1)
  | [], s, h => iff_of_true ⟨s, rfl, h⟩ (fun _ hm => absurd hm List.not_mem_nil)
  | op :: ops, s, h => by
    obtain ⟨s₁, h1, hsound⟩ := printOn_level fmt op h
    rw [runCaught_cons h1, List.forall_mem_cons, ← hsound]
    constructor
    · intro ⟨s', hrun, hzero⟩
      have hle := runCaught_mono hrun
      have h0 : s₁.indent = 0 := by omega
      exact ⟨h0, (runCaught_level h0).mp ⟨s', hrun, hzero⟩⟩
    · intro ⟨h0, hall⟩
      exact (runCaught_level h0).mpr hall

/-! ## What a caller sees -/

def seen (x : Out (Exn × Thread) Thread) : Out (Exn × Ostream) Ostream :=
  match x with
  | ok s => ok s.os
  | err e => err (e.1, e.2.os)
  | fault f => fault f

def emptyBundle : PacketBuffer := ⟨bundleTag ++ be64 1, by decide +kernel⟩

theorem emptyBundle_isBundle : IsBundle emptyBundle.bytes 0 emptyBundle.bytes.length [] :=
  ⟨emptyBundle.sizeOk, by decide +kernel, by decide +kernel, .nil⟩

theorem emptyBundle_head : emptyBundle.bytes[0]? = some (ch '#') := bundleTag_head emptyBundle_isBundle.2.2.1

theorem emptyBundle_init :
    ReceivedBundle.tryInit emptyBundle.bytes 0 emptyBundle.bytes.length = ok ⟨8, emptyBundle.bytes.length, 0⟩ := by
  have hl : 0 + (emptyBundle.bytes.length : Int).toNat ≤ emptyBundle.bytes.length := by simp
  simpa using (ReceivedBundle.tryInit_decides hl).iff.mpr ⟨[], emptyBundle_isBundle, rfl⟩

theorem printBundle_outermost (m : Bytes) (fmt : Formats) :
    printBundle m fmt maxBundlePrintDepth = printBundleBody m fmt (printBundle m fmt 63) := rfl

variable (fmt) in
theorem emptyBundle_ends {n : Nat} (hn : n + 1 < 2 ^ 31) : Ends (printPacket fmt emptyBundle) n
    (.done (headerText n (timeTagAt emptyBundle.bytes 0) ++ [] ++ footerText n ++ bytesOf "\n")) := by
  have hbody := printBundleBody_ends fmt (printBundle emptyBundle.bytes fmt 63) emptyBundle_isBundle
    (by simp) hn (printElements_end (by decide +kernel))
  rw [← printBundle_outermost, Nat.zero_add] at hbody
  exact printPacket_bundle emptyBundle_head emptyBundle_init hbody

theorem emptyBundle_wraps {n : Nat} (hn : ¬ n + 1 < 2 ^ 31) (os : Ostream) :
    printPacket fmt emptyBundle ⟨n, os⟩ = fault .wrap := by
  have htime := rd64_of_le (ε := Exn) (show 8 + 8 ≤ emptyBundle.bytes.length by decide +kernel)
  simp only [printPacket, emptyBundle.isBundle_eq, emptyBundle_head, ReceivedBundle.mk', emptyBundle_init,
    mapErr_ok, throwing_ok, ok_bind, decide_true, if_true, printBundle_outermost, printBundleBody, htime, map_ok]
  rw [Thread.raise, if_neg]
  · rfl
  · split <;> exact hn

theorem length_indentText (n : Nat) : (indentText n).length = 2 * n := by
  induction n with
  | zero => rfl
  | succ n ih =>
    have h2 : (bytesOf "  ").length = 2 := by decide +kernel
    rw [indentText, List.length_append, ih, h2]
    omega

/-- A raised indentation shows: an empty bundle is printed further in. -/
theorem indent_of_seen {n : Nat}
    (h : seen (printPacket fmt emptyBundle ⟨n, .fresh⟩) = seen (printPacket fmt emptyBundle ⟨0, .fresh⟩)) : n = 0 := by
  obtain ⟨os₀, h0, hw0⟩ := emptyBundle_ends fmt (n := 0) (by decide) .fresh
  rw [h0] at h
  by_cases hn : n + 1 < 2 ^ 31
  · obtain ⟨os, h1, hw1⟩ := emptyBundle_ends fmt hn .fresh
    rw [h1] at h
    obtain rfl : os = os₀ := Out.ok.inj h
    have htext := (hw1 fresh_plain).2.symm.trans (hw0 fresh_plain).2
    have hlen := congrArg List.length htext
    simp only [headerText, footerText, List.length_append, length_indentText] at hlen
    omega
  · rw [emptyBundle_wraps hn] at h
    cases h

/-! ## Independence of history -/

def ending (thrown : Option Exn) (os : Ostream) : Out (Exn × Ostream) Ostream :=
  match thrown with
  | none => ok os
  | some e => err (e, os)

/-- From here on every packet is printed as on a fresh thread. -/
structure HistoryFree (fmt : Formats) (s : Thread) : Prop where
  same : ∀ q os, seen (printPacket fmt q { s with os := os }) = seen (printPacket fmt q ⟨0, os⟩)
  /-- Nor does the text depend on what the stream has been used for. -/
  plain : ∀ q, ∃ (e : Option Exn) (t : Bytes), ∀ os, ∃ os',
    seen (printPacket fmt q { s with os := os }) = ending e os' ∧ Wrote os t os'
  /-- What the gate accepts is printed in full. -/
  full : ∀ q, tryValidatePacket q.bytes 0 q.bytes.length 64 = ok () → ∃ t, readPacket q.bytes q.bytes.length = ok t ∧
    ∀ os, ∃ os', seen (printPacket fmt q { s with os := os }) = ok os' ∧
      Wrote os (t.text q.bytes fmt 0 ++ bytesOf "\n") os'

theorem historyFree_of_level {s : Thread} (h : s.indent = 0) : HistoryFree fmt s := by
  obtain ⟨indent, os⟩ := s
  obtain rfl : indent = 0 := h
  refine ⟨fun _ _ => rfl, fun q => ?_, fun q hq => ?_⟩
  · obtain ⟨y, hy, -⟩ := printPacket_ends fmt q (show 0 + 1 < 2 ^ 31 by decide)
    cases y with
    | done t =>
      refine ⟨none, t, fun os => ?_⟩
      obtain ⟨os', he, hw⟩ := hy os
      exact ⟨os', by rw [he]; rfl, hw⟩
    | thrown e k t =>
      refine ⟨some e, t, fun os => ?_⟩
      obtain ⟨os', he, hw⟩ := hy os
      exact ⟨os', by rw [he]; rfl, hw⟩
  · obtain ⟨t, hread, hprint⟩ := printPacket_full fmt hq
    refine ⟨t, hread, fun os => ?_⟩
    obtain ⟨os', he, hw⟩ := hprint os
    exact ⟨os', by rw [he]; rfl, hw⟩

theorem historyFree_iff {s : Thread} : HistoryFree fmt s ↔ s.indent = 0 :=
  ⟨fun h => indent_of_seen (h.same emptyBundle .fresh), historyFree_of_level⟩

/-- Behind a sequence of packets, whatever exceptions were caught, every packet is printed as
    on a fresh thread if and only if no exception came out of a bundle of the sequence. -/
theorem printing_history_free (fmt : Formats) (ops : List (PacketBuffer × Ostream)) :
    (∃ s, runCaught (printOn fmt) ops .fresh = ok s ∧ HistoryFree fmt s) ↔ ∀ op ∈ ops, ElementsPrintable op.1 := by
  simp only [historyFree_iff]
  exact runCaught_level rfl

/-- A bundle whose one element is a message without the NULs of its address. -/
def unterminated : PacketBuffer := ⟨bundleTag ++ be64 1 ++ be32 4 ++ [ch 'a', ch 'a', ch 'a', ch 'a'],
    by decide +kernel⟩

/-- Its exception is caught; the next packet, which has no elements, is printed inside the
    bundle that was left open. -/
theorem caught_exception_indents :
    let fmt : Formats := ⟨fun _ => [], fun _ => [], fun _ => none⟩
    let s : Thread := ⟨1, Ostream.fresh.write (bytesOf "\x7b ( immediate )\n")⟩
    runCaught (printOn fmt) [(unterminated, .fresh)] .fresh = ok s ∧
      seen (printPacket fmt emptyBundle ⟨0, .fresh⟩) = ok (Ostream.fresh.write (bytesOf "\x7b ( immediate )\n\x7d\n")) ∧
      seen (printPacket fmt emptyBundle { s with os := .fresh }) =
        ok (Ostream.fresh.write (bytesOf "  \x7b ( immediate )\n  \x7d\n")) ∧
      ¬ HistoryFree fmt s := by
  refine ⟨by decide +kernel, by decide +kernel, by decide +kernel, fun h => ?_⟩
  exact absurd (h.same emptyBundle .fresh) (by decide +kernel)

end OscTap.Received
