/-
  OscTap.Received.ArgumentStream — the two ways to read the arguments of a message
  (`osctap/osc/OscReceivedElements.h`, as in `examples/SimpleReceive.cpp`).

  An operand of `args >> a₁ >> .. >> EndMessage` is read through the checked accessor of its
  type. At the end of the arguments the operator throws; at an argument of another type the
  accessor throws, and the stream is already behind that argument. The other way is
  `(arg++)->AsT()` and a comparison with `ArgumentsEnd()`.

  Proved, for every message that is parsed: `stream_is_cursor`, over every sequence of
  operators, each exception caught, the stream is a cursor in the list of the arguments;
  `interfaces_agree`, both ways read exactly the lists the operands' types take, and where
  they throw, which exception it is.
-/
import OscTap.Lib.Machine
import OscTap.Received.Inspect
import OscTap.Received.Decode
import OscTap.Received.Reading

namespace OscTap.Received

open OscTap.Lib OscTap.Lib.Out OscTap.Osc

/-! ## Operands -/

/-- The tag an accessor tests for; `AsBool` takes the other one too. -/
def Accessor.tag : Accessor → TypeTag
  | asBool => .trueTag
  | asInt32 => .int32Tag
  | asFloat => .floatTag
  | asChar => .charTag
  | asRgbaColor => .rgbaColorTag
  | asMidiMessage => .midiMessageTag
  | asInt64 => .int64Tag
  | asTimeTag => .timeTagTag
  | asDouble => .doubleTag
  | asString => .stringTag
  | asSymbol => .symbolTag
  | asBlob => .blobTag

def Accessor.read (m : Bytes) (c : Accessor) (a : ReceivedMessageArgument) : Out Exn ArgValue := readAs m c.tag a

def Accessor.takes (c : Accessor) (t : TypeTag) : Bool := t == c.tag || c == asBool && t == .falseTag

inductive Pull where
  | operand (c : Accessor)
  | endMessage
  deriving DecidableEq, Repr

/-- The stream and the values it has given to operands. -/
structure Extraction where
  stream : ReceivedMessageArgumentStream
  got : List ArgValue
  deriving DecidableEq, Repr

/-- `operator>>`: `(*p_++).AsT()` increments before the accessor runs. -/
def pull (m : Bytes) (op : Pull) (s : Extraction) : Out (Exn × Extraction) Extraction :=
  match op with
  | .operand c =>
    if s.stream.eos then err (.missingArgument, s)
    else do
      let next ← (advance m s.stream.p).mapErr fun e => (e, s)
      let moved := { s with stream := { s.stream with p := next } }
      let v ← (c.read m s.stream.p).mapErr fun e => (e, moved)
      ok { moved with got := s.got ++ [v] }
  | .endMessage => if s.stream.eos then ok s else err (.excessArgument, s)

/-- `args >> a₁ >> .. >> aₙ >> EndMessage`: what the operands hold if nothing is thrown. -/
def streamAll (m : Bytes) (cs : List Accessor) (args : ReceivedMessageArgumentStream) : Out Exn (List ArgValue) :=
  match runAll (pull m) (cs.map .operand ++ [.endMessage]) ⟨args, []⟩ with
  | ok s => ok s.got
  | err e => err e.1
  | fault f => fault f

/-- What `operator>>` gives; `pull` also says where a throw leaves the stream. -/
theorem pull_extract (m : Bytes) (c : Accessor) (s : Extraction) : mapErr Prod.fst (pull m (.operand c) s) =
    (fun x => ⟨x.2, s.got ++ [x.1]⟩) <$> s.stream.extract m (c.read m) := by
  rw [pull, ReceivedMessageArgumentStream.extract]
  split
  · rfl
  · cases advance m s.stream.p with
    | ok next =>
      simp only [mapErr_ok, ok_bind]
      cases c.read m s.stream.p <;> rfl
    | err e => rfl
    | fault f => rfl

/-- `(arg++)->AsT()` for some accessors, then `if( arg != end ) throw`. -/
def iterateAll (m : Bytes) (end_ : ReceivedMessageArgument) : List Accessor → ReceivedMessageArgument →
    Out Exn (List ArgValue)
  | [], it => if it.typeTagPtr = end_.typeTagPtr then ok [] else err .excessArgument
  | c :: cs, it => do
    let next ← advance m it
    let v ← c.read m it
    let vs ← iterateAll m end_ cs next
    ok (v :: vs)

/-! ## The cursor -/

structure Cursor where
  rest : List ArgValue
  got : List ArgValue

def Cursor.pull (op : Pull) (a : Cursor) : Except (Exn × Cursor) Cursor :=
  match op with
  | .operand c =>
    match a.rest with
    | [] => .error (.missingArgument, a)
    | v :: vs => if c.takes v.tag then .ok ⟨vs, a.got ++ [v]⟩ else .error (.wrongArgumentType, ⟨vs, a.got⟩)
  | .endMessage => if a.rest.isEmpty then .ok a else .error (.excessArgument, a)

/-- A read of all arguments as some types: the values, if the types take exactly them. -/
def readList (missing : Exn) : List Accessor → List ArgValue → Out Exn (List ArgValue)
  | [], [] => ok []
  | [], _ :: _ => err .excessArgument
  | _ :: _, [] => err missing
  | c :: cs, v :: vs => if c.takes v.tag then (v :: ·) <$> readList missing cs vs else err .wrongArgumentType

variable {m : Bytes} {tt p q e : Nat}

theorem Accessor.takes_tag (c : Accessor) : c.takes c.tag = true := by simp [Accessor.takes]

theorem Accessor.takes_bool : Accessor.asBool.takes .falseTag = true := rfl

/-- An accessor that takes an argument gives its value. -/
theorem Accessor.read_eq {c : Accessor} {v : ArgValue} (ht : m[tt]? = some v.tag.value) (hr : ArgRange m v.tag p q)
    (hq : q ≤ m.length) (hv : Holds m v.tag p v) (hc : c.takes v.tag = true) : c.read m ⟨some tt, some p⟩ = ok v := by
  have hsame : c.read m ⟨some tt, some p⟩ = readAs m v.tag ⟨some tt, some p⟩ := by
    simp only [Accessor.takes, Bool.or_eq_true, Bool.and_eq_true, beq_iff_eq] at hc
    rcases hc with hc | ⟨rfl, hc⟩
    · rw [Accessor.read, hc]
    · rw [Accessor.read, hc]
      rfl
  have hstream : Streamable v.tag := by
    simp only [Accessor.takes, Bool.or_eq_true, Bool.and_eq_true, beq_iff_eq] at hc
    rcases hc with hc | ⟨-, hc⟩
    · rw [hc]
      cases c <;> trivial
    · rw [hc]
      trivial
  rw [hsame, readAs_eq ht hstream, readUnchecked_eq ht hr hq hv]

/-- Where the tag is not one it takes, an accessor throws. -/
theorem Accessor.read_wrong {c : Accessor} {x : UInt8} (ht : m[tt]? = some x) (hx : ∀ t, c.takes t = true → x ≠ t.value)
    (a : Option Nat) : c.read m ⟨some tt, a⟩ = err .wrongArgumentType := by
  have htag := hx c.tag c.takes_tag
  cases c
  case asBool =>
    have hfalse := hx .falseTag Accessor.takes_bool
    have htrue : x ≠ TypeTag.trueTag.value := htag
    simp [Accessor.read, Accessor.tag, readAs, ReceivedMessageArgument.asBool, rd_of_some ht, htrue, hfalse, map_err]
  all_goals
    simp only [Accessor.tag] at htag
    simp [Accessor.read, Accessor.tag, readAs, ReceivedMessageArgument.asInt32, ReceivedMessageArgument.asFloat,
      ReceivedMessageArgument.asChar, ReceivedMessageArgument.asRgbaColor, ReceivedMessageArgument.asMidiMessage,
      ReceivedMessageArgument.asInt64, ReceivedMessageArgument.asTimeTag, ReceivedMessageArgument.asDouble,
      ReceivedMessageArgument.asString, ReceivedMessageArgument.asSymbol, ReceivedMessageArgument.asBlob,
      ReceivedMessageArgument.checkedAs, rd_of_some ht, htag, map_err]

theorem Accessor.read_null (c : Accessor) (a : Option Nat) : c.read m ⟨none, a⟩ = err .missingArgument := by
  cases c <;> rfl

/-! ## Where an iterator stands -/

/-- The iterator stands in front of the arguments `vs`, at their tags; or the message has no
    tags, and it holds null pointers. -/
inductive Ahead (m : Bytes) (end_ : ReceivedMessageArgument) : List ArgValue → ReceivedMessageArgument → Prop
  | tags {vs : List ArgValue} {tt p q : Nat} : CStrAt m tt (tagBytes vs) → Lies m vs p q → q ≤ m.length →
      end_.typeTagPtr = some (tt + vs.length) → Ahead m end_ vs ⟨some tt, some p⟩
  | none {a : Option Nat} : end_.typeTagPtr = none → Ahead m end_ [] ⟨none, a⟩

theorem Ahead.at_end {end_ it : ReceivedMessageArgument} {vs : List ArgValue} (h : Ahead m end_ vs it) :
    it.typeTagPtr = end_.typeTagPtr ↔ vs = [] := by
  cases h with
  | tags _ _ _ he =>
    rw [he, ← List.length_eq_zero_iff]
    simp
  | none he => simp [he]

/-- The increment goes past the first argument, and the accessors see it. -/
theorem Ahead.cons {end_ it : ReceivedMessageArgument} {v : ArgValue} {vs : List ArgValue}
    (h : Ahead m end_ (v :: vs) it) :
    ∃ next, advance m it = ok next ∧ Ahead m end_ vs next ∧ it.typeTagPtr ≠ Option.none ∧
      next.typeTagPtr ≠ Option.none ∧
      readUnchecked m it = ok v ∧ (Streamable v.tag → readAs m v.tag it = ok v) ∧
      ∀ c : Accessor, c.read m it = if c.takes v.tag then ok v else err .wrongArgumentType := by
  cases h with
  | @tags _ tt p q hc hl hq he =>
    cases hl with
    | @cons _ _ _ q' _ hr hv hrest =>
    cases hc with
    | cons htag _ hc =>
    have hq' := Nat.le_trans hrest.le hq
    have hread := readUnchecked_eq htag hr hq' hv
    refine ⟨_, advance_eq htag hr hq', .tags hc hrest hq ?_, Option.some_ne_none _, Option.some_ne_none _, hread,
      fun hs => (readAs_eq htag hs).trans hread, fun c => ?_⟩
    · rw [he, List.length_cons, Nat.add_right_comm, Nat.add_assoc]
    · by_cases ht : c.takes v.tag = true
      · rw [if_pos ht, Accessor.read_eq htag hr hq' hv ht]
      · rw [if_neg ht]
        refine Accessor.read_wrong htag (fun t hc heq => ht ?_) _
        have : v.tag = t := by simpa using congrArg TypeTag.ofByte heq
        rwa [this]

/-- Behind the last argument the iterator stays, and no accessor gives a value. -/
theorem Ahead.last {end_ it : ReceivedMessageArgument} (h : Ahead m end_ [] it) :
    advance m it = ok it ∧ ∀ c : Accessor,
      c.read m it = err (if it.typeTagPtr = Option.none then .missingArgument else .wrongArgumentType) := by
  cases h with
  | @tags _ tt p q hc hl hq he =>
    cases hc with
    | nil hz =>
    refine ⟨advance_nul hz _, fun c => ?_⟩
    exact Accessor.read_wrong hz (fun t _ => (TypeTag.value_ne_zero t).symm) _
  | @none a _ => exact ⟨rfl, fun c => c.read_null a⟩

/-- The iterators of a message that is parsed. -/
theorem IsMessage.ahead {r : ReceivedMessage} {d : Decoded} (h : IsMessage m p e r) (he : e ≤ m.length)
    (hd : Spells m p e d) :
    Ahead m r.argumentsEnd d.arguments r.argumentsBegin ∧ (r.argumentsBegin.typeTagPtr = none ↔ d.arguments = []) := by
  obtain ⟨a, hae, hsa, -, hcase⟩ := h
  obtain ⟨-, -, -, a', -, hsa', hrest⟩ := hd
  obtain rfl := hsa.unique hsa'
  have none_case : (a = e ∨ a < e ∧ m[a]? = some (ch ',') ∧ m[a + 1]? = some 0) → r.typeTagsBegin = none →
    r.typeTagsEnd = none →
      Ahead m r.argumentsEnd d.arguments r.argumentsBegin ∧
        (r.argumentsBegin.typeTagPtr = none ↔ d.arguments = []) := by
    intro hend h1 h2
    have hargs : d.arguments = [] := by
      rcases hrest with ⟨hnil, -⟩ | ⟨hne, hlt, -, b, -, -, hct, -⟩
      · exact hnil
      · rcases hend with rfl | ⟨-, -, hz⟩
        · omega
        · exact absurd (tagBytes_nil.mp (hct.unique (.nil hz))) hne
    rw [hargs, ReceivedMessage.argumentsBegin, h1]
    exact ⟨.none h2, by simp⟩
  rcases hcase with ⟨heq, h1, h2, -⟩ | ⟨hlt, hc, hz, h1, h2, -⟩ | ⟨hlt, -, b, -, hsb, tags, hne, hct, -, h1, h2, h3⟩
  · exact none_case (.inl heq) h1 h2
  · exact none_case (.inr ⟨hlt, hc, hz⟩) h1 h2
  · rcases hrest with ⟨-, hend⟩ | ⟨hargs, -, -, b', -, hsb', hct', -, q, hq, hl⟩
    · rcases hend with rfl | ⟨-, -, hz⟩
      · omega
      · exact absurd (hct.unique (.nil hz)) hne
    · obtain rfl := hsb.unique hsb'
      obtain rfl := hct.unique hct'
      rw [ReceivedMessage.argumentsBegin, h1, h3]
      refine ⟨.tags hct' hl (Nat.le_trans hq he) ?_, by simp [hargs]⟩
      rw [ReceivedMessage.argumentsEnd, h2, tagBytes, List.length_map]

/-! ## The stream -/

/-- The stream stands where the cursor stands, and has given the same values. -/
def Follows (m : Bytes) (s : Extraction) (a : Cursor) : Prop := s.got = a.got ∧ Ahead m s.stream.end_ a.rest s.stream.p

theorem Follows.eos {s : Extraction} {a : Cursor} (h : Follows m s a) : s.stream.eos = true ↔ a.rest = [] := by
  rw [ReceivedMessageArgumentStream.eos, beq_iff_eq, h.2.at_end]

/-- One operator. -/
theorem pull_tracks (op : Pull) (s : Extraction) (a : Cursor) (h : Follows m s a) :
    Tracks (Follows m) (pull m op s) (Cursor.pull op a) := by
  obtain ⟨rest, got⟩ := a
  cases op with
  | endMessage =>
    cases rest with
    | nil => exact ⟨s, by rw [pull, if_pos (h.eos.mpr rfl)], h⟩
    | cons v vs => exact ⟨s, by rw [pull, if_neg (by simp [h.eos])], h⟩
  | operand c =>
    cases rest with
    | nil => exact ⟨s, by rw [pull, if_pos (h.eos.mpr rfl)], h⟩
    | cons v vs =>
      obtain ⟨next, hadv, hnext, -, -, -, -, hread⟩ := h.2.cons
      rw [pull, if_neg (by simp [h.eos]), hadv, mapErr_ok, ok_bind, hread c]
      simp only [Cursor.pull]
      by_cases ht : c.takes v.tag = true
      · rw [if_pos ht, if_pos ht]
        exact ⟨_, rfl, by simp [h.1], hnext⟩
      · rw [if_neg ht, if_neg ht]
        exact ⟨_, rfl, h.1, hnext⟩

/-- Whatever operators a program applies to the stream of a message, catching what they throw:
    the stream gives the arguments one by one, loses the one at which a type does not fit, and
    throws what a cursor in the list of the arguments throws. -/
theorem stream_is_cursor {size : Int} {r : ReceivedMessage} (hl : p + size.toNat ≤ m.length)
    (h : ReceivedMessage.tryInit m p size = ok r) :
    ∃ d, r.decode m = ok d ∧ ∀ pulls : List Pull, ∃ s, runCaught (pull m) pulls ⟨r.argumentStream, []⟩ = ok s ∧
      s.got = (runSettled Cursor.pull pulls ⟨d.arguments, []⟩).got ∧
      (s.stream.eos = true ↔ (runSettled Cursor.pull pulls ⟨d.arguments, []⟩).rest = []) ∧
      thrown (pull m) pulls ⟨r.argumentStream, []⟩ = refusals Cursor.pull pulls ⟨d.arguments, []⟩ := by
  have hm := ((ReceivedMessage.tryInit_decides hl).iff.mp h).2.2
  obtain ⟨d, hd, hdecode⟩ := hm.decode hl
  have hstart : Follows m ⟨r.argumentStream, []⟩ ⟨d.arguments, []⟩ := ⟨rfl, (hm.ahead hl hd).1⟩
  refine ⟨d, hdecode, fun pulls => ?_⟩
  obtain ⟨s, hrun, hs, hthrown⟩ := Tracks.caught pull_tracks pulls hstart
  exact ⟨s, hrun, hs.1, hs.eos, hthrown⟩

def intThenString : Bytes :=
  [ch '/', ch 'a', 0, 0, ch ',', ch 'i', ch 's', 0] ++ be32 7 ++ [ch 'h', ch 'i', 0, 0]

def intThenString.message : ReceivedMessage := ⟨0, some 5, some 7, some 8, 16⟩

def intThenString.pulls : List Pull :=
  [.operand .asString, .endMessage, .operand .asString, .operand .asInt32, .endMessage]

/-- Asked for a string first, the stream throws and goes past the number. -/
theorem stream_is_cursor_intThenString :
    (∃ s, runCaught (pull intThenString) intThenString.pulls ⟨intThenString.message.argumentStream, []⟩ = ok s ∧
      s.got = [.string [ch 'h', ch 'i']]) ∧
      thrown (pull intThenString) intThenString.pulls ⟨intThenString.message.argumentStream, []⟩ =
        [some .wrongArgumentType, some .excessArgument, none, some .missingArgument, none] := by
  obtain ⟨d, hd, hall⟩ := @stream_is_cursor intThenString 0 16 intThenString.message (by decide)
    (by decide +kernel)
  obtain rfl : d = ⟨[ch '/', ch 'a'], 2, [ch 'i', ch 's'], [.int32 7, .string [ch 'h', ch 'i']]⟩ :=
    Out.ok.inj (hd.symm.trans (by decide +kernel))
  obtain ⟨s, hrun, hgot, -, hthrown⟩ := hall intThenString.pulls
  exact ⟨⟨s, hrun, hgot.trans (by decide)⟩, hthrown.trans (by decide)⟩

/-! ## The two interfaces -/

/-- A chain of operators that ends with the terminator. -/
theorem Follows.chain : ∀ (cs : List Accessor) {s : Extraction} {a : Cursor}, Follows m s a →
    (∃ s', runAll (pull m) (cs.map .operand ++ [.endMessage]) s = ok s' ∧
      readList .missingArgument cs a.rest = ok a.rest ∧ s'.got = a.got ++ a.rest) ∨
    ∃ x s', runAll (pull m) (cs.map .operand ++ [.endMessage]) s = err (x, s') ∧
      readList .missingArgument cs a.rest = err x
  | [], s, a, h => by
    obtain ⟨rest, got⟩ := a
    cases rest with
    | nil =>
      exact .inl ⟨s, by simp [runAll, pull, h.eos], rfl, by simp [h.1]⟩
    | cons v vs => exact .inr ⟨.excessArgument, s, by simp [runAll, pull, h.eos], rfl⟩
  | c :: cs, s, a, h => by
    obtain ⟨rest, got⟩ := a
    have hstep := pull_tracks (.operand c) s _ h
    rw [List.map_cons, List.cons_append, runAll, List.foldlM_cons]
    cases rest with
    | nil =>
      obtain ⟨s₁, he, -⟩ := hstep
      exact .inr ⟨.missingArgument, s₁, by rw [he]; rfl, rfl⟩
    | cons v vs =>
      simp only [Cursor.pull] at hstep
      rw [readList]
      by_cases ht : c.takes v.tag = true
      · simp only [ht, if_true] at hstep ⊢
        obtain ⟨s₁, he, h1⟩ := hstep
        rw [he, ok_bind]
        rcases Follows.chain cs h1 with ⟨s', hrun, hread, hgot⟩ | ⟨x, s', hrun, hread⟩
        · refine .inl ⟨s', hrun, by rw [hread]; rfl, by simp [hgot]⟩
        · exact .inr ⟨x, s', hrun, by rw [hread]; rfl⟩
      · simp only [ht] at hstep ⊢
        obtain ⟨s₁, he, -⟩ := hstep
        exact .inr ⟨_, s₁, by rw [he]; rfl, rfl⟩

theorem Ahead.iterate {end_ : ReceivedMessageArgument} :
    ∀ (cs : List Accessor) {vs : List ArgValue} {it : ReceivedMessageArgument}, Ahead m end_ vs it →
    ∀ (missing : Exn), missing = (if it.typeTagPtr = Option.none then .missingArgument else .wrongArgumentType) →
    iterateAll m end_ cs it = readList missing cs vs
  | [], [], it, h, _, _ => by rw [iterateAll, if_pos (h.at_end.mpr rfl), readList]
  | [], v :: vs, it, h, _, _ => by rw [iterateAll, if_neg (by simp [h.at_end]), readList]
  | c :: cs, [], it, h, missing, hm => by
    obtain ⟨hadv, hread⟩ := h.last
    rw [iterateAll, hadv, ok_bind, hread, readList, hm]
    rfl
  | c :: cs, v :: vs, it, h, missing, hm => by
    obtain ⟨next, hadv, hnext, hit, hne, -, -, hread⟩ := h.cons
    have hmissing : missing = if next.typeTagPtr = Option.none then .missingArgument else .wrongArgumentType := by
      rw [hm, if_neg hit, if_neg hne]
    rw [iterateAll, hadv, ok_bind, hread, readList]
    by_cases ht : c.takes v.tag = true
    · rw [if_pos ht, if_pos ht, ok_bind, Ahead.iterate cs hnext missing hmissing]
      cases readList missing cs vs <;> rfl
    · rw [if_neg ht, if_neg ht]
      rfl

theorem readList_ok {missing : Exn} : ∀ {cs : List Accessor} {vs ws : List ArgValue},
    readList missing cs vs = ok ws ↔ ws = vs ∧ List.Forall₂ (fun c v => c.takes v.tag = true) cs vs
  | [], [], ws => by
    rw [readList, Out.ok.injEq]
    exact ⟨fun h => ⟨h.symm, .nil⟩, fun h => h.1.symm⟩
  | [], _ :: _, _ | _ :: _, [], _ => by
    constructor
    · intro h
      cases h
    · intro h
      cases h.2
  | c :: cs, v :: vs, ws => by
    rw [readList, List.forall₂_cons]
    by_cases ht : c.takes v.tag = true
    · simp only [ht, if_true, true_and]
      constructor
      · intro h
        obtain ⟨xs, hxs, rfl⟩ := map_eq_ok.mp h
        obtain ⟨rfl, hall⟩ := readList_ok.mp hxs
        exact ⟨rfl, hall⟩
      · intro h
        obtain ⟨rfl, hall⟩ := h
        exact map_eq_ok.mpr ⟨vs, readList_ok.mpr ⟨rfl, hall⟩, rfl⟩
    · simp [ht]

/-- For every message that is parsed and every list of types, the stream and the iterator both
    read the arguments if each type takes its argument and there are as many; otherwise both
    throw, and the same exception unless the arguments run out: there the stream says so, and
    the iterator only for a message without any. -/
theorem interfaces_agree {size : Int} {r : ReceivedMessage} (hl : p + size.toNat ≤ m.length)
    (h : ReceivedMessage.tryInit m p size = ok r) :
    ∃ d, r.decode m = ok d ∧ ∀ cs : List Accessor,
      streamAll m cs r.argumentStream = readList .missingArgument cs d.arguments ∧
      iterateAll m r.argumentsEnd cs r.argumentsBegin =
        readList (if d.arguments = [] then .missingArgument else .wrongArgumentType) cs d.arguments ∧
      ∀ vs, (streamAll m cs r.argumentStream = ok vs ↔ iterateAll m r.argumentsEnd cs r.argumentsBegin = ok vs) ∧
        (streamAll m cs r.argumentStream = ok vs ↔ vs = d.arguments ∧
          List.Forall₂ (fun c v => c.takes v.tag = true) cs vs) := by
  have hm := ((ReceivedMessage.tryInit_decides hl).iff.mp h).2.2
  obtain ⟨d, hd, hdecode⟩ := hm.decode hl
  obtain ⟨hahead, hnone⟩ := hm.ahead hl hd
  refine ⟨d, hdecode, fun cs => ?_⟩
  have hstream : streamAll m cs r.argumentStream = readList .missingArgument cs d.arguments := by
    have hstart : Follows m ⟨r.argumentStream, []⟩ ⟨d.arguments, []⟩ := ⟨rfl, hahead⟩
    rw [streamAll]
    rcases hstart.chain cs with ⟨s, hrun, hread, hgot⟩ | ⟨x, s, hrun, hread⟩
    · rw [hrun, hread]
      exact congrArg ok hgot
    · rw [hrun, hread]
  have hiter := hahead.iterate cs (if d.arguments = [] then .missingArgument else .wrongArgumentType) (by simp [hnone])
  refine ⟨hstream, hiter, fun vs => ⟨?_, ?_⟩⟩
  · rw [hstream, hiter, readList_ok, readList_ok]
  · rw [hstream, readList_ok]
    constructor <;>
    · intro hx
      obtain ⟨rfl, hall⟩ := hx
      exact ⟨rfl, hall⟩

theorem interfaces_agree_intThenString :
    streamAll intThenString [.asInt32, .asString] intThenString.message.argumentStream =
      ok [.int32 7, .string [ch 'h', ch 'i']] ∧
      streamAll intThenString [.asInt32, .asString, .asBool] intThenString.message.argumentStream =
        err .missingArgument ∧
      iterateAll intThenString intThenString.message.argumentsEnd [.asInt32, .asString, .asBool]
        intThenString.message.argumentsBegin = err .wrongArgumentType := by
  obtain ⟨d, hd, hall⟩ := @interfaces_agree intThenString 0 16 intThenString.message (by decide)
    (by decide +kernel)
  obtain rfl : d = ⟨[ch '/', ch 'a'], 2, [ch 'i', ch 's'], [.int32 7, .string [ch 'h', ch 'i']]⟩ :=
    Out.ok.inj (hd.symm.trans (by decide +kernel))
  exact ⟨(hall _).1.trans (by decide), (hall _).1.trans (by decide), (hall _).2.1.trans (by decide)⟩

end OscTap.Received
