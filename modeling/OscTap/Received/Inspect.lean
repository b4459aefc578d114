/-
  OscTap.Received.Inspect — asking the argument at an iterator (`ReceivedMessageArgument` in
  `osctap/osc/OscReceivedElements.h`).

  An argument can be asked for its type tag, with the `Is*` predicates and for its item count
  (`Query`), and for its value with the checked `As*` accessors (`Accessor`). An iterator of a
  message has three kinds of positions, `Placed`: it holds null pointers (no arguments), it
  stands at the NUL behind the last tag, or it stands at a tag with its argument. `Advance`
  goes from one to the next and stays where there is none. The `As*` accessors and `Advance`
  test for null; the queries do not.

  Proved: `inspectable_iff`, for every message that is parsed and every number of increments:
  everything can be asked, inside the message, if and only if the message has an argument;
  `checked_accessors_answer` and `null_query`, the two halves.
-/
import OscTap.Received.ArrayItems
import OscTap.Received.ReadSafety

namespace OscTap.Received

open OscTap.Lib OscTap.Lib.Out OscTap.Osc

/-! ## The predicates -/

namespace ReceivedMessageArgument

variable (m : Bytes) (a : ReceivedMessageArgument)

def isTag (tag : TypeTag) : Out Exn Bool := do
  let c ← a.typeTag m
  ok (c == tag.value)

def isBool : Out Exn Bool := do
  let isTrue ← a.isTag m .trueTag
  if isTrue then ok true else a.isTag m .falseTag

def isNil : Out Exn Bool := a.isTag m .nilTag

def isInfinitum : Out Exn Bool := a.isTag m .infinitumTag

def isInt32 : Out Exn Bool := a.isTag m .int32Tag

def isFloat : Out Exn Bool := a.isTag m .floatTag

def isChar : Out Exn Bool := a.isTag m .charTag

def isRgbaColor : Out Exn Bool := a.isTag m .rgbaColorTag

def isMidiMessage : Out Exn Bool := a.isTag m .midiMessageTag

def isInt64 : Out Exn Bool := a.isTag m .int64Tag

def isTimeTag : Out Exn Bool := a.isTag m .timeTagTag

def isDouble : Out Exn Bool := a.isTag m .doubleTag

def isString : Out Exn Bool := a.isTag m .stringTag

def isSymbol : Out Exn Bool := a.isTag m .symbolTag

def isBlob : Out Exn Bool := a.isTag m .blobTag

def isArrayEnd : Out Exn Bool := a.isTag m .arrayEndTag

end ReceivedMessageArgument

/-- What an argument can be asked without its value. -/
inductive Query where
  | typeTag
  | isBool
  | isNil
  | isInfinitum
  | isInt32
  | isFloat
  | isChar
  | isRgbaColor
  | isMidiMessage
  | isInt64
  | isTimeTag
  | isDouble
  | isString
  | isSymbol
  | isBlob
  | isArrayBegin
  | isArrayEnd
  | computeArrayItemCount
  deriving DecidableEq, Repr

def Query.run (m : Bytes) (a : ReceivedMessageArgument) : Query → Out Exn Unit
  | typeTag => discard (a.typeTag m)
  | isBool => discard (a.isBool m)
  | isNil => discard (a.isNil m)
  | isInfinitum => discard (a.isInfinitum m)
  | isInt32 => discard (a.isInt32 m)
  | isFloat => discard (a.isFloat m)
  | isChar => discard (a.isChar m)
  | isRgbaColor => discard (a.isRgbaColor m)
  | isMidiMessage => discard (a.isMidiMessage m)
  | isInt64 => discard (a.isInt64 m)
  | isTimeTag => discard (a.isTimeTag m)
  | isDouble => discard (a.isDouble m)
  | isString => discard (a.isString m)
  | isSymbol => discard (a.isSymbol m)
  | isBlob => discard (a.isBlob m)
  | isArrayBegin => discard (a.isArrayBegin m)
  | isArrayEnd => discard (a.isArrayEnd m)
  | computeArrayItemCount => discard (a.computeArrayItemCount m)

inductive Accessor where
  | asBool
  | asInt32
  | asFloat
  | asChar
  | asRgbaColor
  | asMidiMessage
  | asInt64
  | asTimeTag
  | asDouble
  | asString
  | asSymbol
  | asBlob
  deriving DecidableEq, Repr

def Accessor.run (m : Bytes) (a : ReceivedMessageArgument) : Accessor → Out Exn Unit
  | asBool => discard (a.asBool m)
  | asInt32 => discard (a.asInt32 m)
  | asFloat => discard (a.asFloat m)
  | asChar => discard (a.asChar m)
  | asRgbaColor => discard (a.asRgbaColor m)
  | asMidiMessage => discard (a.asMidiMessage m)
  | asInt64 => discard (a.asInt64 m)
  | asTimeTag => discard (a.asTimeTag m)
  | asDouble => discard (a.asDouble m)
  | asString => discard (a.asString m)
  | asSymbol => discard (a.asSymbol m)
  | asBlob => discard (a.asBlob m)

def advanceBy (m : Bytes) : Nat → ReceivedMessageArgument → Out Exn ReceivedMessageArgument
  | 0, a => ok a
  | k + 1, a => do
    let next ← advance m a
    advanceBy m k next

/-! ## The positions of an iterator -/

variable {m : Bytes}

/-- Where an iterator of a message that ends at `e` can stand. -/
inductive Placed (m : Bytes) (e : Nat) : ReceivedMessageArgument → Prop
  | absent : Placed m e ⟨none, none⟩
  /-- In front of the tags that are left, at the arguments that are left. -/
  | standing {tt p l q l' : Nat} {tags : Bytes} : CStrAt m tt tags → ArgsRange m e tags p l q l' →
      Placed m e ⟨some tt, some p⟩

theorem advance_nul {tt : Nat} (h : m[tt]? = some 0) (p : Option Nat) : advance m ⟨some tt, p⟩ = ok ⟨some tt, p⟩ := by
  have h0 : TypeTag.ofByte 0 = none := by decide
  simp [advance, rd_of_some h, h0]

/-- One increment. -/
theorem Placed.advance {e : Nat} {a : ReceivedMessageArgument} (he : e ≤ m.length) (h : Placed m e a) :
    ∃ b, Received.advance m a = ok b ∧ Placed m e b ∧ (b.typeTagPtr = none ↔ a.typeTagPtr = none) := by
  cases h with
  | absent => exact ⟨_, rfl, .absent, Iff.rfl⟩
  | @standing tt p l q l' tags hc hr =>
    cases hr with
    | nil =>
      cases hc with
      | nil h0 => exact ⟨_, advance_nul h0 _, .standing (.nil h0) (.nil p l), Iff.rfl⟩
    | cons hs hrest =>
      obtain ⟨t, ht, -, harg, hqe⟩ := hs
      cases hc with
      | cons htag _ hc =>
        have htag' : m[tt]? = some t.value := by rw [htag, TypeTag.ofByte_eq_some.mp ht]
        exact ⟨_, advance_eq htag' harg (by omega), .standing hc hrest, by simp⟩

/-- Any number of increments: they read inside the message and end where an iterator can stand. -/
theorem Placed.advanceBy {e : Nat} (he : e ≤ m.length) : ∀ (k : Nat) {a : ReceivedMessageArgument}, Placed m e a →
    ∃ b, Received.advanceBy m k a = ok b ∧ Placed m e b ∧ (b.typeTagPtr = none ↔ a.typeTagPtr = none)
  | 0, a, h => ⟨a, rfl, h, Iff.rfl⟩
  | k + 1, a, h => by
    obtain ⟨b, hb, hpb, hnb⟩ := h.advance he
    obtain ⟨c, hc, hpc, hnc⟩ := Placed.advanceBy he k hpb
    exact ⟨c, by rw [Received.advanceBy, hb]; exact hc, hpc, hnc.trans hnb⟩

/-- `ArgumentsBegin()` of a parsed message. -/
theorem ReceivedMessage.argumentsBegin_placed {p : Nat} {size : Int} {r : ReceivedMessage}
    (hl : p + size.toNat ≤ m.length) (h : ReceivedMessage.tryInit m p size = ok r) :
    Placed m (p + size.toNat) r.argumentsBegin ∧ (r.argumentsBegin.typeTagPtr = none ↔ r.argumentCount = 0) := by
  obtain ⟨-, -, a, -, -, -, hcase⟩ := (ReceivedMessage.tryInit_decides hl).iff.mp h
  rcases hcase with ⟨-, h1, h2, h3⟩ | ⟨-, -, -, h1, h2, h3⟩ | ⟨-, hne, b, -, -, tags, hnil, hc, ⟨q, hr⟩, h1, h2, h3⟩
  · simp only [ReceivedMessage.argumentsBegin, ReceivedMessage.argumentCount, h1, h2, h3]
    exact ⟨.absent, by simp⟩
  · simp only [ReceivedMessage.argumentsBegin, ReceivedMessage.argumentCount, h1, h2, h3]
    exact ⟨.absent, by simp⟩
  · have hpos := List.length_pos_of_ne_nil hnil
    simp only [ReceivedMessage.argumentsBegin, ReceivedMessage.argumentCount, h1, h2, h3]
    refine ⟨.standing hc hr, ?_⟩
    simp only [reduceCtorEq, Option.getD_some, false_iff]
    omega

/-! ## Null pointers -/

/-- Every query follows the null pointer of an iterator without arguments. -/
theorem null_query (m : Bytes) (q : Query) : q.run m ⟨none, none⟩ = fault .null := by
  cases q <;> rfl

/-- Every checked accessor tests for it. -/
theorem null_accessor (m : Bytes) (c : Accessor) : c.run m ⟨none, none⟩ = err .missingArgument := by
  cases c <;> rfl

/-! ## Queries -/

theorem safe_discard {ε α : Type} {x : Out ε α} (h : Safe x) : Safe (discard x) := by
  cases x <;> exact h

variable {tt : Nat} {p : Option Nat}

theorem countItems_safe {tags : Bytes} (h : CStrAt m tt tags) :
    ∀ result level, Safe (countItems m tt result level) := by
  induction h with
  | @nil tt h0 =>
    intro result level
    obtain ⟨hl, hv⟩ := List.getElem?_eq_some_iff.mp h0
    rw [countItems, dif_pos hl, if_pos hv]
    trivial
  | @cons tt c tags hc hne _ ih =>
    intro result level
    obtain ⟨hl, hv⟩ := List.getElem?_eq_some_iff.mp hc
    rw [countItems, dif_pos hl, hv, if_neg hne]
    split
    · exact ih _ _
    · split
      · split
        · trivial
        · exact ih _ _
      · exact ih _ _

theorem isTag_eq {c : UInt8} (h : m[tt]? = some c) (tag : TypeTag) :
    ReceivedMessageArgument.isTag m ⟨some tt, p⟩ tag = ok (c == tag.value) := by
  simp [ReceivedMessageArgument.isTag, ReceivedMessageArgument.typeTag, rd_of_some h]

theorem isTag_safe {c : UInt8} (h : m[tt]? = some c) (tag : TypeTag) :
    Safe (discard (ReceivedMessageArgument.isTag m ⟨some tt, p⟩ tag)) := by
  rw [isTag_eq h]
  trivial

theorem computeArrayItemCount_safe {tags : Bytes} (h : CStrAt m tt tags) :
    Safe (ReceivedMessageArgument.computeArrayItemCount m ⟨some tt, p⟩) := by
  rw [ReceivedMessageArgument.computeArrayItemCount, ReceivedMessageArgument.isArrayBegin,
    ReceivedMessageArgument.typeTag]
  cases h with
  | nil h0 =>
    have hno : ((0 : UInt8) == TypeTag.arrayBeginTag.value) = false := by decide
    simp [rd_of_some h0, hno]
  | @cons tt c tags hc _ hrest =>
    by_cases hb : (c == TypeTag.arrayBeginTag.value) = true
    · simpa [rd_of_some hc, hb] using countItems_safe hrest 0 0
    · simp [rd_of_some hc, hb]

/-- A query at a tag, or at the NUL behind the last, reads inside the tag string. -/
theorem query_safe {tags : Bytes} (h : CStrAt m tt tags) (q : Query) : Safe (q.run m ⟨some tt, p⟩) := by
  obtain ⟨c, hc⟩ : ∃ c, m[tt]? = some c := by
    cases h with
    | nil h0 => exact ⟨0, h0⟩
    | cons hc _ _ => exact ⟨_, hc⟩
  cases q with
  | typeTag =>
    refine safe_discard ?_
    simp [ReceivedMessageArgument.typeTag, rd_of_some hc]
  | isBool =>
    refine safe_discard ?_
    rw [ReceivedMessageArgument.isBool, isTag_eq hc, isTag_eq hc]
    cases c == TypeTag.trueTag.value <;> trivial
  | computeArrayItemCount => exact safe_discard (computeArrayItemCount_safe h)
  | _ => exact isTag_safe hc _

/-! ## Checked accessors -/

/-- A checked accessor answers: it returns, or throws one of the two exceptions. -/
def Answered {α : Type} (x : Out Exn α) : Prop :=
  Sat x (fun _ => True) fun e => e = .missingArgument ∨ e = .wrongArgumentType

theorem Answered.discard {α : Type} {x : Out Exn α} (h : Answered x) : Answered (discard x) := by
  cases x <;> exact h

/-- What the unchecked accessors rely on: behind the tag there is an argument inside the buffer. -/
def Backed (m : Bytes) (tt p : Nat) : Prop :=
  (∃ c, m[tt]? = some c) ∧ ∀ t : TypeTag, m[tt]? = some t.value → ∃ q ≤ m.length, ArgRange m t p q

theorem Placed.backed {e tt p : Nat} (he : e ≤ m.length) (h : Placed m e ⟨some tt, some p⟩) : Backed m tt p := by
  cases h with
  | standing hc hr =>
    cases hr with
    | nil =>
      cases hc with
      | nil h0 =>
        refine ⟨⟨0, h0⟩, fun t ht => ?_⟩
        rw [h0] at ht
        exact absurd (Option.some.inj ht).symm (TypeTag.value_ne_zero t)
    | cons hs _ =>
      obtain ⟨t', ht', -, harg, hqe⟩ := hs
      cases hc with
      | cons htag _ _ =>
        refine ⟨⟨_, htag⟩, fun t ht => ?_⟩
        rw [htag] at ht
        obtain rfl : t' = t := by
          rw [Option.some.inj ht, TypeTag.ofByte_value] at ht'
          exact (Option.some.inj ht').symm
        exact ⟨_, by omega, harg⟩

variable {tt p : Nat}

theorem checkedAs_answers {α : Type} (h : Backed m tt p) {tag : TypeTag} {unchecked : Out Exn α}
    (hu : ∀ q ≤ m.length, ArgRange m tag p q → ∃ v, unchecked = ok v) :
    Answered (ReceivedMessageArgument.checkedAs m ⟨some tt, some p⟩ tag unchecked) := by
  obtain ⟨⟨c, hc⟩, harg⟩ := h
  by_cases heq : c = tag.value
  · obtain ⟨q, hq, hr⟩ := harg tag (by rw [hc, heq])
    obtain ⟨v, hv⟩ := hu q hq hr
    simp [Answered, ReceivedMessageArgument.checkedAs, rd_of_some hc, heq, hv]
  · simp [Answered, ReceivedMessageArgument.checkedAs, rd_of_some hc, heq]

theorem toUInt32_eq {tp : Option Nat} (h : p + 4 ≤ m.length) :
    ReceivedMessageArgument.toUInt32 m ⟨tp, some p⟩ = ok (UInt32.ofNat (word m p)) := by
  simp [ReceivedMessageArgument.toUInt32, rd32_of_le h]

theorem toUInt64_eq {tp : Option Nat} (h : p + 8 ≤ m.length) :
    ReceivedMessageArgument.toUInt64 m ⟨tp, some p⟩ = ok (UInt64.ofNat (word m p * 2 ^ 32 + word m (p + 4))) := by
  simp [ReceivedMessageArgument.toUInt64, rd64_of_le h]

theorem asBool_answers (h : Backed m tt p) : Answered (ReceivedMessageArgument.asBool m ⟨some tt, some p⟩) := by
  obtain ⟨⟨c, hc⟩, -⟩ := h
  simp only [Answered, ReceivedMessageArgument.asBool, rd_of_some hc, ok_bind]
  split
  · trivial
  · split
    · trivial
    · exact .inr rfl

theorem asBlobUnchecked_eq {q : Nat} {tp : Option Nat} (hq : q ≤ m.length) (h : ArgRange m .blobTag p q) :
    ∃ v, ReceivedMessageArgument.asBlobUnchecked m ⟨tp, some p⟩ = ok v := by
  obtain ⟨-, rfl⟩ := h
  have h4 : p + 4 ≤ m.length := by omega
  rw [ReceivedMessageArgument.asBlobUnchecked, toUInt32_eq h4]
  exact ⟨_, rfl⟩

/-- At every position the checked accessors answer, inside the message. -/
theorem accessor_answers (h : Backed m tt p) (c : Accessor) : Answered (c.run m ⟨some tt, some p⟩) := by
  cases c with
  | asBool => exact (asBool_answers h).discard
  | asInt32 | asChar =>
    refine (checkedAs_answers h ?_).discard
    intro q hq hr
    obtain rfl : q = p + 4 := hr
    simp [ReceivedMessageArgument.asInt32Unchecked, ReceivedMessageArgument.asCharUnchecked, toUInt32_eq hq]
  | asFloat | asRgbaColor | asMidiMessage =>
    refine (checkedAs_answers h ?_).discard
    intro q hq hr
    obtain rfl : q = p + 4 := hr
    exact ⟨_, toUInt32_eq hq⟩
  | asInt64 =>
    refine (checkedAs_answers h ?_).discard
    intro q hq hr
    obtain rfl : q = p + 8 := hr
    simp [ReceivedMessageArgument.asInt64Unchecked, toUInt64_eq hq]
  | asTimeTag | asDouble =>
    refine (checkedAs_answers h ?_).discard
    intro q hq hr
    obtain rfl : q = p + 8 := hr
    exact ⟨_, toUInt64_eq hq⟩
  | asString | asSymbol =>
    refine (checkedAs_answers h ?_).discard
    exact fun q hq hr => ⟨p, rfl⟩
  | asBlob =>
    refine (checkedAs_answers h ?_).discard
    exact fun q hq hr => asBlobUnchecked_eq hq hr

/-! ## Messages -/

/-- Behind any number of increments the argument can be asked everything. -/
def Inspectable (m : Bytes) (r : ReceivedMessage) : Prop :=
  ∀ k, ∃ a, advanceBy m k r.argumentsBegin = ok a ∧ (∀ q : Query, Safe (q.run m a)) ∧
    ∀ c : Accessor, Answered (c.run m a)

/-- The increments and the checked accessors never leave the message, whatever it has. -/
theorem checked_accessors_answer {size : Int} {r : ReceivedMessage} (hm : m.length = size.toNat)
    (h : ReceivedMessage.tryInit m 0 size = ok r) (k : Nat) :
    ∃ a, advanceBy m k r.argumentsBegin = ok a ∧ ∀ c : Accessor, Answered (c.run m a) := by
  obtain ⟨hp, -⟩ := ReceivedMessage.argumentsBegin_placed (by omega) h
  obtain ⟨a, ha, hpa, -⟩ := hp.advanceBy (by omega) k
  refine ⟨a, ha, fun c => ?_⟩
  cases hpa with
  | absent => simp [Answered, null_accessor]
  | standing hc hr => exact accessor_answers (Placed.backed (by omega) (Placed.standing hc hr)) c

/-- Every message that is parsed, in a buffer that holds nothing else: whatever the number of
    increments, the argument reached can be asked everything inside the message if and only
    if the message has an argument. -/
theorem inspectable_iff {size : Int} {r : ReceivedMessage} (hm : m.length = size.toNat)
    (h : ReceivedMessage.tryInit m 0 size = ok r) : Inspectable m r ↔ r.argumentCount ≠ 0 := by
  obtain ⟨hp, hnone⟩ := ReceivedMessage.argumentsBegin_placed (by omega) h
  constructor
  · -- an iterator without arguments holds null
    intro hi hzero
    obtain ⟨a, ha, hq, -⟩ := hi 0
    obtain rfl : r.argumentsBegin = a := Out.ok.inj ha
    cases hb : r.argumentsBegin with
    | mk typeTagPtr argumentPtr =>
      rw [hb] at hp hnone hq
      cases hp with
      | absent => simpa [null_query] using hq .typeTag
      | standing => simp [hzero] at hnone
  · intro hcount k
    obtain ⟨a, ha, hpa, hna⟩ := hp.advanceBy (by omega) k
    cases hpa with
    | absent => exact absurd (hnone.mp (hna.mp rfl)) hcount
    | standing hc hr =>
      exact ⟨_, ha, query_safe hc, accessor_answers (Placed.backed (by omega) (Placed.standing hc hr))⟩

def bareAddress : Bytes := [ch '/', ch 'a', 0, 0]

/-- The argument at `ArgumentsBegin()` of "/a" cannot be asked for its tag. -/
theorem bareAddress_not_inspectable : ReceivedMessage.tryInit bareAddress 0 4 = ok ⟨0, none, none, none, 4⟩ ∧
    ReceivedMessageArgument.typeTag bareAddress ⟨none, none⟩ = fault .null ∧
      ¬ Inspectable bareAddress ⟨0, none, none, none, 4⟩ := by
  refine ⟨by decide +kernel, rfl, fun hi => ?_⟩
  obtain ⟨a, ha, hq, -⟩ := hi 0
  obtain rfl : ⟨none, none⟩ = a := Out.ok.inj ha
  exact hq .typeTag

theorem inspectable_iff_flatArray : ReceivedMessage.tryInit flatArray 0 16 = ok ⟨0, some 5, some 8, some 12, 16⟩ ∧
    Inspectable flatArray ⟨0, some 5, some 8, some 12, 16⟩ :=
  ⟨by decide +kernel, (@inspectable_iff flatArray 16 _ rfl (by decide +kernel)).mpr (by decide)⟩

end OscTap.Received
