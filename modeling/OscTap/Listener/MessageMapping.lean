/-
  OscTap.Listener.MessageMapping — a listener that maps addresses to member functions
  (`osctap/osc/MessageMappingOscPacketListener.h`).

  The map is a `std::map` over C strings, ordered by `strcmp`: by their bytes, unsigned.
  `insert` leaves an entry that is there. What a registered function does is a parameter: it
  returns or throws. An integer address of SuperCollider starts with a NUL byte, so it is
  looked up as the empty string.

  Proved: `mapped_calls`: for every sequence of registrations and every buffer, the functions
  called are those registered first for the addresses of the messages found in it, in wire
  order, up to the first that throws or the first element that cannot be read.
-/
import OscTap.Listener.Plan
import OscTap.Outbound.PacketStream
import Std.Data.TreeMap

namespace OscTap.Listener

open OscTap.Lib OscTap.Lib.Out OscTap.Osc OscTap.Received

structure MessageMappingOscPacketListener (F : Type) where
  functions : Std.TreeMap Bytes F

namespace MessageMappingOscPacketListener

variable {F : Type}

def empty : MessageMappingOscPacketListener F := ⟨∅⟩

def registerMessageFunction (l : MessageMappingOscPacketListener F) (addressPattern : Outbound.CStr) (f : F) :
    MessageMappingOscPacketListener F := ⟨l.functions.insertIfNew addressPattern.bytes f⟩

def registered (registrations : List (Outbound.CStr × F)) : MessageMappingOscPacketListener F :=
  registrations.foldl (fun l x => l.registerMessageFunction x.1 x.2) empty

variable (l : MessageMappingOscPacketListener F) (m : Bytes)

def find (r : ReceivedMessage) : Out Exn (Option F) := do
  let addressPattern ← rdCString m r.addressPattern
  ok l.functions[addressPattern]?

/-- `ProcessMessage`, where `call` says whether a registered function throws. -/
def processMessage (call : List Event → F → ReceivedMessage → Bool) : Handler := fun trace r =>
  match l.find m r with
  | ok (some f) => call trace f r
  | _ => false

/-- The functions that the messages on a record made the listener call. -/
def calls (trace : List Event) : List (F × ReceivedMessage) :=
  trace.filterMap fun
    | .message r =>
      match l.find m r with
      | ok (some f) => some (f, r)
      | _ => none
    | .skipped _ => none

end MessageMappingOscPacketListener

variable {F : Type}

/-- The function registered first for the address of a message, and the message. -/
def firstRegistered (registrations : List (Outbound.CStr × F)) : PacketTree → Option (F × PacketTree)
  | .message address arguments =>
    (registrations.find? fun x => x.1.bytes == address).map fun x => (x.2, .message address arguments)
  | .bundle _ _ => none

open MessageMappingOscPacketListener

/-- Behind some registrations the map has the first of each address. -/
theorem getElem?_registered (registrations : List (Outbound.CStr × F)) (address : Bytes) :
    (registered registrations).functions[address]? =
    (registrations.find? fun x => x.1.bytes == address).map Prod.snd := by
  have hfold : ∀ (rs : List (Outbound.CStr × F)) (l : MessageMappingOscPacketListener F),
      (rs.foldl (fun l x => l.registerMessageFunction x.1 x.2) l).functions[address]? =
        l.functions[address]?.or ((rs.find? fun x => x.1.bytes == address).map Prod.snd) := by
    intro rs
    induction rs with
    | nil => simp
    | cons x rs ih =>
      intro l
      rw [List.foldl_cons, ih, registerMessageFunction, Std.TreeMap.getElem?_insertIfNew, List.find?_cons]
      by_cases hx : x.1.bytes = address
      · subst hx
        cases hl : l.functions[x.1.bytes]? with
        | none =>
          have hmem : x.1.bytes ∉ l.functions := by simpa using hl
          simp [hmem]
        | some f =>
          have hmem : x.1.bytes ∈ l.functions := by
            rw [Std.TreeMap.mem_iff_isSome_getElem?, hl]
            rfl
          simp [hmem]
      · simp [hx, beq_eq_false_iff_ne.mpr hx]
  rw [registered, hfold]
  simp [empty]

/-- What was seen of a message finds what is registered for its address. -/
theorem Seen.find {m : Bytes} {r : ReceivedMessage} {address : Bytes} {arguments : List ArgValue}
    (h : Seen m (.message r) (.message address arguments)) (registrations : List (Outbound.CStr × F)) :
    (registered registrations).find m r = ok ((registrations.find? fun x => x.1.bytes == address).map Prod.snd) := by
  cases h with
  | message hd =>
    rw [ReceivedMessage.decode] at hd
    obtain ⟨a, ha, hd⟩ := bind_eq_ok.mp hd
    obtain ⟨w, -, hd⟩ := bind_eq_ok.mp hd
    obtain rfl := Out.ok.inj hd
    rw [MessageMappingOscPacketListener.find, ha, ok_bind, getElem?_registered]

/-- The calls of a plan are the registered ones. -/
theorem calls_covered {m : Bytes} (registrations : List (Outbound.CStr × F)) {events : List Event}
    {ts : List PacketTree} (h : List.Forall₂ (Seen m) events ts) :
    List.Forall₂ (fun c x => c.1 = x.1 ∧ Seen m (.message c.2) x.2) ((registered registrations).calls m events)
      (ts.filterMap (firstRegistered registrations)) := by
  induction h with
  | nil => exact .nil
  | cons h _ ih =>
    cases h with
    | skipped _ _ => exact ih
    | @message r d hd =>
      have hfind := (Seen.message hd).find registrations
      cases hfirst : registrations.find? (fun x => x.1.bytes == d.address) with
      | none =>
        rw [hfirst] at hfind
        simpa [calls, hfind, firstRegistered, hfirst] using ih
      | some x =>
        rw [hfirst] at hfind
        simpa [calls, hfind, firstRegistered, hfirst] using ⟨Seen.message hd, ih⟩

/-- Every address on the record of a packet is read. -/
theorem found_covered {m : Bytes} (registrations : List (Outbound.CStr × F)) {events : List Event}
    {ts : List PacketTree} (h : List.Forall₂ (Seen m) events ts) : ∀ r, .message r ∈ events →
    ∃ f, (registered registrations).find m r = ok f := by
  induction h with
  | nil => simp
  | cons h _ ih =>
    intro r hr
    rcases List.mem_cons.mp hr with rfl | hr
    · cases h with
      | message hd => exact ⟨_, (Seen.message hd).find registrations⟩
    · exact ih r hr

/-- Whatever was registered and whatever bytes arrive: the functions called are those that were
    registered first for the addresses of the messages found, each with its message, in wire
    order, up to the first that throws; and every address is read inside the packet. -/
theorem mapped_calls {l : OscPacketListener} (hr : Reachable l) {m : Bytes} {size : Int} (hm : m.length = size.toNat)
    (registrations : List (Outbound.CStr × F)) :
    ∃ all : List (F × ReceivedMessage), (∃ ts whole, Found m l.maxBundleNestingDepth 0 size ts whole) ∧
      (∀ ts whole, Found m l.maxBundleNestingDepth 0 size ts whole →
        List.Forall₂ (fun c x => c.1 = x.1 ∧ Seen m (.message c.2) x.2) all
          (ts.filterMap (firstRegistered registrations))) ∧
      (∀ t, Means m 0 size t →
        List.Forall₂ (fun c x => c.1 = x.1 ∧ Seen m (.message c.2) x.2) all
          ((reached l.maxBundleNestingDepth t).filterMap (firstRegistered registrations))) ∧
      ∀ call, Sat (processPacket m ((registered registrations).processMessage m call) size ⟨l, []⟩)
        (fun s => (registered registrations).calls m s.trace = all ∧
          ∀ r, .message r ∈ s.trace → ∃ f, (registered registrations).find m r = ok f)
        (fun e => (registered registrations).calls m e.2.trace <+: all ∧
          (e.1 = .handler ∨ (registered registrations).calls m e.2.trace = all) ∧
          ∀ r, .message r ∈ e.2.trace → ∃ f, (registered registrations).find m r = ok f) := by
  obtain ⟨plan, hreplay, hcovers⟩ := packet_plan hr m size hm
  obtain ⟨ts, whole, hts⟩ := Found.total m l.maxBundleNestingDepth 0 size
  have hread := found_covered registrations (hcovers ts whole hts).2
  refine ⟨(registered registrations).calls m plan.events, ⟨ts, whole, hts⟩,
    fun ts whole hts => calls_covered registrations (hcovers ts whole hts).2,
    fun t ht => calls_covered registrations (hcovers _ _ (Means.found t ht)).2, fun call => ?_⟩
  rw [hreplay]
  refine (plan.outcome _ l []).mono (fun s hs => ?_) fun e he => ?_
  · obtain ⟨rfl, -⟩ := hs
    exact ⟨rfl, hread⟩
  · obtain ⟨seen, hpre, he, hthrown⟩ := he
    rw [he, List.nil_append]
    exact ⟨hpre.filterMap _, hthrown.imp_right (congrArg _), fun r hr => hread r (hpre.subset hr)⟩

/-- "/a" twice: the second function is never called. -/
def twice : List (Outbound.CStr × Bool) :=
  [(⟨[ch '/', ch 'a'], by decide⟩, true), (⟨[ch '/', ch 'a'], by decide⟩, false)]

theorem mapped_calls_twice : ∃ t, Means oneMessageBundle 0 32 t ∧ ∃ all : List (Bool × ReceivedMessage),
    List.Forall₂ (fun c x => c.1 = x.1 ∧ Seen oneMessageBundle (.message c.2) x.2) all
      ((reached 64 t).filterMap (firstRegistered twice)) := by
  have h : tryValidatePacket oneMessageBundle 0 32 1 = ok () := by decide +kernel
  have hv := (tryValidatePacket_decides 1 0 32 (by decide)).iff.mp h
  obtain ⟨t, ht, -⟩ := hv.means (by decide)
  obtain ⟨all, -, -, hall, -⟩ := mapped_calls .fresh (show oneMessageBundle.length = (32 : Int).toNat from rfl) twice
  exact ⟨t, ht, all, hall t ht⟩

end OscTap.Listener
