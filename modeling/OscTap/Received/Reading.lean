/-
  OscTap.Received.Reading — what a full read of one message shows.

  `readMessage` constructs a `ReceivedMessage` over a range and reads its address and, from
  `ArgumentsBegin` to `ArgumentsEnd`, each argument's tag and value. `Lies m vs p q`: the
  values `vs` are the arguments in `[p, q)`, one behind the other. `Spells` says of a range
  what it shows, in terms of the bytes only.

  Proved: `readMessage_decides`: the read shows what the bytes spell and nothing else. Every
  part of it is unique, so it also says what a read does not show.
-/
import OscTap.Received.ReadSafety
import OscTap.Received.Encoded

namespace OscTap.Received

open OscTap.Lib OscTap.Lib.Out OscTap.Osc

structure Decoded where
  address : Bytes
  argumentCount : Nat
  typeTags : Bytes
  arguments : List ArgValue
  deriving DecidableEq, Repr

def readTagged (m : Bytes) (a : ReceivedMessageArgument) : Out Exn (UInt8 × ArgValue) := do
  let tag ← a.typeTag m
  let v ← readUnchecked m a
  ok (tag, v)

def ReceivedMessage.decode (m : Bytes) (r : ReceivedMessage) : Out Exn Decoded := do
  let address ← rdCString m r.addressPattern
  let walk ← walkArguments m (readTagged m) r.argumentsEnd m.length r.argumentsBegin
  ok ⟨address, r.argumentCount, walk.1.map (·.2.1), walk.1.map (·.2.2)⟩

def readMessage (m : Bytes) (p : Nat) (size : Int) : Out Exn Decoded := do
  let r ← ReceivedMessage.mk' m p size
  r.decode m

/-! ## Values in place -/

inductive Lies (m : Bytes) : List ArgValue → Nat → Nat → Prop
  | nil (p : Nat) : Lies m [] p p
  | cons {v : ArgValue} {vs : List ArgValue} {p q r : Nat} : ArgRange m v.tag p q → Holds m v.tag p v → Lies m vs q r →
      Lies m (v :: vs) p r

variable {m : Bytes} {vs ws : List ArgValue} {p q q' e : Nat}

theorem Lies.le (h : Lies m vs p q) : p ≤ q := by
  induction h with
  | nil p => exact Nat.le_refl p
  | cons hr _ _ ih => exact Nat.le_trans hr.aligned.1 ih

theorem Lies.append (h : Lies m vs p q) (h' : Lies m ws q e) : Lies m (vs ++ ws) p e := by
  induction h with
  | nil p => exact h'
  | cons hr hv _ ih => exact .cons hr hv (ih h')

theorem Lies.split (h : Lies m (vs ++ ws) p e) : ∃ q, Lies m vs p q ∧ Lies m ws q e := by
  induction vs generalizing p with
  | nil => exact ⟨p, .nil p, h⟩
  | cons v vs ih =>
    cases h with
    | cons hr hv hrest =>
      obtain ⟨q, h1, h2⟩ := ih hrest
      exact ⟨q, .cons hr hv h1, h2⟩

theorem Holds.unique {t : TypeTag} {v w : ArgValue} (h : Holds m t p v) (h' : Holds m t p w) : v = w := by
  cases t
  case stringTag | symbolTag =>
    obtain ⟨s, hs, rfl⟩ := h
    obtain ⟨s', hs', rfl⟩ := h'
    rw [hs.unique hs']
  all_goals exact Eq.trans h (Eq.symm h')

/-- The content of a blob that is read is in the range. -/
theorem Lies.blob_at {data : Bytes} (h : Lies m (.blob data :: vs) p q) (hq : q ≤ m.length) : At m (p + 4) data := by
  cases h with
  | @cons _ _ _ r _ hr hv hrest =>
    have hle := hrest.le
    have hd : data = slice m (p + 4) (p + 4 + word m p) := ArgValue.blob.inj hv
    obtain ⟨hmax, hr'⟩ : word m p ≤ 0x7FFFFFFC ∧ r = p + 4 + roundUp4 (word m p) := hr
    have hround := roundUp4_ge (show word m p + 3 < 2 ^ 32 by omega)
    have hlen : data.length = word m p := by rw [hd, length_slice (by omega)]; omega
    exact ⟨by omega, by rw [hlen]; exact hd.symm⟩

/-- The values follow from the tags. -/
theorem Lies.unique (h : Lies m vs p q) (h' : Lies m ws p q')
    (ht : vs.map ArgValue.tag = ws.map ArgValue.tag) : vs = ws := by
  induction h generalizing ws with
  | nil p => exact (List.map_eq_nil_iff.mp ht.symm).symm
  | @cons v vs p q r hr hv _ ih =>
    cases h' with
    | nil => cases ht
    | @cons w ws _ q' _ hr' hw hrest =>
      obtain ⟨htag, htags⟩ := List.cons.inj ht
      rw [← htag] at hr' hw
      obtain rfl := hr.unique hr'
      rw [hv.unique hw, ih hrest htags]

theorem tagBytes_inj (h : tagBytes vs = tagBytes ws) : vs.map ArgValue.tag = ws.map ArgValue.tag := by
  rw [tagBytes_eq, tagBytes_eq] at h
  exact List.map_injective_iff.mpr (fun t t' he => by simpa using congrArg TypeTag.ofByte he) h

theorem Holds.tag {t : TypeTag} {v : ArgValue} (h : Holds m t p v) : v.tag = t := by
  cases t
  case stringTag | symbolTag =>
    obtain ⟨s, -, rfl⟩ := h
    rfl
  all_goals
    rw [show v = _ from h]
    rfl

/-- What the validator finds has values. -/
theorem ArgsRange.lies {tags : Bytes} {l l' : Nat} (h : ArgsRange m e tags p l q l') :
    ∃ vs, Lies m vs p q ∧ tags = tagBytes vs ∧ depth bracket (vs.map ArgValue.tag) l = some l' := by
  induction h with
  | nil p l => exact ⟨[], .nil p, rfl, rfl⟩
  | cons hs _ ih =>
    obtain ⟨t, ht, hl, hr, -⟩ := hs
    obtain ⟨v, hv⟩ := hr.exists_holds
    obtain ⟨vs, hlies, rfl, hd⟩ := ih
    obtain rfl := hv.tag
    refine ⟨v :: vs, .cons hr hv hlies, ?_, ?_⟩
    · rw [TypeTag.ofByte_eq_some.mp ht]
      rfl
    · rw [List.map_cons, depth, show (bracket v.tag).next _ = some _ from hl, Option.bind_some, hd]

theorem Lies.argsRange (h : Lies m vs p q) (hq : q ≤ e) :
    ∀ {l l' : Nat}, depth bracket (vs.map ArgValue.tag) l = some l' →
    ArgsRange m e (tagBytes vs) p l q l' := by
  induction h with
  | nil p =>
    intro l l' hd
    cases Option.some.inj hd
    exact .nil p l
  | @cons v vs p q r hr _ hrest ih =>
    intro l l' hd
    rw [List.map_cons, depth] at hd
    obtain ⟨k, hk, hd⟩ := Option.bind_eq_some_iff.mp hd
    exact .cons ⟨v.tag, TypeTag.ofByte_value _, hk, hr, Nat.le_trans hrest.le hq⟩ (ih hq hd)

/-! ## The walk -/

theorem readTagged_eq {tt : Nat} {v : ArgValue} (ht : m[tt]? = some v.tag.value) (h : ArgRange m v.tag p q)
    (hq : q ≤ m.length) (hv : Holds m v.tag p v) : readTagged m ⟨some tt, some p⟩ = ok (v.tag.value, v) := by
  have htag : ReceivedMessageArgument.typeTag m ⟨some tt, some p⟩ = ok v.tag.value := by
    simp only [ReceivedMessageArgument.typeTag, deref_some, ok_bind, rd_of_some ht]
  rw [readTagged, htag, ok_bind, readUnchecked_eq ht h hq hv, ok_bind]

theorem Lies.walk (h : Lies m vs p q) : ∀ {tt n : Nat}, CStrAt m tt (tagBytes vs) → q ≤ m.length → vs.length ≤ n →
    ∃ walk, walkArguments m (readTagged m) ⟨some (tt + vs.length), none⟩ n ⟨some tt, some p⟩ = ok walk ∧
      walk.1.map Prod.snd = vs.map fun v => (v.tag.value, v) := by
  induction h with
  | nil p => exact fun _ _ _ => ⟨_, walkArguments_end _ rfl, rfl⟩
  | @cons v vs p q r hr hv hrest ih =>
    intro tt n hc hq hn
    have hle := hrest.le
    obtain ⟨n, rfl⟩ : ∃ n', n = n' + 1 := ⟨n - 1, by rw [List.length_cons] at hn; omega⟩
    cases hc with
    | cons htag _ hc =>
    obtain ⟨walk, hw, hm⟩ := ih (n := n) hc hq (Nat.le_of_succ_le_succ hn)
    have hend : tt + 1 + vs.length = tt + (v :: vs).length := by rw [List.length_cons]; omega
    rw [hend] at hw
    refine ⟨((⟨some tt, some p⟩, v.tag.value, v) :: walk.1, walk.2), ?_, by rw [List.map_cons, hm]; rfl⟩
    rw [walkArguments, if_neg (by rw [List.length_cons]; simp), readTagged_eq htag hr (by omega) hv, ok_bind,
      advance_eq htag hr (by omega), ok_bind, hw]
    rfl

/-! ## The message -/

/-- `[p, e)` is a message that shows `d`: its address block, and no tags and no arguments, or
    a tag block with nested arrays and the arguments in front of `e`. -/
def Spells (m : Bytes) (p e : Nat) (d : Decoded) : Prop :=
  CStrAt m p d.address ∧ d.argumentCount = d.arguments.length ∧ d.typeTags = tagBytes d.arguments ∧
    ∃ a ≤ e, IsStr4 m p a ∧
      ((d.arguments = [] ∧ (a = e ∨ a < e ∧ m[a]? = some (ch ',') ∧ m[a + 1]? = some 0)) ∨
        (d.arguments ≠ [] ∧ a < e ∧ m[a]? = some (ch ',') ∧ ∃ b ≤ e, IsStr4 m a b ∧
          CStrAt m (a + 1) (tagBytes d.arguments) ∧
          Nested bracket (d.arguments.map ArgValue.tag) ∧ ∃ q ≤ e, Lies m d.arguments b q))

theorem tagBytes_nil : tagBytes vs = [] ↔ vs = [] := List.map_eq_nil_iff

theorem Spells.unique {d d' : Decoded} (h : Spells m p e d) (h' : Spells m p e d') : d = d' := by
  obtain ⟨hc, hn, ht, a, -, hsa, hrest⟩ := h
  obtain ⟨hc', hn', ht', a', -, hsa', hrest'⟩ := h'
  obtain rfl := hsa.unique hsa'
  have hargs : d.arguments = d'.arguments := by
    have clash : ∀ {xs ys : List ArgValue}, (a = e ∨ a < e ∧ m[a]? = some (ch ',') ∧ m[a + 1]? = some 0) →
      ys ≠ [] → a < e →
        CStrAt m (a + 1) (tagBytes ys) → xs = ys := by
      intro xs ys h1 h2 h3 h4
      rcases h1 with h1 | ⟨-, -, h1⟩
      · omega
      · exact absurd (tagBytes_nil.mp (h4.unique (.nil h1))) h2
    rcases hrest with ⟨h1, h2⟩ | ⟨h1, h2, -, b, -, hsb, hct, -, q, -, hl⟩
    · rcases hrest' with ⟨h1', -⟩ | ⟨h1', h2', -, _, -, -, hct', -⟩
      · rw [h1, h1']
      · exact clash h2 h1' h2' hct'
    · rcases hrest' with ⟨h1', h2'⟩ | ⟨h1', h2', -, b', -, hsb', hct', -, q', -, hl'⟩
      · exact (clash h2' h1 h2 hct).symm
      · obtain rfl := hsb.unique hsb'
        exact hl.unique hl' (tagBytes_inj (hct.unique hct'))
  cases d
  cases d'
  simp only at hc hc' hn hn' ht ht' hargs
  subst hargs
  rw [hc.unique hc', hn, hn', ht, ht']

/-- A message shows something. -/
theorem IsMessage.decode {r : ReceivedMessage} (h : IsMessage m p e r) (he : e ≤ m.length) :
    ∃ d, Spells m p e d ∧ r.decode m = ok d := by
  obtain ⟨a, hae, hsa, hap, hcase⟩ := h
  obtain ⟨address, haddr, -⟩ := IsStr4.exists_cstr hsa
  have none_case : (a = e ∨ a < e ∧ m[a]? = some (ch ',') ∧ m[a + 1]? = some 0) →
      r.typeTagsBegin = none ∧ r.typeTagsEnd = none ∧ r.arguments = none → ∃ d, Spells m p e d ∧ r.decode m = ok d := by
    intro hend hx
    obtain ⟨h1, h2, h3⟩ := hx
    refine ⟨⟨address, 0, [], []⟩, ⟨haddr, rfl, rfl, a, hae, hsa, .inl ⟨rfl, hend⟩⟩, ?_⟩
    rw [ReceivedMessage.decode, hap, haddr.rdCString_eq, ok_bind, walkArguments_end _ (h1.trans h2.symm), ok_bind]
    rw [ReceivedMessage.argumentCount, h1, h2]
    rfl
  rcases hcase with ⟨h1, hc⟩ | ⟨h1, h2, h3, hc⟩ | ⟨hlt, hcomma, b, hbe, hsb, tags, hne, hct, ⟨q, hra⟩, h1, h2, h3⟩
  · exact none_case (.inl h1) hc
  · exact none_case (.inr ⟨h1, h2, h3⟩) hc
  · obtain ⟨vs, hl, rfl, hd⟩ := hra.lies
    have hqe := hra.le hbe
    have hlen : (tagBytes vs).length = vs.length := List.length_map ..
    have hlt' := hct.lt
    obtain ⟨walk, hw, hm⟩ := hl.walk (n := m.length) hct (by omega) (by omega)
    refine ⟨⟨address, vs.length, tagBytes vs, vs⟩,
      ⟨haddr, rfl, rfl, a, hae, hsa, .inr ⟨fun h => hne (tagBytes_nil.mpr h), hlt, hcomma, b, hbe, hsb, hct,
      nested_iff_depth.mpr hd, q, hqe, hl⟩⟩, ?_⟩
    rw [hlen] at h2
    have htags : walk.1.map (·.2.1) = tagBytes vs := by
      rw [show (fun x : ReceivedMessageArgument × UInt8 × ArgValue => x.2.1) = Prod.fst ∘ Prod.snd from rfl,
        ← List.map_map, hm, List.map_map]
      rfl
    have hvals : walk.1.map (·.2.2) = vs := by
      rw [show (fun x : ReceivedMessageArgument × UInt8 × ArgValue => x.2.2) = Prod.snd ∘ Prod.snd from rfl,
        ← List.map_map, hm, List.map_map]
      exact List.map_id vs
    rw [ReceivedMessage.decode, hap, haddr.rdCString_eq, ok_bind, ReceivedMessage.argumentsEnd,
      ReceivedMessage.argumentsBegin, h1, h2, h3, hw, ok_bind, htags, hvals, ReceivedMessage.argumentCount, h1, h2]
    simp only [Option.getD_some, Nat.add_sub_cancel_left]

/-- What spells something is a message. -/
theorem Spells.message {d : Decoded} (h : Spells m p e d) (size : Int) : ∃ r : ReceivedMessage, r.size = size ∧
    IsMessage m p e r := by
  obtain ⟨-, -, -, a, hae, hsa, hrest⟩ := h
  rcases hrest with ⟨-, hend | ⟨hlt, hc, hz⟩⟩ | ⟨hne, hlt, hc, b, hbe, hsb, hct, hn, q, hqe, hl⟩
  · exact ⟨⟨p, none, none, none, size⟩, rfl, a, hae, hsa, rfl, .inl ⟨hend, rfl, rfl, rfl⟩⟩
  · exact ⟨⟨p, none, none, none, size⟩, rfl, a, hae, hsa, rfl, .inr (.inl ⟨hlt, hc, hz, rfl, rfl, rfl⟩)⟩
  · exact ⟨⟨p, some (a + 1), some (a + 1 + (tagBytes d.arguments).length), some b, size⟩, rfl, a, hae, hsa, rfl,
      .inr (.inr ⟨hlt, hc, b, hbe, hsb, tagBytes d.arguments, fun h => hne (tagBytes_nil.mp h), hct,
        ⟨q, hl.argsRange hqe (hn.depth 0)⟩, rfl, rfl, rfl⟩)⟩

/-- A read of a range shows what the range spells, when its size is one of a packet, and
    throws otherwise. -/
theorem readMessage_decides {size : Int} (hl : p + size.toNat ≤ m.length) :
    Decides (readMessage m p size) (fun d => SizeOk size ∧ Spells m p (p + size.toNat) d) := by
  have hinit := (ReceivedMessage.tryInit_decides hl).mapErr (g := Exn.malformedMessage)
  refine (hinit.bind (T := fun _ d => Spells m p (p + size.toNat) d) fun r hr => ?_).congr fun d => ?_
  · obtain ⟨d, hd, he⟩ := hr.2.2.decode hl
    rw [he]
    exact (decides_ok d).congr fun d' => ⟨fun h => h ▸ hd, fun h => h.unique hd⟩
  · constructor
    · intro h
      obtain ⟨r, ⟨hs, -, -⟩, hd⟩ := h
      exact ⟨hs, hd⟩
    · intro h
      obtain ⟨r, hr, hm⟩ := h.2.message size
      exact ⟨r, ⟨h.1, hr, hm⟩, h.2⟩

/-! ## A loop over the arguments -/

/-- `for (i = ArgumentsBegin(); i != ArgumentsEnd(); ++i)`, with what the body keeps. -/
def forArguments {σ : Type} (m : Bytes) (body : ReceivedMessageArgument → σ → Out Exn σ)
    (end_ : ReceivedMessageArgument) :
    Nat → ReceivedMessageArgument → σ → Out Exn σ
  | n, it, s =>
    if it.typeTagPtr = end_.typeTagPtr then ok s
    else
      match n with
      | 0 => fault .diverge
      | n + 1 => do
        let s ← body it s
        let next ← advance m it
        forArguments m body end_ n next s

variable {σ : Type} {b : ReceivedMessageArgument → σ → Out Exn σ} {f : σ → ArgValue → σ}

/-- A body that depends on the value read folds over the values. -/
theorem forArguments_eq {end_ : ReceivedMessageArgument}
    (hbody : ∀ a tag v s, readTagged m a = ok (tag, v) → b a s = ok (f s v)) :
    ∀ {n : Nat} {a : ReceivedMessageArgument}
      {walk : List (ReceivedMessageArgument × UInt8 × ArgValue) × ReceivedMessageArgument},
    walkArguments m (readTagged m) end_ n a = ok walk →
    ∀ s, forArguments m b end_ n a s = ok ((walk.1.map (·.2.2)).foldl f s) := by
  intro n
  induction n with
  | zero =>
    intro a walk h s
    rw [walkArguments] at h
    rw [forArguments]
    split
    · rw [if_pos ‹_›] at h
      obtain rfl := Out.ok.inj h
      rfl
    · rw [if_neg ‹_›] at h
      cases h
  | succ n ih =>
    intro a walk h s
    rw [walkArguments] at h
    rw [forArguments]
    split
    · rw [if_pos ‹_›] at h
      obtain rfl := Out.ok.inj h
      rfl
    · rw [if_neg ‹_›] at h
      obtain ⟨⟨tag, v⟩, hv, h⟩ := bind_eq_ok.mp h
      obtain ⟨next, hnext, h⟩ := bind_eq_ok.mp h
      obtain ⟨⟨rest, last⟩, hrest, h⟩ := bind_eq_ok.mp h
      obtain rfl := Out.ok.inj h
      dsimp only
      rw [hbody a tag v s hv, ok_bind, hnext, ok_bind]
      exact ih hrest _

/-- So does a loop over a message that can be read. -/
theorem ReceivedMessage.decode_forArguments {r : ReceivedMessage} {d : Decoded} (h : r.decode m = ok d)
    (hbody : ∀ a tag v s, readTagged m a = ok (tag, v) → b a s = ok (f s v)) (s : σ) :
    rdCString m r.addressPattern = (ok d.address : Out Exn Bytes) ∧
      forArguments m b r.argumentsEnd m.length r.argumentsBegin s = ok (d.arguments.foldl f s) := by
  obtain ⟨address, haddress, h⟩ := bind_eq_ok.mp h
  obtain ⟨walk, hwalk, h⟩ := bind_eq_ok.mp h
  obtain rfl := Out.ok.inj h
  exact ⟨haddress, forArguments_eq hbody hwalk s⟩

/-- An argument that can be read has one of the tags. -/
theorem readTagged_tag {a : ReceivedMessageArgument} {tag : UInt8} {v : ArgValue} (h : readTagged m a = ok (tag, v)) :
    ∃ t : TypeTag, a.typeTag m = ok t.value ∧ readUnchecked m a = ok v := by
  obtain ⟨c, hc, h⟩ := bind_eq_ok.mp h
  obtain ⟨w, hw, h⟩ := bind_eq_ok.mp h
  obtain ⟨-, rfl⟩ := Prod.mk.inj (Out.ok.inj h)
  have hread := hw
  rw [readUnchecked, hc, ok_bind] at hw
  cases ht : TypeTag.ofByte c with
  | none => rw [ht] at hw; cases hw
  | some t => exact ⟨t, TypeTag.ofByte_eq_some.mp ht ▸ hc, hread⟩

end OscTap.Received
