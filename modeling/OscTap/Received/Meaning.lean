/-
  OscTap.Received.Meaning — the packet that a received buffer is.

  `Means m p size t`: read as the grammar has it, `[p, p + size)` is the packet `t`, whatever
  padding, type tag string or trailing bytes it was written with. `t` is unique, it is
  sendable, and its own encoding is at most twice as long (a message without a type tag
  string gets one).

  Proved: `accepts_iff_reads`: the gate accepts a buffer at a bound if and only if it is a packet
  nested at most that deep, and the full read then gives back that packet. The read on its own,
  without the gate, throws on every other buffer and touches no byte outside.
-/
import OscTap.Received.ArgumentStream
import OscTap.Received.PrintBundle
import Mathlib.Data.List.Forall2

namespace OscTap.Received

open OscTap.Lib OscTap.Lib.Out OscTap.Osc

inductive Means (m : Bytes) : Nat → Int → PacketTree → Prop
  | message {p : Nat} {size : Int} {d : Decoded} : SizeOk size → m[p]? ≠ some (ch '#') → Spells m p (p + size.toNat) d →
      Means m p size (.message d.address d.arguments)
  | bundle {p : Nat} {size : Int} {es : List (Nat × Nat)} {ts : List PacketTree} : IsBundle m p size es →
      List.Forall₂ (fun x t => Means m x.1 x.2 t) es ts → Means m p size (.bundle (timeTagAt m p) ts)

variable {m : Bytes} {p q e : Nat} {size : Int} {t : PacketTree}

theorem Means.sizeOk (h : Means m p size t) : SizeOk size := by
  cases h with
  | message hs _ _ => exact hs
  | bundle hb _ => exact hb.1

/-- Bytes mean one packet at most. -/
theorem Means.unique (t : PacketTree) : ∀ {p : Nat} {size : Int} {t' : PacketTree}, Means m p size t →
    Means m p size t' → t = t' := by
  induction t using PacketTree.induction with
  | message address arguments =>
    intro p size t' h h'
    cases h with
    | @message _ _ d hs hh hd =>
    cases h' with
    | @message _ _ d' _ _ hd' => rw [hd.unique hd']
    | bundle hb _ => exact absurd (bundleTag_head hb.2.2.1) hh
  | bundle timeTag elements ih =>
    intro p size t' h h'
    cases h with
    | @bundle _ _ es _ hb hall =>
    cases h' with
    | message _ hh _ => exact absurd (bundleTag_head hb.2.2.1) hh
    | @bundle _ _ es' ts' hb' hall' =>
      obtain rfl := hb.2.2.2.unique hb'.2.2.2
      congr 1
      clear hb hb'
      induction hall generalizing ts' with
      | nil =>
        cases hall' with
        | nil => rfl
      | cons hx _ ihs =>
        cases hall' with
        | cons hx' hall' =>
          rw [ih _ (List.mem_cons_self ..) hx hx', ihs (fun e he => ih e (List.mem_cons_of_mem _ he)) hall']

/-! ## What is meant can be sent -/

theorem IsStr4.strBlock_le {s : Bytes} (h : IsStr4 m p q) (hs : CStrAt m p s) : (strBlock s).length ≤ q - p := by
  obtain ⟨s', hs', hlt⟩ := IsStr4.exists_cstr h
  obtain rfl := hs.unique hs'
  have := h.aligned
  have := h.lt
  rw [strBlock, length_padded, List.length_append, padLen, List.length_singleton]
  omega

/-- A value that is read can be sent, in no more bytes than it was read from. -/
theorem ArgRange.sendable {v : ArgValue} (h : ArgRange m v.tag p q) (hv : Holds m v.tag p v) (hq : q ≤ m.length) :
    v.Sendable ∧ v.enc.length ≤ q - p := by
  cases v with
  | bool b => exact ⟨trivial, Nat.zero_le _⟩
  | nil | infinitum | arrayBegin | arrayEnd => exact ⟨trivial, Nat.zero_le _⟩
  | int32 | float | char | rgbaColor | midiMessage =>
    obtain rfl : q = p + 4 := h
    refine ⟨trivial, ?_⟩
    rw [ArgValue.enc, length_be32]
    omega
  | int64 | timeTag | double =>
    obtain rfl : q = p + 8 := h
    refine ⟨trivial, ?_⟩
    rw [ArgValue.enc, length_be64]
    omega
  | string s | symbol s =>
    obtain ⟨s', hs, he⟩ := hv
    cases he
    exact ⟨hs.noNul, IsStr4.strBlock_le h hs⟩
  | blob data =>
    obtain ⟨hmax, hq'⟩ : word m p ≤ 0x7FFFFFFC ∧ q = p + 4 + roundUp4 (word m p) := h
    have hround := roundUp4_ge (show word m p + 3 < 2 ^ 32 by omega)
    have hdata : data = slice m (p + 4) (p + 4 + word m p) := ArgValue.blob.inj hv
    have hlen : data.length = word m p := by rw [hdata, length_slice (by omega)]; omega
    refine ⟨by rw [ArgValue.Sendable, hlen]; exact hmax, ?_⟩
    rw [ArgValue.enc, List.length_append, length_be32, length_padded_eq (by omega), hlen]
    omega

theorem Lies.sendable {vs : List ArgValue} (h : Lies m vs p q) (hq : q ≤ m.length) :
    (∀ v ∈ vs, v.Sendable) ∧ (vs.flatMap ArgValue.enc).length ≤ q - p := by
  induction h with
  | nil p => simp
  | @cons v vs p q r hr hv hrest ih =>
    have hle := hrest.le
    have hle' := hr.aligned.1
    obtain ⟨hs, hlen⟩ := hr.sendable hv (by omega)
    obtain ⟨hss, hlens⟩ := ih hq
    refine ⟨by simpa using ⟨hs, hss⟩, ?_⟩
    rw [List.flatMap_cons, List.length_append]
    omega

theorem sendableAddress_of_cstr {s : Bytes} (h : CStrAt m p s) (hh : m[p]? ≠ some (ch '#')) : SendableAddress s := by
  refine ⟨h.noNul, fun hs => hh ?_⟩
  cases h with
  | nil _ => cases hs
  | cons hc _ _ =>
    rw [hc]
    exact hs

/-- The message that is spelled, sent again: at most a type tag string longer. -/
theorem Spells.sendable {d : Decoded} (h : Spells m p e d) (he : e ≤ m.length) (hh : m[p]? ≠ some (ch '#')) :
    (PacketTree.message d.address d.arguments).Sendable ∧
      (PacketTree.message d.address d.arguments).enc.length ≤ e - p + 4 := by
  obtain ⟨hc, -, -, a, hae, hsa, hrest⟩ := h
  have haddr := IsStr4.strBlock_le hsa hc
  have hlt := hsa.lt
  rw [PacketTree.Sendable, PacketTree.enc, List.length_append, List.length_append]
  rcases hrest with ⟨hnil, -⟩ | ⟨-, -, hcomma, b, hbe, hsb, hct, hn, q, hq, hl⟩
  · rw [hnil]
    refine ⟨⟨sendableAddress_of_cstr hc hh, by simp, .nil⟩, ?_⟩
    have : (tagBlock (tagBytes [])).length = 4 := rfl
    rw [this, List.flatMap_nil, List.length_nil]
    omega
  · obtain ⟨hs, hlen⟩ := hl.sendable (by omega)
    have htags := IsStr4.strBlock_le hsb (.cons hcomma (by decide) hct)
    have hltb := hsb.lt
    have hleq := hl.le
    refine ⟨⟨sendableAddress_of_cstr hc hh, hs, hn⟩, ?_⟩
    rw [tagBlock]
    omega

theorem length_enc_bundle (timeTag : UInt64) (ts : List PacketTree) :
    (PacketTree.bundle timeTag ts).enc.length = 16 + (PacketTree.encElements ts).length := by
  rw [PacketTree.enc, List.length_append, List.length_append, length_be64]
  rfl

/-- What is meant can be sent, in at most twice the bytes. -/
theorem Means.sendable (t : PacketTree) : ∀ {p : Nat} {size : Int}, Means m p size t → p + size.toNat ≤ m.length →
    t.Sendable ∧ t.enc.length ≤ 2 * size.toNat := by
  induction t using PacketTree.induction with
  | message address arguments =>
    intro p size h hl
    cases h with
    | message hs hh hd =>
    obtain ⟨h1, h2⟩ := hd.sendable hl hh
    obtain ⟨g1, -, g3⟩ := hs
    exact ⟨h1, by omega⟩
  | bundle timeTag elements ih =>
    intro p size h hl
    cases h with
    | @bundle _ _ es _ hb hall =>
    obtain ⟨⟨g1, g2, -⟩, h16, -, hf⟩ := hb
    rw [PacketTree.Sendable, PacketTree.allSendable_iff, length_enc_bundle]
    have hbase : p + 16 + (size.toNat - 16) = p + size.toNat := by omega
    have helems : (∀ e ∈ elements, e.Sendable) ∧ (PacketTree.encElements elements).length ≤
      2 * (p + size.toNat - (p + 16)) := by
      clear hbase
      generalize p + 16 = s at hf
      generalize p + size.toNat = e at hf hl
      induction hf generalizing elements with
      | nil =>
        cases hall
        exact ⟨by simp, by simp [PacketTree.encElements]⟩
      | @cons q es h4 _ hle hrest ihs =>
        cases hall with
        | @cons _ t _ ts hx hall =>
        obtain ⟨ht, htl⟩ := ih t (List.mem_cons_self ..) hx (by simp only [Int.toNat_natCast]; omega)
        obtain ⟨hts, htsl⟩ := ihs ts (fun e he => ih e (List.mem_cons_of_mem _ he)) hall
        have hlast := hrest.le
        refine ⟨by simpa using ⟨ht, hts⟩, ?_⟩
        rw [PacketTree.encElements, List.length_append, List.length_append, length_be32]
        simp only [Int.toNat_natCast] at htl
        omega
    exact ⟨helems.1, by omega⟩

/-! ## What is accepted means something -/

theorem nestingOf_le {ts : List PacketTree} {d : Nat} : PacketTree.nesting.nestingOf ts ≤ d ↔
    ∀ t ∈ ts, t.nesting ≤ d := by
  induction ts with
  | nil => simp [PacketTree.nesting.nestingOf]
  | cons t ts ih => simp [PacketTree.nesting.nestingOf, ih]

/-- A choice for every element of a list. -/
theorem exists_forall₂ {α β : Type} {R : α → β → Prop} {P : β → Prop} : ∀ {xs : List α}, (∀ x ∈ xs, ∃ y, R x y ∧ P y) →
    ∃ ys, List.Forall₂ R xs ys ∧ ∀ y ∈ ys, P y
  | [], _ => ⟨[], .nil, by simp⟩
  | x :: xs, h => by
    obtain ⟨y, hxy, hy⟩ := h x (List.mem_cons_self ..)
    obtain ⟨ys, hxys, hys⟩ := exists_forall₂ fun z hz => h z (List.mem_cons_of_mem _ hz)
    exact ⟨y :: ys, .cons hxy hxys, by simpa using ⟨hy, hys⟩⟩

/-- The gate's language: the bytes that mean a packet nested within the bound. -/
theorem Valid.means {d : Nat} (h : Valid m d p size) (hl : p + size.toNat ≤ m.length) : ∃ t, Means m p size t ∧
    t.nesting ≤ d := by
  induction h with
  | @message d p size r hs hh hm =>
    obtain ⟨x, hx, -⟩ := hm.decode hl
    exact ⟨_, .message hs hh hx, by simp [PacketTree.nesting]⟩
  | @bundle d p size es hb _ ih =>
    have hin := hb.2.2.2.inside
    obtain ⟨ts, hts, hnest⟩ := exists_forall₂ fun x hx =>
      ih x hx (by have := hin x hx; simp only [Int.toNat_natCast]; omega)
    exact ⟨_, .bundle hb hts, by rw [PacketTree.nesting]; exact Nat.succ_le_succ (nestingOf_le.mpr hnest)⟩

theorem Means.valid (t : PacketTree) : ∀ {p d : Nat} {size : Int}, Means m p size t → t.nesting ≤ d →
    Valid m d p size := by
  induction t using PacketTree.induction with
  | message address arguments =>
    intro p d size h _
    cases h with
    | message hs hh hd =>
    obtain ⟨r, -, hr⟩ := hd.message size
    exact .message hs hh hr
  | bundle timeTag elements ih =>
    intro p d size h hn
    cases h with
    | @bundle _ _ es _ hb hall =>
    rw [PacketTree.nesting] at hn
    obtain ⟨d, rfl⟩ : ∃ n, d = n + 1 := ⟨d - 1, by omega⟩
    replace hn := nestingOf_le.mp (Nat.le_of_succ_le_succ hn)
    refine .bundle hb fun x hx => ?_
    clear hb
    induction hall with
    | nil => cases hx
    | @cons y t _ ts hy _ ihs =>
      rcases List.mem_cons.mp hx with rfl | hx
      · exact ih t (List.mem_cons_self ..) hy (hn t (List.mem_cons_self ..))
      · exact ihs (fun e he => ih e (List.mem_cons_of_mem _ he)) (fun e he => hn e (List.mem_cons_of_mem _ he)) hx

/-! ## What is read -/

theorem Ahead.walk {end_ : ReceivedMessageArgument} : ∀ {vs : List ArgValue} {it : ReceivedMessageArgument} {n : Nat},
    Ahead m end_ vs it → ∀ {visits : List (ReceivedMessageArgument × ArgValue)} {last : ReceivedMessageArgument},
    walkArguments m (readUnchecked m) end_ n it = ok (visits, last) → visits.map Prod.snd = vs
  | [], it, n, h, visits, last, hw => by
    rw [walkArguments_end n (h.at_end.mpr rfl)] at hw
    cases hw
    rfl
  | v :: vs, it, n, h, visits, last, hw => by
    obtain ⟨next, hadv, hnext, -, -, hread, -⟩ := h.cons
    unfold walkArguments at hw
    rw [if_neg (by simp [h.at_end])] at hw
    cases n with
    | zero => cases hw
    | succ n =>
      simp only [hread, hadv, ok_bind] at hw
      obtain ⟨⟨rest, last'⟩, hrest, hw⟩ := bind_eq_ok.mp hw
      cases hw
      rw [List.map_cons, Ahead.walk hnext hrest]

theorem Ahead.extractAll {end_ : ReceivedMessageArgument} : ∀ {vs : List ArgValue} {it : ReceivedMessageArgument},
    Ahead m end_ vs it → (∀ v ∈ vs, Streamable v.tag) → Received.extractAll m (vs.map ArgValue.tag) ⟨it, end_⟩ = ok vs
  | [], it, h, _ => by
    have heos : ReceivedMessageArgumentStream.eos ⟨it, end_⟩ = true := beq_iff_eq.mpr (h.at_end.mpr rfl)
    rw [List.map_nil, Received.extractAll, ReceivedMessageArgumentStream.extractTerminator, heos]
    rfl
  | v :: vs, it, h, hs => by
    obtain ⟨next, hadv, hnext, -, -, -, hread, -⟩ := h.cons
    have heos : ¬ ReceivedMessageArgumentStream.eos ⟨it, end_⟩ = true := fun he => by
      cases h.at_end.mp (beq_iff_eq.mp he)
    have hrest := Ahead.extractAll hnext fun w hw => hs w (List.mem_cons_of_mem _ hw)
    rw [List.map_cons, Received.extractAll, ReceivedMessageArgumentStream.extract, if_neg heos]
    simp only [hadv, hread (hs v (List.mem_cons_self ..)), ok_bind, hrest]

/-- A message is walked, and its stream extracted, in the order of its arguments. -/
theorem Spells.reads {r : ReceivedMessage} {d : Decoded} (hd : Spells m p e d) (h : IsMessage m p e r)
    (he : e ≤ m.length) {visits : List (ReceivedMessageArgument × ArgValue)} {last : ReceivedMessageArgument}
    (hw : walkArguments m (readUnchecked m) r.argumentsEnd m.length r.argumentsBegin = ok (visits, last)) :
    ReadsAs m (.message r visits last) (.message d.address d.arguments) := by
  obtain ⟨d', hd', hdecode⟩ := h.decode he
  obtain rfl := hd.unique hd'
  obtain ⟨hahead, -⟩ := h.ahead he hd
  have hcount := hd.2.1
  rw [ReceivedMessage.decode] at hdecode
  obtain ⟨address, haddr, hdecode⟩ := bind_eq_ok.mp hdecode
  obtain ⟨walk, -, hdecode⟩ := bind_eq_ok.mp hdecode
  obtain rfl := Out.ok.inj hdecode
  exact .message haddr (hahead.walk hw) hcount fun hs => hahead.extractAll hs

theorem walkElements_reads {f : Nat → Out Exn ReadTree} {es : List (Nat × Nat)} {ts : List PacketTree}
    (he : e ≤ m.length) (hb : e - p < 2 ^ 31) (hf : Framed m e p es)
    (hx : List.Forall₂ (fun x t => ∃ r, f (x.1 - 4) = ok r ∧ ReadsAs m r t) es ts) : ∀ n, es.length ≤ n →
    ∃ rs, walkElements m f e n p = ok rs ∧ List.Forall₂ (ReadsAs m) rs ts := by
  induction hf generalizing ts with
  | nil =>
    intro n _
    cases hx
    exact ⟨[], by unfold walkElements; rw [if_pos rfl], .nil⟩
  | @cons p es h1 h4 h2 hf ih =>
    intro n hn
    rw [List.length_cons] at hn
    obtain ⟨n, rfl⟩ : ∃ n', n = n' + 1 := ⟨n - 1, by omega⟩
    cases hx with
    | cons hr hrest =>
    obtain ⟨r, hread, hra⟩ := hr
    obtain ⟨rs, hw, hrs⟩ := ih (by omega) hrest n (by omega)
    have hnext := elementAdvance_eq (show p + 4 ≤ m.length by omega) (by omega)
    refine ⟨r :: rs, ?_, .cons hra hrs⟩
    rw [walkElements, if_neg (by omega), show f p = ok r from hread, ok_bind, hnext, ok_bind, hw, ok_bind]

/-- The full read of bytes that mean a packet sees that packet. -/
theorem Means.read (t : PacketTree) : ∀ {p : Nat} {size : Int}, Means m p size t → p + size.toNat ≤ m.length →
    ∀ fuel, size.toNat ≤ fuel → ∃ r, readContents m p size fuel = ok r ∧ ReadsAs m r t := by
  induction t using PacketTree.induction with
  | message address arguments =>
    intro p size h hl fuel _
    cases h with
    | message hs hh hd =>
    obtain ⟨r, hr, hm⟩ := hd.message size
    obtain ⟨visits, last, hw, -⟩ := readMessage_in_step hl hs hr hm
    have hinit := (ReceivedMessage.tryInit_decides hl).iff.mpr ⟨hs, hr, hm⟩
    exact ⟨_, readContents_message hl hs hh hinit hw fuel, hd.reads hm hl hw⟩
  | bundle timeTag elements ih =>
    intro p size h hl fuel hfuel
    cases h with
    | @bundle _ _ es _ hb hall =>
    have hf := hb.2.2.2
    obtain ⟨h1, h2, h3⟩ := hb.1
    obtain ⟨fuel, rfl⟩ : ∃ n, fuel = n + 1 := ⟨fuel - 1, by omega⟩
    have hin := hf.inside
    have hword := hf.word_eq
    have hx : List.Forall₂ (fun x t => ∃ r, (elementSize m (x.1 - 4) >>= fun n =>
      readContents m (x.1 - 4 + 4) n fuel) = ok r ∧
        ReadsAs m r t) es elements := by
      have hlen := hf.length_le
      clear hf hb
      induction hall with
      | nil => exact .nil
      | @cons x t es ts hx hall ihs =>
        refine .cons ?_ (ihs (fun e he => ih e (List.mem_cons_of_mem _ he))
          (fun y hy => hin y (List.mem_cons_of_mem _ hy))
          (fun y hy => hword y (List.mem_cons_of_mem _ hy)) (by rw [List.length_cons] at hlen; omega))
        obtain ⟨h4, hw⟩ := hword x (List.mem_cons_self ..)
        have hinx := hin x (List.mem_cons_self ..)
        obtain ⟨r, hr, hra⟩ := ih t (List.mem_cons_self ..) hx (by simp only [Int.toNat_natCast]; omega) fuel (by omega)
        refine ⟨r, ?_, hra⟩
        rw [elementSize_eq (by omega) (by omega), ← hw, ok_bind, Nat.sub_add_cancel h4]
        exact hr
    have hlen := hf.length_le
    obtain ⟨rs, hw, hrs⟩ := walkElements_reads
      (f := fun i => elementSize m i >>= fun n => readContents m (i + 4) n fuel) hl (by omega) hf hx m.length (by omega)
    exact ⟨_, readContents_bundle hl hb hw, .bundle hall.length_eq hrs⟩

/-- The elements of a bundle, each read. -/
theorem walkElements_sat {β : Type} {f : Nat → Out Exn β} {S : Nat → Nat → Prop} {es : List (Nat × Nat)}
    (he : e ≤ m.length) (hb : e - p < 2 ^ 31) (hf : Framed m e p es)
    (hx : ∀ x ∈ es, Sat (f (x.1 - 4)) (fun _ => S x.1 x.2) fun _ => True) : ∀ n, es.length ≤ n →
    Sat (walkElements m f e n p) (fun _ => ∀ x ∈ es, S x.1 x.2) fun _ => True := by
  induction hf with
  | nil =>
    intro n _
    unfold walkElements
    rw [if_pos rfl]
    exact fun x hx => by cases hx
  | @cons p es h1 h4 h2 hf ih =>
    intro n hn
    rw [List.length_cons] at hn
    obtain ⟨n, rfl⟩ : ∃ n', n = n' + 1 := ⟨n - 1, by omega⟩
    have hnext := elementAdvance_eq (show p + 4 ≤ m.length by omega) (by omega)
    rw [walkElements, if_neg (by omega)]
    refine (hx _ (List.mem_cons_self ..)).bind fun b hS => ?_
    rw [hnext, ok_bind]
    refine (ih (by omega) (fun x hm => hx x (List.mem_cons_of_mem _ hm)) n (by omega)).bind fun bs hSs => ?_
    simpa using ⟨hS, fun a b => hSs (a, b)⟩

theorem walkElements_ok {β : Type} {f : Nat → Out Exn β} {es : List (Nat × Nat)} (he : e ≤ m.length)
    (hb : e - p < 2 ^ 31) (hf : Framed m e p es) (hx : ∀ x ∈ es, ∃ b, f (x.1 - 4) = ok b) : ∀ n, es.length ≤ n →
    ∃ bs, walkElements m f e n p = ok bs := by
  induction hf with
  | nil =>
    intro n _
    exact ⟨[], by unfold walkElements; rw [if_pos rfl]⟩
  | @cons p es h1 h4 h2 hf ih =>
    intro n hn
    rw [List.length_cons] at hn
    obtain ⟨n, rfl⟩ : ∃ n', n = n' + 1 := ⟨n - 1, by omega⟩
    obtain ⟨b, hb1⟩ := hx _ (List.mem_cons_self ..)
    obtain ⟨bs, hbs⟩ := ih (by omega) (fun x hm => hx x (List.mem_cons_of_mem _ hm)) n (by omega)
    have hnext := elementAdvance_eq (show p + 4 ≤ m.length by omega) (by omega)
    exact ⟨b :: bs, by rw [walkElements, if_neg (by omega), show f p = ok b from hb1, ok_bind, hnext,
      ok_bind, hbs, ok_bind]⟩

theorem readContents_message_sat (fuel : Nat) (hl : p + size.toNat ≤ m.length) (hh : 0 < size → m[p]? ≠ some (ch '#')) :
    Sat (readContents m p size fuel) (fun _ => ∃ t, Means m p size t) fun _ => True := by
  have hnone : (isBundle m p size : Out Exn Bool) = ok false := by
    by_cases hs : 0 < size
    · rw [isBundle_eq hl hs, decide_eq_false (hh hs)]
    · rw [isBundle, if_neg hs]
  rw [readContents, hnone, ok_bind]
  simp only [Bool.false_eq_true, if_false]
  refine ((ReceivedMessage.tryInit_decides hl).mapErr (g := Exn.malformedMessage)).sat.bind (fun r hr => ?_)
  obtain ⟨hs, hr, hm⟩ := hr
  obtain ⟨visits, last, hw, -⟩ := readMessage_in_step hl hs hr hm
  rw [hw]
  obtain ⟨d, hd, -⟩ := hm.decode hl
  exact ⟨_, .message hs (hh hs.1) hd⟩

/-- Whatever the bytes: the full read returns only if they are a packet, and throws otherwise. -/
theorem readContents_sat : ∀ (fuel : Nat) {p : Nat} {size : Int}, p + size.toNat ≤ m.length → size.toNat ≤ fuel →
    Sat (readContents m p size fuel) (fun _ => ∃ t, Means m p size t) fun _ => True := by
  intro fuel
  induction fuel with
  | zero => exact fun hl hfuel => readContents_message_sat 0 hl fun hs => by omega
  | succ fuel ih =>
    intro p size hl hfuel
    by_cases hh : 0 < size ∧ m[p]? = some (ch '#')
    · rw [readContents, isBundle_eq hl hh.1, ok_bind, decide_eq_true hh.2, if_pos rfl]
      refine ((ReceivedBundle.tryInit_decides hl).mapErr (g := Exn.malformedBundle)).sat.bind (fun b hb => ?_)
      obtain ⟨es, hb, rfl⟩ := hb
      obtain ⟨h1, h2, -⟩ := hb.1
      have h16 := hb.2.1
      have hf := hb.2.2.2
      have hlen := hf.length_le
      rw [rd64_of_le (show p + 8 + 8 ≤ m.length by omega), map_ok, ok_bind]
      refine (walkElements_sat (S := fun q n => ∃ t, Means m q n t ∧ True) hl (by omega) hf (fun x hx => ?_)
        m.length (by omega)).bind fun ts hts => ?_
      · obtain ⟨h4, hw⟩ := hf.word_eq x hx
        have hin := hf.inside x hx
        rw [elementSize_eq (by omega) (by omega), ← hw, ok_bind, Nat.sub_add_cancel h4]
        refine (ih (by simp only [Int.toNat_natCast]; omega) (by omega)).mono (fun _ h => ?_) fun _ h => h
        obtain ⟨t, ht⟩ := h
        exact ⟨t, ht, trivial⟩
      · obtain ⟨ts, hall, -⟩ := exists_forall₂ hts
        exact ⟨_, .bundle hb hall⟩
    · exact readContents_message_sat _ hl fun hs => fun hc => hh ⟨hs, hc⟩

/-- What a read saw is one packet. -/
theorem ReadsAs.unique (t : PacketTree) : ∀ {r : ReadTree} {t' : PacketTree}, ReadsAs m r t →
    ReadsAs m r t' → t = t' := by
  induction t using PacketTree.induction with
  | message address arguments =>
    intro r t' h h'
    cases h with
    | message haddr hargs _ _ =>
    cases h' with
    | message haddr' hargs' _ _ =>
      rw [haddr] at haddr'
      rw [Out.ok.inj haddr', ← hargs, hargs']
  | bundle timeTag elements ih =>
    intro r t' h h'
    cases h with
    | bundle hcount hall =>
    cases h' with
    | @bundle _ _ _ elements' hcount' hall' =>
      congr 1
      clear hcount hcount'
      induction hall generalizing elements' with
      | nil =>
        cases hall' with
        | nil => rfl
      | cons hx _ ihs =>
        cases hall' with
        | cons hx' hall' =>
          rw [ih _ (List.mem_cons_self ..) hx hx', ihs (fun e he => ih e (List.mem_cons_of_mem _ he)) hall']

theorem readPacket_means {r : ReadTree} (hm : m.length = size.toNat) (h : readPacket m size = ok r) :
    ∃ t, Means m 0 size t := by
  rw [readPacket] at h
  obtain ⟨packet, hp, h⟩ := bind_eq_ok.mp h
  rw [ReceivedPacket.mk'] at hp
  cases hv : ReceivedPacket.validateSizeNoThrow size with
  | some e => rw [hv] at hp; cases hp
  | none =>
    rw [hv] at hp
    obtain rfl := Out.ok.inj hp
    exact (readContents_sat m.length (by omega) (by omega)).ok_of_eq h

theorem Means.readPacket (h : Means m 0 size t) (hm : m.length = size.toNat) :
    ∃ r, Received.readPacket m size = ok r ∧ ReadsAs m r t := by
  rw [Received.readPacket, ReceivedPacket.mk', validateSizeNoThrow_none.mpr h.sizeOk]
  exact Means.read t h (by omega) m.length (by omega)

/-- An encoding means the packet it encodes. -/
theorem means_enc {t : PacketTree} (hs : t.Sendable) (hl : t.enc.length ≤ 0x7FFFFFFC) :
    Means t.enc 0 t.enc.length t := by
  obtain ⟨r, hr, hra⟩ := readPacket_enc hs hl
  obtain ⟨t', ht⟩ := readPacket_means rfl hr
  obtain ⟨r', hr', hra'⟩ := ht.readPacket rfl
  rw [hr] at hr'
  obtain rfl := Out.ok.inj hr'
  exact ReadsAs.unique t hra hra' ▸ ht

/-- The gate and the full read agree, and both go by what the bytes mean. At every bound the gate
    accepts exactly the encodings of the packets that are nested within it; the read gives back
    the one packet that the bytes encode, throws where they encode none, and stays inside any
    buffer. -/
theorem accepts_iff_reads (m : Bytes) (size : Int) (hm : m.length = size.toNat) :
    (∀ f, readPacket m size ≠ fault f) ∧
      (∀ d, tryValidatePacket m 0 size d = ok () ↔ ∃ t, Means m 0 size t ∧ t.nesting ≤ d) ∧
      (∀ t, Means m 0 size t → ∃ r, readPacket m size = ok r ∧ ∀ t', ReadsAs m r t' ↔ t' = t) ∧
      (∀ r, readPacket m size = ok r → ∃ t, Means m 0 size t ∧ ReadsAs m r t) ∧
      ∀ t t', Means m 0 size t → Means m 0 size t' → t = t' := by
  have hl : 0 + size.toNat ≤ m.length := by omega
  refine ⟨safe_iff.mp ?_, fun d => ⟨fun h => ?_, fun h => ?_⟩, fun t ht => ?_, fun r hr => ?_, fun t t' h h' =>
    Means.unique t h h'⟩
  · rw [readPacket, ReceivedPacket.mk']
    cases ReceivedPacket.validateSizeNoThrow size with
    | some e => trivial
    | none => exact (readContents_sat m.length hl (by omega)).safe
  · exact ((tryValidatePacket_decides d 0 size hl).iff.mp h).means hl
  · obtain ⟨t, ht, hn⟩ := h
    exact (tryValidatePacket_decides d 0 size hl).iff.mpr (Means.valid t ht hn)
  · obtain ⟨r, hr, hra⟩ := ht.readPacket hm
    refine ⟨r, hr, fun t' => ⟨fun h => ReadsAs.unique t' h hra, ?_⟩⟩
    rintro rfl
    exact hra
  · obtain ⟨t, ht⟩ := readPacket_means hm hr
    obtain ⟨r', hr', hra⟩ := ht.readPacket hm
    rw [hr] at hr'
    obtain rfl := Out.ok.inj hr'
    exact ⟨t, ht, hra⟩

theorem accepts_iff_reads_oneMessageBundle : tryValidatePacket oneMessageBundle 0 32 1 = ok () ∧
    ∃ t r, Means oneMessageBundle 0 32 t ∧ t.nesting ≤ 1 ∧ readPacket oneMessageBundle 32 = ok r ∧
      ∀ t', ReadsAs oneMessageBundle r t' ↔ t' = t := by
  have h : tryValidatePacket oneMessageBundle 0 32 1 = ok () := by decide +kernel
  obtain ⟨-, hgate, hread, -⟩ := accepts_iff_reads oneMessageBundle 32 rfl
  obtain ⟨t, ht, hn⟩ := (hgate 1).mp h
  obtain ⟨r, hr, hra⟩ := hread t ht
  exact ⟨h, t, r, ht, hn, hr, hra⟩

end OscTap.Received
