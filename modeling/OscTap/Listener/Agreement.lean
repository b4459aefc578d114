/-
  OscTap.Listener.Agreement — the gate and the dispatcher agree (see
  `OscTap.Listener.PacketListener`).

  The gate counts its bound down, the listener counts its depth up; they meet in
  `max - depth`. On framed bytes the dispatcher's loop is a fold over the elements
  (`processElements_eq`), so each result about it is a rule for folds:
  - whatever `ProcessMessage` does, the listener is left as it was found (`restores`);
  - a valid packet is dispatched message by message in wire order (`runs`);
  - a packet that is not valid throws or skips a bundle (`refuses`).

  Proved: `dispatch_agrees`, for every packet, bound and reachable listener.
-/
import OscTap.Listener.PacketListener
import OscTap.Received.ReadSafety

namespace OscTap.Listener

open OscTap.Lib OscTap.Lib.Out OscTap.Osc OscTap.Received

/-! ## The messages of a packet -/

mutual

/-- The messages of the packet in `[p, p + size)`, depth first in wire order. -/
inductive Messages (m : Bytes) : Nat → Int → List ReceivedMessage → Prop
  | message {p : Nat} {size : Int} {r : ReceivedMessage} : SizeOk size → m[p]? ≠ some (ch '#') → r.size = size →
      IsMessage m p (p + size.toNat) r → Messages m p size [r]
  | bundle {p : Nat} {size : Int} {es : List (Nat × Nat)} {rs : List ReceivedMessage} : IsBundle m p size es →
      MessagesOf m es rs → Messages m p size rs

inductive MessagesOf (m : Bytes) : List (Nat × Nat) → List ReceivedMessage → Prop
  | nil : MessagesOf m [] []
  | cons {x : Nat × Nat} {es : List (Nat × Nat)} {rs rs' : List ReceivedMessage} : Messages m x.1 x.2 rs →
      MessagesOf m es rs' → MessagesOf m (x :: es) (rs ++ rs')

end

theorem IsMessage.unique {m : Bytes} {p : Nat} {size : Int} {r r' : ReceivedMessage} (hl : p + size.toNat ≤ m.length)
    (hs : SizeOk size) (h : r.size = size ∧ IsMessage m p (p + size.toNat) r)
    (h' : r'.size = size ∧ IsMessage m p (p + size.toNat) r') : r = r' := by
  have e := (ReceivedMessage.tryInit_decides hl).iff.mpr ⟨hs, h.1, h.2⟩
  have e' := (ReceivedMessage.tryInit_decides hl).iff.mpr ⟨hs, h'.1, h'.2⟩
  exact Out.ok.inj (e.symm.trans e')

theorem MessagesOf.unique {m : Bytes} {es : List (Nat × Nat)} {rs rs' : List ReceivedMessage}
    (hx : ∀ x ∈ es, ∀ rs rs', Messages m x.1 x.2 rs → Messages m x.1 x.2 rs' → rs = rs') (h : MessagesOf m es rs)
    (h' : MessagesOf m es rs') : rs = rs' := by
  induction es generalizing rs rs' with
  | nil => cases h; cases h'; rfl
  | cons x es ih =>
    cases h with
    | cons hm hms =>
      cases h' with
      | cons hm' hms' =>
        rw [hx x (List.mem_cons_self ..) _ _ hm hm', ih (fun y hy => hx y (List.mem_cons_of_mem _ hy)) hms hms']

/-- A packet has one list of messages; each nested packet is shorter. -/
theorem Messages.unique {m : Bytes} : ∀ (n p : Nat) (size : Int) (rs rs' : List ReceivedMessage), size.toNat ≤ n →
    p + size.toNat ≤ m.length → Messages m p size rs → Messages m p size rs' → rs = rs' := by
  intro n
  induction n with
  | zero =>
    intro p size rs rs' hn hl h _
    cases h with
    | message hs _ _ _ => have := hs.1; omega
    | bundle hb _ => have := hb.1.1; omega
  | succ n ih =>
    intro p size rs rs' hn hl h h'
    cases h with
    | message hs hh hr hm =>
      cases h' with
      | message _ _ hr' hm' => rw [IsMessage.unique hl hs ⟨hr, hm⟩ ⟨hr', hm'⟩]
      | bundle hb _ => exact absurd (bundleTag_head hb.2.2.1) hh
    | bundle hb hms =>
      cases h' with
      | message _ hh _ _ => exact absurd (bundleTag_head hb.2.2.1) hh
      | bundle hb' hms' =>
        rw [IsBundle.unique hb' hb] at hms'
        refine MessagesOf.unique (fun x hx rs rs' => ?_) hms hms'
        have := hb.2.2.2.inside x hx
        exact ih x.1 x.2 rs rs' (by omega) (by omega)

/-! ## The loop -/

/-- Over framed bytes the loop is a fold over the elements. -/
theorem processElements_eq {m : Bytes} {f : Nat → Dispatch → Out (Thrown × Dispatch) Dispatch}
    {g : Dispatch → Nat × Nat → Out (Thrown × Dispatch) Dispatch} {e p : Nat} {es : List (Nat × Nat)}
    (he : e ≤ m.length) (hb : e - p < 2 ^ 31) (hf : Framed m e p es) (hg : ∀ x ∈ es, ∀ s, f (x.1 - 4) s = g s x) :
    ∀ n s, es.length ≤ n →
    processElements m f e n p s = es.foldlM g s := by
  induction hf with
  | nil =>
    intro n s _
    unfold processElements
    rw [if_pos rfl]; rfl
  | @cons p es h1 h4 h2 hf ih =>
    intro n s hn
    simp only [List.length_cons] at hn
    obtain ⟨n, rfl⟩ : ∃ n', n = n' + 1 := ⟨n - 1, by omega⟩
    have hnext := elementAdvance_eq (show p + 4 ≤ m.length by omega) (by omega)
    have hrest : ∀ s, processElements m f e n (p + 4 + word m p) s = es.foldlM g s := fun s =>
      ih (by omega) (fun x hx => hg x (List.mem_cons_of_mem _ hx)) n s (by omega)
    rw [processElements, if_neg (by omega), List.foldlM_cons, hnext, ← hg _ (List.mem_cons_self ..)]
    show (f p s >>= fun s => processElements m f e n (p + 4 + word m p) s) = (f p s >>= _)
    rw [funext hrest]

variable {m : Bytes} {handler : Handler} {p : Nat} {size : Int} {s : Dispatch}

/-- The body of the loop in `ProcessBundle`, over the offset and size of an element. -/
def processElement (m : Bytes) (handler : Handler) (fuel : Nat) (s : Dispatch) (x : Nat × Nat) :
    Out (Thrown × Dispatch) Dispatch :=
  processContents m handler (processBundle m handler fuel) x.1 x.2 s

theorem parse_safe {α : Type} {x : Out Exn α} {S : α → Prop} (h : Decides x S) :
    Sat (parse s x) S (fun e => e.2 = s) := by
  cases x with
  | ok a => exact h.iff.mp rfl
  | err e => rfl
  | fault f => exact absurd h.safe (by simp [Safe])

/-- `ProcessBundle` of a bundle that was parsed, at a depth in front of the bound. -/
theorem processBundle_eq {es : List (Nat × Nat)} {fuel : Nat} (hl : p + size.toNat ≤ m.length)
    (hb : IsBundle m p size es) (hd : s.listener.bundleNestingDepth < s.listener.maxBundleNestingDepth) :
    processBundle m handler (fuel + 1) ⟨p + 8, p + size.toNat, es.length⟩ s =
      depthGuard (es.foldlM (processElement m handler fuel)) s := by
  obtain ⟨⟨h1, h2, -⟩, h16, -, hf⟩ := hb
  have hlen := hf.length_le
  rw [processBundle, if_neg (by omega)]
  dsimp only [ReceivedBundle.elementsEnd, ReceivedBundle.elementsBegin]
  rw [Nat.add_assoc p]
  congr 1
  funext s
  refine processElements_eq hl (by omega) hf (fun x hx s => ?_) m.length s (by omega)
  -- an element is read at its size slot, four bytes in front of its contents
  obtain ⟨h4, hw⟩ := hf.word_eq x hx
  have hin := hf.inside x hx
  rw [elementSize_eq (by omega) (by omega), ← hw, Nat.sub_add_cancel h4]
  rfl

theorem processBundle_skips {b : ReceivedBundle} {fuel : Nat}
    (hd : s.listener.maxBundleNestingDepth ≤ s.listener.bundleNestingDepth) :
    processBundle m handler fuel b s = ok (s.record (.skipped b)) := by
  unfold processBundle
  exact if_pos hd

theorem isBundle_decide {ε : Type} (hl : p + size.toNat ≤ m.length) :
    (isBundle m p size : Out ε Bool) = ok (decide (0 < size ∧ m[p]? = some (ch '#'))) := by
  by_cases hs : 0 < size
  · rw [isBundle_eq hl hs]; simp [hs]
  · rw [isBundle, if_neg hs]; simp [hs]

theorem bundle_decides (hl : p + size.toNat ≤ m.length) :
    Decides (ReceivedBundle.mk' m p size)
      (fun b => ∃ es, IsBundle m p size es ∧ b = ⟨p + 8, p + size.toNat, es.length⟩) :=
  (ReceivedBundle.tryInit_decides hl).mapErr

theorem message_decides (hl : p + size.toNat ≤ m.length) :
    Decides (ReceivedMessage.mk' m p size) (fun r => SizeOk size ∧ r.size = size ∧ IsMessage m p (p + size.toNat) r) :=
  (ReceivedMessage.tryInit_decides hl).mapErr

/-! ## The listener is left as it was found -/

/-- The listener's members are the same, and the record has only grown. -/
def Kept (s s' : Dispatch) : Prop := s'.listener = s.listener ∧ s.trace <+: s'.trace

theorem Kept.refl (s : Dispatch) : Kept s s := ⟨rfl, List.prefix_refl _⟩

theorem Kept.trans {s s' s'' : Dispatch} (h : Kept s s') (h' : Kept s' s'') : Kept s s'' :=
  ⟨h'.1.trans h.1, h.2.trans h'.2⟩

theorem kept_record (s : Dispatch) (e : Event) : Kept s (s.record e) := ⟨rfl, List.prefix_append ..⟩

/-- The guard takes its increment back on both ways out. -/
theorem depthGuard_sat {x : Dispatch → Out (Thrown × Dispatch) Dispatch}
    (h : Sat (x s.enter) (Kept s.enter) (fun e => Kept s.enter e.2)) :
    Sat (depthGuard x s) (Kept s) (fun e => Kept s e.2) := by
  have leave : ∀ s', Kept s.enter s' → Kept s s'.leave := by
    intro s' hx
    rcases hx with ⟨h1, h2⟩
    refine ⟨?_, h2⟩
    simp only [Dispatch.leave, h1, Dispatch.enter, Nat.add_sub_cancel]
  unfold depthGuard
  cases hx : x s.enter with
  | ok s' => rw [hx] at h; exact leave s' h
  | err e => rw [hx] at h; exact leave e.2 h
  | fault f => rw [hx] at h; exact h

/-- Parsing and `ProcessMessage` leave the listener alone, so it depends on `ProcessBundle`. -/
theorem contents_sat {bundle : ReceivedBundle → Dispatch → Out (Thrown × Dispatch) Dispatch}
    (hl : p + size.toNat ≤ m.length) (hb : ∀ es, IsBundle m p size es →
      Sat (bundle ⟨p + 8, p + size.toNat, es.length⟩ s) (Kept s) (fun e => Kept s e.2)) :
    Sat (processContents m handler bundle p size s) (Kept s) (fun e => Kept s e.2) := by
  have same : ∀ e : Thrown × Dispatch, e.2 = s → Kept s e.2 := fun e h => h ▸ Kept.refl s
  rw [processContents, isBundle_decide hl, ok_bind]
  split
  · refine ((parse_safe (bundle_decides hl)).mono (fun _ h => h) same).bind fun b h => ?_
    obtain ⟨es, he, rfl⟩ := h
    exact hb es he
  · refine ((parse_safe (message_decides hl)).mono (fun _ h => h) same).bind fun r _ => ?_
    unfold processMessage
    split
    · exact kept_record s _
    · exact kept_record s _

/-- One packet at any depth, whatever `ProcessMessage` does: no fault, and the listener is
    restored. The induction is on what is left of the depth. -/
theorem restores (m : Bytes) (handler : Handler) : ∀ (fuel p : Nat) (size : Int) (s : Dispatch),
    p + size.toNat ≤ m.length → s.listener.maxBundleNestingDepth - s.listener.bundleNestingDepth ≤ fuel →
    Sat (processContents m handler (processBundle m handler fuel) p size s) (Kept s) (fun e => Kept s e.2) := by
  intro fuel
  induction fuel with
  | zero =>
    intro p size s hl hd
    refine contents_sat hl fun es _ => ?_
    rw [processBundle_skips (by omega)]
    exact kept_record s _
  | succ fuel ih =>
    intro p size s hl hd
    refine contents_sat hl fun es hb => ?_
    by_cases hlt : s.listener.bundleNestingDepth < s.listener.maxBundleNestingDepth
    · rw [processBundle_eq hl hb hlt]
      refine depthGuard_sat (Sat.foldlM (fun x hx t ht => ?_) (Kept.refl _))
      have hin := hb.2.2.2.inside x hx
      have hd' : t.listener.maxBundleNestingDepth - t.listener.bundleNestingDepth ≤ fuel := by
        rw [ht.1]; simp only [Dispatch.enter]; omega
      exact (ih x.1 x.2 t (by omega) hd').mono (fun t' h => ht.trans h) (fun e h => ht.trans h)
    · rw [processBundle_skips (by omega)]
      exact kept_record s _

/-! ## Valid packets -/

def Quiet (handler : Handler) : Prop := ∀ trace r, handler trace r = false

theorem fold_runs {f : Dispatch → Nat × Nat → Out (Thrown × Dispatch) Dispatch} {l : OscPacketListener}
    {es : List (Nat × Nat)} (hx : ∀ x ∈ es, ∃ rs, Messages m x.1 x.2 rs ∧
    ∀ trace, f ⟨l, trace⟩ x = ok ⟨l, trace ++ rs.map .message⟩) :
    ∃ rs, MessagesOf m es rs ∧ ∀ trace, es.foldlM f ⟨l, trace⟩ = ok ⟨l, trace ++ rs.map .message⟩ := by
  induction es with
  | nil => exact ⟨[], .nil, fun trace => by simp⟩
  | cons x es ih =>
    obtain ⟨rs, hrs, hf⟩ := hx x (List.mem_cons_self ..)
    obtain ⟨rs', hrs', hf'⟩ := ih fun y hy => hx y (List.mem_cons_of_mem _ hy)
    refine ⟨rs ++ rs', .cons hrs hrs', fun trace => ?_⟩
    rw [List.foldlM_cons, hf, ok_bind, hf', List.map_append, List.append_assoc]

/-- A packet that is valid at the depth left is dispatched: exactly its messages, in order. -/
theorem runs (hq : Quiet handler) {d p : Nat} {size : Int} (h : Valid m d p size) : p + size.toNat ≤ m.length →
    ∀ (fuel : Nat) (l : OscPacketListener), l.maxBundleNestingDepth - l.bundleNestingDepth = d → d ≤ fuel →
    ∃ rs, Messages m p size rs ∧
      ∀ trace, processContents m handler (processBundle m handler fuel) p size ⟨l, trace⟩ =
        ok ⟨l, trace ++ rs.map .message⟩ := by
  induction h with
  | @message d p size r hs hh hm =>
    intro hl fuel l _ _
    have hm' : IsMessage m p (p + size.toNat) { r with size := size } := hm
    refine ⟨[{ r with size := size }], .message hs hh rfl hm', fun trace => ?_⟩
    rw [processContents, isBundle_decide hl, ok_bind, if_neg (by simp [hh]),
      (message_decides hl).iff.mpr ⟨hs, rfl, hm'⟩]
    show processMessage handler _ _ = _
    rw [processMessage, if_neg (by simp [hq _ _])]; rfl
  | @bundle d p size es hb _ ih =>
    intro hl fuel l hd hfuel
    obtain ⟨fuel, rfl⟩ : ∃ n, fuel = n + 1 := ⟨fuel - 1, by omega⟩
    have hx : ∀ x ∈ es, ∃ rs, Messages m x.1 x.2 rs ∧
        ∀ trace, processElement m handler fuel ⟨{ l with bundleNestingDepth := l.bundleNestingDepth + 1 }, trace⟩ x =
          ok ⟨{ l with bundleNestingDepth := l.bundleNestingDepth + 1 }, trace ++ rs.map .message⟩ := by
      intro x hx
      have hin := hb.2.2.2.inside x hx
      refine ih x hx (by omega) fuel _ ?_ (by omega)
      dsimp only
      omega
    obtain ⟨rs, hrs, hf⟩ := fold_runs hx
    refine ⟨rs, .bundle hb hrs, fun trace => ?_⟩
    rw [processContents, isBundle_decide hl, ok_bind, if_pos (by simp [hb.1.1, bundleTag_head hb.2.2.1]),
      (bundle_decides hl).iff.mpr ⟨es, hb, rfl⟩]
    show processBundle m handler (fuel + 1) _ _ = _
    rw [processBundle_eq hl hb (show l.bundleNestingDepth < l.maxBundleNestingDepth by omega), depthGuard]
    dsimp only [Dispatch.enter]
    rw [hf]
    rfl

/-! ## Packets that are not valid -/

theorem depthGuard_ok {x : Dispatch → Out (Thrown × Dispatch) Dispatch} {s' : Dispatch} (h : depthGuard x s = ok s') :
    ∃ t, x s.enter = ok t ∧ s'.trace = t.trace := by
  unfold depthGuard at h
  split at h
  · rename_i t ht; cases h; exact ⟨t, ht, rfl⟩
  · cases h
  · cases h

theorem contents_ok {bundle : ReceivedBundle → Dispatch → Out (Thrown × Dispatch) Dispatch} {s' : Dispatch}
    (hl : p + size.toNat ≤ m.length) (h : processContents m handler bundle p size s = ok s') :
    (∃ es, IsBundle m p size es ∧ bundle ⟨p + 8, p + size.toNat, es.length⟩ s = ok s') ∨ ∀ d, Valid m d p size := by
  rw [processContents, isBundle_decide hl, ok_bind] at h
  split at h
  · obtain ⟨b, hb, h⟩ := bind_eq_ok.mp h
    obtain ⟨es, he, rfl⟩ := (bundle_decides hl).iff.mp (mapErr_eq_ok.mp hb)
    exact Or.inl ⟨es, he, h⟩
  · rename_i hc
    obtain ⟨r, hr, -⟩ := bind_eq_ok.mp h
    obtain ⟨hs, -, hm⟩ := (message_decides hl).iff.mp (mapErr_eq_ok.mp hr)
    exact Or.inr fun d => .message hs (fun hh => hc (decide_eq_true ⟨hs.1, hh⟩)) hm

/-- A loop that ends has skipped a bundle if one of its iterations must. -/
theorem fold_skips {f : Dispatch → Nat × Nat → Out (Thrown × Dispatch) Dispatch} {t : Dispatch} {es : List (Nat × Nat)}
    {x : Nat × Nat} (hk : ∀ y ∈ es, ∀ u, Kept s u → Sat (f u y) (Kept u) (fun e => Kept u e.2)) (hx : x ∈ es)
    (hskip : ∀ u v, Kept s u → f u x = ok v → ∃ b, .skipped b ∈ v.trace) (h : es.foldlM f s = ok t) :
    ∃ b, .skipped b ∈ t.trace := by
  have hsat : ∀ as : List (Nat × Nat), (∀ y ∈ as, y ∈ es) → ∀ u, Kept s u →
      Sat (as.foldlM f u) (fun v => Kept s v ∧ Kept u v) (fun _ => True) := by
    intro as has u hu
    refine Sat.foldlM (fun y hy v hv => ?_) ⟨hu, Kept.refl u⟩
    exact (hk y (has y hy) v hv.1).mono (fun w hw => ⟨hv.1.trans hw, hv.2.trans hw⟩) fun _ _ => trivial
  obtain ⟨pre, post, u, v, rfl, h1, h2, h3⟩ := foldlM_ok_at h hx
  have k1 := (hsat pre (fun y hy => List.mem_append_left _ hy) s (Kept.refl s)).ok_of_eq h1
  have k2 := (hk x hx u k1.1).ok_of_eq h2
  have k3 := (hsat post (fun y hy => List.mem_append_right _ (List.mem_cons_of_mem _ hy)) v (k1.1.trans k2)).ok_of_eq h3
  obtain ⟨b, hb⟩ := hskip u v k1.1 h2
  exact ⟨b, k3.2.2.subset hb⟩

/-- A call that returns on a packet not valid at the depth left has skipped a bundle. -/
theorem refuses (m : Bytes) (handler : Handler) :
    ∀ (fuel p : Nat) (size : Int) (s s' : Dispatch), p + size.toNat ≤ m.length →
    s.listener.maxBundleNestingDepth - s.listener.bundleNestingDepth ≤ fuel →
    ¬ Valid m (s.listener.maxBundleNestingDepth - s.listener.bundleNestingDepth) p size →
    processContents m handler (processBundle m handler fuel) p size s = ok s' → ∃ b, .skipped b ∈ s'.trace := by
  have skips : ∀ (fuel : Nat) (b : ReceivedBundle) (s s' : Dispatch),
      s.listener.maxBundleNestingDepth ≤ s.listener.bundleNestingDepth → processBundle m handler fuel b s = ok s' →
      ∃ b, .skipped b ∈ s'.trace := by
    intro fuel b s s' hd h
    rw [processBundle_skips hd] at h
    cases h
    exact ⟨b, List.mem_append_right _ (List.mem_singleton_self _)⟩
  intro fuel
  induction fuel with
  | zero =>
    intro p size s s' hl hd hv h
    rcases contents_ok hl h with ⟨es, _, h⟩ | hall
    · exact skips 0 _ s s' (by omega) h
    · exact absurd (hall _) hv
  | succ fuel ih =>
    intro p size s s' hl hd hv h
    rcases contents_ok hl h with ⟨es, hb, h⟩ | hall
    · by_cases hlt : s.listener.bundleNestingDepth < s.listener.maxBundleNestingDepth
      · rw [processBundle_eq hl hb hlt] at h
        obtain ⟨t, ht, hst⟩ := depthGuard_ok h
        obtain ⟨d, hd'⟩ : ∃ d, s.listener.maxBundleNestingDepth - s.listener.bundleNestingDepth = d + 1 :=
          ⟨s.listener.maxBundleNestingDepth - s.listener.bundleNestingDepth - 1, by omega⟩
        have hleft : ∀ u, Kept s.enter u → u.listener.maxBundleNestingDepth - u.listener.bundleNestingDepth = d := by
          intro u hu; rw [hu.1]; simp only [Dispatch.enter]; omega
        -- some element is not valid one level down
        obtain ⟨x, hx, hvx⟩ : ∃ x ∈ es, ¬ Valid m d x.1 x.2 := by
          by_contra hall
          exact hv (hd' ▸ .bundle hb fun x hx => by_contra fun hvx => hall ⟨x, hx, hvx⟩)
        rw [hst]
        refine fold_skips (fun y hy u hu => ?_) hx (fun u v hu huv => ?_) ht
        · have hin := hb.2.2.2.inside y hy
          exact restores m handler fuel y.1 y.2 u (by omega) (by rw [hleft u hu]; omega)
        · have hin := hb.2.2.2.inside x hx
          exact ih x.1 x.2 u v (by omega) (by rw [hleft u hu]; omega) (by rw [hleft u hu]; exact hvx) huv
      · exact skips _ _ s s' (by omega) h
    · exact absurd (hall _) hv

/-! ## The gate and the dispatcher -/

theorem processPacket_eq (hs : SizeOk size) : processPacket m handler size s =
    processContents m handler (processBundle m handler s.listener.maxBundleNestingDepth) 0 size s := by
  rw [processPacket, ReceivedPacket.mk', validateSizeNoThrow_none.mpr hs]; rfl

theorem processPacket_throws (hs : ¬ SizeOk size) : ∃ e, processPacket m handler size s = err (e, s) := by
  rw [processPacket, ReceivedPacket.mk']
  cases h : ReceivedPacket.validateSizeNoThrow size with
  | none => exact absurd (validateSizeNoThrow_none.mp h) hs
  | some e => exact ⟨_, rfl⟩

/-- After every call, normal or exceptional, the listener is as it was. -/
theorem packet_restores (m : Bytes) (handler : Handler) (size : Int) (s : Dispatch) (hm : m.length = size.toNat) :
    Sat (processPacket m handler size s) (fun s' => s'.listener = s.listener) (fun e => e.2.listener = s.listener) := by
  by_cases hs : SizeOk size
  · rw [processPacket_eq hs]
    exact (restores m handler _ 0 size s (by omega) (Nat.sub_le ..)).mono (fun _ h => h.1) fun _ h => h.1
  · obtain ⟨e, he⟩ := processPacket_throws (m := m) (s := s) hs
    rw [he]; rfl

theorem reachable_depth {l : OscPacketListener} (h : Reachable l) : l.bundleNestingDepth = 0 := by
  induction h with
  | fresh => rfl
  | setMax _ _ ih => exact ih
  | returned _ hm hp ih => rw [(packet_restores _ _ _ _ hm).ok_of_eq hp]; exact ih
  | threw _ hm hp ih => rw [(packet_restores _ _ _ _ hm).err_of_eq hp]; exact ih

/-- For every buffer, size and reachable listener, with its own bound: the gate accepts if and
    only if dispatching with a `ProcessMessage` that returns normally neither throws nor skips
    a bundle, and then `ProcessMessage` was called once for every message, in wire order.
    Whatever `ProcessMessage` does, the call touches no byte outside the buffer and leaves
    the listener as it was. -/
theorem dispatch_agrees {l : OscPacketListener} (hr : Reachable l) (m : Bytes) (size : Int)
    (hm : m.length = size.toNat) :
    (∀ handler, Quiet handler →
      (tryValidatePacket m 0 size l.maxBundleNestingDepth = ok () ↔
        ∃ s, processPacket m handler size ⟨l, []⟩ = ok s ∧ ∀ b, .skipped b ∉ s.trace) ∧
      (tryValidatePacket m 0 size l.maxBundleNestingDepth = ok () →
        ∃ rs, Messages m 0 size rs ∧ (∀ rs', Messages m 0 size rs' → rs' = rs) ∧
          processPacket m handler size ⟨l, []⟩ = ok ⟨l, rs.map .message⟩)) ∧
    ∀ handler, Sat (processPacket m handler size ⟨l, []⟩) (fun s => s.listener = l) (fun e => e.2.listener = l) := by
  have hl : 0 + size.toNat ≤ m.length := by omega
  have hd : l.maxBundleNestingDepth - l.bundleNestingDepth = l.maxBundleNestingDepth := by rw [reachable_depth hr]; rfl
  have hgate := (tryValidatePacket_decides l.maxBundleNestingDepth 0 size hl).iff (a := ())
  refine ⟨fun handler hq => ?_, fun handler => packet_restores m handler size ⟨l, []⟩ hm⟩
  have accepted : tryValidatePacket m 0 size l.maxBundleNestingDepth = ok () →
      ∃ rs, Messages m 0 size rs ∧ processPacket m handler size ⟨l, []⟩ = ok ⟨l, rs.map .message⟩ := by
    intro h
    have hv := hgate.mp h
    obtain ⟨rs, hrs, hp⟩ := runs hq hv hl l.maxBundleNestingDepth l hd (Nat.le_refl _)
    exact ⟨rs, hrs, by rw [processPacket_eq hv.sizeOk]; exact hp []⟩
  refine ⟨⟨fun h => ?_, fun ⟨s, hp, hns⟩ => ?_⟩, fun h => ?_⟩
  · obtain ⟨rs, -, hp⟩ := accepted h
    exact ⟨_, hp, fun b hb => by simp at hb⟩
  · by_cases hs : SizeOk size
    · rw [processPacket_eq hs] at hp
      by_contra hv
      obtain ⟨b, hb⟩ := refuses m handler _ 0 size ⟨l, []⟩ s hl (Nat.sub_le ..) (by rw [hd, ← hgate]; exact hv) hp
      exact hns b hb
    · obtain ⟨e, he⟩ : ∃ e, processPacket m handler size ⟨l, []⟩ = err (e, _) := processPacket_throws hs
      rw [he] at hp; cases hp
  · obtain ⟨rs, hrs, hp⟩ := accepted h
    exact ⟨rs, hrs, fun rs' h' => Messages.unique _ 0 size _ _ (Nat.le_refl _) hl h' hrs, hp⟩

theorem dispatch_agrees_oneMessageBundle : Reachable .fresh ∧ oneMessageBundle.length = (32 : Int).toNat ∧
    ∃ rs, Messages oneMessageBundle 0 32 rs ∧ (∀ rs', Messages oneMessageBundle 0 32 rs' → rs' = rs) ∧
      processPacket oneMessageBundle (fun _ _ => false) 32 ⟨.fresh, []⟩ = ok ⟨.fresh, rs.map .message⟩ :=
  ⟨.fresh, rfl, ((dispatch_agrees .fresh oneMessageBundle 32 rfl).1 _ fun _ _ => rfl).2 (by decide +kernel)⟩

end OscTap.Listener
