/-
  OscTap.Outbound.Ready — when a stream that reports ready holds a valid packet.

  The appends look at the space only. Outside a message they move `argumentCurrent_`, so
  bytes that belong to no element count in `Size()`; and nothing checks that arrays are
  closed when a message ends. `Sound` excludes both, call by call. `Held` is the invariant:
  the open elements are bundles of complete elements, then at most a message.

  Proved: `ready_valid`, in every run of sound calls a ready stream holds a packet the gate
  accepts; `ready_invalid`, without either condition it may not.
-/
import OscTap.Outbound.Encode
import OscTap.Received.Encoded

namespace OscTap.Outbound

open OscTap.Lib OscTap.Lib.Out OscTap.Osc OscTap.Received

/-! ## Runs -/

/-- A call with an address or a value that a reader gets back; the stream is not cleared. -/
def Op.Plain : Op → Prop
  | .clear => False
  | .beginMessage addressPattern => SendableAddress addressPattern.bytes
  | .beginMessageN addressPattern => SendableAddress addressPattern
  | .append rhs => ∃ v, Passes v rhs ∧ v.Sendable
  | _ => True

def opensBundle (op : Op) (s : OutboundPacketStream) : Bool :=
  match op, apply op s with
  | .beginBundle _, ok _ => true
  | _, _ => false

/-- The call opens an element while none is open. -/
def opensTopLevel (op : Op) (s : OutboundPacketStream) : Bool :=
  match op, apply op s with
  | .beginBundle _, ok _ | .beginMessage _, ok _ | .beginMessageN _, ok _ => !s.isBundleInProgress
  | _, _ => false

/-- The tags of the message in progress, in the order of its arguments. -/
def OutboundPacketStream.typeTags (s : OutboundPacketStream) : Bytes := (s.data.drop s.typeTagsCurrent).reverse

def byteBracket (b : UInt8) : Bracket := ((TypeTag.ofByte b).map bracket).getD .item

/-- An append that has the space for argument bytes finds a message in progress, and
    `EndMessage` finds every array closed. -/
def Sound (op : Op) (s : OutboundPacketStream) : Prop :=
  match op with
  | .append rhs =>
    rhs.bytes ≠ [] → s.checkForAvailableArgumentSpace rhs.bytes.length = ok () → s.messageIsInProgress = true
  | .endMessage => s.messageIsInProgress = true → Nested byteBracket s.typeTags
  | _ => True

/-! ## What the stack holds -/

/-- An open bundle whose elements are complete; they nest at most `c` bundles. -/
def Partial (c : Nat) (b : Bytes) : Prop :=
  ∃ (timeTag : UInt64) (elements : List PacketTree), PacketTree.AllSendable elements ∧
    PacketTree.nesting.nestingOf elements ≤ c ∧
    b = bundleTag ++ be64 timeTag.toNat ++ PacketTree.encElements elements

theorem Partial.mono {c c' : Nat} {b : Bytes} (h : Partial c b) (hc : c ≤ c') : Partial c' b := by
  obtain ⟨timeTag, elements, h1, h2, h3⟩ := h
  exact ⟨timeTag, elements, h1, by omega, h3⟩

theorem encElements_snoc (es : List PacketTree) (e : PacketTree) :
    PacketTree.encElements (es ++ [e]) = PacketTree.encElements es ++ be32 e.enc.length ++ e.enc := by
  induction es with
  | nil => simp [PacketTree.encElements]
  | cons x es ih =>
    rw [List.cons_append, PacketTree.encElements, ih, PacketTree.encElements]
    simp only [List.append_assoc]

theorem nestingOf_snoc {es : List PacketTree} {e : PacketTree} {c : Nat} (hs : PacketTree.nesting.nestingOf es ≤ c)
    (he : e.nesting ≤ c) : PacketTree.nesting.nestingOf (es ++ [e]) ≤ c := by
  induction es with
  | nil => simp only [List.nil_append, PacketTree.nesting.nestingOf]; omega
  | cons x es ih =>
    simp only [PacketTree.nesting.nestingOf] at hs
    have := ih (by omega)
    simp only [List.cons_append, PacketTree.nesting.nestingOf]; omega

/-- A complete element is put behind the others. -/
theorem Partial.snoc {c : Nat} {b : Bytes} {t : PacketTree} (h : Partial c b) (ht : t.Sendable) (hn : t.nesting ≤ c) :
    Partial c (b ++ be32 t.enc.length ++ t.enc) := by
  obtain ⟨timeTag, elements, h1, h2, rfl⟩ := h
  refine ⟨timeTag, elements ++ [t], ?_, nestingOf_snoc h2 hn, by rw [encElements_snoc]; simp only [List.append_assoc]⟩
  rw [PacketTree.allSendable_iff] at h1 ⊢
  intro e he
  rcases List.mem_append.mp he with he | he
  · exact h1 e he
  · rw [List.mem_singleton.mp he]; exact ht

/-- The closed part: nothing, or the one packet that was opened. -/
def Closed (c k : Nat) (a : OpenStack) : Prop :=
  a.closed = [] ∨ (a.opens = [] ∧ 0 < k ∧ ∃ t : PacketTree, t.Sendable ∧ t.nesting ≤ c ∧ a.closed = t.enc)

/-- The innermost element: a bundle without stray bytes, or a message and its arguments. -/
def Innermost (a : OpenStack) (bundles : List Bytes) : Prop :=
  (a.inMessage = false ∧ a.args = [] ∧ a.opens = bundles) ∨
    (a.inMessage = true ∧ ∃ address arguments, SendableAddress address ∧ (∀ v ∈ arguments, ArgValue.Sendable v) ∧
      a.opens = strBlock address :: bundles ∧ a.tags = (tagBytes arguments).reverse ∧
      a.args = arguments.flatMap ArgValue.enc)

/-- The stack of a run that has opened `n` bundles and `k` top-level elements: `c` of the
    bundles are closed. -/
def Held (n k : Nat) (a : OpenStack) : Prop :=
  ∃ c bundles, c + bundles.length ≤ n ∧ (∀ b ∈ bundles, Partial c b) ∧ Innermost a bundles ∧ Closed c k a ∧
    (a.opens ≠ [] → 0 < k)

theorem empty_held : Held 0 0 OpenStack.empty :=
  ⟨0, [], Nat.le_refl _, fun b hb => (by cases hb), Or.inl ⟨rfl, rfl, rfl⟩, Or.inl rfl, fun h => absurd rfl h⟩

/-! ## What a call keeps -/

variable {a : OpenStack} {n k c : Nat}

theorem Closed.of_opens (h : Closed c k a) (ho : a.opens ≠ []) : a.closed = [] := by
  rcases h with h | ⟨h, -⟩
  · exact h
  · exact absurd h ho

/-- Nothing is open: there is no closed packet in front of the first element. -/
theorem Closed.first (h : Closed c k a) (hfirst : a.opens = [] → k = 0) : a.closed = [] := by
  rcases h with h | ⟨h1, h2, -⟩
  · exact h
  · have := hfirst h1; omega

namespace OpenStack

/-- A complete packet on top of the stack is closed: the bundle around it gets an element. -/
theorem pop_closed {t : PacketTree} {bundles : List Bytes} (ho : a.opens = t.enc :: bundles) (hc : a.closed = [])
    (hb : ∀ b ∈ bundles, Partial c b) (hs : t.Sendable) (hn : t.nesting ≤ c) (hk : 0 < k) :
    ∃ bundles', bundles'.length = bundles.length ∧ a.pop.opens = bundles' ∧ (∀ b ∈ bundles', Partial c b) ∧
      Closed c k a.pop := by
  cases bundles with
  | nil =>
    have hp : a.pop = { a with closed := a.closed ++ t.enc, opens := [] } := by rw [pop, ho]
    exact ⟨[], rfl, by rw [hp], hb, Or.inr ⟨by rw [hp], hk, t, hs, hn, by rw [hp, hc]; rfl⟩⟩
  | cons b bs =>
    have hp : a.pop = { a with opens := (b ++ be32 t.enc.length ++ t.enc) :: bs } := by rw [pop, ho]
    refine ⟨(b ++ be32 t.enc.length ++ t.enc) :: bs, rfl, by rw [hp], fun x hx => ?_, Or.inl (by rw [hp]; exact hc)⟩
    rcases List.mem_cons.mp hx with rfl | hx
    · exact (hb b (List.mem_cons_self ..)).snoc hs hn
    · exact hb x (List.mem_cons_of_mem _ hx)

theorem beginBundle_held (h : Held n k a) (hm : ¬ a.inMessage = true) (hfirst : a.opens = [] → k = 0)
    (timeTag : UInt64) :
    Held (n + 1) (k + if a.opens = [] then 1 else 0) (a.push (bundleTag ++ be64 timeTag.toNat)) := by
  obtain ⟨c, bundles, hcn, hb, hi, hc, hk⟩ := h
  rcases hi with ⟨h1, -, h3⟩ | ⟨h1, -⟩
  rotate_left
  · exact absurd h1 hm
  refine ⟨c, (bundleTag ++ be64 timeTag.toNat) :: bundles, by rw [List.length_cons]; omega, fun b hmem => ?_,
    Or.inl ⟨h1, rfl, by rw [← h3]; rfl⟩, Or.inl (hc.first hfirst), fun _ => ?_⟩
  · rcases List.mem_cons.mp hmem with rfl | hmem
    · exact ⟨timeTag, [], by rw [PacketTree.AllSendable]; trivial, Nat.zero_le _, by rw [PacketTree.encElements,
        List.append_nil]⟩
    · exact hb b hmem
  · by_cases ho : a.opens = []
    · rw [if_pos ho]; omega
    · have := hk ho; omega

theorem beginMessage_held (h : Held n k a) (hm : ¬ a.inMessage = true) (hfirst : a.opens = [] → k = 0) {address : Bytes}
    (ha : SendableAddress address) :
    Held n (k + if a.opens = [] then 1 else 0) { (a.push (strBlock address)) with inMessage := true, tags := [] } := by
  obtain ⟨c, bundles, hcn, hb, hi, hc, hk⟩ := h
  rcases hi with ⟨h1, -, h3⟩ | ⟨h1, -⟩
  rotate_left
  · exact absurd h1 hm
  refine ⟨c, bundles, hcn, hb, Or.inr ⟨rfl, address, [], ha, fun v hv => (by cases hv), by rw [← h3]; rfl, rfl, rfl⟩,
    Or.inl (hc.first hfirst), fun _ => ?_⟩
  by_cases ho : a.opens = []
  · rw [if_pos ho]; omega
  · have := hk ho; omega

theorem begun_held (h : Held n k a) (hfirst : a.opens = [] → k = 0) {address : Bytes} (ha : SendableAddress address)
    {cap : Nat} {a' : OpenStack} (he : a.beginMessage cap address = .ok a') :
    Held n (k + if a.opens = [] then 1 else 0) a' := by
  unfold beginMessage at he
  split at he
  · cases he
  · rename_i hm
    obtain ⟨-, rfl⟩ := require_ok he
    exact beginMessage_held h hm hfirst ha

theorem append_held (h : Held n k a) {v : ArgValue} (hv : v.Sendable) (hm : a.inMessage = true ∨ v.enc = []) :
    Held n k { a with tags := v.tag.value :: a.tags, args := a.args ++ v.enc } := by
  obtain ⟨c, bundles, hcn, hb, hi, hc, hk⟩ := h
  refine ⟨c, bundles, hcn, hb, ?_, hc, hk⟩
  rcases hi with ⟨h1, h2, h3⟩ | ⟨h1, address, arguments, h2, h3, h4, h5, h6⟩
  · rcases hm with hm | hm
    · rw [h1] at hm; cases hm
    · exact Or.inl ⟨h1, by rw [h2, hm]; rfl, h3⟩
  · refine Or.inr ⟨h1, address, arguments ++ [v], h2, fun w hw => ?_, h4, ?_, ?_⟩
    · rcases List.mem_append.mp hw with hw | hw
      · exact h3 w hw
      · rw [List.mem_singleton.mp hw]; exact hv
    · show v.tag.value :: a.tags = _
      rw [h5, tagBytes, tagBytes, List.map_append, List.reverse_append]; rfl
    · show a.args ++ v.enc = _
      rw [h6, List.flatMap_append, List.flatMap_cons, List.flatMap_nil, List.append_nil]

theorem endBundle_held (h : Held n k a) (hm : ¬ a.inMessage = true) (ho : a.opens ≠ []) : Held n k a.pop := by
  obtain ⟨c, bundles, hcn, hb, hi, hc, hk⟩ := h
  rcases hi with ⟨h1, h2, h3⟩ | ⟨h1, -⟩
  rotate_left
  · exact absurd h1 hm
  obtain ⟨hp1, hp2, hp3⟩ := @pop_fields a
  cases bundles with
  | nil => exact absurd h3 ho
  | cons b bs =>
    obtain ⟨timeTag, elements, hs, hn, rfl⟩ := hb b (List.mem_cons_self ..)
    obtain ⟨bundles', g1, g2, g3, g4⟩ := pop_closed (t := .bundle timeTag elements) (c := c + 1) h3 (hc.of_opens ho)
      (fun x hx => (hb x (List.mem_cons_of_mem _ hx)).mono (Nat.le_succ c)) (by rw [PacketTree.Sendable]; exact hs)
      (by rw [PacketTree.nesting]; omega) (hk ho)
    rw [List.length_cons] at hcn
    exact ⟨c + 1, bundles', by omega, g3, Or.inl ⟨hp1.trans h1, hp3.trans h2, g2⟩, g4, fun _ => hk ho⟩

theorem endMessage_held (h : Held n k a) (hm : a.inMessage = true) (hn : Nested byteBracket a.tags.reverse) :
    Held n k a.finish.pop := by
  obtain ⟨c, bundles, hcn, hb, hi, hc, hk⟩ := h
  rcases hi with ⟨h1, -⟩ | ⟨h1, address, arguments, h2, h3, h4, h5, h6⟩
  · rw [h1] at hm; cases hm
  have ho : a.opens ≠ [] := by rw [h4]; exact List.cons_ne_nil _ _
  obtain ⟨hp1, hp2, hp3⟩ := @pop_fields a.finish
  have hbr : byteBracket ∘ TypeTag.value = bracket := by
    funext t
    simp [byteBracket]
  have hnest : Nested bracket (arguments.map ArgValue.tag) := by
    rw [h5, List.reverse_reverse, tagBytes_eq, nested_map, hbr] at hn
    exact hn
  have hf : a.finish.opens = (PacketTree.message address arguments).enc :: bundles := by
    rw [PacketTree.enc, finish, grow, h4, h5, h6, List.reverse_reverse, List.append_assoc]
  have hcl : a.finish.closed = [] := by
    rw [finish, grow, h4]; exact hc.of_opens ho
  obtain ⟨bundles', g1, g2, g3, g4⟩ := pop_closed hf hcl hb
    (by rw [PacketTree.Sendable]; exact ⟨h2, h3, hnest⟩) (by rw [PacketTree.nesting]; exact Nat.zero_le _) (hk ho)
  exact ⟨c, bundles', by omega, g3, Or.inl ⟨hp1, hp3, g2⟩, g4, fun _ => hk ho⟩

end OpenStack

/-! ## Along a run -/

variable {s : OutboundPacketStream} {cap : Nat}

theorem Rep.bundleInProgress (h : Rep cap s a) : (!s.isBundleInProgress) = true ↔ a.opens = [] := by
  have hp : a.ptr = none ↔ a.opens = [] := layout_ptr_none
  rw [OutboundPacketStream.isBundleInProgress, h.ptr, ← hp]
  cases a.ptr <;> simp

theorem Rep.space (h : Rep cap s a) (ht : a.tags.length < 2 ^ 31) {n : Nat}
    (hr : a.front.length + a.args.length + n + Outbound.tagSlot (a.tags.length + 1) ≤ cap) :
    s.checkForAvailableArgumentSpace n = ok () := by
  unfold OutboundPacketStream.checkForAvailableArgumentSpace OutboundPacketStream.require
  rw [h.tagSlot 1 (by omega), h.argument]
  exact if_neg (by rw [OutboundPacketStream.capacity, h.capacity]; omega)

/-- A call that returns. -/
theorem held_ok (hcap : cap < 2 ^ 31) (hr : Rep cap s a) (hi : OpenStack.Inv cap a) (hh : Held n k a) {op : Op}
    (hp : op.Plain) (hs : Sound op s) (hk : k + (if opensTopLevel op s then 1 else 0) ≤ 1) {s' : OutboundPacketStream}
    {a' : OpenStack} (hap : apply op s = ok s') (he : OpenStack.step cap op a = .ok a') :
    Held (n + if opensBundle op s then 1 else 0) (k + if opensTopLevel op s then 1 else 0) a' := by
  have htop : (if (!s.isBundleInProgress) = true then 1 else 0) = if a.opens = [] then 1 else 0 := by
    by_cases ho : a.opens = []
    · rw [if_pos (hr.bundleInProgress.mpr ho), if_pos ho]
    · rw [if_neg fun h => ho (hr.bundleInProgress.mp h), if_neg ho]
  have hfirst : k + (if a.opens = [] then 1 else 0) ≤ 1 → a.opens = [] → k = 0 := fun h ho => by
    rw [if_pos ho] at h; omega
  cases op with
  | clear => exact hp.elim
  | beginBundle timeTag =>
    simp only [opensBundle, opensTopLevel, hap, htop, if_true] at hk ⊢
    rw [OpenStack.step] at he
    split at he
    · cases he
    · rename_i hmsg
      obtain ⟨-, rfl⟩ := OpenStack.require_ok he
      exact OpenStack.beginBundle_held hh hmsg (hfirst hk) timeTag
  | beginMessage address =>
    simp only [opensBundle, opensTopLevel, hap, htop] at hk ⊢
    exact OpenStack.begun_held hh (hfirst hk) hp he
  | beginMessageN address =>
    simp only [opensBundle, opensTopLevel, hap, htop] at hk ⊢
    exact OpenStack.begun_held hh (hfirst hk) hp he
  | endBundle =>
    rw [OpenStack.step] at he
    split at he
    · cases he
    · split at he
      · cases he
      · rename_i ho hmsg
        cases he
        exact OpenStack.endBundle_held hh hmsg ho
  | endMessage =>
    rw [OpenStack.step] at he
    split at he
    · cases he
    · rename_i hmsg
      cases he
      have hmsg : a.inMessage = true := by simpa using hmsg
      have hn := hs (hr.message.trans hmsg)
      rw [OutboundPacketStream.typeTags, hr.tags hmsg] at hn
      exact OpenStack.endMessage_held hh hmsg hn
  | append rhs =>
    obtain ⟨v, hpass, hv⟩ := hp
    obtain ⟨hroom, rfl⟩ := OpenStack.require_ok he
    have hmsg : a.inMessage = true ∨ v.enc = [] := by
      by_cases hb : rhs.bytes = []
      · exact Or.inr (hpass.bytes_eq ▸ hb)
      · have := hs hb (hr.space (lt_of_le_of_lt hi.tagsFit hcap) hroom)
        exact Or.inl (hr.message ▸ this)
    rw [hpass.tag_eq, hpass.bytes_eq]
    exact OpenStack.append_held hh hv hmsg

/-- One call. -/
theorem held_step (hcap : cap < 2 ^ 31) (hr : Rep cap s a) (hi : OpenStack.Inv cap a) (hh : Held n k a) {op : Op}
    (hf : op.Fits) (hp : op.Plain) (hs : Sound op s) (hk : k + (if opensTopLevel op s then 1 else 0) ≤ 1) :
    ∃ s' a', attempt (apply op s) = ok s' ∧ Rep cap s' a' ∧ OpenStack.Inv cap a' ∧
      Held (n + if opensBundle op s then 1 else 0) (k + if opensTopLevel op s then 1 else 0) a' := by
  have hm := stream_refines hcap op s a hf ⟨hr, hi⟩
  cases he : OpenStack.step cap op a with
  | error e =>
    -- a call that throws opens nothing and leaves the stream as it was
    rw [he] at hm
    have hap : apply op s = err (e, s) := hm
    have h1 : opensBundle op s = false := by unfold opensBundle; rw [hap]; cases op <;> rfl
    have h2 : opensTopLevel op s = false := by unfold opensTopLevel; rw [hap]; cases op <;> rfl
    rw [h1, h2]
    exact ⟨s, a, by rw [hap]; rfl, hr, hi, hh⟩
  | ok a' =>
    rw [he] at hm
    obtain ⟨s', hap, hr', hi'⟩ := hm
    exact ⟨s', a', by rw [hap]; rfl, hr', hi', held_ok hcap hr hi hh hp hs hk hap he⟩

theorem held_run (hcap : cap < 2 ^ 31) : ∀ (ops : List Op) {s : OutboundPacketStream} {a : OpenStack} {n k : Nat},
    Rep cap s a → OpenStack.Inv cap a → Held n k a → (∀ op ∈ ops, op.Fits ∧ op.Plain) → Throughout apply Sound ops s →
    k + countWhere apply opensTopLevel ops s ≤ 1 →
    ∃ s' a', runCaught apply ops s = ok s' ∧ Rep cap s' a' ∧ OpenStack.Inv cap a' ∧
      Held (n + countWhere apply opensBundle ops s) (k + countWhere apply opensTopLevel ops s) a'
  | [], s, a, n, k, hr, hi, hh, _, _, _ => ⟨s, a, rfl, hr, hi, hh⟩
  | op :: ops, s, a, n, k, hr, hi, hh, hops, hsound, hone => by
    obtain ⟨hs, hrest⟩ := hsound
    rw [countWhere] at hone
    obtain ⟨hf, hp⟩ := hops op (List.mem_cons_self ..)
    obtain ⟨s₁, a₁, he, hr1, hi1, hh1⟩ := held_step hcap hr hi hh hf hp hs (by omega)
    rw [after_of_attempt he] at hrest hone
    obtain ⟨s₂, a₂, he2, hr2, hi2, hh2⟩ :=
      held_run hcap ops hr1 hi1 hh1 (fun o ho => hops o (List.mem_cons_of_mem _ ho))
      hrest (by omega)
    refine ⟨s₂, a₂, by rw [runCaught_cons he, he2], hr2, hi2, ?_⟩
    rw [countWhere, countWhere, after_of_attempt he, ← Nat.add_assoc, ← Nat.add_assoc]
    exact hh2

/-- What a ready stream holds is accepted at every bound from `n` on. -/
def ReadyIsValid (n : Nat) (s : OutboundPacketStream) : Prop :=
  s.isReady = true → 0 < s.size → ∀ d ≥ n, tryValidatePacket s.packet 0 s.size d = ok ()

theorem Held.ready (hcap : cap < 2 ^ 31) (hr : Rep cap s a) (hi : OpenStack.Inv cap a) (h : Held n k a) :
    ReadyIsValid n s := by
  intro hready hpos d hd
  obtain ⟨hm, ho⟩ := hr.isReady.mp hready
  obtain ⟨c, bundles, hcn, -, hin, hc, -⟩ := h
  have hargs : a.args = [] := by
    rcases hin with ⟨-, h2, -⟩ | ⟨h1, -⟩
    · exact h2
    · rw [hm] at h1; cases h1
  have hfront : a.front = a.closed := by rw [OpenStack.front, ho]; rfl
  have hpacket : s.packet = a.closed := by
    rw [hr.packet_eq (by rw [hm]; decide), hargs, hfront, List.append_nil]
  have hsize : s.size = a.closed.length := by
    rw [hr.size_eq (lt_of_le_of_lt hi.tagsFit hcap), OpenStack.size, hm, hargs, hfront]; rfl
  rcases hc with hc | ⟨-, -, t, hs, hn, ht⟩
  · rw [hsize, hc] at hpos; exact absurd hpos (Nat.lt_irrefl 0)
  · have hfits := hi.fits
    have hal := enc_aligned t
    rw [hr.size_eq (lt_of_le_of_lt hi.tagsFit hcap)] at hsize
    rw [hsize, ht] at hfits
    rw [hpacket, ht, show s.size = t.enc.length by
      rw [hr.size_eq (lt_of_le_of_lt hi.tagsFit hcap), hsize, ht]]
    exact enc_accepted hs (by omega) (by omega)

/-- In every state of a run of sound calls that opens at most one top-level element. -/
theorem ready_valid (buffer : Bytes) (hcap : buffer.length < 2 ^ 31) (ops : List Op)
    (hops : ∀ op ∈ ops, op.Fits ∧ op.Plain)
    (hone : countWhere apply opensTopLevel ops (OutboundPacketStream.mk' buffer) ≤ 1)
    (hsound : Throughout apply Sound ops (OutboundPacketStream.mk' buffer)) (done rest : List Op)
    (hd : ops = done ++ rest) :
    ∃ s, runCaught apply done (OutboundPacketStream.mk' buffer) = ok s ∧
      ReadyIsValid (countWhere apply opensBundle done (OutboundPacketStream.mk' buffer)) s := by
  subst hd
  have hone' := Nat.le_trans (countWhere_append_le apply opensTopLevel done rest _) hone
  obtain ⟨s, a, he, hr, hi, hh⟩ := held_run hcap done (mk'_rep buffer) (OpenStack.empty_inv buffer.length) empty_held
    (fun op hop => hops op (List.mem_append_left _ hop)) hsound.of_append (by rw [Nat.zero_add]; exact hone')
  rw [Nat.zero_add] at hh
  exact ⟨s, he, hh.ready hcap hr hi⟩

instance (op : Op) (s : OutboundPacketStream) : Decidable (Sound op s) := by
  cases op <;> unfold Sound <;> infer_instance

def fresh : OutboundPacketStream := .mk' (List.replicate 64 0)

theorem beginMessageN_plain : (Op.beginMessageN [ch '/', ch 'a']).Fits ∧ (Op.beginMessageN [ch '/', ch 'a']).Plain :=
  ⟨show 2 + 4 < 2 ^ 32 by decide, show SendableAddress _ from ⟨by decide, by decide⟩⟩

/-- A stray tag, a rejected `EndMessage`, and a bundle with a message with an array. -/
def arrayRun : List Op :=
  [.append (.bool true), .beginBundle 1, .endMessage, .beginMessageN [ch '/', ch 'a'], .append .arrayInitiator,
    .append (.int32 3), .append .arrayTerminator, .endMessage, .endBundle]

theorem ready_valid_arrayRun : ∃ s, runCaught apply arrayRun fresh = ok s ∧ s.isReady = true ∧ s.size = 36 ∧
    ReadyIsValid 1 s := by
  have hops : ∀ op ∈ arrayRun, op.Fits ∧ op.Plain := by
    intro op hop
    simp only [arrayRun, List.mem_cons, List.not_mem_nil, or_false] at hop
    rcases hop with rfl | rfl | rfl | rfl | rfl | rfl | rfl | rfl | rfl
    · exact ⟨trivial, _, .bool true, trivial⟩
    · exact ⟨trivial, trivial⟩
    · exact ⟨trivial, trivial⟩
    · exact beginMessageN_plain
    · exact ⟨trivial, _, .arrayBegin, trivial⟩
    · exact ⟨trivial, _, .int32 3, trivial⟩
    · exact ⟨trivial, _, .arrayEnd, trivial⟩
    · exact ⟨trivial, trivial⟩
    · exact ⟨trivial, trivial⟩
  obtain ⟨s, he, hv⟩ := ready_valid (List.replicate 64 0) (by decide) arrayRun hops (by decide +kernel)
    (by decide +kernel)
    arrayRun [] (List.append_nil _).symm
  have hrun : (fun s : OutboundPacketStream => (s.isReady, s.size)) <$>
    runCaught apply arrayRun fresh = ok (true, 36) := by
    decide +kernel
  have hn : countWhere apply opensBundle arrayRun fresh = 1 := by decide +kernel
  rw [show runCaught apply arrayRun fresh = ok s from he, map_ok] at hrun
  injection hrun with hrun
  rw [show countWhere apply opensBundle arrayRun (.mk' (List.replicate 64 0)) = 1 from hn] at hv
  exact ⟨s, he, congrArg Prod.fst hrun, congrArg Prod.snd hrun, hv⟩

/-- An argument in a bundle and outside a message. -/
def strayArgument : List Op := [.beginBundle 1, .append (.int32 5), .endBundle]

/-- An array that is not closed. -/
def openArray : List Op := [.beginMessageN [ch '/', ch 'a'], .append .arrayInitiator, .endMessage]

/-- A run that opens one top-level element and ends ready, with a packet the gate rejects. -/
def Spoils (ops : List Op) : Prop :=
  (∀ op ∈ ops, op.Fits ∧ op.Plain) ∧ countWhere apply opensTopLevel ops fresh ≤ 1 ∧
    ∃ s, runCaught apply ops fresh = ok s ∧ ¬ ReadyIsValid (countWhere apply opensBundle ops fresh) s

theorem ready_invalid : Spoils strayArgument ∧ Spoils openArray := by
  have hrun : ∀ ops n, countWhere apply opensBundle ops fresh = n →
      (fun s : OutboundPacketStream => s.isReady && decide (0 < s.size) &&
        decide (tryValidatePacket s.packet 0 s.size n ≠ ok ())) <$> runCaught apply ops fresh = ok true →
      ∃ s, runCaught apply ops fresh = ok s ∧ ¬ ReadyIsValid (countWhere apply opensBundle ops fresh) s := by
    intro ops n hn hx
    cases hs : runCaught apply ops fresh with
    | err e => cases e
    | fault f => rw [hs] at hx; cases hx
    | ok s =>
      rw [hs, map_ok] at hx
      injection hx with hx
      simp only [Bool.and_eq_true, decide_eq_true_eq] at hx
      exact ⟨s, rfl, fun h => hx.2 (h hx.1.1 hx.1.2 n (by rw [hn]))⟩
  refine ⟨⟨?_, by decide +kernel, hrun _ 1 (by decide +kernel) (by decide +kernel)⟩,
    ⟨?_, by decide +kernel, hrun _ 0 (by decide +kernel) (by decide +kernel)⟩⟩
  · intro op hop
    simp only [strayArgument, List.mem_cons, List.not_mem_nil, or_false] at hop
    rcases hop with rfl | rfl | rfl
    · exact ⟨trivial, trivial⟩
    · exact ⟨trivial, _, .int32 5, trivial⟩
    · exact ⟨trivial, trivial⟩
  · intro op hop
    simp only [openArray, List.mem_cons, List.not_mem_nil, or_false] at hop
    rcases hop with rfl | rfl | rfl
    · exact beginMessageN_plain
    · exact ⟨trivial, _, .arrayBegin, trivial⟩
    · exact ⟨trivial, trivial⟩

end OscTap.Outbound
