import Carteret.QueueOrders

/-!
# Steps of the simulator

1. A step is made of a few parts; what every part preserves, every step preserves (`Invariant.step`).
2. The index holds the positions of each symbol's orders, so a loop over it is a loop over all orders that
   passes the others over (`Sound.visitAt_eq`).
3. Along a step each order evolves on its own, and placements add orders that have just entered. So a property
   of an order and the book is an invariant when events, expiry and entry preserve it
   (`orderInvariant`).
-/

namespace Carteret

namespace QueueSim

/-! ## The parts of a step -/

/-- The clock may differ, the orders and the tallies do not. -/
structure SameOrders (s s' : QueueSim) : Prop where
  ledger : s'.toLedger = s.toLedger
  cfg : s'.cfg = s.cfg
  book : s'.book = s.book
  live : s'.live = s.live
  byLocate : s'.byLocate = s.byLocate
  retired : s'.retired = s.retired
  placements : s'.placements = s.placements

/-- `I` is preserved by the parts of a step, for messages that meet `C`. -/
structure Invariant (C : QueueSim → Message → Prop) (I : QueueSim → Prop) : Prop where
  clock : ∀ {s s'}, I s → SameOrders s s' → I s'
  message : ∀ {s} msg, C s msg → I s →
    I (react { s with book := bookAfter s.book msg } (eventOf s.cfg s.book msg))
  settle : ∀ {s} ts, I s → I { s with toLedger := s.toLedger.settle s.book ts }
  sweep : ∀ {s} ts, I s → I (s.visitAll (sweepVisit s.cfg ts)).compact
  retire : ∀ {s} locate, I s → I (s.visitAt locate retireVisit).compact
  push : ∀ {s locate side ts o}, s.entry locate side ts = some o → I s → I (s.push o)

variable {C : QueueSim → Message → Prop} {I : QueueSim → Prop} {s : QueueSim}

theorem Invariant.placeAt (h : Invariant C I) (hs : I s) (locate : UInt16) (side : UInt8) (ts : UInt64) :
    I (s.placeAt locate side ts) := by
  unfold QueueSim.placeAt
  cases he : s.entry locate side ts with
  | none => exact h.clock hs ⟨rfl, rfl, rfl, rfl, rfl, rfl, rfl⟩
  | some o => exact h.push he hs

theorem Invariant.place (h : Invariant C I) (hs : I s) (ts : UInt64) : I (s.place ts) := by
  have hclock (s : QueueSim) (hs : I s) (rng : Sampler) : I { s with rng := rng } :=
    h.clock hs ⟨rfl, rfl, rfl, rfl, rfl, rfl, rfl⟩
  have hrefreshed : I (if s.twoSided.isEmpty ||
      decide (s.lastTs - s.universeRefreshed > kUniverseRefreshNs) then s.refreshUniverse else s) := by
    split
    · exact h.clock hs ⟨rfl, rfl, rfl, rfl, rfl, rfl, rfl⟩
    · exact hs
  unfold QueueSim.place
  simp only
  generalize (if s.twoSided.isEmpty ||
    decide (s.lastTs - s.universeRefreshed > kUniverseRefreshNs) then s.refreshUniverse else s) = s'
    at hrefreshed ⊢
  split_ifs
  · exact h.clock hrefreshed ⟨rfl, rfl, rfl, rfl, rfl, rfl, rfl⟩
  · exact h.placeAt (hclock _ hrefreshed _) _ _ _
  · exact h.placeAt (hclock _ hrefreshed _) _ _ _
  · exact h.placeAt (hclock _ hrefreshed _) _ _ _

theorem Invariant.catchUp (h : Invariant C I) (ts : UInt64) : ∀ (n : ℕ) {s : QueueSim}, I s →
    I (catchUp ts n s)
  | 0, s, hs => by
    unfold QueueSim.catchUp
    split
    · exact h.clock hs ⟨rfl, rfl, rfl, rfl, rfl, rfl, rfl⟩
    · exact hs
  | n + 1, s, hs => by
    unfold QueueSim.catchUp
    split
    · exact h.catchUp ts n (h.clock (h.place hs ts) ⟨rfl, rfl, rfl, rfl, rfl, rfl, rfl⟩)
    · exact hs

theorem Invariant.tick (h : Invariant C I) (hs : I s) (ts : UInt64) : I (s.tick ts) := by
  have hsettled : I { s with lastTs := ts, toLedger := s.toLedger.settle s.book ts } :=
    h.clock (h.settle ts hs) ⟨rfl, rfl, rfl, rfl, rfl, rfl, rfl⟩
  have hswept : ∀ s : QueueSim, I s → I (s.sweep ts) := by
    intro s hs
    unfold QueueSim.sweep
    split
    · exact h.sweep ts (h.clock hs ⟨rfl, rfl, rfl, rfl, rfl, rfl, rfl⟩)
    · exact hs
  unfold QueueSim.tick
  split
  · exact hs
  · simp only
    split
    · exact h.catchUp ts 64 (hswept _ hsettled)
    · exact hswept _ hsettled

theorem Invariant.on (h : Invariant C I) (hs : I s) {msg : Message} (hc : C s msg) : I (s.on msg) := by
  rw [on_eq]
  cases tickOf msg with
  | none => exact h.message msg hc hs
  | some ts => exact h.tick (h.message msg hc hs) ts

/-- What every part preserves, every step preserves. -/
theorem Invariant.step (h : Invariant C I) (hs : I s) {e : SimStep}
    (hc : ∀ msg, e = .message msg → C s msg) : I (s.step e) := by
  cases e with
  | message msg => exact h.on hs (hc msg rfl)
  | placeDirected locate side ts => exact h.placeAt hs locate side ts
  | cancelSymbol locate => exact h.retire locate hs

/-- Any message. -/
def anyMessage (_ : QueueSim) (_ : Message) : Prop := True

/-- What every part preserves holds of every reachable state. -/
theorem Invariant.run (h : Invariant anyMessage I) {P : Platform} {cfg : QueueSimConfig}
    (h0 : I (init P cfg)) (es : List SimStep) : I (run P cfg es) := by
  unfold QueueSim.run
  have hstep : ∀ (s : QueueSim) (e : SimStep), I s → I (s.step e) := fun _ _ hs =>
    h.step hs fun _ _ => trivial
  exact Runs.run_invariant hstep es _ h0

/-- The condition on the messages, as one on the calls. -/
def meets (C : QueueSim → Message → Prop) (s : QueueSim) (e : SimStep) : Prop :=
  ∀ msg, e = .message msg → C s msg

instance (C : QueueSim → Message → Prop) [∀ s msg, Decidable (C s msg)] (s : QueueSim) :
    ∀ e, Decidable (meets C s e)
  | .message msg => decidable_of_iff (C s msg) ⟨fun h _ he => SimStep.message.inj he ▸ h, fun h => h msg rfl⟩
  | .placeDirected .. => isTrue fun _ he => by cases he
  | .cancelSymbol .. => isTrue fun _ he => by cases he

/-- What every part preserves holds of every state that messages with `C` reach. -/
theorem Invariant.along (h : Invariant C I) {P : Platform} {cfg : QueueSimConfig} {es : List SimStep}
    (hc : Runs.Along QueueSim.step (meets C) (init P cfg) es) (h0 : I (init P cfg)) :
    I (QueueSim.run P cfg es) := by
  have hstep : ∀ (s : QueueSim) (e : SimStep), meets C s e → I s → I (s.step e) := fun _ _ hc hs =>
    h.step hs hc
  unfold QueueSim.run
  exact hc.invariant hstep h0

/-! ## Soundness -/

/-- The index is exact, flags are right, and what has been dropped is dead. -/
structure Sound (s : QueueSim) : Prop where
  indexed : s.byLocate = positions s.live
  flagged : ∀ o ∈ s.orders, o.Flagged
  dead : ∀ o ∈ s.retired, o.anyLive = false
  seqs : List.Perm (s.orders.map SyntheticOrder.seq) (List.range s.placements)

theorem sound_init (P : Platform) (cfg : QueueSimConfig) : Sound (init P cfg) where
  indexed := rfl
  flagged := by simp [orders, init]
  dead := by simp [init]
  seqs := List.Perm.refl _

/-- The book does not matter. -/
theorem Sound.withBook (h : Sound s) (b : ReferenceBook) : Sound { s with book := b } :=
  ⟨h.indexed, h.flagged, h.dead, h.seqs⟩

theorem Sound.live_flagged (h : Sound s) : ∀ o ∈ s.live, o.Flagged := fun o ho =>
  h.flagged o (List.mem_append_right _ ho)

theorem Sound.seq_nodup (h : Sound s) : (s.orders.map SyntheticOrder.seq).Nodup :=
  h.seqs.nodup_iff.mpr List.nodup_range

theorem Sound.seq_lt (h : Sound s) {o : SyntheticOrder} (ho : o ∈ s.orders) : o.seq < s.placements :=
  List.mem_range.mp (h.seqs.mem_iff.mp (List.mem_map_of_mem ho))

theorem Sound.eq_of_seq_eq (h : Sound s) {o o' : SyntheticOrder} (ho : o ∈ s.orders) (ho' : o' ∈ s.orders)
    (heq : o.seq = o'.seq) : o = o' := List.inj_on_of_nodup_map h.seq_nodup ho ho' heq

/-- A loop over the index of a symbol passes the other orders over. -/
theorem Sound.visitAt_eq (h : Sound s) (locate : UInt16) (f : Visit) :
    s.visitAt locate f = s.visitAll fun L o => if o.locate == locate then f L o else (L, o) := by
  unfold visitAt visitAll
  rw [h.indexed]
  unfold positions
  rw [Scan.visit_findIdxs]

/-- The loop for an event is a loop over all orders. -/
theorem Sound.react_eq (h : Sound s) (ev : BookEvent) :
    s.react ev = s.visitAll (visitOf s.cfg s.book ev) := by
  cases ev with
  | execution r qty ts => exact h.visitAt_eq r.locate _
  | cancel r qty => rfl
  | print locate price ts => exact h.visitAt_eq locate _
  | quiet =>
    have hid : Scan.scan (fun L o => (L, o)) s.toLedger s.live = (s.toLedger, s.live) := by
      induction s.live with
      | nil => rfl
      | cons o os ih => rw [Scan.scan_cons, ih]
    show s = s.visitAll fun L o => (L, o)
    unfold visitAll
    rw [hid]

/-! ## Loops over the orders -/

/-- A loop over all orders, read on every order. -/
theorem forall₂_visitAll {f : Visit} {R : SyntheticOrder → SyntheticOrder → Prop}
    (hlive : ∀ L, ∀ o ∈ s.live, R o (f L o).2) (hdead : ∀ o ∈ s.retired, R o o) :
    List.Forall₂ R s.orders (s.visitAll f).orders := by
  apply List.rel_append
  · exact List.forall₂_same.mpr hdead
  · have hscan := Scan.forall₂_scan f s.toLedger s.live
    show List.Forall₂ R s.live (Scan.scan f s.toLedger s.live).2
    apply (List.forall₂_iff_zip.mpr ⟨hscan.length_eq, ?_⟩)
    intro o o' hzip
    obtain ⟨L, rfl⟩ := (List.forall₂_iff_zip.mp hscan).2 hzip
    exact hlive L o (List.of_mem_zip hzip).1

/-- A loop body that writes models and references only. -/
def Updates (f : Visit) : Prop := ∀ L o, o.Flagged → ∃ models refs, (f L o).2 = o.update models refs

theorem updates_id : Updates fun L o => (L, o) := fun _ _ h =>
  ⟨_, _, (SyntheticOrder.update_self h).symm⟩

theorem Updates.guard {f : Visit} (hf : Updates f) (p : SyntheticOrder → Bool) :
    Updates fun L o => if p o then f L o else (L, o) := by
  intro L o h
  dsimp only
  split
  · exact hf L o h
  · exact updates_id L o h

theorem updates_visitOf (cfg : QueueSimConfig) (b : ReferenceBook) (ev : BookEvent) :
    Updates (visitOf cfg b ev) := by
  intro L o h
  rw [visitOf_order h]
  exact see_cases h _

theorem updates_retire : Updates retireVisit := by
  intro L o h
  rw [retireVisit_order]
  unfold SyntheticOrder.seeRetire
  split
  · exact ⟨_, _, rfl⟩
  · exact updates_id L o h

theorem updates_sweep (cfg : QueueSimConfig) (ts : UInt64) : Updates (sweepVisit cfg ts) := by
  intro L o h
  rw [sweepVisit_order]
  unfold SyntheticOrder.seeSweep
  split
  · exact ⟨_, _, rfl⟩
  · exact updates_id L o h

theorem positions_congr {os os' : List SyntheticOrder}
    (h : os.map SyntheticOrder.locate = os'.map SyntheticOrder.locate) : positions os = positions os' := by
  funext locate
  have hmap : ∀ os : List SyntheticOrder, positions os locate =
      (os.map SyntheticOrder.locate).findIdxs (· == locate) := fun os => by
    rw [List.findIdxs_map]
    rfl
  rw [hmap, hmap, h]

/-- An order at the back is the last position of its symbol. -/
theorem positions_concat (os : List SyntheticOrder) (o : SyntheticOrder) :
    positions (os ++ [o]) = Function.update (positions os) o.locate (positions os o.locate ++ [os.length]) := by
  funext l
  unfold positions
  rw [List.findIdxs_append, List.findIdxs_singleton, Nat.zero_add]
  by_cases hl : l = o.locate
  · subst hl
    rw [Function.update_self, if_pos (beq_self_eq_true _)]
  · rw [Function.update_of_ne hl, if_neg (by simpa using Ne.symm hl), List.append_nil]

theorem reindex_eq (os : List SyntheticOrder) : reindex os = positions os := by
  unfold reindex
  induction os using List.reverseRecOn with
  | nil => rfl
  | append_singleton os o ih =>
    rw [List.zipIdx_append, List.foldl_append, ih, Nat.zero_add, positions_concat]
    rfl

/-- What a loop body that updates leaves alone. -/
theorem Sound.forall₂_updates (h : Sound s) {f : Visit} (hf : Updates f) :
    List.Forall₂ (fun o o' : SyntheticOrder => ∃ models refs, o' = o.update models refs)
        s.live (s.visitAll f).live ∧
      List.Forall₂ (fun o o' : SyntheticOrder => ∃ models refs, o' = o.update models refs)
        s.orders (s.visitAll f).orders := by
  have hscan := Scan.forall₂_scan f s.toLedger s.live
  refine ⟨List.forall₂_iff_zip.mpr ⟨hscan.length_eq, fun {o o'} hzip => ?_⟩, forall₂_visitAll ?_ ?_⟩
  · obtain ⟨L, rfl⟩ := (List.forall₂_iff_zip.mp hscan).2 hzip
    exact hf L o (h.live_flagged o (List.of_mem_zip hzip).1)
  · exact fun L o ho => hf L o (h.live_flagged o ho)
  · exact fun o ho => updates_id s.toLedger o (h.flagged o (List.mem_append_left _ ho))

theorem Sound.visitAll (h : Sound s) {f : Visit} (hf : Updates f) : Sound (s.visitAll f) := by
  obtain ⟨hlive, horders⟩ := h.forall₂_updates hf
  constructor
  · show s.byLocate = positions (s.visitAll f).live
    rw [h.indexed]
    apply positions_congr
    apply Scan.map_eq_map hlive
    rintro o _ ⟨models, refs, rfl⟩
    rfl
  · intro o' ho'
    obtain ⟨o, -, models, refs, rfl⟩ := Scan.exists_left horders ho'
    exact SyntheticOrder.flagged_update models refs
  · exact h.dead
  · have hseq : s.orders.map SyntheticOrder.seq = (s.visitAll f).orders.map SyntheticOrder.seq := by
      apply Scan.map_eq_map horders
      rintro o _ ⟨models, refs, rfl⟩
      rfl
    rw [← hseq]
    exact h.seqs

/-- Compaction moves the dead orders. -/
theorem compact_orders (s : QueueSim) : s.compact.orders.Perm s.orders := by
  have hsplit : (s.live.filter (fun o => !o.anyLive) ++ s.live.filter SyntheticOrder.anyLive).Perm s.live :=
    List.perm_append_comm.trans (List.filter_append_perm SyntheticOrder.anyLive s.live)
  show (s.retired ++ s.live.filter (fun o => !o.anyLive) ++ s.live.filter SyntheticOrder.anyLive).Perm _
  rw [List.append_assoc]
  exact hsplit.append_left s.retired

theorem Sound.compact (h : Sound s) : Sound s.compact := by
  have hperm := compact_orders s
  constructor
  · exact reindex_eq _
  · exact fun o ho => h.flagged o (hperm.mem_iff.mp ho)
  · intro o ho
    rcases List.mem_append.mp ho with ho | ho
    · exact h.dead o ho
    · simpa using (List.mem_filter.mp ho).2
  · exact (hperm.map SyntheticOrder.seq).trans h.seqs

/-- The order that enters: its models are live behind the whole level. -/
structure Entered (b : ReferenceBook) (o : SyntheticOrder) : Prop where
  present : (b.level o.locate o.side o.price).present = true
  depth : o.depthAtEntry = (b.level o.locate o.side o.price).shares
  models : o.models = fun _ => { ahead := o.depthAtEntry.toNat }
  refs : o.aheadRefs = (b.level o.locate o.side o.price).fifo.toFinset
  nodes : o.entryNodes = levelNodes b o.locate o.side o.price
  live : o.anyLive = true

theorem entry_spec {locate : UInt16} {side : UInt8} {ts : UInt64} {o : SyntheticOrder}
    (h : s.entry locate side ts = some o) :
    Entered s.book o ∧ o.seq = s.placements ∧ o.locate = locate ∧ o.side = side ∧ o.enteredTs = ts := by
  unfold QueueSim.entry at h
  cases hsym : s.book.symbol locate with
  | none => rw [hsym] at h; cases h
  | some sym =>
    rw [hsym] at h
    simp only at h
    generalize (if side = kBuy then sym.bestBid.getD 0 else sym.bestAsk.getD 0) = price at h
    split_ifs at h with h1 h2
    · obtain rfl := Option.some.inj h
      exact ⟨⟨by simpa using h2, rfl, rfl, rfl, rfl, rfl⟩, rfl, rfl, rfl, rfl⟩

theorem Entered.flagged {b : ReferenceBook} {o : SyntheticOrder} (h : Entered b o) : o.Flagged := by
  unfold SyntheticOrder.Flagged SyntheticOrder.someLive
  rw [h.live, h.models]
  rfl

theorem push_orders (s : QueueSim) (o : SyntheticOrder) : (s.push o).orders = s.orders ++ [o] := by
  unfold orders push
  rw [List.append_assoc]

theorem Sound.push (h : Sound s) {locate : UInt16} {side : UInt8} {ts : UInt64} {o : SyntheticOrder}
    (he : s.entry locate side ts = some o) : Sound (s.push o) := by
  obtain ⟨hent, hseq, -⟩ := entry_spec he
  constructor
  · show Function.update s.byLocate o.locate (s.byLocate o.locate ++ [s.live.length]) = _
    rw [h.indexed]
    exact (positions_concat s.live o).symm
  · intro o' ho'
    rw [push_orders] at ho'
    rcases List.mem_append.mp ho' with ho' | ho'
    · exact h.flagged o' ho'
    · rw [List.mem_singleton.mp ho']
      exact hent.flagged
  · exact h.dead
  · rw [push_orders, List.map_append, List.map_singleton, hseq]
    show List.Perm _ (List.range (s.placements + 1))
    rw [List.range_succ]
    exact h.seqs.append_right _

theorem sound_invariant : Invariant anyMessage Sound where
  clock := fun {s s'} h hsame => by
    have horders : s'.orders = s.orders := by rw [orders, orders, hsame.retired, hsame.live]
    exact ⟨by rw [hsame.byLocate, hsame.live]; exact h.indexed, by rw [horders]; exact h.flagged,
      by rw [hsame.retired]; exact h.dead, by rw [horders, hsame.placements]; exact h.seqs⟩
  message := fun {s} msg _ h => by
    have hbook : Sound { s with book := bookAfter s.book msg } := h.withBook _
    rw [hbook.react_eq]
    exact hbook.visitAll (updates_visitOf _ _ _)
  settle := fun ts h => ⟨h.indexed, h.flagged, h.dead, h.seqs⟩
  sweep := fun ts h => (h.visitAll (updates_sweep _ ts)).compact
  retire := fun locate h => by
    rw [h.visitAt_eq]
    exact (h.visitAll (updates_retire.guard fun o => o.locate == locate)).compact
  push := fun he h => h.push he

/-- Every reachable state is sound. -/
theorem sound_run (P : Platform) (cfg : QueueSimConfig) (es : List SimStep) : Sound (run P cfg es) :=
  sound_invariant.run (sound_init P cfg) es

/-- `on_cancel` passes the orders of other symbols over. -/
theorem cancelVisit_guard (b : ReferenceBook) (r : Resolved) (qty : Shares) :
    (fun L o => if o.locate == r.locate then cancelVisit b r qty L o else (L, o)) = cancelVisit b r qty := by
  funext L o
  by_cases ho : o.locate = r.locate
  · rw [if_pos (beq_iff_eq.mpr ho)]
  · have hlevel : atLevelOf r o = false := by
      unfold atLevelOf
      rw [beq_false_of_ne ho, Bool.and_false, Bool.false_and, Bool.false_and]
    rw [if_neg (mt beq_iff_eq.mp ho)]
    unfold cancelVisit
    rw [hlevel]
    rfl

/-- **The index of the live orders is exact.** In every reachable state a symbol's positions are those of its orders
in ascending order. Whatever the book, a loop over them is the scan of all orders that passes the others over; and
the scan of `on_cancel` is the loop over the positions of its symbol. -/
theorem index_exact (P : Platform) (cfg : QueueSimConfig) (es : List SimStep) :
    let s := run P cfg es
    (∀ locate, (s.byLocate locate).Pairwise (· < ·) ∧
        ∀ i, i ∈ s.byLocate locate ↔ ∃ h : i < s.live.length, (s.live.get ⟨i, h⟩).locate = locate) ∧
      ∀ b : ReferenceBook,
        (∀ (locate : UInt16) (f : Visit), { s with book := b }.visitAt locate f =
          { s with book := b }.visitAll fun L o => if o.locate == locate then f L o else (L, o)) ∧
        ∀ (r : Resolved) (qty : Shares),
          { s with book := b }.onCancel r qty = { s with book := b }.visitAt r.locate (cancelVisit b r qty) := by
  intro s
  have hs : Sound s := sound_run P cfg es
  refine ⟨fun locate => ⟨?_, fun i => ?_⟩, fun b => ?_⟩
  · rw [hs.indexed]
    exact List.pairwise_findIdxs
  · rw [hs.indexed, positions, List.mem_findIdxs_iff_exists_getElem_pos]
    simp only [beq_iff_eq, List.get_eq_getElem]
  · have hb : Sound { s with book := b } := hs.withBook _
    refine ⟨hb.visitAt_eq, fun r qty => ?_⟩
    rw [hb.visitAt_eq, cancelVisit_guard]
    rfl

/-! ## Orders along a step -/

theorem coinOf_live {b : ReferenceBook} {ev : BookEvent} {rng : Sampler} {o : SyntheticOrder}
    (h : (coinOf b ev rng o).1 = true) : (o.models .bernoulliProportional).live = true := by
  unfold coinOf at h
  cases ev with
  | cancel r qty =>
    simp only at h
    split_ifs at h
    · unfold cancelCoin at h
      by_cases hl : (o.models .bernoulliProportional).live = true ∧ cancelBefore b o qty > 0
      · exact hl.1
      · rw [if_neg hl] at h
        cases h
  | _ => cases h

/-- Each order sees the event. -/
theorem Sound.react_orders (h : Sound s) (ev : BookEvent) :
    List.Forall₂ (fun o o' : SyntheticOrder => ∃ hit,
        (hit = true → (o.models .bernoulliProportional).live = true) ∧ o' = o.see s.book ev hit)
      s.orders (s.react ev).orders := by
  rw [h.react_eq]
  apply forall₂_visitAll
  · exact fun L o ho => ⟨_, coinOf_live, visitOf_order (h.live_flagged o ho)⟩
  · exact fun o ho => ⟨false, by simp, (see_dead (h.dead o ho) false).symm⟩

/-- A loop over all orders that changes each by a function, then compaction. -/
theorem visitAll_compact_orders {f : Visit} {u : SyntheticOrder → SyntheticOrder}
    (hf : ∀ L, ∀ o ∈ s.live, (f L o).2 = u o) (hdead : ∀ o ∈ s.retired, u o = o) :
    (s.visitAll f).compact.orders.Perm (s.orders.map u) := by
  have hall := forall₂_visitAll (s := s) (f := f) (R := fun o o' => u o = o') (fun L o ho => (hf L o ho).symm)
    hdead
  have heq : (s.visitAll f).orders = s.orders.map u := by
    have hmap := Scan.map_eq_map hall (u := u) (v := id) fun _ _ h => h
    rw [hmap, List.map_id]
  rw [← heq]
  exact compact_orders _

theorem Sound.sweep_orders (h : Sound s) (ts : UInt64) :
    (s.visitAll (sweepVisit s.cfg ts)).compact.orders.Perm (s.orders.map (·.seeSweep s.cfg ts)) :=
  visitAll_compact_orders (fun L o _ => sweepVisit_order s.cfg ts L o)
    fun o ho => seeSweep_dead (h.dead o ho) ts

/-- What cancelling a symbol does to an order. -/
def seeCancelSymbol (locate : UInt16) (o : SyntheticOrder) : SyntheticOrder :=
  if o.locate = locate then o.seeRetire else o

theorem Sound.retire_orders (h : Sound s) (locate : UInt16) :
    (s.visitAt locate retireVisit).compact.orders.Perm (s.orders.map (seeCancelSymbol locate)) := by
  rw [h.visitAt_eq]
  apply visitAll_compact_orders
  · intro L o _
    unfold seeCancelSymbol
    by_cases hl : o.locate = locate
    · simp [hl, retireVisit_order]
    · simp [hl]
  · intro o ho
    unfold seeCancelSymbol
    rw [seeRetire_dead (h.dead o ho), ite_self]

/-- A property of the book that messages preserve, and one of an order and the book that events, expiry and
entry preserve. -/
theorem orderInvariant {B : ReferenceBook → Prop} {Q : ReferenceBook → SyntheticOrder → Prop}
    (hbook : ∀ {s : QueueSim} {msg : Message}, C s msg → B s.book → B (bookAfter s.book msg))
    (hsee : ∀ {s : QueueSim} {msg : Message} {o : SyntheticOrder} {hit : Bool}, C s msg → B s.book →
      o.Flagged → (hit = true → (o.models .bernoulliProportional).live = true) → Q s.book o →
      Q (bookAfter s.book msg) (o.see (bookAfter s.book msg) (eventOf s.cfg s.book msg) hit))
    (hexpire : ∀ {b : ReferenceBook} {o : SyntheticOrder}, o.Flagged → Q b o → Q b o.expireLive)
    (henter : ∀ {b : ReferenceBook} {o : SyntheticOrder}, B b → Entered b o → Q b o) :
    Invariant C fun s => Sound s ∧ B s.book ∧ ∀ o ∈ s.orders, Q s.book o where
  clock := fun {s s'} hs hsame => by
    refine ⟨sound_invariant.clock hs.1 hsame, ?_⟩
    have horders : s'.orders = s.orders := by rw [orders, orders, hsame.retired, hsame.live]
    rw [horders, hsame.book]
    exact hs.2
  message := fun {s} msg hc hs => by
    refine ⟨sound_invariant.message msg trivial hs.1, ?_⟩
    have hsound : Sound { s with book := bookAfter s.book msg } := hs.1.withBook _
    have hsame : (react { s with book := bookAfter s.book msg } (eventOf s.cfg s.book msg)).book =
        bookAfter s.book msg := by rw [hsound.react_eq]; rfl
    rw [hsame]
    refine ⟨hbook hc hs.2.1, fun o' ho' => ?_⟩
    obtain ⟨o, ho, hit, hhit, rfl⟩ := Scan.exists_left (hsound.react_orders _) ho'
    exact hsee hc hs.2.1 (hs.1.flagged o ho) hhit (hs.2.2 o ho)
  settle := fun ts hs => ⟨sound_invariant.settle ts hs.1, hs.2⟩
  sweep := fun {s} ts hs => by
    refine ⟨sound_invariant.sweep ts hs.1, hs.2.1, fun o' ho' => ?_⟩
    obtain ⟨o, ho, rfl⟩ := List.mem_map.mp ((hs.1.sweep_orders ts).mem_iff.mp ho')
    unfold SyntheticOrder.seeSweep
    split
    · exact hexpire (hs.1.flagged o ho) (hs.2.2 o ho)
    · exact hs.2.2 o ho
  retire := fun {s} locate hs => by
    refine ⟨sound_invariant.retire locate hs.1, hs.2.1, fun o' ho' => ?_⟩
    obtain ⟨o, ho, rfl⟩ := List.mem_map.mp ((hs.1.retire_orders locate).mem_iff.mp ho')
    have hsame : (s.visitAt locate retireVisit).compact.book = s.book := rfl
    rw [hsame]
    unfold seeCancelSymbol SyntheticOrder.seeRetire
    split_ifs
    · exact hexpire (hs.1.flagged o ho) (hs.2.2 o ho)
    · exact hs.2.2 o ho
    · exact hs.2.2 o ho
  push := fun {s locate side ts o} he hs => by
    refine ⟨sound_invariant.push he hs.1, hs.2.1, fun o' ho' => ?_⟩
    rw [push_orders] at ho'
    have hsame : (s.push o).book = s.book := rfl
    rw [hsame]
    rcases List.mem_append.mp ho' with ho' | ho'
    · exact hs.2.2 o' ho'
    · rw [List.mem_singleton.mp ho']
      exact henter hs.2.1 (entry_spec he).1

/-! ## Orders across a step -/

/-- The same order, filled in the same models. -/
structure SameFate (o o' : SyntheticOrder) : Prop where
  seq : o'.seq = o.seq
  locate : o'.locate = o.locate
  side : o'.side = o.side
  price : o'.price = o.price
  nodes : o'.entryNodes = o.entryNodes
  filled : ∀ m, (o'.models m).filled = (o.models m).filled

theorem SameFate.refl (o : SyntheticOrder) : SameFate o o := ⟨rfl, rfl, rfl, rfl, rfl, fun _ => rfl⟩

theorem SameFate.trans {o₁ o₂ o₃ : SyntheticOrder} (h : SameFate o₁ o₂) (h' : SameFate o₂ o₃) :
    SameFate o₁ o₃ :=
  ⟨h'.seq.trans h.seq, h'.locate.trans h.locate, h'.side.trans h.side, h'.price.trans h.price,
    h'.nodes.trans h.nodes, fun m => (h'.filled m).trans (h.filled m)⟩

theorem sameFate_expire (o : SyntheticOrder) : SameFate o o.expireLive := by
  refine ⟨rfl, rfl, rfl, rfl, rfl, fun m => ?_⟩
  unfold SyntheticOrder.expireLive SyntheticOrder.update
  simp only
  split <;> rfl

/-- The orders of `s` are in `t` with the same fate; later ones are not filled. -/
structure Extends (s t : QueueSim) : Prop where
  old : ∀ o ∈ s.orders, ∃ o' ∈ t.orders, SameFate o o'
  new : ∀ o' ∈ t.orders, s.placements ≤ o'.seq → ∀ m, (o'.models m).filled = false

/-- Without a message orders only expire and enter. -/
theorem extends_invariant (s : QueueSim) :
    Invariant (fun _ _ => False) fun t => Sound t ∧ Extends s t ∧ s.placements ≤ t.placements where
  clock := fun {t t'} h hsame => by
    have horders : t'.orders = t.orders := by rw [orders, orders, hsame.retired, hsame.live]
    refine ⟨sound_invariant.clock h.1 hsame, ⟨?_, ?_⟩, by rw [hsame.placements]; exact h.2.2⟩
    · rw [horders]
      exact h.2.1.old
    · rw [horders]
      exact h.2.1.new
  message := fun _ hc _ => hc.elim
  settle := fun ts h => ⟨sound_invariant.settle ts h.1, ⟨h.2.1.old, h.2.1.new⟩, h.2.2⟩
  sweep := fun {t} ts h => by
    have hfate : ∀ o, SameFate o (o.seeSweep t.cfg ts) := by
      intro o
      unfold SyntheticOrder.seeSweep
      split
      · exact sameFate_expire o
      · exact SameFate.refl o
    refine ⟨sound_invariant.sweep ts h.1, ⟨fun o ho => ?_, fun o' ho' hseq => ?_⟩, h.2.2⟩
    · obtain ⟨o', ho', hsame⟩ := h.2.1.old o ho
      exact ⟨_, (h.1.sweep_orders ts).mem_iff.mpr (List.mem_map_of_mem ho'), hsame.trans (hfate o')⟩
    · obtain ⟨o, ho, rfl⟩ := List.mem_map.mp ((h.1.sweep_orders ts).mem_iff.mp ho')
      intro m
      rw [(hfate o).filled]
      exact h.2.1.new o ho ((hfate o).seq ▸ hseq) m
  retire := fun {t} locate h => by
    have hfate : ∀ o, SameFate o (seeCancelSymbol locate o) := by
      intro o
      unfold seeCancelSymbol SyntheticOrder.seeRetire
      split_ifs
      · exact sameFate_expire o
      · exact SameFate.refl o
      · exact SameFate.refl o
    refine ⟨sound_invariant.retire locate h.1, ⟨fun o ho => ?_, fun o' ho' hseq => ?_⟩, h.2.2⟩
    · obtain ⟨o', ho', hsame⟩ := h.2.1.old o ho
      exact ⟨_, (h.1.retire_orders locate).mem_iff.mpr (List.mem_map_of_mem ho'), hsame.trans (hfate o')⟩
    · obtain ⟨o, ho, rfl⟩ := List.mem_map.mp ((h.1.retire_orders locate).mem_iff.mp ho')
      intro m
      rw [(hfate o).filled]
      exact h.2.1.new o ho ((hfate o).seq ▸ hseq) m
  push := fun {t locate side ts o} he h => by
    refine ⟨sound_invariant.push he h.1, ⟨fun o₁ ho₁ => ?_, fun o' ho' hseq => ?_⟩, Nat.le_succ_of_le h.2.2⟩
    · obtain ⟨o', ho', hsame⟩ := h.2.1.old o₁ ho₁
      rw [push_orders]
      exact ⟨o', List.mem_append_left _ ho', hsame⟩
    · rw [push_orders] at ho'
      rcases List.mem_append.mp ho' with ho' | ho'
      · exact h.2.1.new o' ho' hseq
      · rw [List.mem_singleton.mp ho', (entry_spec he).1.models]
        exact fun _ => rfl

theorem extends_self (hs : Sound s) : Sound s ∧ Extends s s ∧ s.placements ≤ s.placements :=
  ⟨hs, ⟨fun o ho => ⟨o, ho, SameFate.refl o⟩, fun _ ho hle => absurd (hs.seq_lt ho) (not_lt.mpr hle)⟩, le_rfl⟩

theorem SameFate.see_seq {b : ReferenceBook} {ev : BookEvent} {hit : Bool} {o : SyntheticOrder}
    (h : o.Flagged) : (o.see b ev hit).seq = o.seq := by
  obtain ⟨models, refs, heq⟩ : ∃ models refs, o.see b ev hit = o.update models refs := see_cases h hit
  rw [heq]
  rfl

/-- Before and after a message: each order sees the event, and may then expire. -/
theorem on_extends (hs : Sound s) (msg : Message) :
    (∀ o ∈ s.orders, ∃ o' ∈ (s.on msg).orders, ∃ hit,
      (hit = true → (o.models .bernoulliProportional).live = true) ∧
        SameFate (o.see (bookAfter s.book msg) (eventOf s.cfg s.book msg) hit) o') ∧
      ∀ o' ∈ (s.on msg).orders, s.placements ≤ o'.seq → ∀ m, (o'.models m).filled = false := by
  have hbook : Sound { s with book := bookAfter s.book msg } := hs.withBook _
  have hreact := hbook.react_orders (eventOf s.cfg s.book msg)
  have hsound : Sound (react { s with book := bookAfter s.book msg } (eventOf s.cfg s.book msg)) :=
    sound_invariant.message msg trivial hs
  have hplacements : (react { s with book := bookAfter s.book msg } (eventOf s.cfg s.book msg)).placements =
      s.placements := by
    rw [hbook.react_eq]
    rfl
  rw [on_eq]
  generalize react { s with book := bookAfter s.book msg } (eventOf s.cfg s.book msg) = s₁
    at hreact hsound hplacements ⊢
  have hext : Extends s₁ ((tickOf msg).elim id (fun ts s => s.tick ts) s₁) := by
    cases tickOf msg with
    | none => exact (extends_self hsound).2.1
    | some ts => exact ((extends_invariant s₁).tick (extends_self hsound) ts).2.1
  refine ⟨fun o ho => ?_, fun o' ho' hseq => hext.new o' ho' (hplacements ▸ hseq)⟩
  obtain ⟨o₁, ho₁, hit, hhit, rfl⟩ := Scan.exists_right hreact ho
  obtain ⟨o', ho', hsame⟩ := hext.old _ ho₁
  exact ⟨o', ho', hit, hhit, hsame⟩

/-- Before and after a call from outside. -/
theorem call_extends (hs : Sound s) {e : SimStep} (he : ∀ msg, e ≠ .message msg) : Extends s (s.step e) :=
  ((extends_invariant s).step (extends_self hs) fun msg h => he msg h).2.1

/-- What the event of a call makes of an order. -/
def seen (s : QueueSim) (hit : Bool) (o : SyntheticOrder) : SimStep → SyntheticOrder
  | .message msg => o.see (bookAfter s.book msg) (eventOf s.cfg s.book msg) hit
  | _ => o

/-- **Orders across a call.** Every order sees the event and may then expire; an order that has entered is not
filled. -/
theorem step_orders (hs : Sound s) (e : SimStep) :
    (∀ o ∈ s.orders, ∃ o' ∈ (s.step e).orders, ∃ hit,
      (hit = true → (o.models .bernoulliProportional).live = true) ∧ SameFate (seen s hit o e) o') ∧
      ∀ o' ∈ (s.step e).orders, s.placements ≤ o'.seq → ∀ m, (o'.models m).filled = false := by
  have hcall : (∀ msg, e ≠ .message msg) → (∀ hit o, seen s hit o e = o) →
      (∀ o ∈ s.orders, ∃ o' ∈ (s.step e).orders, ∃ hit,
        (hit = true → (o.models .bernoulliProportional).live = true) ∧ SameFate (seen s hit o e) o') ∧
        ∀ o' ∈ (s.step e).orders, s.placements ≤ o'.seq → ∀ m, (o'.models m).filled = false := by
    intro he hseen
    have hext := call_extends hs he
    refine ⟨fun o ho => ?_, hext.new⟩
    obtain ⟨o', ho', hsame⟩ := hext.old o ho
    exact ⟨o', ho', false, by simp, by rw [hseen]; exact hsame⟩
  cases e with
  | message msg => exact on_extends hs msg
  | placeDirected locate side ts => exact hcall (by simp) fun _ _ => rfl
  | cancelSymbol locate => exact hcall (by simp) fun _ _ => rfl

theorem seen_seq {o : SyntheticOrder} (h : o.Flagged) (hit : Bool) (e : SimStep) :
    (seen s hit o e).seq = o.seq := by
  cases e with
  | message msg => exact SameFate.see_seq h
  | _ => rfl

/-- The order with the same number has seen the event. -/
theorem step_fate (hs : Sound s) (e : SimStep) {o o' : SyntheticOrder} (ho : o ∈ s.orders)
    (ho' : o' ∈ (s.step e).orders) (hseq : o.seq = o'.seq) : ∃ hit,
      (hit = true → (o.models .bernoulliProportional).live = true) ∧ SameFate (seen s hit o e) o' := by
  obtain ⟨o'', ho'', hit, hhit, hsame⟩ := (step_orders hs e).1 o ho
  have hsound : Sound (s.step e) := sound_invariant.step hs fun _ _ => trivial
  have heq : o'' = o' := hsound.eq_of_seq_eq ho'' ho'
    ((hsame.seq.trans (seen_seq (hs.flagged o ho) hit e)).trans hseq)
  exact ⟨hit, hhit, heq ▸ hsame⟩

/-- A filled order was there before the call. -/
theorem step_old (hs : Sound s) (e : SimStep) {o' : SyntheticOrder} (ho' : o' ∈ (s.step e).orders)
    {m : QueueModel} (hfilled : (o'.models m).filled = true) : ∃ o ∈ s.orders, o.seq = o'.seq := by
  have hlt : o'.seq < s.placements := by
    by_contra hle
    rw [(step_orders hs e).2 o' ho' (not_lt.mp hle) m] at hfilled
    cases hfilled
  exact List.mem_map.mp (hs.seqs.mem_iff.mpr (List.mem_range.mpr hlt))

/-- Every order goes on. -/
theorem run_seq {P : Platform} {cfg : QueueSimConfig} {pre : List SimStep} {o : SyntheticOrder}
    (ho : o ∈ (run P cfg pre).orders) (post : List SimStep) :
    ∃ o' ∈ (run P cfg (pre ++ post)).orders, o'.seq = o.seq := by
  induction post using List.reverseRecOn with
  | nil =>
    rw [List.append_nil]
    exact ⟨o, ho, rfl⟩
  | append_singleton post e ih =>
    obtain ⟨o₁, ho₁, hseq₁⟩ := ih
    have hsound := sound_run P cfg (pre ++ post)
    obtain ⟨o₂, ho₂, hit, -, hsame⟩ := (step_orders hsound e).1 o₁ ho₁
    refine ⟨o₂, ?_, (hsame.seq.trans (seen_seq (hsound.flagged o₁ ho₁) hit e)).trans hseq₁⟩
    rw [← List.append_assoc]
    unfold run at ho₂ ⊢
    rw [Runs.run_snoc]
    exact ho₂

/-- The configuration stays. -/
theorem sameCfg (cfg : QueueSimConfig) : Invariant anyMessage fun s => s.cfg = cfg where
  clock := fun h hsame => hsame.cfg.trans h
  message := fun {s} msg _ h => by
    have hsame : (react { s with book := bookAfter s.book msg } (eventOf s.cfg s.book msg)).cfg = s.cfg := by
      cases eventOf s.cfg s.book msg <;> rfl
    rw [hsame, h]
  settle := fun _ h => h
  sweep := fun _ h => h
  retire := fun _ h => h
  push := fun _ h => h

theorem cfg_run (P : Platform) (cfg : QueueSimConfig) (es : List SimStep) : (run P cfg es).cfg = cfg :=
  (sameCfg cfg).run rfl es

end QueueSim

end Carteret
