import Carteret.QueueAhead

/-!
# Two arms of a run

Two simulators on the same messages whose configurations differ in rule 4 at most.

1. The book, the clock and the placement generator are the same in both arms (`Aligned`): nothing that the loops
   over the orders write is read when an order is placed.
2. A relation between the arms that every pair of parts preserves, every pair of steps preserves
   (`Pairing.step`).
3. Orders are paired by their numbers (`BySeq`). What an event makes of one model of an order depends on that
   model, on where the order was placed and, for the Bernoulli model, on the coin (`SameModel.see`).
-/

namespace Carteret

/-- The configurations differ in rule 4 at most. -/
def SameButRule4 (c d : QueueSimConfig) : Prop :=
  d = { c with rule4NonDisplayedFills := d.rule4NonDisplayedFills }

namespace QueueSim

/-! ## What the arms share -/

/-- Book, clock and placement generator are the same. -/
structure Aligned (s t : QueueSim) : Prop where
  cfg : SameButRule4 s.cfg t.cfg
  rng : t.rng = s.rng
  book : t.book = s.book
  twoSided : t.twoSided = s.twoSided
  nextPlacement : t.nextPlacement = s.nextPlacement
  lastTs : t.lastTs = s.lastTs
  universeRefreshed : t.universeRefreshed = s.universeRefreshed
  placements : t.placements = s.placements
  skipped : t.skipped = s.skipped
  overrun : t.overrun = s.overrun
  lastSweep : t.lastSweep = s.lastSweep

variable {s t s' t' : QueueSim}

/-- The same order enters in both arms. -/
theorem Aligned.entry (h : Aligned s t) (locate : UInt16) (side : UInt8) (ts : UInt64) :
    t.entry locate side ts = s.entry locate side ts := by
  have hsize : t.cfg.orderSize = s.cfg.orderSize := by rw [h.cfg]
  unfold QueueSim.entry
  rw [h.book, h.placements, hsize]

theorem Aligned.refreshUniverse (h : Aligned s t) : Aligned s.refreshUniverse t.refreshUniverse where
  cfg := h.cfg
  rng := h.rng
  book := h.book
  twoSided := by
    have heligible : t.cfg.eligible = s.cfg.eligible := by rw [h.cfg]
    unfold QueueSim.refreshUniverse
    rw [h.book, heligible]
  nextPlacement := h.nextPlacement
  lastTs := h.lastTs
  universeRefreshed := h.lastTs
  placements := h.placements
  skipped := h.skipped
  overrun := h.overrun
  lastSweep := h.lastSweep

/-- `J` is preserved by the parts of a step taken in both arms, for messages that meet `C`. -/
structure Pairing (C : QueueSim → QueueSim → Message → Prop) (J : QueueSim → QueueSim → Prop) : Prop where
  aligned : ∀ {s t}, J s t → Aligned s t
  clock : ∀ {s t s' t'}, J s t → SameOrders s s' → SameOrders t t' → Aligned s' t' → J s' t'
  message : ∀ {s t} msg, C s t msg → J s t →
    J (react { s with book := bookAfter s.book msg } (eventOf s.cfg s.book msg))
      (react { t with book := bookAfter t.book msg } (eventOf t.cfg t.book msg))
  settle : ∀ {s t} ts, J s t → J { s with toLedger := s.toLedger.settle s.book ts }
    { t with toLedger := t.toLedger.settle t.book ts }
  sweep : ∀ {s t} ts, J s t →
    J (s.visitAll (sweepVisit s.cfg ts)).compact (t.visitAll (sweepVisit t.cfg ts)).compact
  retire : ∀ {s t} locate, J s t →
    J (s.visitAt locate retireVisit).compact (t.visitAt locate retireVisit).compact
  push : ∀ {s t locate side ts o}, s.entry locate side ts = some o → J s t → J (s.push o) (t.push o)

variable {C : QueueSim → QueueSim → Message → Prop} {J : QueueSim → QueueSim → Prop}

theorem Pairing.placeAt (h : Pairing C J) (hJ : J s t) (locate : UInt16) (side : UInt8) (ts : UInt64) :
    J (s.placeAt locate side ts) (t.placeAt locate side ts) := by
  have ha := h.aligned hJ
  unfold QueueSim.placeAt
  rw [ha.entry]
  cases he : s.entry locate side ts with
  | none =>
    refine h.clock hJ ⟨rfl, rfl, rfl, rfl, rfl, rfl, rfl⟩ ⟨rfl, rfl, rfl, rfl, rfl, rfl, rfl⟩ ?_
    exact { ha with skipped := congrArg (· + 1) ha.skipped }
  | some o => exact h.push he hJ

theorem Pairing.place (h : Pairing C J) (hJ : J s t) (ts : UInt64) : J (s.place ts) (t.place ts) := by
  obtain ⟨s₁, t₁, hs₁, ht₁, hJ₁⟩ : ∃ s₁ t₁,
      (if s.twoSided.isEmpty || decide (s.lastTs - s.universeRefreshed > kUniverseRefreshNs) then
        s.refreshUniverse else s) = s₁ ∧
      (if t.twoSided.isEmpty || decide (t.lastTs - t.universeRefreshed > kUniverseRefreshNs) then
        t.refreshUniverse else t) = t₁ ∧ J s₁ t₁ := by
    refine ⟨_, _, rfl, rfl, ?_⟩
    have ha := h.aligned hJ
    rw [ha.twoSided, ha.lastTs, ha.universeRefreshed]
    split
    · exact h.clock hJ ⟨rfl, rfl, rfl, rfl, rfl, rfl, rfl⟩ ⟨rfl, rfl, rfl, rfl, rfl, rfl, rfl⟩
        ha.refreshUniverse
    · exact hJ
  have ha := h.aligned hJ₁
  have hclock (rng : Sampler) : J { s₁ with rng := rng } { t₁ with rng := rng } :=
    h.clock hJ₁ ⟨rfl, rfl, rfl, rfl, rfl, rfl, rfl⟩ ⟨rfl, rfl, rfl, rfl, rfl, rfl, rfl⟩
      { ha with rng := rfl }
  have hside : t₁.cfg.forceSide = s₁.cfg.forceSide := by rw [ha.cfg]
  have hempty : t₁.twoSided.isEmpty = s₁.twoSided.isEmpty := by rw [ha.twoSided]
  have hpick : t₁.rng.pick t₁.twoSided.length = s₁.rng.pick s₁.twoSided.length := by
    rw [ha.rng, ha.twoSided]
  have hget : t₁.twoSided.getD (s₁.rng.pick s₁.twoSided.length).1 0 =
      s₁.twoSided.getD (s₁.rng.pick s₁.twoSided.length).1 0 := by rw [ha.twoSided]
  unfold QueueSim.place
  simp only [hs₁, ht₁]
  rw [hempty, hpick, hget, hside]
  split_ifs
  · exact h.clock hJ₁ ⟨rfl, rfl, rfl, rfl, rfl, rfl, rfl⟩ ⟨rfl, rfl, rfl, rfl, rfl, rfl, rfl⟩
      { ha with skipped := congrArg (· + 1) ha.skipped }
  · exact h.placeAt (hclock _) _ _ _
  · exact h.placeAt (hclock _) _ _ _
  · exact h.placeAt (hclock _) _ _ _

theorem Pairing.catchUp (h : Pairing C J) (ts : UInt64) : ∀ (n : ℕ) {s t : QueueSim}, J s t →
    J (catchUp ts n s) (catchUp ts n t)
  | 0, s, t, hJ => by
    have ha := h.aligned hJ
    have hend : t.cfg.endNs = s.cfg.endNs := by rw [ha.cfg]
    have hmean : t.cfg.meanInterarrivalNs = s.cfg.meanInterarrivalNs := by rw [ha.cfg]
    unfold QueueSim.catchUp
    rw [ha.nextPlacement, hend, ha.rng, hmean]
    split
    · exact h.clock hJ ⟨rfl, rfl, rfl, rfl, rfl, rfl, rfl⟩ ⟨rfl, rfl, rfl, rfl, rfl, rfl, rfl⟩
        { ha with overrun := congrArg (· + 1) ha.overrun, rng := rfl, nextPlacement := rfl }
    · exact hJ
  | n + 1, s, t, hJ => by
    have ha := h.aligned hJ
    have hend : t.cfg.endNs = s.cfg.endNs := by rw [ha.cfg]
    have hplace := h.place hJ ts
    have ha' := h.aligned hplace
    have hmean : (t.place ts).cfg.meanInterarrivalNs = (s.place ts).cfg.meanInterarrivalNs := by rw [ha'.cfg]
    unfold QueueSim.catchUp
    rw [ha.nextPlacement, hend]
    split
    · refine h.catchUp ts n (h.clock hplace ⟨rfl, rfl, rfl, rfl, rfl, rfl, rfl⟩
        ⟨rfl, rfl, rfl, rfl, rfl, rfl, rfl⟩ ?_)
      rw [ha'.rng, hmean, ha'.nextPlacement]
      exact { ha' with rng := rfl, nextPlacement := rfl }
    · exact hJ

theorem Pairing.tick (h : Pairing C J) (hJ : J s t) (ts : UInt64) : J (s.tick ts) (t.tick ts) := by
  have ha := h.aligned hJ
  have hsettled : J { s with lastTs := ts, toLedger := s.toLedger.settle s.book ts }
      { t with lastTs := ts, toLedger := t.toLedger.settle t.book ts } := by
    have hJ' := h.settle ts hJ
    exact h.clock hJ' ⟨rfl, rfl, rfl, rfl, rfl, rfl, rfl⟩ ⟨rfl, rfl, rfl, rfl, rfl, rfl, rfl⟩
      { h.aligned hJ' with lastTs := rfl }
  have hswept : ∀ s t : QueueSim, J s t → J (s.sweep ts) (t.sweep ts) := by
    intro s t hJ
    have ha := h.aligned hJ
    unfold QueueSim.sweep
    rw [ha.lastSweep]
    split
    · have hlast : J { s with lastSweep := ts } { t with lastSweep := ts } :=
        h.clock hJ ⟨rfl, rfl, rfl, rfl, rfl, rfl, rfl⟩ ⟨rfl, rfl, rfl, rfl, rfl, rfl, rfl⟩
          { ha with lastSweep := rfl }
      exact h.sweep ts hlast
    · exact hJ
  unfold QueueSim.tick
  rw [ha.lastTs]
  split
  · exact hJ
  · have hJ' := hswept _ _ hsettled
    have htimer := congrArg QueueSimConfig.timerPlacement (h.aligned hJ').cfg
    simp only at htimer ⊢
    rw [htimer]
    split
    · exact h.catchUp ts 64 hJ'
    · exact hJ'

theorem Pairing.on (h : Pairing C J) (hJ : J s t) {msg : Message} (hc : C s t msg) :
    J (s.on msg) (t.on msg) := by
  rw [on_eq, on_eq]
  cases tickOf msg with
  | none => exact h.message msg hc hJ
  | some ts => exact h.tick (h.message msg hc hJ) ts

/-- What every pair of parts preserves, every pair of steps preserves. -/
theorem Pairing.step (h : Pairing C J) (hJ : J s t) {e : SimStep} (hc : ∀ msg, e = .message msg → C s t msg) :
    J (s.step e) (t.step e) := by
  cases e with
  | message msg => exact h.on hJ (hc msg rfl)
  | placeDirected locate side ts => exact h.placeAt hJ locate side ts
  | cancelSymbol locate => exact h.retire locate hJ

end QueueSim

/-! ## What an order brings from its entry -/

/-- Where and when an order was placed. -/
structure Placement where
  seq : ℕ
  locate : UInt16
  side : UInt8
  price : Price
  size : Shares
  enteredTs : UInt64
  depthAtEntry : UInt64
  levelOrdersAtEntry : UInt32
  spreadAtEntry : UInt32
  entryNodes : List RefNode

namespace SyntheticOrder

def placement (o : SyntheticOrder) : Placement where
  seq := o.seq
  locate := o.locate
  side := o.side
  price := o.price
  size := o.size
  enteredTs := o.enteredTs
  depthAtEntry := o.depthAtEntry
  levelOrdersAtEntry := o.levelOrdersAtEntry
  spreadAtEntry := o.spreadAtEntry
  entryNodes := o.entryNodes

@[simp] theorem placement_update (o : SyntheticOrder) (models : QueueModel → ModelState) (refs : Finset Ref) :
    (o.update models refs).placement = o.placement := rfl

variable {b : ReferenceBook} {ev : BookEvent} {o o' : SyntheticOrder} {hit hit' : Bool} {m : QueueModel}

theorem placement_see (h : o.Flagged) (hit : Bool) : (o.see b ev hit).placement = o.placement := by
  obtain ⟨models, refs, hsee⟩ : ∃ models refs, o.see b ev hit = o.update models refs := see_cases h hit
  rw [hsee, placement_update]

/-- The references change with the exact model only. -/
theorem see_refs_of_not_live (hl : (o.models .exact).live = false) :
    (o.see b ev hit).aheadRefs = o.aheadRefs := by
  have hrefs (r : Resolved) (qty : Shares) : o.refsAfter r qty = o.aheadRefs := by
    unfold refsAfter
    rw [if_neg fun hc => by rw [hl] at hc; cases hc.1]
  cases ev with
  | execution r qty ts =>
    unfold see seeExecution
    simp only
    split_ifs
    · rfl
    · rfl
    · rfl
    · exact hrefs r qty
    · rfl
  | cancel r qty =>
    unfold see seeCancel
    simp only
    split_ifs
    · exact hrefs r qty
    · rfl
  | print locate price ts =>
    unfold see seePrint
    simp only
    split_ifs <;> rfl
  | quiet => rfl

/-- The two orders were placed alike and the model `m` is in the same state in both. -/
structure SameModel (m : QueueModel) (o o' : SyntheticOrder) : Prop where
  placement : o'.placement = o.placement
  model : o'.models m = o.models m
  refs : m = .exact → o'.aheadRefs = o.aheadRefs

/-- **An event does the same to the same model of two orders**, given the same coin if it is the Bernoulli
model. -/
theorem SameModel.see (h : SameModel m o o') (hflag : o.Flagged) (hflag' : o'.Flagged)
    (hhit : hit = true → (o.models .bernoulliProportional).live = true)
    (hhit' : hit' = true → (o'.models .bernoulliProportional).live = true)
    (hcoin : m = .bernoulliProportional → hit' = hit) :
    SameModel m (o.see b ev hit) (o'.see b ev hit') := by
  have hplacement : (o'.see b ev hit').placement = (o.see b ev hit).placement := by
    rw [placement_see hflag, placement_see hflag', h.placement]
  cases hl : (o.models m).live with
  | false =>
    have hl' : (o'.models m).live = false := by rw [h.model, hl]
    refine ⟨hplacement, ?_, fun hm => ?_⟩
    · rw [see_of_not_live hhit hl, see_of_not_live hhit' hl', h.model]
    · subst hm
      rw [see_refs_of_not_live hl, see_refs_of_not_live hl', h.refs rfl]
  | true =>
    have hany : o.anyLive = true := hflag.anyLive hl
    have hany' : o'.anyLive = true := hflag'.anyLive (m := m) (by rw [h.model, hl])
    have hloc : o'.locate = o.locate := congrArg Placement.locate h.placement
    have hside : o'.side = o.side := congrArg Placement.side h.placement
    have hprice : o'.price = o.price := congrArg Placement.price h.placement
    have hfill (ts : UInt64) (why : FillReason) : (o'.fillLive ts why).models m = (o.fillLive ts why).models m := by
      unfold fillLive update
      simp only [h.model]
    refine ⟨hplacement, ?_, ?_⟩
    · cases ev with
      | execution r qty ts =>
        unfold SyntheticOrder.see seeExecution throughTrade
        simp only [hany, hany', hloc, hside, hprice]
        split_ifs <;> first | exact h.model | exact hfill ts .tradeThrough | skip
        all_goals
          unfold executed update
          cases m <;> simp only [h.model]
          rw [h.refs rfl]
      | cancel r qty =>
        unfold SyntheticOrder.see seeCancel atLevelOf cancelBefore
        simp only [hany, hany', hloc, hside, hprice]
        split_ifs
        · unfold cancelled update
          cases m <;> simp only [h.model]
          · rw [h.refs rfl]
          · rw [hcoin rfl]
        · exact h.model
      | print locate price ts =>
        unfold SyntheticOrder.see seePrint
        simp only [hany, hany', hloc, hprice]
        split_ifs <;> first | exact h.model | exact hfill ts .nonDisplayedPrint
      | quiet => exact h.model
    · rintro rfl
      have hrefs (r : Resolved) (qty : Shares) : o'.refsAfter r qty = o.refsAfter r qty := by
        unfold refsAfter
        rw [h.model, h.refs rfl]
      cases ev with
      | execution r qty ts =>
        unfold SyntheticOrder.see seeExecution throughTrade
        simp only [hany, hany', hloc, hside, hprice]
        split_ifs <;> first | exact h.refs rfl | exact hrefs r qty
      | cancel r qty =>
        unfold SyntheticOrder.see seeCancel atLevelOf
        simp only [hany, hany', hloc, hside, hprice]
        split_ifs
        · exact hrefs r qty
        · exact h.refs rfl
      | print locate price ts =>
        unfold SyntheticOrder.see seePrint
        simp only [hany, hany', hloc, hprice]
        split_ifs <;> exact h.refs rfl
      | quiet => exact h.refs rfl

/-! ## Expiry -/

theorem seeSweep_models (h : o.Flagged) (cfg : QueueSimConfig) (ts : UInt64) (m : QueueModel) :
    (o.seeSweep cfg ts).models m =
      if (o.models m).live = true ∧ ts - o.enteredTs ≥ cfg.maxLifeNs then (o.models m).expire
      else o.models m := by
  unfold seeSweep overdue
  cases hany : o.anyLive with
  | false => simp [h.dead hany m]
  | true =>
    by_cases hts : ts - o.enteredTs ≥ cfg.maxLifeNs
    · simp [hts, expireLive, update]
    · simp [hts]

theorem seeCancelSymbol_models (h : o.Flagged) (locate : UInt16) (m : QueueModel) :
    (QueueSim.seeCancelSymbol locate o).models m =
      if (o.models m).live = true ∧ o.locate = locate then (o.models m).expire else o.models m := by
  unfold QueueSim.seeCancelSymbol seeRetire
  cases hany : o.anyLive with
  | false => simp [h.dead hany m]
  | true =>
    by_cases hloc : o.locate = locate
    · simp [hloc, expireLive, update]
    · simp [hloc]

theorem placement_seeSweep (cfg : QueueSimConfig) (ts : UInt64) :
    (o.seeSweep cfg ts).placement = o.placement ∧ (o.seeSweep cfg ts).aheadRefs = o.aheadRefs := by
  unfold seeSweep
  split <;> exact ⟨rfl, rfl⟩

theorem placement_seeCancelSymbol (locate : UInt16) :
    (QueueSim.seeCancelSymbol locate o).placement = o.placement ∧
      (QueueSim.seeCancelSymbol locate o).aheadRefs = o.aheadRefs := by
  unfold QueueSim.seeCancelSymbol seeRetire
  split_ifs <;> exact ⟨rfl, rfl⟩

theorem SameModel.sweep (h : SameModel m o o') (hflag : o.Flagged) (hflag' : o'.Flagged)
    {cfg cfg' : QueueSimConfig} (hlife : cfg'.maxLifeNs = cfg.maxLifeNs) (ts : UInt64) :
    SameModel m (o.seeSweep cfg ts) (o'.seeSweep cfg' ts) := by
  have hentered : o'.enteredTs = o.enteredTs := congrArg Placement.enteredTs h.placement
  refine ⟨?_, ?_, fun hm => ?_⟩
  · rw [(placement_seeSweep cfg ts).1, (placement_seeSweep cfg' ts).1, h.placement]
  · rw [seeSweep_models hflag, seeSweep_models hflag', h.model, hentered, hlife]
  · rw [(placement_seeSweep cfg ts).2, (placement_seeSweep cfg' ts).2, h.refs hm]

theorem SameModel.cancelSymbol (h : SameModel m o o') (hflag : o.Flagged) (hflag' : o'.Flagged)
    (locate : UInt16) :
    SameModel m (QueueSim.seeCancelSymbol locate o) (QueueSim.seeCancelSymbol locate o') := by
  have hloc : o'.locate = o.locate := congrArg Placement.locate h.placement
  refine ⟨?_, ?_, fun hm => ?_⟩
  · rw [(placement_seeCancelSymbol locate).1, (placement_seeCancelSymbol locate).1, h.placement]
  · rw [seeCancelSymbol_models hflag, seeCancelSymbol_models hflag', h.model, hloc]
  · rw [(placement_seeCancelSymbol locate).2, (placement_seeCancelSymbol locate).2, h.refs hm]

end SyntheticOrder

namespace QueueSim

/-! ## Orders paired by their numbers -/

/-- Orders with the same number are related. -/
def BySeq (R : SyntheticOrder → SyntheticOrder → Prop) (s t : QueueSim) : Prop :=
  ∀ o ∈ s.orders, ∀ o' ∈ t.orders, o'.seq = o.seq → R o o'

variable {R : SyntheticOrder → SyntheticOrder → Prop} {s t s' t' : QueueSim}

theorem BySeq.congr (h : BySeq R s t) (hs : SameOrders s s') (ht : SameOrders t t') : BySeq R s' t' := by
  unfold BySeq orders
  rw [hs.retired, hs.live, ht.retired, ht.live]
  exact h

/-- Each order of both arms is changed, its number is not. -/
theorem BySeq.map (h : BySeq R s t) {u u' : SyntheticOrder → SyntheticOrder}
    (hs : s'.orders.Perm (s.orders.map u)) (ht : t'.orders.Perm (t.orders.map u'))
    (hu : ∀ o, (u o).seq = o.seq) (hu' : ∀ o, (u' o).seq = o.seq)
    (hR : ∀ o ∈ s.orders, ∀ o' ∈ t.orders, R o o' → R (u o) (u' o')) : BySeq R s' t' := by
  intro o₁ ho₁ o₁' ho₁' hseq
  obtain ⟨o, ho, rfl⟩ := List.mem_map.mp (hs.mem_iff.mp ho₁)
  obtain ⟨o', ho', rfl⟩ := List.mem_map.mp (ht.mem_iff.mp ho₁')
  rw [hu, hu'] at hseq
  exact hR o ho o' ho' (h o ho o' ho' hseq)

/-- The sweep changes each order of both arms. -/
theorem BySeq.sweep (h : BySeq R s t) (hs : Sound s) (ht : Sound t) (ts : UInt64)
    (hR : ∀ o o', SyntheticOrder.Flagged o → SyntheticOrder.Flagged o' → R o o' →
      R (o.seeSweep s.cfg ts) (o'.seeSweep t.cfg ts)) :
    BySeq R (s.visitAll (sweepVisit s.cfg ts)).compact (t.visitAll (sweepVisit t.cfg ts)).compact :=
  h.map (hs.sweep_orders ts) (ht.sweep_orders ts)
    (fun _ => congrArg Placement.seq (SyntheticOrder.placement_seeSweep s.cfg ts).1)
    (fun _ => congrArg Placement.seq (SyntheticOrder.placement_seeSweep t.cfg ts).1)
    fun o ho o' ho' => hR o o' (hs.flagged o ho) (ht.flagged o' ho')

/-- So does the cancelling of a symbol. -/
theorem BySeq.retire (h : BySeq R s t) (hs : Sound s) (ht : Sound t) (locate : UInt16)
    (hR : ∀ o o', SyntheticOrder.Flagged o → SyntheticOrder.Flagged o' → R o o' →
      R (seeCancelSymbol locate o) (seeCancelSymbol locate o')) :
    BySeq R (s.visitAt locate retireVisit).compact (t.visitAt locate retireVisit).compact :=
  h.map (hs.retire_orders locate) (ht.retire_orders locate)
    (fun _ => congrArg Placement.seq (SyntheticOrder.placement_seeCancelSymbol locate).1)
    (fun _ => congrArg Placement.seq (SyntheticOrder.placement_seeCancelSymbol locate).1)
    fun o ho o' ho' => hR o o' (hs.flagged o ho) (ht.flagged o' ho')

/-- The same order enters in both arms. -/
theorem BySeq.push (h : BySeq R s t) (hs : Sound s) (ht : Sound t) (ha : Aligned s t) {locate : UInt16}
    {side : UInt8} {ts : UInt64} {o : SyntheticOrder} (he : s.entry locate side ts = some o) (hR : R o o) :
    BySeq R (s.push o) (t.push o) := by
  have hseq := (entry_spec he).2.1
  intro o₁ ho₁ o₁' ho₁' heq
  rw [push_orders] at ho₁ ho₁'
  rcases List.mem_append.mp ho₁ with ho₁ | ho₁ <;> rcases List.mem_append.mp ho₁' with ho₁' | ho₁'
  · exact h o₁ ho₁ o₁' ho₁' heq
  · have hlt := hs.seq_lt ho₁
    rw [← heq, List.mem_singleton.mp ho₁', hseq] at hlt
    exact absurd hlt (lt_irrefl _)
  · have hlt := ht.seq_lt ho₁'
    rw [heq, List.mem_singleton.mp ho₁, hseq, ha.placements] at hlt
    exact absurd hlt (lt_irrefl _)
  · rw [List.mem_singleton.mp ho₁, List.mem_singleton.mp ho₁']
    exact hR

/-- What is paired before and after the placements so far. -/
theorem BySeq.exists (h : BySeq R s t) (hs : Sound s) (ht : Sound t) (ha : Aligned s t)
    {o : SyntheticOrder} (ho : o ∈ s.orders) : ∃ o' ∈ t.orders, o'.seq = o.seq ∧ R o o' := by
  have hlt := hs.seq_lt ho
  rw [← ha.placements] at hlt
  obtain ⟨o', ho', hseq⟩ := List.mem_map.mp (ht.seqs.mem_iff.mpr (List.mem_range.mpr hlt))
  exact ⟨o', ho', hseq, h o ho o' ho' hseq⟩

end QueueSim

/-! ## Rule 4 only adds fills -/

namespace SyntheticOrder

variable {b : ReferenceBook} {ev : BookEvent} {o o' : SyntheticOrder} {hit hit' : Bool} {m : QueueModel}
  {Q : ModelState → Prop}

/-- The model `m` is in the same state in both orders, or it has ended in the second one, in a state with `Q`. -/
def SameOrEnded (Q : ModelState → Prop) (m : QueueModel) (o o' : SyntheticOrder) : Prop :=
  SameModel m o o' ∨ o'.placement = o.placement ∧ Q (o'.models m) ∧ (o'.models m).live = false

theorem sameOrEnded_refl (m : QueueModel) (o : SyntheticOrder) : SameOrEnded Q m o o :=
  .inl ⟨rfl, rfl, fun _ => rfl⟩

theorem SameOrEnded.placement (h : SameOrEnded Q m o o') : o'.placement = o.placement := by
  rcases h with h | h
  · exact h.placement
  · exact h.1

/-- Both see the event, but for prints that only the second sees. -/
theorem SameOrEnded.see (hQ : ∀ (st : ModelState) (ts : UInt64), Q (st.fill ts .nonDisplayedPrint))
    (h : SameOrEnded Q m o o') (hflag : o.Flagged) (hflag' : o'.Flagged)
    (hhit : hit = true → (o.models .bernoulliProportional).live = true)
    (hhit' : hit' = true → (o'.models .bernoulliProportional).live = true) {ev' : BookEvent}
    (hev : ev' = ev ∨ ev = .quiet ∧ ∃ locate price ts, ev' = .print locate price ts)
    (hcoin : m = .bernoulliProportional → ev' = ev → SameModel m o o' → hit' = hit) :
    SameOrEnded Q m (o.see b ev hit) (o'.see b ev' hit') := by
  have hplacement : (o'.see b ev' hit').placement = (o.see b ev hit).placement := by
    rw [placement_see hflag, placement_see hflag', h.placement]
  rcases h with h | ⟨-, hq, hl⟩
  · rcases hev with rfl | ⟨rfl, locate, price, ts, rfl⟩
    · exact .inl (h.see hflag hflag' hhit hhit' fun hm => hcoin hm rfl h)
    · -- the print fills the model or leaves it alone
      show SameOrEnded Q m o (if o'.locate = locate then o'.seePrint price ts else o')
      unfold seePrint
      split_ifs
      · exact .inl h
      · cases hl : (o'.models m).live with
        | true =>
          have hfill : (o'.fillLive ts .nonDisplayedPrint).models m =
              (o'.models m).fill ts .nonDisplayedPrint := by
            unfold fillLive update
            simp only [hl, if_true]
          refine .inr ⟨h.placement, ?_, ?_⟩
          · rw [hfill]
            exact hQ _ ts
          · rw [hfill]
            rfl
        | false =>
          refine .inl ⟨h.placement, ?_, h.refs⟩
          unfold fillLive update
          simp only [hl, Bool.false_eq_true, if_false]
          exact h.model
      · exact .inl h
  · refine .inr ⟨hplacement, ?_⟩
    rw [see_of_not_live hhit' hl]
    exact ⟨hq, hl⟩

theorem SameOrEnded.sweep (h : SameOrEnded Q m o o') (hflag : o.Flagged) (hflag' : o'.Flagged)
    {cfg cfg' : QueueSimConfig} (hlife : cfg'.maxLifeNs = cfg.maxLifeNs) (ts : UInt64) :
    SameOrEnded Q m (o.seeSweep cfg ts) (o'.seeSweep cfg' ts) := by
  rcases h with h | ⟨hp, hq, hl⟩
  · exact .inl (h.sweep hflag hflag' hlife ts)
  · refine .inr ⟨?_, ?_⟩
    · rw [(placement_seeSweep cfg ts).1, (placement_seeSweep cfg' ts).1, hp]
    · rw [seeSweep_models hflag', if_neg fun hc => by rw [hl] at hc; cases hc.1]
      exact ⟨hq, hl⟩

theorem SameOrEnded.cancelSymbol (h : SameOrEnded Q m o o') (hflag : o.Flagged) (hflag' : o'.Flagged)
    (locate : UInt16) :
    SameOrEnded Q m (QueueSim.seeCancelSymbol locate o) (QueueSim.seeCancelSymbol locate o') := by
  rcases h with h | ⟨hp, hq, hl⟩
  · exact .inl (h.cancelSymbol hflag hflag' locate)
  · refine .inr ⟨?_, ?_⟩
    · rw [(placement_seeCancelSymbol locate).1, (placement_seeCancelSymbol locate).1, hp]
    · rw [seeCancelSymbol_models hflag', if_neg fun hc => by rw [hl] at hc; cases hc.1]
      exact ⟨hq, hl⟩

/-- The model `m` is in the same state in both orders, or the second has filled it. -/
def Covers (m : QueueModel) (o o' : SyntheticOrder) : Prop :=
  SameModel m o o' ∨
    o'.placement = o.placement ∧ (o'.models m).filled = true ∧ (o'.models m).live = false

theorem covers_iff : Covers m o o' ↔ SameOrEnded (fun st => st.filled = true) m o o' := Iff.rfl

theorem Covers.placement (h : Covers m o o') : o'.placement = o.placement :=
  (covers_iff.mp h).placement

theorem Covers.filled (h : Covers m o o') (hf : (o.models m).filled = true) :
    (o'.models m).filled = true := by
  rcases h with h | h
  · rw [h.model]
    exact hf
  · exact h.2.1

theorem covers_refl (m : QueueModel) (o : SyntheticOrder) : Covers m o o :=
  covers_iff.mpr (sameOrEnded_refl m o)

end SyntheticOrder

end Carteret
