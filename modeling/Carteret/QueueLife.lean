import Carteret.QueueArms
import Carteret.QueueOrdering

/-!
# How long a synthetic order lives

An order is retired by a sweep that runs behind the event of a message, not in front of it.

1. What fills a model of an order at an event (`strikes`, `see_model`).
2. Placements add orders and leave the others alone (`Placed`), so a step is its event, a sweep when it is due,
   and orders that have just entered (`tick_spec`).
3. While times do not decrease, an order that is live has not reached its maximum life at the last sweep
   (`Timed`). So an event that fills it too late is one at which the sweep is due (`filledInLife_iff`).
-/

namespace Carteret

/-! ## What fills a model -/

/-- When an event happens that can fill. -/
def BookEvent.time : BookEvent → UInt64
  | .execution _ _ ts => ts
  | .print _ _ ts => ts
  | _ => 0

namespace SyntheticOrder

/-- At an execution at its price the model has nothing ahead of the order. -/
def atFront (o : SyntheticOrder) (m : QueueModel) (r : Resolved) : Prop :=
  if m = .exact then r.ref ∉ o.aheadRefs else (o.models m).ahead ≤ 0

/-- The event fills the model `m`, if it is live. -/
def strikes (o : SyntheticOrder) (m : QueueModel) : BookEvent → Prop
  | .execution r _ _ => r.locate = o.locate ∧ r.side = o.side ∧
      (throughTrade r o = true ∨ r.price = o.price ∧ o.atFront m r)
  | .print locate price _ => locate = o.locate ∧ price = o.price
  | _ => False

variable {b : ReferenceBook} {ev : BookEvent} {o : SyntheticOrder} {hit : Bool} {m : QueueModel} {r : Resolved}
  {qty : Shares} {ts : UInt64}

/-- Two states of a model, filled alike. -/
structure SameFill (st st' : ModelState) : Prop where
  filled : st'.filled = st.filled
  fillTs : st'.fillTs = st.fillTs

theorem SameFill.refl (st : ModelState) : SameFill st st := ⟨rfl, rfl⟩

theorem SameFill.trans {st st' st'' : ModelState} (h : SameFill st st') (h' : SameFill st' st'') :
    SameFill st st'' := ⟨h'.filled.trans h.filled, h'.fillTs.trans h.fillTs⟩

theorem sameFill_deduct (st : ModelState) (q : ℚ) : SameFill st (st.deduct q) := ⟨rfl, rfl⟩

theorem executed_struck (hl : (o.models m).live = true) (hfront : o.atFront m r) :
    (o.executed r qty ts).models m = (o.models m).fill ts .executionBehind := by
  by_cases hm : m = .exact
  · subst hm
    have href : r.ref ∉ o.aheadRefs := by simpa [atFront] using hfront
    show (o.models .exact).executedExact r o.aheadRefs qty ts = _
    unfold ModelState.executedExact
    rw [if_pos hl, if_neg href]
  · have hahead : (o.models m).ahead ≤ 0 := by simpa [atFront, hm] using hfront
    rw [executed_of_ne hm]
    unfold ModelState.executedApproximate
    rw [if_pos hl, if_pos hahead]

theorem executed_unstruck (hfront : ¬ o.atFront m r) :
    SameFill (o.models m) ((o.executed r qty ts).models m) := by
  by_cases hm : m = .exact
  · subst hm
    have href : r.ref ∈ o.aheadRefs := by simpa [atFront] using hfront
    show SameFill _ ((o.models .exact).executedExact r o.aheadRefs qty ts)
    unfold ModelState.executedExact
    rw [if_pos href]
    split
    · exact sameFill_deduct _ _
    · exact SameFill.refl _
  · have hahead : ¬ (o.models m).ahead ≤ 0 := by simpa [atFront, hm] using hfront
    rw [executed_of_ne hm]
    unfold ModelState.executedApproximate
    rw [if_neg hahead]
    split
    · exact sameFill_deduct _ _
    · exact SameFill.refl _

/-- A cancel fills nothing. -/
theorem cancelled_sameFill (before : ℚ) : SameFill (o.models m) ((o.cancelled r qty before hit).models m) := by
  have hdeduct (p : Prop) [Decidable p] (st : ModelState) (q : ℚ) :
      SameFill st (if p then st.deduct q else st) := by
    split
    · exact sameFill_deduct st q
    · exact SameFill.refl st
  cases m with
  | conservative => exact SameFill.refl _
  | _ => exact hdeduct _ _ _

theorem fillLive_models (hl : (o.models m).live = true) (why : FillReason) :
    (o.fillLive ts why).models m = (o.models m).fill ts why := if_pos hl

/-- A live model that the event strikes is filled, -/
theorem see_struck (h : o.Flagged) (hl : (o.models m).live = true) (hs : o.strikes m ev) :
    ∃ why, (o.see b ev hit).models m = (o.models m).fill ev.time why := by
  have hany := h.anyLive hl
  cases ev with
  | execution r qty ts =>
    obtain ⟨hloc, hside, hcase⟩ := hs
    show ∃ why, (if o.locate = r.locate then o.seeExecution r qty ts else o).models m = _
    unfold seeExecution
    rw [if_pos hloc.symm, if_neg (by simp [hany, hside])]
    rcases hcase with hthrough | ⟨hprice, hfront⟩
    · rw [if_pos hthrough]
      exact ⟨_, fillLive_models hl .tradeThrough⟩
    · rw [if_neg (by rw [not_throughTrade hprice]; exact Bool.false_ne_true), if_neg (not_not.mpr hprice)]
      exact ⟨_, executed_struck hl hfront⟩
  | print locate price ts =>
    obtain ⟨rfl, rfl⟩ := hs
    show ∃ why, (if o.locate = o.locate then o.seePrint o.price ts else o).models m = _
    unfold seePrint
    rw [if_pos rfl, if_neg (by simp [hany])]
    exact ⟨_, fillLive_models hl .nonDisplayedPrint⟩
  | cancel r qty => exact hs.elim
  | quiet => exact hs.elim

/-- and one that it does not strike is not. -/
theorem see_unstruck (hs : ¬ o.strikes m ev) : SameFill (o.models m) ((o.see b ev hit).models m) := by
  cases ev with
  | execution r qty ts =>
    show SameFill _ ((if o.locate = r.locate then o.seeExecution r qty ts else o).models m)
    by_cases hloc : o.locate = r.locate
    swap
    · rw [if_neg hloc]
      exact SameFill.refl _
    unfold seeExecution
    rw [if_pos hloc]
    by_cases hlive : (!o.anyLive || o.side != r.side) = true
    · rw [if_pos hlive]
      exact SameFill.refl _
    have hside : o.side = r.side := by
      simp only [Bool.or_eq_true, not_or, bne_iff_ne, ne_eq, not_not] at hlive
      exact hlive.2
    have hnot : ¬ (throughTrade r o = true ∨ r.price = o.price ∧ o.atFront m r) := fun hc =>
      hs ⟨hloc.symm, hside.symm, hc⟩
    rw [if_neg hlive, if_neg (fun hc => hnot (.inl hc))]
    by_cases hprice : r.price = o.price
    · rw [if_neg (not_not.mpr hprice)]
      exact executed_unstruck fun hc => hnot (.inr ⟨hprice, hc⟩)
    · rw [if_pos hprice]
      exact SameFill.refl _
  | cancel r qty =>
    show SameFill _ ((if atLevelOf r o then o.cancelled r qty (cancelBefore b o qty) hit else o).models m)
    split
    · exact cancelled_sameFill _
    · exact SameFill.refl _
  | print locate price ts =>
    show SameFill _ ((if o.locate = locate then o.seePrint price ts else o).models m)
    by_cases hloc : o.locate = locate
    · have hprice : o.price ≠ price := fun hc => hs ⟨hloc.symm, hc.symm⟩
      unfold seePrint
      rw [if_pos hloc, if_pos (by simp [hprice])]
      exact SameFill.refl _
    · rw [if_neg hloc]
      exact SameFill.refl _
  | quiet => exact SameFill.refl _

/-- **An event and a model.** The model is filled at the time of the event if it is live and struck, and keeps its
fill otherwise. -/
theorem see_model (b : ReferenceBook) (ev : BookEvent) (m : QueueModel) (h : o.Flagged)
    (hhit : hit = true → (o.models .bernoulliProportional).live = true) :
    ((o.models m).live = true ∧ o.strikes m ev ∧
      ∃ why, (o.see b ev hit).models m = (o.models m).fill ev.time why) ∨
    (¬ ((o.models m).live = true ∧ o.strikes m ev) ∧ SameFill (o.models m) ((o.see b ev hit).models m)) := by
  by_cases hl : (o.models m).live = true
  · by_cases hs : o.strikes m ev
    · exact .inl ⟨hl, hs, see_struck h hl hs⟩
    · exact .inr ⟨fun hc => hs hc.2, see_unstruck hs⟩
  · refine .inr ⟨fun hc => hl hc.1, ?_⟩
    rw [see_of_not_live hhit (Bool.eq_false_iff.mpr hl)]
    exact SameFill.refl _

theorem seeSweep_sameFill (cfg : QueueSimConfig) (ts : UInt64) :
    SameFill (o.models m) ((o.seeSweep cfg ts).models m) := by
  unfold seeSweep
  split
  · show SameFill (o.models m) (if (o.models m).live then (o.models m).expire else o.models m)
    split <;> exact ⟨rfl, rfl⟩
  · exact SameFill.refl _

end SyntheticOrder

/-- Only a message that moves the clock can fill. -/
theorem eventOf_time {cfg : QueueSimConfig} {b : ReferenceBook} {msg : Message} {o : SyntheticOrder}
    {m : QueueModel} (h : o.strikes m (eventOf cfg b msg)) : tickOf msg = some (eventOf cfg b msg).time := by
  have hexec (ref : Ref) (qty : Shares) (ts : UInt64)
      (h : o.strikes m ((resolve b ref).elim .quiet fun r => .execution r qty ts)) :
      some ts = some ((resolve b ref).elim BookEvent.quiet fun r => .execution r qty ts).time := by
    cases hr : resolve b ref with
    | none => rw [hr] at h; exact h.elim
    | some r => rfl
  have hcancel (ref : Ref) (qty : Resolved → Shares) :
      ¬ o.strikes m ((resolve b ref).elim .quiet fun r => .cancel r (qty r)) := by
    cases hr : resolve b ref with
    | none => exact id
    | some r => exact id
  cases msg with
  | orderExecuted v => exact hexec _ _ _ h
  | orderExecutedPrice v => exact hexec _ _ _ h
  | orderCancel v => exact (hcancel v.orderRef (fun _ => v.cancelledShares) h).elim
  | orderDelete v => exact (hcancel v.orderRef (fun r => r.shares) h).elim
  | orderReplace v => exact (hcancel v.oldOrderRef (fun r => r.shares) h).elim
  | trade v =>
    show some (QueueSim.tsOf v.toHeader) = some (BookEvent.time (if cfg.rule4NonDisplayedFills then _ else _))
    have h' : o.strikes m (if cfg.rule4NonDisplayedFills then
      .print v.locate v.price (QueueSim.tsOf v.toHeader) else .quiet) := h
    by_cases hr : cfg.rule4NonDisplayedFills = true
    · rw [if_pos hr]
      rfl
    · rw [if_neg hr] at h'
      exact h'.elim
  | _ => exact h.elim

namespace QueueSim

variable {s s' s'' : QueueSim} {ts : UInt64}

/-! ## Placements -/

/-- Orders have entered at the time `ts`; the others and the sweeps are as they were. -/
structure Placed (ts : UInt64) (s s' : QueueSim) : Prop where
  orders : ∃ new, s'.orders = s.orders ++ new ∧
    ∀ o ∈ new, o.enteredTs = ts ∧ ∀ m, (o.models m).filled = false
  cfg : s'.cfg = s.cfg
  lastTs : s'.lastTs = s.lastTs
  lastSweep : s'.lastSweep = s.lastSweep

/-- Nothing has entered. -/
theorem Placed.of_same (horders : s'.orders = s.orders) (hcfg : s'.cfg = s.cfg) (hlast : s'.lastTs = s.lastTs)
    (hsweep : s'.lastSweep = s.lastSweep) : Placed ts s s' :=
  ⟨⟨[], by rw [horders, List.append_nil], by simp⟩, hcfg, hlast, hsweep⟩

theorem Placed.trans (h : Placed ts s s') (h' : Placed ts s' s'') : Placed ts s s'' := by
  obtain ⟨new, hnew, hfresh⟩ := h.orders
  obtain ⟨new', hnew', hfresh'⟩ := h'.orders
  refine ⟨⟨new ++ new', by rw [hnew', hnew, List.append_assoc], fun o ho => ?_⟩, h'.cfg.trans h.cfg,
    h'.lastTs.trans h.lastTs, h'.lastSweep.trans h.lastSweep⟩
  rcases List.mem_append.mp ho with ho | ho
  · exact hfresh o ho
  · exact hfresh' o ho

theorem placed_placeAt (s : QueueSim) (locate : UInt16) (side : UInt8) (ts : UInt64) :
    Placed ts s (s.placeAt locate side ts) := by
  unfold placeAt
  cases he : s.entry locate side ts with
  | none => exact Placed.of_same rfl rfl rfl rfl
  | some o =>
    obtain ⟨hent, -, -, -, hts⟩ := entry_spec he
    refine ⟨⟨[o], push_orders s o, fun o' ho' => ?_⟩, rfl, rfl, rfl⟩
    rw [List.mem_singleton.mp ho', hent.models]
    exact ⟨hts, fun _ => rfl⟩

theorem placed_place (s : QueueSim) (ts : UInt64) : Placed ts s (s.place ts) := by
  have hrefreshed : Placed ts s (if s.twoSided.isEmpty ||
      decide (s.lastTs - s.universeRefreshed > kUniverseRefreshNs) then s.refreshUniverse else s) := by
    split <;> exact Placed.of_same rfl rfl rfl rfl
  have hrng (s : QueueSim) (rng : Sampler) : Placed ts s { s with rng := rng } :=
    Placed.of_same rfl rfl rfl rfl
  unfold place
  simp only
  generalize (if s.twoSided.isEmpty ||
    decide (s.lastTs - s.universeRefreshed > kUniverseRefreshNs) then s.refreshUniverse else s) = s₁
    at hrefreshed ⊢
  split_ifs
  · exact hrefreshed.trans (Placed.of_same rfl rfl rfl rfl)
  · exact hrefreshed.trans ((hrng _ _).trans (placed_placeAt _ _ _ ts))
  · exact hrefreshed.trans ((hrng _ _).trans (placed_placeAt _ _ _ ts))
  · exact hrefreshed.trans ((hrng _ _).trans (placed_placeAt _ _ _ ts))

theorem placed_catchUp (ts : UInt64) : ∀ (n : ℕ) (s : QueueSim), Placed ts s (catchUp ts n s)
  | 0, s => by
    unfold catchUp
    split <;> exact Placed.of_same rfl rfl rfl rfl
  | n + 1, s => by
    unfold catchUp
    split
    · simp only
      refine (placed_place s ts).trans (Placed.trans ?_ (placed_catchUp ts n _))
      exact Placed.of_same rfl rfl rfl rfl
    · exact Placed.of_same rfl rfl rfl rfl

/-! ## The clock -/

/-- A sweep is due. -/
def SweepDue (s : QueueSim) (ts : UInt64) : Prop := ts - s.lastSweep ≥ kSweepNs

instance (s : QueueSim) (ts : UInt64) : Decidable (s.SweepDue ts) := inferInstanceAs (Decidable (_ ≥ _))

/-- What the clock makes of an order. -/
def seeTick (s : QueueSim) (ts : UInt64) (o : SyntheticOrder) : SyntheticOrder :=
  if s.SweepDue ts then o.seeSweep s.cfg ts else o

/-- The clock has moved, with the sweep if it was due. -/
structure Swept (ts : UInt64) (s s' : QueueSim) : Prop where
  orders : s'.orders.Perm (s.orders.map (s.seeTick ts))
  cfg : s'.cfg = s.cfg
  lastTs : s'.lastTs = ts
  lastSweep : s'.lastSweep = if s.SweepDue ts then ts else s.lastSweep

theorem swept_sweep (h : Sound s) (hts : s.lastTs = ts) : Swept ts s (s.sweep ts) := by
  unfold sweep
  by_cases hdue : s.SweepDue ts
  · have hsee : s.seeTick ts = fun o => o.seeSweep s.cfg ts := funext fun o => if_pos hdue
    have hlast : Sound { s with lastSweep := ts } := ⟨h.indexed, h.flagged, h.dead, h.seqs⟩
    refine (if_pos hdue).symm ▸ ⟨?_, rfl, hts, (if_pos hdue).symm⟩
    rw [hsee]
    exact hlast.sweep_orders ts
  · have hsee : s.seeTick ts = id := funext fun o => if_neg hdue
    refine (if_neg hdue).symm ▸ ⟨?_, rfl, hts, (if_neg hdue).symm⟩
    rw [hsee, List.map_id]

/-- A step of the clock is the sweep when it is due, then orders that enter. -/
theorem tick_spec (h : Sound s) (hle : s.lastTs ≤ ts) : ∃ s₁, Swept ts s s₁ ∧ Placed ts s₁ (s.tick ts) := by
  have hsound : Sound { s with lastTs := ts, toLedger := s.toLedger.settle s.book ts } :=
    ⟨h.indexed, h.flagged, h.dead, h.seqs⟩
  have hswept : Swept ts _ _ := swept_sweep hsound rfl
  refine ⟨_, ⟨hswept.orders, hswept.cfg, hswept.lastTs, hswept.lastSweep⟩, ?_⟩
  unfold tick
  rw [if_neg (UInt64.not_lt.mpr hle)]
  simp only
  split
  · exact placed_catchUp ts 64 _
  · exact Placed.of_same rfl rfl rfl rfl

/-! ## A message -/

/-- A message that leaves the clock alone leaves everything but the book alone. -/
theorem on_of_no_tick {msg : Message} (h : tickOf msg = none) : ∃ b, s.on msg = { s with book := b } := by
  cases msg with
  | systemEvent _ => exact ⟨_, rfl⟩
  | stockDirectory _ => exact ⟨_, rfl⟩
  | stockTradingAction _ => exact ⟨s.book, rfl⟩
  | operationalHalt _ => exact ⟨s.book, rfl⟩
  | _ => cases h

/-- What a message that moves the clock makes of an order. -/
def seeOn (s : QueueSim) (msg : Message) (ts : UInt64) (hit : Bool) (o : SyntheticOrder) : SyntheticOrder :=
  s.seeTick ts (o.see (bookAfter s.book msg) (eventOf s.cfg s.book msg) hit)

/-- A step that moves the clock. -/
structure Moved (msg : Message) (ts : UInt64) (s s' : QueueSim) : Prop where
  old : ∀ o ∈ s.orders, ∃ hit, (hit = true → (o.models .bernoulliProportional).live = true) ∧
    s.seeOn msg ts hit o ∈ s'.orders
  new : ∀ o' ∈ s'.orders,
    (∃ o ∈ s.orders, ∃ hit, (hit = true → (o.models .bernoulliProportional).live = true) ∧
      o' = s.seeOn msg ts hit o) ∨
    o'.enteredTs = ts ∧ ∀ m, (o'.models m).filled = false
  cfg : s'.cfg = s.cfg
  lastTs : s'.lastTs = ts
  lastSweep : s'.lastSweep = if s.SweepDue ts then ts else s.lastSweep

/-- Every order sees the event and then the sweep, if it is due; the others have just entered. -/
theorem moved_on (h : Sound s) {msg : Message} (htick : tickOf msg = some ts) (hle : s.lastTs ≤ ts) :
    Moved msg ts s (s.on msg) := by
  have hbook : Sound { s with book := bookAfter s.book msg } := h.withBook _
  have hreact := hbook.react_orders (eventOf s.cfg s.book msg)
  have hsound : Sound (react { s with book := bookAfter s.book msg } (eventOf s.cfg s.book msg)) :=
    sound_invariant.message msg trivial h
  rw [on_eq, htick]
  show Moved msg ts s (tick (react { s with book := bookAfter s.book msg } (eventOf s.cfg s.book msg)) ts)
  obtain ⟨s₁, heq, hcfg, hlast, hsweep⟩ : ∃ s₁ : QueueSim,
      react { s with book := bookAfter s.book msg } (eventOf s.cfg s.book msg) = s₁ ∧ s₁.cfg = s.cfg ∧
        s₁.lastTs = s.lastTs ∧ s₁.lastSweep = s.lastSweep := by
    refine ⟨_, rfl, ?_⟩
    rw [hbook.react_eq]
    exact ⟨rfl, rfl, rfl⟩
  rw [heq] at hreact hsound ⊢
  obtain ⟨s₂, hswept, hplaced⟩ := tick_spec hsound (hlast.trans_le hle)
  obtain ⟨new, horders, hfresh⟩ := hplaced.orders
  have hdue : s₁.SweepDue ts ↔ s.SweepDue ts := by
    unfold SweepDue
    rw [hsweep]
  have hsee : s₁.seeTick ts = s.seeTick ts := by
    funext o
    unfold seeTick
    rw [hcfg]
    simp only [hdue]
  have hmem : ∀ o', o' ∈ s₂.orders ↔ ∃ o ∈ s₁.orders, s.seeTick ts o = o' := fun o' => by
    rw [hswept.orders.mem_iff, List.mem_map, hsee]
  constructor
  · intro o ho
    obtain ⟨o₁, ho₁, hit, hhit, rfl⟩ := Scan.exists_right hreact ho
    refine ⟨hit, hhit, ?_⟩
    rw [horders]
    exact List.mem_append_left _ ((hmem _).mpr ⟨_, ho₁, rfl⟩)
  · intro o' ho'
    rw [horders] at ho'
    rcases List.mem_append.mp ho' with ho' | ho'
    · obtain ⟨o₁, ho₁, rfl⟩ := (hmem _).mp ho'
      obtain ⟨o, ho, hit, hhit, rfl⟩ := Scan.exists_left hreact ho₁
      exact .inl ⟨o, ho, hit, hhit, rfl⟩
    · exact .inr (hfresh o' ho')
  · rw [hplaced.cfg, hswept.cfg, hcfg]
  · rw [hplaced.lastTs, hswept.lastTs]
  · rw [hplaced.lastSweep, hswept.lastSweep, hsweep]
    simp only [hdue]

/-! ## The age of a live order -/

/-- The time of the message is not before that of the last one. -/
def OnTime (s : QueueSim) (msg : Message) : Prop := ∀ ts, tickOf msg = some ts → s.lastTs ≤ ts

/-- A live order had not outlived its maximum at the last sweep. -/
structure Timed (s : QueueSim) : Prop where
  sound : Sound s
  swept : s.lastSweep ≤ s.lastTs
  entered : ∀ o ∈ s.orders, o.anyLive = true → o.enteredTs ≤ s.lastTs
  young : ∀ o ∈ s.orders, o.anyLive = true →
    s.lastSweep.toNat ≤ o.enteredTs.toNat + s.cfg.maxLifeNs.toNat

theorem timed_init (P : Platform) (cfg : QueueSimConfig) : Timed (init P cfg) where
  sound := sound_init P cfg
  swept := UInt64.le_refl _
  entered := by simp [orders, init]
  young := by simp [orders, init]

theorem seeOn_entered {msg : Message} {hit : Bool} {o : SyntheticOrder} (h : o.Flagged) :
    (s.seeOn msg ts hit o).enteredTs = o.enteredTs := by
  have hsee : (o.see (bookAfter s.book msg) (eventOf s.cfg s.book msg) hit).enteredTs = o.enteredTs :=
    congrArg Placement.enteredTs (SyntheticOrder.placement_see h hit)
  unfold seeOn seeTick
  split
  · rw [← hsee]
    exact congrArg Placement.enteredTs (SyntheticOrder.placement_seeSweep s.cfg ts).1
  · exact hsee

/-- An order that is live after the message was live before, and not overdue if a sweep was due. -/
theorem seeOn_live {msg : Message} {hit : Bool} {o : SyntheticOrder} (h : o.Flagged)
    (hl : (s.seeOn msg ts hit o).anyLive = true) :
    o.anyLive = true ∧ (s.SweepDue ts → ¬ ts - o.enteredTs ≥ s.cfg.maxLifeNs) := by
  have hsee : (o.see (bookAfter s.book msg) (eventOf s.cfg s.book msg) hit).enteredTs = o.enteredTs :=
    congrArg Placement.enteredTs (SyntheticOrder.placement_see h hit)
  have hold : (o.see (bookAfter s.book msg) (eventOf s.cfg s.book msg) hit).anyLive = true → o.anyLive = true :=
    fun hany => by
      by_contra hdead
      rw [see_dead (Bool.eq_false_iff.mpr hdead) hit] at hany
      exact hdead hany
  unfold seeOn seeTick at hl
  by_cases hdue : s.SweepDue ts
  · rw [if_pos hdue] at hl
    unfold SyntheticOrder.seeSweep at hl
    split at hl
    · have hnone : ∀ m, ((o.see (bookAfter s.book msg) (eventOf s.cfg s.book msg) hit).expireLive.models m).live =
          false := fun m => by
        unfold SyntheticOrder.expireLive SyntheticOrder.update
        simp only
        split
        · rfl
        · exact Bool.eq_false_iff.mpr ‹_›
      exact absurd (SyntheticOrder.someLive_eq_false.mpr hnone) (ne_of_eq_of_ne hl Bool.noConfusion)
    · rename_i hnot
      refine ⟨hold hl, fun _ hover => hnot ?_⟩
      unfold SyntheticOrder.overdue
      rw [hl, Bool.true_and, decide_eq_true_iff, hsee]
      exact hover
  · rw [if_neg hdue] at hl
    exact ⟨hold hl, fun hc => absurd hc hdue⟩

theorem Timed.on (h : Timed s) {msg : Message} (hon : OnTime s msg) : Timed (s.on msg) := by
  cases htick : tickOf msg with
  | none =>
    obtain ⟨b, heq⟩ := on_of_no_tick (s := s) htick
    rw [heq]
    exact ⟨⟨h.sound.indexed, h.sound.flagged, h.sound.dead, h.sound.seqs⟩, h.swept, h.entered, h.young⟩
  | some ts =>
    have hle := hon ts htick
    have hmoved := moved_on h.sound htick hle
    have hsweep : (s.on msg).lastSweep ≤ ts := by
      rw [hmoved.lastSweep]
      split
      · exact UInt64.le_refl ts
      · exact UInt64.le_trans h.swept hle
    refine ⟨sound_invariant.on h.sound trivial, by rw [hmoved.lastTs]; exact hsweep, fun o' ho' hl => ?_,
      fun o' ho' hl => ?_⟩
    · rw [hmoved.lastTs]
      rcases hmoved.new o' ho' with ⟨o, ho, hit, -, rfl⟩ | ⟨hts, -⟩
      · rw [seeOn_entered (h.sound.flagged o ho)]
        exact UInt64.le_trans (h.entered o ho (seeOn_live (h.sound.flagged o ho) hl).1) hle
      · exact UInt64.le_of_eq hts
    · rw [hmoved.cfg]
      rcases hmoved.new o' ho' with ⟨o, ho, hit, -, rfl⟩ | ⟨hts, -⟩
      · obtain ⟨hany, hage⟩ := seeOn_live (h.sound.flagged o ho) hl
        rw [seeOn_entered (h.sound.flagged o ho), hmoved.lastSweep]
        by_cases hdue : s.SweepDue ts
        · have hentered : o.enteredTs ≤ ts := UInt64.le_trans (h.entered o ho hany) hle
          have hsub := UInt64.toNat_sub_of_le ts o.enteredTs hentered
          have hlt := UInt64.lt_iff_toNat_lt.mp (UInt64.not_le.mp (hage hdue))
          rw [if_pos hdue]
          omega
        · rw [if_neg hdue]
          exact h.young o ho hany
      · rw [hts]
        have := UInt64.le_iff_toNat_le.mp hsweep
        omega

/-- An order that has outlived its maximum by a sweep interval is one that a due sweep has still to retire. -/
theorem Timed.due (h : Timed s) (hle : s.lastTs ≤ ts) {o : SyntheticOrder} (ho : o ∈ s.orders)
    (hany : o.anyLive = true)
    (hlate : o.enteredTs.toNat + s.cfg.maxLifeNs.toNat + kSweepNs.toNat ≤ ts.toNat) : s.SweepDue ts := by
  have hyoung := h.young o ho hany
  have hsub := UInt64.toNat_sub_of_le ts s.lastSweep (UInt64.le_trans h.swept hle)
  show kSweepNs ≤ ts - s.lastSweep
  rw [UInt64.le_iff_toNat_le, hsub]
  omega

/-! ## The bound -/

/-- The time is within a maximum life and a sweep interval of the order's entry. -/
def InLife (cfg : QueueSimConfig) (o : SyntheticOrder) (ts : UInt64) : Prop :=
  ts.toNat < o.enteredTs.toNat + cfg.maxLifeNs.toNat + kSweepNs.toNat

instance (cfg : QueueSimConfig) (o : SyntheticOrder) (ts : UInt64) : Decidable (InLife cfg o ts) :=
  inferInstanceAs (Decidable (_ < _))

/-- Every fill is in the life of its order. -/
def FilledInLife (s : QueueSim) : Prop :=
  ∀ o ∈ s.orders, ∀ m, (o.models m).filled = true → InLife s.cfg o (o.models m).fillTs

/-- When a sweep is due at the message, the message strikes no live order that the sweep retires a sweep interval
too late. -/
def Spares (s : QueueSim) (msg : Message) : Prop :=
  ∀ ts, tickOf msg = some ts → s.SweepDue ts → ∀ o ∈ s.live, ∀ m, (o.models m).live = true →
    o.strikes m (eventOf s.cfg s.book msg) → InLife s.cfg o ts

theorem Sound.mem_live (h : Sound s) {o : SyntheticOrder} (ho : o ∈ s.orders) {m : QueueModel}
    (hl : (o.models m).live = true) : o ∈ s.live := by
  rcases List.mem_append.mp ho with ho' | ho'
  · have hdead := h.dead o ho'
    rw [(h.flagged o ho).anyLive hl] at hdead
    cases hdead
  · exact ho'

/-- What a message makes of a fill. -/
theorem seeOn_model (msg : Message) (ts : UInt64) {hit : Bool} {o : SyntheticOrder} (h : o.Flagged)
    (hhit : hit = true → (o.models .bernoulliProportional).live = true) (m : QueueModel) :
    ((o.models m).live = true ∧ o.strikes m (eventOf s.cfg s.book msg) ∧
      ((s.seeOn msg ts hit o).models m).filled = true ∧
      ((s.seeOn msg ts hit o).models m).fillTs = (eventOf s.cfg s.book msg).time) ∨
    (¬ ((o.models m).live = true ∧ o.strikes m (eventOf s.cfg s.book msg)) ∧
      SyntheticOrder.SameFill (o.models m) ((s.seeOn msg ts hit o).models m)) := by
  have htick (o : SyntheticOrder) : SyntheticOrder.SameFill (o.models m) ((s.seeTick ts o).models m) := by
    unfold seeTick
    split
    · exact SyntheticOrder.seeSweep_sameFill s.cfg ts
    · exact SyntheticOrder.SameFill.refl _
  have hswept := htick (o.see (bookAfter s.book msg) (eventOf s.cfg s.book msg) hit)
  rcases SyntheticOrder.see_model (bookAfter s.book msg) (eventOf s.cfg s.book msg) m h hhit with
    ⟨hl, hs, why, heq⟩ | ⟨hnot, hsame⟩
  · rw [heq] at hswept
    exact .inl ⟨hl, hs, hswept.filled, hswept.fillTs⟩
  · exact .inr ⟨hnot, hsame.trans hswept⟩

/-- **A message and the bound.** -/
theorem filledInLife_on (h : Timed s) {msg : Message} (hon : OnTime s msg) (hs : FilledInLife s) :
    FilledInLife (s.on msg) ↔ Spares s msg := by
  cases htick : tickOf msg with
  | none =>
    obtain ⟨b, heq⟩ := on_of_no_tick (s := s) htick
    refine iff_of_true ?_ fun ts hts => by rw [htick] at hts; cases hts
    rw [heq]
    exact hs
  | some ts =>
    have hle := hon ts htick
    have hmoved := moved_on h.sound htick hle
    have htime {o : SyntheticOrder} {m : QueueModel} (hst : o.strikes m (eventOf s.cfg s.book msg)) :
        (eventOf s.cfg s.book msg).time = ts := Option.some.inj ((eventOf_time hst).symm.trans htick)
    have hlife (hit : Bool) {o : SyntheticOrder} (ho : o ∈ s.orders) (t : UInt64) :
        InLife (s.on msg).cfg (s.seeOn msg ts hit o) t ↔ InLife s.cfg o t := by
      unfold InLife
      rw [hmoved.cfg, seeOn_entered (h.sound.flagged o ho)]
    constructor
    · intro hall ts' hts' _ o ho m hl hst
      obtain rfl : ts = ts' := Option.some.inj (htick.symm.trans hts')
      have ho' : o ∈ s.orders := List.mem_append_right _ ho
      obtain ⟨hit, hhit, hmem⟩ := hmoved.old o ho'
      rcases seeOn_model (s := s) msg ts (h.sound.flagged o ho') hhit m with
        ⟨-, -, hf, hfts⟩ | ⟨hnot, -⟩
      · have hin := hall _ hmem m hf
        rw [hfts, htime hst, hlife hit ho'] at hin
        exact hin
      · exact absurd ⟨hl, hst⟩ hnot
    · intro hspares o' ho' m hf
      rcases hmoved.new o' ho' with ⟨o, ho, hit, hhit, rfl⟩ | ⟨-, hnone⟩
      · rw [hlife hit ho]
        rcases seeOn_model (s := s) msg ts (h.sound.flagged o ho) hhit m with
          ⟨hl, hst, -, hfts⟩ | ⟨-, hsame⟩
        · rw [hfts, htime hst]
          -- a fill outside the order's life would find the sweep due
          by_contra hlate
          have hdue := h.due hle ho ((h.sound.flagged o ho).anyLive hl) (not_lt.mp hlate)
          exact hlate (hspares ts htick hdue o (h.sound.mem_live ho hl) m hl hst)
        · rw [hsame.filled] at hf
          rw [hsame.fillTs]
          exact hs o ho m hf
      · rw [hnone m] at hf
        cases hf

/-- The times to which the messages move the clock. -/
def timesOf (ms : List Message) : List UInt64 := ms.filterMap tickOf

/-- In a run on messages whose times do not decrease, every message is on time. -/
theorem along_onTime : ∀ {ms : List Message} {s : QueueSim}, Timed s → (∀ ts ∈ timesOf ms, s.lastTs ≤ ts) →
    (timesOf ms).Pairwise (· ≤ ·) → Runs.Along QueueSim.on OnTime s ms
  | [], _, _, _, _ => trivial
  | msg :: ms, s, h, hle, hms => by
    cases htick : tickOf msg with
    | none =>
      have hon : OnTime s msg := fun ts hts => by rw [htick] at hts; cases hts
      have htimes : timesOf (msg :: ms) = timesOf ms := List.filterMap_cons_none htick
      obtain ⟨b, heq⟩ := on_of_no_tick (s := s) htick
      rw [htimes] at hle hms
      refine ⟨hon, along_onTime (h.on hon) ?_ hms⟩
      rw [heq]
      exact hle
    | some ts =>
      have htimes : timesOf (msg :: ms) = ts :: timesOf ms := List.filterMap_cons_some htick
      rw [htimes] at hle hms
      have hon : OnTime s msg := fun ts' hts => by
        obtain rfl : ts = ts' := Option.some.inj (htick.symm.trans hts)
        exact hle ts (List.mem_cons_self ..)
      obtain ⟨hfirst, hrest⟩ := List.pairwise_cons.mp hms
      refine ⟨hon, along_onTime (h.on hon) ?_ hrest⟩
      rw [(moved_on h.sound htick (hon ts htick)).lastTs]
      exact hfirst

/-- **When the life of an order bounds its fills.** On messages whose times do not decrease, every fill of the run
comes less than the maximum life and a sweep interval behind the order's entry exactly when no message at which
a sweep is due strikes an order that is older than that. -/
theorem filledInLife_iff (P : Platform) (cfg : QueueSimConfig) {ms : List Message}
    (hms : (timesOf ms).Pairwise (· ≤ ·)) :
    (∀ pre, pre <+: ms → FilledInLife (Runs.run QueueSim.on (init P cfg) pre)) ↔
      Runs.Along QueueSim.on Spares (init P cfg) ms := by
  have htimed := timed_init P cfg
  have hon := along_onTime htimed (fun ts _ => UInt64.zero_le) hms
  refine Runs.prefixes_iff_along_of (fun s msg hon h => Timed.on h hon)
    (fun s msg hon h hs => filledInLife_on h hon hs) hon htimed ?_
  intro o ho
  cases ho

/-- One symbol and one placement, of a bid. -/
def oneBid : QueueSimConfig := { eligible := [1], forceSide := kBuy, startNs := 1, endNs := 2 }

/-- A bid, an offer and the placement behind the bid; another bid joins, the first one is executed, and at the time
`ts` the other one. -/
def executedAt (ts : BitVec 48) : List Message :=
  [.addOrder { locate := 1, ts := 0, orderRef := 1, side := kBuy, shares := 100, stock := [], price := 10 },
    .addOrder { locate := 1, ts := 0, orderRef := 2, side := kSell, shares := 100, stock := [], price := 20 },
    .brokenTrade { locate := 1, ts := 1 },
    .addOrder { locate := 1, ts := 2, orderRef := 3, side := kBuy, shares := 100, stock := [], price := 10 },
    .orderExecuted { locate := 1, ts := 3, orderRef := 1, executedShares := 100 },
    .orderExecuted { locate := 1, ts := ts, orderRef := 3, executedShares := 100 }]

theorem spares_of_not_due {msg : Message} (htick : tickOf msg = some ts) (h : ¬ s.SweepDue ts) :
    Spares s msg := by
  intro ts' hts hdue
  rw [htick] at hts
  cases hts
  exact absurd hdue h

/-- Filled in time. -/
theorem filledInLife_executedAt : (timesOf (executedAt 4)).Pairwise (· ≤ ·) ∧
    ∀ pre, pre <+: executedAt 4 → FilledInLife (Runs.run QueueSim.on (init silent oneBid) pre) := by
  have hordered : (timesOf (executedAt 4)).Pairwise (· ≤ ·) := by decide
  refine ⟨hordered, (filledInLife_iff silent oneBid hordered).mpr ?_⟩
  refine ⟨?_, ?_, ?_, ?_, ?_, ?_, trivial⟩ <;> exact spares_of_not_due rfl (by decide +kernel)

/-- When nothing happens for the life of the order and a sweep interval, the next message fills the order before
it moves the clock. -/
theorem not_filledInLife : oneBid.timerPlacement = true ∧ (timesOf (executedAt 60100000001)).Pairwise (· ≤ ·) ∧
    ∃ o ∈ (Runs.run QueueSim.on (init silent oneBid) (executedAt 60100000001)).orders,
      (o.models .exact).filled = true ∧ ¬ InLife oneBid o (o.models .exact).fillTs :=
  ⟨rfl, by decide, by decide +kernel⟩

end QueueSim

end Carteret
