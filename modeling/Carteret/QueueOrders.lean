import Carteret.QueueSim

/-!
# What a step does to one synthetic order

1. `any_live` says whether some model is live (`Flagged`); the loops keep it so.
2. Each loop body changes an order as a function of the order and the event alone (`see`), except for the
   outcome of the Bernoulli coin.
3. A handler is its event, then the clock (`QueueSim.on_eq`).
-/

namespace Carteret

namespace SyntheticOrder

/-- Some model is live. -/
def someLive (o : SyntheticOrder) : Bool := QueueModel.all.any fun m => (o.models m).live

/-- `any_live` is right. -/
def Flagged (o : SyntheticOrder) : Prop := o.anyLive = o.someLive

/-- New states of the models and a new set of references ahead; the flag follows. -/
def update (o : SyntheticOrder) (models : QueueModel → ModelState) (refs : Finset Ref) : SyntheticOrder :=
  { o with
    models := models
    aheadRefs := refs
    anyLive := QueueModel.all.any fun m => (models m).live }

theorem someLive_iff {o : SyntheticOrder} : o.someLive = true ↔ ∃ m, (o.models m).live = true := by
  simp [someLive, QueueModel.mem_all]

theorem someLive_eq_false {o : SyntheticOrder} : o.someLive = false ↔ ∀ m, (o.models m).live = false := by
  simp [someLive, QueueModel.mem_all]

variable {o : SyntheticOrder}

theorem update_self (h : o.Flagged) : o.update o.models o.aheadRefs = o := by
  cases o
  unfold Flagged at h
  simp only [update, mk.injEq, true_and, and_true]
  exact h.symm

theorem flagged_update (models : QueueModel → ModelState) (refs : Finset Ref) :
    (o.update models refs).Flagged := rfl

theorem update_update (models models' : QueueModel → ModelState) (refs refs' : Finset Ref) :
    (o.update models refs).update models' refs' = o.update models' refs' := rfl

theorem Flagged.dead (h : o.Flagged) (hdead : o.anyLive = false) (m : QueueModel) :
    (o.models m).live = false := someLive_eq_false.mp (h.symm.trans hdead) m

/-- Writing a model of a flagged order that stays as live as it was. -/
theorem setModel_eq (h : o.Flagged) (m : QueueModel) (st : ModelState) (hl : st.live = (o.models m).live) :
    o.setModel m st = o.update (Function.update o.models m st) o.aheadRefs := by
  have hlive : ∀ k, (Function.update o.models m st k).live = (o.models k).live := by
    intro k
    by_cases hk : k = m
    · subst hk
      rw [Function.update_self, hl]
    · rw [Function.update_of_ne hk]
  have hflag : o.anyLive = QueueModel.all.any fun k => (Function.update o.models m st k).live := by
    rw [h]
    simp only [hlive]
    rfl
  unfold setModel update
  rw [← hflag]

/-- Closing a model of a live order. -/
theorem refreshLive_eq (h : o.anyLive = true) : o.refreshLive = o.update o.models o.aheadRefs := by
  unfold refreshLive update
  cases hl : QueueModel.all.any fun m => (o.models m).live with
  | true => rw [if_pos rfl, ← h]
  | false => rw [if_neg (by simp)]

theorem refreshLive_flagged (h : o.Flagged) : o.refreshLive = o := by
  unfold refreshLive
  split
  · rfl
  · rename_i hnone
    have hfalse : o.anyLive = false := h.trans (Bool.eq_false_iff.mpr hnone)
    cases o
    simp only at hfalse
    rw [hfalse]

end SyntheticOrder

/-! ## Loops over the models -/

section

variable {g : QueueModel → Visit} {u : QueueModel → ModelState → ModelState}

/-- A loop over models whose body writes one model. -/
theorem foldl_models
    (hg : ∀ m L o, o.Flagged →
      (g m L o).2 = o.update (Function.update o.models m (u m (o.models m))) o.aheadRefs) :
    ∀ (ms : List QueueModel), ms.Nodup → ∀ {L : Ledger} {o : SyntheticOrder}, o.Flagged →
      (ms.foldl (fun p m => g m p.1 p.2) (L, o)).2 =
        o.update (fun m => if m ∈ ms then u m (o.models m) else o.models m) o.aheadRefs
  | [], _, L, o, h => by
    simp only [List.foldl_nil, List.not_mem_nil, if_false]
    exact (SyntheticOrder.update_self h).symm
  | m :: ms, hnd, L, o, h => by
    obtain ⟨hnot, hnd'⟩ := List.nodup_cons.mp hnd
    have hone := hg m L o h
    have hrest := foldl_models hg ms hnd' (L := (g m L o).1) (o := (g m L o).2)
      (by rw [hone]; exact SyntheticOrder.flagged_update _ _)
    rw [List.foldl_cons]
    refine hrest.trans ?_
    rw [hone, SyntheticOrder.update_update]
    congr 1
    funext k
    by_cases hk : k = m
    · subst hk
      simp [SyntheticOrder.update, hnot]
    · simp [SyntheticOrder.update, hk]

end

theorem fill_order (cfg : QueueSimConfig) (m : QueueModel) (ts : UInt64) (why : FillReason) (L : Ledger)
    {o : SyntheticOrder} (h : o.Flagged) :
    (fill cfg m ts why L o).2 = o.update
      (Function.update o.models m (if (o.models m).live then (o.models m).fill ts why else o.models m))
      o.aheadRefs := by
  unfold fill
  cases hl : (o.models m).live with
  | true =>
    have hany : o.anyLive = true := h.trans (SyntheticOrder.someLive_iff.mpr ⟨m, hl⟩)
    exact SyntheticOrder.refreshLive_eq (o := o.setModel m ((o.models m).fill ts why)) hany
  | false =>
    simp only [Bool.false_eq_true, if_false, Function.update_eq_self]
    exact (SyntheticOrder.update_self h).symm

namespace SyntheticOrder

/-- All live models fill. -/
def fillLive (o : SyntheticOrder) (ts : UInt64) (why : FillReason) : SyntheticOrder :=
  o.update (fun m => if (o.models m).live then (o.models m).fill ts why else o.models m) o.aheadRefs

/-- All live models expire. -/
def expireLive (o : SyntheticOrder) : SyntheticOrder :=
  o.update (fun m => if (o.models m).live then (o.models m).expire else o.models m) o.aheadRefs

end SyntheticOrder

theorem fillAllLive_order (cfg : QueueSimConfig) (ts : UInt64) (why : FillReason) (L : Ledger)
    {o : SyntheticOrder} (h : o.Flagged) : (fillAllLive cfg ts why L o).2 = o.fillLive ts why := by
  have hfold := foldl_models (g := fun m => fill cfg m ts why)
    (u := fun _ st => if st.live then st.fill ts why else st)
    (fun m L o h => fill_order cfg m ts why L h) QueueModel.all QueueModel.nodup_all (L := L) h
  simp only [QueueModel.mem_all, if_true] at hfold
  exact hfold

theorem foldl_expire : ∀ {ms : List QueueModel} {L : Ledger} {o : SyntheticOrder},
    (ms.foldl (fun (p : Ledger × SyntheticOrder) m =>
      if (p.2.models m).live then
        (p.1.setRes m fun r => { r with reasons := addTo r.reasons .expired 1 },
          p.2.setModel m (p.2.models m).expire)
      else p) (L, o)).2 =
    { o with models := fun m => if m ∈ ms ∧ (o.models m).live then (o.models m).expire else o.models m }
  | [], L, o => by simp
  | m :: ms, L, o => by
    rw [List.foldl_cons]
    by_cases hl : (o.models m).live
    · simp only [hl, if_true]
      rw [foldl_expire]
      simp only [SyntheticOrder.setModel, SyntheticOrder.mk.injEq, true_and, and_true]
      funext k
      by_cases hk : k = m
      · subst hk
        simp [hl, ModelState.expire]
      · simp [hk]
    · simp only [hl, Bool.false_eq_true, if_false]
      rw [foldl_expire]
      simp only [SyntheticOrder.mk.injEq, true_and, and_true]
      funext k
      by_cases hk : k = m
      · subst hk
        simp [hl]
      · simp [hk]

theorem expire_order (L : Ledger) (o : SyntheticOrder) : (expire L o).2 = o.expireLive := by
  unfold expire SyntheticOrder.expireLive SyntheticOrder.update
  simp only [foldl_expire, QueueModel.mem_all, true_and, SyntheticOrder.mk.injEq, and_true]
  symm
  apply List.any_eq_false.mpr
  intro m _
  by_cases hl : (o.models m).live
  · simp [hl, ModelState.expire]
  · simp [hl]

/-! ## Executions -/

namespace ModelState

/-- The exact model at an execution at the order's price. -/
def executedExact (s : ModelState) (r : Resolved) (refs : Finset Ref) (qty : Shares) (ts : UInt64) :
    ModelState :=
  if s.live then if r.ref ∈ refs then s.deduct qty.toNat else s.fill ts .executionBehind else s

/-- Another model at an execution at the order's price. -/
def executedApproximate (s : ModelState) (qty : Shares) (ts : UInt64) : ModelState :=
  if s.live then if s.ahead ≤ 0 then s.fill ts .executionBehind else s.deduct qty.toNat else s

@[simp] theorem live_deduct (s : ModelState) (q : ℚ) : (s.deduct q).live = s.live := rfl

@[simp] theorem live_fill (s : ModelState) (ts : UInt64) (why : FillReason) :
    (s.fill ts why).live = false := rfl

@[simp] theorem live_expire (s : ModelState) : s.expire.live = false := rfl

end ModelState

namespace SyntheticOrder

/-- The references ahead when `qty` shares of the real order go. -/
def refsAfter (o : SyntheticOrder) (r : Resolved) (qty : Shares) : Finset Ref :=
  if (o.models .exact).live ∧ r.ref ∈ o.aheadRefs ∧ qty ≥ r.shares then o.aheadRefs.erase r.ref
  else o.aheadRefs

/-- An execution at the order's price. -/
def executed (o : SyntheticOrder) (r : Resolved) (qty : Shares) (ts : UInt64) : SyntheticOrder :=
  o.update
    (fun m => match m with
      | .exact => (o.models .exact).executedExact r o.aheadRefs qty ts
      | m => (o.models m).executedApproximate qty ts)
    (o.refsAfter r qty)

/-- An execution on the order's symbol. -/
def seeExecution (o : SyntheticOrder) (r : Resolved) (qty : Shares) (ts : UInt64) : SyntheticOrder :=
  if !o.anyLive || o.side != r.side then o
  else if throughTrade r o then o.fillLive ts .tradeThrough
  else if r.price ≠ o.price then o
  else o.executed r qty ts

end SyntheticOrder

theorem executeExact_order (cfg : QueueSimConfig) (r : Resolved) (qty : Shares) (ts : UInt64) (L : Ledger)
    {o : SyntheticOrder} (h : o.Flagged) :
    (executeExact cfg r qty ts L o).2 = o.update
      (Function.update o.models .exact ((o.models .exact).executedExact r o.aheadRefs qty ts))
      (o.refsAfter r qty) := by
  unfold executeExact ModelState.executedExact SyntheticOrder.refsAfter
  cases hl : (o.models .exact).live with
  | false =>
    simp only [Bool.false_eq_true, if_false, false_and, Function.update_eq_self]
    exact (SyntheticOrder.update_self h).symm
  | true =>
    by_cases hr : r.ref ∈ o.aheadRefs
    · have hset := SyntheticOrder.setModel_eq h .exact
        ((o.models .exact).deduct qty.toNat) rfl
      simp only [if_true, hr, true_and]
      rw [hset]
      split <;> rfl
    · simp only [if_true, hr, if_false, false_and, and_false]
      rw [fill_order cfg .exact ts .executionBehind L h, hl, if_pos rfl]

theorem executeApproximate_order (cfg : QueueSimConfig) (qty : Shares) (ts : UInt64) (m : QueueModel)
    (L : Ledger) {o : SyntheticOrder} (h : o.Flagged) :
    (executeApproximate cfg qty ts m L o).2 = o.update
      (Function.update o.models m ((o.models m).executedApproximate qty ts)) o.aheadRefs := by
  unfold executeApproximate ModelState.executedApproximate
  cases hl : (o.models m).live with
  | false =>
    simp only [Bool.false_eq_true, if_false, Function.update_eq_self]
    exact (SyntheticOrder.update_self h).symm
  | true =>
    by_cases ha : (o.models m).ahead ≤ 0
    · simp only [if_true, ha]
      rw [fill_order cfg m ts .executionBehind L h, hl, if_pos rfl]
    · simp only [if_true, ha, if_false]
      exact SyntheticOrder.setModel_eq h _ _ rfl

theorem executionVisit_order (cfg : QueueSimConfig) (r : Resolved) (qty : Shares) (ts : UInt64) (L : Ledger)
    {o : SyntheticOrder} (h : o.Flagged) :
    (executionVisit cfg r qty ts L o).2 = o.seeExecution r qty ts := by
  unfold executionVisit SyntheticOrder.seeExecution
  by_cases h0 : (!o.anyLive || o.side != r.side) = true
  · rw [if_pos h0, if_pos h0]
  rw [if_neg h0, if_neg h0]
  by_cases h1 : throughTrade r o = true
  · rw [if_pos h1, if_pos h1]
    exact fillAllLive_order cfg ts .tradeThrough L h
  rw [if_neg h1, if_neg h1]
  by_cases h2 : r.price ≠ o.price
  · rw [if_pos h2, if_pos h2]
  rw [if_neg h2, if_neg h2]
  have hexact := executeExact_order cfg r qty ts L h
  have hfold := foldl_models (g := fun m => executeApproximate cfg qty ts m)
    (u := fun _ st => st.executedApproximate qty ts)
    (fun m L o h => executeApproximate_order cfg qty ts m L h)
    QueueModel.approximations (by decide) (L := (executeExact cfg r qty ts L o).1)
    (o := (executeExact cfg r qty ts L o).2)
    (by rw [hexact]; exact SyntheticOrder.flagged_update _ _)
  simp only
  rw [hfold, SyntheticOrder.refreshLive_flagged (SyntheticOrder.flagged_update _ _), hexact,
    SyntheticOrder.update_update]
  unfold SyntheticOrder.executed
  congr 1
  funext m
  cases m <;> simp [QueueModel.approximations, SyntheticOrder.update]

/-! ## Cancels -/

namespace SyntheticOrder

/-- A cancel at the order's price, with the denominator and the outcome of the coin. -/
def cancelled (o : SyntheticOrder) (r : Resolved) (qty : Shares) (before : ℚ) (hit : Bool) :
    SyntheticOrder :=
  o.update
    (fun m => match m with
      | .exact =>
        if (o.models .exact).live ∧ r.ref ∈ o.aheadRefs then (o.models .exact).deduct qty.toNat
        else o.models .exact
      | .conservative => o.models .conservative
      | .optimistic =>
        if (o.models .optimistic).live then (o.models .optimistic).deduct qty.toNat
        else o.models .optimistic
      | .proportional =>
        if (o.models .proportional).live ∧ before > 0 then
          (o.models .proportional).deduct (qty.toNat * ((o.models .proportional).ahead / before))
        else o.models .proportional
      | .bernoulliProportional =>
        if hit then (o.models .bernoulliProportional).deduct qty.toNat
        else o.models .bernoulliProportional)
    (o.refsAfter r qty)

/-- A cancel. -/
def seeCancel (o : SyntheticOrder) (b : ReferenceBook) (r : Resolved) (qty : Shares) (hit : Bool) :
    SyntheticOrder :=
  if atLevelOf r o then o.cancelled r qty (cancelBefore b o qty) hit else o

end SyntheticOrder

theorem cancelExact_order (r : Resolved) (qty : Shares) {o : SyntheticOrder} (h : o.Flagged) :
    cancelExact r qty o = o.update
      (Function.update o.models .exact
        (if (o.models .exact).live ∧ r.ref ∈ o.aheadRefs then (o.models .exact).deduct qty.toNat
          else o.models .exact)) (o.refsAfter r qty) := by
  unfold cancelExact SyntheticOrder.refsAfter
  by_cases hc : (o.models .exact).live ∧ r.ref ∈ o.aheadRefs
  · have hset := SyntheticOrder.setModel_eq h .exact ((o.models .exact).deduct qty.toNat) rfl
    simp only [if_pos hc]
    by_cases hq : qty ≥ r.shares
    · rw [if_pos hq, if_pos ⟨hc.1, hc.2, hq⟩, hset]
      rfl
    · rw [if_neg hq, if_neg (fun h3 => hq h3.2.2), hset]
  · rw [if_neg hc, if_neg hc, if_neg (fun h3 => hc ⟨h3.1, h3.2.1⟩), Function.update_eq_self]
    exact (SyntheticOrder.update_self h).symm

theorem cancelOptimistic_order (qty : Shares) {o : SyntheticOrder} (h : o.Flagged) :
    cancelOptimistic qty o = o.update
      (Function.update o.models .optimistic
        (if (o.models .optimistic).live then (o.models .optimistic).deduct qty.toNat
          else o.models .optimistic)) o.aheadRefs := by
  unfold cancelOptimistic
  split
  · exact SyntheticOrder.setModel_eq h _ _ rfl
  · rw [Function.update_eq_self]
    exact (SyntheticOrder.update_self h).symm

theorem cancelProportional_order (qty : Shares) (before : ℚ) {o : SyntheticOrder} (h : o.Flagged) :
    cancelProportional qty before o = o.update
      (Function.update o.models .proportional
        (if (o.models .proportional).live ∧ before > 0 then
          (o.models .proportional).deduct (qty.toNat * ((o.models .proportional).ahead / before))
        else o.models .proportional)) o.aheadRefs := by
  unfold cancelProportional
  split
  · exact SyntheticOrder.setModel_eq h _ _ rfl
  · rw [Function.update_eq_self]
    exact (SyntheticOrder.update_self h).symm

theorem cancelBernoulli_order (qty : Shares) (hit : Bool) {o : SyntheticOrder} (h : o.Flagged) :
    cancelBernoulli qty hit o = o.update
      (Function.update o.models .bernoulliProportional
        (if hit then (o.models .bernoulliProportional).deduct qty.toNat
          else o.models .bernoulliProportional)) o.aheadRefs := by
  unfold cancelBernoulli
  split
  · exact SyntheticOrder.setModel_eq h _ _ rfl
  · rw [Function.update_eq_self]
    exact (SyntheticOrder.update_self h).symm

/-- The order before the coin is thrown, after the exact, optimistic and proportional models. -/
theorem cancel_order (r : Resolved) (qty : Shares) (before : ℚ) (hit : Bool) {o : SyntheticOrder}
    (h : o.Flagged) :
    cancelBernoulli qty hit (cancelProportional qty before (cancelOptimistic qty (cancelExact r qty o))) =
      o.cancelled r qty before hit := by
  rw [cancelExact_order r qty h, cancelOptimistic_order qty (SyntheticOrder.flagged_update _ _),
    SyntheticOrder.update_update, cancelProportional_order qty before (SyntheticOrder.flagged_update _ _),
    SyntheticOrder.update_update, cancelBernoulli_order qty hit (SyntheticOrder.flagged_update _ _),
    SyntheticOrder.update_update]
  unfold SyntheticOrder.cancelled
  congr 1
  funext m
  cases m <;> simp [SyntheticOrder.update]

/-- The coin is thrown on the order's own state before the message. -/
theorem cancelCoin_eq (r : Resolved) (qty : Shares) (before : ℚ) (rng : Sampler) {o : SyntheticOrder}
    (h : o.Flagged) :
    cancelCoin before rng (cancelProportional qty before (cancelOptimistic qty (cancelExact r qty o))) =
      cancelCoin before rng o := by
  rw [cancelExact_order r qty h, cancelOptimistic_order qty (SyntheticOrder.flagged_update _ _),
    SyntheticOrder.update_update, cancelProportional_order qty before (SyntheticOrder.flagged_update _ _),
    SyntheticOrder.update_update]
  unfold cancelCoin
  simp [SyntheticOrder.update]

theorem cancelVisit_eq (b : ReferenceBook) (r : Resolved) (qty : Shares) (L : Ledger) {o : SyntheticOrder}
    (h : o.Flagged) (hat : atLevelOf r o = true) :
    (cancelVisit b r qty L o).2 = o.cancelled r qty (cancelBefore b o qty)
        (cancelCoin (cancelBefore b o qty) L.bernRng o).1 ∧
      (cancelVisit b r qty L o).1.bernRng = (cancelCoin (cancelBefore b o qty) L.bernRng o).2 := by
  unfold cancelVisit
  rw [if_neg (by simp [hat])]
  have hrng : ∀ (o' : SyntheticOrder) (w : Bool),
      (if cancelBefore b o qty > 0 then
        L.attributeCancel o' w qty.toNat (cancelBefore b o qty) else L).bernRng = L.bernRng := by
    intro o' w
    split <;> rfl
  simp only [hrng, cancelCoin_eq r qty _ _ h, cancel_order r qty _ _ h, and_self]

theorem cancelVisit_order (b : ReferenceBook) (r : Resolved) (qty : Shares) (L : Ledger)
    {o : SyntheticOrder} (h : o.Flagged) :
    (cancelVisit b r qty L o).2 =
      o.seeCancel b r qty (cancelCoin (cancelBefore b o qty) L.bernRng o).1 := by
  unfold SyntheticOrder.seeCancel
  cases hat : atLevelOf r o with
  | true => exact (cancelVisit_eq b r qty L h hat).1
  | false =>
    unfold cancelVisit
    simp [hat]

/-! ## Prints, the sweep, cancellation from outside -/

namespace SyntheticOrder

/-- A non-displayed print, with rule 4. -/
def seePrint (o : SyntheticOrder) (price : Price) (ts : UInt64) : SyntheticOrder :=
  if !o.anyLive || o.price != price then o else o.fillLive ts .nonDisplayedPrint

/-- The order has reached its maximum life. -/
def overdue (o : SyntheticOrder) (cfg : QueueSimConfig) (ts : UInt64) : Bool :=
  o.anyLive && decide (ts - o.enteredTs ≥ cfg.maxLifeNs)

def seeSweep (o : SyntheticOrder) (cfg : QueueSimConfig) (ts : UInt64) : SyntheticOrder :=
  if o.overdue cfg ts then o.expireLive else o

def seeRetire (o : SyntheticOrder) : SyntheticOrder := if o.anyLive then o.expireLive else o

end SyntheticOrder

theorem printVisit_order (cfg : QueueSimConfig) (price : Price) (ts : UInt64) (L : Ledger)
    {o : SyntheticOrder} (h : o.Flagged) : (printVisit cfg price ts L o).2 = o.seePrint price ts := by
  unfold printVisit SyntheticOrder.seePrint
  split
  · rfl
  · exact fillAllLive_order cfg ts .nonDisplayedPrint L h

theorem sweepVisit_order (cfg : QueueSimConfig) (ts : UInt64) (L : Ledger) (o : SyntheticOrder) :
    (sweepVisit cfg ts L o).2 = o.seeSweep cfg ts := by
  unfold sweepVisit SyntheticOrder.seeSweep SyntheticOrder.overdue
  split
  · exact expire_order L o
  · rfl

theorem retireVisit_order (L : Ledger) (o : SyntheticOrder) : (retireVisit L o).2 = o.seeRetire := by
  unfold retireVisit SyntheticOrder.seeRetire
  split
  · exact expire_order L o
  · rfl

/-! ## Events -/

/-- What a message means for the synthetic orders. -/
inductive BookEvent
  | execution (r : Resolved) (qty : Shares) (ts : UInt64)
  | cancel (r : Resolved) (qty : Shares)
  | print (locate : UInt16) (price : Price) (ts : UInt64)
  | quiet

/-- Resolved against the book before the message. -/
def eventOf (cfg : QueueSimConfig) (b : ReferenceBook) : Message → BookEvent
  | .orderExecuted v =>
    (resolve b v.orderRef).elim .quiet fun r => .execution r v.executedShares (QueueSim.tsOf v.toHeader)
  | .orderExecutedPrice v =>
    (resolve b v.orderRef).elim .quiet fun r => .execution r v.executedShares (QueueSim.tsOf v.toHeader)
  | .orderCancel v => (resolve b v.orderRef).elim .quiet fun r => .cancel r v.cancelledShares
  | .orderDelete v => (resolve b v.orderRef).elim .quiet fun r => .cancel r r.shares
  | .orderReplace v => (resolve b v.oldOrderRef).elim .quiet fun r => .cancel r r.shares
  | .trade v =>
    if cfg.rule4NonDisplayedFills then .print v.locate v.price (QueueSim.tsOf v.toHeader) else .quiet
  | _ => .quiet

/-- The messages that the simulator hands to its book. -/
def reachesBook : Message → Bool
  | .trade _ | .crossTrade _ | .brokenTrade _ | .stockTradingAction _ | .operationalHalt _ => false
  | _ => true

/-- The time to which a message moves the clock. -/
def tickOf : Message → Option UInt64
  | .addOrder v => some (QueueSim.tsOf v.toHeader)
  | .addOrderMpid v => some (QueueSim.tsOf v.toHeader)
  | .orderExecuted v => some (QueueSim.tsOf v.toHeader)
  | .orderExecutedPrice v => some (QueueSim.tsOf v.toHeader)
  | .orderCancel v => some (QueueSim.tsOf v.toHeader)
  | .orderDelete v => some (QueueSim.tsOf v.toHeader)
  | .orderReplace v => some (QueueSim.tsOf v.toHeader)
  | .trade v => some (QueueSim.tsOf v.toHeader)
  | .crossTrade v => some (QueueSim.tsOf v.toHeader)
  | .brokenTrade v => some (QueueSim.tsOf v)
  | _ => none

/-- The book after a message. -/
def bookAfter (b : ReferenceBook) (msg : Message) : ReferenceBook :=
  if reachesBook msg then b.on msg else b

namespace QueueSim

/-- The loop for an event. -/
def react (s : QueueSim) : BookEvent → QueueSim
  | .execution r qty ts => s.onExecution r qty ts
  | .cancel r qty => s.onCancel r qty
  | .print locate price ts => s.visitAt locate (printVisit s.cfg price ts)
  | .quiet => s

/-- A handler is its event, then the clock. -/
theorem on_eq (s : QueueSim) (msg : Message) :
    s.on msg = (tickOf msg).elim id (fun ts s => s.tick ts)
      (react { s with book := bookAfter s.book msg } (eventOf s.cfg s.book msg)) := by
  cases msg with
  | orderExecuted v => simp only [on, eventOf]; cases resolve s.book v.orderRef <;> rfl
  | orderExecutedPrice v => simp only [on, eventOf]; cases resolve s.book v.orderRef <;> rfl
  | orderCancel v => simp only [on, eventOf]; cases resolve s.book v.orderRef <;> rfl
  | orderDelete v => simp only [on, eventOf]; cases resolve s.book v.orderRef <;> rfl
  | orderReplace v => simp only [on, eventOf]; cases resolve s.book v.oldOrderRef <;> rfl
  | trade v =>
    simp only [on, eventOf]
    split <;> rfl
  | _ => rfl

end QueueSim

namespace SyntheticOrder

/-- What an order makes of an event; `b` is the book after the message. -/
def see (o : SyntheticOrder) (b : ReferenceBook) (ev : BookEvent) (hit : Bool) : SyntheticOrder :=
  match ev with
  | .execution r qty ts => if o.locate = r.locate then o.seeExecution r qty ts else o
  | .cancel r qty => o.seeCancel b r qty hit
  | .print locate price ts => if o.locate = locate then o.seePrint price ts else o
  | .quiet => o

end SyntheticOrder

/-- What the loop for an event does at any order. -/
def visitOf (cfg : QueueSimConfig) (b : ReferenceBook) : BookEvent → Visit
  | .execution r qty ts => fun L o => if o.locate == r.locate then executionVisit cfg r qty ts L o else (L, o)
  | .cancel r qty => cancelVisit b r qty
  | .print locate price ts => fun L o => if o.locate == locate then printVisit cfg price ts L o else (L, o)
  | .quiet => fun L o => (L, o)

/-- The coin that an order throws at an event. -/
def coinOf (b : ReferenceBook) (ev : BookEvent) (rng : Sampler) (o : SyntheticOrder) : Bool × Sampler :=
  match ev with
  | .cancel r qty => if atLevelOf r o then cancelCoin (cancelBefore b o qty) rng o else (false, rng)
  | _ => (false, rng)

section

variable {cfg : QueueSimConfig} {b : ReferenceBook} {ev : BookEvent} {L : Ledger} {o : SyntheticOrder}

theorem visitOf_order (h : o.Flagged) :
    (visitOf cfg b ev L o).2 = o.see b ev (coinOf b ev L.bernRng o).1 := by
  unfold visitOf SyntheticOrder.see coinOf
  cases ev with
  | execution r qty ts =>
    by_cases hl : o.locate = r.locate
    · simp only [hl, beq_self_eq_true, if_true]
      exact executionVisit_order cfg r qty ts L h
    · simp [hl]
  | cancel r qty =>
    simp only
    rw [cancelVisit_order b r qty L h]
    unfold SyntheticOrder.seeCancel
    split <;> rfl
  | print locate price ts =>
    by_cases hl : o.locate = locate
    · simp only [hl, beq_self_eq_true, if_true]
      exact printVisit_order cfg price ts L h
    · simp [hl]
  | quiet => rfl

theorem see_dead (h : o.anyLive = false) (hit : Bool) : o.see b ev hit = o := by
  unfold SyntheticOrder.see SyntheticOrder.seeExecution SyntheticOrder.seeCancel SyntheticOrder.seePrint
    atLevelOf
  cases ev <;> simp [h]

theorem seeSweep_dead (h : o.anyLive = false) (ts : UInt64) : o.seeSweep cfg ts = o := by
  unfold SyntheticOrder.seeSweep SyntheticOrder.overdue
  simp [h]

theorem seeRetire_dead (h : o.anyLive = false) : o.seeRetire = o := by
  unfold SyntheticOrder.seeRetire
  simp [h]

/-- An event leaves the order as it was or gives its models new states. -/
theorem see_cases (h : o.Flagged) (hit : Bool) :
    ∃ models refs, o.see b ev hit = o.update models refs := by
  have hself : ∃ models refs, o = o.update models refs := ⟨_, _, (SyntheticOrder.update_self h).symm⟩
  unfold SyntheticOrder.see
  cases ev with
  | execution r qty ts =>
    simp only
    split_ifs
    · unfold SyntheticOrder.seeExecution
      split_ifs
      · exact hself
      · exact ⟨_, _, rfl⟩
      · exact hself
      · exact ⟨_, _, rfl⟩
    · exact hself
  | cancel r qty =>
    simp only
    unfold SyntheticOrder.seeCancel
    split_ifs
    · exact ⟨_, _, rfl⟩
    · exact hself
  | print locate price ts =>
    simp only
    split_ifs
    · unfold SyntheticOrder.seePrint
      split_ifs
      · exact hself
      · exact ⟨_, _, rfl⟩
    · exact hself
  | quiet => exact hself

theorem see_flagged (h : o.Flagged) (hit : Bool) : (o.see b ev hit).Flagged := by
  have hcases : ∃ models refs, o.see b ev hit = o.update models refs := see_cases h hit
  obtain ⟨models, refs, heq⟩ := hcases
  rw [heq]
  exact SyntheticOrder.flagged_update models refs

end

end Carteret
