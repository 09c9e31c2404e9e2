import Carteret.QueueSteps

/-!
# What the loop bodies write

A loop body fills, expires and deducts, each on one model of one order, and counts what it does. A property of the
ledger and the order that every such write preserves (`Robust`, or `Steady` where no coin is thrown) is preserved
by every loop body (`Robust.visitOf`, `Steady.sweep`, `Steady.retire`), and one of the ledger alone by every loop
(`QueueSim.ledger_visitAll`). The generator of the coins is such a property (`visitOf_rng`). `settle_keeps` is for
the loop over the valuations.
-/

namespace Carteret

/-- What the writes of the loop bodies other than the coins preserve. -/
structure Steady (I : Ledger → SyntheticOrder → Prop) : Prop where
  fill : ∀ {L o why} (cfg : QueueSimConfig) (m : QueueModel) (ts : UInt64), why ≠ .expired →
    (o.models m).live = true → I L o →
      I (L.countFill cfg (o.setModel m ((o.models m).fill ts why)) m ts why) (o.setModel m ((o.models m).fill ts why))
  expire : ∀ {L o} (m : QueueModel), (o.models m).live = true → I L o →
    I (L.setRes m fun r => { r with reasons := addTo r.reasons .expired 1 }) (o.setModel m (o.models m).expire)
  deduct : ∀ {L o} (m : QueueModel) (q : ℚ), I L o → I L (o.setModel m ((o.models m).deduct q))
  eraseAhead : ∀ {L o} (ref : Ref), I L o → I L (o.eraseAhead ref)
  dead : ∀ {L o}, I L o → I L { o with anyLive := false }
  attributed : ∀ {L o} (o' : SyntheticOrder) (w : Bool) (qty before : ℚ), I L o →
    I (L.attributeCancel o' w qty before) o

/-- What the writes of the loop bodies preserve. -/
structure Robust (I : Ledger → SyntheticOrder → Prop) : Prop extends Steady I where
  coin : ∀ {L o} (rng : Sampler), I L o → I { L with bernRng := rng } o

/-- The visit preserves a property of the ledger and the order. -/
def Preserves (I : Ledger → SyntheticOrder → Prop) (f : Visit) : Prop := ∀ L o, I L o → I (f L o).1 (f L o).2

section

variable {I : Ledger → SyntheticOrder → Prop}

theorem preserves_id : Preserves I fun L o => (L, o) := fun _ _ h => h

theorem Preserves.ite {f g : Visit} (hf : Preserves I f) (hg : Preserves I g) (p : SyntheticOrder → Prop)
    [DecidablePred p] : Preserves I fun L o => if p o then f L o else g L o := by
  intro L o h
  dsimp only
  split
  · exact hf L o h
  · exact hg L o h

/-- A loop over the models. -/
theorem Preserves.foldl {g : QueueModel → Visit} (hg : ∀ m, Preserves I (g m)) :
    ∀ (ms : List QueueModel) {p : Ledger × SyntheticOrder}, I p.1 p.2 →
      I (ms.foldl (fun p m => g m p.1 p.2) p).1 (ms.foldl (fun p m => g m p.1 p.2) p).2
  | [], _, h => h
  | m :: ms, p, h => Preserves.foldl hg ms (hg m p.1 p.2 h)

/-- An expiry writes no more than this. -/
theorem preserves_expire
    (hexpire : ∀ {L : Ledger} {o : SyntheticOrder} (m : QueueModel), (o.models m).live = true → I L o →
      I (L.setRes m fun r => { r with reasons := addTo r.reasons .expired 1 }) (o.setModel m (o.models m).expire))
    (hdead : ∀ {L : Ledger} {o : SyntheticOrder}, I L o → I L { o with anyLive := false }) :
    Preserves I expire := by
  intro L o h
  have hmodel : ∀ m, Preserves I fun L o =>
      if (o.models m).live then
        (L.setRes m fun r => { r with reasons := addTo r.reasons .expired 1 },
          o.setModel m (o.models m).expire)
      else (L, o) := by
    intro m L o h
    dsimp only
    cases hl : (o.models m).live with
    | true => exact hexpire m hl h
    | false => exact h
  exact hdead (Preserves.foldl hmodel QueueModel.all h)

namespace Steady

variable (hI : Steady I) {L : Ledger} {o : SyntheticOrder}

include hI

theorem refreshLive (h : I L o) : I L o.refreshLive := by
  unfold SyntheticOrder.refreshLive
  split
  · exact h
  · exact hI.dead h

theorem fillVisit (cfg : QueueSimConfig) (m : QueueModel) (ts : UInt64) {why : FillReason} (hwhy : why ≠ .expired) :
    Preserves I (Carteret.fill cfg m ts why) := by
  intro L o h
  unfold Carteret.fill
  cases hl : (o.models m).live with
  | true => exact hI.refreshLive (hI.fill cfg m ts hwhy hl h)
  | false => exact h

theorem fillAllLive (cfg : QueueSimConfig) (ts : UInt64) {why : FillReason} (hwhy : why ≠ .expired) :
    Preserves I (fillAllLive cfg ts why) := fun _ _ h =>
  Preserves.foldl (fun m => hI.fillVisit cfg m ts hwhy) QueueModel.all h

theorem executeExact (cfg : QueueSimConfig) (r : Resolved) (qty : Shares) (ts : UInt64) :
    Preserves I (executeExact cfg r qty ts) := by
  intro L o h
  unfold Carteret.executeExact
  split
  · split
    · have hdeduct := hI.deduct .exact qty.toNat h
      dsimp only
      split
      · exact hI.eraseAhead r.ref hdeduct
      · exact hdeduct
    · exact hI.fillVisit cfg .exact ts (by decide) L o h
  · exact h

theorem executeApproximate (cfg : QueueSimConfig) (qty : Shares) (ts : UInt64) (m : QueueModel) :
    Preserves I (executeApproximate cfg qty ts m) := by
  intro L o h
  unfold Carteret.executeApproximate
  split_ifs
  · exact hI.fillVisit cfg m ts (by decide) L o h
  · exact hI.deduct m _ h
  · exact h

theorem execution (cfg : QueueSimConfig) (r : Resolved) (qty : Shares) (ts : UInt64) :
    Preserves I (executionVisit cfg r qty ts) := by
  intro L o h
  unfold executionVisit
  split_ifs
  · exact h
  · exact hI.fillAllLive cfg ts (by decide) L o h
  · exact h
  · have hexact := hI.executeExact cfg r qty ts L o h
    have hloop := Preserves.foldl (fun m => hI.executeApproximate cfg qty ts m) QueueModel.approximations hexact
    exact hI.refreshLive hloop

theorem print (cfg : QueueSimConfig) (price : Price) (ts : UInt64) : Preserves I (printVisit cfg price ts) :=
  preserves_id.ite (hI.fillAllLive cfg ts (by decide)) _

theorem cancelled (r : Resolved) (qty : Shares) (before : ℚ) (hit : Bool) (h : I L o) :
    I L (cancelExact r qty o) ∧ I L (cancelOptimistic qty o) ∧ I L (cancelProportional qty before o) ∧
      I L (cancelBernoulli qty hit o) := by
  refine ⟨?_, ?_, ?_, ?_⟩
  · unfold cancelExact
    split
    · have hdeduct := hI.deduct .exact qty.toNat h
      dsimp only
      split
      · exact hI.eraseAhead r.ref hdeduct
      · exact hdeduct
    · exact h
  · unfold cancelOptimistic
    split
    · exact hI.deduct .optimistic _ h
    · exact h
  · unfold cancelProportional
    split
    · exact hI.deduct .proportional _ h
    · exact h
  · unfold cancelBernoulli
    split
    · exact hI.deduct .bernoulliProportional _ h
    · exact h

theorem expireVisit : Preserves I Carteret.expire := preserves_expire hI.expire hI.dead

theorem sweep (cfg : QueueSimConfig) (ts : UInt64) : Preserves I (sweepVisit cfg ts) :=
  hI.expireVisit.ite preserves_id _

theorem retire : Preserves I retireVisit := hI.expireVisit.ite preserves_id _

end Steady

namespace Robust

variable (hI : Robust I)

include hI

theorem cancel (b : ReferenceBook) (r : Resolved) (qty : Shares) : Preserves I (cancelVisit b r qty) := by
  intro L o h
  unfold cancelVisit
  split
  · exact h
  · have hexact := (hI.cancelled r qty (cancelBefore b o qty) false h).1
    have hoptimistic := (hI.cancelled r qty (cancelBefore b o qty) false hexact).2.1
    have hattributed : I (if cancelBefore b o qty > 0 then L.attributeCancel
        (cancelOptimistic qty (cancelExact r qty o)) (decide (r.ref ∈ o.aheadRefs)) qty.toNat (cancelBefore b o qty)
        else L) (cancelOptimistic qty (cancelExact r qty o)) := by
      split
      · exact hI.attributed _ _ _ _ hoptimistic
      · exact hoptimistic
    have hproportional := (hI.cancelled r qty (cancelBefore b o qty) false hattributed).2.2.1
    exact hI.coin _ (hI.cancelled r qty (cancelBefore b o qty) _ hproportional).2.2.2

theorem visitOf (cfg : QueueSimConfig) (b : ReferenceBook) (ev : BookEvent) : Preserves I (visitOf cfg b ev) := by
  cases ev with
  | execution r qty ts => exact (hI.execution cfg r qty ts).ite preserves_id _
  | cancel r qty => exact hI.cancel b r qty
  | print locate price ts => exact (hI.print cfg price ts).ite preserves_id _
  | quiet => exact preserves_id

end Robust

/-- The coins are thrown by `on_cancel` only. -/
theorem steady_rng (rng : Sampler) : Steady fun L _ => L.bernRng = rng where
  fill := fun _ _ _ _ _ h => h
  expire := fun _ _ h => h
  deduct := fun _ _ h => h
  eraseAhead := fun _ h => h
  dead := fun h => h
  attributed := fun _ _ _ _ h => h

theorem visitOf_rng (cfg : QueueSimConfig) (b : ReferenceBook) (ev : BookEvent) (L : Ledger) {o : SyntheticOrder}
    (h : o.Flagged) : (visitOf cfg b ev L o).1.bernRng = (coinOf b ev L.bernRng o).2 := by
  have hsteady := steady_rng L.bernRng
  have hguard (l : UInt16) {f : Visit} (hf : Preserves (fun L' _ => L'.bernRng = L.bernRng) f) :
      (if o.locate == l then f L o else (L, o)).1.bernRng = L.bernRng := by
    split
    · exact hf L o rfl
    · rfl
  cases ev with
  | execution r qty ts => exact hguard r.locate (hsteady.execution cfg r qty ts)
  | cancel r qty =>
    show (cancelVisit b r qty L o).1.bernRng =
      (if atLevelOf r o then cancelCoin (cancelBefore b o qty) L.bernRng o else (false, L.bernRng)).2
    cases hat : atLevelOf r o with
    | true =>
      rw [if_pos rfl]
      exact (cancelVisit_eq b r qty L h hat).2
    | false =>
      unfold cancelVisit
      rw [hat]
      rfl
  | print locate price ts => exact hguard locate (hsteady.print cfg price ts)
  | quiet => rfl

theorem QueueSim.ledger_visitAll {s : QueueSim} {I : Ledger → Prop} {f : Visit} (hf : Preserves (fun L _ => I L) f)
    (h : I s.toLedger) : I (s.visitAll f).toLedger :=
  (Scan.scan_invariant (P := fun _ => True) (Q := fun _ => True) (fun L o hL _ => ⟨hf L o hL, trivial⟩) h
    fun _ _ => trivial).1

/-- A reading of the ledger that the valuations do not change. -/
theorem settle_keeps {κ : Type} (q : Ledger → κ) (hpending : ∀ (L : Ledger) ps, q { L with pending := ps } = q L)
    (hvalued : ∀ (L : Ledger) vs, q { L with valued := vs } = q L)
    (hvalues : ∀ (L : Ledger) (m : QueueModel) (x y : ModelResults → Fin 6 → Fin 3 → ℚ)
      (z : ModelResults → Fin 6 → Fin 3 → ℕ),
      q (L.setRes m fun r => { r with valueByDepth := x r, valueHalfspreads := y r, valuedByDepth := z r }) = q L)
    (b : ReferenceBook) (ts : UInt64) (L : Ledger) : q (L.settle b ts) = q L := by
  have hone (L : Ledger) (p : PendingValuation) : q (L.settleOne b ts p) = q L := by
    unfold Ledger.settleOne
    split
    · exact hpending L _
    · cases mid b p.locate with
      | none => rfl
      | some m => exact (hvalued _ _).trans (hvalues L p.model _ _ _)
  have hfold (ps : List PendingValuation) (L : Ledger) : q (ps.foldl (Ledger.settleOne b ts) L) = q L := by
    induction ps generalizing L with
    | nil => rfl
    | cons p ps ih => rw [List.foldl_cons, ih, hone]
  exact (hfold L.pending _).trans (hpending L [])

end

end Carteret
