import Carteret.QueueLife
import Carteret.QueueTallies

/-!
# The time to fill

A fill is stamped with the time of its message, and the clock ignores a message from the past. So the time to fill,
which is taken in 64 bits, is right when the message is not from before the order's entry.

1. In every reachable state the sum of a model is the 64-bit sum of its orders' times (`Waited`).
2. Nothing but a message fills (`filled_invariant`), and what it adds to the times (`total_react`).
3. `timesRight_iff`: the runs in which every time to fill is right.
-/

namespace Carteret

namespace SyntheticOrder

/-- The time to fill, as it is added to the sum of the model `m`. -/
def waited (m : QueueModel) (o : SyntheticOrder) : UInt64 :=
  if (o.models m).filled then (o.models m).fillTs - o.enteredTs else 0

/-- The time to fill as a natural number. -/
def waitedNat (m : QueueModel) (o : SyntheticOrder) : ℕ :=
  if (o.models m).filled then (o.models m).fillTs.toNat - o.enteredTs.toNat else 0

instance (o : SyntheticOrder) (m : QueueModel) (ev : BookEvent) : Decidable (o.strikes m ev) := by
  cases ev <;> unfold strikes atFront <;> infer_instance

/-- The time to fill of an order that the event is about to fill. -/
def toWait (m : QueueModel) (ev : BookEvent) (o : SyntheticOrder) : ℕ :=
  if (o.models m).live = true ∧ o.strikes m ev then ev.time.toNat - o.enteredTs.toNat else 0

end SyntheticOrder

/-- The sum that is kept in 64 bits. -/
theorem toNat_sum (xs : List UInt64) : xs.sum.toNat = (xs.map UInt64.toNat).sum % 2 ^ 64 := by
  induction xs with
  | nil => rfl
  | cons x xs ih => rw [List.sum_cons, List.map_cons, List.sum_cons, UInt64.toNat_add, ih, Nat.add_mod_mod]

/-! ## The sum of a model -/

/-- A ledger and an order, from those at hand: the sum moves with the order's time. -/
structure SumMoved (m : QueueModel) (p : Ledger × SyntheticOrder) (L : Ledger) (o : SyntheticOrder) : Prop where
  proper : o.Proper
  sum : (L.res m).sumTimeToFillNs + p.2.waited m = (p.1.res m).sumTimeToFillNs + o.waited m

section

variable {m : QueueModel} {p : Ledger × SyntheticOrder} {L : Ledger} {o : SyntheticOrder}

theorem waited_setModel_of_ne {st : ModelState} {k : QueueModel} (hk : m ≠ k) :
    (o.setModel k st).waited m = o.waited m := by
  have hmodel : (o.setModel k st).models m = o.models m := Function.update_of_ne hk _ _
  unfold SyntheticOrder.waited
  rw [hmodel]
  rfl

theorem waited_setModel (st : ModelState) :
    (o.setModel m st).waited m = if st.filled then st.fillTs - o.enteredTs else 0 := by
  have hmodel : (o.setModel m st).models m = st := Function.update_self _ _ _
  unfold SyntheticOrder.waited
  rw [hmodel]
  rfl

theorem SumMoved.fill (h : SumMoved m p L o) (cfg : QueueSimConfig) (k : QueueModel) (ts : UInt64)
    {why : FillReason} (hwhy : why ≠ .expired) (hl : (o.models k).live = true) :
    SumMoved m p (L.countFill cfg (o.setModel k ((o.models k).fill ts why)) k ts why)
      (o.setModel k ((o.models k).fill ts why)) := by
  refine ⟨proper_setModel h.proper (.fill ts hwhy), ?_⟩
  by_cases hk : m = k
  · subst hk
    have hnone : o.waited m = 0 := if_neg (by rw [(h.proper m).not_filled hl]; exact Bool.false_ne_true)
    have hsum : ((L.countFill cfg (o.setModel m ((o.models m).fill ts why)) m ts why).res m).sumTimeToFillNs =
        (L.res m).sumTimeToFillNs + (ts - o.enteredTs) := by
      unfold Ledger.countFill
      simp only [Ledger.setRes_self]
      rfl
    have hbefore := h.sum
    rw [hnone, add_zero] at hbefore
    rw [hsum, waited_setModel, add_right_comm, hbefore]
    rfl
  · have hsame : (L.countFill cfg (o.setModel k ((o.models k).fill ts why)) k ts why).res m = L.res m := by
      unfold Ledger.countFill
      simp only [Ledger.setRes_of_ne L hk]
    rw [hsame, waited_setModel_of_ne hk]
    exact h.sum

theorem SumMoved.expire (h : SumMoved m p L o) (k : QueueModel) (hl : (o.models k).live = true) :
    SumMoved m p (L.setRes k fun r => { r with reasons := addTo r.reasons .expired 1 })
      (o.setModel k (o.models k).expire) := by
  refine ⟨proper_setModel h.proper ((h.proper k).expire hl), ?_⟩
  by_cases hk : m = k
  · subst hk
    rw [Ledger.setRes_self, waited_setModel]
    exact h.sum
  · rw [Ledger.setRes_of_ne L hk, waited_setModel_of_ne hk]
    exact h.sum

theorem SumMoved.deduct (h : SumMoved m p L o) (k : QueueModel) (q : ℚ) :
    SumMoved m p L (o.setModel k ((o.models k).deduct q)) := by
  refine ⟨proper_setModel h.proper (h.proper k), ?_⟩
  by_cases hk : m = k
  · subst hk
    rw [waited_setModel]
    exact h.sum
  · rw [waited_setModel_of_ne hk]
    exact h.sum

theorem robust_sumMoved (m : QueueModel) (p : Ledger × SyntheticOrder) : Robust (SumMoved m p) where
  fill := fun cfg k ts hwhy hl h => h.fill cfg k ts hwhy hl
  expire := fun k hl h => h.expire k hl
  deduct := fun k q h => h.deduct k q
  eraseAhead := fun _ h => ⟨h.proper, h.sum⟩
  dead := fun h => ⟨h.proper, h.sum⟩
  attributed := fun {L o} o' w qty before h => by
    have hsame : ((L.attributeCancel o' w qty before).res m).sumTimeToFillNs = (L.res m).sumTimeToFillNs := by
      unfold Ledger.attributeCancel
      by_cases hm : m = .exact
      · subst hm
        rw [Ledger.setRes_self]
      · rw [Ledger.setRes_of_ne L hm]
    exact ⟨h.proper, by rw [hsame]; exact h.sum⟩
  coin := fun _ h => ⟨h.proper, h.sum⟩

theorem settle_sum (b : ReferenceBook) (ts : UInt64) (L : Ledger) (m : QueueModel) :
    ((L.settle b ts).res m).sumTimeToFillNs = (L.res m).sumTimeToFillNs := by
  refine settle_keeps (fun L => (L.res m).sumTimeToFillNs) (fun _ _ => rfl) (fun _ _ => rfl) ?_ b ts L
  intro L k x y z
  by_cases hm : m = k
  · subst hm
    simp only [Ledger.setRes_self]
  · simp only [Ledger.setRes_of_ne L hm]

end

namespace QueueSim

variable {s : QueueSim}

/-- The sums hold the times of the orders. -/
def Waited (s : QueueSim) : Prop :=
  ∀ m, (s.res m).sumTimeToFillNs = (s.orders.map (·.waited m)).sum

/-- A loop whose body moves the sum with the times. -/
theorem Waited.visitAll (h : Waited s) (hproper : ∀ o ∈ s.orders, o.Proper) {f : Visit}
    (hf : ∀ m p, Preserves (SumMoved m p) f) : Waited (s.visitAll f) := by
  intro m
  have hscan := Scan.scan_sum f s.toLedger s.live (q := fun L => (L.res m).sumTimeToFillNs) (w := (·.waited m))
    fun L o ho => (hf m (L, o) L o ⟨hproper o (List.mem_append_right _ ho), rfl⟩).sum
  have hbefore := h m
  rw [orders, List.map_append, List.sum_append] at hbefore
  show ((Scan.scan f s.toLedger s.live).1.res m).sumTimeToFillNs =
    ((s.retired ++ (Scan.scan f s.toLedger s.live).2).map (·.waited m)).sum
  rw [List.map_append, List.sum_append]
  refine add_right_cancel (b := (s.live.map (·.waited m)).sum) ?_
  calc ((Scan.scan f s.toLedger s.live).1.res m).sumTimeToFillNs + (s.live.map (·.waited m)).sum
      = (s.res m).sumTimeToFillNs + ((Scan.scan f s.toLedger s.live).2.map (·.waited m)).sum := hscan
    _ = _ := by rw [hbefore, add_right_comm]

/-- **In every reachable state the sum of a model is the 64-bit sum of its times to fill.** -/
theorem waited_invariant : Invariant anyMessage fun s => (Sound s ∧ Tallied s) ∧ Waited s where
  clock := fun {s s'} h hsame => by
    refine ⟨tallied_invariant.clock h.1 hsame, fun m => ?_⟩
    rw [hsame.ledger, orders, hsame.retired, hsame.live]
    exact h.2 m
  message := fun {s} msg _ h => by
    refine ⟨tallied_invariant.message msg trivial h.1, ?_⟩
    have hbook : Sound { s with book := bookAfter s.book msg } := h.1.1.withBook _
    rw [hbook.react_eq]
    exact Waited.visitAll (s := { s with book := bookAfter s.book msg }) h.2 h.1.2.proper
      fun m p => (robust_sumMoved m p).visitOf _ _ _
  settle := fun {s} ts h =>
    ⟨tallied_invariant.settle ts h.1, fun m => (settle_sum s.book ts s.toLedger m).trans (h.2 m)⟩
  sweep := fun {s} ts h => by
    refine ⟨tallied_invariant.sweep ts h.1, fun m => ?_⟩
    have hvisited := h.2.visitAll h.1.2.proper fun m p => (robust_sumMoved m p).sweep s.cfg ts
    exact (hvisited m).trans (((compact_orders _).map _).sum_eq).symm
  retire := fun {s} locate h => by
    refine ⟨tallied_invariant.retire locate h.1, fun m => ?_⟩
    rw [h.1.1.visitAt_eq]
    have hvisited := h.2.visitAll h.1.2.proper fun m p =>
      (robust_sumMoved m p).retire.ite preserves_id fun o => (o.locate == locate) = true
    exact (hvisited m).trans (((compact_orders _).map _).sum_eq).symm
  push := fun {s locate side ts o} he h => by
    refine ⟨tallied_invariant.push he h.1, fun m => ?_⟩
    have hnone : o.waited m = 0 := by
      unfold SyntheticOrder.waited
      rw [(entry_spec he).1.models]
      rfl
    rw [push_orders, List.map_append, List.sum_append, List.map_singleton, List.sum_singleton, hnone, add_zero]
    exact h.2 m

/-! ## What fills -/

/-- Every fill is stamped no earlier than the entry of its order. -/
def FilledAfter (s : QueueSim) : Prop :=
  ∀ o ∈ s.orders, ∀ m, (o.models m).filled = true → o.enteredTs ≤ (o.models m).fillTs

/-- The times to fill of a model, as natural numbers. -/
def total (s : QueueSim) (m : QueueModel) : ℕ := (s.orders.map (SyntheticOrder.waitedNat m)).sum

end QueueSim

namespace SyntheticOrder

/-- The order has the same fills. -/
structure SameTimes (o o' : SyntheticOrder) : Prop where
  entered : o'.enteredTs = o.enteredTs
  models : ∀ m, SameFill (o.models m) (o'.models m)

variable {o o' : SyntheticOrder} {m : QueueModel}

theorem SameTimes.refl (o : SyntheticOrder) : SameTimes o o := ⟨rfl, fun _ => SameFill.refl _⟩

theorem SameTimes.waitedNat (h : SameTimes o o') : o'.waitedNat m = o.waitedNat m := by
  unfold SyntheticOrder.waitedNat
  rw [(h.models m).filled, (h.models m).fillTs, h.entered]

theorem sameTimes_expireLive (o : SyntheticOrder) : SameTimes o o.expireLive := by
  refine ⟨rfl, fun m => ?_⟩
  show SameFill _ (if (o.models m).live then (o.models m).expire else o.models m)
  split
  · exact ⟨rfl, rfl⟩
  · exact SameFill.refl _

theorem sameTimes_seeSweep (cfg : QueueSimConfig) (ts : UInt64) : SameTimes o (o.seeSweep cfg ts) := by
  unfold seeSweep
  split
  · exact sameTimes_expireLive o
  · exact SameTimes.refl o

theorem sameTimes_seeCancelSymbol (locate : UInt16) : SameTimes o (QueueSim.seeCancelSymbol locate o) := by
  unfold QueueSim.seeCancelSymbol seeRetire
  split_ifs
  · exact sameTimes_expireLive o
  · exact SameTimes.refl o
  · exact SameTimes.refl o

end SyntheticOrder

namespace QueueSim

variable {s s' : QueueSim}

/-- The fills are the same ones. -/
structure SameFills (s s' : QueueSim) : Prop where
  after : s'.FilledAfter ↔ s.FilledAfter
  total : ∀ m, s'.total m = s.total m

/-- Orders that are changed one by one, without a fill. -/
theorem sameFills_of_map {u : SyntheticOrder → SyntheticOrder} (h : s'.orders.Perm (s.orders.map u))
    (hu : ∀ o, SyntheticOrder.SameTimes o (u o)) : SameFills s s' := by
  constructor
  · unfold FilledAfter
    constructor
    · intro hall o ho m hf
      have ho' : u o ∈ s'.orders := h.mem_iff.mpr (List.mem_map_of_mem ho)
      have hle := hall (u o) ho' m (((hu o).models m).filled.trans hf)
      rwa [(hu o).entered, ((hu o).models m).fillTs] at hle
    · intro hall o' ho' m hf
      obtain ⟨o, ho, rfl⟩ := List.mem_map.mp (h.mem_iff.mp ho')
      rw [((hu o).models m).filled] at hf
      rw [(hu o).entered, ((hu o).models m).fillTs]
      exact hall o ho m hf
  · intro m
    unfold QueueSim.total
    rw [(h.map _).sum_eq, List.map_map]
    exact congrArg List.sum (List.map_congr_left fun o _ => (hu o).waitedNat)

/-- **Nothing but a message fills.** -/
theorem filled_invariant (s₀ : QueueSim) : Invariant (fun _ _ => False) fun s => Sound s ∧ SameFills s₀ s where
  clock := fun {s s'} h hsame => by
    have horders : s'.orders = s.orders := by rw [orders, orders, hsame.retired, hsame.live]
    refine ⟨sound_invariant.clock h.1 hsame, ?_, fun m => ?_⟩
    · rw [← h.2.after, FilledAfter, FilledAfter, horders]
    · rw [← h.2.total m, QueueSim.total, QueueSim.total, horders]
  message := fun _ hc _ => hc.elim
  settle := fun ts h => ⟨sound_invariant.settle ts h.1, h.2.after, h.2.total⟩
  sweep := fun {s} ts h => by
    have hsame : SameFills s _ := sameFills_of_map (h.1.sweep_orders ts) fun _ =>
      SyntheticOrder.sameTimes_seeSweep s.cfg ts
    exact ⟨sound_invariant.sweep ts h.1, hsame.after.trans h.2.after, fun m => (hsame.total m).trans (h.2.total m)⟩
  retire := fun {s} locate h => by
    have hsame : SameFills s _ := sameFills_of_map (h.1.retire_orders locate) fun _ =>
      SyntheticOrder.sameTimes_seeCancelSymbol locate
    exact ⟨sound_invariant.retire locate h.1, hsame.after.trans h.2.after,
      fun m => (hsame.total m).trans (h.2.total m)⟩
  push := fun {s locate side ts o} he h => by
    have hnone : ∀ m, (o.models m).filled = false := by
      intro m
      rw [(entry_spec he).1.models]
    refine ⟨sound_invariant.push he h.1, ?_, fun m => ?_⟩
    · rw [← h.2.after]
      unfold FilledAfter
      rw [push_orders, List.forall_mem_append, List.forall_mem_singleton]
      refine and_iff_left fun m hf => ?_
      rw [hnone m] at hf
      cases hf
    · have hzero : o.waitedNat m = 0 := if_neg (by rw [hnone m]; exact Bool.false_ne_true)
      rw [← h.2.total m, QueueSim.total, QueueSim.total, push_orders, List.map_append, List.sum_append,
        List.map_singleton, List.sum_singleton, hzero, add_zero]

/-! ## A message -/

/-- What a message adds to the times of a model. -/
theorem total_react (h : Sound s) (ht : Tallied s) (ev : BookEvent) (m : QueueModel) :
    (s.react ev).total m = s.total m + (s.live.map (SyntheticOrder.toWait m ev)).sum := by
  have hretired : (s.retired.map (SyntheticOrder.toWait m ev)).sum = 0 := by
    refine List.sum_eq_zero fun n hn => ?_
    obtain ⟨o, ho, rfl⟩ := List.mem_map.mp hn
    have hdead := (h.flagged o (List.mem_append_left _ ho)).dead (h.dead o ho) m
    exact if_neg fun hc => Bool.false_ne_true (hdead.symm.trans hc.1)
  have hone : List.Forall₂ (fun o o' : SyntheticOrder => o.waitedNat m + o.toWait m ev = o'.waitedNat m)
      s.orders (s.react ev).orders := by
    have hreact := h.react_orders ev
    refine List.forall₂_iff_zip.mpr ⟨hreact.length_eq, fun {o o'} hzip => ?_⟩
    obtain ⟨hit, hhit, rfl⟩ := (List.forall₂_iff_zip.mp hreact).2 hzip
    have ho : o ∈ s.orders := (List.of_mem_zip hzip).1
    have hflag := h.flagged o ho
    have hentered : (o.see s.book ev hit).enteredTs = o.enteredTs :=
      congrArg Placement.enteredTs (SyntheticOrder.placement_see hflag hit)
    unfold SyntheticOrder.waitedNat SyntheticOrder.toWait
    rcases SyntheticOrder.see_model s.book ev m hflag hhit with ⟨hl, hst, why, hfill⟩ | ⟨hnot, hsame⟩
    · rw [hfill, if_neg (by rw [(ht.proper o ho m).not_filled hl]; exact Bool.false_ne_true), if_pos ⟨hl, hst⟩,
        hentered, Nat.zero_add]
      rfl
    · rw [hsame.filled, hsame.fillTs, hentered, if_neg hnot, Nat.add_zero]
  have hsum : ((s.react ev).orders.map (SyntheticOrder.waitedNat m)).sum =
      (s.orders.map fun o => o.waitedNat m + o.toWait m ev).sum := by
    rw [Scan.map_eq_map hone (u := fun o => o.waitedNat m + o.toWait m ev) fun _ _ h => h]
  unfold QueueSim.total
  rw [hsum, List.sum_map_add]
  unfold orders
  rw [List.map_append, List.map_append, List.sum_append, List.sum_append, hretired, Nat.zero_add]

/-- The orders that the event fills have entered by then. -/
def Later (s : QueueSim) (ev : BookEvent) : Prop :=
  ∀ o ∈ s.live, ∀ m, (o.models m).live = true → o.strikes m ev → o.enteredTs ≤ ev.time

theorem filledAfter_react (h : Sound s) (hf : s.FilledAfter) (ev : BookEvent) :
    (s.react ev).FilledAfter ↔ s.Later ev := by
  have hreact := h.react_orders ev
  constructor
  · intro hall o ho m hl hst
    obtain ⟨o', ho', hit, hhit, rfl⟩ := Scan.exists_right hreact (List.mem_append_right s.retired ho)
    have hflag := h.live_flagged o ho
    obtain ⟨why, hfill⟩ := @SyntheticOrder.see_struck s.book ev o hit m hflag hl hst
    have hle := hall _ ho' m (by rw [hfill]; rfl)
    rw [hfill] at hle
    have hentered : (o.see s.book ev hit).enteredTs = o.enteredTs :=
      congrArg Placement.enteredTs (SyntheticOrder.placement_see hflag hit)
    rwa [hentered] at hle
  · intro hlater o' ho' m hfilled
    obtain ⟨o, ho, hit, hhit, rfl⟩ := Scan.exists_left hreact ho'
    have hflag := h.flagged o ho
    have hentered : (o.see s.book ev hit).enteredTs = o.enteredTs :=
      congrArg Placement.enteredTs (SyntheticOrder.placement_see hflag hit)
    rw [hentered]
    rcases SyntheticOrder.see_model s.book ev m hflag hhit with ⟨hl, hst, why, hfill⟩ | ⟨-, hsame⟩
    · rw [hfill]
      exact hlater o (h.mem_live ho hl) m hl hst
    · rw [hsame.filled] at hfilled
      rw [hsame.fillTs]
      exact hf o ho m hfilled

/-! ## Right times -/

/-- Every fill is stamped no earlier than its order's entry, and the sum of each model is the sum of its times to
fill. -/
structure TimesRight (s : QueueSim) : Prop where
  after : ∀ o ∈ s.orders, ∀ m, (o.models m).filled = true → o.enteredTs ≤ (o.models m).fillTs
  sum : ∀ m, (s.res m).sumTimeToFillNs.toNat = (s.orders.map (SyntheticOrder.waitedNat m)).sum

/-- The orders that the message fills have entered by its time, and their times to fill do not fill up the sum. -/
structure FillsInTime (s : QueueSim) (msg : Message) : Prop where
  later : ∀ o ∈ s.live, ∀ m, (o.models m).live = true → o.strikes m (eventOf s.cfg s.book msg) →
    o.enteredTs ≤ (eventOf s.cfg s.book msg).time
  room : ∀ m, (s.orders.map (SyntheticOrder.waitedNat m)).sum +
    (s.live.map (SyntheticOrder.toWait m (eventOf s.cfg s.book msg))).sum < 2 ^ 64

theorem timesRight_iff_room (h : Waited s) : s.TimesRight ↔ s.FilledAfter ∧ ∀ m, s.total m < 2 ^ 64 := by
  have hmod : s.FilledAfter → ∀ m, (s.res m).sumTimeToFillNs.toNat = s.total m % 2 ^ 64 := by
    intro hafter m
    rw [h m, toNat_sum, List.map_map]
    refine congrArg (fun l : List ℕ => l.sum % 2 ^ 64) (List.map_congr_left fun o ho => ?_)
    show (o.waited m).toNat = o.waitedNat m
    unfold SyntheticOrder.waited SyntheticOrder.waitedNat
    split_ifs with hf
    · exact UInt64.toNat_sub_of_le _ _ (hafter o ho m hf)
    · rfl
  constructor
  · intro hr
    exact ⟨hr.after, fun m => (hr.sum m).symm.trans_lt (UInt64.toNat_lt _)⟩
  · rintro ⟨hafter, hroom⟩
    exact ⟨hafter, fun m => (hmod hafter m).trans (Nat.mod_eq_of_lt (hroom m))⟩

/-- What keeps the times right in one step. -/
theorem timesRight_step (h : (Sound s ∧ Tallied s) ∧ Waited s) (e : SimStep) (hs : s.TimesRight) :
    (s.step e).TimesRight ↔ meets FillsInTime s e := by
  obtain ⟨hafter, hroom⟩ := (timesRight_iff_room h.2).mp hs
  have hwaited : Waited (s.step e) := (waited_invariant.step h fun _ _ => trivial).2
  have hquiet : (∀ msg, e ≠ .message msg) → ((s.step e).TimesRight ↔ meets FillsInTime s e) := by
    intro hne
    have hsame := ((filled_invariant s).step ⟨h.1.1, ⟨Iff.rfl, fun _ => rfl⟩⟩
      fun msg he => hne msg he).2
    rw [timesRight_iff_room hwaited, hsame.after]
    refine iff_of_true ⟨hafter, fun m => ?_⟩ fun msg he => absurd he (hne msg)
    rw [hsame.total m]
    exact hroom m
  cases e with
  | placeDirected locate side ts => exact hquiet fun _ he => by cases he
  | cancelSymbol locate => exact hquiet fun _ he => by cases he
  | message msg =>
    have hbook : Sound { s with book := bookAfter s.book msg } := h.1.1.withBook _
    have hreact : Sound (react { s with book := bookAfter s.book msg } (eventOf s.cfg s.book msg)) :=
      sound_invariant.message msg trivial h.1.1
    have hsame : SameFills (react { s with book := bookAfter s.book msg } (eventOf s.cfg s.book msg)) (s.on msg) := by
      rw [on_eq]
      cases tickOf msg with
      | none => exact ⟨Iff.rfl, fun _ => rfl⟩
      | some ts => exact ((filled_invariant _).tick ⟨hreact, ⟨Iff.rfl, fun _ => rfl⟩⟩ ts).2
    have hlater := filledAfter_react hbook hafter (eventOf s.cfg s.book msg)
    have htotal := total_react hbook ⟨h.1.2.proper, h.1.2.count, h.1.2.valued⟩ (eventOf s.cfg s.book msg)
    rw [timesRight_iff_room hwaited]
    show (s.on msg).FilledAfter ∧ (∀ m, (s.on msg).total m < 2 ^ 64) ↔ _
    rw [hsame.after, hlater]
    constructor
    · rintro ⟨hl, ht⟩ msg' he
      obtain rfl := SimStep.message.inj he
      exact ⟨hl, fun m => (htotal m).symm.trans_lt ((hsame.total m).symm.trans_lt (ht m))⟩
    · intro hmeets
      obtain ⟨hl, ht⟩ := hmeets msg rfl
      exact ⟨hl, fun m => (hsame.total m).trans_lt ((htotal m).trans_lt (ht m))⟩

/-- **When no time to fill is corrupted.** Every state of a run has its times right exactly when no message of it
fills an order that entered after the message's time, or fills up a sum of 64 bits. -/
theorem timesRight_iff (P : Platform) (cfg : QueueSimConfig) (es : List SimStep) :
    (∀ pre, pre <+: es → (run P cfg pre).TimesRight) ↔
      Runs.Along QueueSim.step (meets FillsInTime) (init P cfg) es := by
  have hinit : (init P cfg).TimesRight := ⟨by simp [orders, init], fun _ => rfl⟩
  have hwaited : (Sound (init P cfg) ∧ Tallied (init P cfg)) ∧ Waited (init P cfg) :=
    ⟨⟨sound_init P cfg, tallied_init P cfg⟩, fun _ => rfl⟩
  exact Runs.prefixes_iff_along_of (D := fun _ _ => True)
    (fun s e _ h => waited_invariant.step h fun _ _ => trivial) (fun s e _ h hs => timesRight_step h e hs)
    (Runs.along_true _ _) hwaited hinit

/-- An execution that is stamped before the order's entry fills it: the time to fill wraps. -/
theorem not_timesRight : ∃ o ∈ (run silent oneBid ((executedAt 0).map .message)).orders,
    (o.models .exact).filled = true ∧ (o.models .exact).fillTs < o.enteredTs ∧
      ((run silent oneBid ((executedAt 0).map .message)).res .exact).sumTimeToFillNs.toNat = 2 ^ 64 - 1 := by
  decide +kernel

end QueueSim

end Carteret
