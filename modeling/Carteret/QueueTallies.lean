import Carteret.QueueAccounting

/-!
# The tallies of a run

1. In every reachable state each count of each model is the number of placed orders that it counts
   (`Tallied`), since every part of a step moves counts with the orders.
2. Sums of counts are then sums over the orders; each order is live, filled or expired in a model, and a
   filled order has one reason, one depth bucket and so on (`Tallied.balanced`).
3. `accounting` says so of every run and of its end.
-/

namespace Carteret

local instance fintypeUInt16 : Fintype UInt16 :=
  Fintype.ofEquiv (Fin (2 ^ 16)) ⟨UInt16.ofFin, UInt16.toFin, fun _ => rfl, fun _ => rfl⟩

namespace QueueSim

/-- Every count is the number of placed orders that it counts. -/
structure Tallied (s : QueueSim) : Prop where
  proper : ∀ o ∈ s.orders, o.Proper
  count : ∀ m c, (s.res m).count c = (s.orders.map (·.weight m c)).sum
  valued : s.toLedger.Valued

variable {s : QueueSim}

theorem tallied_init (P : Platform) (cfg : QueueSimConfig) : Tallied (init P cfg) where
  proper := by simp [orders, init]
  count := fun m c => by cases c <;> rfl
  valued := ⟨List.nodup_nil, by simp [init], by simp [init], fun _ _ _ => rfl, fun _ _ => rfl⟩

/-- Only the orders and the tallies matter. -/
theorem Tallied.congr (h : Tallied s) {s' : QueueSim} (horders : s'.orders.Perm s.orders)
    (hres : s'.res = s.res) (hvalued : s'.toLedger.Valued) : Tallied s' where
  proper := fun o ho => h.proper o (horders.mem_iff.mp ho)
  count := fun m c => by
    rw [hres, h.count m c]
    exact ((horders.map _).sum_eq).symm
  valued := hvalued

theorem Tallied.compact (h : Tallied s) : Tallied s.compact := h.congr (compact_orders s) rfl h.valued

/-- A loop whose body moves counts with the orders. -/
theorem Tallied.visitAll (h : Tallied s) {f : Visit} (hf : Conserves f) : Tallied (s.visitAll f) := by
  have hlive : ∀ o ∈ s.live, o.Proper := fun o ho => h.proper o (List.mem_append_right _ ho)
  obtain ⟨hvalued, hproper⟩ := Scan.scan_invariant (f := f) (I := Ledger.Valued)
    (P := SyntheticOrder.Proper) (Q := SyntheticOrder.Proper)
    (fun L o hL ho => ⟨(hf L o).valued hL, (hf L o).proper ho⟩) h.valued hlive
  refine ⟨fun o ho => ?_, fun m c => ?_, hvalued⟩
  · rcases List.mem_append.mp ho with ho | ho
    · exact h.proper o (List.mem_append_left _ ho)
    · exact hproper o ho
  · have hmoved := Scan.scan_sum f s.toLedger s.live
      (q := fun L => (L.res m).count c) (w := fun o => o.weight m c)
      fun L o ho => (hf L o).count (hlive o ho) m c
    have hbefore := h.count m c
    show ((Scan.scan f s.toLedger s.live).1.res m).count c =
      ((s.retired ++ (Scan.scan f s.toLedger s.live).2).map (·.weight m c)).sum
    rw [orders, List.map_append, List.sum_append] at hbefore
    rw [List.map_append, List.sum_append]
    omega

theorem Tallied.push (h : Tallied s) {o : SyntheticOrder} (he : Entered s.book o) :
    Tallied (s.push o) := by
  have hfresh : ∀ m, (o.models m).live = true ∧ (o.models m).filled = false := by
    intro m
    rw [he.models]
    exact ⟨rfl, rfl⟩
  have hvalued : (s.push o).Valued := ⟨h.valued.once, h.valued.fill_lt, h.valued.pending,
    h.valued.valuedByDepth, h.valued.filledByDepth⟩
  refine ⟨fun o' ho' => ?_, fun m c => ?_, hvalued⟩
  · rw [push_orders] at ho'
    rcases List.mem_append.mp ho' with ho' | ho'
    · exact h.proper o' ho'
    · rw [List.mem_singleton.mp ho']
      exact fun m => .inl (hfresh m)
  · show ((s.toLedger.countPlaced o).res m).count c = _
    have hweight : o.weight m c = (o.placedIn c).toNat := by
      unfold SyntheticOrder.weight SyntheticOrder.counted
      rw [(hfresh m).1, (hfresh m).2]
      simp
    rw [countPlaced_count, push_orders, List.map_append, List.sum_append, h.count m c, List.map_singleton,
      List.sum_singleton, hweight]

theorem tallied_invariant : Invariant anyMessage fun s => Sound s ∧ Tallied s where
  clock := fun {s s'} h hsame => by
    refine ⟨sound_invariant.clock h.1 hsame, h.2.congr ?_ ?_ ?_⟩
    · rw [orders, orders, hsame.retired, hsame.live]
    · rw [hsame.ledger]
    · rw [hsame.ledger]
      exact h.2.valued
  message := fun {s} msg _ h => by
    refine ⟨sound_invariant.message msg trivial h.1, ?_⟩
    have hbook : Sound { s with book := bookAfter s.book msg } := h.1.withBook _
    have htallied : Tallied { s with book := bookAfter s.book msg } :=
      ⟨h.2.proper, h.2.count, h.2.valued⟩
    rw [hbook.react_eq]
    exact htallied.visitAll (conserves_visitOf _ _ _)
  settle := fun {s} ts h => by
    refine ⟨sound_invariant.settle ts h.1, h.2.proper, fun m c => ?_, h.2.valued.settle s.book ts⟩
    have hsettle : ((s.toLedger.settle s.book ts).res m).count c = (s.res m).count c := settle_count s.book
    exact hsettle.trans (h.2.count m c)
  sweep := fun ts h =>
    ⟨sound_invariant.sweep ts h.1, (h.2.visitAll (conserves_sweep _ ts)).compact⟩
  retire := fun locate h => by
    refine ⟨sound_invariant.retire locate h.1, ?_⟩
    rw [h.1.visitAt_eq]
    exact (h.2.visitAll (conserves_retire.ite conserves_id fun o => (o.locate == locate) = true)).compact
  push := fun he h => ⟨sound_invariant.push he h.1, h.2.push (entry_spec he).1⟩

theorem tallied_run (P : Platform) (cfg : QueueSimConfig) (es : List SimStep) :
    Sound (run P cfg es) ∧ Tallied (run P cfg es) :=
  tallied_invariant.run ⟨sound_init P cfg, tallied_init P cfg⟩ es

/-! ## Sums of counts -/

/-- Sums of sums, in either order. -/
theorem sum_sum {ι : Type} (is : Finset ι) (f : ι → SyntheticOrder → ℕ) (os : List SyntheticOrder) :
    ∑ i ∈ is, (os.map (f i)).sum = (os.map fun o => ∑ i ∈ is, f i o).sum := by
  induction os with
  | nil => simp
  | cons o os ih => simp only [List.map_cons, List.sum_cons, Finset.sum_add_distrib, ih]

theorem sum_toNat (p : SyntheticOrder → Bool) (os : List SyntheticOrder) :
    (os.map fun o => (p o).toNat).sum = os.countP p := by
  induction os with
  | nil => rfl
  | cons o os ih =>
    rw [List.map_cons, List.sum_cons, ih, List.countP_cons]
    cases p o <;> simp [Nat.add_comm]

/-- Just one of the values is the one looked for. -/
theorem sum_toNat_eq {κ : Type} [Fintype κ] [DecidableEq κ] (b : Bool) (k : κ) :
    ∑ i, (b && decide (k = i)).toNat = b.toNat := by
  cases b with
  | false => simp
  | true =>
    have hite : ∀ i, (true && decide (k = i)).toNat = if k = i then 1 else 0 := by
      intro i
      by_cases h : k = i <;> simp [h]
    simp only [hite, Finset.sum_ite_eq, Finset.mem_univ, if_true]
    rfl

/-- A count is the sum of the counts that split it. -/
theorem Tallied.sum_eq (h : Tallied s) {ι : Type} {m : QueueModel} {c : Counter} {is : Finset ι}
    (cs : ι → Counter) (hsplit : ∀ o ∈ s.orders, ∑ i ∈ is, o.weight m (cs i) = o.weight m c) :
    (s.res m).count c = ∑ i ∈ is, (s.res m).count (cs i) := by
  have hswap := sum_sum is (fun i o => o.weight m (cs i)) s.orders
  have hcongr : (s.orders.map fun o => ∑ i ∈ is, o.weight m (cs i)) = s.orders.map (·.weight m c) :=
    List.map_congr_left hsplit
  rw [h.count m c, ← hcongr, ← hswap]
  exact Finset.sum_congr rfl fun i _ => (h.count m (cs i)).symm

end QueueSim

namespace SyntheticOrder

variable {o : SyntheticOrder} {m : QueueModel}

/-- What counts of placed orders count. -/
theorem weight_placed : o.weight m .placed = 1 := by
  unfold weight counted
  simp [placedIn]

theorem weight_filled : o.weight m .filled = (o.models m).filled.toNat := by
  unfold weight counted
  simp [placedIn, fillIn]

theorem Proper.weight_expired (h : o.Proper) :
    o.weight m (.reasons .expired) = (!(o.models m).live && !(o.models m).filled).toNat := by
  unfold weight counted
  rcases h m with ⟨h1, h2⟩ | ⟨h1, h2, h3⟩ | ⟨h1, h2, -⟩
  · simp [placedIn, h1, h2]
  · simp [placedIn, fillIn, h1, h2, h3]
  · simp [placedIn, h1, h2]

/-- A proper model is live, filled or expired. -/
theorem Proper.split (h : o.Proper) (m : QueueModel) :
    1 = o.weight m .filled + o.weight m (.reasons .expired) + (o.models m).live.toNat := by
  rw [weight_filled, h.weight_expired]
  rcases h m with ⟨h1, h2⟩ | ⟨h1, h2, -⟩ | ⟨h1, h2, -⟩ <;> simp [h1, h2]

/-- A filled model has one reason, and it is not expiry. -/
theorem Proper.sum_reasons (h : o.Proper) (m : QueueModel) :
    ∑ w ∈ Finset.univ.erase .expired, o.weight m (.reasons w) = o.weight m .filled := by
  have hone : ∀ w ∈ Finset.univ.erase FillReason.expired,
      o.weight m (.reasons w) = ((o.models m).filled && decide ((o.models m).reason = w)).toNat := by
    intro w hw
    unfold weight counted
    simp [placedIn, fillIn, (Finset.mem_erase.mp hw).1]
  have hexpired : ((o.models m).filled && decide ((o.models m).reason = .expired)).toNat = 0 := by
    rcases h m with ⟨-, h2⟩ | ⟨-, h2, h3⟩ | ⟨-, h2, -⟩ <;> simp [h2]
    exact h3
  rw [Finset.sum_congr rfl hone, weight_filled, ← QueueSim.sum_toNat_eq _ (o.models m).reason,
    ← Finset.add_sum_erase _ _ (Finset.mem_univ FillReason.expired), hexpired, Nat.zero_add]

end SyntheticOrder

namespace QueueSim

variable {s : QueueSim}

/-- The accounts of one model. -/
structure Balanced (s : QueueSim) (m : QueueModel) : Prop where
  placed : (s.res m).placed =
    (s.res m).filled + (s.res m).reasons .expired + s.live.countP fun o => (o.models m).live
  reasons : (s.res m).filled = ∑ w ∈ Finset.univ.erase .expired, (s.res m).reasons w
  filledByDepth : (s.res m).filled = ∑ d, (s.res m).filledByDepth d
  filledByAhead : (s.res m).filled = ∑ g, (s.res m).filledByAhead g
  filledBySymbol : (s.res m).filled = ∑ l, ((s.res m).bySymbol l).filled
  filledBySymbolAhead : (s.res m).filled = ∑ k : UInt16 × Fin 18, ((s.res m).bySymbolAhead k.1).filled k.2
  timeToFill : (s.res m).filled = ∑ i, (s.res m).timeToFill i
  placedByDepth : (s.res m).placed = ∑ d, (s.res m).placedByDepth d
  placedByAhead : (s.res m).placed = ∑ g, (s.res m).placedByAhead g
  placedBySymbol : (s.res m).placed = ∑ l, ((s.res m).bySymbol l).placed
  placedBySymbolAhead : (s.res m).placed = ∑ k : UInt16 × Fin 18, ((s.res m).bySymbolAhead k.1).placed k.2
  valued_le : ∀ d h, (s.res m).valuedByDepth d h ≤ (s.res m).filledByDepth d

/-- Placed orders are filled, expired or live. -/
theorem Tallied.placed_eq (h : Tallied s) (m : QueueModel) : (s.res m).placed =
    (s.res m).filled + (s.res m).reasons .expired + s.orders.countP fun o => (o.models m).live := by
  have hplaced : (s.res m).placed = _ := h.count m .placed
  have hfilled : (s.res m).filled = _ := h.count m .filled
  have hexpired : (s.res m).reasons .expired = _ := h.count m (.reasons .expired)
  rw [hplaced, hfilled, hexpired, ← sum_toNat]
  rw [← List.sum_map_add, ← List.sum_map_add]
  congr 1
  apply List.map_congr_left
  intro o ho
  rw [SyntheticOrder.weight_placed]
  exact (h.proper o ho).split m

theorem Tallied.balanced (h : Tallied s) (hs : Sound s) (m : QueueModel) : Balanced s m := by
  have hretired : s.retired.countP (fun o => (o.models m).live) = 0 := by
    apply List.countP_eq_zero.mpr
    intro o ho
    rw [(hs.flagged o (List.mem_append_left _ ho)).dead (hs.dead o ho) m]
    exact Bool.false_ne_true
  have hsplit (b : Bool) {κ : Type} [Fintype κ] [DecidableEq κ] (k : κ) :
      ∑ i, (b && decide (k = i)).toNat = b.toNat := sum_toNat_eq b k
  constructor
  · have hall := h.placed_eq m
    rw [orders, List.countP_append, hretired, Nat.zero_add] at hall
    exact hall
  · exact h.sum_eq (c := .filled) .reasons fun o ho => (h.proper o ho).sum_reasons m
  · refine h.sum_eq (c := .filled) .filledByDepth fun o _ => ?_
    rw [SyntheticOrder.weight_filled, ← hsplit _ (depthBucket o.depthAtEntry)]
    simp [SyntheticOrder.weight, SyntheticOrder.counted, SyntheticOrder.placedIn, SyntheticOrder.fillIn]
  · refine h.sum_eq (c := .filled) .filledByAhead fun o _ => ?_
    rw [SyntheticOrder.weight_filled, ← hsplit _ (aheadGrid o.depthAtEntry)]
    simp [SyntheticOrder.weight, SyntheticOrder.counted, SyntheticOrder.placedIn, SyntheticOrder.fillIn]
  · refine h.sum_eq (c := .filled) .symbolFilled fun o _ => ?_
    rw [SyntheticOrder.weight_filled, ← hsplit _ o.locate]
    simp [SyntheticOrder.weight, SyntheticOrder.counted, SyntheticOrder.placedIn, SyntheticOrder.fillIn]
  · refine h.sum_eq (c := .filled) (fun k : UInt16 × Fin 18 => .symbolAheadFilled k.1 k.2) fun o _ => ?_
    rw [SyntheticOrder.weight_filled, ← hsplit _ (o.locate, aheadGrid o.depthAtEntry)]
    simp [SyntheticOrder.weight, SyntheticOrder.counted, SyntheticOrder.placedIn, SyntheticOrder.fillIn,
      Prod.ext_iff]
  · refine h.sum_eq (c := .filled) .timeToFill fun o _ => ?_
    rw [SyntheticOrder.weight_filled, ← hsplit _ (fillTimeBucket ((o.models m).fillTs - o.enteredTs))]
    simp [SyntheticOrder.weight, SyntheticOrder.counted, SyntheticOrder.placedIn, SyntheticOrder.fillIn]
  · refine h.sum_eq (c := .placed) .placedByDepth fun o _ => ?_
    rw [SyntheticOrder.weight_placed, ← Bool.toNat_true, ← hsplit _ (depthBucket o.depthAtEntry)]
    simp [SyntheticOrder.weight, SyntheticOrder.counted, SyntheticOrder.placedIn, SyntheticOrder.fillIn]
  · refine h.sum_eq (c := .placed) .placedByAhead fun o _ => ?_
    rw [SyntheticOrder.weight_placed, ← Bool.toNat_true, ← hsplit _ (aheadGrid o.depthAtEntry)]
    simp [SyntheticOrder.weight, SyntheticOrder.counted, SyntheticOrder.placedIn, SyntheticOrder.fillIn]
  · refine h.sum_eq (c := .placed) .symbolPlaced fun o _ => ?_
    rw [SyntheticOrder.weight_placed, ← Bool.toNat_true, ← hsplit _ o.locate]
    simp [SyntheticOrder.weight, SyntheticOrder.counted, SyntheticOrder.placedIn, SyntheticOrder.fillIn]
  · refine h.sum_eq (c := .placed) (fun k : UInt16 × Fin 18 => .symbolAheadPlaced k.1 k.2) fun o _ => ?_
    rw [SyntheticOrder.weight_placed, ← Bool.toNat_true, ← hsplit _ (o.locate, aheadGrid o.depthAtEntry)]
    simp [SyntheticOrder.weight, SyntheticOrder.counted, SyntheticOrder.placedIn, SyntheticOrder.fillIn,
      Prod.ext_iff]
  · exact fun d i => h.valued.valued_le m d i

/-! ## The end of a run -/

theorem finish_orders (s : QueueSim) : s.finish.orders = (s.visitAll retireVisit).orders := by
  unfold finish orders
  rw [List.append_nil]

/-- Nothing is live at the end. -/
theorem finish_dead (h : Sound s) : ∀ o ∈ s.finish.orders, o.anyLive = false := by
  intro o ho
  rw [finish_orders] at ho
  have hretired : List.Forall₂ (fun _ o' : SyntheticOrder => o'.anyLive = false)
      s.orders (s.visitAll retireVisit).orders := by
    apply forall₂_visitAll
    · intro L o _
      rw [retireVisit_order]
      unfold SyntheticOrder.seeRetire
      cases hl : o.anyLive with
      | true =>
        rw [if_pos rfl, ← expire_order L o]
        rfl
      | false =>
        rw [if_neg Bool.false_ne_true]
        exact hl
    · exact h.dead
  obtain ⟨-, -, hdead⟩ := Scan.exists_left hretired ho
  exact hdead

theorem Tallied.finish (h : Tallied s) : Tallied s.finish := by
  have hvisited := h.visitAll conserves_retire
  exact hvisited.congr (List.Perm.of_eq (finish_orders s)) rfl hvisited.valued

/-- **Accounting.** After every step of every run, each model's counts balance, `any_live` says whether a
model is live, the valuations counted are of distinct fills at each horizon, and at the end every placed order
is filled or expired. -/
theorem accounting (P : Platform) (cfg : QueueSimConfig) (es : List SimStep) :
    (∀ m, Balanced (run P cfg es) m) ∧
    (∀ o ∈ (run P cfg es).orders, o.anyLive = true ↔ ∃ m, (o.models m).live = true) ∧
    (∀ m d h, ((run P cfg es).res m).valuedByDepth d h =
      (run P cfg es).valued.countP ((run P cfg es).valuedAt m d h)) ∧
    (run P cfg es).valued.Nodup ∧
    ∀ m, ((run P cfg es).finish.res m).placed =
      ((run P cfg es).finish.res m).filled + ((run P cfg es).finish.res m).reasons .expired := by
  obtain ⟨hsound, htallied⟩ := tallied_run P cfg es
  refine ⟨htallied.balanced hsound, fun o ho => ?_, htallied.valued.valuedByDepth,
    (List.nodup_append.mp htallied.valued.once).1, fun m => ?_⟩
  · rw [hsound.flagged o ho]
    exact SyntheticOrder.someLive_iff
  · have hplaced := htallied.finish.placed_eq m
    have hnone : (run P cfg es).finish.orders.countP (fun o => (o.models m).live) = 0 := by
      apply List.countP_eq_zero.mpr
      intro o ho
      have hflagged : o.Flagged := by
        rw [finish_orders] at ho
        exact (hsound.visitAll updates_retire).flagged o ho
      rw [hflagged.dead (finish_dead hsound o ho) m]
      exact Bool.false_ne_true
    rw [hnone, Nat.add_zero] at hplaced
    exact hplaced

end QueueSim

end Carteret
