import Carteret.QueueVisits

/-!
# Accounting of the simulator

1. A model of an order is live, filled or expired, and nothing else (`ModelState.Proper`).
2. Each count of the results is the number of orders that meet a condition (`SyntheticOrder.counted`).
3. A fill is valued at most once for each horizon: the valuations made and to be made name distinct fills
   (`Ledger.Valued`).
4. Every loop body keeps all three (`Moved`, `Conserves`).
-/

namespace Carteret

/-! ## Model states -/

/-- Live, filled or expired. -/
def ModelState.Proper (s : ModelState) : Prop :=
  s.live = true ∧ s.filled = false ∨ s.live = false ∧ s.filled = true ∧ s.reason ≠ .expired ∨
    s.live = false ∧ s.filled = false ∧ s.reason = .expired

namespace ModelState

variable {s : ModelState}

theorem Proper.fill (ts : UInt64) {why : FillReason} (hwhy : why ≠ .expired) : (s.fill ts why).Proper :=
  .inr (.inl ⟨rfl, rfl, hwhy⟩)

theorem Proper.expire (h : s.Proper) (hl : s.live = true) : s.expire.Proper := by
  rcases h with h | h | h
  · exact .inr (.inr ⟨rfl, h.2, rfl⟩)
  · rw [hl] at h; cases h.1
  · rw [hl] at h; cases h.1

theorem Proper.not_filled (h : s.Proper) (hl : s.live = true) : s.filled = false := by
  rcases h with h | h | h
  · exact h.2
  · rw [hl] at h; cases h.1
  · rw [hl] at h; cases h.1

end ModelState

/-- All models of the order are proper. -/
def SyntheticOrder.Proper (o : SyntheticOrder) : Prop := ∀ m, (o.models m).Proper

/-! ## Counts -/

/-- The counts of a model's results. -/
inductive Counter
  | placed
  | filled
  | symbolPlaced (locate : UInt16)
  | symbolFilled (locate : UInt16)
  | reasons (why : FillReason)
  | timeToFill (i : Fin 12)
  | placedByDepth (d : Fin 6)
  | filledByDepth (d : Fin 6)
  | placedByAhead (g : Fin 18)
  | filledByAhead (g : Fin 18)
  | symbolAheadPlaced (locate : UInt16) (g : Fin 18)
  | symbolAheadFilled (locate : UInt16) (g : Fin 18)

/-- The value of a count. -/
def ModelResults.count (r : ModelResults) : Counter → ℕ
  | .placed => r.placed
  | .filled => r.filled
  | .symbolPlaced l => (r.bySymbol l).placed
  | .symbolFilled l => (r.bySymbol l).filled
  | .reasons w => r.reasons w
  | .timeToFill i => r.timeToFill i
  | .placedByDepth d => r.placedByDepth d
  | .filledByDepth d => r.filledByDepth d
  | .placedByAhead g => r.placedByAhead g
  | .filledByAhead g => r.filledByAhead g
  | .symbolAheadPlaced l g => (r.bySymbolAhead l).placed g
  | .symbolAheadFilled l g => (r.bySymbolAhead l).filled g

namespace SyntheticOrder

/-- The order counts towards a placement count. -/
def placedIn (o : SyntheticOrder) : Counter → Bool
  | .placed => true
  | .symbolPlaced l => o.locate = l
  | .placedByDepth d => depthBucket o.depthAtEntry = d
  | .placedByAhead g => aheadGrid o.depthAtEntry = g
  | .symbolAheadPlaced l g => o.locate = l ∧ aheadGrid o.depthAtEntry = g
  | _ => false

/-- A fill of the order at `ts` counts towards a count. -/
def fillIn (o : SyntheticOrder) (ts : UInt64) (why : FillReason) : Counter → Bool
  | .filled => true
  | .symbolFilled l => o.locate = l
  | .reasons w => why = w
  | .timeToFill i => fillTimeBucket (ts - o.enteredTs) = i
  | .filledByDepth d => depthBucket o.depthAtEntry = d
  | .filledByAhead g => aheadGrid o.depthAtEntry = g
  | .symbolAheadFilled l g => o.locate = l ∧ aheadGrid o.depthAtEntry = g
  | _ => false

/-- The order counts towards a count of the model `m`. -/
def counted (o : SyntheticOrder) (m : QueueModel) (c : Counter) : Bool :=
  o.placedIn c || ((o.models m).filled && o.fillIn (o.models m).fillTs (o.models m).reason c) ||
    (!(o.models m).live && !(o.models m).filled && match c with
      | .reasons w => w = .expired
      | _ => false)

/-- One for an order that is counted. -/
def weight (m : QueueModel) (c : Counter) (o : SyntheticOrder) : ℕ := (o.counted m c).toNat

end SyntheticOrder

/-! ## What the tallies do to the counts -/

section

variable {cfg : QueueSimConfig} {L : Ledger} {o : SyntheticOrder} {m m' : QueueModel} {ts : UInt64}
  {why : FillReason} {c : Counter}

theorem addTo_one {κ : Type} [DecidableEq κ] (f : κ → ℕ) (k k' : κ) :
    addTo f k 1 k' = f k' + (decide (k = k')).toNat := by
  unfold addTo
  by_cases h : k' = k
  · subst h
    simp
  · rw [Function.update_of_ne h]
    simp [Ne.symm h]

theorem countFill_count : ((L.countFill cfg o m ts why).res m').count c =
    (L.res m').count c + if m' = m then (o.fillIn ts why c).toNat else 0 := by
  unfold Ledger.countFill
  by_cases hm : m' = m
  · subst hm
    simp only [Ledger.setRes_self, if_true]
    unfold ModelResults.count SyntheticOrder.fillIn
    cases c with
    | symbolFilled l =>
      by_cases hl : l = o.locate
      · subst hl; simp
      · simp [Function.update_of_ne hl, Ne.symm hl]
    | symbolPlaced l =>
      by_cases hl : l = o.locate
      · subst hl; simp
      · simp [Function.update_of_ne hl]
    | symbolAheadFilled l g =>
      by_cases hl : l = o.locate
      · subst hl; simp [addTo_one]
      · simp [Function.update_of_ne hl, Ne.symm hl]
    | symbolAheadPlaced l g =>
      by_cases hl : l = o.locate
      · subst hl; simp
      · simp [Function.update_of_ne hl]
    | _ => simp [addTo_one]
  · simp only [Ledger.setRes_of_ne L hm, hm, if_false, Nat.add_zero]

theorem countPlaced_count :
    ((L.countPlaced o).res m).count c = (L.res m).count c + (o.placedIn c).toNat := by
  unfold Ledger.countPlaced ModelResults.count SyntheticOrder.placedIn
  cases c with
  | symbolFilled l =>
    by_cases hl : l = o.locate
    · subst hl; simp
    · simp [Function.update_of_ne hl]
  | symbolPlaced l =>
    by_cases hl : l = o.locate
    · subst hl; simp
    · simp [Function.update_of_ne hl, Ne.symm hl]
  | symbolAheadFilled l g =>
    by_cases hl : l = o.locate
    · subst hl; simp
    · simp [Function.update_of_ne hl]
  | symbolAheadPlaced l g =>
    by_cases hl : l = o.locate
    · subst hl; simp [addTo_one]
    · simp [Function.update_of_ne hl, Ne.symm hl]
  | _ => simp [addTo_one]

theorem attributeCancel_count {w : Bool} {qty before : ℚ} :
    ((L.attributeCancel o w qty before).res m).count c = (L.res m).count c := by
  unfold Ledger.attributeCancel
  by_cases hm : m = .exact
  · subst hm
    rw [Ledger.setRes_self]
    rfl
  · rw [Ledger.setRes_of_ne L hm]

theorem settle_count (b : ReferenceBook) : ((L.settle b ts).res m).count c = (L.res m).count c := by
  refine settle_keeps (fun L => (L.res m).count c) (fun _ _ => rfl) (fun _ _ => rfl) ?_ b ts L
  intro L k x y z
  by_cases hm : m = k
  · subst hm
    simp only [Ledger.setRes_self]
    rfl
  · simp only [Ledger.setRes_of_ne L hm]

end

/-! ## Valuations -/

/-- The fill is the model's, in this depth bucket. -/
def FillCall.isAt (f : FillCall) (m : QueueModel) (d : Fin 6) : Bool :=
  f.model = m ∧ depthBucket f.order.depthAtEntry = d

namespace Ledger

/-- The valuation is at this horizon, of a fill of the model in this depth bucket. -/
def valuedAt (L : Ledger) (m : QueueModel) (d : Fin 6) (h : Fin 3) (v : ℕ × Fin 3) : Bool :=
  L.fills[v.1]?.any (fun f => f.isAt m d) && v.2 == h

/-- The fills and horizons that have been valued or will be. -/
def valuations (L : Ledger) : List (ℕ × Fin 3) := L.valued ++ L.pending.map fun p => (p.fillNo, p.horizon)

/-- The counters by depth count the fills and their valuations, none twice. -/
structure Valued (L : Ledger) : Prop where
  once : L.valuations.Nodup
  fill_lt : ∀ v ∈ L.valued, v.1 < L.fills.length
  pending : ∀ p ∈ L.pending, ∃ f, L.fills[p.fillNo]? = some f ∧ f.isAt p.model p.depthBucket = true
  valuedByDepth : ∀ m d h, (L.res m).valuedByDepth d h = L.valued.countP (L.valuedAt m d h)
  filledByDepth : ∀ m d, (L.res m).filledByDepth d = L.fills.countP fun f => f.isAt m d

variable {L : Ledger}

/-- Counters that are not by depth do not matter. -/
theorem Valued.setRes (h : L.Valued) (m : QueueModel) {f : ModelResults → ModelResults}
    (hvalued : ∀ r, (f r).valuedByDepth = r.valuedByDepth)
    (hfilled : ∀ r, (f r).filledByDepth = r.filledByDepth) : (L.setRes m f).Valued := by
  have hsame (k : QueueModel) : ((L.setRes m f).res k).valuedByDepth = (L.res k).valuedByDepth ∧
      ((L.setRes m f).res k).filledByDepth = (L.res k).filledByDepth := by
    by_cases hk : k = m
    · subst hk
      rw [setRes_self, hvalued, hfilled]
      exact ⟨rfl, rfl⟩
    · rw [setRes_of_ne L hk]
      exact ⟨rfl, rfl⟩
  refine ⟨h.once, h.fill_lt, h.pending, fun k d i => ?_, fun k d => ?_⟩
  · rw [(hsame k).1]
    exact h.valuedByDepth k d i
  · rw [(hsame k).2]
    exact h.filledByDepth k d

/-- A valuation names a fill that there is. -/
theorem Valued.valuations_lt (h : L.Valued) {v : ℕ × Fin 3} (hv : v ∈ L.valuations) :
    v.1 < L.fills.length := by
  rcases List.mem_append.mp hv with hv | hv
  · exact h.fill_lt v hv
  · obtain ⟨p, hp, rfl⟩ := List.mem_map.mp hv
    obtain ⟨f, hf, -⟩ := h.pending p hp
    exact (List.getElem?_eq_some_iff.mp hf).1

/-- A new fill is to be valued once at each horizon. -/
theorem Valued.countFill (h : L.Valued) (cfg : QueueSimConfig) (o : SyntheticOrder) (m : QueueModel)
    (ts : UInt64) (why : FillReason) : (L.countFill cfg o m ts why).Valued := by
  set L' := L.countFill cfg o m ts why with hL'
  have hfills : L'.fills = L.fills ++ [⟨o, m, ts, why⟩] := rfl
  have hpending : L'.pending = L.pending ++ (List.finRange 3).map (valuation cfg o m ts L.fills.length) := rfl
  have hvalued : L'.valued = L.valued := rfl
  have hold (i : ℕ) (hi : i < L.fills.length) : L'.fills[i]? = L.fills[i]? := by
    rw [hfills, List.getElem?_append_left hi]
  have hnew : L'.fills[L.fills.length]? = some ⟨o, m, ts, why⟩ := by
    rw [hfills]
    simp
  have hadded : ((List.finRange 3).map (valuation cfg o m ts L.fills.length)).map
      (fun p => (p.fillNo, p.horizon)) = (List.finRange 3).map fun h => (L.fills.length, h) := by
    rw [List.map_map]
    rfl
  refine ⟨?_, fun v hv => ?_, fun p hp => ?_, fun k d i => ?_, fun k d => ?_⟩
  · show (L'.valued ++ L'.pending.map _).Nodup
    rw [hvalued, hpending, List.map_append, ← List.append_assoc, hadded]
    apply List.nodup_append.mpr
    refine ⟨h.once, (List.nodup_finRange 3).map fun a b hab => (Prod.mk.inj hab).2, ?_⟩
    rintro v hv _ hw rfl
    obtain ⟨i, -, rfl⟩ := List.mem_map.mp hw
    exact absurd (h.valuations_lt hv) (lt_irrefl _)
  · have hlt := h.fill_lt v hv
    rw [hfills, List.length_append]
    omega
  · rw [hpending] at hp
    rcases List.mem_append.mp hp with hp | hp
    · obtain ⟨f, hf, hat⟩ := h.pending p hp
      refine ⟨f, ?_, hat⟩
      rw [hold _ (List.getElem?_eq_some_iff.mp hf).1, hf]
    · obtain ⟨i, -, rfl⟩ := List.mem_map.mp hp
      exact ⟨_, hnew, by simp [FillCall.isAt, valuation]⟩
  · have hcounter : (L'.res k).valuedByDepth = (L.res k).valuedByDepth := by
      rw [hL']
      unfold Ledger.countFill
      by_cases hk : k = m
      · subst hk
        simp only [setRes_self]
      · simp only [setRes_of_ne L hk]
    rw [hcounter, hvalued, h.valuedByDepth]
    apply List.countP_congr
    intro v hv
    unfold valuedAt
    rw [hold _ (h.fill_lt v hv)]
  · have hcounter : (L'.res k).filledByDepth d =
        (L.res k).filledByDepth d + (FillCall.isAt ⟨o, m, ts, why⟩ k d).toNat := by
      rw [hL']
      unfold Ledger.countFill FillCall.isAt
      by_cases hk : k = m
      · subst hk
        simp only [setRes_self, addTo_one, true_and]
      · simp only [setRes_of_ne L hk, Ne.symm hk, false_and, decide_false, Bool.toNat_false, Nat.add_zero]
    rw [hcounter, hfills, List.countP_append, h.filledByDepth, List.countP_singleton]
    cases FillCall.isAt ⟨o, m, ts, why⟩ k d <;> rfl

/-- One valuation of a loop over those due. -/
theorem Valued.settleOne {p : PendingValuation} {ps : List PendingValuation}
    (h : { L with pending := L.pending ++ p :: ps }.Valued) (b : ReferenceBook) (ts : UInt64) :
    { L.settleOne b ts p with pending := (L.settleOne b ts p).pending ++ ps }.Valued := by
  have hdropped : { L with pending := L.pending ++ ps }.Valued := by
    refine ⟨h.once.sublist ?_, h.fill_lt, fun q hq => h.pending q ?_, h.valuedByDepth, h.filledByDepth⟩
    · have hsub : (L.pending ++ ps).Sublist (L.pending ++ p :: ps) :=
        (List.sublist_cons_self p ps).append_left L.pending
      exact (hsub.map _).append_left L.valued
    · rcases List.mem_append.mp hq with hq | hq
      · exact List.mem_append_left _ hq
      · exact List.mem_append_right _ (List.mem_cons_of_mem p hq)
  unfold Ledger.settleOne
  by_cases hdue : p.dueTs > ts
  · rw [if_pos hdue]
    simp only [List.append_assoc, List.singleton_append]
    exact h
  rw [if_neg hdue]
  cases mid b p.locate with
  | none => exact hdropped
  | some x =>
    obtain ⟨f, hf, hat⟩ := h.pending p (List.mem_append_right _ (List.mem_cons_self ..))
    have hlt : p.fillNo < L.fills.length := (List.getElem?_eq_some_iff.mp hf).1
    refine ⟨?_, ?_, hdropped.pending, fun m d i => ?_, fun m d => ?_⟩
    · -- the valuation moves from those to be made to those made
      have hperm : (L.valued ++ [(p.fillNo, p.horizon)] ++
          (L.pending ++ ps).map fun p => (p.fillNo, p.horizon)).Perm
          (L.valued ++ (L.pending ++ p :: ps).map fun p => (p.fillNo, p.horizon)) := by
        rw [List.append_assoc]
        apply List.Perm.append_left
        rw [List.map_append, List.map_append, List.map_cons, List.singleton_append]
        exact List.perm_middle.symm
      exact hperm.nodup_iff.mpr h.once
    · intro v hv
      rcases List.mem_append.mp hv with hv | hv
      · exact h.fill_lt v hv
      · rw [List.mem_singleton.mp hv]
        exact hlt
    · have hone : L.valuedAt m d i (p.fillNo, p.horizon) =
          decide (m = p.model ∧ d = p.depthBucket ∧ i = p.horizon) := by
        have hat' : f.model = p.model ∧ depthBucket f.order.depthAtEntry = p.depthBucket := by
          simpa [FillCall.isAt] using hat
        have hf' : L.fills[p.fillNo]? = some f := hf
        unfold valuedAt
        rw [Bool.eq_iff_iff]
        simp only [hf', Option.any_some, FillCall.isAt, hat'.1, hat'.2, Bool.and_eq_true, decide_eq_true_eq,
          beq_iff_eq]
        grind
      have hmade : (L.valued ++ [(p.fillNo, p.horizon)]).countP (L.valuedAt m d i) =
          (L.res m).valuedByDepth d i +
            (decide (m = p.model ∧ d = p.depthBucket ∧ i = p.horizon)).toNat := by
        have hold : (L.res m).valuedByDepth d i = L.valued.countP (L.valuedAt m d i) := h.valuedByDepth m d i
        rw [List.countP_append, hold, List.countP_singleton, hone]
        cases decide (m = p.model ∧ d = p.depthBucket ∧ i = p.horizon) <;> rfl
      refine Eq.trans ?_ hmade.symm
      dsimp only
      by_cases hm : m = p.model
      · subst hm
        simp only [setRes_self, true_and]
        by_cases hd : d = p.depthBucket
        · subst hd
          simp only [Function.update_self, addTo_one, true_and, eq_comm]
        · simp [hd]
      · simp [setRes_of_ne L hm, hm]
    · refine Eq.trans ?_ (h.filledByDepth m d)
      dsimp only
      by_cases hm : m = p.model
      · subst hm
        simp only [setRes_self]
      · simp only [setRes_of_ne L hm]

theorem Valued.settle (h : L.Valued) (b : ReferenceBook) (ts : UInt64) : (L.settle b ts).Valued := by
  have hfold : ∀ (ps : List PendingValuation) (L : Ledger), { L with pending := L.pending ++ ps }.Valued →
      (ps.foldl (Ledger.settleOne b ts) L).Valued := by
    intro ps
    induction ps with
    | nil =>
      intro L hL
      simp only [List.append_nil] at hL
      exact hL
    | cons p ps ih =>
      intro L hL
      exact ih _ (hL.settleOne b ts)
  exact hfold L.pending { L with pending := [] } h

/-- Valuations of a depth bucket at a horizon are no more than its fills. -/
theorem Valued.valued_le (h : L.Valued) (m : QueueModel) (d : Fin 6) (i : Fin 3) :
    (L.res m).valuedByDepth d i ≤ (L.res m).filledByDepth d := by
  rw [h.valuedByDepth, h.filledByDepth, List.countP_eq_length_filter,
    ← List.length_findIdxs (p := fun f => FillCall.isAt f m d) (s := 0), ← List.length_map Prod.fst]
  set vs := L.valued.filter (L.valuedAt m d i)
  have hat (v : ℕ × Fin 3) (hv : v ∈ vs) : v.2 = i ∧ v ∈ L.valued ∧
      L.fills[v.1]?.any (fun f => f.isAt m d) = true := by
    obtain ⟨hmem, hval⟩ := List.mem_filter.mp hv
    have hval' := Bool.and_eq_true_iff.mp hval
    exact ⟨by simpa using hval'.2, hmem, hval'.1⟩
  have hnodup : (vs.map Prod.fst).Nodup := by
    have hvs : vs.Nodup := (List.nodup_append.mp h.once).1.filter _
    refine hvs.map_on fun v hv w hw heq => Prod.ext heq ?_
    rw [(hat v hv).1, (hat w hw).1]
  apply (hnodup.subperm fun k hk => ?_).length_le
  obtain ⟨v, hv, rfl⟩ := List.mem_map.mp hk
  obtain ⟨-, hmem, hany⟩ := hat v hv
  have hlt := h.fill_lt v hmem
  rw [List.getElem?_eq_getElem hlt, Option.any_some] at hany
  exact (List.mem_findIdxs_iff_pos_getElem hlt).mpr hany

end Ledger

/-! ## Loop bodies conserve -/

/-- From one ledger and order to another: a count and the order's weight in it move together. -/
structure Moved (p p' : Ledger × SyntheticOrder) : Prop where
  proper : p.2.Proper → p'.2.Proper
  count : p.2.Proper → ∀ m c,
    (p'.1.res m).count c + p.2.weight m c = (p.1.res m).count c + p'.2.weight m c
  valued : p.1.Valued → p'.1.Valued

theorem Moved.refl (p : Ledger × SyntheticOrder) : Moved p p := ⟨id, fun _ _ _ => rfl, id⟩

theorem Moved.trans {p q r : Ledger × SyntheticOrder} (h : Moved p q) (h' : Moved q r) : Moved p r where
  proper := fun hp => h'.proper (h.proper hp)
  count := fun hp m c => by
    have h1 := h.count hp m c
    have h2 := h'.count (h.proper hp) m c
    omega
  valued := fun hv => h'.valued (h.valued hv)

/-- The loop body moves counts with the orders. -/
def Conserves (f : Visit) : Prop := ∀ L o, Moved (L, o) (f L o)

section

variable {o : SyntheticOrder} {m : QueueModel} {c : Counter}

theorem proper_setModel {st : ModelState} (h : o.Proper) (hst : st.Proper) : (o.setModel m st).Proper := by
  intro k
  show (Function.update o.models m st k).Proper
  by_cases hk : k = m
  · subst hk; rw [Function.update_self]; exact hst
  · rw [Function.update_of_ne hk]; exact h k

theorem weight_setModel_of_ne {st : ModelState} {k : QueueModel} (hk : k ≠ m) :
    (o.setModel m st).weight k c = o.weight k c := by
  have hmodel : (o.setModel m st).models k = o.models k := Function.update_of_ne hk _ _
  unfold SyntheticOrder.weight SyntheticOrder.counted
  rw [hmodel]
  rfl

theorem weight_setModel (st : ModelState) :
    (o.setModel m st).weight m c = (o.placedIn c || (st.filled && o.fillIn st.fillTs st.reason c) ||
      (!st.live && !st.filled && match c with
        | .reasons w => w = .expired
        | _ => false)).toNat := by
  have hmodel : (o.setModel m st).models m = st := Function.update_self _ _ _
  unfold SyntheticOrder.weight SyntheticOrder.counted
  rw [hmodel]
  rfl

/-- The ahead-count does not count. -/
theorem weight_deduct (q : ℚ) (k : QueueModel) :
    (o.setModel m ((o.models m).deduct q)).weight k c = o.weight k c := by
  by_cases hk : k = m
  · subst hk
    rw [weight_setModel]
    rfl
  · exact weight_setModel_of_ne hk

theorem conserves_id : Conserves fun L o => (L, o) := fun L o => Moved.refl (L, o)

theorem Conserves.ite {f g : Visit} (hf : Conserves f) (hg : Conserves g) (p : SyntheticOrder → Prop)
    [DecidablePred p] : Conserves fun L o => if p o then f L o else g L o := by
  intro L o
  dsimp only
  split
  · exact hf L o
  · exact hg L o

/-- Writing ahead-counts and references changes no count. -/
def SameCounts (o o' : SyntheticOrder) : Prop :=
  (o.Proper → o'.Proper) ∧ ∀ m c, o'.weight m c = o.weight m c

theorem SameCounts.moved {o' : SyntheticOrder} (h : SameCounts o o') (L : Ledger) :
    Moved (L, o) (L, o') := ⟨h.1, fun _ m c => by rw [h.2 m c], id⟩

theorem sameCounts_deduct (m : QueueModel) (q : ℚ) :
    SameCounts o (o.setModel m ((o.models m).deduct q)) :=
  ⟨fun h => proper_setModel h (h m), fun k _ => weight_deduct q k⟩

theorem sameCounts_eraseAhead (ref : Ref) : SameCounts o (o.eraseAhead ref) := ⟨id, fun _ _ => rfl⟩

/-- A fill of a live model. -/
theorem moved_fill (cfg : QueueSimConfig) (L : Ledger) (ts : UInt64) {why : FillReason} (hwhy : why ≠ .expired)
    (hl : (o.models m).live = true) :
    Moved (L, o) (L.countFill cfg (o.setModel m ((o.models m).fill ts why)) m ts why,
      o.setModel m ((o.models m).fill ts why)) := by
  refine ⟨fun h => proper_setModel h (.fill ts hwhy), fun h k c => ?_, fun h => h.countFill cfg _ m ts why⟩
  rw [countFill_count]
  by_cases hk : k = m
  · subst hk
    have hfilled := (h k).not_filled hl
    have hexcl : (o.placedIn c && o.fillIn ts why c) = false := by
      cases c <;> simp [SyntheticOrder.placedIn, SyntheticOrder.fillIn]
    have hfill : (o.setModel k ((o.models k).fill ts why)).fillIn ts why c = o.fillIn ts why c := rfl
    rw [weight_setModel, if_pos rfl, hfill]
    unfold SyntheticOrder.weight SyntheticOrder.counted
    rw [hl, hfilled]
    cases hp : o.placedIn c <;> cases hq : o.fillIn ts why c <;>
      simp [ModelState.fill, hp, hq] at hexcl ⊢
  · rw [if_neg hk, weight_setModel_of_ne hk, Nat.add_zero]

/-- One model expires. -/
theorem moved_expire (L : Ledger) (hl : (o.models m).live = true) :
    Moved (L, o) (L.setRes m fun r => { r with reasons := addTo r.reasons .expired 1 },
      o.setModel m (o.models m).expire) := by
  refine ⟨fun h => proper_setModel h ((h m).expire hl), fun h k c => ?_, fun h => ?_⟩
  rotate_left
  · have hL : L.Valued := h
    dsimp only
    refine hL.setRes m ?_ ?_ <;> exact fun _ => rfl
  dsimp only
  by_cases hk : k = m
  · subst hk
    have hfilled : (o.models k).filled = false := (h k).not_filled hl
    rw [weight_setModel]
    unfold SyntheticOrder.weight SyntheticOrder.counted
    rw [hl, hfilled, Ledger.setRes_self]
    unfold ModelResults.count SyntheticOrder.placedIn
    cases c <;> simp [ModelState.expire, hfilled, addTo_one]
    rename_i w
    cases w <;> simp
  · rw [weight_setModel_of_ne hk, Ledger.setRes_of_ne L hk]

theorem moved_attributed (L : Ledger) (o' : SyntheticOrder) (w : Bool) (qty before : ℚ) :
    Moved (L, o) (L.attributeCancel o' w qty before, o) := by
  refine ⟨id, fun _ m c => ?_, fun h => ?_⟩
  · rw [attributeCancel_count]
  · have hL : L.Valued := h
    dsimp only
    unfold Ledger.attributeCancel
    refine hL.setRes .exact ?_ ?_ <;> exact fun _ => rfl

theorem robust_moved (p : Ledger × SyntheticOrder) : Robust fun L o => Moved p (L, o) where
  fill := fun cfg _ ts hwhy hl h => h.trans (moved_fill cfg _ ts hwhy hl)
  expire := fun _ hl h => h.trans (moved_expire _ hl)
  deduct := fun m q h => h.trans ((sameCounts_deduct m q).moved _)
  eraseAhead := fun ref h => h.trans ((sameCounts_eraseAhead ref).moved _)
  dead := fun h => h.trans ⟨id, fun _ _ _ => rfl, id⟩
  attributed := fun o' w qty before h => h.trans (moved_attributed _ o' w qty before)
  coin := fun _ h => h.trans ⟨id, fun _ _ _ => rfl, fun hv =>
    ⟨hv.once, hv.fill_lt, hv.pending, hv.valuedByDepth, hv.filledByDepth⟩⟩

theorem conserves_visitOf (cfg : QueueSimConfig) (b : ReferenceBook) (ev : BookEvent) :
    Conserves (visitOf cfg b ev) := fun L o => (robust_moved (L, o)).visitOf cfg b ev L o (Moved.refl _)

theorem conserves_sweep (cfg : QueueSimConfig) (ts : UInt64) : Conserves (sweepVisit cfg ts) := fun L o =>
  (robust_moved (L, o)).sweep cfg ts L o (Moved.refl _)

theorem conserves_retire : Conserves retireVisit := fun L o => (robust_moved (L, o)).retire L o (Moved.refl _)

end

end Carteret
