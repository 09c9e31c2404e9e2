import Carteret.QueueArms
import Carteret.QueueTallies

/-!
# The calls of `on_fill`

1. The calls made for a symbol are as many as its fills (`Ledger.Called`), and a call is never taken back.
2. A message calls `on_fill` for a symbol exactly when it fills one of the symbol's orders
   (`called_iff`).
-/

namespace Carteret

/-! ## The calls -/

/-- The call is for a fill of the model `m` in the symbol. -/
def FillCall.isOf (f : FillCall) (m : QueueModel) (l : UInt16) : Bool := f.model = m ∧ f.order.locate = l

/-- A call for each fill that is counted. -/
def Ledger.Called (L : Ledger) : Prop :=
  ∀ m l, L.fills.countP (·.isOf m l) = ((L.res m).bySymbol l).filled

/-- The calls so far and those to come. -/
structure Ledger.CalledFrom (calls : List FillCall) (L : Ledger) : Prop where
  called : L.Called
  before : calls <+: L.fills

section

variable {L : Ledger} {calls : List FillCall}

/-- Counts of fills and the calls are the same. -/
theorem Ledger.CalledFrom.congr (h : L.CalledFrom calls) {L' : Ledger} (hfills : L'.fills = L.fills)
    (hcount : ∀ m l, (L'.res m).count (.symbolFilled l) = (L.res m).count (.symbolFilled l)) :
    L'.CalledFrom calls := by
  refine ⟨fun m l => ?_, hfills ▸ h.before⟩
  rw [hfills, h.called m l]
  exact (hcount m l).symm

theorem calledFrom_countFill (h : L.CalledFrom calls) (cfg : QueueSimConfig) (o : SyntheticOrder)
    (m : QueueModel) (ts : UInt64) (why : FillReason) : (L.countFill cfg o m ts why).CalledFrom calls := by
  refine ⟨fun k l => ?_, h.before.trans (List.prefix_append ..)⟩
  have hcount : (((L.countFill cfg o m ts why).res k).bySymbol l).filled =
      ((L.res k).bySymbol l).filled + if k = m then (o.fillIn ts why (.symbolFilled l)).toNat else 0 :=
    countFill_count (c := .symbolFilled l)
  have hfills : (L.countFill cfg o m ts why).fills = L.fills ++ [⟨o, m, ts, why⟩] := rfl
  rw [hcount, hfills, List.countP_append, h.called k l, List.countP_singleton]
  unfold FillCall.isOf SyntheticOrder.fillIn
  by_cases hk : k = m
  · subst hk
    by_cases hl : o.locate = l <;> simp [hl]
  · simp [hk, Ne.symm hk]

theorem calledFrom_attributed (h : L.CalledFrom calls) (o : SyntheticOrder) (w : Bool) (qty before : ℚ) :
    (L.attributeCancel o w qty before).CalledFrom calls :=
  h.congr rfl fun _ _ => attributeCancel_count

theorem calledFrom_expired (h : L.CalledFrom calls) (m : QueueModel) :
    (L.setRes m fun r => { r with reasons := addTo r.reasons .expired 1 }).CalledFrom calls := by
  refine h.congr rfl fun k l => ?_
  by_cases hk : k = m
  · subst hk
    rw [Ledger.setRes_self]
    rfl
  · rw [Ledger.setRes_of_ne L hk]

theorem robust_calledFrom (calls : List FillCall) : Robust fun L _ => L.CalledFrom calls where
  fill := fun cfg m ts _ _ h => calledFrom_countFill h cfg _ m ts _
  expire := fun m _ h => calledFrom_expired h m
  deduct := fun _ _ h => h
  eraseAhead := fun _ h => h
  dead := fun h => h
  attributed := fun o' w qty before h => calledFrom_attributed h o' w qty before
  coin := fun _ h => h.congr rfl fun _ _ => rfl

theorem settle_fills (b : ReferenceBook) (ts : UInt64) (L : Ledger) : (L.settle b ts).fills = L.fills :=
  settle_keeps Ledger.fills (fun _ _ => rfl) (fun _ _ => rfl) (fun _ _ _ _ _ => rfl) b ts L

end

namespace QueueSim

/-- Calls are made when a message arrives, one for each fill. -/
theorem called_invariant (calls : List FillCall) :
    Invariant anyMessage fun s => Sound s ∧ s.toLedger.CalledFrom calls where
  clock := fun h hsame => ⟨sound_invariant.clock h.1 hsame, by rw [hsame.ledger]; exact h.2⟩
  message := fun {s} msg _ h => by
    refine ⟨sound_invariant.message msg trivial h.1, ?_⟩
    have hbook : Sound { s with book := bookAfter s.book msg } := h.1.withBook _
    rw [hbook.react_eq]
    exact ledger_visitAll ((robust_calledFrom calls).visitOf _ _ _) h.2
  settle := fun {s} ts h =>
    ⟨sound_invariant.settle ts h.1, h.2.congr (settle_fills s.book ts s.toLedger) fun _ _ => settle_count s.book⟩
  sweep := fun {s} ts h =>
    ⟨sound_invariant.sweep ts h.1, ledger_visitAll ((robust_calledFrom calls).sweep _ _) h.2⟩
  retire := fun {s} locate h => by
    refine ⟨sound_invariant.retire locate h.1, ?_⟩
    rw [h.1.visitAt_eq]
    exact ledger_visitAll ((robust_calledFrom calls).retire.ite preserves_id _) h.2
  push := fun {s locate side ts o} he h => by
    refine ⟨sound_invariant.push he h.1, h.2.congr rfl fun m l => ?_⟩
    have hcount := countPlaced_count (L := s.toLedger) (o := o) (m := m) (c := .symbolFilled l)
    exact hcount

/-- Nothing but a message calls `on_fill`. -/
theorem silent_invariant (calls : List FillCall) :
    Invariant (fun _ _ => False) fun s => Sound s ∧ s.fills = calls where
  clock := fun h hsame => ⟨sound_invariant.clock h.1 hsame, by rw [hsame.ledger]; exact h.2⟩
  message := fun _ hc _ => hc.elim
  settle := fun {s} ts h => ⟨sound_invariant.settle ts h.1, (settle_fills s.book ts s.toLedger).trans h.2⟩
  sweep := fun {s} ts h =>
    ⟨sound_invariant.sweep ts h.1, ledger_visitAll (I := fun L => L.fills = calls)
      ((preserves_expire (fun _ _ hL => hL) fun hL => hL).ite preserves_id _) h.2⟩
  retire := fun {s} locate h => by
    refine ⟨sound_invariant.retire locate h.1, ?_⟩
    rw [h.1.visitAt_eq]
    exact ledger_visitAll (I := fun L => L.fills = calls)
      (((preserves_expire (fun _ _ hL => hL) fun hL => hL).ite preserves_id _).ite preserves_id _) h.2
  push := fun he h => ⟨sound_invariant.push he h.1, h.2⟩

/-- The numbers of the orders of a symbol that the model has filled. -/
def filledSeqs (s : QueueSim) (m : QueueModel) (l : UInt16) : Finset ℕ :=
  ((s.orders.filter fun o => (o.models m).filled && decide (o.locate = l)).map SyntheticOrder.seq).toFinset

variable {s : QueueSim} {m : QueueModel} {l : UInt16}

theorem mem_filledSeqs {n : ℕ} :
    n ∈ s.filledSeqs m l ↔ ∃ o ∈ s.orders, (o.models m).filled = true ∧ o.locate = l ∧ o.seq = n := by
  unfold filledSeqs
  simp [and_assoc]

theorem card_filledSeqs (hs : Sound s) (ht : Tallied s) :
    (s.filledSeqs m l).card = ((s.res m).bySymbol l).filled := by
  have hweight (o : SyntheticOrder) :
      o.weight m (.symbolFilled l) = ((o.models m).filled && decide (o.locate = l)).toNat := by
    unfold SyntheticOrder.weight SyntheticOrder.counted
    simp [SyntheticOrder.placedIn, SyntheticOrder.fillIn]
  have hcount : ((s.res m).bySymbol l).filled = (s.orders.map (·.weight m (.symbolFilled l))).sum :=
    ht.count m (.symbolFilled l)
  have hsub := (List.filter_sublist (p := fun o : SyntheticOrder =>
    (o.models m).filled && decide (o.locate = l)) (l := s.orders)).map SyntheticOrder.seq
  unfold filledSeqs
  rw [List.toFinset_card_of_nodup (hs.seq_nodup.sublist hsub), List.length_map, ← List.countP_eq_length_filter,
    hcount]
  simp only [hweight]
  exact (sum_toNat _ _).symm

/-- What a model has filled is left alone. -/
theorem filled_on (hs : Sound s) (ht : Tallied s) (msg : Message) {o : SyntheticOrder} (ho : o ∈ s.orders)
    (hf : (o.models m).filled = true) :
    ∃ o' ∈ (s.on msg).orders, o'.seq = o.seq ∧ o'.locate = o.locate ∧ (o'.models m).filled = true := by
  obtain ⟨o', ho', hit, hhit, hsame⟩ := (on_extends hs msg).1 o ho
  have hflag := hs.flagged o ho
  have hl : (o.models m).live = false := by
    cases hl : (o.models m).live with
    | false => rfl
    | true =>
      rw [(ht.proper o ho m).not_filled hl] at hf
      cases hf
  refine ⟨o', ho', hsame.seq.trans (SameFate.see_seq hflag), ?_, ?_⟩
  · exact hsame.locate.trans (congrArg Placement.locate (SyntheticOrder.placement_see hflag hit))
  · rw [hsame.filled, SyntheticOrder.see_of_not_live hhit hl]
    exact hf

/-- **`on_fill` is called for a symbol when one of its orders is filled.** -/
theorem called_iff (hs : Sound s) (ht : Tallied s) (hc : s.toLedger.Called) (msg : Message) :
    (((s.on msg).fills.drop s.fills.length).any (·.isOf m l) = true ↔
      ∃ o ∈ s.orders, ∃ o' ∈ (s.on msg).orders, o'.seq = o.seq ∧ o'.locate = l ∧
        (o.models m).filled = false ∧ (o'.models m).filled = true) := by
  obtain ⟨hs', hcalled⟩ := @Invariant.on _ _ _ (called_invariant s.fills) ⟨hs, hc, List.prefix_refl _⟩ msg trivial
  obtain ⟨-, ht'⟩ := @Invariant.on _ _ _ tallied_invariant ⟨hs, ht⟩ msg trivial
  obtain ⟨calls, hcalls⟩ := hcalled.before
  have hsub : s.filledSeqs m l ⊆ (s.on msg).filledSeqs m l := by
    intro n hn
    obtain ⟨o, ho, hf, hloc, hseq⟩ := mem_filledSeqs.mp hn
    obtain ⟨o', ho', hseq', hloc', hf'⟩ := filled_on hs ht msg ho hf
    exact mem_filledSeqs.mpr ⟨o', ho', hf', hloc'.trans hloc, hseq'.trans hseq⟩
  have hcard : calls.countP (·.isOf m l) = ((s.on msg).filledSeqs m l \ s.filledSeqs m l).card := by
    have hafter := hcalled.called m l
    rw [← hcalls, List.countP_append, hc m l, ← card_filledSeqs hs ht, ← card_filledSeqs hs' ht'] at hafter
    rw [Finset.card_sdiff_of_subset hsub]
    omega
  have hdrop : (s.on msg).fills.drop s.fills.length = calls := by
    rw [← hcalls, List.drop_left]
  rw [hdrop, ← List.countP_pos_iff.trans List.any_eq_true.symm, hcard, Finset.card_pos]
  constructor
  · rintro ⟨n, hn⟩
    obtain ⟨hn, hnot⟩ := Finset.mem_sdiff.mp hn
    obtain ⟨o', ho', hf', hloc', rfl⟩ := mem_filledSeqs.mp hn
    obtain ⟨o, ho, hseq⟩ := step_old hs (.message msg) ho' hf'
    refine ⟨o, ho, o', ho', hseq.symm, hloc', ?_, hf'⟩
    obtain ⟨hit, -, hsame⟩ := step_fate hs (.message msg) ho ho' hseq
    have hloc : o'.locate = o.locate := hsame.locate.trans
      (congrArg Placement.locate (SyntheticOrder.placement_see (hs.flagged o ho) hit))
    by_contra hf
    exact hnot (mem_filledSeqs.mpr ⟨o, ho, Bool.eq_true_of_not_eq_false hf, hloc.symm.trans hloc', hseq⟩)
  · rintro ⟨o, ho, o', ho', hseq, hloc, hf, hf'⟩
    refine ⟨o'.seq, Finset.mem_sdiff.mpr ⟨mem_filledSeqs.mpr ⟨o', ho', hf', hloc, rfl⟩, fun hmem => ?_⟩⟩
    obtain ⟨o₁, ho₁, hf₁, -, hseq₁⟩ := mem_filledSeqs.mp hmem
    rw [hs.eq_of_seq_eq ho₁ ho (hseq₁.trans hseq), hf] at hf₁
    cases hf₁

end QueueSim

end Carteret
