import Carteret.QueuePosition

/-!
# The order of the queue models

1. An event does one of four things to a live order (`SyntheticOrder.Sight`).
2. While an order is live, its counts are in order: the optimistic model has no more ahead than any, none more
   than the conservative one, and the proportional model no more than the level holds (`Racing`).
3. So fills come in order too (`FillsOrdered`), for every order of an orderly run (`models_ordered`).
4. The side bytes and the width of a level's counter are needed (`not_models_ordered`).
-/

namespace Carteret

namespace SyntheticOrder

variable {b : ReferenceBook} {ev : BookEvent} {o : SyntheticOrder} {hit : Bool} {r : Resolved} {qty : Shares}

/-- The real order is at the order's level, by its side byte. -/
def Meets (r : Resolved) (o : SyntheticOrder) : Prop :=
  r.locate = o.locate ∧ r.side = o.side ∧ r.price = o.price

/-- What an event can make of a live order. -/
inductive Sight (b : ReferenceBook) (o : SyntheticOrder) (hit : Bool) : BookEvent → SyntheticOrder → Prop
  | nothing {ev : BookEvent} (h : ∀ r qty, ev.taking = some (r, qty) → ¬ Meets r o) : Sight b o hit ev o
  | swept {ev : BookEvent} (ts : UInt64) (why : FillReason) : Sight b o hit ev (o.fillLive ts why)
  | executed {r : Resolved} {qty : Shares} {ts : UInt64} (h : Meets r o) :
    Sight b o hit (.execution r qty ts) (o.executed r qty ts)
  | cancelled {r : Resolved} {qty : Shares} (h : Meets r o) :
    Sight b o hit (.cancel r qty) (o.cancelled r qty (cancelBefore b o qty) hit)

theorem sight (b : ReferenceBook) (ev : BookEvent) (hit : Bool) (hany : o.anyLive = true) : Sight b o hit ev (o.see b ev hit) := by
  have hother {r' : Resolved} {qty' : Shares} (hnot : ¬ Meets r' o) :
      ∀ r qty, some (r', qty') = some (r, qty) → ¬ Meets r o := by
    rintro r qty heq
    obtain ⟨rfl, rfl⟩ := Prod.mk.inj (Option.some.inj heq)
    exact hnot
  cases ev with
  | execution r qty ts =>
    unfold see
    by_cases hloc : o.locate = r.locate
    swap
    · simp only [if_neg hloc]
      exact .nothing (hother fun hc => hloc hc.1.symm)
    simp only [if_pos hloc]
    unfold seeExecution
    by_cases hside : o.side = r.side
    swap
    · rw [if_pos (by simp [hside])]
      exact .nothing (hother fun hc => hside hc.2.1.symm)
    rw [if_neg (by simp [hside, hany])]
    by_cases hthrough : throughTrade r o = true
    · rw [if_pos hthrough]
      exact .swept ts .tradeThrough
    rw [if_neg hthrough]
    by_cases hprice : r.price = o.price
    · rw [if_neg (not_not.mpr hprice)]
      exact .executed ⟨hloc.symm, hside.symm, hprice⟩
    · rw [if_pos hprice]
      exact .nothing (hother fun hc => hprice hc.2.2)
  | cancel r qty =>
    have hiff : atLevelOf r o = true ↔ Meets r o := by
      unfold atLevelOf Meets
      rw [hany]
      simp only [Bool.true_and, Bool.and_eq_true, beq_iff_eq]
      exact ⟨fun h => ⟨h.1.1.symm, h.1.2.symm, h.2.symm⟩, fun h => ⟨⟨h.1.symm, h.2.1.symm⟩, h.2.2.symm⟩⟩
    show Sight b o hit (.cancel r qty) (o.seeCancel b r qty hit)
    unfold seeCancel
    by_cases hat : atLevelOf r o = true
    · rw [if_pos hat]
      exact .cancelled (hiff.mp hat)
    · rw [if_neg hat]
      exact .nothing (hother fun hc => hat (hiff.mpr hc))
  | print locate price ts =>
    show Sight b o hit (.print locate price ts) (if o.locate = locate then o.seePrint price ts else o)
    unfold seePrint
    split_ifs
    · exact .nothing fun r qty heq => by cases heq
    · exact .swept ts .nonDisplayedPrint
    · exact .nothing fun r qty heq => by cases heq
  | quiet => exact .nothing fun r qty heq => by cases heq

end SyntheticOrder

/-! ## Levels and what is taken from them -/

section

variable {b b' : ReferenceBook} {o : SyntheticOrder} {ev : BookEvent} {r : Resolved} {qty : Shares}

/-- The depth of the order's level. -/
def depthAhead (b : ReferenceBook) (o : SyntheticOrder) : ℕ := b.depthOf o.locate o.side o.price

/-- A level loses no more than is taken. -/
theorem depth_le_of_taking {A : Book} (h : ReferenceBook.Represents b A) (hp : Passage b b' ev)
    (ht : ev.taking = some (r, qty)) (hmeets : SyntheticOrder.Meets r o) :
    depthAhead b o ≤ depthAhead b' o + qty.toNat := by
  obtain ⟨hloc, hside, hprice⟩ := hmeets
  obtain ⟨joined, hqueue, -⟩ := hp.queue o.locate o.side o.price
  obtain ⟨id, hmem⟩ := hp.rests _ ht
  simp only [hloc, hside, hprice] at hmem
  have htake : ev.take = ReferenceBook.takeFrom r.ref qty.toNat := by
    unfold BookEvent.take
    rw [ht]
    rfl
  have hle : qty.toNat ≤ r.shares.toNat := hp.le_shares _ ht
  have hsum := sum_takeFrom (h.nodup_restingAt) hmem hle
  have hsum' : ((b.restingAt o.locate o.side o.price).filterMap
      (ReferenceBook.takeFrom r.ref qty.toNat) |>.map Prod.snd).sum + qty.toNat =
        b.depthOf o.locate o.side o.price := hsum
  unfold depthAhead
  rw [← hsum']
  unfold ReferenceBook.depthOf
  rw [hqueue, htake, List.map_append, List.sum_append]
  omega

/-- A level that nothing is taken from loses nothing. -/
theorem depth_le_of_not_taking (hp : Passage b b' ev) (hproper : ProperSide o.side)
    (hnamed : ∀ t ∈ ev.taking, ProperSide t.1.side)
    (h : ∀ r qty, ev.taking = some (r, qty) → ¬ SyntheticOrder.Meets r o) :
    depthAhead b o ≤ depthAhead b' o := by
  obtain ⟨joined, hqueue, -⟩ := hp.queue o.locate o.side o.price
  have hsame : (b.restingAt o.locate o.side o.price).filterMap ev.take =
      b.restingAt o.locate o.side o.price := by
    unfold BookEvent.take
    cases ht : ev.taking with
    | none => exact List.filterMap_some
    | some t =>
      refine takeFrom_of_absent _ fun x hx hr => ?_
      obtain ⟨hloc, hside, hprice⟩ := hp.elsewhere t ht _ _ _ x hx hr
      exact h t.1 t.2 ht ⟨hloc.symm, (hproper.eq_of_buy_eq (hnamed t ht) hside).symm, hprice.symm⟩
  unfold depthAhead ReferenceBook.depthOf
  rw [hqueue, hsame, List.map_append, List.sum_append]
  omega

end

/-! ## The order of the models -/

namespace QueueModel

/-- The first model never has more ahead than the second. -/
def within : QueueModel → QueueModel → Bool
  | .optimistic, .proportional | .optimistic, .bernoulliProportional | .optimistic, .exact
  | .optimistic, .conservative | .proportional, .conservative | .bernoulliProportional, .conservative
  | .exact, .conservative => true
  | _, _ => false

end QueueModel

/-- The counts of a live order: those of the approximations are in order, none is above the level, and what is
closed was filled with nothing ahead. -/
structure Racing (b : ReferenceBook) (o : SyntheticOrder) : Prop where
  nonneg : ∀ m, 0 ≤ (o.models m).ahead
  filled : ∀ m, (o.models m).live = false → (o.models m).filled = true
  spent : ∀ m, m ≠ .exact → (o.models m).live = false → (o.models m).ahead = 0
  within : ∀ m m', m.within m' = true → m ≠ .exact → m' ≠ .exact → (o.models m).ahead ≤ (o.models m').ahead
  exact : (o.models .exact).live = true → (o.models .optimistic).ahead ≤ (o.models .exact).ahead ∧
    (o.models .exact).ahead ≤ (o.models .conservative).ahead
  depth : (o.models .proportional).ahead ≤ depthAhead b o

/-- Fills come in order, but for those of the exact model before the optimistic one. -/
def FillsOrdered (o : SyntheticOrder) : Prop :=
  ∀ m m', m.within m' = true → m' ≠ .exact → (o.models m').filled = true → (o.models m).filled = true

namespace ModelState

variable {s : ModelState} {qty : Shares} {ts : UInt64}

theorem deduct_ahead (s : ModelState) (q : ℚ) : (s.deduct q).ahead = max 0 (s.ahead - q) := by
  unfold deduct
  simp only
  split
  · exact (max_eq_left (le_of_lt ‹_›)).symm
  · exact (max_eq_right (not_lt.mp ‹_›)).symm

/-- An approximation that is filled only with nothing ahead loses the executed shares, live or not. -/
theorem executedApproximate_ahead (hn : 0 ≤ s.ahead) (hs : s.live = false → s.ahead = 0) :
    (s.executedApproximate qty ts).ahead = max 0 (s.ahead - qty.toNat) := by
  have hq : (0 : ℚ) ≤ qty.toNat := Nat.cast_nonneg _
  have hzero : s.ahead = 0 → s.ahead = max 0 (s.ahead - qty.toNat) := by
    intro h0
    rw [h0, zero_sub, max_eq_left (neg_nonpos.mpr hq)]
  unfold executedApproximate
  split
  · split
    · rename_i hle
      exact hzero (le_antisymm hle hn)
    · exact deduct_ahead s _
  · rename_i hl
    exact hzero (hs (Bool.eq_false_iff.mpr hl))

theorem executedApproximate_filled : (s.executedApproximate qty ts).filled = true ↔
    s.filled = true ∨ s.live = true ∧ s.ahead ≤ 0 := by
  unfold executedApproximate
  split
  · rename_i hl
    split
    · exact iff_of_true rfl (.inr ⟨hl, ‹_›⟩)
    · exact ⟨.inl, fun h => h.resolve_right fun hc => ‹¬ _› hc.2⟩
  · exact ⟨.inl, fun h => h.resolve_right fun hc => ‹¬ _› hc.1⟩

theorem executedApproximate_live : (s.executedApproximate qty ts).live = true ↔
    s.live = true ∧ ¬ s.ahead ≤ 0 := by
  unfold executedApproximate
  split
  · rename_i hl
    split
    · exact iff_of_false (by simp [fill]) fun hc => hc.2 ‹_›
    · exact iff_of_true hl ⟨hl, ‹_›⟩
  · exact iff_of_false ‹_› fun hc => ‹¬ _› hc.1

end ModelState

/-! ## One event -/

section

variable {b b' : ReferenceBook} {o : SyntheticOrder} {r : Resolved} {qty : Shares} {ts : UInt64}
  {why : FillReason} {hit : Bool}

theorem QueueModel.within_cases {m m' : QueueModel} (h : m.within m' = true) :
    m = .optimistic ∧ m' ≠ .optimistic ∨ m' = .conservative ∧ m ≠ .conservative := by
  revert h
  cases m <;> cases m' <;> decide

/-- Nothing happens to the order. -/
theorem Racing.same (h : Racing b o) (hdepth : depthAhead b o ≤ depthAhead b' o) : Racing b' o :=
  { h with depth := h.depth.trans (Nat.cast_le.mpr hdepth) }

/-- All models fill. -/
theorem Racing.swept (h : Racing b o) (m : QueueModel) :
    ((o.fillLive ts why).models m).filled = true := by
  unfold SyntheticOrder.fillLive SyntheticOrder.update
  simp only
  split
  · rfl
  · exact h.filled m (Bool.eq_false_iff.mpr ‹_›)

theorem executed_of_ne {m : QueueModel} (hm : m ≠ .exact) :
    (o.executed r qty ts).models m = (o.models m).executedApproximate qty ts := by
  cases m <;> first | rfl | exact absurd rfl hm

theorem executed_exact_filled : ((o.executed r qty ts).models .exact).filled = true ↔
    (o.models .exact).filled = true ∨ (o.models .exact).live = true ∧ r.ref ∉ o.aheadRefs := by
  show ((o.models .exact).executedExact r o.aheadRefs qty ts).filled = true ↔ _
  unfold ModelState.executedExact
  split
  · rename_i hl
    split
    · exact ⟨.inl, fun h => h.resolve_right fun hc => hc.2 ‹_›⟩
    · exact iff_of_true rfl (.inr ⟨hl, ‹_›⟩)
  · exact ⟨.inl, fun h => h.resolve_right fun hc => ‹¬ _› hc.1⟩

theorem executed_exact_live (hl : ((o.executed r qty ts).models .exact).live = true) :
    (o.models .exact).live = true ∧
      (o.executed r qty ts).models .exact = (o.models .exact).deduct qty.toNat := by
  have hmodel : (o.executed r qty ts).models .exact =
      (o.models .exact).executedExact r o.aheadRefs qty ts := rfl
  rw [hmodel] at hl ⊢
  unfold ModelState.executedExact at hl ⊢
  split at hl
  · rename_i hlive
    split at hl
    · exact ⟨hlive, by rw [if_pos hlive, if_pos ‹_›]⟩
    · cases hl
  · exact absurd hl ‹_›

/-- An execution at the order's price leaves nothing open that is spent. -/
theorem executed_filled_of_spent (h : Racing b o) {m : QueueModel} (hm : m ≠ .exact)
    (ha : (o.models m).ahead ≤ 0) : ((o.executed r qty ts).models m).filled = true := by
  rw [executed_of_ne hm, ModelState.executedApproximate_filled]
  cases hl : (o.models m).live with
  | true => exact .inr ⟨rfl, ha⟩
  | false => exact .inl (h.filled m hl)

theorem FillsOrdered.executed (hord : FillsOrdered o) (h : Racing b o)
    (hbehind : (o.models .exact).live = true → (o.models .exact).ahead ≤ 0 → r.ref ∉ o.aheadRefs) :
    FillsOrdered (o.executed r qty ts) := by
  intro m m' hw hm' hf
  rw [executed_of_ne hm', ModelState.executedApproximate_filled] at hf
  rcases hf with hf | ⟨-, ha⟩
  · have hfm := hord m m' hw hm' hf
    by_cases hm : m = .exact
    · subst hm
      exact executed_exact_filled.mpr (.inl hfm)
    · rw [executed_of_ne hm, ModelState.executedApproximate_filled]
      exact .inl hfm
  · by_cases hm : m = .exact
    · -- only the conservative model is behind the exact one
      subst hm
      obtain rfl : m' = .conservative := by
        rcases QueueModel.within_cases hw with ⟨hc, -⟩ | ⟨hc, -⟩
        · cases hc
        · exact hc
      rw [executed_exact_filled]
      cases hl : (o.models .exact).live with
      | true => exact .inr ⟨rfl, hbehind hl ((h.exact hl).2.trans ha)⟩
      | false => exact .inl (h.filled _ hl)
    · exact executed_filled_of_spent h hm ((h.within m m' hw hm hm').trans ha)

/-- **An execution at the order's price** takes from every model alike. -/
theorem Racing.executed (h : Racing b o) (hdepth : depthAhead b o ≤ depthAhead b' o + qty.toNat) :
    Racing b' (o.executed r qty ts) := by
  have hahead : ∀ m, m ≠ .exact → ((o.executed r qty ts).models m).ahead =
      max 0 ((o.models m).ahead - qty.toNat) := fun m hm => by
    rw [executed_of_ne hm, ModelState.executedApproximate_ahead (h.nonneg m) (h.spent m hm)]
  have hclosed : ∀ m, m ≠ .exact → ((o.executed r qty ts).models m).live = false →
      (o.models m).ahead ≤ 0 := by
    intro m hm hl
    rw [executed_of_ne hm] at hl
    by_contra ha
    have hlive : (o.models m).live = true := by
      by_contra hdead
      exact ha (h.spent m hm (Bool.eq_false_iff.mpr hdead)).le
    rw [ModelState.executedApproximate_live.mpr ⟨hlive, ha⟩] at hl
    cases hl
  have hq : (0 : ℚ) ≤ qty.toNat := Nat.cast_nonneg _
  constructor
  · intro m
    by_cases hm : m = .exact
    · subst hm
      show 0 ≤ ((o.models .exact).executedExact r o.aheadRefs qty ts).ahead
      unfold ModelState.executedExact
      split_ifs
      · rw [ModelState.deduct_ahead]
        exact le_max_left _ _
      · exact h.nonneg .exact
      · exact h.nonneg .exact
    · rw [hahead m hm]
      exact le_max_left _ _
  · intro m hl
    by_cases hm : m = .exact
    · subst hm
      rw [executed_exact_filled]
      cases hlive : (o.models .exact).live with
      | false => exact .inl (h.filled _ hlive)
      | true =>
        refine .inr ⟨rfl, fun href => ?_⟩
        have hsame : (o.executed r qty ts).models .exact = (o.models .exact).deduct qty.toNat := by
          show (o.models .exact).executedExact r o.aheadRefs qty ts = _
          unfold ModelState.executedExact
          rw [if_pos hlive, if_pos href]
        rw [hsame, ModelState.live_deduct, hlive] at hl
        cases hl
    · exact executed_filled_of_spent h hm (hclosed m hm hl)
  · intro m hm hl
    rw [hahead m hm]
    exact max_eq_left (by linarith only [hclosed m hm hl, hq])
  · intro m m' hw hm hm'
    rw [hahead m hm, hahead m' hm']
    exact max_le_max le_rfl (sub_le_sub_right (h.within m m' hw hm hm') _)
  · intro hl
    obtain ⟨hlive, hsame⟩ := executed_exact_live hl
    rw [hsame, ModelState.deduct_ahead, hahead .optimistic (by decide), hahead .conservative (by decide)]
    exact ⟨max_le_max le_rfl (sub_le_sub_right (h.exact hlive).1 _),
      max_le_max le_rfl (sub_le_sub_right (h.exact hlive).2 _)⟩
  · rw [hahead .proportional (by decide)]
    have hsame : depthAhead b' (o.executed r qty ts) = depthAhead b' o := rfl
    have hbound : (depthAhead b o : ℚ) ≤ depthAhead b' o + qty.toNat := by exact_mod_cast hdepth
    rw [hsame]
    exact max_le (Nat.cast_nonneg _) (by linarith only [h.depth, hbound])

theorem cancelled_same (r : Resolved) (qty : Shares) (before : ℚ)
    (hhit : hit = true → (o.models .bernoulliProportional).live = true) (m : QueueModel) :
    ((o.cancelled r qty before hit).models m).live = (o.models m).live ∧
      ((o.cancelled r qty before hit).models m).filled = (o.models m).filled ∧
      ((o.models m).live = false → (o.cancelled r qty before hit).models m = o.models m) := by
  unfold SyntheticOrder.cancelled SyntheticOrder.update
  cases m with
  | conservative => exact ⟨rfl, rfl, fun _ => rfl⟩
  | exact =>
    simp only
    split
    · rename_i hc
      exact ⟨rfl, rfl, fun hl => by rw [hc.1] at hl; cases hl⟩
    · exact ⟨rfl, rfl, fun _ => rfl⟩
  | optimistic =>
    simp only
    split
    · rename_i hc
      exact ⟨rfl, rfl, fun hl => by rw [hc] at hl; cases hl⟩
    · exact ⟨rfl, rfl, fun _ => rfl⟩
  | proportional =>
    simp only
    split
    · rename_i hc
      exact ⟨rfl, rfl, fun hl => by rw [hc.1] at hl; cases hl⟩
    · exact ⟨rfl, rfl, fun _ => rfl⟩
  | bernoulliProportional =>
    simp only
    split
    · rename_i hc
      exact ⟨rfl, rfl, fun hl => by rw [hhit hc] at hl; cases hl⟩
    · exact ⟨rfl, rfl, fun _ => rfl⟩

/-- The share that the proportional model takes off. -/
theorem proportional_share {a before q : ℚ} (ha : 0 ≤ a) (hle : a ≤ before) (hq : 0 ≤ q) (hqb : q ≤ before)
    (hb : 0 < before) : 0 ≤ q * (a / before) ∧ q * (a / before) ≤ q ∧ a - q * (a / before) ≤ before - q := by
  have hshare : 0 ≤ a / before := div_nonneg ha hb.le
  have hone : a / before ≤ 1 := (div_le_one hb).mpr hle
  refine ⟨mul_nonneg hq hshare, mul_le_of_le_one_right hq hone, ?_⟩
  calc a - q * (a / before) = a / before * (before - q) := by field_simp
    _ ≤ before - q := mul_le_of_le_one_left (sub_nonneg.mpr hqb) hone

/-- A cancel takes from each model no more than its shares. -/
theorem cancelled_between (r : Resolved) (hit : Bool) (h : Racing b o) {before : ℚ} (hbefore : before = depthAhead b' o + qty.toNat)
    (hdepth : depthAhead b o ≤ depthAhead b' o + qty.toNat) (m : QueueModel) :
    max 0 ((o.models m).ahead - qty.toNat) ≤ ((o.cancelled r qty before hit).models m).ahead ∧
      ((o.cancelled r qty before hit).models m).ahead ≤ (o.models m).ahead := by
  have hq : (0 : ℚ) ≤ qty.toNat := Nat.cast_nonneg _
  have hn := h.nonneg m
  have hkeep : max 0 ((o.models m).ahead - qty.toNat) ≤ (o.models m).ahead :=
    max_le hn (by linarith only [hq])
  have hdeduct : max 0 ((o.models m).ahead - qty.toNat) ≤ ((o.models m).deduct qty.toNat).ahead ∧
      ((o.models m).deduct qty.toNat).ahead ≤ (o.models m).ahead := by
    rw [ModelState.deduct_ahead]
    exact ⟨le_rfl, hkeep⟩
  unfold SyntheticOrder.cancelled SyntheticOrder.update
  cases m with
  | conservative => exact ⟨hkeep, le_rfl⟩
  | exact =>
    simp only
    split
    · exact hdeduct
    · exact ⟨hkeep, le_rfl⟩
  | optimistic =>
    simp only
    split
    · exact hdeduct
    · exact ⟨hkeep, le_rfl⟩
  | bernoulliProportional =>
    simp only
    split
    · exact hdeduct
    · exact ⟨hkeep, le_rfl⟩
  | proportional =>
    simp only
    split
    · rename_i hc
      have hle : (o.models .proportional).ahead ≤ before := by
        rw [hbefore]
        exact h.depth.trans (by exact_mod_cast hdepth)
      have hqb : (qty.toNat : ℚ) ≤ before := by
        rw [hbefore]
        exact le_add_of_nonneg_left (Nat.cast_nonneg _)
      obtain ⟨hpos, hleq, -⟩ := proportional_share hn hle hq hqb hc.2
      rw [ModelState.deduct_ahead]
      exact ⟨max_le_max le_rfl (sub_le_sub_left hleq _), max_le hn (by linarith only [hpos])⟩
    · exact ⟨hkeep, le_rfl⟩

theorem cancelled_optimistic (h : Racing b o) {before : ℚ} :
    ((o.cancelled r qty before hit).models .optimistic).ahead =
      max 0 ((o.models .optimistic).ahead - qty.toNat) := by
  have hq : (0 : ℚ) ≤ qty.toNat := Nat.cast_nonneg _
  unfold SyntheticOrder.cancelled SyntheticOrder.update
  simp only
  split
  · exact ModelState.deduct_ahead _ _
  · have hzero := h.spent .optimistic (by decide) (Bool.eq_false_iff.mpr ‹_›)
    rw [hzero, zero_sub, max_eq_left (neg_nonpos.mpr hq)]

/-- **A cancel at the order's price.** The optimistic model loses it all, the conservative nothing, the others
something between. -/
theorem Racing.cancelled (h : Racing b o) {before : ℚ} (hbefore : before = depthAhead b' o + qty.toNat)
    (hdepth : depthAhead b o ≤ depthAhead b' o + qty.toNat)
    (hhit : hit = true → (o.models .bernoulliProportional).live = true) :
    Racing b' (o.cancelled r qty before hit) := by
  have hbetween := cancelled_between r hit h hbefore hdepth
  have hsame := cancelled_same r qty before hhit
  have hwithin : ∀ m m', m.within m' = true → (o.models m).ahead ≤ (o.models m').ahead →
      ((o.cancelled r qty before hit).models m).ahead ≤ ((o.cancelled r qty before hit).models m').ahead := by
    intro m m' hw hle
    rcases QueueModel.within_cases hw with ⟨rfl, -⟩ | ⟨rfl, -⟩
    · rw [cancelled_optimistic h]
      exact (max_le_max le_rfl (sub_le_sub_right hle _)).trans (hbetween m').1
    · exact (hbetween m).2.trans hle
  constructor
  · exact fun m => (le_max_left _ _).trans (hbetween m).1
  · intro m hl
    rw [(hsame m).1] at hl
    rw [(hsame m).2.1]
    exact h.filled m hl
  · intro m hm hl
    rw [(hsame m).1] at hl
    rw [(hsame m).2.2 hl]
    exact h.spent m hm hl
  · exact fun m m' hw hm hm' => hwithin m m' hw (h.within m m' hw hm hm')
  · intro hl
    rw [(hsame .exact).1] at hl
    exact ⟨hwithin .optimistic .exact rfl (h.exact hl).1, hwithin .exact .conservative rfl (h.exact hl).2⟩
  · have hle : (o.models .proportional).ahead ≤ before := by
      rw [hbefore]
      exact h.depth.trans (by exact_mod_cast hdepth)
    have hkept : depthAhead b' (o.cancelled r qty before hit) = depthAhead b' o := rfl
    have hafter : (depthAhead b' o : ℚ) = before - qty.toNat := by rw [hbefore]; ring
    have hd : (0 : ℚ) ≤ depthAhead b' o := Nat.cast_nonneg _
    have hq : (0 : ℚ) ≤ qty.toNat := Nat.cast_nonneg _
    rw [hkept]
    unfold SyntheticOrder.cancelled SyntheticOrder.update
    simp only
    split
    · rename_i hc
      have hqb : (qty.toNat : ℚ) ≤ before := by linarith only [hafter, hd]
      have hshare := (proportional_share (h.nonneg .proportional) hle hq hqb hc.2).2.2
      rw [ModelState.deduct_ahead, hafter]
      exact max_le (by linarith only [hqb]) hshare
    · rename_i hc
      by_cases hl : (o.models .proportional).live = true
      · have hzero : before ≤ 0 := not_lt.mp fun hpos => hc ⟨hl, hpos⟩
        exact hle.trans (hzero.trans hd)
      · rw [h.spent .proportional (by decide) (Bool.eq_false_iff.mpr hl)]
        exact hd

theorem FillsOrdered.cancelled (hord : FillsOrdered o) {before : ℚ}
    (hhit : hit = true → (o.models .bernoulliProportional).live = true) :
    FillsOrdered (o.cancelled r qty before hit) := by
  intro m m' hw hm' hf
  rw [(cancelled_same _ _ _ hhit m').2.1] at hf
  rw [(cancelled_same _ _ _ hhit m).2.1]
  exact hord m m' hw hm' hf

end

/-! ## Every event -/

/-- The models of an order that sees no event on its side are all in the same state. -/
def Alike (o : SyntheticOrder) : Prop := ∀ m m', o.models m = o.models m'

section

variable {b b' : ReferenceBook} {o o' : SyntheticOrder} {ev : BookEvent} {hit : Bool}

theorem fillLive_dead (o : SyntheticOrder) (ts : UInt64) (why : FillReason) :
    (o.fillLive ts why).anyLive = false := by
  unfold SyntheticOrder.fillLive SyntheticOrder.update
  simp only
  apply List.any_eq_false.mpr
  intro m _
  split
  · exact Bool.false_ne_true
  · assumption

/-- What a cancel takes for the depth before it is at least that. -/
theorem cancelBefore_shallow {A : Book} (h : ReferenceBook.Represents b A) (hshallow : Shallow b)
    (o : SyntheticOrder) (qty : Shares) : cancelBefore b o qty = depthAhead b o + qty.toNat := by
  unfold cancelBefore depthAhead
  rw [h.depth_toNat, Nat.mod_eq_of_lt (hshallow o.locate o.side o.price)]

/-- An event keeps the models of an order of one of the sides in order. -/
theorem racing_sight {A A' : Book} (hs : SyntheticOrder.Sight b' o hit ev o')
    (hA : ReferenceBook.Represents b A) (hA' : ReferenceBook.Represents b' A') (hp : Passage b b' ev)
    (hshallow : Shallow b') (hproper : ProperSide o.side) (hnamed : ∀ t ∈ ev.taking, ProperSide t.1.side)
    (hhit : hit = true → (o.models .bernoulliProportional).live = true)
    (hbehind : (o.models .exact).live = true → (o.models .exact).ahead ≤ 0 → o.aheadRefs = ∅)
    (h : Racing b o) (hord : FillsOrdered o) :
    FillsOrdered o' ∧ (o'.anyLive = true → Racing b' o') := by
  cases hs with
  | nothing hnot => exact ⟨hord, fun _ => h.same (depth_le_of_not_taking hp hproper hnamed hnot)⟩
  | swept ts why =>
    refine ⟨fun m _ _ _ _ => h.swept m, fun hl => ?_⟩
    rw [fillLive_dead] at hl
    cases hl
  | executed hmeets =>
    refine ⟨hord.executed h fun hl ha => ?_, fun _ => h.executed (depth_le_of_taking hA hp rfl hmeets)⟩
    rw [hbehind hl ha]
    exact Finset.notMem_empty _
  | cancelled hmeets =>
    exact ⟨hord.cancelled hhit, fun _ => h.cancelled (cancelBefore_shallow hA' hshallow o _)
      (depth_le_of_taking hA hp rfl hmeets) hhit⟩

/-- An event leaves the models of an order of neither side alike. -/
theorem Alike.sight (h : Alike o) (hs : SyntheticOrder.Sight b' o hit ev o') (hodd : ¬ ProperSide o.side)
    (hnamed : ∀ t ∈ ev.taking, ProperSide t.1.side) : Alike o' := by
  cases hs with
  | nothing hnot => exact h
  | swept ts why =>
    intro m m'
    unfold SyntheticOrder.fillLive SyntheticOrder.update
    simp only
    rw [h m m']
  | executed hmeets => exact absurd (hmeets.2.1 ▸ hnamed _ rfl) hodd
  | cancelled hmeets => exact absurd (hmeets.2.1 ▸ hnamed _ rfl) hodd

end

namespace QueueSim

variable {s : QueueSim} {b : ReferenceBook} {o : SyntheticOrder} {msg : Message} {cfg : QueueSimConfig}

/-- What events preserve of the order of the models. -/
structure Ordered (b : ReferenceBook) (o : SyntheticOrder) : Prop where
  right : CountRight b o
  racing : ProperSide o.side → o.anyLive = true → Racing b o
  fills : ProperSide o.side → FillsOrdered o
  alike : ¬ ProperSide o.side → Alike o

/-- Every order of a queue has shares. -/
theorem shares_pos (h : Kept b) {locate : UInt16} {side : UInt8} {price : Price} {x : RefNode × ℕ}
    (hx : x ∈ b.restingAt locate side price) : 1 ≤ x.2 := by
  obtain ⟨A, hA, htidy⟩ := h
  rw [hA.restingAt_eq] at hx
  obtain ⟨e, he, rfl⟩ := List.mem_map.mp hx
  exact htidy.shares e (Book.mem_level.mp he).1

/-- With nothing ahead the exact model has no references. -/
theorem Ordered.refs_of_spent (h : Ordered b o) (hkept : Kept b) (hproper : ProperSide o.side)
    (hl : (o.models .exact).live = true) (ha : (o.models .exact).ahead ≤ 0) : o.aheadRefs = ∅ := by
  have hcount : CountExact b o := h.right.2 hproper hl
  have hsum : ((stillAhead b o).map Prod.snd).sum = 0 := by
    have hle : ((((stillAhead b o).map Prod.snd).sum : ℕ) : ℚ) ≤ 0 := hcount ▸ ha
    exact_mod_cast le_antisymm hle (Nat.cast_nonneg _)
  have hnil : stillAhead b o = [] := by
    apply List.eq_nil_iff_forall_not_mem.mpr
    intro x hx
    have hzero : x.2 = 0 := List.sum_eq_zero_iff.mp hsum _ (List.mem_map_of_mem hx)
    have hpos := shares_pos hkept (mem_stillAhead hx)
    omega
  have hrefs : RefsExact b o := h.right.1.2 hproper hl
  unfold RefsExact at hrefs
  rw [hrefs, hnil]
  rfl

theorem Ordered.see (cfg : QueueSimConfig) (h : Ordered b o) (hkept : Kept b) (hmsg : Regular b msg)
    (hshallow : Shallow (bookAfter b msg)) (hflag : o.Flagged) {hit : Bool}
    (hhit : hit = true → (o.models .bernoulliProportional).live = true) :
    Ordered (bookAfter b msg) (o.see (bookAfter b msg) (eventOf cfg b msg) hit) := by
  have hright := h.right.see cfg hkept hmsg hflag hhit
  have hside := (see_side (b := bookAfter b msg) hflag (eventOf cfg b msg) hit).1
  have hnamed := hkept.named cfg msg
  cases hany : o.anyLive with
  | false =>
    rw [see_dead hany] at hright ⊢
    exact ⟨hright, fun _ hc => absurd hc (by rw [hany]; exact Bool.false_ne_true), h.fills, h.alike⟩
  | true =>
    have hsight := SyntheticOrder.sight (bookAfter b msg) (eventOf cfg b msg) hit hany
    have hrefs := fun hproper => h.refs_of_spent hkept hproper
    obtain ⟨A, hA, -⟩ := hkept
    have hboth : ProperSide o.side → _ := fun hproper =>
      racing_sight hsight hA (represents_bookAfter hA msg) (passage_on cfg hA hmsg) hshallow hproper hnamed hhit
        (hrefs hproper) (h.racing hproper hany) (h.fills hproper)
    constructor
    · exact hright
    · exact fun hproper => (hboth (hside ▸ hproper)).2
    · exact fun hproper => (hboth (hside ▸ hproper)).1
    · exact fun hodd => (h.alike (hside ▸ hodd)).sight hsight (hside ▸ hodd) hnamed

theorem expireLive_filled (o : SyntheticOrder) (m : QueueModel) :
    (o.expireLive.models m).filled = (o.models m).filled := (sameFate_expire o).filled m

theorem expireLive_dead (o : SyntheticOrder) : o.expireLive.anyLive = false := by
  rw [← expire_order { bernRng := Sampler.seeded silent 0 } o]
  rfl

theorem Ordered.expire (h : Ordered b o) : Ordered b o.expireLive where
  right := ⟨⟨h.right.1.1, fun _ hl => by rw [expireLive_exact] at hl; cases hl⟩,
    fun _ hl => by rw [expireLive_exact] at hl; cases hl⟩
  racing := fun _ hl => by rw [expireLive_dead] at hl; cases hl
  fills := fun hproper m m' hw hm' hf => by
    rw [expireLive_filled] at hf ⊢
    exact h.fills hproper m m' hw hm' hf
  alike := fun hodd m m' => by
    unfold SyntheticOrder.expireLive SyntheticOrder.update
    simp only
    rw [h.alike hodd m m']

theorem Entered.ordered (h : Entered b o) (hkept : Kept b) (hshallow : Shallow b) : Ordered b o where
  right := ⟨⟨(h.refsExact hkept).1, fun _ _ => (h.refsExact hkept).2⟩, fun _ _ => h.countExact hkept hshallow⟩
  racing := fun _ _ => by
    obtain ⟨A, hA, -⟩ := hkept
    have hdepth : o.depthAtEntry.toNat = depthAhead b o := by
      unfold depthAhead
      rw [h.depth, ReferenceBook.level_shares, hA.depth_toNat,
        Nat.mod_eq_of_lt (hshallow o.locate o.side o.price)]
    constructor
    · intro m
      rw [h.models]
      exact Nat.cast_nonneg _
    · intro m hl
      rw [h.models] at hl
      cases hl
    · intro m _ hl
      rw [h.models] at hl
      cases hl
    · intro m m' _ _ _
      rw [h.models]
    · intro _
      rw [h.models]
      exact ⟨le_rfl, le_rfl⟩
    · rw [h.models, ← hdepth]
  fills := fun _ m m' _ _ hf => by
    rw [h.models] at hf
    cases hf
  alike := fun _ m m' => by rw [h.models]

theorem ordered_invariant : Invariant shallow fun s =>
    Sound s ∧ (Kept s.book ∧ Shallow s.book) ∧ ∀ o ∈ s.orders, Ordered s.book o :=
  orderInvariant (B := fun b => Kept b ∧ Shallow b) (fun hc hb => ⟨hb.1.bookAfter hc.1, hc.2⟩)
    (fun hc hb hflag hhit hq => hq.see _ hb.1 hc.1.toRegular hc.2 hflag hhit)
    (fun _ hq => hq.expire) (fun hb he => he.ordered hb.1 hb.2)

/-! ## When executions name the first order of a level -/

/-- What was there at entry is at the front of the level. -/
def Front (b : ReferenceBook) (o : SyntheticOrder) : Prop :=
  ∃ back, b.restingAt o.locate o.side o.price = stillAhead b o ++ back

/-- An execution names the first order of its level. -/
def FirstExecuted (b : ReferenceBook) (msg : Message) : Prop :=
  ∀ ref r, executedRef msg = some ref → resolve b ref = some r →
    (b.level r.locate r.side r.price).fifo.head? = some ref

theorem Front.passage {b' : ReferenceBook} {ev : BookEvent} (h : Front b o) (hp : Passage b b' ev)
    (hold : EntryOld b o) : Front b' o := by
  obtain ⟨back, hback⟩ := h
  obtain ⟨joined, hqueue, -⟩ := hp.queue o.locate o.side o.price
  refine ⟨back.filterMap ev.take ++ joined, ?_⟩
  rw [hqueue, hback, List.filterMap_append, stillAhead_passage hp hold, List.append_assoc]

theorem execution_ref {r : Resolved} {qty : Shares} {ts : UInt64}
    (hev : eventOf cfg b msg = .execution r qty ts) :
    executedRef msg = some r.ref ∧ resolve b r.ref = some r := by
  rcases eventOf_execution hev with ⟨v, rfl, hr, -⟩ | ⟨v, rfl, hr, -⟩
  · rw [resolve_ref hr]
    exact ⟨rfl, hr⟩
  · rw [resolve_ref hr]
    exact ⟨rfl, hr⟩

/-- An execution of an order that is not ahead finds nothing ahead. -/
theorem Ordered.spent_of_behind (h : Ordered b o) (hfront : Front b o) (hfirst : FirstExecuted b msg)
    (hproper : ProperSide o.side) (hl : (o.models .exact).live = true) {r : Resolved} {qty : Shares}
    {ts : UInt64} (hev : eventOf cfg b msg = .execution r qty ts) (hmeets : SyntheticOrder.Meets r o)
    (href : r.ref ∉ o.aheadRefs) : (o.models .exact).ahead ≤ 0 := by
  obtain ⟨hname, hres⟩ := execution_ref hev
  have hhead := hfirst r.ref r hname hres
  obtain ⟨back, hback⟩ := hfront
  have hcount : CountExact b o := h.right.2 hproper hl
  have hrefs : RefsExact b o := h.right.1.2 hproper hl
  have hnil : stillAhead b o = [] := by
    cases hstill : stillAhead b o with
    | nil => rfl
    | cons x xs =>
      rw [ReferenceBook.level_fifo, hmeets.1, hmeets.2.1, hmeets.2.2, hback, hstill] at hhead
      have hx : x.1.ref = r.ref := Option.some.inj hhead
      refine absurd ?_ href
      rw [hrefs, hstill, ← hx]
      simp
  rw [hcount, hnil]
  exact le_rfl

theorem exact_sight {b' : ReferenceBook} {o' : SyntheticOrder} {ev : BookEvent} {hit : Bool}
    (hs : SyntheticOrder.Sight b' o hit ev o') (h : Racing b o)
    (hhit : hit = true → (o.models .bernoulliProportional).live = true)
    (hfirst : ∀ r qty ts, ev = .execution r qty ts → SyntheticOrder.Meets r o →
      (o.models .exact).live = true → r.ref ∉ o.aheadRefs → (o.models .exact).ahead ≤ 0)
    (hord : (o.models .exact).filled = true → (o.models .optimistic).filled = true)
    (hf : (o'.models .exact).filled = true) : (o'.models .optimistic).filled = true := by
  cases hs with
  | nothing hnot => exact hord hf
  | swept ts why => exact h.swept .optimistic
  | executed hmeets =>
    rcases executed_exact_filled.mp hf with hf | ⟨hl, href⟩
    · rw [executed_of_ne (by decide), ModelState.executedApproximate_filled]
      exact .inl (hord hf)
    · exact executed_filled_of_spent h (by decide) ((h.exact hl).1.trans (hfirst _ _ _ rfl hmeets hl href))
  | cancelled hmeets =>
    rw [(cancelled_same _ _ _ hhit .exact).2.1] at hf
    rw [(cancelled_same _ _ _ hhit .optimistic).2.1]
    exact hord hf

/-- With such executions the optimistic model is filled before the exact one. -/
structure OrderedFifo (b : ReferenceBook) (o : SyntheticOrder) : Prop extends Ordered b o where
  front : Front b o
  exact : (o.models .exact).filled = true → (o.models .optimistic).filled = true

theorem OrderedFifo.see (h : OrderedFifo b o) (hkept : Kept b) (hmsg : Regular b msg)
    (hshallow : Shallow (bookAfter b msg)) (hfirst : FirstExecuted b msg) (hflag : o.Flagged) {hit : Bool}
    (hhit : hit = true → (o.models .bernoulliProportional).live = true) :
    OrderedFifo (bookAfter b msg) (o.see (bookAfter b msg) (eventOf cfg b msg) hit) := by
  have hord := h.toOrdered.see cfg hkept hmsg hshallow hflag hhit
  obtain ⟨models, refs, hsee⟩ : ∃ models refs, o.see (bookAfter b msg) (eventOf cfg b msg) hit =
      o.update models refs := see_cases hflag hit
  have hfront : Front (bookAfter b msg) (o.see (bookAfter b msg) (eventOf cfg b msg) hit) := by
    obtain ⟨A, hA, -⟩ := hkept
    rw [hsee]
    exact h.front.passage (passage_on cfg hA hmsg) h.right.1.1
  refine ⟨hord, hfront, ?_⟩
  cases hany : o.anyLive with
  | false =>
    rw [see_dead hany]
    exact h.exact
  | true =>
    have hsight := SyntheticOrder.sight (bookAfter b msg) (eventOf cfg b msg) hit hany
    by_cases hproper : ProperSide o.side
    · exact exact_sight hsight (h.racing hproper hany) hhit
        (fun r qty ts hev hmeets hl href =>
          h.toOrdered.spent_of_behind h.front hfirst hproper hl hev hmeets href) h.exact
    · have halike := (h.alike hproper).sight hsight hproper (hkept.named cfg msg)
      rw [halike .exact .optimistic]
      exact id

/-- The message is orderly, leaves the levels shallow and executes first orders only. -/
def fifo (s : QueueSim) (msg : Message) : Prop := shallow s msg ∧ FirstExecuted s.book msg

theorem fifo_invariant : Invariant fifo fun s =>
    Sound s ∧ (Kept s.book ∧ Shallow s.book) ∧ ∀ o ∈ s.orders, OrderedFifo s.book o :=
  orderInvariant (B := fun b => Kept b ∧ Shallow b) (fun hc hb => ⟨hb.1.bookAfter hc.1.1, hc.1.2⟩)
    (fun hc hb hflag hhit hq => hq.see hb.1 hc.1.1.toRegular hc.1.2 hc.2 hflag hhit)
    (fun {b o} _ hq => ⟨hq.toOrdered.expire, hq.front, fun hf => by
      rw [expireLive_filled] at hf ⊢
      exact hq.exact hf⟩)
    (fun {b o} hb he => ⟨he.ordered hb.1 hb.2, ⟨[], by rw [he.stillAhead, List.append_nil]⟩, fun hf => by
      rw [he.models] at hf
      cases hf⟩)

/-! ## The models of a run -/

/-- The counts that fills are broken out by. -/
def fillCounters : Set Counter :=
  {c | c = .filled ∨ (∃ l, c = .symbolFilled l) ∨ ∃ d, c = .filledByDepth d}

theorem weight_le {m m' : QueueModel} {c : Counter} (hc : c ∈ fillCounters)
    (h : (o.models m').filled = true → (o.models m).filled = true) : o.weight m' c ≤ o.weight m c := by
  have hweight : ∀ k, o.weight k c = ((o.models k).filled && o.fillIn 0 .none c).toNat := by
    intro k
    rcases hc with rfl | ⟨l, rfl⟩ | ⟨d, rfl⟩ <;>
      simp [SyntheticOrder.weight, SyntheticOrder.counted, SyntheticOrder.placedIn, SyntheticOrder.fillIn]
  rw [hweight, hweight]
  cases hm' : (o.models m').filled with
  | false => exact Nat.zero_le _
  | true => rw [h hm']

/-- The model `m` has filled as often as `m'`, in total, for each symbol and in each depth bucket. -/
structure FilledLe (s : QueueSim) (m' m : QueueModel) : Prop where
  total : (s.res m').filled ≤ (s.res m).filled
  symbol : ∀ l, ((s.res m').bySymbol l).filled ≤ ((s.res m).bySymbol l).filled
  depth : ∀ d, (s.res m').filledByDepth d ≤ (s.res m).filledByDepth d

theorem Tallied.filledLe (h : Tallied s) {m m' : QueueModel}
    (hle : ∀ o ∈ s.orders, (o.models m').filled = true → (o.models m).filled = true) :
    FilledLe s m' m := by
  have hcount : ∀ c ∈ fillCounters, (s.res m').count c ≤ (s.res m).count c := by
    intro c hc
    rw [h.count m' c, h.count m c]
    exact List.sum_le_sum fun o ho => weight_le hc (hle o ho)
  exact ⟨hcount .filled (.inl rfl), fun l => hcount (.symbolFilled l) (.inr (.inl ⟨l, rfl⟩)),
    fun d => hcount (.filledByDepth d) (.inr (.inr ⟨d, rfl⟩))⟩

/-- The models of one order: what is ahead in those still live, and which are filled. -/
structure ModelsOrdered (o : SyntheticOrder) : Prop where
  ahead : ∀ m m', m.within m' = true → (o.models m).live = true → (o.models m').live = true →
    (o.models m).ahead ≤ (o.models m').ahead
  filled : FillsOrdered o

theorem Ordered.models (h : Ordered b o) (hflag : o.Flagged) : ModelsOrdered o := by
  by_cases hproper : ProperSide o.side
  · refine ⟨fun m m' hw hl hl' => ?_, h.fills hproper⟩
    have hracing := h.racing hproper (SyntheticOrder.Flagged.anyLive hflag hl)
    by_cases hm : m = .exact
    · subst hm
      obtain ⟨hc, -⟩ | ⟨rfl, -⟩ := QueueModel.within_cases hw
      · cases hc
      · exact (hracing.exact hl).2
    · by_cases hm' : m' = .exact
      · subst hm'
        obtain ⟨rfl, -⟩ | ⟨hc, -⟩ := QueueModel.within_cases hw
        · exact (hracing.exact hl').1
        · cases hc
      · exact hracing.within m m' hw hm hm'
  · have halike := h.alike hproper
    refine ⟨fun m m' _ _ _ => by rw [halike m m'], fun m m' _ _ hf => ?_⟩
    rw [halike m m']
    exact hf

/-- **The order of the models.** In every state of an orderly run whose levels hold less than `2 ^ 64` shares:
among the live models of an order, the optimistic one has no more ahead than any, and none has more than the
conservative one; an order that the conservative model has filled is filled in all, and one that any
approximation has filled is filled in the optimistic one. When executions name the first order of a level, the
same goes for the exact model. The counts of fills follow. -/
theorem models_ordered (P : Platform) (cfg : QueueSimConfig) {es : List SimStep}
    (h : Runs.Along step (meets shallow) (init P cfg) es) :
    (∀ o ∈ (run P cfg es).orders, ModelsOrdered o) ∧
    (∀ m m', m.within m' = true → m' ≠ .exact → FilledLe (run P cfg es) m' m) ∧
    (Runs.Along step (meets fifo) (init P cfg) es →
      (∀ o ∈ (run P cfg es).orders, (o.models .exact).filled = true → (o.models .optimistic).filled = true) ∧
      FilledLe (run P cfg es) .exact .optimistic) := by
  obtain ⟨hs, -, hord⟩ := ordered_invariant.along h
    ⟨sound_init P cfg, ⟨kept_empty, shallow_empty⟩, by simp [orders, init]⟩
  have htallied := (tallied_run P cfg es).2
  have hmodels : ∀ o ∈ (run P cfg es).orders, ModelsOrdered o := fun o ho =>
    (hord o ho).models (hs.flagged o ho)
  refine ⟨hmodels, fun m m' hw hm' => ?_, fun hfifo => ?_⟩
  · exact htallied.filledLe fun o ho => (hmodels o ho).filled m m' hw hm'
  · obtain ⟨-, -, hexact⟩ := fifo_invariant.along hfifo
      ⟨sound_init P cfg, ⟨kept_empty, shallow_empty⟩, by simp [orders, init]⟩
    have hle : ∀ o ∈ (run P cfg es).orders,
        (o.models .exact).filled = true → (o.models .optimistic).filled = true := fun o ho =>
      (hexact o ho).exact
    exact ⟨hle, htallied.filledLe hle⟩

instance (b : ReferenceBook) (msg : Message) : Decidable (FirstExecuted b msg) :=
  have (ref : Ref) : Decidable (∀ r ∈ resolve b ref, (b.level r.locate r.side r.price).fifo.head? = some ref) :=
    Option.decidableForallMem _
  have : Decidable (∀ ref ∈ executedRef msg, ∀ r ∈ resolve b ref,
      (b.level r.locate r.side r.price).fifo.head? = some ref) := Option.decidableForallMem _
  decidable_of_iff _ ⟨fun h ref r href hr => h ref href r hr, fun h ref href r hr => h ref r href hr⟩

theorem fifo_pastTheFirst : Runs.Along step (meets fifo) (init silent directed) pastTheFirst := by
  have hfirst : Runs.Along step (meets fun s msg => FirstExecuted s.book msg) (init silent directed) pastTheFirst := by
    decide +kernel
  have hlight := light_pastTheFirst
  rw [Runs.along_iff] at hfirst hlight ⊢
  intro pre e post hsplit msg he
  obtain ⟨horderly, hbook⟩ := hlight pre e post hsplit msg he
  exact ⟨⟨horderly, hbook.shallow⟩, hfirst pre e post hsplit msg he⟩

/-- While the first bid is being executed the optimistic model has less ahead than the exact one; once the third is, both
have filled. -/
theorem models_ordered_queue :
    (∃ o ∈ (run silent directed queueOfThree).orders, (o.models .optimistic).ahead < (o.models .exact).ahead ∧
      (o.models .optimistic).ahead ≤ (o.models .proportional).ahead ∧
      (o.models .proportional).ahead ≤ (o.models .conservative).ahead) ∧
    ((run silent directed pastTheFirst).res .exact).filled = 1 ∧
      FilledLe (run silent directed pastTheFirst) .exact .optimistic := by
  have hfifo := fifo_pastTheFirst
  have hshallow : Runs.Along step (meets shallow) (init silent directed) pastTheFirst :=
    hfifo.mono fun _ _ h msg he => (h msg he).1
  have hprefix : queueOfThree <+: pastTheFirst := ⟨_, rfl⟩
  refine ⟨?_, by decide +kernel, ((models_ordered silent directed hshallow).2.2 hfifo).2⟩
  obtain ⟨o, ho, hlive, hahead⟩ : ∃ o ∈ (run silent directed queueOfThree).orders,
      ((o.models .optimistic).live = true ∧ (o.models .proportional).live = true ∧
        (o.models .conservative).live = true) ∧
      (o.models .optimistic).ahead < (o.models .exact).ahead := by decide +kernel
  obtain ⟨hopt, hprop, hcons⟩ := hlive
  have hordered := (models_ordered silent directed (hshallow.of_isPrefix hprefix)).1 o ho
  exact ⟨o, ho, hahead, hordered.ahead .optimistic .proportional rfl hopt hprop,
    hordered.ahead .proportional .conservative rfl hprop hcons⟩

/-! ## Where the side bytes and the width show -/

/-- An offer of 100 shares with the side byte 88, a bid, a synthetic offer, an offer of 10 shares behind it; the first
offer is deleted, and 5 shares of the second are cancelled. -/
def oddLevel : List SimStep :=
  [.message (.addOrder
      { locate := 1, ts := 0, orderRef := 1, side := 88, shares := 100, stock := [], price := 20 }),
    .message (.addOrder
      { locate := 1, ts := 0, orderRef := 2, side := kBuy, shares := 100, stock := [], price := 10 }),
    .placeDirected 1 kSell 0,
    .message (.addOrder
      { locate := 1, ts := 0, orderRef := 3, side := kSell, shares := 10, stock := [], price := 20 }),
    .message (.orderDelete { locate := 1, ts := 0, orderRef := 1 }),
    .message (.orderCancel { locate := 1, ts := 0, orderRef := 3, cancelledShares := 5 })]

/-- Five more shares bid at 10. -/
def lastBid : AddOrder :=
  { locate := 1, ts := 0, orderRef := 0xFFFFFFFFFFFFFFFF, side := kBuy, shares := 5, stock := [], price := 10 }

/-- One of them is cancelled. -/
def lastCancel : OrderCancel := { locate := 1, ts := 0, orderRef := 0xFFFFFFFFFFFFFFFF, cancelledShares := 1 }

theorem lastCancel_shares : lastCancel.cancelledShares.toNat = 1 := by decide

/-- A synthetic bid behind `n` full bids, and a small bid behind it that loses a share. -/
def overflowing (n : ℕ) : List SimStep :=
  (packed n).map (fun v => .message (.addOrder v)) ++
    [.placeDirected 1 kBuy 0, .message (.addOrder lastBid), .message (.orderCancel lastCancel)]

/-- What `resolve` makes of a live order. -/
theorem resolve_of_find {A : Book} (h : ReferenceBook.Represents b A) {e : Entry} {ref : Ref}
    (hf : A.find ref = some e) : ∃ r, resolve b ref = some r ∧ Resolves r e := by
  cases hr : resolve b ref with
  | none =>
    rw [h.resolve_none hr] at hf
    cases hf
  | some r =>
    obtain ⟨-, e', hf', hres⟩ := h.resolve hr
    rw [hf] at hf'
    exact ⟨r, rfl, Option.some.inj hf' ▸ hres⟩

/-- A cancel of some of an order's shares is regular. -/
theorem regular_cancel {A : Book} (h : ReferenceBook.Represents b A) {v : OrderCancel} {e : Entry}
    (hdup : b.counters.duplicateAdd = 0) (hover : b.counters.overExecute = 0)
    (hf : A.find v.orderRef = some e) (hle : v.cancelledShares ≤ e.shares) : Regular b (.orderCancel v) := by
  have hfind := h.find_eq v.orderRef
  rw [hf] at hfind
  obtain ⟨o, ho, hentry⟩ := Option.map_eq_some_iff.mp hfind
  have hshares : o.shares = e.shares := congrArg Entry.shares hentry
  have hcount := ReferenceBook.execute_counters (b := b.tick) ho v.cancelledShares
  rw [if_neg (by rw [hshares]; exact UInt32.not_lt.mpr hle)] at hcount
  have hafter : bookAfter b (.orderCancel v) =
      (ReferenceBook.countUnless (b.tick.execute v.orderRef v.cancelledShares) fun c =>
        { c with orphanCancel := c.orphanCancel + 1 }).checkBbo v.locate v.ts.toNat := rfl
  unfold ReferenceBook.countUnless at hafter
  rw [if_pos hcount.1] at hafter
  refine ⟨?_, ?_, fun n hn => by cases hn⟩
  · rw [hafter, (ReferenceBook.checkBbo_frame _ _ _).duplicateAdd]
    exact hcount.2.1.trans hdup
  · rw [hafter, (ReferenceBook.checkBbo_frame _ _ _).overExecute]
    exact hcount.2.2.trans hover

theorem cancelVisit_pending (b : ReferenceBook) (r : Resolved) (qty : Shares) (L : Ledger)
    (o : SyntheticOrder) : (cancelVisit b r qty L o).1.pending = L.pending := by
  unfold cancelVisit
  split
  · rfl
  · simp only
    split <;> rfl

/-- A cancel, when one order is live and no time has passed. -/
theorem on_cancel_single {s : QueueSim} (hs : Still s) (hretired : s.retired = []) {o : SyntheticOrder}
    (hlive : s.live = [o]) (hflag : o.Flagged) {v : OrderCancel} (hts : v.ts = 0) {r : Resolved}
    (hr : resolve s.book v.orderRef = some r) : ∃ hit, (s.on (.orderCancel v)).orders =
      [o.seeCancel (bookAfter s.book (.orderCancel v)) r v.cancelledShares hit] := by
  have hv : tsOf v.toHeader = 0 := by
    unfold tsOf
    rw [hts]
    rfl
  have hon : s.on (.orderCancel v) =
      ((s.onBook (.orderCancel v)).onCancel r v.cancelledShares).tick (tsOf v.toHeader) := by
    simp only [QueueSim.on, hr]
  have hstill : Still ((s.onBook (.orderCancel v)).onCancel r v.cancelledShares) := by
    refine ⟨hs.lastTs, hs.lastSweep, ?_, hs.timer⟩
    show (Scan.scan _ s.toLedger s.live).1.pending = []
    rw [hlive, Scan.scan_cons, Scan.scan_nil]
    exact (cancelVisit_pending _ _ _ _ _).trans hs.pending
  refine ⟨(cancelCoin (cancelBefore (bookAfter s.book (.orderCancel v)) o v.cancelledShares) s.bernRng o).1, ?_⟩
  rw [hon, hv, hstill.tick]
  show s.retired ++ (Scan.scan _ s.toLedger s.live).2 = _
  rw [hretired, hlive, Scan.scan_cons, Scan.scan_nil, List.nil_append, cancelVisit_order _ _ _ _ hflag]
  rfl

/-- When the full bids hold `2 ^ 64 - 1` shares, the last cancel is held to be out of 4 shares. -/
theorem overflowing_spec {n : ℕ} (hn : n < 2 ^ 64 - 1) (hpos : 0 < n) (htotal : n * (2 ^ 32 - 1) = 2 ^ 64 - 1) :
    Runs.Along step (meets orderly) (init silent directed) (overflowing n) ∧
      ∃ o ∈ (run silent directed (overflowing n)).orders, ProperSide o.side ∧
        (o.models .optimistic).live = true ∧ (o.models .proportional).live = true ∧
        (o.models .proportional).ahead < (o.models .optimistic).ahead := by
  have hn' : n < 2 ^ 64 := lt_trans hn (by decide)
  have h₁ := ReferenceBook.represents_run ((packed n).map .addOrder)
  obtain ⟨-, hdup, hover⟩ := orderly_adds (packed n) (nodup_packed hn') (fun v hv => (mem_packed hv).1)
    (fun v hv => (mem_packed hv).2.1) fun v hv => (mem_packed hv).2.2
  have hsum := total_packed hn'
  have hnew : ∀ e ∈ (Runs.run Book.step Book.empty ((packed n).map .addOrder)).orders,
      e.ref ≠ lastBid.orderRef := by
    rw [bookOf_adds _ (nodup_packed hn')]
    intro e he
    obtain ⟨v, hv, rfl⟩ := List.mem_map.mp he
    rcases List.mem_cons.mp hv with rfl | hv
    · decide
    · obtain ⟨i, hi, rfl⟩ := List.mem_map.mp hv
      have hlt := List.mem_range.mp hi
      intro hc
      have hnat : (UInt64.ofNat (i + 1)).toNat = i + 1 :=
        UInt64.toNat_ofNat_of_lt' (by change i + 1 < 2 ^ 64; omega)
      have hc' : UInt64.ofNat (i + 1) = 0xFFFFFFFFFFFFFFFF := hc
      rw [hc'] at hnat
      have hmax : (0xFFFFFFFFFFFFFFFF : UInt64).toNat = 2 ^ 64 - 1 := by decide
      omega
  obtain ⟨o, hrun, hent, hloc, hside, hprice⟩ := placed_packed hn' hpos
  have hplaced := orderly_packed hn'
  generalize ReferenceBook.run {} ((packed n).map .addOrder) = b₁ at h₁ hdup hover hrun hent
  generalize Runs.run Book.step Book.empty ((packed n).map .addOrder) = A₁ at h₁ hsum hnew
  -- the small bid joins the level
  have hreg₂ := regular_add h₁ hdup hover hnew (v := lastBid) (by decide)
  have h₂ : ReferenceBook.Represents (bookAfter b₁ (.addOrder lastBid)) (A₁.place (Book.added lastBid [])) :=
    represents_bookAfter h₁ (.addOrder lastBid)
  have hf₂ : (A₁.place (Book.added lastBid [])).find lastCancel.orderRef = some (Book.added lastBid []) :=
    Book.find_eq_some.mpr ⟨(Book.mem_place hnew).mpr (.inr rfl), rfl⟩
  have hs₂ : Book.sumShares ((A₁.place (Book.added lastBid [])).level 1 true 10) =
      UInt64.ofNat (2 ^ 64 - 1) + 5 := by
    have hlevel : Book.sumShares ((A₁.place (Book.added lastBid [])).level 1 true 10) = _ :=
      Book.sumShares_level_place hnew
    rw [if_pos (by decide), ← Book.ofNat_total (A₁.level 1 true 10), hsum, htotal] at hlevel
    exact hlevel
  have hreg₃ := regular_cancel h₂ (v := lastCancel) hreg₂.duplicateAdd hreg₂.overExecute hf₂ (by decide)
  obtain ⟨r, hr, hres⟩ := resolve_of_find h₂ hf₂
  have hrs : r.locate = 1 ∧ r.side = kBuy ∧ r.price = 10 ∧ r.shares = 5 :=
    ⟨hres.locate.symm, hres.side.symm, hres.price.symm, hres.shares.symm⟩
  -- the cancel finds three shares on the counter
  have hbefore : cancelBefore (bookAfter (bookAfter b₁ (.addOrder lastBid)) (.orderCancel lastCancel)) o
      lastCancel.cancelledShares = 4 := by
    have h₃ := represents_bookAfter h₂ (.orderCancel lastCancel)
    have hs₃ := sumShares_reduce hf₂ hres (show (1 : Shares) ≤ r.shares by rw [hrs.2.2.2]; decide)
    rw [hrs.1, hrs.2.1, hrs.2.2.1, beq_self_eq_true, hs₂] at hs₃
    unfold cancelBefore
    rw [hloc, hside, hprice, h₃.depth_shares, beq_self_eq_true]
    have hstep : (A₁.place (Book.added lastBid [])).step (.orderCancel lastCancel) =
        (A₁.place (Book.added lastBid [])).reduce (Book.added lastBid []).ref 1 := rfl
    rw [hstep, hs₃]
    have hthree : (UInt64.ofNat (2 ^ 64 - 1) + 5 - (1 : Shares).toUInt64).toNat = 3 := by decide
    rw [hthree, lastCancel_shares]
    norm_num
  have hs₁ : Still ((built b₁).push o) := ⟨rfl, rfl, rfl, rfl⟩
  have hon₁ : ((built b₁).push o).on (.addOrder lastBid) =
      { (built b₁).push o with book := bookAfter b₁ (.addOrder lastBid) } := by
    show ({ (built b₁).push o with book := bookAfter b₁ (.addOrder lastBid) } : QueueSim).tick 0 = _
    exact Still.tick ⟨rfl, rfl, rfl, rfl⟩
  obtain ⟨hit, horders⟩ := on_cancel_single
    (s := { (built b₁).push o with book := bookAfter b₁ (.addOrder lastBid) }) ⟨rfl, rfl, rfl, rfl⟩ rfl rfl
    hent.flagged (v := lastCancel) rfl hr
  have hsplit : overflowing n = ((packed n).map (fun v => .message (.addOrder v)) ++ [.placeDirected 1 kBuy 0]) ++
      [.message (.addOrder lastBid), .message (.orderCancel lastCancel)] := by
    unfold overflowing
    rw [List.append_assoc]
    rfl
  have hfinal : (run silent directed (overflowing n)).orders =
      [o.cancelled r lastCancel.cancelledShares 4 hit] := by
    have hat : atLevelOf r o = true := by
      unfold atLevelOf
      rw [hent.live, hloc, hside, hprice, hrs.1, hrs.2.1, hrs.2.2.1]
      rfl
    unfold SyntheticOrder.seeCancel at horders
    rw [if_pos hat, hbefore] at horders
    unfold run at hrun ⊢
    rw [hsplit, Runs.run_append, hrun]
    show ((((built b₁).push o).on (.addOrder lastBid)).on (.orderCancel lastCancel)).orders = _
    rw [hon₁]
    exact horders
  have hdepth : o.depthAtEntry.toNat = 2 ^ 64 - 1 := by
    rw [hent.depth, ReferenceBook.level_shares, h₁.depth_shares, hloc, hside, hprice, beq_self_eq_true,
      ← Book.ofNat_total, hsum, htotal]
    decide
  constructor
  · rw [hsplit]
    refine Runs.along_append.mpr ⟨hplaced, ?_, ?_, trivial⟩
    · rintro msg ⟨⟩
      unfold run at hrun
      rw [hrun]
      exact ⟨hreg₂, fun side hs => .inl (Option.some.inj hs).symm⟩
    · rintro msg ⟨⟩
      unfold run at hrun
      rw [hrun]
      show Orderly (((built b₁).push o).on (.addOrder lastBid)).book _
      rw [hon₁]
      exact ⟨hreg₃, fun side hs => by cases hs⟩
  · rw [hfinal]
    refine ⟨_, List.mem_singleton_self _, .inl hside, ?_⟩
    unfold SyntheticOrder.cancelled SyntheticOrder.update
    have hpos4 : (4 : ℚ) > 0 := by norm_num
    simp only [hent.models, if_true, true_and, hpos4, ModelState.live_deduct, ModelState.deduct_ahead, hdepth,
      lastCancel_shares]
    norm_num

/-- With a side byte that is neither `'B'` nor `'S'`, or on a level of `2 ^ 64` shares, the proportional model can fall
below the optimistic one. -/
theorem not_models_ordered :
    (∃ o ∈ (run silent directed oddLevel).orders, o.side = kSell ∧ (o.models .optimistic).live = true ∧
      (o.models .proportional).live = true ∧
      (o.models .proportional).ahead < (o.models .optimistic).ahead) ∧
    NoAnomaly (run silent directed oddLevel).book ∧
    ∃ es, Runs.Along step (meets orderly) (init silent directed) es ∧
      ∃ o ∈ (run silent directed es).orders, ProperSide o.side ∧ (o.models .optimistic).live = true ∧
        (o.models .proportional).live = true ∧
        (o.models .proportional).ahead < (o.models .optimistic).ahead :=
  ⟨by decide +kernel, ⟨by decide +kernel, by decide +kernel⟩, _,
    overflowing_spec (n := 2 ^ 32 + 1) (by decide) (by decide) (by decide)⟩

end QueueSim

end Carteret
