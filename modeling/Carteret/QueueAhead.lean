import Carteret.QueueLevels
import Carteret.QueueTallies

/-!
# What is ahead of a synthetic order

1. What an event does to the exact model (`see_exact_fires`, `see_exact_touched`, `see_exact_untouched`).
2. Taking shares from a queue with references of their own (`takeFrom_split`).
3. The nodes of a level that were there at entry (`stillAhead`) only ever lose shares; `ahead_refs` stay their
   references (`RefsExact.see`) and the exact count the sum of their shares (`CountExact.see`).
-/

namespace Carteret

/-! ## The exact model at an event -/

namespace SyntheticOrder

variable {b : ReferenceBook} {ev : BookEvent} {o : SyntheticOrder} {hit : Bool} {r : Resolved} {qty : Shares}

/-- The event fills the exact model, if it is live. -/
def fires (o : SyntheticOrder) : BookEvent → Prop
  | .execution r _ _ => r.locate = o.locate ∧ r.side = o.side ∧
      (throughTrade r o = true ∨ r.price = o.price ∧ r.ref ∉ o.aheadRefs)
  | .print locate price _ => locate = o.locate ∧ price = o.price
  | _ => False

/-- The event takes shares from the order `r`, which the exact model has ahead. -/
def touches (o : SyntheticOrder) (ev : BookEvent) (r : Resolved) (qty : Shares) : Prop :=
  ev.taking = some (r, qty) ∧ r.locate = o.locate ∧ r.side = o.side ∧ r.price = o.price ∧ r.ref ∈ o.aheadRefs

theorem not_throughTrade (h : r.price = o.price) : throughTrade r o = false := by
  unfold throughTrade
  rw [h]
  split <;> simp

/-- A live model makes the order live. -/
theorem Flagged.anyLive (h : o.Flagged) {m : QueueModel} (hl : (o.models m).live = true) :
    o.anyLive = true := h.trans (someLive_iff.mpr ⟨m, hl⟩)

theorem fillLive_exact (hl : (o.models .exact).live = true) (ts : UInt64) (why : FillReason) :
    ((o.fillLive ts why).models .exact).live = false ∧ ((o.fillLive ts why).models .exact).filled = true := by
  unfold fillLive update
  simp only [hl, if_true]
  exact ⟨rfl, rfl⟩

theorem see_exact_fires (h : o.Flagged) (hl : (o.models .exact).live = true) (hf : o.fires ev) :
    ((o.see b ev hit).models .exact).live = false ∧ ((o.see b ev hit).models .exact).filled = true := by
  have hany := h.anyLive hl
  cases ev with
  | execution r qty ts =>
    obtain ⟨hloc, hside, hcase⟩ := hf
    unfold see seeExecution
    simp only [hloc, hside, hany, if_true, Bool.not_true, bne_self_eq_false, Bool.or_self,
      Bool.false_eq_true, if_false]
    rcases hcase with hthrough | ⟨hprice, href⟩
    · rw [if_pos hthrough]
      exact fillLive_exact hl ts .tradeThrough
    · rw [not_throughTrade hprice]
      simp only [Bool.false_eq_true, if_false, hprice, ne_eq, not_true_eq_false]
      unfold executed update ModelState.executedExact
      simp only [hl, href, if_true, if_false]
      exact ⟨rfl, rfl⟩
  | print locate price ts =>
    obtain ⟨rfl, rfl⟩ := hf
    unfold see seePrint
    simp only [hany, Bool.not_true, bne_self_eq_false, Bool.or_self, if_true, Bool.false_eq_true, if_false]
    exact fillLive_exact hl ts .nonDisplayedPrint
  | cancel r qty => exact hf.elim
  | quiet => exact hf.elim

theorem see_exact_touched (h : o.Flagged) (hl : (o.models .exact).live = true)
    (ht : o.touches ev r qty) :
    (o.see b ev hit).models .exact = (o.models .exact).deduct qty.toNat ∧
      (o.see b ev hit).aheadRefs = if qty ≥ r.shares then o.aheadRefs.erase r.ref else o.aheadRefs := by
  have hany := h.anyLive hl
  obtain ⟨htake, hloc, hside, hprice, href⟩ := ht
  cases ev with
  | execution r' qty' ts =>
    obtain ⟨rfl, rfl⟩ : r' = r ∧ qty' = qty := by simpa [BookEvent.taking] using htake
    unfold see seeExecution
    simp only [hloc, hside, hany, not_throughTrade hprice, hprice, if_true, Bool.not_true,
      bne_self_eq_false, Bool.or_self, Bool.false_eq_true, if_false, ne_eq, not_true_eq_false]
    unfold executed update ModelState.executedExact refsAfter
    simp only [hl, href, if_true, true_and, and_self]
  | cancel r' qty' =>
    obtain ⟨rfl, rfl⟩ : r' = r ∧ qty' = qty := by simpa [BookEvent.taking] using htake
    have hat : atLevelOf r' o = true := by simp [atLevelOf, hany, hloc, hside, hprice]
    unfold see seeCancel
    simp only [hat, if_true]
    unfold cancelled update refsAfter
    simp only [hl, href, true_and, and_self, if_true]
  | print locate price ts => cases htake
  | quiet => cases htake

theorem see_exact_untouched (hf : ¬ o.fires ev) (ht : ∀ r qty, ¬ o.touches ev r qty) :
    (o.see b ev hit).models .exact = o.models .exact ∧ (o.see b ev hit).aheadRefs = o.aheadRefs := by
  cases ev with
  | execution r qty ts =>
    have ht' := ht r qty
    unfold touches at ht'
    unfold fires at hf
    unfold see
    simp only
    by_cases hloc : o.locate = r.locate
    swap
    · rw [if_neg hloc]
      exact ⟨rfl, rfl⟩
    rw [if_pos hloc]
    unfold seeExecution
    by_cases h0 : (!o.anyLive || o.side != r.side) = true
    · rw [if_pos h0]
      exact ⟨rfl, rfl⟩
    obtain ⟨-, hside⟩ : o.anyLive = true ∧ o.side = r.side := by simpa using h0
    have hthrough : ¬ throughTrade r o = true := fun hc => hf ⟨hloc.symm, hside.symm, .inl hc⟩
    rw [if_neg h0, if_neg hthrough]
    by_cases hprice : r.price = o.price
    · have href : r.ref ∈ o.aheadRefs := by
        by_contra hc
        exact hf ⟨hloc.symm, hside.symm, .inr ⟨hprice, hc⟩⟩
      exact absurd ⟨rfl, hloc.symm, hside.symm, hprice, href⟩ ht'
    · rw [if_pos hprice]
      exact ⟨rfl, rfl⟩
  | cancel r qty =>
    have ht' := ht r qty
    unfold see seeCancel
    simp only
    by_cases hat : atLevelOf r o = true
    · obtain ⟨⟨⟨-, hl⟩, hs⟩, hp⟩ : ((o.anyLive = true ∧ o.locate = r.locate) ∧ o.side = r.side) ∧
          o.price = r.price := by simpa [atLevelOf] using hat
      have href : r.ref ∉ o.aheadRefs := fun hc => ht' ⟨rfl, hl.symm, hs.symm, hp.symm, hc⟩
      rw [if_pos hat]
      unfold cancelled update refsAfter
      simp only [href, and_false, false_and, if_false, and_self]
    · rw [if_neg hat]
      exact ⟨rfl, rfl⟩
  | print locate price ts =>
    unfold see seePrint
    simp only
    by_cases hloc : o.locate = locate
    · have hprice : o.price ≠ price := fun hc => hf ⟨hloc.symm, hc.symm⟩
      rw [if_pos hloc, if_pos (by simp [hprice])]
      exact ⟨rfl, rfl⟩
    · rw [if_neg hloc]
      exact ⟨rfl, rfl⟩
  | quiet => exact ⟨rfl, rfl⟩

/-- A model that is not live stays as it is. -/
theorem see_of_not_live (hhit : hit = true → (o.models .bernoulliProportional).live = true)
    {m : QueueModel} (hl : (o.models m).live = false) : (o.see b ev hit).models m = o.models m := by
  have hfill (ts : UInt64) (why : FillReason) : (o.fillLive ts why).models m = o.models m := by
    unfold fillLive update
    simp only [hl, Bool.false_eq_true, if_false]
  have hbern : m = .bernoulliProportional → hit = false := by
    rintro rfl
    cases hit with
    | false => rfl
    | true => rw [hhit rfl] at hl; cases hl
  cases ev with
  | execution r qty ts =>
    unfold see seeExecution
    simp only
    split_ifs
    · rfl
    · exact hfill ts .tradeThrough
    · rfl
    · unfold executed update ModelState.executedExact ModelState.executedApproximate
      cases m <;> simp [hl]
    · rfl
  | cancel r qty =>
    unfold see seeCancel
    simp only
    split_ifs
    · unfold cancelled update
      cases m <;> simp [hl]
      exact fun hc => by rw [hbern rfl] at hc; cases hc
    · rfl
  | print locate price ts =>
    unfold see seePrint
    simp only
    split_ifs
    · rfl
    · exact hfill ts .nonDisplayedPrint
    · rfl
  | quiet => rfl

end SyntheticOrder

/-! ## Taking from a queue -/

section

open ReferenceBook

variable {ref : Ref} {qty k : ℕ} {n : RefNode} {xs : List (RefNode × ℕ)}

theorem takeFrom_of_absent (qty : ℕ) (h : ∀ x ∈ xs, x.1.ref ≠ ref) : xs.filterMap (takeFrom ref qty) = xs := by
  have hsome : ∀ x ∈ xs, takeFrom ref qty x = some x := fun x hx => if_neg (h x hx)
  rw [List.filterMap_congr hsome, List.filterMap_some]

/-- The queue, split at the order that shares are taken from. -/
theorem takeFrom_split (qty : ℕ) (hu : (xs.map fun x => x.1.ref).Nodup) (hx : (n, k) ∈ xs) :
    ∃ pre post, xs = pre ++ (n, k) :: post ∧ (∀ x ∈ pre ++ post, x.1.ref ≠ n.ref) ∧
      xs.filterMap (takeFrom n.ref qty) =
        pre ++ (if k - qty = 0 then [] else [(n, k - qty)]) ++ post := by
  obtain ⟨pre, post, rfl⟩ := List.append_of_mem hx
  have hne : ∀ x ∈ pre ++ post, x.1.ref ≠ n.ref := by
    intro x hx' hc
    rw [List.map_append, List.map_cons, List.nodup_middle, List.nodup_cons] at hu
    apply hu.1
    rw [← List.map_append]
    exact List.mem_map.mpr ⟨x, hx', hc⟩
  have hpre := takeFrom_of_absent qty fun x hx' => hne x (List.mem_append_left post hx')
  have hpost := takeFrom_of_absent qty fun x hx' => hne x (List.mem_append_right pre hx')
  refine ⟨pre, post, rfl, hne, ?_⟩
  rw [List.filterMap_append, List.filterMap_cons, hpre, hpost]
  unfold takeFrom
  simp only [if_true]
  by_cases hz : k - qty = 0
  · simp [hz]
  · simp [hz]

/-- The shares go from the sum. -/
theorem sum_takeFrom (hu : (xs.map fun x => x.1.ref).Nodup) (hx : (n, k) ∈ xs) (hle : qty ≤ k) :
    ((xs.filterMap (takeFrom n.ref qty)).map Prod.snd).sum + qty = (xs.map Prod.snd).sum := by
  obtain ⟨pre, post, rfl, -, hsplit⟩ := takeFrom_split qty hu hx
  rw [hsplit]
  simp only [List.map_append, List.map_cons, List.sum_append, List.sum_cons]
  split
  · simp only [List.map_nil, List.sum_nil]
    omega
  · simp only [List.map_cons, List.map_nil, List.sum_cons, List.sum_nil]
    omega

/-- The reference goes when no shares are left. -/
theorem refs_takeFrom (hu : (xs.map fun x => x.1.ref).Nodup) (hx : (n, k) ∈ xs) :
    ((xs.filterMap (takeFrom n.ref qty)).map fun x => x.1.ref).toFinset =
      if qty ≥ k then ((xs.map fun x => x.1.ref).toFinset).erase n.ref
      else (xs.map fun x => x.1.ref).toFinset := by
  obtain ⟨pre, post, rfl, hne, hsplit⟩ := takeFrom_split qty hu hx
  have habsent : n.ref ∉ (pre ++ post).map fun x => x.1.ref := fun hc => by
    obtain ⟨x, hx', hr⟩ := List.mem_map.mp hc
    exact hne x hx' hr
  have hinsert (j : ℕ) : ((pre ++ (n, j) :: post).map fun x => x.1.ref).toFinset =
      insert n.ref ((pre ++ post).map fun x => x.1.ref).toFinset := by
    rw [List.map_append, List.map_cons, List.toFinset_append, List.toFinset_cons, Finset.union_insert,
      ← List.toFinset_append, ← List.map_append]
  rw [hsplit, hinsert]
  by_cases hz : k - qty = 0
  · rw [if_pos hz, if_pos (by omega), List.append_nil,
      Finset.erase_insert (fun hc => habsent (List.mem_toFinset.mp hc))]
  · rw [if_neg hz, if_neg (by omega), List.append_assoc, List.singleton_append, hinsert]

end

namespace BookEvent

/-- Taking keeps the node. -/
theorem fst_of_take {ev : BookEvent} {x y : RefNode × ℕ} (h : ev.take x = some y) : y.1 = x.1 := by
  unfold take at h
  cases ht : ev.taking with
  | none =>
    rw [ht] at h
    rw [← Option.some.inj h]
  | some t =>
    rw [ht] at h
    simp only [Option.elim_some, ReferenceBook.takeFrom] at h
    split_ifs at h <;> rw [← Option.some.inj h]

/-- What is picked by the node can be picked before or after. -/
theorem filter_take (ev : BookEvent) (p : RefNode → Bool) (xs : List (RefNode × ℕ)) :
    (xs.filterMap ev.take).filter (fun x => p x.1) = (xs.filter fun x => p x.1).filterMap ev.take := by
  rw [List.filter_filterMap, List.filterMap_filter]
  apply List.filterMap_congr
  intro x _
  cases hx : ev.take x with
  | none => simp
  | some y => simp [Option.filter, fst_of_take hx]

end BookEvent

/-! ## What was there at entry -/

/-- What is left of the orders that were resting at the order's level when it entered. -/
def stillAhead (b : ReferenceBook) (o : SyntheticOrder) : List (RefNode × ℕ) :=
  (b.restingAt o.locate o.side o.price).filter fun x => decide (x.1 ∈ o.entryNodes)

/-- A side byte that is `'B'` or `'S'`. -/
def ProperSide (side : UInt8) : Prop := side = kBuy ∨ side = kSell

theorem ProperSide.eq_of_buy_eq {side side' : UInt8} (h : ProperSide side) (h' : ProperSide side')
    (heq : (side == kBuy) = (side' == kBuy)) : side = side' := by
  rcases h with rfl | rfl <;> rcases h' with rfl | rfl <;> first | rfl | exact absurd heq (by decide)

/-- The references of the exact model are those of the orders still ahead. -/
def RefsExact (b : ReferenceBook) (o : SyntheticOrder) : Prop :=
  o.aheadRefs = ((stillAhead b o).map fun x => x.1.ref).toFinset

/-- The count of the exact model is the sum of their shares. -/
def CountExact (b : ReferenceBook) (o : SyntheticOrder) : Prop :=
  (o.models .exact).ahead = (((stillAhead b o).map Prod.snd).sum : ℕ)

/-- The nodes of the level at entry are old ones. -/
def EntryOld (b : ReferenceBook) (o : SyntheticOrder) : Prop := ∀ n ∈ o.entryNodes, n.id < b.nextNode

section

variable {b b' : ReferenceBook} {o : SyntheticOrder} {ev : BookEvent}

/-- What joins a level is not ahead. -/
theorem stillAhead_passage (hp : Passage b b' ev) (hold : EntryOld b o) :
    stillAhead b' o = (stillAhead b o).filterMap ev.take := by
  obtain ⟨joined, hqueue, hjoined⟩ := hp.queue o.locate o.side o.price
  have hnone : joined.filter (fun x => decide (x.1 ∈ o.entryNodes)) = [] := by
    apply List.filter_eq_nil_iff.mpr
    intro x hx hmem
    have hlt := hold x.1 (of_decide_eq_true hmem)
    rw [(hjoined x hx).1] at hlt
    exact lt_irrefl _ hlt
  unfold stillAhead
  rw [hqueue, List.filter_append, hnone, List.append_nil]
  exact ev.filter_take (fun n => decide (n ∈ o.entryNodes)) _

theorem nodup_stillAhead {A : Book} (h : ReferenceBook.Represents b A) :
    ((stillAhead b o).map fun x => x.1.ref).Nodup :=
  (h.nodup_restingAt).sublist (List.filter_sublist.map _)

theorem mem_stillAhead {x : RefNode × ℕ} (hx : x ∈ stillAhead b o) :
    x ∈ b.restingAt o.locate o.side o.price := (List.mem_filter.mp hx).1

/-- The event passes the orders ahead by. -/
theorem stillAhead_of_elsewhere (hp : Passage b b' ev) (hold : EntryOld b o)
    (h : ∀ t ∈ ev.taking, ∀ x ∈ stillAhead b o, x.1.ref ≠ t.1.ref) : stillAhead b' o = stillAhead b o := by
  rw [stillAhead_passage hp hold]
  unfold BookEvent.take
  cases ht : ev.taking with
  | none => exact List.filterMap_some
  | some t => exact takeFrom_of_absent _ (h t ht)

/-- An order that is named rests at its level with its shares. -/
theorem shares_of_mem {A : Book} (h : ReferenceBook.Represents b A) (hp : Passage b b' ev) {r : Resolved}
    {qty : Shares} (ht : ev.taking = some (r, qty)) (hloc : r.locate = o.locate) (hside : r.side = o.side)
    (hprice : r.price = o.price) {x : RefNode × ℕ} (hx : x ∈ b.restingAt o.locate o.side o.price)
    (href : x.1.ref = r.ref) : x.2 = r.shares.toNat := by
  obtain ⟨id, hmem⟩ := hp.rests _ ht
  simp only [hloc, hside, hprice] at hmem
  have heq : x = (⟨id, r.ref⟩, r.shares.toNat) :=
    List.inj_on_of_nodup_map h.nodup_restingAt hx hmem href
  rw [heq]

/-- Taking from an order that the exact model has ahead. -/
theorem RefsExact.touched {A : Book} (hx : RefsExact b o) (h : ReferenceBook.Represents b A)
    (hp : Passage b b' ev) (hold : EntryOld b o) {r : Resolved} {qty : Shares} (ht : o.touches ev r qty) :
    ∃ n : RefNode, n.ref = r.ref ∧ (n, r.shares.toNat) ∈ stillAhead b o ∧ qty.toNat ≤ r.shares.toNat ∧
      stillAhead b' o = (stillAhead b o).filterMap (ReferenceBook.takeFrom n.ref qty.toNat) := by
  obtain ⟨htake, hloc, hside, hprice, href⟩ := ht
  rw [hx] at href
  obtain ⟨⟨n, k⟩, hmem, hn⟩ := List.mem_map.mp (List.mem_toFinset.mp href)
  have hnr : n.ref = r.ref := hn
  have hk : k = r.shares.toNat := shares_of_mem h hp htake hloc hside hprice (mem_stillAhead hmem) hn
  refine ⟨n, hnr, hk ▸ hmem, hp.le_shares _ htake, ?_⟩
  rw [stillAhead_passage hp hold, hnr]
  unfold BookEvent.take
  rw [htake]
  rfl

/-- Taking from none of them. -/
theorem RefsExact.untouched (hx : RefsExact b o) (hp : Passage b b' ev) (hold : EntryOld b o)
    (hproper : ProperSide o.side) (hnamed : ∀ t ∈ ev.taking, ProperSide t.1.side)
    (ht : ∀ r qty, ¬ o.touches ev r qty) : stillAhead b' o = stillAhead b o := by
  refine stillAhead_of_elsewhere hp hold fun t htake x hmem hr => ?_
  obtain ⟨hloc, hside, hprice⟩ := hp.elsewhere t htake _ _ _ x (mem_stillAhead hmem) hr
  refine ht t.1 t.2 ⟨htake, hloc.symm, ?_, hprice.symm, ?_⟩
  · exact ((hproper.eq_of_buy_eq (hnamed t htake) hside)).symm
  · rw [hx]
    exact List.mem_toFinset.mpr (List.mem_map.mpr ⟨x, hmem, hr⟩)

theorem stillAhead_see (hflag : o.Flagged) (hit : Bool) :
    stillAhead b' (o.see b' ev hit) = stillAhead b' o := by
  obtain ⟨models, refs, hsee⟩ : ∃ models refs, o.see b' ev hit = o.update models refs := see_cases hflag hit
  rw [hsee]
  rfl

/-- **The references stay right** until the exact model fills. -/
theorem RefsExact.see {A : Book} (hx : RefsExact b o) (h : ReferenceBook.Represents b A)
    (hp : Passage b b' ev) (hold : EntryOld b o) (hflag : o.Flagged) (hl : (o.models .exact).live = true)
    (hproper : ProperSide o.side) (hnamed : ∀ t ∈ ev.taking, ProperSide t.1.side) {hit : Bool}
    (hf : ¬ o.fires ev) : RefsExact b' (o.see b' ev hit) := by
  unfold RefsExact
  rw [stillAhead_see hflag]
  by_cases ht : ∃ r qty, o.touches ev r qty
  · obtain ⟨r, qty, ht⟩ := ht
    obtain ⟨n, hn, hmem, -, hstep⟩ := hx.touched h hp hold ht
    rw [(SyntheticOrder.see_exact_touched hflag hl ht).2, hstep, refs_takeFrom (nodup_stillAhead h) hmem,
      hx, hn]
    rfl
  · have ht' : ∀ r qty, ¬ o.touches ev r qty := fun r qty hc => ht ⟨r, qty, hc⟩
    rw [(SyntheticOrder.see_exact_untouched hf ht').2, hx.untouched hp hold hproper hnamed ht']
    exact hx

/-- **The count stays right** until the exact model fills. -/
theorem CountExact.see {A : Book} (hc : CountExact b o) (hx : RefsExact b o)
    (h : ReferenceBook.Represents b A) (hp : Passage b b' ev) (hold : EntryOld b o) (hflag : o.Flagged)
    (hl : (o.models .exact).live = true) (hproper : ProperSide o.side)
    (hnamed : ∀ t ∈ ev.taking, ProperSide t.1.side) {hit : Bool} (hf : ¬ o.fires ev) :
    CountExact b' (o.see b' ev hit) := by
  unfold CountExact
  rw [stillAhead_see hflag]
  by_cases ht : ∃ r qty, o.touches ev r qty
  · obtain ⟨r, qty, ht⟩ := ht
    obtain ⟨n, -, hmem, hle, hstep⟩ := hx.touched h hp hold ht
    have hsum := sum_takeFrom (nodup_stillAhead h) hmem hle
    rw [(SyntheticOrder.see_exact_touched hflag hl ht).1, hstep]
    have hcast : ((((stillAhead b o).map Prod.snd).sum : ℕ) : ℚ) - (qty.toNat : ℚ) =
        ((((stillAhead b o).filterMap (ReferenceBook.takeFrom n.ref qty.toNat)).map Prod.snd).sum : ℕ) := by
      rw [← hsum]
      push_cast
      ring
    unfold ModelState.deduct
    simp only
    rw [hc, hcast, if_neg (not_lt.mpr (Nat.cast_nonneg _))]
  · have ht' : ∀ r qty, ¬ o.touches ev r qty := fun r qty hc => ht ⟨r, qty, hc⟩
    rw [(SyntheticOrder.see_exact_untouched hf ht').1, hx.untouched hp hold hproper hnamed ht']
    exact hc

end

end Carteret
