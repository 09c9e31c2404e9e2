import Carteret.QueueOrderly

/-!
# The exact queue position

1. In every state of an orderly run the references and counts of the live exact models are right
   (`position_run`, `count_run`).
2. What fills an exact model is a `Trigger` (`fires_iff`, `filled_step`), so it is filled just when some message
   of the run was one (`exact_position`).
3. The side bytes are needed, and so is the bound on the levels: above it the sum is not always a double
   (`not_exact_position`).
-/

namespace Carteret

namespace QueueSim

open Doubles

variable {s : QueueSim} {b : ReferenceBook} {o : SyntheticOrder} {msg : Message} {cfg : QueueSimConfig}

theorem Entered.stillAhead (h : Entered b o) :
    stillAhead b o = b.restingAt o.locate o.side o.price := by
  apply List.filter_eq_self.mpr
  intro x hx
  obtain ⟨n, hn, rfl⟩ := List.mem_map.mp hx
  rw [h.nodes]
  exact decide_eq_true hn

/-- The order enters behind everything at its level. -/
theorem Entered.refsExact (h : Entered b o) (hkept : Kept b) : EntryOld b o ∧ RefsExact b o := by
  obtain ⟨A, hA, -⟩ := hkept
  refine ⟨fun n hn => ?_, ?_⟩
  · rw [h.nodes] at hn
    exact hA.id_lt (x := (n, b.sharesOf n.ref)) (List.mem_map.mpr ⟨n, hn, rfl⟩)
  · unfold RefsExact
    rw [h.refs, ReferenceBook.level_fifo, h.stillAhead]

theorem Entered.countExact (h : Entered b o) (hkept : Kept b) (hshallow : Shallow b) : CountExact b o := by
  obtain ⟨A, hA, -⟩ := hkept
  unfold CountExact
  rw [h.models, h.stillAhead]
  simp only
  rw [h.depth, ReferenceBook.level_shares, hA.depth_toNat,
    Nat.mod_eq_of_lt (hshallow o.locate o.side o.price)]
  rfl

/-- The entry is old and the references are right while the exact model is live. -/
def PositionRight (b : ReferenceBook) (o : SyntheticOrder) : Prop :=
  EntryOld b o ∧ (ProperSide o.side → (o.models .exact).live = true → RefsExact b o)

/-- An order whose exact model is live after an event was live before it and is not filled by it. -/
theorem live_of_see (hflag : o.Flagged) {ev : BookEvent} {hit : Bool}
    (hhit : hit = true → (o.models .bernoulliProportional).live = true)
    (hl : ((o.see b ev hit).models .exact).live = true) :
    (o.models .exact).live = true ∧ ¬ o.fires ev := by
  have hlive : (o.models .exact).live = true := by
    by_contra hdead
    rw [SyntheticOrder.see_of_not_live hhit (Bool.eq_false_iff.mpr hdead)] at hl
    exact hdead hl
  refine ⟨hlive, fun hf => ?_⟩
  rw [(SyntheticOrder.see_exact_fires hflag hlive hf).1] at hl
  cases hl

theorem see_side (hflag : o.Flagged) (ev : BookEvent) (hit : Bool) :
    (o.see b ev hit).side = o.side ∧ (o.see b ev hit).entryNodes = o.entryNodes := by
  obtain ⟨models, refs, hsee⟩ : ∃ models refs, o.see b ev hit = o.update models refs := see_cases hflag hit
  rw [hsee]
  exact ⟨rfl, rfl⟩

theorem PositionRight.see (cfg : QueueSimConfig) (h : PositionRight b o) (hkept : Kept b) (hmsg : Regular b msg)
    (hflag : o.Flagged) {hit : Bool} (hhit : hit = true → (o.models .bernoulliProportional).live = true) :
    PositionRight (bookAfter b msg) (o.see (bookAfter b msg) (eventOf cfg b msg) hit) := by
  have hnamed := hkept.named cfg msg
  obtain ⟨A, hA, -⟩ := hkept
  have hp := passage_on cfg hA hmsg
  obtain ⟨hside, hnodes⟩ := see_side (b := bookAfter b msg) hflag (eventOf cfg b msg) hit
  refine ⟨fun n hn => ?_, fun hproper hlive => ?_⟩
  · rw [hnodes] at hn
    exact lt_of_lt_of_le (h.1 n hn) hp.next_le
  · rw [hside] at hproper
    obtain ⟨hl, hf⟩ := live_of_see hflag hhit hlive
    exact (h.2 hproper hl).see hA hp h.1 hflag hl hproper hnamed hf

theorem expireLive_exact (o : SyntheticOrder) : (o.expireLive.models .exact).live = false := by
  unfold SyntheticOrder.expireLive SyntheticOrder.update
  simp only
  split
  · rfl
  · rename_i hl
    exact Bool.eq_false_iff.mpr hl

theorem position_invariant : Invariant orderly fun s =>
    Sound s ∧ Kept s.book ∧ ∀ o ∈ s.orders, PositionRight s.book o :=
  orderInvariant (fun hc hb => hb.bookAfter hc)
    (fun hc hb hflag hhit hq => hq.see _ hb hc.toRegular hflag hhit)
    (fun {b o} _ hq => ⟨hq.1, fun _ hl => by rw [expireLive_exact] at hl; cases hl⟩)
    (fun hb he => ⟨(he.refsExact hb).1, fun _ _ => (he.refsExact hb).2⟩)

/-- In every state of an orderly run the references are right. -/
theorem position_run {P : Platform} {es : List SimStep} (h : Runs.Along step (meets orderly) (init P cfg) es) :
    Sound (run P cfg es) ∧ Kept (run P cfg es).book ∧
      ∀ o ∈ (run P cfg es).orders, PositionRight (run P cfg es).book o :=
  position_invariant.along h ⟨sound_init P cfg, kept_empty, by simp [orders, init]⟩

/-- With the count. -/
def CountRight (b : ReferenceBook) (o : SyntheticOrder) : Prop :=
  PositionRight b o ∧ (ProperSide o.side → (o.models .exact).live = true → CountExact b o)

theorem CountRight.see (cfg : QueueSimConfig) (h : CountRight b o) (hkept : Kept b) (hmsg : Regular b msg)
    (hflag : o.Flagged) {hit : Bool} (hhit : hit = true → (o.models .bernoulliProportional).live = true) :
    CountRight (bookAfter b msg) (o.see (bookAfter b msg) (eventOf cfg b msg) hit) := by
  refine ⟨h.1.see cfg hkept hmsg hflag hhit, fun hproper hlive => ?_⟩
  have hnamed := hkept.named cfg msg
  obtain ⟨A, hA, -⟩ := hkept
  rw [(see_side hflag _ hit).1] at hproper
  obtain ⟨hl, hf⟩ := live_of_see hflag hhit hlive
  exact (h.2 hproper hl).see (h.1.2 hproper hl) hA (passage_on cfg hA hmsg) h.1.1 hflag hl hproper hnamed hf

theorem count_invariant : Invariant light fun s =>
    Sound s ∧ (Kept s.book ∧ Light s.book) ∧ ∀ o ∈ s.orders, CountRight s.book o :=
  orderInvariant (B := fun b => Kept b ∧ Light b) (fun hc hb => ⟨hb.1.bookAfter hc.1, hc.2⟩)
    (fun hc hb hflag hhit hq => hq.see _ hb.1 hc.1.toRegular hflag hhit)
    (fun {b o} _ hq => ⟨⟨hq.1.1, fun _ hl => by rw [expireLive_exact] at hl; cases hl⟩,
      fun _ hl => by rw [expireLive_exact] at hl; cases hl⟩)
    (fun hb he => ⟨⟨(he.refsExact hb.1).1, fun _ _ => (he.refsExact hb.1).2⟩,
      fun _ _ => he.countExact hb.1 hb.2.shallow⟩)

/-- In every state of an orderly run with light levels the counts are right too. -/
theorem count_run {P : Platform} {es : List SimStep} (h : Runs.Along step (meets light) (init P cfg) es) :
    Sound (run P cfg es) ∧ (Kept (run P cfg es).book ∧ Light (run P cfg es).book) ∧
      ∀ o ∈ (run P cfg es).orders, CountRight (run P cfg es).book o :=
  count_invariant.along h
    ⟨sound_init P cfg, ⟨kept_empty, light_empty⟩, by simp [orders, init]⟩

/-- What is still ahead is of the order's level. -/
theorem sum_stillAhead_le (b : ReferenceBook) (o : SyntheticOrder) :
    ((stillAhead b o).map Prod.snd).sum ≤ b.depthOf o.locate o.side o.price :=
  (List.filter_sublist.map Prod.snd).sum_le_sum fun _ _ => Nat.zero_le _

/-! ## When the exact model fills -/

/-- The reference that an execution names. -/
def executedRef : Message → Option Ref
  | .orderExecuted v => some v.orderRef
  | .orderExecutedPrice v => some v.orderRef
  | _ => none

/-- A price at which an execution has gone through the order's level. -/
def Worse (o : SyntheticOrder) (price : Price) : Prop := if o.side = kBuy then price < o.price else o.price < price

/-- An execution of a live order of the same symbol and side, at a worse price or at the order's price but of
none of those still ahead; or, with rule 4, a non-displayed print at the order's price. -/
def Trigger (cfg : QueueSimConfig) (b : ReferenceBook) (o : SyntheticOrder) (msg : Message) : Prop :=
  (∃ ref r, executedRef msg = some ref ∧ resolve b ref = some r ∧ r.locate = o.locate ∧ r.side = o.side ∧
    (Worse o r.price ∨ r.price = o.price ∧ ∀ x ∈ stillAhead b o, x.1.ref ≠ ref)) ∨
  cfg.rule4NonDisplayedFills = true ∧ ∃ v, msg = .trade v ∧ v.locate = o.locate ∧ v.price = o.price

theorem throughTrade_iff {r : Resolved} : throughTrade r o = true ↔ Worse o r.price := by
  unfold throughTrade Worse
  split <;> exact decide_eq_true_iff

theorem resolve_ref {ref : Ref} {r : Resolved} (hr : resolve b ref = some r) : r.ref = ref := by
  unfold resolve at hr
  obtain ⟨_, -, rfl⟩ := Option.map_eq_some_iff.mp hr
  rfl

/-- What fires the exact model is the trigger. -/
theorem fires_iff (hx : RefsExact b o) : o.fires (eventOf cfg b msg) ↔ Trigger cfg b o msg := by
  have hbehind : ∀ {ref : Ref}, ref ∉ o.aheadRefs ↔ ∀ x ∈ stillAhead b o, x.1.ref ≠ ref := by
    intro ref
    rw [hx]
    simp
  have hexec : ∀ {ref : Ref} {qty : Shares} {ts : UInt64}, executedRef msg = some ref →
      eventOf cfg b msg = (resolve b ref).elim .quiet (fun r => .execution r qty ts) →
      (∀ v, msg ≠ .trade v) → (o.fires (eventOf cfg b msg) ↔ Trigger cfg b o msg) := by
    intro ref qty ts href hev hnot
    unfold Trigger
    rw [hev, href]
    cases hr : resolve b ref with
    | none =>
      simp only [Option.elim_none, SyntheticOrder.fires, false_iff]
      rintro (⟨ref', r, hsome, hr', -⟩ | ⟨-, v, hv, -⟩)
      · obtain rfl := Option.some.inj hsome
        rw [hr] at hr'
        cases hr'
      · exact hnot v hv
    | some r =>
      simp only [Option.elim_some, SyntheticOrder.fires, throughTrade_iff, hbehind, resolve_ref hr]
      constructor
      · rintro ⟨hloc, hside, hcase⟩
        exact .inl ⟨ref, r, rfl, hr, hloc, hside, hcase⟩
      · rintro (⟨ref', r', hsome, hr', h⟩ | ⟨-, v, hv, -⟩)
        · obtain rfl := Option.some.inj hsome
          rw [hr] at hr'
          obtain rfl := Option.some.inj hr'
          exact h
        · exact absurd hv (hnot v)
  have hquiet : executedRef msg = none → (∀ v, msg ≠ .trade v) → ¬ Trigger cfg b o msg := by
    intro hnone hnot
    rintro (⟨ref, r, hsome, -⟩ | ⟨-, v, hv, -⟩)
    · rw [hnone] at hsome
      cases hsome
    · exact hnot v hv
  cases msg with
  | orderExecuted v => exact hexec rfl rfl (by simp)
  | orderExecutedPrice v => exact hexec rfl rfl (by simp)
  | trade v =>
    unfold Trigger eventOf
    cases hrule : cfg.rule4NonDisplayedFills with
    | true =>
      simp only [if_true, SyntheticOrder.fires, executedRef, true_and]
      constructor
      · exact fun h => .inr ⟨v, rfl, h⟩
      · rintro (⟨_, _, hsome, -⟩ | ⟨v', hv, h⟩)
        · cases hsome
        · obtain rfl := Message.trade.inj hv
          exact h
    | false =>
      simp only [Bool.false_eq_true, if_false, SyntheticOrder.fires, executedRef, false_and, or_false,
        false_iff]
      rintro ⟨_, _, hsome, -⟩
      cases hsome
  | orderCancel v =>
    refine iff_of_false (fun hc => ?_) (hquiet rfl (by simp))
    simp only [eventOf] at hc
    cases hr : resolve b v.orderRef <;> rw [hr] at hc <;> exact hc
  | orderDelete v =>
    refine iff_of_false (fun hc => ?_) (hquiet rfl (by simp))
    simp only [eventOf] at hc
    cases hr : resolve b v.orderRef <;> rw [hr] at hc <;> exact hc
  | orderReplace v =>
    refine iff_of_false (fun hc => ?_) (hquiet rfl (by simp))
    simp only [eventOf] at hc
    cases hr : resolve b v.oldOrderRef <;> rw [hr] at hc <;> exact hc
  | _ => exact iff_of_false id (hquiet rfl (by simp))

/-- What an event does to `filled` of the exact model. -/
theorem see_exact_filled (hflag : o.Flagged) {ev : BookEvent} {hit : Bool}
    (hhit : hit = true → (o.models .bernoulliProportional).live = true) :
    ((o.see b ev hit).models .exact).filled = true ↔
      (o.models .exact).filled = true ∨ (o.models .exact).live = true ∧ o.fires ev := by
  by_cases hl : (o.models .exact).live = true
  · by_cases hf : o.fires ev
    · exact iff_of_true (SyntheticOrder.see_exact_fires hflag hl hf).2 (.inr ⟨hl, hf⟩)
    · have hsame : ((o.see b ev hit).models .exact).filled = (o.models .exact).filled := by
        by_cases ht : ∃ r qty, o.touches ev r qty
        · obtain ⟨r, qty, ht⟩ := ht
          rw [(SyntheticOrder.see_exact_touched hflag hl ht).1]
          rfl
        · rw [(SyntheticOrder.see_exact_untouched hf fun r qty hc => ht ⟨r, qty, hc⟩).1]
      rw [hsame]
      exact ⟨.inl, fun h => h.resolve_right fun hc => hf hc.2⟩
  · rw [SyntheticOrder.see_of_not_live hhit (Bool.eq_false_iff.mpr hl)]
    exact ⟨.inl, fun h => h.resolve_right fun hc => hl hc.1⟩

/-- The call fills the exact model of the order. -/
def Fills (s : QueueSim) (o : SyntheticOrder) (e : SimStep) : Prop :=
  (o.models .exact).live = true ∧ ∃ msg, e = .message msg ∧ Trigger s.cfg s.book o msg

/-- **The exact model across a call.** -/
theorem filled_step (hs : Sound s) (hright : ∀ o ∈ s.orders, PositionRight s.book o) {e : SimStep}
    {o o' : SyntheticOrder} (ho : o ∈ s.orders) (ho' : o' ∈ (s.step e).orders) (hseq : o.seq = o'.seq)
    (hproper : ProperSide o.side) :
    (o'.models .exact).filled = true ↔ (o.models .exact).filled = true ∨ Fills s o e := by
  obtain ⟨hit, hhit, hsame⟩ := step_fate hs e ho ho' hseq
  rw [hsame.filled]
  unfold Fills
  cases e with
  | message msg =>
    refine (see_exact_filled (hs.flagged o ho) hhit).trans (or_congr_right (and_congr_right fun hl => ?_))
    rw [fires_iff ((hright o ho).2 hproper hl)]
    exact ⟨fun h => ⟨msg, rfl, h⟩, fun ⟨_, heq, h⟩ => by cases heq; exact h⟩
  | placeDirected locate side ts => exact ⟨.inl, fun h => h.resolve_right fun ⟨_, _, heq, _⟩ => by cases heq⟩
  | cancelSymbol locate => exact ⟨.inl, fun h => h.resolve_right fun ⟨_, _, heq, _⟩ => by cases heq⟩

theorem step_side (hs : Sound s) {e : SimStep} {o o' : SyntheticOrder} (ho : o ∈ s.orders)
    (ho' : o' ∈ (s.step e).orders) (hseq : o.seq = o'.seq) : o'.side = o.side := by
  obtain ⟨hit, -, hsame⟩ := step_fate hs e ho ho' hseq
  rw [hsame.side]
  cases e with
  | message msg => exact (see_side (hs.flagged o ho) _ hit).1
  | _ => rfl

/-- Some call of the run has filled the exact model. -/
theorem filled_run {P : Platform} {es : List SimStep}
    (h : Runs.Along step (meets orderly) (init P cfg) es) {o : SyntheticOrder}
    (ho : o ∈ (run P cfg es).orders) (hproper : ProperSide o.side) :
    (o.models .exact).filled = true ↔ ∃ pre e post, es = pre ++ e :: post ∧
      ∃ o₀ ∈ (run P cfg pre).orders, o₀.seq = o.seq ∧ Fills (run P cfg pre) o₀ e := by
  induction es using List.reverseRecOn generalizing o with
  | nil => cases ho
  | append_singleton es e ih =>
    have hes : Runs.Along step (meets orderly) (init P cfg) es := h.of_isPrefix (List.prefix_append es [e])
    obtain ⟨hs, -, hright⟩ := position_run hes
    have hsnoc : run P cfg (es ++ [e]) = (run P cfg es).step e := Runs.run_snoc ..
    rw [hsnoc] at ho
    have hstep : ∀ o₁ ∈ (run P cfg es).orders, o₁.seq = o.seq → ((o.models .exact).filled = true ↔
        (o₁.models .exact).filled = true ∨ Fills (run P cfg es) o₁ e) ∧ ProperSide o₁.side :=
      fun o₁ ho₁ hseq => by
        have hside : ProperSide o₁.side := step_side hs ho₁ ho hseq ▸ hproper
        exact ⟨filled_step hs hright ho₁ ho hseq hside, hside⟩
    constructor
    · intro hfilled
      obtain ⟨o₁, ho₁, hseq⟩ := step_old hs e ho hfilled
      obtain ⟨hiff, hside⟩ := hstep o₁ ho₁ hseq
      rcases hiff.mp hfilled with hf | hf
      · obtain ⟨pre, e', post, rfl, o₀, ho₀, hseq₀, hfills⟩ := (ih hes ho₁ hside).mp hf
        exact ⟨pre, e', post ++ [e], by simp, o₀, ho₀, hseq₀.trans hseq, hfills⟩
      · exact ⟨es, e, [], rfl, o₁, ho₁, hseq, hf⟩
    · rintro ⟨pre, e', post, heq, o₀, ho₀, hseq₀, hfills⟩
      rcases List.eq_nil_or_concat post with rfl | ⟨post, x, rfl⟩
      · obtain ⟨rfl, hx⟩ := List.append_inj' heq rfl
        obtain rfl := List.singleton_inj.mp hx
        exact (hstep o₀ ho₀ hseq₀).1.mpr (.inr hfills)
      · have hsplit : es = pre ++ e' :: post := by
          rw [List.concat_eq_append, ← List.cons_append, ← List.append_assoc] at heq
          exact (List.append_inj' heq rfl).1
        obtain ⟨o₁, ho₁, hseq₁⟩ := run_seq ho₀ (e' :: post)
        rw [← hsplit] at ho₁
        obtain ⟨hiff, hside⟩ := hstep o₁ ho₁ (hseq₁.trans hseq₀)
        exact hiff.mpr (.inl ((ih hes ho₁ hside).mpr ⟨pre, e', post, hsplit, o₀, ho₀, hseq₁.symm, hfills⟩))

/-- **Exact queue position.** In every orderly run and for every synthetic order of one of the sides: while its
exact model is live, its references are those of the orders that were resting at its symbol, side and price when
it entered and have not left since, and as long as no level of the run has held more than `2 ^ 53` shares its
count is the sum of their shares, which a double holds. The exact model is filled at, and only at, a message that
finds it live and is an execution on its symbol and side at a worse price, or at its price and of none of those
orders, or with rule 4 a non-displayed print at its price. -/
theorem exact_position (P : Platform) (cfg : QueueSimConfig) {es : List SimStep}
    (h : Runs.Along step (meets orderly) (init P cfg) es) {o : SyntheticOrder}
    (ho : o ∈ (run P cfg es).orders) (hproper : ProperSide o.side) :
    ((o.models .exact).live = true →
      o.aheadRefs = ((stillAhead (run P cfg es).book o).map fun x => x.1.ref).toFinset ∧
      (Runs.Along step (meets light) (init P cfg) es →
        (o.models .exact).ahead = (((stillAhead (run P cfg es).book o).map Prod.snd).sum : ℕ) ∧
        ((stillAhead (run P cfg es).book o).map Prod.snd).sum ≤ 2 ^ 53)) ∧
    ((o.models .exact).filled = true ↔ ∃ pre msg post, es = pre ++ .message msg :: post ∧
      ∃ o₀ ∈ (run P cfg pre).orders, o₀.seq = o.seq ∧ (o₀.models .exact).live = true ∧
        Trigger cfg (run P cfg pre).book o₀ msg) := by
  refine ⟨fun hl => ⟨((position_run h).2.2 o ho).2 hproper hl, fun hlight => ?_⟩, ?_⟩
  · obtain ⟨-, ⟨-, hbook⟩, hcount⟩ := count_run hlight
    exact ⟨(hcount o ho).2 hproper hl, (sum_stillAhead_le _ o).trans (hbook _ _ _)⟩
  · rw [filled_run h ho hproper]
    constructor
    · rintro ⟨pre, e, post, rfl, o₀, ho₀, hseq, hl, msg, rfl, htrigger⟩
      rw [cfg_run] at htrigger
      exact ⟨pre, msg, post, rfl, o₀, ho₀, hseq, hl, htrigger⟩
    · rintro ⟨pre, msg, post, rfl, o₀, ho₀, hseq, hl, htrigger⟩
      refine ⟨pre, .message msg, post, rfl, o₀, ho₀, hseq, hl, msg, rfl, ?_⟩
      rw [cfg_run]
      exact htrigger

/-! ## A queue of three -/

/-- Behind the bid and the synthetic bid a third joins and shrinks; then the first bid is executed in two parts. -/
def queueOfThree : List SimStep := behindOne ++
  [.message (.addOrder { locate := 1, ts := 0, orderRef := 3, side := kBuy, shares := 30, stock := [], price := 10 }),
    .message (.orderCancel { locate := 1, ts := 0, orderRef := 3, cancelledShares := 10 }),
    .message (.orderExecuted { locate := 1, ts := 0, orderRef := 1, executedShares := 40 })]

/-- The rest of the first bid is executed, and some of the third. -/
def pastTheFirst : List SimStep := queueOfThree ++
  [.message (.orderExecuted { locate := 1, ts := 0, orderRef := 1, executedShares := 60 }),
    .message (.orderExecuted { locate := 1, ts := 0, orderRef := 3, executedShares := 5 })]

theorem light_pastTheFirst : Runs.Along step (meets light) (init silent directed) pastTheFirst :=
  light_along (by decide +kernel) (by decide +kernel)

/-- With the first bid partly executed 60 shares are ahead; what fills the model is the execution of the third. -/
theorem exact_position_queue :
    (∃ o ∈ (run silent directed queueOfThree).orders, o.aheadRefs = {1} ∧ (o.models .exact).ahead = 60 ∧
      o.aheadRefs = ((stillAhead (run silent directed queueOfThree).book o).map fun x => x.1.ref).toFinset ∧
      (o.models .exact).ahead = (((stillAhead (run silent directed queueOfThree).book o).map Prod.snd).sum : ℕ)) ∧
    ∃ o ∈ (run silent directed pastTheFirst).orders, ∃ pre msg post, pastTheFirst = pre ++ .message msg :: post ∧
      ∃ o₀ ∈ (run silent directed pre).orders, o₀.seq = o.seq ∧ (o₀.models .exact).live = true ∧
        Trigger directed (run silent directed pre).book o₀ msg := by
  have hlight := light_pastTheFirst
  have horderly : Runs.Along step (meets orderly) (init silent directed) pastTheFirst :=
    hlight.mono fun _ _ h msg he => (h msg he).1
  have hprefix : queueOfThree <+: pastTheFirst := ⟨_, rfl⟩
  constructor
  · obtain ⟨o, ho, hside, hl, hrefs, hahead⟩ : ∃ o ∈ (run silent directed queueOfThree).orders, o.side = kBuy ∧
        (o.models .exact).live = true ∧ o.aheadRefs = {1} ∧ (o.models .exact).ahead = 60 := by decide +kernel
    obtain ⟨hright, hcount⟩ := (exact_position silent directed (horderly.of_isPrefix hprefix) ho (.inl hside)).1 hl
    exact ⟨o, ho, hrefs, hahead, hright, (hcount (hlight.of_isPrefix hprefix)).1⟩
  · obtain ⟨o, ho, hside, hf⟩ : ∃ o ∈ (run silent directed pastTheFirst).orders, o.side = kBuy ∧
        (o.models .exact).filled = true := by decide +kernel
    exact ⟨o, ho, (exact_position silent directed horderly ho (.inl hside)).2.mp hf⟩

/-! ## Where the side bytes and the width show -/

/-- An offer of the side byte `real`, a bid, a synthetic offer of the side byte `synthetic`, and an execution of the
whole offer. -/
def takenAway (real synthetic : UInt8) : List SimStep :=
  [.message (.addOrder
      { locate := 1, ts := 0, orderRef := 1, side := real, shares := 100, stock := [], price := 20 }),
    .message (.addOrder
      { locate := 1, ts := 0, orderRef := 2, side := kBuy, shares := 100, stock := [], price := 10 }),
    .placeDirected 1 synthetic 0,
    .message (.orderExecuted
      { locate := 1, ts := 0, orderRef := 1, executedShares := 100 })]

/-- Behind an odd number of full bids, more shares are ahead than a double can hold. -/
theorem uneven_packed {n : ℕ} (hn : n < 2 ^ 64) (hodd : Odd n) (hbig : 2 ^ 53 ≤ n * (2 ^ 32 - 1)) :
    ∃ es, Runs.Along step (meets orderly) (init silent directed) es ∧
      ∃ o ∈ (run silent directed es).orders, ProperSide o.side ∧ (o.models .exact).live = true ∧
        ¬ IsDouble ((stillAhead (run silent directed es).book o).map Prod.snd).sum := by
  refine ⟨_, orderly_packed hn, ?_⟩
  obtain ⟨o, hrun, hent, hloc, hside, hprice⟩ := placed_packed hn hodd.pos
  have hbook := ReferenceBook.represents_run ((packed n).map .addOrder)
  have htotal := total_packed hn
  rw [hrun]
  refine ⟨o, by rw [push_orders]; simp, .inl hside, by rw [hent.models], ?_⟩
  have hsame : ((built (ReferenceBook.run {} ((packed n).map .addOrder))).push o).book =
      ReferenceBook.run {} ((packed n).map .addOrder) := rfl
  rw [hsame, hent.stillAhead, hloc, hside, hprice]
  have hdepth : (ReferenceBook.run {} ((packed n).map .addOrder)).depthOf 1 kBuy 10 = n * (2 ^ 32 - 1) := by
    rw [← htotal, ReferenceBook.depthOf, hbook.restingAt_eq, List.map_map]
    rfl
  unfold ReferenceBook.depthOf at hdepth
  rw [hdepth]
  exact not_isDouble (hodd.mul (by decide)) hbig

/-- Both anomaly counters are at zero. -/
structure NoAnomaly (b : ReferenceBook) : Prop where
  duplicateAdd : b.counters.duplicateAdd = 0
  overExecute : b.counters.overExecute = 0

/-- With a side byte that is neither `'B'` nor `'S'`, of the real order or of the synthetic one, the reference
stays ahead when nothing is; and an order can enter behind more shares than a double holds. -/
theorem not_exact_position :
    (∃ o ∈ (run silent directed (takenAway 88 kSell)).orders, (o.models .exact).live = true ∧
      o.aheadRefs = {1} ∧ stillAhead (run silent directed (takenAway 88 kSell)).book o = []) ∧
    NoAnomaly (run silent directed (takenAway 88 kSell)).book ∧
    (∃ o ∈ (run silent directed (takenAway kSell 88)).orders, (o.models .exact).live = true ∧
      o.aheadRefs = {1} ∧ stillAhead (run silent directed (takenAway kSell 88)).book o = []) ∧
    NoAnomaly (run silent directed (takenAway kSell 88)).book ∧
    ∃ es, Runs.Along step (meets orderly) (init silent directed) es ∧
      ∃ o ∈ (run silent directed es).orders, ProperSide o.side ∧ (o.models .exact).live = true ∧
        ¬ IsDouble ((stillAhead (run silent directed es).book o).map Prod.snd).sum :=
  ⟨by decide +kernel, ⟨by decide +kernel, by decide +kernel⟩, by decide +kernel,
    ⟨by decide +kernel, by decide +kernel⟩,
    uneven_packed (n := 2 ^ 21 + 1) (by norm_num) (by decide) (by norm_num)⟩

end QueueSim

end Carteret
