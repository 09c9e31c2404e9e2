import Carteret.FeatureIsolation
import Carteret.StrategyAccounts

/-!
# The strategy, symbol by symbol

A session trades many symbols with one simulator. As long as no message names an order of another symbol (`Own`), the
account of the session is the sum of the accounts of its symbols, each traded alone.

1. The exact model of an order of one symbol: events of other symbols pass it by, its own do the same to it whatever
   else rests in the book (`see_elsewhere`, `SameExact.see`).
2. What a settlement and a posting write belongs to one symbol (`Touches`).
3. `NextTo`: the strategy on all messages next to the one on the messages of a symbol. A message of the symbol moves
   both alike, any other message moves the first one only.
4. `additive`: the tally is the sum.
-/

namespace Carteret

open QueueSim

/-! ## Orders, as the exact model sees them -/

/-- The exact model is in the same state in both. -/
structure SameExact (o o' : SyntheticOrder) : Prop where
  locate : o'.locate = o.locate
  side : o'.side = o.side
  price : o'.price = o.price
  model : o'.models .exact = o.models .exact
  refs : o'.aheadRefs = o.aheadRefs

/-- The symbol that an event is about. -/
def BookEvent.locate : BookEvent → Option UInt16
  | .execution r _ _ => some r.locate
  | .cancel r _ => some r.locate
  | .print locate _ _ => some locate
  | .quiet => none

section

variable {b b' : ReferenceBook} {ev : BookEvent} {o o' : SyntheticOrder} {hit hit' : Bool}

theorem see_elsewhere (h : ev.locate ≠ some o.locate) (hit : Bool) : o.see b ev hit = o := by
  have hne : ∀ k, ev.locate = some k → o.locate ≠ k := fun k hk hc => h (hk.trans (congrArg some hc.symm))
  cases ev with
  | execution r qty ts => exact if_neg (hne r.locate rfl)
  | cancel r qty =>
    refine if_neg ?_
    unfold atLevelOf
    rw [beq_false_of_ne (hne r.locate rfl), Bool.and_false]
    exact Bool.false_ne_true
  | print locate price ts => exact if_neg (hne locate rfl)
  | quiet => rfl

theorem SameExact.fillLive (h : SameExact o o') (ts : UInt64) (why : FillReason) :
    (o'.fillLive ts why).models .exact = (o.fillLive ts why).models .exact ∧
      (o'.fillLive ts why).aheadRefs = (o.fillLive ts why).aheadRefs := by
  unfold SyntheticOrder.fillLive SyntheticOrder.update
  simp only [h.model, h.refs, and_self]

theorem SameExact.refsAfter (h : SameExact o o') (r : Resolved) (qty : Shares) :
    o'.refsAfter r qty = o.refsAfter r qty := by
  unfold SyntheticOrder.refsAfter
  rw [h.model, h.refs]

/-- **An event does the same to the exact model** whatever the books and the coins are. -/
theorem SameExact.see (h : SameExact o o') (hflag : o.Flagged) (hflag' : o'.Flagged)
    (hhit : hit = true → (o.models .bernoulliProportional).live = true)
    (hhit' : hit' = true → (o'.models .bernoulliProportional).live = true) :
    SameExact (o.see b ev hit) (o'.see b' ev hit') := by
  have hplace := @SyntheticOrder.placement_see b ev o hflag hit
  have hplace' := @SyntheticOrder.placement_see b' ev o' hflag' hit'
  suffices hmodel : (o'.see b' ev hit').models .exact = (o.see b ev hit).models .exact ∧
      (o'.see b' ev hit').aheadRefs = (o.see b ev hit).aheadRefs by
    refine ⟨?_, ?_, ?_, hmodel.1, hmodel.2⟩
    · exact (congrArg Placement.locate hplace').trans (h.locate.trans (congrArg Placement.locate hplace).symm)
    · exact (congrArg Placement.side hplace').trans (h.side.trans (congrArg Placement.side hplace).symm)
    · exact (congrArg Placement.price hplace').trans (h.price.trans (congrArg Placement.price hplace).symm)
  cases hl : (o.models .exact).live with
  | false =>
    have hl' : (o'.models .exact).live = false := by rw [h.model, hl]
    rw [SyntheticOrder.see_of_not_live hhit hl, SyntheticOrder.see_of_not_live hhit' hl',
      SyntheticOrder.see_refs_of_not_live hl, SyntheticOrder.see_refs_of_not_live hl']
    exact ⟨h.model, h.refs⟩
  | true =>
    have hany : o.anyLive = true := hflag.anyLive hl
    have hany' : o'.anyLive = true := hflag'.anyLive (m := .exact) (by rw [h.model, hl])
    cases ev with
    | execution r qty ts =>
      unfold SyntheticOrder.see SyntheticOrder.seeExecution throughTrade
      simp only [hany, hany', h.locate, h.side, h.price]
      split_ifs <;> first | exact ⟨h.model, h.refs⟩ | exact h.fillLive ts .tradeThrough | skip
      all_goals
        refine ⟨?_, h.refsAfter r qty⟩
        unfold SyntheticOrder.executed SyntheticOrder.update
        simp only [h.model, h.refs]
    | cancel r qty =>
      unfold SyntheticOrder.see SyntheticOrder.seeCancel atLevelOf
      simp only [hany, hany', h.locate, h.side, h.price]
      split_ifs
      · refine ⟨?_, h.refsAfter r qty⟩
        unfold SyntheticOrder.cancelled SyntheticOrder.update
        simp only [h.model, h.refs]
      · exact ⟨h.model, h.refs⟩
    | print locate price ts =>
      unfold SyntheticOrder.see SyntheticOrder.seePrint
      simp only [hany, hany', h.locate, h.price]
      split_ifs <;> first | exact ⟨h.model, h.refs⟩ | exact h.fillLive ts .nonDisplayedPrint
    | quiet => exact ⟨h.model, h.refs⟩

end

/-! ## Events of one symbol -/

section

variable {b b' : ReferenceBook} {A : Book} {l : UInt16} {m : Message} {cfg : QueueSimConfig}

/-- What a message names is resolved alike beside other orders. -/
theorem resolve_only (h : b.Represents A) (h' : b'.Represents (A.only l)) (hown : Own A m)
    (hl : m.header.locate = l) {ref : Ref} (href : ref ∈ m.refs) : resolve b' ref = resolve b ref := by
  have hfind : (A.only l).find ref = A.find ref :=
    Book.find_only fun e he hr => (hown e he (hr ▸ href)).trans hl
  cases hr : resolve b ref with
  | none =>
    cases hr' : resolve b' ref with
    | none => rfl
    | some r' =>
      obtain ⟨-, e, he, -⟩ := h'.resolve hr'
      rw [hfind, h.resolve_none hr] at he
      cases he
  | some r =>
    obtain ⟨href₁, e, he, hres⟩ := h.resolve hr
    cases hr' : resolve b' ref with
    | none =>
      rw [← hfind, h'.resolve_none hr'] at he
      cases he
    | some r' =>
      obtain ⟨href₂, e', he', hres'⟩ := h'.resolve hr'
      obtain rfl : e = e' := Option.some.inj (he.symm.trans (hfind.symm.trans he'))
      have hlocate := hres'.locate.symm.trans hres.locate
      have hside := hres'.side.symm.trans hres.side
      have hprice := hres'.price.symm.trans hres.price
      have hshares := hres'.shares.symm.trans hres.shares
      cases r
      cases r'
      simp_all

theorem eventOf_only (h : b.Represents A) (h' : b'.Represents (A.only l)) (hown : Own A m)
    (hl : m.header.locate = l) : eventOf cfg b' m = eventOf cfg b m := by
  have hres := fun ref (href : ref ∈ m.refs) => resolve_only h h' hown hl href
  cases m with
  | orderExecuted v => simp only [eventOf, hres v.orderRef (List.mem_singleton_self _)]
  | orderExecutedPrice v => simp only [eventOf, hres v.orderRef (List.mem_singleton_self _)]
  | orderCancel v => simp only [eventOf, hres v.orderRef (List.mem_singleton_self _)]
  | orderDelete v => simp only [eventOf, hres v.orderRef (List.mem_singleton_self _)]
  | orderReplace v => simp only [eventOf, hres v.oldOrderRef List.mem_cons_self]
  | _ => rfl

/-- A message is about its symbol. -/
theorem eventOf_locate (h : b.Represents A) (hown : Own A m) {k : UInt16}
    (hk : (eventOf cfg b m).locate = some k) : k = m.header.locate := by
  have hres : ∀ {ref : Ref} {f : Resolved → BookEvent}, (∀ r, (f r).locate = some r.locate) → ref ∈ m.refs →
      ((resolve b ref).elim .quiet f).locate = some k → k = m.header.locate := fun {ref f} hf href hk => by
    cases hr : resolve b ref with
    | none =>
      rw [hr] at hk
      cases hk
    | some r =>
      obtain ⟨rfl, e, he, hres⟩ := h.resolve hr
      obtain ⟨he, heref⟩ := Book.find_eq_some.mp he
      rw [hr, Option.elim_some, hf] at hk
      rw [← Option.some.inj hk, ← hres.locate]
      exact hown e he (heref ▸ href)
  cases m with
  | orderExecuted v => exact hres (fun _ => rfl) (List.mem_singleton_self _) hk
  | orderExecutedPrice v => exact hres (fun _ => rfl) (List.mem_singleton_self _) hk
  | orderCancel v => exact hres (fun _ => rfl) (List.mem_singleton_self _) hk
  | orderDelete v => exact hres (fun _ => rfl) (List.mem_singleton_self _) hk
  | orderReplace v => exact hres (fun _ => rfl) List.mem_cons_self hk
  | trade v =>
    unfold eventOf at hk
    split_ifs at hk
    · exact (Option.some.inj hk).symm
    · cases hk
  | _ => cases hk

end

/-- Without a limit on their life the clock retires no order: an order sees the event of the message, and that is
all. -/
theorem on_sees {s : QueueSim} (hs : Sound s) (hlife : s.cfg.maxLifeNs = kNoLimit)
    (hentered : ∀ o ∈ s.orders, o.enteredTs ≤ s.lastTs) (m : Message) {o : SyntheticOrder} (ho : o ∈ s.orders) :
    ∃ hit, (hit = true → (o.models .bernoulliProportional).live = true) ∧
      o.see (bookAfter s.book m) (eventOf s.cfg s.book m) hit ∈ (s.on m).orders := by
  have hbook : Sound { s with book := bookAfter s.book m } := hs.withBook _
  have hstays (h : s.on m = react { s with book := bookAfter s.book m } (eventOf s.cfg s.book m)) :
      ∃ hit, (hit = true → (o.models .bernoulliProportional).live = true) ∧
        o.see (bookAfter s.book m) (eventOf s.cfg s.book m) hit ∈ (s.on m).orders := by
    obtain ⟨o', ho', hit, hhit, rfl⟩ := Scan.exists_right (hbook.react_orders (eventOf s.cfg s.book m)) ho
    rw [h]
    exact ⟨hit, hhit, ho'⟩
  cases htick : tickOf m with
  | none =>
    refine hstays ?_
    rw [on_eq, htick]
    rfl
  | some ts =>
    by_cases hle : s.lastTs ≤ ts
    · obtain ⟨hit, hhit, hmem⟩ := (moved_on hs htick hle).old o ho
      refine ⟨hit, hhit, ?_⟩
      have hsame : s.seeOn m ts hit o = o.see (bookAfter s.book m) (eventOf s.cfg s.book m) hit := by
        have henteredTs : (o.see (bookAfter s.book m) (eventOf s.cfg s.book m) hit).enteredTs = o.enteredTs :=
          congrArg Placement.enteredTs (SyntheticOrder.placement_see (hs.flagged o ho) hit)
        -- no order is as old as that
        have hyoung : ¬ ts - o.enteredTs ≥ s.cfg.maxLifeNs := by
          have hage := UInt64.toNat_sub_of_le ts o.enteredTs (UInt64.le_trans (hentered o ho) hle)
          have hts := tickOf_lt htick
          have hlimit : kNoLimit.toNat = 2 ^ 64 - 1 := by decide
          rw [hlife, ge_iff_le, UInt64.le_iff_toNat_le, hage]
          omega
        unfold seeOn seeTick SyntheticOrder.seeSweep SyntheticOrder.overdue
        rw [henteredTs, decide_eq_false hyoung, Bool.and_false, if_neg Bool.false_ne_true, ite_self]
      rw [← hsame]
      exact hmem
    · -- the clock does not go back
      refine hstays ?_
      have hlast : (react { s with book := bookAfter s.book m } (eventOf s.cfg s.book m)).lastTs = s.lastTs := by
        rw [hbook.react_eq]
        rfl
      rw [on_eq, htick]
      show tick _ ts = _
      unfold tick
      rw [hlast, if_pos (UInt64.not_le.mp hle)]

/-! ## What belongs to one symbol -/

/-- What is written belongs to the symbol `k`. -/
structure Touches (k : UInt16) (s s' : Strategy) : Prop where
  book : s'.sim.book = s.sim.book
  selected : s'.selected = s.selected
  window : s'.window = s.window
  st : ∀ l, l ≠ k → s'.st l = s.st l
  orders : ∀ o ∈ s'.sim.orders, o.locate ≠ k → o ∈ s.sim.orders

section

variable {cfg : QueueSimConfig} {s s' s'' : Strategy} {k : UInt16}

theorem Touches.refl (k : UInt16) (s : Strategy) : Touches k s s :=
  ⟨rfl, rfl, rfl, fun _ _ => rfl, fun _ ho _ => ho⟩

theorem Touches.trans (h : Touches k s s') (h' : Touches k s' s'') : Touches k s s'' :=
  ⟨h'.book.trans h.book, h'.selected.trans h.selected, h'.window.trans h.window,
    fun l hl => (h'.st l hl).trans (h.st l hl), fun o ho hk => h.orders o (h'.orders o ho hk) hk⟩

theorem touches_setSt (s : Strategy) (k : UInt16) (x : SymState) : Touches k s (s.setSt k x) :=
  ⟨rfl, rfl, rfl, fun l hl => by rw [Strategy.setSt_st, if_neg hl], fun _ ho _ => ho⟩

/-- **A settlement** writes its symbol. -/
theorem Quoting.touches_settle (h : Quoting cfg s) (w : Closing) :
    Touches k s ((s.note (.closed k w)).settle k w.mid) := by
  cases hopen : (s.st k).quote.isOpen with
  | false =>
    have hopen' : ((s.note (.closed k w)).st k).quote.isOpen = false := hopen
    rw [Strategy.settle_of_not_open w.mid hopen']
    exact ⟨rfl, rfl, rfl, fun _ _ => rfl, fun _ ho _ => ho⟩
  | true =>
    have hset := h.settles hopen w
    refine ⟨?_, hset.selected, hset.window, fun l hl => ?_, fun o' ho' hk => ?_⟩
    · rw [hset.sim]
      rfl
    · rw [hset.st, Function.update_of_ne hl]
    · rw [hset.sim] at ho'
      obtain ⟨o, ho, rfl⟩ := List.mem_map.mp ((h.solid.sound.retire_orders k).mem_iff.mp ho')
      by_cases hl : o.locate = k
      · refine absurd ?_ hk
        unfold seeCancelSymbol SyntheticOrder.seeRetire
        split_ifs <;> exact hl
      · rw [seeCancelSymbol_of_ne o hl]
        exact ho

/-- What is posted: the order enters the simulator, the quote takes its number. -/
theorem post_eq {now : Inside} {w : Closing} {o : SyntheticOrder}
    (hpost : (w.usable && decide (w.qi ≠ 0)) = true)
    (he : s.sim.entry k (if w.qi > 0 then kBuy else kSell) w.ts = some o) :
    s.post k now w =
      { s with
        sim := s.sim.push o
        st := Function.update s.st k { s.st k with quote :=
          { (s.st k).quote with
            isOpen := true
            side := if w.qi > 0 then kBuy else kSell
            price := if (if w.qi > 0 then kBuy else kSell) = kBuy then now.bid else now.ask
            midAtEntry := w.mid
            spreadAtEntry := w.spread
            seq := s.sim.placements } }
        tally := { s.tally with quotes := s.tally.quotes + 1 }
        trace := s.trace ++ [.posted k s.sim.placements (if w.qi > 0 then kBuy else kSell)] } := by
  have hpush : s.sim.placeDirected k (if w.qi > 0 then kBuy else kSell) w.ts = s.sim.push o := by
    unfold placeDirected placeAt
    rw [he]
  have hdrive : (s.drive fun sim => sim.placeDirected k (if w.qi > 0 then kBuy else kSell) w.ts) =
      { s with sim := s.sim.push o } := by
    rw [Strategy.drive_silent (by rw [hpush]; rfl), hpush]
  unfold Strategy.post
  rw [if_pos hpost]
  simp only [hdrive]
  rfl

/-- **A posting** writes its symbol. -/
theorem touches_post {now : Inside} {w : Closing} (hvalid : (Inside.read s.sim.book k).valid = true) :
    Touches k s (s.post k now w) := by
  by_cases hpost : (w.usable && decide (w.qi ≠ 0)) = true
  swap
  · rw [Strategy.post_of_not_signal hpost]
    exact Touches.refl k s
  obtain ⟨o, he⟩ := entry_of_valid hvalid (if w.qi > 0 then kBuy else kSell) w.ts
  obtain ⟨-, -, holoc, -⟩ := entry_spec he
  rw [post_eq hpost he]
  refine ⟨rfl, rfl, rfl, fun l hl => Function.update_of_ne hl _ _, fun o' ho' hk => ?_⟩
  rcases List.mem_append.mp (push_orders s.sim o ▸ ho') with hold | hnew
  · exact hold
  · rw [List.mem_singleton.mp hnew] at hk
    exact absurd holoc hk

theorem Quoting.touches_closeWindow (h : Quoting cfg s) (ts : UInt64)
    (hvalid : (s.readInside k).valid = true) : Touches k s (s.closeWindow k (s.readInside k) ts) := by
  have hsettled := h.touches_settle (k := k) ((s.st k).closing (s.readInside k) ts)
  have hvalid' : (Inside.read ((s.note (.closed k ((s.st k).closing (s.readInside k) ts))).settle k
      ((s.st k).closing (s.readInside k) ts).mid).sim.book k).valid = true := by
    rw [hsettled.book]
    exact hvalid
  exact (hsettled.trans (touches_post hvalid')).trans (touches_setSt _ k _)

/-- **What follows a message** writes the symbol of the message. -/
theorem Quoting.touches_after (h : Quoting cfg s) (k : UInt16) (ts : UInt64) : Touches k s (s.after k ts) := by
  by_cases hmem : k ∈ s.selected
  swap
  · have hid : s.after k ts = s := if_pos hmem
    rw [hid]
    exact Touches.refl k s
  rw [Strategy.after_eq hmem]
  dsimp only
  split_ifs with hupdate hfull
  · have hset := h.setSt (l := k) (x := SymState.observe { s.st k with prev := s.readInside k } ts) rfl
    have hvalid : (s.readInside k).valid = true := by
      simp only [Bool.and_eq_true] at hupdate
      exact hupdate.1.1
    exact (touches_setSt s k _).trans (hset.touches_closeWindow ts hvalid)
  · exact touches_setSt s k _
  · exact touches_setSt s k _

end

/-! ## Accounts add up -/

namespace Tally

instance : Zero Tally := ⟨{}⟩

instance : Add Tally where
  add t u :=
    { quotes := t.quotes + u.quotes
      fills := t.fills + u.fills
      fillsTapeA := t.fillsTapeA + u.fillsTapeA
      fillsTapeB := t.fillsTapeB + u.fillsTapeB
      fillsTapeC := t.fillsTapeC + u.fillsTapeC
      fillsTapeX := t.fillsTapeX + u.fillsTapeX
      grossHalfspreads := t.grossHalfspreads + u.grossHalfspreads
      grossDollars := t.grossDollars + u.grossDollars
      sumSpreadDollars := t.sumSpreadDollars + u.sumSpreadDollars }

attribute [ext] Tally

instance : AddCommMonoid Tally where
  add_assoc t u v := by ext <;> exact add_assoc ..
  zero_add t := by ext <;> exact zero_add _
  add_zero t := by ext <;> exact add_zero _
  add_comm t u := by ext <;> exact add_comm ..
  nsmul := nsmulRec

/-- A settlement adds the account of the quote. -/
theorem settle_eq (t : Tally) (tape : UInt8) (q : Quote) (mid : ℚ) :
    t.settle tape q mid = t + Tally.settle {} tape q mid := by
  have hcount : ∀ (p : Prop) [Decidable p] (n : ℕ), (if p then n + 1 else n) = n + if p then 0 + 1 else 0 :=
    fun p _ n => by split_ifs <;> rfl
  have hzero : ∀ x y : ℚ, x + y = x + (0 + y) := fun x y => by rw [zero_add]
  ext
  · exact (Nat.add_zero _).symm
  · exact congrArg (t.fills + ·) (Nat.zero_add 1).symm
  · exact hcount _ _
  · exact hcount _ _
  · exact hcount _ _
  · exact hcount _ _
  · exact hzero _ _
  · exact hzero _ _
  · exact hzero _ _

theorem quotes_succ (t : Tally) : { t with quotes := t.quotes + 1 } = t + { quotes := 1 } := by
  ext
  · rfl
  all_goals exact (add_zero _).symm

end Tally

/-! ## All messages, and the messages of one symbol -/

/-- A quote without its number. -/
def Quote.sansSeq (q : Quote) : Quote := { q with seq := 0 }

/-- The strategy on all messages, and the strategy on the messages of the symbol `l`: the books show the symbol alike,
its windows and its quote agree, and the exact model of the order of an open quote is in the same state. -/
structure NextTo (A : Book) (l : UInt16) (s t : Strategy) : Prop where
  book : s.sim.book.Represents A
  book' : t.sim.book.Represents (A.only l)
  selected : l ∈ s.selected
  selected' : l ∈ t.selected
  window : t.window = s.window
  st : (t.st l).sansQuote = (s.st l).sansQuote
  quote : (t.st l).quote.sansSeq = (s.st l).quote.sansSeq
  order : (s.st l).quote.isOpen = true → ∀ o ∈ s.sim.orders, o.locate = l → o.seq = (s.st l).quote.seq →
    ∀ o' ∈ t.sim.orders, o'.locate = l → o'.seq = (t.st l).quote.seq → SameExact o o'

section

variable {cfg : QueueSimConfig} {A : Book} {l k : UInt16} {s s' t : Strategy} {m : Message}

theorem told_quote_eq (x : SymState) (hit : Bool) :
    (x.told hit).quote = { x.quote with filled := (x.told hit).quote.filled } := by
  unfold SymState.told
  split <;> rfl

theorem NextTo.isOpen (h : NextTo A l s t) : (t.st l).quote.isOpen = (s.st l).quote.isOpen := by
  show (t.st l).quote.sansSeq.isOpen = (s.st l).quote.sansSeq.isOpen
  rw [h.quote]

theorem NextTo.filled (h : NextTo A l s t) : (t.st l).quote.filled = (s.st l).quote.filled := by
  show (t.st l).quote.sansSeq.filled = (s.st l).quote.sansSeq.filled
  rw [h.quote]

/-- Nothing else enters. -/
theorem NextTo.elsewhere (h : NextTo A l s t) (ht : Touches k s s') (hk : l ≠ k) : NextTo A l s' t where
  book := ht.book ▸ h.book
  book' := h.book'
  selected := ht.selected ▸ h.selected
  selected' := h.selected'
  window := h.window.trans ht.window.symm
  st := (ht.st l hk).symm ▸ h.st
  quote := (ht.st l hk).symm ▸ h.quote
  order := fun hq o ho hl hseq => by
    rw [ht.st l hk] at hq hseq
    exact h.order hq o (ht.orders o ho (hl.trans_ne hk)) hl hseq

/-- The orders of the open quotes, behind a message of the symbol. -/
theorem NextTo.orders_on (h : NextTo A l s t) (hs : Quoting cfg s) (ht : Quoting cfg t)
    (htimer : cfg.timerPlacement = false) (hlife : cfg.maxLifeNs = kNoLimit) (hown : Own A m)
    (hl : m.header.locate = l) (hq : (s.st l).quote.isOpen = true) {o o' : SyntheticOrder}
    (ho : o ∈ (s.sim.on m).orders) (hseq : o.seq = (s.st l).quote.seq) (ho' : o' ∈ (t.sim.on m).orders)
    (hseq' : o'.seq = (t.st l).quote.seq) : SameExact o o' := by
  have hs' := hs.drive htimer m
  have ht' := ht.drive htimer m
  rw [Strategy.drive_eq] at hs' ht'
  have hevent : eventOf t.sim.cfg t.sim.book m = eventOf s.sim.cfg s.sim.book m := by
    rw [ht.solid.cfg, hs.solid.cfg, eventOf_only h.book h.book' hown hl]
  obtain ⟨o₁, ho₁, hl₁, hseq₁, -⟩ := hs.current l hq
  obtain ⟨o₂, ho₂, hl₂, hseq₂, -⟩ := ht.current l (h.isOpen.trans hq)
  have hflag₁ := hs.solid.sound.flagged o₁ ho₁
  have hflag₂ := ht.solid.sound.flagged o₂ ho₂
  obtain ⟨hit, hhit, hmem⟩ := on_sees hs.solid.sound (hs.solid.cfg ▸ hlife) hs.entered m ho₁
  obtain ⟨hit', hhit', hmem'⟩ := on_sees ht.solid.sound (ht.solid.cfg ▸ hlife) ht.entered m ho₂
  rw [hevent] at hmem'
  obtain rfl := hs'.solid.sound.eq_of_seq_eq ho hmem
    (hseq.trans (hseq₁.symm.trans (congrArg Placement.seq (SyntheticOrder.placement_see hflag₁ hit)).symm))
  obtain rfl := ht'.solid.sound.eq_of_seq_eq ho' hmem'
    (hseq'.trans (hseq₂.symm.trans (congrArg Placement.seq (SyntheticOrder.placement_see hflag₂ hit')).symm))
  exact (h.order hq o₁ ho₁ hl₁ hseq₁ o₂ ho₂ hl₂ hseq₂).see hflag₁ hflag₂ hhit hhit'

/-- **A message of the symbol** to both simulators. -/
theorem NextTo.drive (h : NextTo A l s t) (hs : Quoting cfg s) (ht : Quoting cfg t)
    (htimer : cfg.timerPlacement = false) (hlife : cfg.maxLifeNs = kNoLimit) (hown : Own A m)
    (hl : m.header.locate = l) :
    NextTo (A.step m) l (s.drive fun sim => sim.on m) (t.drive fun sim => sim.on m) := by
  have hs' := hs.drive htimer m
  have ht' := ht.drive htimer m
  rw [Strategy.drive_eq] at hs' ht' ⊢
  rw [Strategy.drive_eq]
  refine ⟨?_, ?_, h.selected, h.selected', h.window, ?_, ?_, fun hq o ho _ hseq o' ho' _ hseq' => ?_⟩
  · show (s.sim.on m).book.Represents (A.step m)
    rw [on_book]
    exact represents_bookAfter h.book m
  · show (t.sim.on m).book.Represents ((A.step m).only l)
    rw [on_book]
    exact h.book'.only hown hl
  · exact (SymState.sansQuote_told _ _).trans (h.st.trans (SymState.sansQuote_told _ _).symm)
  · cases hq : (s.st l).quote.isOpen with
    | false =>
      show ((t.st l).told _).quote.sansSeq = ((s.st l).told _).quote.sansSeq
      rw [(told_quote _ _).2.2 (h.isOpen.trans hq), (told_quote _ _).2.2 hq]
      exact h.quote
    | true =>
      -- the quote is filled when its order is
      obtain ⟨o, ho, -, hseq, hfilled⟩ := hs'.current l ((told_quote _ _).1.trans hq)
      obtain ⟨o', ho', -, hseq', hfilled'⟩ := ht'.current l ((told_quote _ _).1.trans (h.isOpen.trans hq))
      have hsame := h.orders_on hs ht htimer hlife hown hl hq ho (hseq.trans (told_quote _ _).2.1) ho'
        (hseq'.trans (told_quote _ _).2.1)
      rw [hsame.model, hfilled] at hfilled'
      show ((t.st l).told _).quote.sansSeq = ((s.st l).told _).quote.sansSeq
      rw [told_quote_eq, told_quote_eq (s.st l)]
      exact congrArg₂ (fun (q : Quote) f => { q with filled := f }) h.quote hfilled'.symm
  · exact h.orders_on hs ht htimer hlife hown hl ((told_quote _ _).1.symm.trans hq) ho
      (hseq.trans (told_quote _ _).2.1) ho' (hseq'.trans (told_quote _ _).2.1)

/-- Behind a message of another symbol, the order of an open quote is the one that was there. -/
theorem Quoting.mem_orders (hs : Quoting cfg s) (htimer : cfg.timerPlacement = false)
    (hlife : cfg.maxLifeNs = kNoLimit) (hbook : s.sim.book.Represents A) (hown : Own A m) (hl : m.header.locate ≠ l)
    (hq : (s.st l).quote.isOpen = true) {o : SyntheticOrder} (ho : o ∈ (s.sim.on m).orders)
    (hseq : o.seq = (s.st l).quote.seq) : o ∈ s.sim.orders := by
  have hs' := hs.drive htimer m
  rw [Strategy.drive_eq] at hs'
  obtain ⟨o₁, ho₁, hl₁, hseq₁, -⟩ := hs.current l hq
  obtain ⟨hit, -, hmem⟩ := on_sees hs.solid.sound (hs.solid.cfg ▸ hlife) hs.entered m ho₁
  have hne : (eventOf s.sim.cfg s.sim.book m).locate ≠ some o₁.locate := fun hc =>
    hl ((eventOf_locate hbook hown hc).symm.trans hl₁)
  rw [see_elsewhere hne] at hmem
  rw [hs'.solid.sound.eq_of_seq_eq ho hmem (hseq.trans hseq₁.symm)]
  exact ho₁

/-- **A message of another symbol** to the simulator of all. -/
theorem NextTo.drive_elsewhere (h : NextTo A l s t) (hs : Quoting cfg s) (htimer : cfg.timerPlacement = false)
    (hlife : cfg.maxLifeNs = kNoLimit) (hown : Own A m) (hl : m.header.locate ≠ l) :
    NextTo (A.step m) l (s.drive fun sim => sim.on m) t := by
  have hs' := hs.drive htimer m
  rw [Strategy.drive_eq] at hs' ⊢
  have hquote : ((s.st l).told (Strategy.called s.sim (s.sim.on m) l)).quote = (s.st l).quote := by
    cases hq : (s.st l).quote.isOpen with
    | false => exact (told_quote _ _).2.2 hq
    | true =>
      obtain ⟨o, ho, -, hseq, hfilled⟩ := hs'.current l ((told_quote _ _).1.trans hq)
      have hold := hs.mem_orders htimer hlife h.book hown hl hq ho (hseq.trans (told_quote _ _).2.1)
      obtain ⟨o₁, ho₁, -, hseq₁, hfilled₁⟩ := hs.current l hq
      obtain rfl := hs.solid.sound.eq_of_seq_eq hold ho₁ ((hseq.trans (told_quote _ _).2.1).trans hseq₁.symm)
      have hfilled' : (s.st l).quote.filled = ((s.st l).told (Strategy.called s.sim (s.sim.on m) l)).quote.filled :=
        hfilled₁.symm.trans hfilled
      rw [told_quote_eq, ← hfilled']
  refine ⟨?_, ?_, h.selected, h.selected', h.window, ?_, ?_, fun hq o ho hol hseq => ?_⟩
  · show (s.sim.on m).book.Represents (A.step m)
    rw [on_book]
    exact represents_bookAfter h.book m
  · rw [Book.step_only hown, if_neg hl]
    exact h.book'
  · exact h.st.trans (SymState.sansQuote_told _ _).symm
  · exact h.quote.trans (congrArg Quote.sansSeq hquote.symm)
  · have hq' : (s.st l).quote.isOpen = true := (told_quote _ _).1.symm.trans hq
    have hseq' : o.seq = (s.st l).quote.seq := hseq.trans (told_quote _ _).2.1
    exact h.order hq' o (hs.mem_orders htimer hlife h.book hown hl hq' ho hseq') hol hseq'

end

/-! ## A close of the symbol -/

section

variable {cfg : QueueSimConfig} {A : Book} {l : UInt16} {s t : Strategy} {now : Inside} {w : Closing}

/-- Both gain the same. -/
def SameGain (s s' t t' : Strategy) : Prop := ∃ δ : Tally, s'.tally = s.tally + δ ∧ t'.tally = t.tally + δ

theorem SameGain.none (hs : s'.tally = s.tally) (ht : t'.tally = t.tally) : SameGain s s' t t' :=
  ⟨0, hs.trans (add_zero _).symm, ht.trans (add_zero _).symm⟩

theorem SameGain.trans (h : SameGain s s' t t') (h' : SameGain s' s'' t' t'') : SameGain s s'' t t'' := by
  obtain ⟨δ, hs, ht⟩ := h
  obtain ⟨δ', hs', ht'⟩ := h'
  exact ⟨δ + δ', by rw [hs', hs, add_assoc], by rw [ht', ht, add_assoc]⟩

/-- The account of a quote does not know its number. -/
theorem settle_sansSeq {q q' : Quote} (h : q'.sansSeq = q.sansSeq) (tape : UInt8) (mid : ℚ) :
    Tally.settle {} tape q' mid = Tally.settle {} tape q mid := by
  show Tally.settle {} tape q'.sansSeq mid = Tally.settle {} tape q.sansSeq mid
  rw [h]

/-- **A settlement** of both. -/
theorem NextTo.settle (h : NextTo A l s t) (hs : Quoting cfg s) (ht : Quoting cfg t) (w : Closing) :
    NextTo A l ((s.note (.closed l w)).settle l w.mid) ((t.note (.closed l w)).settle l w.mid) ∧
      SameGain s ((s.note (.closed l w)).settle l w.mid) t ((t.note (.closed l w)).settle l w.mid) := by
  cases hopen : (s.st l).quote.isOpen with
  | false =>
    have hnoted : ((s.note (.closed l w)).st l).quote.isOpen = false := hopen
    have hnoted' : ((t.note (.closed l w)).st l).quote.isOpen = false := h.isOpen.trans hopen
    rw [Strategy.settle_of_not_open w.mid hnoted, Strategy.settle_of_not_open w.mid hnoted']
    exact ⟨⟨h.book, h.book', h.selected, h.selected', h.window, h.st, h.quote, h.order⟩, .none rfl rfl⟩
  | true =>
    have hset := hs.settles hopen w
    have hset' := ht.settles (h.isOpen.trans hopen) w
    have hst {s₁ s₂ : Strategy} (hset : Settles s₁ s₂ l w) : s₂.st l = { s₁.st l with quote := {} } := by
      rw [hset.st, Function.update_self]
    have hbook {s₁ s₂ : Strategy} (hset : Settles s₁ s₂ l w) : s₂.sim.book = s₁.sim.book := by
      rw [hset.sim]
      rfl
    refine ⟨⟨?_, ?_, ?_, ?_, ?_, ?_, ?_, fun hq => ?_⟩, ?_⟩
    · rw [hbook hset]
      exact h.book
    · rw [hbook hset']
      exact h.book'
    · rw [hset.selected]
      exact h.selected
    · rw [hset'.selected]
      exact h.selected'
    · rw [hset.window, hset'.window, h.window]
    · rw [hst hset, hst hset']
      exact h.st
    · rw [hst hset, hst hset']
    · rw [hst hset] at hq
      cases hq
    · have htape : (t.st l).tape = (s.st l).tape := by
        show (t.st l).sansQuote.tape = (s.st l).sansQuote.tape
        rw [h.st]
      unfold SameGain
      rw [hset.tally, hset'.tally, h.filled, htape]
      split_ifs
      · refine ⟨Tally.settle {} (s.st l).tape (s.st l).quote w.mid, Tally.settle_eq .., ?_⟩
        rw [Tally.settle_eq, settle_sansSeq h.quote]
      · exact ⟨0, (add_zero _).symm, (add_zero _).symm⟩

theorem entry_price {sim : QueueSim} {side : UInt8} {ts : UInt64} {o : SyntheticOrder}
    (he : sim.entry l side ts = some o) :
    o.price = if side = kBuy then (Inside.read sim.book l).bid else (Inside.read sim.book l).ask := by
  unfold QueueSim.entry at he
  unfold Inside.read
  cases hsym : sim.book.symbol l with
  | none =>
    rw [hsym] at he
    cases he
  | some sym =>
    rw [hsym] at he
    dsimp only at he ⊢
    by_cases hsides : (!sym.hasBid || !sym.hasAsk) = true
    · rw [if_pos hsides] at he
      cases he
    rw [if_neg hsides] at he ⊢
    by_cases hside : side = kBuy
    · rw [if_pos hside] at he ⊢
      split_ifs at he
      obtain rfl := Option.some.inj he
      rfl
    · rw [if_neg hside] at he ⊢
      split_ifs at he
      obtain rfl := Option.some.inj he
      rfl

theorem NextTo.readInside (h : NextTo A l s t) : t.readInside l = s.readInside l :=
  (h.book'.shows l).unique ((h.book.shows l).congr fun buy p => by rw [Book.level_only])

/-- The orders that enter. -/
theorem NextTo.entry (h : NextTo A l s t) {side : UInt8} {ts : UInt64} {o o' : SyntheticOrder}
    (he : s.sim.entry l side ts = some o) (he' : t.sim.entry l side ts = some o') : SameExact o o' := by
  obtain ⟨hent, -, hloc, hside, -⟩ := entry_spec he
  obtain ⟨hent', -, hloc', hside', -⟩ := entry_spec he'
  have hprice : o'.price = o.price := by
    have hread : Inside.read t.sim.book l = Inside.read s.sim.book l := h.readInside
    rw [entry_price he, entry_price he', hread]
  have hlevel : t.sim.book.level o'.locate o'.side o'.price = s.sim.book.level o.locate o.side o.price := by
    rw [h.book'.level_query, h.book.level_query, hprice, hloc, hloc', hside, hside', Book.level_only]
  refine ⟨hloc'.trans hloc.symm, hside'.trans hside.symm, hprice, ?_, ?_⟩
  · rw [hent.models, hent'.models, hent.depth, hent'.depth, hlevel]
  · rw [hent.refs, hent'.refs, hlevel]

/-- **A posting** of both. -/
theorem NextTo.post (h : NextTo A l s t) (hs : Sound s.sim) (ht : Sound t.sim)
    (hvalid : (s.readInside l).valid = true) (now : Inside) (w : Closing) :
    NextTo A l (s.post l now w) (t.post l now w) ∧ SameGain s (s.post l now w) t (t.post l now w) := by
  by_cases hpost : (w.usable && decide (w.qi ≠ 0)) = true
  swap
  · rw [Strategy.post_of_not_signal hpost, Strategy.post_of_not_signal hpost]
    exact ⟨h, .none rfl rfl⟩
  obtain ⟨o, he⟩ := entry_of_valid hvalid (if w.qi > 0 then kBuy else kSell) w.ts
  obtain ⟨o', he'⟩ := entry_of_valid (h.readInside ▸ hvalid) (if w.qi > 0 then kBuy else kSell) w.ts
  rw [post_eq hpost he, post_eq hpost he']
  refine ⟨⟨h.book, h.book', h.selected, h.selected', h.window, ?_, ?_, fun _ x hx _ hseq x' hx' _ hseq' => ?_⟩,
    ⟨{ quotes := 1 }, Tally.quotes_succ _, Tally.quotes_succ _⟩⟩
  · show (Function.update t.st l _ l).sansQuote = (Function.update s.st l _ l).sansQuote
    rw [Function.update_self, Function.update_self]
    exact h.st
  · show (Function.update t.st l _ l).quote.sansSeq = (Function.update s.st l _ l).quote.sansSeq
    rw [Function.update_self, Function.update_self]
    simp only [Quote.sansSeq, h.filled]
  · -- the order with the new number is the one that has entered
    have hnew {sim : QueueSim} {o x : SyntheticOrder} (hsim : Sound sim) (hx : x ∈ (sim.push o).orders)
        (hseq : x.seq = sim.placements) : x = o := by
      rcases List.mem_append.mp (push_orders sim o ▸ hx) with hold | hnew
      · exact absurd hseq (Nat.ne_of_lt (hsim.seq_lt hold))
      · exact List.mem_singleton.mp hnew
    have hseq₁ : x.seq = s.sim.placements := by
      refine hseq.trans ?_
      show (Function.update s.st l _ l).quote.seq = _
      rw [Function.update_self]
    have hseq₂ : x'.seq = t.sim.placements := by
      refine hseq'.trans ?_
      show (Function.update t.st l _ l).quote.seq = _
      rw [Function.update_self]
    obtain rfl := hnew hs hx hseq₁
    obtain rfl := hnew ht hx' hseq₂
    exact h.entry he he'

/-- The windows of the symbol are written, its quote is not. -/
theorem NextTo.setSt (h : NextTo A l s t) {x y : SymState} (hxy : y.sansQuote = x.sansQuote)
    (hx : x.quote = (s.st l).quote) (hy : y.quote = (t.st l).quote) : NextTo A l (s.setSt l x) (t.setSt l y) := by
  have hst {s : Strategy} {x : SymState} : (s.setSt l x).st l = x := by rw [Strategy.setSt_st, if_pos rfl]
  refine ⟨h.book, h.book', h.selected, h.selected', h.window, ?_, ?_, ?_⟩
  · rw [hst, hst]
    exact hxy
  · rw [hst, hst, hx, hy]
    exact h.quote
  · rw [hst, hst, hx, hy]
    exact h.order

theorem Quoting.sound_settle (h : Quoting cfg s) (w : Closing) :
    Sound ((s.note (.closed l w)).settle l w.mid).sim := by
  cases hopen : (s.st l).quote.isOpen with
  | false =>
    have hnoted : ((s.note (.closed l w)).st l).quote.isOpen = false := hopen
    rw [Strategy.settle_of_not_open w.mid hnoted]
    exact h.solid.sound
  | true =>
    rw [(h.settles hopen w).sim]
    exact (h.solid.step (.cancelSymbol l)).sound

/-- **A close** of both. -/
theorem NextTo.closeWindow (h : NextTo A l s t) (hs : Quoting cfg s) (ht : Quoting cfg t) (ts : UInt64)
    (hvalid : (s.readInside l).valid = true) :
    NextTo A l (s.closeWindow l (s.readInside l) ts) (t.closeWindow l (s.readInside l) ts) ∧
      SameGain s (s.closeWindow l (s.readInside l) ts) t (t.closeWindow l (s.readInside l) ts) := by
  have hclosing : (t.st l).closing (s.readInside l) ts = (s.st l).closing (s.readInside l) ts := by
    show (t.st l).sansQuote.closing _ ts = (s.st l).sansQuote.closing _ ts
    rw [h.st]
  unfold Strategy.closeWindow
  simp only [hclosing]
  set w := (s.st l).closing (s.readInside l) ts
  obtain ⟨hsettled, hgain⟩ := h.settle hs ht w
  have hbook : ((s.note (.closed l w)).settle l w.mid).sim.book = s.sim.book :=
    (Strategy.sameWindows_settle (s.note (.closed l w)) l w.mid).book
  have hvalid' : (((s.note (.closed l w)).settle l w.mid).readInside l).valid = true := by
    show (Inside.read _ l).valid = true
    rw [hbook]
    exact hvalid
  obtain ⟨hposted, hgain'⟩ := hsettled.post (hs.sound_settle w) (ht.sound_settle w) hvalid' (s.readInside l) w
  refine ⟨hposted.setSt ?_ rfl rfl, hgain.trans hgain'⟩
  exact congrArg (fun x : SymState => ({ x with updates := 0, winHalted := false } : SymState)) hposted.st

/-- **What follows a message of the symbol.** -/
theorem NextTo.after (h : NextTo A l s t) (hs : Quoting cfg s) (ht : Quoting cfg t) (ts : UInt64) :
    NextTo A l (s.after l ts) (t.after l ts) ∧ SameGain s (s.after l ts) t (t.after l ts) := by
  have hprev : (t.st l).prev = (s.st l).prev := by
    show (t.st l).sansQuote.prev = (s.st l).sansQuote.prev
    rw [h.st]
  have hread (now : Inside) : ({ t.st l with prev := now } : SymState).sansQuote =
      ({ s.st l with prev := now } : SymState).sansQuote :=
    congrArg (fun x : SymState => ({ x with prev := now } : SymState)) h.st
  have hobserve (now : Inside) : (SymState.observe { t.st l with prev := now } ts).sansQuote =
      (SymState.observe { s.st l with prev := now } ts).sansQuote :=
    congrArg (SymState.observe · ts) (hread now)
  have hupdates (now : Inside) : (SymState.observe { t.st l with prev := now } ts).updates =
      (SymState.observe { s.st l with prev := now } ts).updates := by
    show (SymState.observe { t.st l with prev := now } ts).sansQuote.updates =
      (SymState.observe { s.st l with prev := now } ts).sansQuote.updates
    rw [hobserve now]
  rw [Strategy.after_eq h.selected, Strategy.after_eq h.selected']
  simp only [h.readInside, hprev, hupdates, h.window]
  split_ifs with hupdate hfull
  · have hset := h.setSt (hobserve (s.readInside l)) rfl rfl
    have hvalid : (s.readInside l).valid = true := by
      simp only [Bool.and_eq_true] at hupdate
      exact hupdate.1.1
    exact hset.closeWindow (hs.setSt rfl) (ht.setSt rfl) ts hvalid
  · exact ⟨h.setSt (hobserve (s.readInside l)) rfl rfl, .none rfl rfl⟩
  · exact ⟨h.setSt (hread (s.readInside l)) rfl rfl, .none rfl rfl⟩

end
/-! ## A message -/

section

variable {cfg : QueueSimConfig} {A : Book} {l : UInt16} {s t : Strategy} {m : Message}

/-- **A message of another symbol** moves the first strategy only. -/
theorem NextTo.on_elsewhere (h : NextTo A l s t) (hs : Quoting cfg s) (htimer : cfg.timerPlacement = false)
    (hlife : cfg.maxLifeNs = kNoLimit) (hown : Own A m) (hl : m.header.locate ≠ l) :
    NextTo (A.step m) l (s.on m) t := by
  have hdrive := h.drive_elsewhere hs htimer hlife hown hl
  have hsee (ts : UInt64) : NextTo (A.step m) l ((s.drive fun sim => sim.on m).after m.header.locate ts) t :=
    hdrive.elsewhere ((hs.drive htimer m).touches_after m.header.locate ts) hl.symm
  cases m with
  | systemEvent v => exact hdrive
  | stockDirectory v => exact hdrive.elsewhere (touches_setSt _ v.locate _) hl.symm
  | stockTradingAction v => exact h.elsewhere (touches_setSt _ v.locate _) hl.symm
  | operationalHalt v => exact h
  | _ => exact hsee _

/-- **A message of the symbol** moves both alike. -/
theorem NextTo.on (h : NextTo A l s t) (hs : Quoting cfg s) (ht : Quoting cfg t)
    (htimer : cfg.timerPlacement = false) (hlife : cfg.maxLifeNs = kNoLimit) (hown : Own A m)
    (hl : m.header.locate = l) : NextTo (A.step m) l (s.on m) (t.on m) ∧ SameGain s (s.on m) t (t.on m) := by
  have hdrive := h.drive hs ht htimer hlife hown hl
  have hnone : SameGain s (s.drive fun sim => sim.on m) t (t.drive fun sim => sim.on m) :=
    .none (Strategy.drive_tally ..) (Strategy.drive_tally ..)
  have hsee (ts : UInt64) :
      NextTo (A.step m) l ((s.drive fun sim => sim.on m).after l ts) ((t.drive fun sim => sim.on m).after l ts) ∧
        SameGain s ((s.drive fun sim => sim.on m).after l ts) t ((t.drive fun sim => sim.on m).after l ts) :=
    have hafter := hdrive.after (hs.drive htimer m) (ht.drive htimer m) ts
    ⟨hafter.1, hnone.trans hafter.2⟩
  subst hl
  cases m with
  | systemEvent v => exact ⟨hdrive, hnone⟩
  | stockDirectory v =>
    refine ⟨hdrive.setSt ?_ rfl rfl, hnone⟩
    exact congrArg (fun x : SymState => ({ x with tape := tapeOf v.marketCategory } : SymState)) hdrive.st
  | stockTradingAction v =>
    refine ⟨h.setSt ?_ rfl rfl, .none rfl rfl⟩
    exact congrArg (fun x : SymState => x.act v.tradingState) h.st
  | operationalHalt v => exact ⟨h, .none rfl rfl⟩
  | _ => exact hsee _

/-- A message of a symbol that is not selected leaves the account alone. -/
theorem on_tally_of_not_mem (h : m.header.locate ∉ s.selected) : (s.on m).tally = s.tally := by
  have hsee (ts : UInt64) : ((s.drive fun sim => sim.on m).after m.header.locate ts).tally = s.tally := by
    have hid : (s.drive fun sim => sim.on m).after m.header.locate ts = s.drive fun sim => sim.on m :=
      if_pos (by rw [Strategy.drive_eq]; exact h)
    rw [hid, Strategy.drive_tally]
  cases m with
  | systemEvent v => exact Strategy.drive_tally ..
  | stockDirectory v => exact Strategy.drive_tally s fun sim => sim.on (.stockDirectory v)
  | stockTradingAction v => rfl
  | operationalHalt v => rfl
  | _ => exact hsee _

theorem Quoting.on_selected (h : Quoting cfg s) (htimer : cfg.timerPlacement = false) (m : Message) :
    (s.on m).selected = s.selected := by
  have hdrive : (s.drive fun sim => sim.on m).selected = s.selected := by rw [Strategy.drive_eq]
  have hsee (ts : UInt64) : ((s.drive fun sim => sim.on m).after m.header.locate ts).selected = s.selected :=
    ((h.drive htimer m).touches_after m.header.locate ts).selected.trans hdrive
  cases m with
  | systemEvent v => exact hdrive
  | stockDirectory v => exact hdrive
  | stockTradingAction v => rfl
  | operationalHalt v => rfl
  | _ => exact hsee _

end

/-! ## A run -/

/-- The messages of a symbol. -/
def messagesOf (l : UInt16) (ms : List Message) : List Message := ms.filter fun m => m.header.locate = l

theorem messagesOf_cons (l : UInt16) (m : Message) (ms : List Message) :
    messagesOf l (m :: ms) = if m.header.locate = l then m :: messagesOf l ms else messagesOf l ms := by
  unfold messagesOf
  rw [List.filter_cons]
  simp only [decide_eq_true_eq]

theorem NextTo.init (P P' : Platform) (cfg : QueueSimConfig) {selected : Finset UInt16} (window : UInt32) {l : UInt16}
    (hl : l ∈ selected) :
    NextTo Book.empty l (Strategy.init P cfg selected window) (Strategy.init P' cfg {l} window) where
  book := ReferenceBook.represents_empty
  book' := ReferenceBook.represents_empty
  selected := hl
  selected' := Finset.mem_singleton_self l
  window := rfl
  st := rfl
  quote := rfl
  order := fun _ _ ho => by cases ho

/-- **Sums of runs.** -/
theorem tally_run {cfg : QueueSimConfig} (htimer : cfg.timerPlacement = false) (hlife : cfg.maxLifeNs = kNoLimit) :
    ∀ (ms : List Message) {A : Book} {s : Strategy} {t : UInt16 → Strategy}, Quoting cfg s →
      (∀ l ∈ s.selected, NextTo A l s (t l) ∧ Quoting cfg (t l)) → s.tally = ∑ l ∈ s.selected, (t l).tally →
      Runs.Along Book.step Own A ms →
      (Runs.run Strategy.on s ms).tally = ∑ l ∈ s.selected, (Runs.run Strategy.on (t l) (messagesOf l ms)).tally
  | [], _, _, _, _, _, hsum, _ => hsum
  | m :: ms, A, s, t, hs, hall, hsum, hown => by
    obtain ⟨hm, hms⟩ := Runs.along_cons.mp hown
    set t' : UInt16 → Strategy := fun l => if m.header.locate = l then (t l).on m else t l with ht'
    have hselected := hs.on_selected htimer m
    have hall' : ∀ l ∈ (s.on m).selected, NextTo (A.step m) l (s.on m) (t' l) ∧ Quoting cfg (t' l) := fun l hl => by
      obtain ⟨hbeside, hquoting⟩ := hall l (hselected ▸ hl)
      rw [ht']
      dsimp only
      split_ifs with hloc
      · exact ⟨(hbeside.on hs hquoting htimer hlife hm hloc).1, hquoting.on htimer m⟩
      · exact ⟨hbeside.on_elsewhere hs htimer hlife hm hloc, hquoting⟩
    have hsum' : (s.on m).tally = ∑ l ∈ (s.on m).selected, (t' l).tally := by
      rw [hselected]
      by_cases hmem : m.header.locate ∈ s.selected
      · obtain ⟨hbeside, hquoting⟩ := hall _ hmem
        obtain ⟨δ, hgain, hgain'⟩ := (hbeside.on hs hquoting htimer hlife hm rfl).2
        rw [hgain, hsum, ← Finset.add_sum_erase _ _ hmem, ← Finset.add_sum_erase _ (fun l => (t' l).tally) hmem]
        have hself : (t' m.header.locate).tally = (t m.header.locate).tally + δ := by
          rw [ht']
          dsimp only
          rw [if_pos rfl, hgain']
        have hrest : ∀ l ∈ s.selected.erase m.header.locate, (t' l).tally = (t l).tally := fun l hl => by
          rw [ht']
          dsimp only
          rw [if_neg (Finset.ne_of_mem_erase hl).symm]
        rw [hself, Finset.sum_congr rfl hrest, add_right_comm]
      · rw [on_tally_of_not_mem hmem, hsum]
        refine Finset.sum_congr rfl fun l hl => ?_
        rw [ht']
        dsimp only
        rw [if_neg fun hc : m.header.locate = l => hmem (hc ▸ hl)]
    rw [Runs.run_cons, tally_run htimer hlife ms (hs.on htimer m) hall' hsum' hms, hselected]
    refine Finset.sum_congr rfl fun l _ => ?_
    rw [messagesOf_cons, ht']
    dsimp only
    split_ifs
    · rw [Runs.run_cons]
    · rfl

/-- **The account of a session is the sum of the accounts of its symbols**, in exact arithmetic: each is traded alone on
the messages with its locate and whatever the generators draw, when no message names an order of another symbol. -/
theorem additive (P P' : Platform) (eligible : List UInt16) (rule4 : Bool) (selected : Finset UInt16)
    (window : UInt32) (ms : List Message) (hown : Runs.Along Book.step Own Book.empty ms) :
    (Runs.run Strategy.on (Strategy.init P (Strategy.config eligible rule4) selected window) ms).tally =
      ∑ l ∈ selected,
        (Runs.run Strategy.on (Strategy.init P' (Strategy.config eligible rule4) {l} window) (messagesOf l ms)).tally :=
  tally_run rfl rfl ms (Quoting.init P _ selected window)
    (fun l hl => ⟨NextTo.init P P' _ window hl, Quoting.init P' _ {l} window⟩)
    (Finset.sum_eq_zero fun _ _ => rfl).symm hown

theorem additive_beside :
    (Runs.run Strategy.on (Strategy.init silent (Strategy.config [1, 2] true) {1, 2} 1) beside).tally =
      ∑ l ∈ ({1, 2} : Finset UInt16),
        (Runs.run Strategy.on (Strategy.init silent (Strategy.config [1, 2] true) {l} 1) (messagesOf l beside)).tally :=
  additive silent silent [1, 2] true {1, 2} 1 beside
    ⟨by decide +kernel, by decide +kernel, by decide +kernel, by decide +kernel, by decide +kernel, trivial⟩

end Carteret
