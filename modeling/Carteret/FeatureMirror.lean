import Carteret.Recoding

/-!
# Both sides alike

A session seen in a mirror: who bought sells, and every price `p` becomes `2 ^ 32 - 1 - p`.

1. Signed quantities of an inside change their sign, sizes and the spread stay, the middle is reflected.
2. So it is with a window, with what is held of it and with its row.
3. The file of the mirrored session is the mirrored file, row by row (`mirrored`): no feature prefers a side.
-/

namespace Carteret

open QueueSim (tsOf represents_bookAfter)

/-! ## The mirror -/

/-- A side byte other than `'B'` is the selling side. -/
def otherSide (side : UInt8) : UInt8 := if side = kBuy then kSell else kBuy

theorem otherSide_buy (side : UInt8) : (otherSide side == kBuy) = !(side == kBuy) := by
  unfold otherSide
  split_ifs with h
  · rw [h]
    rfl
  · rw [beq_false_of_ne h]
    rfl

def mirror : Recoding where
  ref := id
  side := otherSide
  price p := ~~~p
  injective := Function.injective_id

/-- The price that faces zero. -/
def kTopPrice : ℚ := 2 ^ 32 - 1

theorem toNat_not_price (p : Price) : ((~~~p).toNat : ℚ) = kTopPrice - (p.toNat : ℚ) := by
  have hlt := p.toNat_lt
  rw [UInt32.toNat_not, show UInt32.size - 1 = 2 ^ 32 - 1 from rfl, Nat.cast_sub (by omega)]
  norm_num [kTopPrice]

theorem not_le_not_price {p q : Price} : ~~~p ≤ ~~~q ↔ q ≤ p := by
  have hp := p.toNat_lt
  have hq := q.toNat_lt
  rw [UInt32.le_iff_toNat_le, UInt32.le_iff_toNat_le, UInt32.toNat_not, UInt32.toNat_not,
    show UInt32.size - 1 = 2 ^ 32 - 1 from rfl]
  omega

theorem not_injective_price : Function.Injective fun p : Price => ~~~p :=
  Function.Involutive.injective fun _ => UInt32.not_not

theorem not_surjective_price : Function.Surjective fun p : Price => ~~~p :=
  Function.Involutive.surjective fun _ => UInt32.not_not

/-! ## The inside -/

namespace Inside

def mirror (i : Inside) : Inside :=
  if i.valid then { valid := true, bid := ~~~i.ask, ask := ~~~i.bid, bidQty := i.askQty, askQty := i.bidQty } else i

/-- The sizes are added without wrapping. -/
def Fine (i : Inside) : Prop := i.qsum = (i.bidQty.toNat : ℚ) + (i.askQty.toNat : ℚ)

variable {i now before : Inside}

theorem mirror_eq (h : i.valid = true) : i.mirror =
    { valid := true, bid := ~~~i.ask, ask := ~~~i.bid, bidQty := i.askQty, askQty := i.bidQty } := if_pos h

@[simp] theorem valid_mirror (i : Inside) : i.mirror.valid = i.valid := by
  unfold mirror
  split_ifs with h
  · exact h.symm
  · rfl

theorem qsum_mirror (i : Inside) : i.mirror.qsum = i.qsum := by
  unfold mirror
  split_ifs
  · exact congrArg (fun n : UInt64 => (n.toNat : ℚ)) (UInt64.add_comm _ _)
  · rfl

theorem depth_mirror (i : Inside) : i.mirror.depth = i.depth := by
  unfold mirror
  split_ifs
  · exact congrArg (· / 2) (add_comm _ _)
  · rfl

section

variable (h : i.valid = true)

include h

theorem mid_mirror : i.mirror.mid = kTopPrice - i.mid := by
  rw [mirror_eq h]
  simp only [mid, toNat_not_price]
  ring

theorem spread_mirror : i.mirror.spread = i.spread := by
  rw [mirror_eq h]
  simp only [spread, toNat_not_price]
  ring

theorem imbalance_mirror : i.mirror.imbalance = -i.imbalance := by
  unfold imbalance
  rw [qsum_mirror, mirror_eq h]
  ring

/-- The micro-price is reflected. -/
theorem micro_mirror (hfine : i.Fine) : i.mirror.micro = kTopPrice - i.micro := by
  unfold micro
  rw [qsum_mirror, mid_mirror h]
  by_cases hpos : i.qsum > 0
  · rw [if_pos hpos, if_pos hpos, mirror_eq h]
    simp only [toNat_not_price]
    rw [eq_sub_iff_add_eq, ← add_div, div_eq_iff (ne_of_gt hpos), hfine]
    ring
  · rw [if_neg hpos, if_neg hpos]

end

theorem same_mirror (hnow : now.valid = true) (hbefore : before.valid = true) :
    now.mirror.same before.mirror = now.same before := by
  rw [mirror_eq hnow, mirror_eq hbefore, Bool.eq_iff_iff]
  simp only [same, Bool.and_eq_true, beq_iff_eq, not_injective_price.eq_iff]
  tauto

/-- What flows in on one side flows in on the other. -/
theorem flow_mirror (hnow : now.valid = true) (hbefore : before.valid = true) :
    now.mirror.flow before.mirror = -now.flow before := by
  rw [mirror_eq hnow, mirror_eq hbefore]
  simp only [flow, ge_iff_le, not_le_not_price]
  ring

end Inside

/-! ## Windows and rows -/

namespace FeatureWindow

def mirror (w : FeatureWindow) : FeatureWindow :=
  { w with ofi := -w.ofi, signedExec := -w.signedExec, lastE := -w.lastE }

end FeatureWindow

namespace Pending

def mirror (p : Pending) : Pending :=
  { p with
    ofi := -p.ofi
    queueImbalance := -p.queueImbalance
    tradeSign := -p.tradeSign
    microDev := -p.microDev
    mid := kTopPrice - p.mid }

/-- What is held is mirrored; a window that is not held has no row. -/
structure Mirrors (p p' : Pending) : Prop where
  held : p'.held = p.held
  eq : p.held = true → p' = p.mirror

end Pending

/-- Signed values change their sign, the middle is reflected, the rest stays. -/
def FeatureRow.mirror (r : FeatureRow) : FeatureRow :=
  { r with
    ofi := -r.ofi
    queueImbalance := -r.queueImbalance
    microDevTicks := -r.microDevTicks
    tradeSign := -r.tradeSign
    mid := kTopPrice / 10000 - r.mid
    labelTicks := -r.labelTicks
    labelHalfspreads := -r.labelHalfspreads }

section

variable {w : FeatureWindow} {now before : Inside} {ts : UInt64}

theorem FeatureWindow.observe_mirror (hnow : now.valid = true) (hbefore : before.valid = true) (halted : Bool) :
    w.mirror.observe now.mirror before.mirror ts halted = (w.observe now before ts halted).mirror := by
  unfold observe mirror
  simp only [Inside.flow_mirror hnow hbefore, Inside.depth_mirror]
  congr 1
  ring

theorem FeatureWindow.usable_mirror (hnow : now.valid = true) :
    w.mirror.usable now.mirror ts = w.usable now ts := by
  unfold usable
  rw [Inside.qsum_mirror, Inside.spread_mirror hnow]
  rfl

theorem neg_ite {c : Prop} [Decidable c] (a : ℚ) : (if c then -a else 0) = -if c then a else 0 := by
  split_ifs
  · rfl
  · exact neg_zero.symm

theorem neg_ite_div {c : Prop} [Decidable c] (a b : ℚ) : (if c then -a / b else 0) = -if c then a / b else 0 := by
  rw [neg_div, neg_ite]

theorem FeatureWindow.features_mirror (hnow : now.valid = true) (hfine : now.Fine) (hbefore : before.valid = true)
    (lag1 : Bool) (msgs : ℕ) :
    w.mirror.features lag1 now.mirror before.mirror ts msgs = (w.features lag1 now before ts msgs).mirror := by
  have hfs : (if lag1 then before.mirror else now.mirror) = (if lag1 then before else now).mirror :=
    (apply_ite Inside.mirror _ _ _).symm
  have hvalid : (if lag1 then before else now).valid = true := by
    split_ifs
    · exact hbefore
    · exact hnow
  have hofi : (if lag1 then -w.ofi - -w.lastE else -w.ofi) = -if lag1 then w.ofi - w.lastE else w.ofi := by
    split_ifs <;> ring
  unfold features Pending.mirror
  simp only [usable_mirror hnow, hfs, Inside.valid_mirror, Inside.qsum_mirror, Inside.imbalance_mirror hvalid,
    Inside.mid_mirror hnow, Inside.spread_mirror hnow, Inside.micro_mirror hnow hfine]
  congr 1
  · show (if _ > 0 then (if lag1 then -w.ofi - -w.lastE else -w.ofi) / _ else 0) = _
    rw [hofi]
    exact neg_ite_div _ _
  · exact neg_ite _
  · exact neg_ite_div _ _
  · ring

theorem Pending.row_mirror (p : Pending) (locate : UInt16) (mid : ℚ) :
    p.mirror.row locate (kTopPrice - mid) = (p.row locate mid).mirror := by
  unfold row mirror FeatureRow.mirror
  simp only [FeatureRow.mk.injEq, true_and]
  refine ⟨?_, ?_, ?_⟩ <;> ring

end

/-! ## The exporter -/

def Feed.mirror : Feed → Feed
  | touch locate ts now signedExec totalExec => touch locate ts now.mirror (-signedExec) totalExec
  | f => f

def Feed.Fine : Feed → Prop
  | touch _ _ now _ _ => now.Fine
  | _ => True

structure SymbolState.Mirrors (s s' : SymbolState) : Prop where
  prev : s'.prev = s.prev.mirror
  win : s'.win = s.win.mirror
  halted : s'.halted = s.halted
  pending : s.pending.Mirrors s'.pending

namespace FeatureExporter

structure Mirrors (ex ex' : FeatureExporter) : Prop where
  auditing : ex'.auditing = ex.auditing
  lag1 : ex'.lag1 = ex.lag1
  msgs : ex'.msgs = ex.msgs
  selected : ex'.selected = ex.selected
  window : ex'.window = ex.window
  state : ∀ l, (ex.state l).Mirrors (ex'.state l)
  out : ex'.out = ex.out.map FeatureRow.mirror
  audit : ex'.audit = ex.audit
  rows : ex'.rows = ex.rows
  droppedHalt : ex'.droppedHalt = ex.droppedHalt
  droppedBounds : ex'.droppedBounds = ex.droppedBounds

variable {ex ex' : FeatureExporter} {l : UInt16} {s s' : SymbolState} {now before : Inside} {ts : UInt64}
  {signedExec totalExec : ℚ}

theorem Mirrors.setState (h : ex.Mirrors ex') (hs : s.Mirrors s') : (ex.setState l s).Mirrors (ex'.setState l s') where
  auditing := h.auditing
  lag1 := h.lag1
  msgs := h.msgs
  selected := h.selected
  window := h.window
  state l' := by
    rw [setState_state, setState_state]
    split_ifs
    · exact hs
    · exact h.state l'
  out := h.out
  audit := h.audit
  rows := h.rows
  droppedHalt := h.droppedHalt
  droppedBounds := h.droppedBounds

theorem mirrors_read (hs : s.Mirrors s') (now : Inside) (signedExec totalExec : ℚ) :
    (s.read now signedExec totalExec).Mirrors (s'.read now.mirror (-signedExec) totalExec) := by
  refine ⟨rfl, ?_, hs.halted, hs.pending⟩
  unfold SymbolState.read
  dsimp only
  rw [hs.win]
  unfold FeatureWindow.mirror
  dsimp only
  congr 1
  ring

theorem mirrors_observed (hs : s.Mirrors s') (hnow : now.valid = true) (hprev : s.prev.valid = true) :
    (s.observed now ts signedExec totalExec).Mirrors (s'.observed now.mirror ts (-signedExec) totalExec) := by
  have hread := mirrors_read hs now signedExec totalExec
  refine ⟨hread.prev, ?_, hread.halted, hread.pending⟩
  show (s'.read now.mirror (-signedExec) totalExec).win.observe now.mirror s'.prev ts s'.halted = _
  rw [hread.win, hs.prev, hs.halted, FeatureWindow.observe_mirror hnow hprev]
  rfl

theorem Mirrors.judge (h : ex.Mirrors ex') (hs : s.Mirrors s') (hnow : now.valid = true) :
    (ex.judge l s now ts).Mirrors (ex'.judge l s' now.mirror ts) := by
  have husable : s'.win.usable now.mirror ts = s.win.usable now ts := by
    rw [hs.win, FeatureWindow.usable_mirror hnow]
  have hbounds : s'.win.inBounds ts = s.win.inBounds ts := by
    rw [hs.win]
    rfl
  unfold FeatureExporter.judge
  rw [hs.pending.held, husable, hbounds]
  by_cases hheld : s.pending.held = true
  swap
  · rw [if_neg hheld, if_neg hheld]
    exact h
  rw [if_pos hheld, if_pos hheld]
  by_cases hus : s.win.usable now ts = true
  · rw [if_pos hus, if_pos hus]
    have hp := hs.pending.eq hheld
    refine { h with out := ?_, audit := ?_, rows := congrArg (· + 1) h.rows }
    · show ex'.out ++ [s'.pending.row l now.mirror.mid] = _
      rw [hp, Inside.mid_mirror hnow, Pending.row_mirror, h.out, List.map_append]
      rfl
    · show (if ex'.auditing then ex'.audit ++ [⟨l, s'.pending.closeMsg, s'.pending.closeMsg + 1, ex'.msgs⟩]
        else ex'.audit) = _
      rw [hp, h.auditing, h.audit, h.msgs]
      rfl
  · rw [if_neg hus, if_neg hus]
    split_ifs
    · exact { h with droppedBounds := congrArg (· + 1) h.droppedBounds }
    · exact { h with droppedHalt := congrArg (· + 1) h.droppedHalt }

theorem Mirrors.closeWindow (h : ex.Mirrors ex') (hs : s.Mirrors s') (hnow : now.valid = true) (hfine : now.Fine)
    (hbefore : before.valid = true) :
    (ex.closeWindow l s now before ts).Mirrors (ex'.closeWindow l s' now.mirror before.mirror ts) := by
  have hj : (ex.judge l s now ts).Mirrors (ex'.judge l s' now.mirror ts) := h.judge hs hnow
  have hfeatures : s'.win.features ex'.lag1 now.mirror before.mirror ts ex'.msgs =
      (s.win.features ex.lag1 now before ts ex.msgs).mirror := by
    rw [hs.win, h.lag1, h.msgs, FeatureWindow.features_mirror hnow hfine hbefore]
  have hclosed : ({ s with pending := s.win.features ex.lag1 now before ts ex.msgs, win := {} } :
      SymbolState).Mirrors
      { s' with pending := s'.win.features ex'.lag1 now.mirror before.mirror ts ex'.msgs, win := {} } := by
    refine ⟨hs.prev, ?_, hs.halted, ?_, fun _ => hfeatures⟩
    · unfold FeatureWindow.mirror
      simp
    · rw [hfeatures]
      rfl
  have hjc : ∀ cs cs', Mirrors { ex.judge l s now ts with closings := cs }
      { ex'.judge l s' now.mirror ts with closings := cs' } := fun _ _ => { hj with }
  exact (hjc _ _).setState hclosed

theorem Mirrors.touchWith (h : ex.Mirrors ex') (hfine : now.Fine) :
    (ex.touchWith now l ts signedExec totalExec).Mirrors
      (ex'.touchWith now.mirror l ts (-signedExec) totalExec) := by
  have hs := h.state l
  have hupdates : (ex'.state l).updates now.mirror = (ex.state l).updates now := by
    unfold SymbolState.updates
    rw [hs.prev, Inside.valid_mirror, Inside.valid_mirror]
    cases hnow : now.valid with
    | false => rfl
    | true =>
      cases hprev : (ex.state l).prev.valid with
      | false => rfl
      | true => rw [Inside.same_mirror hnow hprev]
  unfold FeatureExporter.touchWith
  dsimp only
  rw [h.selected, hupdates, h.window]
  by_cases hmem : l ∉ ex.selected
  · rw [if_pos hmem, if_pos hmem]
    exact h
  rw [if_neg hmem, if_neg hmem]
  by_cases hup : (ex.state l).updates now = true
  swap
  · rw [if_neg hup, if_neg hup]
    exact h.setState (mirrors_read hs now signedExec totalExec)
  rw [if_pos hup, if_pos hup]
  obtain ⟨hnow, hprev⟩ : now.valid = true ∧ (ex.state l).prev.valid = true := by
    unfold SymbolState.updates at hup
    simp only [Bool.and_eq_true] at hup
    exact hup.1
  have hobserved : ((ex.state l).observed now ts signedExec totalExec).Mirrors
      ((ex'.state l).observed now.mirror ts (-signedExec) totalExec) := mirrors_observed hs hnow hprev
  have hcount : ((ex'.state l).observed now.mirror ts (-signedExec) totalExec).win.updates =
      ((ex.state l).observed now ts signedExec totalExec).win.updates := by
    rw [hobserved.win]
    rfl
  rw [hcount]
  split_ifs
  · rw [hs.prev]
    exact h.closeWindow hobserved hnow hfine hprev
  · exact h.setState hobserved

/-- **One feed.** -/
theorem Mirrors.take (h : ex.Mirrors ex') {f : Feed} (hfine : f.Fine) : (ex.take f).Mirrors (ex'.take f.mirror) := by
  have hcount : ex.count.Mirrors ex'.count := { h with msgs := congrArg (· + 1) h.msgs }
  cases f with
  | skip => exact h
  | count => exact hcount
  | action locate halted =>
    have hs := h.state locate
    refine hcount.setState ⟨hs.prev, ?_, rfl, hs.pending⟩
    show { (ex'.state locate).win with halted := true } = _
    rw [hs.win]
    rfl
  | touch locate ts now signedExec totalExec => exact hcount.touchWith hfine

theorem Mirrors.run : ∀ (fs : List Feed) {ex ex' : FeatureExporter}, ex.Mirrors ex' → (∀ f ∈ fs, f.Fine) →
    (Runs.run FeatureExporter.take ex fs).Mirrors (Runs.run FeatureExporter.take ex' (fs.map Feed.mirror))
  | [], _, _, h, _ => h
  | _ :: fs, _, _, h, hfine => Mirrors.run fs (h.take (hfine _ List.mem_cons_self)) fun f hf =>
    hfine f (List.mem_cons_of_mem _ hf)

end FeatureExporter

/-! ## The book -/

section

variable {b b' : ReferenceBook} {A : Book} {l : UInt16}

theorem Book.level_mirror (A : Book) (l : UInt16) (buy : Bool) (p : Price) :
    ((A.recode mirror).level l (!buy) (~~~p)).map Entry.shares = (A.level l buy p).map Entry.shares :=
  A.level_recode mirror otherSide_buy (fun _ _ => Bool.not_inj) not_injective_price l buy p

theorem Book.isBest_mirror (A : Book) (l : UInt16) (buy : Bool) (p : Price) :
    (A.recode mirror).IsBest l (!buy) (~~~p) ↔ A.IsBest l buy p := by
  have hnil : ∀ q, (A.recode mirror).level l (!buy) (~~~q) ≠ [] ↔ A.level l buy q ≠ [] := fun q => by
    rw [ne_eq, ne_eq, ← List.map_eq_nil_iff, level_mirror, List.map_eq_nil_iff]
  rw [isBest_iff_level, isBest_iff_level, hnil]
  refine and_congr_right fun _ => ?_
  refine not_surjective_price.forall.trans (forall_congr' fun q => imp_congr (hnil q) ?_)
  cases buy
  · exact not_le_not_price
  · exact not_le_not_price

theorem Inside.Shows.mirror {i : Inside} (h : Shows A l i) : Shows (A.recode Carteret.mirror) l i.mirror := by
  have hsides : (∃ p, (A.recode Carteret.mirror).IsBest l true p) ∧
      (∃ p, (A.recode Carteret.mirror).IsBest l false p) ↔
        (∃ p, A.IsBest l true p) ∧ ∃ p, A.IsBest l false p := by
    have hex : ∀ buy, (∃ p, (A.recode Carteret.mirror).IsBest l (!buy) p) ↔ ∃ p, A.IsBest l buy p := fun buy => by
      rw [not_surjective_price.exists]
      exact exists_congr fun p => A.isBest_mirror l buy p
    exact (and_congr (hex false) (hex true)).trans and_comm
  cases hv : i.valid with
  | false =>
    rw [Inside.mirror, if_neg (by simp [hv]), h.nothing hv]
    exact shows_nothing fun hc => Bool.noConfusion (hv.symm.trans (h.sides.mpr (hsides.mp hc)))
  | true =>
    obtain ⟨hbid, hbidQty⟩ := h.bid hv
    obtain ⟨hask, haskQty⟩ := h.ask hv
    rw [mirror_eq hv]
    refine ⟨iff_of_true rfl (hsides.mpr (h.sides.mp hv)), fun _ => ⟨(A.isBest_mirror l false _).mpr hask, ?_⟩,
      fun _ => ⟨(A.isBest_mirror l true _).mpr hbid, ?_⟩, fun hc => absurd hc Bool.noConfusion⟩
    · exact haskQty.trans (sumShares_congr (A.level_mirror l false i.ask).symm)
    · exact hbidQty.trans (sumShares_congr (A.level_mirror l true i.bid).symm)

theorem Book.signedQty_mirror (A : Book) (ref : Ref) (qty : Shares) :
    (A.recode mirror).signedQty ref qty = -A.signedQty ref qty := by
  unfold signedQty
  rw [show (A.recode mirror).find ref = (A.find ref).map mirror.entry from A.find_recode mirror ref]
  cases A.find ref with
  | none => exact neg_zero.symm
  | some e =>
    show (if otherSide e.side = kBuy then _ else _) = -if e.side = kBuy then _ else _
    unfold otherSide
    by_cases h : e.side = kBuy
    · rw [if_pos h, if_pos h, if_neg (by decide), neg_neg]
    · rw [if_neg h, if_neg h, if_pos rfl]

theorem feedOf_mirror (h : b.Represents A) (h' : b'.Represents (A.recode mirror)) (m : Message) :
    feedOf b' (mirror.message m) = (feedOf b m).mirror := by
  have hread : ∀ l, Inside.read (bookAfter b' (mirror.message m)) l = (Inside.read (bookAfter b m) l).mirror :=
    fun l => ((h'.recode m).shows l).unique ((represents_bookAfter h m).shows l).mirror
  have hsigned : ∀ ref qty, FeatureExporter.signedQty b' ref qty = -FeatureExporter.signedQty b ref qty :=
    fun ref qty => by rw [h'.signedQty, h.signedQty, A.signedQty_mirror]
  have hzero : ∀ (l : UInt16) (ts : UInt64), Feed.touch l ts (Inside.read (bookAfter b' (mirror.message m)) l) 0 0 =
      (Feed.touch l ts (Inside.read (bookAfter b m) l) 0 0).mirror := fun l ts => by
    rw [hread]
    exact congrArg (fun q => Feed.touch _ _ _ q 0) neg_zero.symm
  cases m with
  | systemEvent v => rfl
  | stockDirectory v => rfl
  | operationalHalt v => rfl
  | stockTradingAction v => rfl
  | orderExecuted v =>
    exact congrArg₂ (fun i q => Feed.touch v.locate (tsOf v.toHeader) i q v.executedShares.toNat) (hread _)
      (hsigned v.orderRef v.executedShares)
  | orderExecutedPrice v =>
    exact congrArg₂ (fun i q => Feed.touch v.locate (tsOf v.toHeader) i q v.executedShares.toNat) (hread _)
      (hsigned v.orderRef v.executedShares)
  | _ => exact hzero _ _

theorem feeds_mirror : ∀ (ms : List Message) {b b' : ReferenceBook} {A : Book}, b.Represents A →
    b'.Represents (A.recode mirror) → feeds b' (ms.map mirror.message) = (feeds b ms).map Feed.mirror
  | [], _, _, _, _, _ => rfl
  | m :: ms, _, _, _, h, h' =>
    congrArg₂ List.cons (feedOf_mirror h h' m) (feeds_mirror ms (represents_bookAfter h m) (h'.recode m))

/-! ## The sizes -/

theorem total_filter_add_le {p q : Entry → Bool} (h : ∀ e, p e = true → q e = false) : ∀ es : List Entry,
    Book.total (es.filter p) + Book.total (es.filter q) ≤ Book.total es
  | [] => le_rfl
  | e :: es => by
    have ih := total_filter_add_le h es
    have hcons : ∀ es, Book.total (e :: es) = e.shares.toNat + Book.total es := fun _ => List.sum_cons
    rw [List.filter_cons, List.filter_cons, hcons]
    cases hp : p e with
    | true =>
      rw [h e hp, if_pos rfl, if_neg Bool.false_ne_true, hcons]
      omega
    | false =>
      rw [if_neg Bool.false_ne_true]
      split_ifs
      · rw [hcons]
        omega
      · omega

theorem toNat_sumShares {es : List Entry} (h : Book.total es < 2 ^ 64) :
    (Book.sumShares es).toNat = Book.total es := by
  rw [← Book.ofNat_total, UInt64.toNat_ofNat_of_lt' h]

/-- The sizes of an inside are those of live orders. -/
theorem Inside.Shows.fine {i : Inside} (h : Shows A l i) (ht : Book.total A.orders < 2 ^ 64) : i.Fine := by
  cases hv : i.valid with
  | false =>
    rw [h.nothing hv]
    unfold Fine qsum
    simp
  | true =>
    have hdisjoint : ∀ e : Entry, e.restsAt l true i.bid = true → e.restsAt l false i.ask = false := fun e he => by
      rw [Bool.eq_false_iff]
      intro hc
      exact Bool.noConfusion ((Entry.restsAt_iff.mp he).2.1.symm.trans (Entry.restsAt_iff.mp hc).2.1)
    have hle : Book.total (A.level l true i.bid) + Book.total (A.level l false i.ask) ≤ Book.total A.orders :=
      total_filter_add_le hdisjoint A.orders
    have hbid := (h.bid hv).2
    have hask := (h.ask hv).2
    unfold Fine qsum
    rw [← Nat.cast_add, UInt64.toNat_add, Nat.mod_eq_of_lt]
    rw [hbid, hask, toNat_sumShares (by omega), toNat_sumShares (by omega)]
    exact lt_of_le_of_lt hle ht

theorem feeds_fine : ∀ (ms : List Message) {b : ReferenceBook} {A : Book}, b.Represents A →
    Runs.Along Book.step (fun A m => Book.total (A.step m).orders < 2 ^ 64) A ms → ∀ f ∈ feeds b ms, f.Fine
  | m :: ms, b, A, h, ht, f, hf => by
    have hafter := represents_bookAfter h m
    rcases List.mem_cons.mp hf with rfl | hrest
    · cases m <;> first | trivial | exact (hafter.shows _).fine ht.1
    · exact feeds_fine ms hafter ht.2 f hrest

end

/-- **No feature prefers a side**, in exact arithmetic. In a session with fewer than `2 ^ 64` live shares at any time,
exchanging the sides and reflecting the prices gives the same windows with the same sizes, and the row of each is the
mirrored row; what is dropped, and the audit stream, are the same, in either mode. -/
theorem mirrored (selected : Finset UInt16) (window : UInt32) (lag1 auditing : Bool) (ms : List Message)
    (hshares : ∀ pre, pre <+: ms → Book.total (Runs.run Book.step Book.empty pre).orders < 2 ^ 64) :
    let ex := Runs.run FeatureExporter.on (FeatureExporter.init selected window lag1 auditing) ms
    let ex' := Runs.run FeatureExporter.on (FeatureExporter.init selected window lag1 auditing) (ms.map mirror.message)
    ex'.out = ex.out.map FeatureRow.mirror ∧ ex'.audit = ex.audit ∧ ex'.rows = ex.rows ∧
      ex'.droppedHalt = ex.droppedHalt ∧ ex'.droppedBounds = ex.droppedBounds := by
  have halong : Runs.Along Book.step (fun A m => Book.total (A.step m).orders < 2 ^ 64) Book.empty ms := by
    have hiff := @Runs.prefixes_iff_along Book Message Book.step
      (fun A m => Book.total (A.step m).orders < 2 ^ 64) (fun A => Book.total A.orders < 2 ^ 64)
      (fun _ _ _ => Iff.rfl) ms Book.empty (by decide)
    exact hiff.mp hshares
  have hinit : FeatureExporter.Mirrors (FeatureExporter.init selected window lag1 auditing).rest
      (FeatureExporter.init selected window lag1 auditing).rest := by
    refine ⟨rfl, rfl, rfl, rfl, rfl, fun l => ⟨rfl, ?_, rfl, rfl, fun hc => absurd hc Bool.false_ne_true⟩, rfl, rfl,
      rfl, rfl, rfl⟩
    show ({} : FeatureWindow) = FeatureWindow.mirror {}
    unfold FeatureWindow.mirror
    simp
  have hrun := hinit.run (feeds {} ms) (feeds_fine ms ReferenceBook.represents_empty halong)
  have hmirror : feeds {} (ms.map mirror.message) = (feeds {} ms).map Feed.mirror :=
    feeds_mirror ms ReferenceBook.represents_empty ReferenceBook.represents_empty
  rw [← hmirror] at hrun
  have hrest : ∀ ms', (Runs.run FeatureExporter.on (FeatureExporter.init selected window lag1 auditing) ms').rest =
      Runs.run FeatureExporter.take (FeatureExporter.init selected window lag1 auditing).rest (feeds {} ms') :=
    fun ms' => FeatureExporter.rest_run ms' _
  rw [← hrest, ← hrest] at hrun
  exact ⟨hrun.out, hrun.audit, hrun.rows, hrun.droppedHalt, hrun.droppedBounds⟩

theorem mirrored_twoUpdates :
    let ex := Runs.run FeatureExporter.on (FeatureExporter.init {1} 1 false true) twoUpdates
    let ex' := Runs.run FeatureExporter.on (FeatureExporter.init {1} 1 false true) (twoUpdates.map mirror.message)
    ex'.out = ex.out.map FeatureRow.mirror ∧ ex'.audit = ex.audit ∧ ex'.rows = ex.rows ∧
      ex'.droppedHalt = ex.droppedHalt ∧ ex'.droppedBounds = ex.droppedBounds :=
  mirrored {1} 1 false true twoUpdates fun pre hpre => by
    have hall : ∀ pre ∈ twoUpdates.inits, Book.total (Runs.run Book.step Book.empty pre).orders < 2 ^ 64 := by decide
    exact hall pre ((List.mem_inits _ _).mpr hpre)

end Carteret
