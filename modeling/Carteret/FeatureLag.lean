import Carteret.BookEffects
import Carteret.FeatureFeeds

/-!
# The features under `--lag1`

With `lag1` the features of a window are to be those of one message earlier than its close.

1. What is held of a window, from the state before the closing message and the message (`closes_eq`).
2. Order flow imbalance and queue imbalance do not depend on the closing message (`lagged_eq`). The micro-price
   deviation is read off the inside behind it, and the trade sign has its execution.
3. The inside behind a message, by the message and the orders before it (`LeftInside`).
4. `lag1_iff`: when two closing messages give the same features, by the messages and the state before them.

The arithmetic is exact; where doubles round, features that are the same here may differ in the last place.
-/

namespace Carteret

namespace FeatureExporter

variable {ex : FeatureExporter} {l : UInt16} {msg : Message} {p : Pending}

/-- The message closes a window of the symbol, of which `p` is held. -/
def Closes (ex : FeatureExporter) (l : UInt16) (msg : Message) (p : Pending) : Prop :=
  (ex.on msg).closings = ex.closings ++ [(l, p)]

/-- The signed and the total size that a message executes. -/
def execOf (b : ReferenceBook) : Message → ℚ × ℚ
  | .orderExecuted v => (signedQty b v.orderRef v.executedShares, v.executedShares.toNat)
  | .orderExecutedPrice v => (signedQty b v.orderRef v.executedShares, v.executedShares.toNat)
  | _ => (0, 0)

/-- The inside of the symbol behind the message. -/
def insideAfter (ex : FeatureExporter) (l : UInt16) (msg : Message) : Inside :=
  Inside.read (bookAfter ex.book msg) l

/-- How far the sizes pull the price from the middle. -/
def tilt (i : Inside) : ℚ :=
  if i.qsum > 0 then
    ((i.askQty.toNat : ℚ) * (i.bid.toNat : ℚ) + (i.bidQty.toNat : ℚ) * (i.ask.toNat : ℚ)) / i.qsum -
      ((i.bid.toNat : ℚ) + (i.ask.toNat : ℚ)) / 2
  else 0

/-- Signed over total executed shares. -/
def signOf (signed total : ℚ) : ℚ := if total > 0 then signed / total else 0

/-- That of the open window, when the message is counted. -/
def signWith (ex : FeatureExporter) (l : UInt16) (msg : Message) : ℚ :=
  signOf ((ex.state l).win.signedExec + (execOf ex.book msg).1) ((ex.state l).win.totalExec + (execOf ex.book msg).2)

/-! ## The window that is held -/

theorem on_touches (ex : FeatureExporter) (msg : Message) : (ex.on msg).closings = ex.closings ∨
    ∃ l₀ ts n, ex.on msg = { ex with msgs := n, book := bookAfter ex.book msg }.touch l₀ ts
      (execOf ex.book msg).1 (execOf ex.book msg).2 := by
  cases msg with
  | systemEvent v => exact .inl rfl
  | stockDirectory v => exact .inl rfl
  | operationalHalt v => exact .inl rfl
  | stockTradingAction v => exact .inl rfl
  | _ => exact .inr ⟨_, _, _, rfl⟩

/-- What a touch adds to the closings. -/
theorem touch_closings (ex : FeatureExporter) (l : UInt16) (ts : UInt64) (signedExec totalExec : ℚ) :
    (ex.touch l ts signedExec totalExec).closings = ex.closings ∨ (ex.readInside l).valid = true ∧
      (ex.touch l ts signedExec totalExec).closings = ex.closings ++
        [(l, ((ex.state l).observed (ex.readInside l) ts signedExec totalExec).win.features ex.lag1
          (ex.readInside l) (ex.state l).prev ts ex.msgs)] := by
  by_cases hmem : l ∈ ex.selected
  · rw [touch_eq hmem]
    dsimp only
    split_ifs with hupdate
    · refine .inr ⟨?_, rfl⟩
      unfold SymbolState.updates at hupdate
      rw [Bool.and_eq_true, Bool.and_eq_true] at hupdate
      exact hupdate.1.1
    · exact .inl rfl
    · exact .inl rfl
  · exact .inl (congrArg closings (if_pos hmem))

/-- What is held comes from the state of the symbol and the message. -/
theorem closes_eq (h : ex.Closes l msg p) : (ex.insideAfter l msg).valid = true ∧ ∃ ts n,
    p = ((ex.state l).observed (ex.insideAfter l msg) ts (execOf ex.book msg).1 (execOf ex.book msg).2).win.features
      ex.lag1 (ex.insideAfter l msg) (ex.state l).prev ts n := by
  unfold Closes at h
  rcases on_touches ex msg with hsame | ⟨l₀, ts, n, heq⟩
  · exact absurd (hsame.symm.trans h) (by simp)
  · rw [heq] at h
    rcases touch_closings { ex with msgs := n, book := bookAfter ex.book msg } l₀ ts (execOf ex.book msg).1
      (execOf ex.book msg).2 with hnone | ⟨hvalid, hone⟩
    · exact absurd (hnone.symm.trans h) (by simp)
    · obtain ⟨rfl, rfl⟩ := Prod.mk.inj (List.singleton_inj.mp (List.append_cancel_left (h.symm.trans hone)))
      exact ⟨hvalid, ts, n, rfl⟩

variable {msg' : Message} {p' : Pending}

/-- **Two features are lagged.** -/
theorem lagged_eq (hlag : ex.lag1 = true) (h : ex.Closes l msg p) (h' : ex.Closes l msg' p') :
    p.ofi = p'.ofi ∧ p.queueImbalance = p'.queueImbalance := by
  obtain ⟨-, ts, n, rfl⟩ := closes_eq h
  obtain ⟨-, ts', n', rfl⟩ := closes_eq h'
  rw [hlag]
  refine ⟨?_, rfl⟩
  unfold FeatureWindow.features SymbolState.observed SymbolState.read FeatureWindow.observe
  simp only [if_true, add_sub_cancel_right]

theorem micro_sub_mid (i : Inside) : i.micro - i.mid = tilt i := by
  unfold Inside.micro tilt
  split_ifs
  · rfl
  · exact sub_self _

/-- The other two are not. -/
theorem leaked_eq (h : ex.Closes l msg p) :
    p.microDev = tilt (ex.insideAfter l msg) / 100 ∧ p.tradeSign = ex.signWith l msg := by
  obtain ⟨-, ts, n, rfl⟩ := closes_eq h
  refine ⟨?_, rfl⟩
  rw [← micro_sub_mid]
  rfl

/-! ## The inside behind a message -/

/-- The sizes at the best prices, added on 64 bits. -/
def sizes (i : Inside) : ℤ := (i.bidQty + i.askQty).toNat

/-- The micro-price less the middle, over twice the sizes. -/
def pull (i : Inside) : ℤ :=
  2 * (i.askQty.toNat * i.bid.toNat + i.bidQty.toNat * i.ask.toNat) - (i.bid.toNat + i.ask.toNat) * sizes i

/-- Sizes whose sum has not wrapped pull by their difference, times the spread. -/
theorem pull_eq {i : Inside} (h : i.bidQty.toNat + i.askQty.toNat < 2 ^ 64) :
    pull i = (i.ask.toNat - i.bid.toNat) * (i.bidQty.toNat - i.askQty.toNat) := by
  unfold pull sizes
  rw [UInt64.toNat_add, Nat.mod_eq_of_lt h]
  push_cast
  ring

theorem tilt_eq (i : Inside) : tilt i = if 0 < sizes i then (pull i : ℚ) / (2 * sizes i) else 0 := by
  have hsizes : i.qsum = (sizes i : ℚ) := (Int.cast_natCast _).symm
  unfold tilt
  rw [hsizes]
  by_cases hpos : 0 < sizes i
  · have hne : (sizes i : ℚ) ≠ 0 := by exact_mod_cast hpos.ne'
    rw [if_pos hpos, if_pos (by exact_mod_cast hpos)]
    unfold pull
    push_cast
    field_simp
  · rw [if_neg hpos, if_neg (by exact_mod_cast hpos)]

/-- The two insides are tilted alike, in whole numbers. -/
def Alike (i j : Inside) : Prop :=
  if 0 < sizes i then
    if 0 < sizes j then pull i * sizes j = pull j * sizes i else pull i = 0
  else 0 < sizes j → pull j = 0

theorem tilt_eq_iff (i j : Inside) : tilt i = tilt j ↔ Alike i j := by
  have hzero : ∀ {i : Inside}, 0 < sizes i → ((pull i : ℚ) / (2 * sizes i) = 0 ↔ pull i = 0) := by
    intro i hi
    have hne : (2 * sizes i : ℚ) ≠ 0 := by exact_mod_cast (mul_pos two_pos hi).ne'
    rw [div_eq_zero_iff, or_iff_left hne, Int.cast_eq_zero]
  rw [tilt_eq, tilt_eq]
  unfold Alike
  by_cases hi : 0 < sizes i
  · by_cases hj : 0 < sizes j
    · rw [if_pos hi, if_pos hj, if_pos hi, if_pos hj, div_eq_div_iff (by exact_mod_cast (mul_pos two_pos hi).ne')
        (by exact_mod_cast (mul_pos two_pos hj).ne')]
      rw [← Int.cast_inj (α := ℚ)]
      push_cast
      constructor
      · intro h
        linarith
      · intro h
        linarith
    · rw [if_pos hi, if_neg hj, if_pos hi, if_neg hj]
      exact hzero hi
  · by_cases hj : 0 < sizes j
    · rw [if_neg hi, if_pos hj, if_neg hi, eq_comm, hzero hj]
      exact (true_imp_iff).symm.trans (imp_congr_left (iff_true_intro hj).symm)
    · rw [if_neg hi, if_neg hj, if_neg hi]
      exact iff_of_true rfl fun hc => absurd hc hj

/-- `i` is what the message leaves at the best prices of the symbol, by the orders before it. -/
structure LeftInside (A : Book) (m : Message) (l : UInt16) (i : Inside) : Prop where
  valid : i.valid = true
  bid : A.BestLeft m l true i.bid
  bidQty : i.bidQty = ((A.leaves m l true i.bid).map UInt32.toUInt64).sum
  ask : A.BestLeft m l false i.ask
  askQty : i.askQty = ((A.leaves m l false i.ask).map UInt32.toUInt64).sum

theorem LeftInside.unique {A : Book} {i j : Inside} (hi : LeftInside A msg l i) (hj : LeftInside A msg l j) : i = j := by
  have hbid : i.bid = j.bid := hi.bid.unique hj.bid
  have hask : i.ask = j.ask := hi.ask.unique hj.ask
  have hbidQty : i.bidQty = j.bidQty := by rw [hi.bidQty, hj.bidQty, hbid]
  have haskQty : i.askQty = j.askQty := by rw [hi.askQty, hj.askQty, hask]
  have hvalid : i.valid = j.valid := hi.valid.trans hj.valid.symm
  cases i
  cases j
  simp_all

theorem leftInside_of_shows {A : Book} {i : Inside} (h : i.Shows (A.step msg) l) (hvalid : i.valid = true) :
    LeftInside A msg l i := by
  have hbest : ∀ {buy : Bool} {price : Price}, (A.step msg).IsBest l buy price → A.BestLeft msg l buy price := by
    intro buy price hp
    obtain ⟨hne, hall⟩ := Book.isBest_iff_level.mp hp
    exact ⟨Book.level_step_ne_nil_iff.mp hne, fun q hq => hall q (Book.level_step_ne_nil_iff.mpr hq)⟩
  have hsum : ∀ (buy : Bool) (price : Price), Book.sumShares ((A.step msg).level l buy price) =
      ((A.leaves msg l buy price).map UInt32.toUInt64).sum := by
    intro buy price
    rw [← Book.map_shares_step, List.map_map]
    rfl
  obtain ⟨hbid, hbidQty⟩ := h.bid hvalid
  obtain ⟨hask, haskQty⟩ := h.ask hvalid
  exact ⟨hvalid, hbest hbid, hbidQty.trans (hsum _ _), hbest hask, haskQty.trans (hsum _ _)⟩

/-- The inside behind a message that closes a window. -/
theorem Closes.leftInside {A : Book} (h : ex.Closes l msg p) (hbook : ex.book.Represents A) :
    LeftInside A msg l (ex.insideAfter l msg) :=
  leftInside_of_shows ((QueueSim.represents_bookAfter hbook msg).shows l) (closes_eq h).1

/-- The exporter's book is the book of the messages. -/
theorem represents_run (selected : Finset UInt16) (window : UInt32) (lag1 auditing : Bool) (ms : List Message) :
    (Runs.run on (init selected window lag1 auditing) ms).book.Represents (Runs.run Book.step Book.empty ms) := by
  have hstep : ∀ (ex : FeatureExporter) (A : Book) (m : Message), ex.book.Represents A →
      (ex.on m).book.Represents (A.step m) := by
    intro ex A m h
    rw [book_on]
    exact QueueSim.represents_bookAfter h m
  exact Runs.run_simulation (R := fun (ex : FeatureExporter) A => ex.book.Represents A) hstep ms _ _ ReferenceBook.represents_empty

/-! ## The executed sizes -/

/-- No more is executed in one direction than in all. -/
def Sized (ex : FeatureExporter) : Prop := ∀ l, |(ex.state l).win.signedExec| ≤ (ex.state l).win.totalExec

theorem abs_execOf_le (b : ReferenceBook) (msg : Message) : |(execOf b msg).1| ≤ (execOf b msg).2 := by
  have hone : ∀ (ref : Ref) (qty : Shares), |signedQty b ref qty| ≤ (qty.toNat : ℚ) := by
    intro ref qty
    have hqty : (0 : ℚ) ≤ qty.toNat := Nat.cast_nonneg _
    unfold signedQty
    cases b.order ref with
    | none => rwa [abs_zero]
    | some o =>
      dsimp only
      split_ifs
      · rw [abs_neg, abs_of_nonneg hqty]
      · rw [abs_of_nonneg hqty]
  cases msg with
  | orderExecuted v => exact hone _ _
  | orderExecutedPrice v => exact hone _ _
  | _ => exact abs_zero.le

theorem Sized.setState {s : SymbolState} (h : ex.Sized) (hs : |s.win.signedExec| ≤ s.win.totalExec) :
    (ex.setState l s).Sized := by
  intro l'
  rw [setState_state]
  split_ifs
  · exact hs
  · exact h l'

theorem Sized.touch {ts : UInt64} {signedExec totalExec : ℚ} (h : ex.Sized) (hexec : |signedExec| ≤ totalExec) :
    (ex.touch l ts signedExec totalExec).Sized := by
  have hadd : |(ex.state l).win.signedExec + signedExec| ≤ (ex.state l).win.totalExec + totalExec :=
    (abs_add_le _ _).trans (add_le_add (h l) hexec)
  by_cases hmem : l ∈ ex.selected
  · rw [touch_eq hmem]
    dsimp only
    split_ifs
    · have hjudge : ∀ s now, ({ ex.judge l s now ts with
          closings := ex.closings ++ [(l, s.win.features ex.lag1 now (ex.state l).prev ts ex.msgs)] } :
            FeatureExporter).Sized := by
        intro s now l'
        have hsame : (ex.judge l s now ts).state l' = ex.state l' := by
          unfold judge
          split_ifs <;> rfl
        exact hsame ▸ h l'
      refine Sized.setState (hjudge _ _) ?_
      exact abs_zero.le
    · exact h.setState hadd
    · exact h.setState hadd
  · have hsame : ex.touch l ts signedExec totalExec = ex := if_pos hmem
    rwa [hsame]

theorem sized_on (ex : FeatureExporter) (msg : Message) (h : ex.Sized) : (ex.on msg).Sized := by
  have hexec := abs_execOf_le ex.book msg
  have hcount : ∀ b, ({ ex with msgs := ex.msgs + 1, book := b } : FeatureExporter).Sized := fun _ => h
  cases msg with
  | systemEvent v => exact h
  | stockDirectory v => exact h
  | operationalHalt v => exact h
  | stockTradingAction v =>
    have hcounted : ex.count.Sized := h
    exact hcounted.setState (h v.locate)
  | _ => exact Sized.touch (hcount _) hexec

/-- The executions of two messages, signed and in all, give a window the same sign that has executed `signed` of `total`. -/
structure SameSign (signed total : ℚ) (e e' : ℚ × ℚ) : Prop where
  cross : (signed + e.1) * (total + e'.2) = (signed + e'.1) * (total + e.2)
  first : total = 0 → (e.1 = 0 ↔ e'.1 = 0)

theorem signOf_add_eq_iff {signed total : ℚ} {e e' : ℚ × ℚ} (h : |signed| ≤ total) (he : |e.1| ≤ e.2)
    (he' : |e'.1| ≤ e'.2) :
    signOf (signed + e.1) (total + e.2) = signOf (signed + e'.1) (total + e'.2) ↔ SameSign signed total e e' := by
  have htotal : 0 ≤ total := (abs_nonneg _).trans h
  have hq : 0 ≤ e.2 := (abs_nonneg _).trans he
  have hq' : 0 ≤ e'.2 := (abs_nonneg _).trans he'
  have hzero : ∀ {x y : ℚ}, |x| ≤ y → y = 0 → x = 0 := fun hle hy => abs_nonpos_iff.mp (hle.trans_eq hy)
  have hboth : 0 < total + e.2 → 0 < total + e'.2 →
      (signOf (signed + e.1) (total + e.2) = signOf (signed + e'.1) (total + e'.2) ↔
        (signed + e.1) * (total + e'.2) = (signed + e'.1) * (total + e.2)) := by
    intro hpos hpos'
    unfold signOf
    rw [if_pos hpos, if_pos hpos', div_eq_div_iff hpos.ne' hpos'.ne']
  have hsplit : SameSign signed total e e' ↔ (signed + e.1) * (total + e'.2) = (signed + e'.1) * (total + e.2) ∧
      (total = 0 → (e.1 = 0 ↔ e'.1 = 0)) := ⟨fun hc => ⟨hc.cross, hc.first⟩, fun hc => ⟨hc.1, hc.2⟩⟩
  rw [hsplit]
  rcases htotal.lt_or_eq with hpos | hnone
  · rw [hboth (by linarith) (by linarith)]
    exact (and_iff_left fun hc => absurd hc hpos.ne').symm
  · -- nothing had been executed: a message without an execution leaves the window without a sign
    have hsigned := hzero h hnone.symm
    rw [← hnone, hsigned] at hboth ⊢
    simp only [zero_add, true_imp_iff] at hboth ⊢
    rcases hq.lt_or_eq with hpos | hq0
    · rcases hq'.lt_or_eq with hpos' | hq0'
      · rw [hboth hpos hpos']
        refine (and_iff_left_of_imp fun hcross => ?_).symm
        constructor
        · intro hx
          rw [hx, zero_mul, eq_comm, mul_eq_zero] at hcross
          exact hcross.resolve_right hpos.ne'
        · intro hx
          rw [hx, zero_mul, mul_eq_zero] at hcross
          exact hcross.resolve_right hpos'.ne'
      · have hx' := hzero he' hq0'.symm
        unfold signOf
        rw [if_pos hpos, ← hq0', if_neg (lt_irrefl _), hx', mul_zero, zero_mul, div_eq_zero_iff, or_iff_left hpos.ne']
        simp
    · have hx := hzero he hq0.symm
      rcases hq'.lt_or_eq with hpos' | hq0'
      · unfold signOf
        rw [← hq0, if_neg (lt_irrefl _), if_pos hpos', hx, zero_mul, mul_zero, eq_comm, div_eq_zero_iff,
          or_iff_left hpos'.ne']
        simp
      · have hx' := hzero he' hq0'.symm
        unfold signOf
        rw [← hq0, ← hq0', hx, hx']
        simp

/-! ## Two messages -/

/-- Behind the orders `A`, the two messages leave insides that are tilted alike, and with their executions the open window has
the same sign. -/
structure SameLeak (ex : FeatureExporter) (A : Book) (l : UInt16) (msg msg' : Message) : Prop where
  inside : ∃ i i', LeftInside A msg l i ∧ LeftInside A msg' l i' ∧ Alike i i'
  executed : SameSign (ex.state l).win.signedExec (ex.state l).win.totalExec (execOf ex.book msg) (execOf ex.book msg')

theorem features_eq_iff {A : Book} (hlag : ex.lag1 = true) (hsized : ex.Sized) (hbook : ex.book.Represents A)
    (h : ex.Closes l msg p) (h' : ex.Closes l msg' p') :
    (p.ofi = p'.ofi ∧ p.queueImbalance = p'.queueImbalance ∧ p.microDev = p'.microDev ∧ p.tradeSign = p'.tradeSign) ↔
      ex.SameLeak A l msg msg' := by
  obtain ⟨hofi, hqi⟩ := lagged_eq hlag h h'
  obtain ⟨hmicro, hsign⟩ := leaked_eq h
  obtain ⟨hmicro', hsign'⟩ := leaked_eq h'
  have hinside := h.leftInside hbook
  have hinside' := h'.leftInside hbook
  have htilt : p.microDev = p'.microDev ↔ Alike (ex.insideAfter l msg) (ex.insideAfter l msg') := by
    rw [hmicro, hmicro', div_left_inj' (by norm_num : (100 : ℚ) ≠ 0), tilt_eq_iff]
  have hexecuted : p.tradeSign = p'.tradeSign ↔ SameSign (ex.state l).win.signedExec (ex.state l).win.totalExec
      (execOf ex.book msg) (execOf ex.book msg') := by
    rw [hsign, hsign']
    exact signOf_add_eq_iff (hsized l) (abs_execOf_le _ _) (abs_execOf_le _ _)
  rw [htilt, hexecuted]
  constructor
  · exact fun hall => ⟨⟨_, _, hinside, hinside', hall.2.2.1⟩, hall.2.2.2⟩
  · rintro ⟨⟨i, i', hi, hi', halike⟩, hsame⟩
    obtain rfl := hi.unique hinside
    obtain rfl := hi'.unique hinside'
    exact ⟨hofi, hqi, halike, hsame⟩

/-- **When the lag hides the closing message.** After any messages, two that close a window of the symbol give it the
same features exactly when, by the orders before them, they leave insides that are tilted alike, and their executions give
the open window the same sign. -/
theorem lag1_iff (selected : Finset UInt16) (window : UInt32) (auditing : Bool) (ms : List Message)
    (h : (Runs.run on (init selected window true auditing) ms).Closes l msg p)
    (h' : (Runs.run on (init selected window true auditing) ms).Closes l msg' p') :
    (p.ofi = p'.ofi ∧ p.queueImbalance = p'.queueImbalance ∧ p.microDev = p'.microDev ∧ p.tradeSign = p'.tradeSign) ↔
      (Runs.run on (init selected window true auditing) ms).SameLeak (Runs.run Book.step Book.empty ms) l msg msg' := by
  have hsetting := sameSetting_run ms (init selected window true auditing)
  have hsized : (Runs.run on (init selected window true auditing) ms).Sized :=
    Runs.run_invariant sized_on ms _ fun _ => abs_zero.le
  exact features_eq_iff hsetting.lag1 hsized (represents_run selected window true auditing ms) h h'

/-! ## Two closing messages -/

/-- Two bids of ten and an offer of ten when the market opens. -/
def atOpen : List Message :=
  [addAt 0 1 kBuy 10 1000000, addAt 1 2 kSell 10 1000200, addAt 2 3 kBuy 10 1000000]

/-- A cancel of two shares of an order, and an execution of four. -/
def cancelTwo (ref : Ref) (ns : BitVec 48) : Message :=
  .orderCancel { locate := 1, ts := 34200000000000 + ns, orderRef := ref, cancelledShares := 2 }

def executeFour : Message := .orderExecuted { locate := 1, ts := 34200000000003, orderRef := 1, executedShares := 4 }

/-- A cancel and an execution behind the same messages close a window whose row has another micro-price deviation and
another trade sign, with `lag1`. -/
theorem not_lagged :
    let rows := fun msg => (Runs.run on (init {1} 1 true false) (atOpen ++ [msg, addAt 5 4 kBuy 5 1000000])).out.map
      fun r => (r.ofi, r.queueImbalance, r.microDevTicks, r.tradeSign)
    rows (cancelTwo 1 3) = [(0, 0, 1 / 3, 0), (0, 1 / 3, 2 / 7, 0)] ∧
      rows executeFour = [(0, 0, 1 / 3, 0), (0, 1 / 3, 3 / 13, -1)] := by
  decide +kernel

/-- Cancels of as many shares of two orders at one price cannot be told apart. -/
theorem lag1_iff_cancelTwo : ∃ p p', p.endTs ≠ p'.endTs ∧
    (Runs.run on (init {1} 1 true false) atOpen).Closes 1 (cancelTwo 1 3) p ∧
    (Runs.run on (init {1} 1 true false) atOpen).Closes 1 (cancelTwo 3 4) p' ∧
    p.microDev = p'.microDev ∧ p.tradeSign = p'.tradeSign := by
  let p : UInt64 → Pending := fun ts => ⟨true, 0, 1 / 3, 0, 2 / 7, 1000100, 200, ts, 1, 4⟩
  have h : (Runs.run on (init {1} 1 true false) atOpen).Closes 1 (cancelTwo 1 3) (p 34200000000003) := by
    unfold Closes
    decide +kernel
  have h' : (Runs.run on (init {1} 1 true false) atOpen).Closes 1 (cancelTwo 3 4) (p 34200000000004) := by
    unfold Closes
    decide +kernel
  have hbook := represents_run {1} 1 true false atOpen
  have hinside : (Runs.run on (init {1} 1 true false) atOpen).insideAfter 1 (cancelTwo 1 3) =
      (Runs.run on (init {1} 1 true false) atOpen).insideAfter 1 (cancelTwo 3 4) := by decide +kernel
  have hsame := (lag1_iff {1} 1 false atOpen h h').mpr
    ⟨⟨_, _, h.leftInside hbook, h'.leftInside hbook, (tilt_eq_iff _ _).mp (congrArg tilt hinside)⟩,
      ⟨by decide +kernel, by decide +kernel⟩⟩
  exact ⟨_, _, by decide, h, h', hsame.2.2⟩

end FeatureExporter

end Carteret
