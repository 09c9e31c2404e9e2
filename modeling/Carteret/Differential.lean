import Carteret.FastCapacity

/-!
# Differential

The harness drives the reference book and a book under test with the same messages. After each message it
compares the level that the message touched and the inside of its symbol; at intervals, and at the end of a
session, it compares everything. The first difference is recorded and nothing is compared after it.

1. `ComparedBook`: what the harness asks of the book under test.
2. `Decides`: a comparison succeeds exactly when something holds, and changes neither book.
3. The comparisons, and `on`.
4. What each comparison finds.
-/

namespace Carteret

/-- A symbol, whether the side is the buying one, and a price. -/
abbrev LevelKey := UInt16 × Bool × Price

def sideCode (buy : Bool) : UInt8 := if buy then kBuy else kSell

@[simp] theorem sideCode_beq (buy : Bool) : (sideCode buy == kBuy) = buy := by
  cases buy <;> rfl

/-- What the harness asks of the book under test. It has two sides, as the reference book has. -/
class ComparedBook (β : Type) where
  on : β → Message → β
  level : β → UInt16 → UInt8 → Price → LevelSnapshot
  hasBid : β → UInt16 → Bool
  hasAsk : β → UInt16 → Bool
  bestBid : β → UInt16 → Price
  bestAsk : β → UInt16 → Price
  liveOrders : β → ℕ
  checkInvariants : β → ℕ
  level_side : ∀ f locate side price, level f locate side price = level f locate (sideCode (side == kBuy)) price

/-- The fast book. A handler or query of it that does not return has no value in the source; here it is the
default one. -/
instance fastComparedBook (P : HashPolicy) (W : Window) : ComparedBook (FastBook P W) where
  on b m := (b.on m).getD b
  level b locate side price := (b.level locate side price).getD {}
  hasBid := FastBook.hasBid
  hasAsk := FastBook.hasAsk
  bestBid := FastBook.bestBid
  bestAsk := FastBook.bestAsk
  liveOrders := FastBook.liveOrders
  checkInvariants b := b.checkInvariants.getD 0
  level_side b locate side price := by
    have hside : b.side locate side = b.side locate (sideCode (side == kBuy)) := by
      unfold FastBook.side FastSymbol.side sideCode
      by_cases h : side = kBuy
      · rw [h]; rfl
      · rw [if_neg h, beq_eq_false_iff_ne.mpr h]; rfl
    unfold FastBook.level
    rw [hside]

structure Divergence where
  found : Bool := false
  messageIndex : ℕ := 0
  messageType : UInt8 := 0
  locate : UInt16 := 0
  side : UInt8 := 0
  price : Price := 0
  what : String := ""
  reference : String := ""
  fast : String := ""
  deriving DecidableEq

structure DifferentialStats where
  messages : ℕ := 0
  levelComparisons : ℕ := 0
  bboComparisons : ℕ := 0
  fullComparisons : ℕ := 0
  invariantChecks : ℕ := 0
  invariantViolations : ℕ := 0
  deriving DecidableEq

/-- The intervals are those of a release build. -/
structure Differential (β : Type) where
  ref : ReferenceBook
  fast : β
  div : Divergence := {}
  stats : DifferentialStats := {}
  fullEvery : ℕ := 2 ^ 20
  invariantEvery : ℕ := 2 ^ 24

namespace Differential

variable {β : Type}

/-! ## Recording -/

def tally (d : Differential β) (f : DifferentialStats → DifferentialStats) : Differential β :=
  { d with stats := f d.stats }

def record (d : Differential β) (type : UInt8) (locate : UInt16) (side : UInt8) (price : Price)
    (what reference fast : String) : Differential β :=
  { d with div :=
    { found := true, messageIndex := d.stats.messages, messageType := type, locate := locate, side := side,
      price := price, what := what, reference := reference, fast := fast } }

def yesNo (b : Bool) : String := if b then "yes" else "no"

/-- At most sixteen references are written out. -/
def join (v : List Ref) : String :=
  if v = [] then "(empty)"
  else
    ",".intercalate ((v.take 16).map toString) ++
      if v.length > 16 then ",... (" ++ toString v.length ++ " total)" else ""

/-! ## Comparisons in a row -/

variable {d d' : Differential β} {P Q : Prop} {r : Bool × Differential β}

/-- Nothing but the divergence and the statistics of the comparisons has changed. -/
structure Same (d d' : Differential β) : Prop where
  ref : d'.ref = d.ref
  fast : d'.fast = d.fast
  messages : d'.stats.messages = d.stats.messages
  fullEvery : d'.fullEvery = d.fullEvery
  invariantEvery : d'.invariantEvery = d.invariantEvery

theorem Same.refl (d : Differential β) : Same d d := ⟨rfl, rfl, rfl, rfl, rfl⟩

theorem Same.trans {d'' : Differential β} (h : Same d d') (h' : Same d' d'') : Same d d'' :=
  ⟨h'.ref.trans h.ref, h'.fast.trans h.fast, h'.messages.trans h.messages, h'.fullEvery.trans h.fullEvery,
    h'.invariantEvery.trans h.invariantEvery⟩

/-- The comparison succeeds exactly when `P`, and otherwise records a divergence. -/
structure Decides (d : Differential β) (P : Prop) (r : Bool × Differential β) : Prop where
  result : r.1 = true ↔ P
  found : r.2.div.found = !r.1
  same : Same d r.2

/-- A comparison that succeeds. -/
theorem Decides.pass (hP : P) (hfound : d'.div.found = false) (h : Same d d') : Decides d P (true, d') :=
  ⟨iff_of_true rfl hP, hfound, h⟩

/-- A comparison that fails. -/
theorem Decides.fail (hP : ¬ P) (h : Same d d') {type : UInt8} {locate : UInt16} {side : UInt8} {price : Price}
    {what reference fast : String} :
    Decides d P (false, d'.record type locate side price what reference fast) :=
  ⟨iff_of_false Bool.false_ne_true hP, rfl, h.trans ⟨rfl, rfl, rfl, rfl, rfl⟩⟩

theorem Decides.congr (h : Decides d P r) (hPQ : P ↔ Q) : Decides d Q r :=
  ⟨h.result.trans hPQ, h.found, h.same⟩

theorem Decides.of_same (hd : Same d d') (h : Decides d' P r) : Decides d P r :=
  ⟨h.result, h.found, hd.trans h.same⟩

/-- A comparison, and another when it succeeds. -/
theorem Decides.both {next : Differential β → Bool × Differential β} (h : Decides d P r)
    (hnext : ∀ d', Same d d' → d'.div.found = false → Decides d' Q (next d')) :
    Decides d (P ∧ Q) (if r.1 then next r.2 else r) := by
  by_cases hr : r.1 = true
  · have hQ := hnext r.2 h.same (by rw [h.found, hr]; rfl)
    rw [if_pos hr]
    exact ⟨hQ.result.trans (and_iff_right (h.result.mp hr)).symm, hQ.found, h.same.trans hQ.same⟩
  · rw [if_neg hr]
    exact ⟨iff_of_false hr fun hc => hr (h.result.mpr hc.1), h.found, h.same⟩

/-- A loop that returns at the first comparison that fails. -/
def each {α : Type} (compare : α → Differential β → Bool × Differential β) :
    List α → Differential β → Bool × Differential β
  | [], d => (true, d)
  | x :: xs, d =>
    let r := compare x d
    if r.1 then each compare xs r.2 else r

theorem decides_each {α : Type} {compare : α → Differential β → Bool × Differential β} {P : α → Prop} :
    ∀ (xs : List α) (d : Differential β), d.div.found = false →
      (∀ x ∈ xs, ∀ d', Same d d' → d'.div.found = false → Decides d' (P x) (compare x d')) →
        Decides d (∀ x ∈ xs, P x) (each compare xs d)
  | [], d, hd, _ => .pass (fun _ hx => by cases hx) hd (Same.refl d)
  | x :: xs, d, hd, h => by
    have hx := h x List.mem_cons_self d (Same.refl d) hd
    refine (hx.both fun d' hsame hd' => decides_each xs d' hd' fun y hy d'' hsame' hd'' => ?_).congr
      List.forall_mem_cons.symm
    exact h y (List.mem_cons_of_mem x hy) d'' (hsame.trans hsame') hd''

/-! ## Comparing -/

variable [ComparedBook β]

open ComparedBook (level hasBid hasAsk bestBid bestAsk)

def compareLevelNow (d : Differential β) (type : UInt8) (locate : UInt16) (side : UInt8) (price : Price) :
    Bool × Differential β :=
  if d.div.found then (false, d)
  else
    let d := d.tally fun s => { s with levelComparisons := s.levelComparisons + 1 }
    let r := d.ref.level locate side price
    let f := level d.fast locate side price
    if r.present ≠ f.present then
      (false, d.record type locate side price "level present" (yesNo r.present) (yesNo f.present))
    else if !r.present then (true, d)
    else if r.shares ≠ f.shares then
      (false, d.record type locate side price "level shares" (toString r.shares) (toString f.shares))
    else if r.orders ≠ f.orders then
      (false, d.record type locate side price "level order count" (toString r.orders) (toString f.orders))
    else if r.fifo ≠ f.fifo then
      (false, d.record type locate side price "level FIFO order" (join r.fifo) (join f.fifo))
    else (true, d)

def compareBboNow (d : Differential β) (type : UInt8) (locate : UInt16) : Bool × Differential β :=
  if d.div.found then (false, d)
  else
    let d := d.tally fun s => { s with bboComparisons := s.bboComparisons + 1 }
    let sym := d.ref.symbol locate
    let rb := sym.any RefSymbol.hasBid
    let ra := sym.any RefSymbol.hasAsk
    let fb := hasBid d.fast locate
    let fa := hasAsk d.fast locate
    let bid := (sym.bind RefSymbol.bestBid).getD 0
    let ask := (sym.bind RefSymbol.bestAsk).getD 0
    if rb ≠ fb then (false, d.record type locate kBuy 0 "has bid" (yesNo rb) (yesNo fb))
    else if ra ≠ fa then (false, d.record type locate kSell 0 "has ask" (yesNo ra) (yesNo fa))
    else if rb ∧ bid ≠ bestBid d.fast locate then
      (false, d.record type locate kBuy bid "best bid" (toString bid) (toString (bestBid d.fast locate)))
    else if ra ∧ ask ≠ bestAsk d.fast locate then
      (false, d.record type locate kSell ask "best ask" (toString ask) (toString (bestAsk d.fast locate)))
    else (true, d)

/-- The levels of one side of a symbol, and then what follows. -/
def compareSide (locate : UInt16) (side : UInt8) (prices : List Price) (d : Differential β) :
    Bool × Differential β := each (fun price d => d.compareLevelNow 0 locate side price) prices d

/-- One pass of the loop over the symbols. -/
def compareSymbol (locate : UInt16) (d : Differential β) : Bool × Differential β :=
  match d.ref.symbol locate with
  | none => (true, d)
  | some sym =>
    let r := compareSide locate kBuy sym.bids.keys d
    if r.1 then
      let r := compareSide locate kSell sym.asks.keys r.2
      if r.1 then r.2.compareBboNow 0 locate else r
    else r

/-- The loop ends before the symbol `0xFFFF`. -/
def compareEverything (d : Differential β) : Bool × Differential β :=
  if d.div.found then (false, d)
  else
    let d := d.tally fun s => { s with fullComparisons := s.fullComparisons + 1 }
    let r := each compareSymbol ((List.range 0xFFFF).map UInt16.ofNat) d
    if r.1 then
      let d := r.2
      if d.ref.liveOrders ≠ ComparedBook.liveOrders d.fast then
        (false, d.record 0 0 0 0 "live order count" (toString d.ref.liveOrders)
          (toString (ComparedBook.liveOrders d.fast)))
      else (true, d)
    else r

def checkInvariantsNow (d : Differential β) : Differential β :=
  if d.div.found then d
  else
    let rb := d.ref.checkInvariants
    let fb := ComparedBook.checkInvariants d.fast
    let d := d.tally fun s => { s with
      invariantChecks := s.invariantChecks + 1
      invariantViolations := s.invariantViolations + (rb + fb) }
    if rb ≠ 0 ∨ fb ≠ 0 then d.record 0 0 0 0 "invariant violations" (toString rb) (toString fb) else d

def periodic (d : Differential β) : Differential β :=
  let d :=
    if d.invariantEvery ≠ 0 ∧ d.stats.messages % d.invariantEvery = 0 then d.checkInvariantsNow else d
  if d.fullEvery = 0 then d
  else if d.stats.messages % d.fullEvery ≠ 0 then d
  else (d.tally fun s => { s with fullComparisons := s.fullComparisons + 1 }).compareEverything.2

/-! ## The handler -/

def apply (d : Differential β) (m : Message) : Differential β :=
  { d with ref := d.ref.on m, fast := ComparedBook.on d.fast m }.tally fun s =>
    { s with messages := s.messages + 1 }

/-- A message that only the reference book hears. -/
def applyReference (d : Differential β) (m : Message) : Differential β :=
  { d with ref := d.ref.on m }.tally fun s => { s with messages := s.messages + 1 }

/-- The side and the price of a live order, by the reference book. -/
def locateOf (d : Differential β) (ref : Ref) : Option (UInt8 × Price) :=
  (d.ref.order ref).map fun o => (o.side, o.price)

def compareLevel (d : Differential β) (type : UInt8) (locate : UInt16) (side : UInt8) (price : Price) :
    Differential β := (d.compareLevelNow type locate side price).2

def compareBbo (d : Differential β) (type : UInt8) (locate : UInt16) : Differential β :=
  (d.compareBboNow type locate).2

def add (d : Differential β) (m : Message) (type : UInt8) (v : AddOrder) : Differential β :=
  if d.div.found then d
  else (((d.apply m).compareLevel type v.locate v.side v.price).compareBbo type v.locate).periodic

def modify (d : Differential β) (m : Message) (type : UInt8) (locate : UInt16) (ref : Ref) :
    Differential β :=
  if d.div.found then d
  else
    let known := d.locateOf ref
    let d := d.apply m
    let d :=
      match known with
      | some (side, price) => d.compareLevel type locate side price
      | none => d
    (d.compareBbo type locate).periodic

def onOrderReplace (d : Differential β) (v : OrderReplace) : Differential β :=
  if d.div.found then d
  else
    let known := d.locateOf v.oldOrderRef
    let side := (known.map Prod.fst).getD 0
    let d := d.apply (.orderReplace v)
    let d :=
      match known with
      | some (_, oldPrice) => d.compareLevel 85 v.locate side oldPrice
      | none => d
    ((d.compareLevel 85 v.locate side v.price).compareBbo 85 v.locate).periodic

def on (d : Differential β) (m : Message) : Differential β :=
  match m with
  | .systemEvent _ => d.apply m
  | .stockDirectory _ => d.applyReference m
  | .stockTradingAction _ => d.applyReference m
  | .operationalHalt _ => d.applyReference m
  | .addOrder v => d.add m 65 v
  | .addOrderMpid v => d.add m 70 v.toAddOrder
  | .orderExecuted v => d.modify m 69 v.locate v.orderRef
  | .orderExecutedPrice v => d.modify m 67 v.locate v.orderRef
  | .orderCancel v => d.modify m 88 v.locate v.orderRef
  | .orderDelete v => d.modify m 68 v.locate v.orderRef
  | .orderReplace v => d.onOrderReplace v
  | .trade v => if d.div.found then d else ((d.apply m).compareBbo 80 v.locate).periodic
  | .crossTrade _ => if d.div.found then d else (d.apply m).periodic
  | .brokenTrade _ => if d.div.found then d else (d.apply m).periodic

/-! ## What a comparison finds -/

/-- The two answers about a level say the same. -/
def LevelAgrees (r f : LevelSnapshot) : Prop :=
  r.present = f.present ∧
    (r.present = true → r.shares = f.shares ∧ r.orders = f.orders ∧ r.fifo = f.fifo)

/-- The two books say the same about the inside of a symbol. -/
def BboAgrees (b : ReferenceBook) (fast : β) (locate : UInt16) : Prop :=
  hasBid fast locate = (b.symbol locate).any RefSymbol.hasBid ∧
    hasAsk fast locate = (b.symbol locate).any RefSymbol.hasAsk ∧
    (hasBid fast locate = true → (b.symbol locate).bind RefSymbol.bestBid = some (bestBid fast locate)) ∧
    (hasAsk fast locate = true → (b.symbol locate).bind RefSymbol.bestAsk = some (bestAsk fast locate))

theorem decides_level (hd : d.div.found = false) (type : UInt8) (locate : UInt16) (side : UInt8)
    (price : Price) :
    Decides d (LevelAgrees (d.ref.level locate side price) (level d.fast locate side price))
      (d.compareLevelNow type locate side price) := by
  unfold compareLevelNow LevelAgrees
  rw [hd, if_neg Bool.false_ne_true]
  have hsame : Same d (d.tally fun s => { s with levelComparisons := s.levelComparisons + 1 }) :=
    ⟨rfl, rfl, rfl, rfl, rfl⟩
  dsimp only [tally]
  generalize d.ref.level locate side price = x
  generalize level d.fast locate side price = y
  split_ifs with hpresent habsent hshares horders hfifo
  · exact .fail (fun hc => hpresent hc.1) hsame
  · refine .pass ⟨not_not.mp hpresent, fun hc => ?_⟩ hd hsame
    rw [hc] at habsent
    cases habsent
  · have hx : x.present = true := by simpa using habsent
    exact .fail (fun hc => hshares (hc.2 hx).1) hsame
  · have hx : x.present = true := by simpa using habsent
    exact .fail (fun hc => horders (hc.2 hx).2.1) hsame
  · have hx : x.present = true := by simpa using habsent
    exact .fail (fun hc => hfifo (hc.2 hx).2.2) hsame
  · exact .pass ⟨not_not.mp hpresent, fun _ => ⟨not_not.mp hshares, not_not.mp horders, not_not.mp hfifo⟩⟩
      hd hsame

/-- A side with orders has a best price. -/
theorem bind_eq_some_iff_getD {σ : Type} {o : Option σ} {has : σ → Bool} {best : σ → Option Price}
    (hbest : ∀ s, has s = (best s).isSome) (h : o.any has = true) (price : Price) :
    o.bind best = some price ↔ (o.bind best).getD 0 = price := by
  cases o with
  | none => cases h
  | some s =>
    have hs : (best s).isSome = true := (hbest s).symm.trans h
    rw [Option.bind_some]
    cases hb : best s with
    | none => rw [hb] at hs; cases hs
    | some p => simp

theorem decides_bbo (hd : d.div.found = false) (type : UInt8) (locate : UInt16) :
    Decides d (BboAgrees d.ref d.fast locate) (d.compareBboNow type locate) := by
  unfold compareBboNow BboAgrees
  rw [hd, if_neg Bool.false_ne_true]
  have hsame : Same d (d.tally fun s => { s with bboComparisons := s.bboComparisons + 1 }) :=
    ⟨rfl, rfl, rfl, rfl, rfl⟩
  dsimp only [tally]
  have hbid := fun h => bind_eq_some_iff_getD (o := d.ref.symbol locate) FastBook.isSome_bestBid h
    (bestBid d.fast locate)
  have hask := fun h => bind_eq_some_iff_getD (o := d.ref.symbol locate) FastBook.isSome_bestAsk h
    (bestAsk d.fast locate)
  split_ifs with h₁ h₂ h₃ h₄
  · exact .fail (fun hc => h₁ hc.1.symm) hsame
  · exact .fail (fun hc => h₂ hc.2.1.symm) hsame
  · refine .fail (fun hc => h₃.2 ((hbid h₃.1).mp (hc.2.2.1 ?_))) hsame
    exact (not_not.mp h₁).symm.trans h₃.1
  · refine .fail (fun hc => h₄.2 ((hask h₄.1).mp (hc.2.2.2 ?_))) hsame
    exact (not_not.mp h₂).symm.trans h₄.1
  · refine .pass ⟨(not_not.mp h₁).symm, (not_not.mp h₂).symm, fun hc => ?_, fun hc => ?_⟩ hd hsame
    · have hany := (not_not.mp h₁).trans hc
      exact (hbid hany).mpr (by_contra fun hne => h₃ ⟨hany, hne⟩)
    · have hany := (not_not.mp h₂).trans hc
      exact (hask hany).mpr (by_contra fun hne => h₄ ⟨hany, hne⟩)

end Differential

end Carteret
