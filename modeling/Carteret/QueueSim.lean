import Carteret.Lib.Scan
import Carteret.ReferenceBook
import Carteret.Sampling

/-!
# Queue simulator

Synthetic orders that rest in the book without being in it. Five models of the queue count how many shares
are ahead of each; a model fills the order under its own view.

1. The data. Counts are natural numbers, `double` is ℚ, timestamps keep their 64 bits.
2. What an execution, a cancel, a print and the sweep do to one order and to the tallies (`Ledger`).
3. The loops over the orders, the clock and the placements, and the handlers.

Some fields are not in the source and nothing in it reads them: `SyntheticOrder.seq` numbers the placements,
`SyntheticOrder.entryNodes` are the list nodes of the level at entry, `QueueSim.retired` keeps the orders
that the source drops, `PendingValuation.fillNo` numbers the fills and `Ledger.valued` records the valuations
made. `Ledger.fills` records the calls of `on_fill`.
-/

namespace Carteret

/-! ## The data -/

inductive QueueModel
  | exact
  | conservative
  | optimistic
  | proportional
  | bernoulliProportional
  deriving DecidableEq

namespace QueueModel

def all : List QueueModel := [exact, conservative, optimistic, proportional, bernoulliProportional]

theorem mem_all (m : QueueModel) : m ∈ all := by cases m <;> decide

theorem nodup_all : all.Nodup := by decide

instance : Fintype QueueModel := ⟨⟨all, nodup_all⟩, mem_all⟩

/-- The models that see volume only. -/
def approximations : List QueueModel := [conservative, optimistic, proportional, bernoulliProportional]

end QueueModel

inductive FillReason
  | none
  | executionBehind
  | tradeThrough
  | nonDisplayedPrint
  | expired
  | levelGone
  deriving DecidableEq

namespace FillReason

def all : List FillReason := [none, executionBehind, tradeThrough, nonDisplayedPrint, expired, levelGone]

instance : Fintype FillReason := ⟨⟨all, by decide⟩, fun w => by cases w <;> decide⟩

end FillReason

/-- `eligible` is the source's `universe`. -/
structure QueueSimConfig where
  seed : UInt64 := 20190130
  meanInterarrivalNs : UInt64 := 250000000
  orderSize : Shares := 100
  maxLifeNs : UInt64 := 60000000000
  horizonsNs : Fin 3 → UInt64 := ![1000000000, 10000000000, 60000000000]
  rule4NonDisplayedFills : Bool := false
  eligible : List UInt16 := []
  forceSide : UInt8 := 0
  startNs : UInt64 := 34200000000000
  endNs : UInt64 := 57600000000000
  timerPlacement : Bool := true

/-- How many of the leading edges the value has reached. -/
def climb {α : Type} [LE α] [DecidableLE α] : List α → α → ℕ
  | [], _ => 0
  | e :: es, x => if e ≤ x then climb es x + 1 else 0

theorem climb_le {α : Type} [LE α] [DecidableLE α] (x : α) : ∀ es : List α, climb es x ≤ es.length
  | [] => le_rfl
  | e :: es => by
    unfold climb
    split
    · exact Nat.succ_le_succ (climb_le x es)
    · exact Nat.zero_le _

/-- `kDepthBucketEdges` behind the first. -/
def depthBucketEdges : List UInt64 := [100, 500, 2000, 10000, 50000]

def depthBucket (ahead : UInt64) : Fin 6 :=
  ⟨climb depthBucketEdges ahead, Nat.lt_succ_of_le (climb_le ahead depthBucketEdges)⟩

/-- `kAheadGridEdges` behind the first. -/
def aheadGridEdges : List UInt64 :=
  [1, 50, 100, 200, 300, 500, 800, 1200, 2000, 3000, 5000, 8000, 12000, 20000, 35000, 60000, 100000]

def aheadGrid (ahead : UInt64) : Fin 18 :=
  ⟨climb aheadGridEdges ahead, Nat.lt_succ_of_le (climb_le ahead aheadGridEdges)⟩

/-- Two per decade from 1 ms, behind the first. -/
def fillTimeEdges : List ℚ :=
  (List.range 11).map fun k => 1000000 * (31622776601683795 / 10000000000000000) ^ (k + 1)

def fillTimeBucket (ns : UInt64) : Fin 12 :=
  ⟨climb fillTimeEdges (ns.toNat : ℚ), Nat.lt_succ_of_le (climb_le _ fillTimeEdges)⟩

/-- One model's view of one synthetic order. `ahead` is a double, here without rounding: the two are the same as long as it
is a whole number of at most `2 ^ 53`. -/
structure ModelState where
  ahead : ℚ := 0
  live : Bool := true
  filled : Bool := false
  reason : FillReason := .none
  fillTs : UInt64 := 0
  deriving DecidableEq

namespace ModelState

/-- The ahead-count falls, not below zero. -/
def deduct (s : ModelState) (qty : ℚ) : ModelState :=
  { s with ahead := if s.ahead - qty < 0 then 0 else s.ahead - qty }

def fill (s : ModelState) (ts : UInt64) (why : FillReason) : ModelState :=
  { s with live := false, filled := true, reason := why, fillTs := ts }

def expire (s : ModelState) : ModelState := { s with live := false, reason := .expired }

end ModelState

structure SyntheticOrder where
  locate : UInt16
  side : UInt8
  price : Price
  size : Shares
  enteredTs : UInt64
  depthAtEntry : UInt64
  levelOrdersAtEntry : UInt32
  spreadAtEntry : UInt32
  models : QueueModel → ModelState
  aheadRefs : Finset Ref
  anyLive : Bool := true
  seq : ℕ
  entryNodes : List RefNode

namespace SyntheticOrder

def setModel (o : SyntheticOrder) (m : QueueModel) (st : ModelState) : SyntheticOrder :=
  { o with models := Function.update o.models m st }

def refreshLive (o : SyntheticOrder) : SyntheticOrder :=
  if QueueModel.all.any fun m => (o.models m).live then o else { o with anyLive := false }

/-- The reference no longer rests ahead. -/
def eraseAhead (o : SyntheticOrder) (ref : Ref) : SyntheticOrder :=
  { o with aheadRefs := o.aheadRefs.erase ref }

end SyntheticOrder

structure PendingValuation where
  locate : UInt16
  side : UInt8
  fillPrice : Price
  dueTs : UInt64
  model : QueueModel
  horizon : Fin 3
  depthBucket : Fin 6
  spreadAtEntry : UInt32
  fillNo : ℕ

structure SymbolCount where
  placed : ℕ := 0
  filled : ℕ := 0

structure SymbolAhead where
  placed : Fin 18 → ℕ := fun _ => 0
  filled : Fin 18 → ℕ := fun _ => 0

structure ModelResults where
  placed : ℕ := 0
  filled : ℕ := 0
  bySymbol : UInt16 → SymbolCount := fun _ => {}
  reasons : FillReason → ℕ := fun _ => 0
  timeToFill : Fin 12 → ℕ := fun _ => 0
  cancelSharesTotal : Fin 6 → ℚ := fun _ => 0
  cancelSharesActuallyAhead : Fin 6 → ℚ := fun _ => 0
  cancelSharesAssumedAhead : Fin 6 → ℚ := fun _ => 0
  placedByDepth : Fin 6 → ℕ := fun _ => 0
  filledByDepth : Fin 6 → ℕ := fun _ => 0
  valueByDepth : Fin 6 → Fin 3 → ℚ := fun _ _ => 0
  valueHalfspreads : Fin 6 → Fin 3 → ℚ := fun _ _ => 0
  valuedByDepth : Fin 6 → Fin 3 → ℕ := fun _ _ => 0
  placedByAhead : Fin 18 → ℕ := fun _ => 0
  filledByAhead : Fin 18 → ℕ := fun _ => 0
  aheadSum : Fin 18 → ℚ := fun _ => 0
  bySymbolAhead : UInt16 → SymbolAhead := fun _ => {}
  sumTimeToFillNs : UInt64 := 0

/-- A call of `on_fill`. -/
structure FillCall where
  order : SyntheticOrder
  model : QueueModel
  ts : UInt64
  why : FillReason

/-- What the loops over the orders write besides the orders. -/
structure Ledger where
  res : QueueModel → ModelResults := fun _ => {}
  pending : List PendingValuation := []
  bernRng : Sampler
  fills : List FillCall := []
  valued : List (ℕ × Fin 3) := []

/-- `f[k] += x`. -/
def addTo {κ α : Type} [DecidableEq κ] [Add α] (f : κ → α) (k : κ) (x : α) : κ → α :=
  Function.update f k (f k + x)

namespace Ledger

/-- `res_[m]` is written. -/
def setRes (L : Ledger) (m : QueueModel) (f : ModelResults → ModelResults) : Ledger :=
  { L with res := Function.update L.res m (f (L.res m)) }

@[simp] theorem setRes_self (L : Ledger) (m : QueueModel) (f : ModelResults → ModelResults) :
    (L.setRes m f).res m = f (L.res m) := Function.update_self _ _ _

theorem setRes_of_ne (L : Ledger) {m k : QueueModel} (h : k ≠ m) (f : ModelResults → ModelResults) :
    (L.setRes m f).res k = L.res k := Function.update_of_ne h _ _

/-- The valuation of a fill at one horizon, to be made. -/
def valuation (cfg : QueueSimConfig) (o : SyntheticOrder) (m : QueueModel) (ts : UInt64) (fillNo : ℕ)
    (h : Fin 3) : PendingValuation where
  locate := o.locate
  side := o.side
  fillPrice := o.price
  dueTs := ts + cfg.horizonsNs h
  model := m
  horizon := h
  depthBucket := depthBucket o.depthAtEntry
  spreadAtEntry := o.spreadAtEntry
  fillNo := fillNo

/-- The tallies of a fill. -/
def countFill (cfg : QueueSimConfig) (L : Ledger) (o : SyntheticOrder) (m : QueueModel) (ts : UInt64)
    (why : FillReason) : Ledger :=
  let db := depthBucket o.depthAtEntry
  let ag := aheadGrid o.depthAtEntry
  let ttf := ts - o.enteredTs
  let L := L.setRes m fun r => { r with
    filled := r.filled + 1
    bySymbol := Function.update r.bySymbol o.locate
      { r.bySymbol o.locate with filled := (r.bySymbol o.locate).filled + 1 }
    filledByDepth := addTo r.filledByDepth db 1
    filledByAhead := addTo r.filledByAhead ag 1
    bySymbolAhead := Function.update r.bySymbolAhead o.locate
      { r.bySymbolAhead o.locate with filled := addTo (r.bySymbolAhead o.locate).filled ag 1 }
    reasons := addTo r.reasons why 1
    sumTimeToFillNs := r.sumTimeToFillNs + ttf
    timeToFill := addTo r.timeToFill (fillTimeBucket ttf) 1 }
  { L with
    fills := L.fills ++ [⟨o, m, ts, why⟩]
    pending := L.pending ++ (List.finRange 3).map (valuation cfg o m ts L.fills.length) }

/-- The tallies of a placement. -/
def countPlaced (L : Ledger) (o : SyntheticOrder) : Ledger :=
  let db := depthBucket o.depthAtEntry
  let ag := aheadGrid o.depthAtEntry
  { L with
    res := fun m =>
      let r := L.res m
      { r with
        placed := r.placed + 1
        bySymbol := Function.update r.bySymbol o.locate
          { r.bySymbol o.locate with placed := (r.bySymbol o.locate).placed + 1 }
        placedByDepth := addTo r.placedByDepth db 1
        placedByAhead := addTo r.placedByAhead ag 1
        bySymbolAhead := Function.update r.bySymbolAhead o.locate
          { r.bySymbolAhead o.locate with placed := addTo (r.bySymbolAhead o.locate).placed ag 1 }
        aheadSum := addTo r.aheadSum ag (o.depthAtEntry.toNat : ℚ) } }

/-- What the proportional model assumes of a cancel against what happened. -/
def attributeCancel (L : Ledger) (o : SyntheticOrder) (wasAhead : Bool) (qty before : ℚ) : Ledger :=
  let db := depthBucket o.depthAtEntry
  let assumed := (o.models .proportional).ahead / before
  L.setRes .exact fun r => { r with
    cancelSharesTotal := addTo r.cancelSharesTotal db qty
    cancelSharesActuallyAhead :=
      if wasAhead then addTo r.cancelSharesActuallyAhead db qty else r.cancelSharesActuallyAhead
    cancelSharesAssumedAhead :=
      addTo r.cancelSharesAssumedAhead db (qty * if assumed > 1 then 1 else assumed) }

end Ledger

/-! ## One order -/

/-- What a loop does at one order. -/
abbrev Visit := Ledger → SyntheticOrder → Ledger × SyntheticOrder

def fill (cfg : QueueSimConfig) (m : QueueModel) (ts : UInt64) (why : FillReason) : Visit := fun L o =>
  if (o.models m).live then
    let o := o.setModel m ((o.models m).fill ts why)
    (L.countFill cfg o m ts why, o.refreshLive)
  else (L, o)

def fillAllLive (cfg : QueueSimConfig) (ts : UInt64) (why : FillReason) : Visit := fun L o =>
  QueueModel.all.foldl (fun p m => fill cfg m ts why p.1 p.2) (L, o)

def expire : Visit := fun L o =>
  let p := QueueModel.all.foldl (fun (p : Ledger × SyntheticOrder) m =>
    if (p.2.models m).live then
      (p.1.setRes m fun r => { r with reasons := addTo r.reasons .expired 1 },
        p.2.setModel m (p.2.models m).expire)
    else p) (L, o)
  (p.1, { p.2 with anyLive := false })

/-- A real order, as it was before the message. -/
structure Resolved where
  ref : Ref
  locate : UInt16
  side : UInt8
  price : Price
  shares : Shares
  deriving DecidableEq

def resolve (b : ReferenceBook) (ref : Ref) : Option Resolved :=
  (b.order ref).map fun o =>
    { ref := ref, locate := o.locate, side := o.side, price := o.price, shares := o.shares }

/-- An execution at the price of `r` went through the order's level. -/
def throughTrade (r : Resolved) (o : SyntheticOrder) : Bool :=
  if o.side = kBuy then decide (r.price < o.price) else decide (r.price > o.price)

/-- An execution at the order's price, as the exact model sees it. -/
def executeExact (cfg : QueueSimConfig) (r : Resolved) (qty : Shares) (ts : UInt64) : Visit := fun L o =>
  if (o.models .exact).live then
    if r.ref ∈ o.aheadRefs then
      let o := o.setModel .exact ((o.models .exact).deduct qty.toNat)
      (L, if qty ≥ r.shares then o.eraseAhead r.ref else o)
    else fill cfg .exact ts .executionBehind L o
  else (L, o)

/-- An execution at the order's price, as the model `m` sees it. -/
def executeApproximate (cfg : QueueSimConfig) (qty : Shares) (ts : UInt64) (m : QueueModel) : Visit :=
  fun L o =>
    if (o.models m).live then
      if (o.models m).ahead ≤ 0 then fill cfg m ts .executionBehind L o
      else (L, o.setModel m ((o.models m).deduct qty.toNat))
    else (L, o)

/-- The body of the loop of `on_execution`. -/
def executionVisit (cfg : QueueSimConfig) (r : Resolved) (qty : Shares) (ts : UInt64) : Visit := fun L o =>
  if !o.anyLive || o.side != r.side then (L, o)
  else if throughTrade r o then fillAllLive cfg ts .tradeThrough L o
  else if r.price ≠ o.price then (L, o)
  else
    let p := QueueModel.approximations.foldl (fun p m => executeApproximate cfg qty ts m p.1 p.2)
      (executeExact cfg r qty ts L o)
    (p.1, p.2.refreshLive)

/-- The denominator of a cancel: the level's shares in the book, which has applied the message, and the
removed shares. A sum of two doubles, here without rounding. -/
def cancelBefore (b : ReferenceBook) (o : SyntheticOrder) (qty : Shares) : ℚ :=
  (b.depthAt o.locate o.side o.price).shares.toNat + qty.toNat

/-- A cancel at the order's price, as the exact, the optimistic and the proportional model see it. -/
def cancelExact (r : Resolved) (qty : Shares) (o : SyntheticOrder) : SyntheticOrder :=
  if (o.models .exact).live ∧ r.ref ∈ o.aheadRefs then
    let o := o.setModel .exact ((o.models .exact).deduct qty.toNat)
    if qty ≥ r.shares then o.eraseAhead r.ref else o
  else o

def cancelOptimistic (qty : Shares) (o : SyntheticOrder) : SyntheticOrder :=
  if (o.models .optimistic).live then o.setModel .optimistic ((o.models .optimistic).deduct qty.toNat) else o

def cancelProportional (qty : Shares) (before : ℚ) (o : SyntheticOrder) : SyntheticOrder :=
  if (o.models .proportional).live ∧ before > 0 then
    o.setModel .proportional
      ((o.models .proportional).deduct (qty.toNat * ((o.models .proportional).ahead / before)))
  else o

/-- The coin of a cancel at the order's price. -/
def cancelCoin (before : ℚ) (rng : Sampler) (o : SyntheticOrder) : Bool × Sampler :=
  if (o.models .bernoulliProportional).live ∧ before > 0 then
    let a := if (o.models .bernoulliProportional).ahead < 0 then 0 else
      (o.models .bernoulliProportional).ahead
    rng.bernoulli ⌊a⌋₊ ⌊before⌋₊
  else (false, rng)

def cancelBernoulli (qty : Shares) (hit : Bool) (o : SyntheticOrder) : SyntheticOrder :=
  if hit then
    o.setModel .bernoulliProportional ((o.models .bernoulliProportional).deduct qty.toNat)
  else o

/-- The order is at the level that the real order leaves. -/
def atLevelOf (r : Resolved) (o : SyntheticOrder) : Bool :=
  o.anyLive && o.locate == r.locate && o.side == r.side && o.price == r.price

/-- The body of the loop of `on_cancel`; `b` is the book after the message. -/
def cancelVisit (b : ReferenceBook) (r : Resolved) (qty : Shares) : Visit := fun L o =>
  if !atLevelOf r o then (L, o)
  else
    let wasAhead := decide (r.ref ∈ o.aheadRefs)
    let before := cancelBefore b o qty
    let o := cancelOptimistic qty (cancelExact r qty o)
    let L := if before > 0 then L.attributeCancel o wasAhead qty.toNat before else L
    let o := cancelProportional qty before o
    let coin := cancelCoin before L.bernRng o
    ({ L with bernRng := coin.2 }, cancelBernoulli qty coin.1 o)

/-- Rule 4. -/
def printVisit (cfg : QueueSimConfig) (price : Price) (ts : UInt64) : Visit := fun L o =>
  if !o.anyLive || o.price != price then (L, o) else fillAllLive cfg ts .nonDisplayedPrint L o

/-- The body of the loop of the expiry sweep. -/
def sweepVisit (cfg : QueueSimConfig) (ts : UInt64) : Visit := fun L o =>
  if o.anyLive && decide (ts - o.enteredTs ≥ cfg.maxLifeNs) then expire L o else (L, o)

/-- The body of the loops of `cancel_symbol` and `finish`. -/
def retireVisit : Visit := fun L o => if o.anyLive then expire L o else (L, o)

/-! ## The simulator -/

/-- The symbol has both sides. -/
def twoSidedAt (b : ReferenceBook) (locate : UInt16) : Bool :=
  (b.symbol locate).any fun s => s.hasBid && s.hasAsk

/-- The list nodes of a level. -/
def levelNodes (b : ReferenceBook) (locate : UInt16) (side : UInt8) (price : Price) : List RefNode :=
  ((b.symbol locate).bind fun s => (s.side side)[price]?).elim [] RefLevel.fifo

/-- The middle of the inside, of a symbol that has both sides. -/
def mid (b : ReferenceBook) (locate : UInt16) : Option ℚ :=
  (b.symbol locate).bind fun s =>
    if s.hasBid && s.hasAsk then some (((s.bestBid.getD 0).toNat + (s.bestAsk.getD 0).toNat : ℚ) / 2)
    else none

namespace Ledger

/-- The body of the loop of `settle`: the valuation stays, or is made, or is dropped without a middle. -/
def settleOne (b : ReferenceBook) (ts : UInt64) (L : Ledger) (p : PendingValuation) : Ledger :=
  if p.dueTs > ts then { L with pending := L.pending ++ [p] }
  else
    match mid b p.locate with
    | none => L
    | some m =>
      let edge := if p.side = kBuy then m - p.fillPrice.toNat else p.fillPrice.toNat - m
      let L := L.setRes p.model fun r => { r with
        valueByDepth :=
          Function.update r.valueByDepth p.depthBucket (addTo (r.valueByDepth p.depthBucket) p.horizon edge)
        valueHalfspreads :=
          if p.spreadAtEntry > 0 then
            Function.update r.valueHalfspreads p.depthBucket
              (addTo (r.valueHalfspreads p.depthBucket) p.horizon (edge / (p.spreadAtEntry.toNat / 2)))
          else r.valueHalfspreads
        valuedByDepth :=
          Function.update r.valuedByDepth p.depthBucket (addTo (r.valuedByDepth p.depthBucket) p.horizon 1) }
      { L with valued := L.valued ++ [(p.fillNo, p.horizon)] }

def settle (b : ReferenceBook) (ts : UInt64) (L : Ledger) : Ledger :=
  L.pending.foldl (settleOne b ts) { L with pending := [] }

end Ledger

structure QueueSim extends Ledger where
  cfg : QueueSimConfig
  rng : Sampler
  book : ReferenceBook := {}
  live : List SyntheticOrder := []
  byLocate : UInt16 → List ℕ := fun _ => []
  retired : List SyntheticOrder := []
  twoSided : List UInt16 := []
  nextPlacement : UInt64
  lastTs : UInt64 := 0
  universeRefreshed : UInt64 := 0
  placements : ℕ := 0
  skipped : ℕ := 0
  overrun : ℕ := 0
  lastSweep : UInt64 := 0

namespace QueueSim

def kUniverseRefreshNs : UInt64 := 60000000000

def kSweepNs : UInt64 := 100000000

def init (P : Platform) (cfg : QueueSimConfig) : QueueSim where
  cfg := cfg
  rng := Sampler.seeded P cfg.seed
  bernRng := Sampler.seeded P (cfg.seed ^^^ 0x9E3779B97F4A7C15)
  nextPlacement := cfg.startNs

/-- A loop over `at_locate(locate)`. -/
def visitAt (s : QueueSim) (locate : UInt16) (f : Visit) : QueueSim :=
  let r := Scan.visit f s.toLedger s.live (s.byLocate locate)
  { s with toLedger := r.1, live := r.2 }

/-- A loop over `live_`. -/
def visitAll (s : QueueSim) (f : Visit) : QueueSim :=
  let r := Scan.scan f s.toLedger s.live
  { s with toLedger := r.1, live := r.2 }

/-- The positions of the orders of a symbol. -/
def positions (live : List SyntheticOrder) (locate : UInt16) : List ℕ :=
  live.findIdxs fun o => o.locate == locate

/-- `by_locate_` is cleared and filled again. -/
def reindex (live : List SyntheticOrder) : UInt16 → List ℕ :=
  live.zipIdx.foldl (fun index e => Function.update index e.1.locate (index e.1.locate ++ [e.2])) fun _ => []

def compact (s : QueueSim) : QueueSim :=
  let keep := s.live.filter SyntheticOrder.anyLive
  { s with
    live := keep
    byLocate := reindex keep
    retired := s.retired ++ s.live.filter fun o => !o.anyLive }

/-! ### Placements -/

/-- The order that enters at the inside of a symbol, when it has both sides. -/
def entry (s : QueueSim) (locate : UInt16) (side : UInt8) (ts : UInt64) : Option SyntheticOrder :=
  match s.book.symbol locate with
  | none => none
  | some sym =>
    if !sym.hasBid || !sym.hasAsk then none
    else
      let bid := sym.bestBid.getD 0
      let ask := sym.bestAsk.getD 0
      let price := if side = kBuy then bid else ask
      let lv := s.book.level locate side price
      if !lv.present then none
      else
        some
          { locate := locate
            side := side
            price := price
            size := s.cfg.orderSize
            enteredTs := ts
            depthAtEntry := lv.shares
            levelOrdersAtEntry := lv.orders
            spreadAtEntry := ask - bid
            models := fun _ => { ahead := lv.shares.toNat }
            aheadRefs := lv.fifo.toFinset
            seq := s.placements
            entryNodes := levelNodes s.book locate side price }

/-- The order is counted and goes to the back. -/
def push (s : QueueSim) (o : SyntheticOrder) : QueueSim :=
  { s with
    toLedger := s.toLedger.countPlaced o
    placements := s.placements + 1
    byLocate := Function.update s.byLocate o.locate (s.byLocate o.locate ++ [s.live.length])
    live := s.live ++ [o] }

def placeAt (s : QueueSim) (locate : UInt16) (side : UInt8) (ts : UInt64) : QueueSim :=
  match s.entry locate side ts with
  | none => { s with skipped := s.skipped + 1 }
  | some o => s.push o

def refreshUniverse (s : QueueSim) : QueueSim :=
  let candidates := if s.cfg.eligible.isEmpty then (List.range 65536).map UInt16.ofNat else s.cfg.eligible
  { s with
    twoSided := candidates.filter (twoSidedAt s.book)
    universeRefreshed := s.lastTs }

def place (s : QueueSim) (ts : UInt64) : QueueSim :=
  let s :=
    if s.twoSided.isEmpty || decide (s.lastTs - s.universeRefreshed > kUniverseRefreshNs) then
      s.refreshUniverse
    else s
  if s.twoSided.isEmpty then { s with skipped := s.skipped + 1 }
  else
    let pick := s.rng.pick s.twoSided.length
    let locate := s.twoSided.getD pick.1 0
    if s.cfg.forceSide ≠ 0 then { s with rng := pick.2 }.placeAt locate s.cfg.forceSide ts
    else
      let coin := pick.2.coin
      { s with rng := coin.2 }.placeAt locate (if coin.1 then kBuy else kSell) ts

/-- The loop over the placements that are due, `n` before it gives up. -/
def catchUp (ts : UInt64) : ℕ → QueueSim → QueueSim
  | 0, s =>
    if s.nextPlacement < s.cfg.endNs ∧ ts ≥ s.nextPlacement then
      let gap := s.rng.exponentialNs s.cfg.meanInterarrivalNs
      { s with overrun := s.overrun + 1, rng := gap.2, nextPlacement := ts + gap.1 }
    else s
  | n + 1, s =>
    if s.nextPlacement < s.cfg.endNs ∧ ts ≥ s.nextPlacement then
      let s := s.place ts
      let gap := s.rng.exponentialNs s.cfg.meanInterarrivalNs
      catchUp ts n { s with rng := gap.2, nextPlacement := s.nextPlacement + gap.1 }
    else s

/-! ### The clock -/

/-- The expiry sweep, when it is due. -/
def sweep (s : QueueSim) (ts : UInt64) : QueueSim :=
  if ts - s.lastSweep ≥ kSweepNs then
    ({ s with lastSweep := ts }.visitAll (sweepVisit s.cfg ts)).compact
  else s

def tick (s : QueueSim) (ts : UInt64) : QueueSim :=
  if ts < s.lastTs then s
  else
    let s := { s with lastTs := ts, toLedger := s.toLedger.settle s.book ts }.sweep ts
    if s.cfg.timerPlacement then catchUp ts 64 s else s

/-! ### The handlers -/

def onBook (s : QueueSim) (msg : Message) : QueueSim := { s with book := s.book.on msg }

def onExecution (s : QueueSim) (r : Resolved) (qty : Shares) (ts : UInt64) : QueueSim :=
  s.visitAt r.locate (executionVisit s.cfg r qty ts)

def onCancel (s : QueueSim) (r : Resolved) (qty : Shares) : QueueSim :=
  s.visitAll (cancelVisit s.book r qty)

/-- A timestamp on the wire. -/
def tsOf (h : Header) : UInt64 := UInt64.ofNat h.ts.toNat

def on (s : QueueSim) (msg : Message) : QueueSim :=
  match msg with
  | .systemEvent _ => s.onBook msg
  | .stockDirectory _ => s.onBook msg
  | .addOrder v => (s.onBook msg).tick (tsOf v.toHeader)
  | .addOrderMpid v => (s.onBook msg).tick (tsOf v.toHeader)
  | .orderExecuted v =>
    (match resolve s.book v.orderRef with
      | none => s.onBook msg
      | some r => (s.onBook msg).onExecution r v.executedShares (tsOf v.toHeader)).tick (tsOf v.toHeader)
  | .orderExecutedPrice v =>
    (match resolve s.book v.orderRef with
      | none => s.onBook msg
      | some r => (s.onBook msg).onExecution r v.executedShares (tsOf v.toHeader)).tick (tsOf v.toHeader)
  | .orderCancel v =>
    (match resolve s.book v.orderRef with
      | none => s.onBook msg
      | some r => (s.onBook msg).onCancel r v.cancelledShares).tick (tsOf v.toHeader)
  | .orderDelete v =>
    (match resolve s.book v.orderRef with
      | none => s.onBook msg
      | some r => (s.onBook msg).onCancel r r.shares).tick (tsOf v.toHeader)
  | .orderReplace v =>
    (match resolve s.book v.oldOrderRef with
      | none => s.onBook msg
      | some r => (s.onBook msg).onCancel r r.shares).tick (tsOf v.toHeader)
  | .trade v =>
    (if s.cfg.rule4NonDisplayedFills then
        s.visitAt v.locate (printVisit s.cfg v.price (tsOf v.toHeader))
      else s).tick (tsOf v.toHeader)
  | .crossTrade v => s.tick (tsOf v.toHeader)
  | .brokenTrade v => s.tick (tsOf v)
  | .stockTradingAction _ => s
  | .operationalHalt _ => s

/-! ### Driven from outside -/

def placeDirected (s : QueueSim) (locate : UInt16) (side : UInt8) (ts : UInt64) : QueueSim :=
  s.placeAt locate side ts

def cancelSymbol (s : QueueSim) (locate : UInt16) : QueueSim := (s.visitAt locate retireVisit).compact

def finish (s : QueueSim) : QueueSim :=
  let s := s.visitAll retireVisit
  { s with live := [], retired := s.retired ++ s.live }

/-- A call from outside. -/
inductive SimStep
  | message (msg : Message)
  | placeDirected (locate : UInt16) (side : UInt8) (ts : UInt64)
  | cancelSymbol (locate : UInt16)

def step (s : QueueSim) : SimStep → QueueSim
  | .message msg => s.on msg
  | .placeDirected locate side ts => s.placeDirected locate side ts
  | .cancelSymbol locate => s.cancelSymbol locate

def run (P : Platform) (cfg : QueueSimConfig) (es : List SimStep) : QueueSim := Runs.run step (init P cfg) es

/-- Every order that was placed. -/
def orders (s : QueueSim) : List SyntheticOrder := s.retired ++ s.live

end QueueSim

end Carteret
