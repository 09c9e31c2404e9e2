import Carteret.Lib.Runs
import Carteret.Book

/-!
# Reference book

The deliberately simple book: an ordered map of price levels for each side of each symbol, a list of orders
in each level, and a map from references to orders. Each order keeps an iterator into the list of its level;
here a list node has an identity (`RefNode.id`) and the iterator is that identity.

1. The data, with every counter of the source.
2. `checkBbo` only observes: it counts crossed and locked books and closes reopening windows.
3. `addRetained`, `execute`, `erase` change the orders and their levels; `on` is the handler.
-/

namespace Carteret

/-! ## The data -/

/-- A node of a level's list. -/
structure RefNode where
  id : ℕ
  ref : Ref
  deriving DecidableEq

structure RefLevel where
  shares : UInt64 := 0
  orders : UInt32 := 0
  fifo : List RefNode := []
  deriving DecidableEq

structure RefOrder where
  locate : UInt16
  side : UInt8
  price : Price
  shares : Shares
  stock : Bytes
  attribution : Bytes
  slot : ℕ
  addedTs : ℕ
  deriving DecidableEq

structure RefSymbol where
  bids : Std.TreeMap Price RefLevel := ∅
  asks : Std.TreeMap Price RefLevel := ∅

namespace RefSymbol

/-- `bids.rbegin()->first`, when there is a bid. -/
def bestBid (s : RefSymbol) : Option Price := s.bids.keys.getLast?

/-- `asks.begin()->first`, when there is an offer. -/
def bestAsk (s : RefSymbol) : Option Price := s.asks.keys.head?

def hasBid (s : RefSymbol) : Bool := !s.bids.isEmpty

def hasAsk (s : RefSymbol) : Bool := !s.asks.isEmpty

/-- `(side == kBuy) ? sym.bids : sym.asks`. -/
def side (s : RefSymbol) (side : UInt8) : Std.TreeMap Price RefLevel :=
  if side = kBuy then s.bids else s.asks

def setSide (s : RefSymbol) (side : UInt8) (levels : Std.TreeMap Price RefLevel) : RefSymbol :=
  if side = kBuy then { s with bids := levels } else { s with asks := levels }

end RefSymbol

structure RefCounters where
  orphanExecute : ℕ := 0
  orphanExecutePrice : ℕ := 0
  orphanCancel : ℕ := 0
  orphanDelete : ℕ := 0
  orphanReplace : ℕ := 0
  duplicateAdd : ℕ := 0
  zeroShareCross : ℕ := 0
  removedAtZero : ℕ := 0
  overExecute : ℕ := 0
  missingLevel : ℕ := 0
  crossedObservations : ℕ := 0
  lockedObservations : ℕ := 0
  afterEndOfSystemHours : ℕ := 0
  bookMessages : ℕ := 0
  crossedContinuous : ℕ := 0
  lockedContinuous : ℕ := 0
  crossedFirstTs : ℕ := 0
  crossedLastTs : ℕ := 0
  lockedFirstTs : ℕ := 0
  lockedLastTs : ℕ := 0
  crossedWorstTicks : ℕ := 0
  crossedSymbols : Std.TreeSet UInt16 := ∅
  lockedSymbols : Std.TreeSet UInt16 := ∅
  crossedWhileNotTrading : ℕ := 0
  lockedWhileNotTrading : ℕ := 0
  tradingStateChanges : ℕ := 0
  crossedAwaitingReopen : ℕ := 0
  lockedAwaitingReopen : ℕ := 0
  reopenWindows : ℕ := 0
  reopenWindowMaxNs : ℕ := 0
  crossedUnexplained : ℕ := 0
  lockedUnexplained : ℕ := 0
  unexplainedSymbols : Std.TreeSet UInt16 := ∅
  crossedBeforeFirstAction : ℕ := 0
  lockedBeforeFirstAction : ℕ := 0
  reopenWindowsCapped : ℕ := 0
  operationalHalts : ℕ := 0
  operationalHaltReleases : ℕ := 0
  crossedOperationalHalt : ℕ := 0
  lockedOperationalHalt : ℕ := 0

/-- `state` is zero until the symbol's first trading action. -/
structure TradingState where
  state : UInt8 := 0
  awaitingReopen : Bool := false
  operationallyHalted : Bool := false
  enteredTTs : ℕ := 0
  deriving DecidableEq

/-- `nextNode` is the identity of the next list node. -/
structure ReferenceBook where
  symbols : Std.TreeMap UInt16 RefSymbol := ∅
  orders : Std.TreeMap Ref RefOrder := ∅
  counters : RefCounters := {}
  venueMarketCode : UInt8 := 81
  tradingState : Std.TreeMap UInt16 TradingState := ∅
  afterHours : Bool := false
  nextNode : ℕ := 0

namespace ReferenceBook

/-- 09:30:00. -/
def kOpenNs : ℕ := 34200000000000

/-- 16:00:00. -/
def kCloseNs : ℕ := 57600000000000

def kReopenCapNs : ℕ := 100000000

def count (b : ReferenceBook) (f : RefCounters → RefCounters) : ReferenceBook :=
  { b with counters := f b.counters }

def tick (b : ReferenceBook) : ReferenceBook :=
  b.count fun c => { c with
    bookMessages := c.bookMessages + 1
    afterEndOfSystemHours := if b.afterHours then c.afterEndOfSystemHours + 1
      else c.afterEndOfSystemHours }

/-! ## Observing the inside -/

/-- How a crossed or locked observation is classified, in the order of the tests. -/
inductive Excuse
  | beforeFirstAction
  | operationalHalt
  | whileNotTrading
  | awaitingReopen
  | unexplained
  deriving DecidableEq

def excuse (t : Option TradingState) (awaiting : Bool) : Excuse :=
  let known := t.any fun t => t.state != 0
  let opHalted := t.any fun t => t.operationallyHalted
  let trading := known && t.any (fun t => t.state == 84) && !opHalted
  if !known then .beforeFirstAction
  else if opHalted then .operationalHalt
  else if !trading then .whileNotTrading
  else if awaiting then .awaitingReopen
  else .unexplained

/-- The counters of a crossed observation. -/
def crossed (c : RefCounters) (locate : UInt16) (ts depth : ℕ) (why : Excuse) : RefCounters :=
  let c := { c with
    crossedObservations := c.crossedObservations + 1
    crossedContinuous :=
      if kOpenNs ≤ ts ∧ ts < kCloseNs then c.crossedContinuous + 1 else c.crossedContinuous
    crossedFirstTs := if c.crossedFirstTs = 0 then ts else c.crossedFirstTs
    crossedLastTs := ts
    crossedWorstTicks := max c.crossedWorstTicks depth
    crossedSymbols := c.crossedSymbols.insert locate }
  match why with
  | .beforeFirstAction => { c with crossedBeforeFirstAction := c.crossedBeforeFirstAction + 1 }
  | .operationalHalt => { c with crossedOperationalHalt := c.crossedOperationalHalt + 1 }
  | .whileNotTrading => { c with crossedWhileNotTrading := c.crossedWhileNotTrading + 1 }
  | .awaitingReopen => { c with crossedAwaitingReopen := c.crossedAwaitingReopen + 1 }
  | .unexplained =>
    { c with
      crossedUnexplained := c.crossedUnexplained + 1
      unexplainedSymbols := c.unexplainedSymbols.insert locate }

/-- The counters of a locked observation. -/
def locked (c : RefCounters) (locate : UInt16) (ts : ℕ) (why : Excuse) : RefCounters :=
  let c := { c with
    lockedObservations := c.lockedObservations + 1
    lockedContinuous :=
      if kOpenNs ≤ ts ∧ ts < kCloseNs then c.lockedContinuous + 1 else c.lockedContinuous
    lockedFirstTs := if c.lockedFirstTs = 0 then ts else c.lockedFirstTs
    lockedLastTs := ts
    lockedSymbols := c.lockedSymbols.insert locate }
  match why with
  | .beforeFirstAction => { c with lockedBeforeFirstAction := c.lockedBeforeFirstAction + 1 }
  | .operationalHalt => { c with lockedOperationalHalt := c.lockedOperationalHalt + 1 }
  | .whileNotTrading => { c with lockedWhileNotTrading := c.lockedWhileNotTrading + 1 }
  | .awaitingReopen => { c with lockedAwaitingReopen := c.lockedAwaitingReopen + 1 }
  | .unexplained =>
    { c with
      lockedUnexplained := c.lockedUnexplained + 1
      unexplainedSymbols := c.unexplainedSymbols.insert locate }

/-- The window of a symbol is no longer open. -/
def closeWindow (b : ReferenceBook) (locate : UInt16) (t : TradingState) : ReferenceBook :=
  { b with tradingState := b.tradingState.insert locate { t with awaitingReopen := false } }

/-- How long a window was open goes into the maximum. -/
def heldOpen (c : RefCounters) (ts : ℕ) (t : TradingState) : RefCounters :=
  { c with reopenWindowMaxNs := max c.reopenWindowMaxNs (ts - t.enteredTTs) }

def checkBbo (b : ReferenceBook) (locate : UInt16) (ts : ℕ) : ReferenceBook :=
  match b.symbols[locate]? with
  | none => b
  | some s =>
    match s.bestBid, s.bestAsk with
    | some bid, some ask =>
      let t := b.tradingState[locate]?
      let awaiting := t.any fun t => t.awaitingReopen
      let capped := awaiting && decide (bid ≥ ask) &&
        t.any fun t => decide (ts ≥ t.enteredTTs) && decide (ts - t.enteredTTs > kReopenCapNs)
      let b :=
        if capped then
          (b.closeWindow locate (t.getD {})).count fun c =>
            { c with reopenWindowsCapped := c.reopenWindowsCapped + 1 }
        else b
      let awaiting := awaiting && !capped
      if bid > ask then
        b.count fun c => crossed c locate ts (bid.toNat - ask.toNat) (excuse t awaiting)
      else if bid = ask then b.count fun c => locked c locate ts (excuse t awaiting)
      else if awaiting then
        (b.closeWindow locate (t.getD {})).count fun c => heldOpen c ts (t.getD {})
      else b
    | _, _ => b

/-! ## Orders and levels -/

/-- `symbols_[locate]`. -/
def symbolOf (b : ReferenceBook) (locate : UInt16) : RefSymbol := b.symbols.getD locate {}

/-- The levels of one side of `symbols_[locate]` are written. -/
def setSide (b : ReferenceBook) (locate : UInt16) (side : UInt8)
    (levels : Std.TreeMap Price RefLevel) : ReferenceBook :=
  { b with symbols := b.symbols.insert locate ((b.symbolOf locate).setSide side levels) }

/-- The level that an order rests in; looked up without inserting. -/
def levelOf (b : ReferenceBook) (o : RefOrder) : Option RefLevel :=
  b.symbols[o.locate]?.bind fun s => (s.side o.side)[o.price]?

/-- An order leaves its level and the map; an empty level is dropped. -/
def erase (b : ReferenceBook) (ref : Ref) (o : RefOrder) : ReferenceBook :=
  let levels := (b.symbolOf o.locate).side o.side
  let b :=
    match levels[o.price]? with
    | none => b.setSide o.locate o.side levels
    | some lvl =>
      let fifo := lvl.fifo.filter fun n : RefNode => n.id != o.slot
      let lvl : RefLevel :=
        { shares := lvl.shares - o.shares.toUInt64, orders := lvl.orders - 1, fifo := fifo }
      b.setSide o.locate o.side
        (if fifo.isEmpty then levels.erase o.price else levels.insert o.price lvl)
  { b with orders := b.orders.erase ref }

def remove (b : ReferenceBook) (ref : Ref) : Bool × ReferenceBook :=
  match b.orders[ref]? with
  | none => (false, b)
  | some o => (true, b.erase ref o)

def execute (b : ReferenceBook) (ref : Ref) (qty : Shares) : Bool × ReferenceBook :=
  match b.orders[ref]? with
  | none => (false, b)
  | some o =>
    let b := if qty > o.shares then b.count fun c => { c with overExecute := c.overExecute + 1 } else b
    let taken := taken qty o.shares
    match b.levelOf o with
    | none =>
      (true, { b.count (fun c => { c with missingLevel := c.missingLevel + 1 }) with
        orders := b.orders.erase ref })
    | some lvl =>
      let b := b.setSide o.locate o.side (((b.symbolOf o.locate).side o.side).insert o.price
        { lvl with shares := lvl.shares - taken.toUInt64 })
      let o := { o with shares := o.shares - taken }
      let b := { b with orders := b.orders.insert ref o }
      if o.shares = 0 then
        (true, (b.count fun c => { c with removedAtZero := c.removedAtZero + 1 }).erase ref o)
      else (true, b)

def addRetained (b : ReferenceBook) (locate : UInt16) (ref : Ref) (side : UInt8) (price : Price)
    (shares : Shares) (stock attribution : Bytes) (ts : ℕ) : ReferenceBook :=
  let b :=
    if b.orders.contains ref then
      ((b.count fun c => { c with duplicateAdd := c.duplicateAdd + 1 }).remove ref).2
    else b
  let levels := (b.symbolOf locate).side side
  let lvl := levels.getD price {}
  let lvl : RefLevel :=
    { shares := lvl.shares + shares.toUInt64, orders := lvl.orders + 1,
      fifo := lvl.fifo ++ [⟨b.nextNode, ref⟩] }
  let b := b.setSide locate side (levels.insert price lvl)
  let o : RefOrder :=
    { locate := locate, side := side, price := price, shares := shares, stock := stock,
      attribution := attribution, slot := b.nextNode, addedTs := ts }
  let b := { b with orders := b.orders.insertIfNew ref o, nextNode := b.nextNode + 1 }
  b.checkBbo locate ts

def add (b : ReferenceBook) (v : AddOrder) (attribution : Bytes) : ReferenceBook :=
  b.addRetained v.locate v.orderRef v.side v.price v.shares (fillAlpha 8 v.stock)
    (fillAlpha 4 attribution) v.ts.toNat

/-! ## The handler -/

/-- What is counted when the operation finds no order. -/
def countUnless (r : Bool × ReferenceBook) (f : RefCounters → RefCounters) : ReferenceBook :=
  if r.1 then r.2 else r.2.count f

def onStockTradingAction (b : ReferenceBook) (v : StockTradingAction) : ReferenceBook :=
  let t := b.tradingState.getD v.locate {}
  let entered := v.tradingState = 84 ∧ t.state ≠ 84
  let opened := entered ∧ t.state ≠ 0
  let t := { t with
    enteredTTs := if entered then v.ts.toNat else t.enteredTTs
    awaitingReopen := if opened then true else t.awaitingReopen
    state := v.tradingState }
  { b with tradingState := b.tradingState.insert v.locate t }.count fun c => { c with
    reopenWindows := if opened then c.reopenWindows + 1 else c.reopenWindows
    tradingStateChanges := c.tradingStateChanges + 1 }

def onOperationalHalt (b : ReferenceBook) (v : OperationalHalt) : ReferenceBook :=
  if v.marketCode ≠ b.venueMarketCode then b
  else
    let t := b.tradingState.getD v.locate {}
    if v.haltAction = 72 then
      { b with tradingState := b.tradingState.insert v.locate { t with operationallyHalted := true }
        }.count fun c => { c with operationalHalts := c.operationalHalts + 1 }
    else if v.haltAction = 84 then
      { b with tradingState := b.tradingState.insert v.locate { t with operationallyHalted := false }
        }.count fun c => { c with operationalHaltReleases := c.operationalHaltReleases + 1 }
    else { b with tradingState := b.tradingState.insert v.locate t }

def onOrderReplace (b : ReferenceBook) (v : OrderReplace) : ReferenceBook :=
  match b.orders[v.oldOrderRef]? with
  | none => b.count fun c => { c with orphanReplace := c.orphanReplace + 1 }
  | some old =>
    let b := (b.remove v.oldOrderRef).2
    let b := b.addRetained old.locate v.newOrderRef old.side v.price v.shares old.stock
      old.attribution v.ts.toNat
    b.checkBbo v.locate v.ts.toNat

def onCrossTrade (b : ReferenceBook) (v : CrossTrade) : ReferenceBook :=
  let b :=
    if v.shares = 0 then b.count fun c => { c with zeroShareCross := c.zeroShareCross + 1 } else b
  match b.tradingState[v.locate]? with
  | none => b
  | some t =>
    if t.awaitingReopen then
      (b.closeWindow v.locate t).count fun c => heldOpen c v.ts.toNat t
    else b

def on (b : ReferenceBook) : Message → ReferenceBook
  | .systemEvent v => if v.eventCode = 69 then { b with afterHours := true } else b
  | .stockTradingAction v => b.onStockTradingAction v
  | .operationalHalt v => b.onOperationalHalt v
  | .stockDirectory v => { b with symbols := b.symbols.insert v.locate (b.symbolOf v.locate) }
  | .addOrder v => b.tick.add v []
  | .addOrderMpid v => b.tick.add v.toAddOrder v.attribution
  | .orderExecuted v =>
    (countUnless (b.tick.execute v.orderRef v.executedShares) fun c =>
      { c with orphanExecute := c.orphanExecute + 1 }).checkBbo v.locate v.ts.toNat
  | .orderExecutedPrice v =>
    (countUnless (b.tick.execute v.orderRef v.executedShares) fun c =>
      { c with orphanExecutePrice := c.orphanExecutePrice + 1 }).checkBbo v.locate v.ts.toNat
  | .orderCancel v =>
    (countUnless (b.tick.execute v.orderRef v.cancelledShares) fun c =>
      { c with orphanCancel := c.orphanCancel + 1 }).checkBbo v.locate v.ts.toNat
  | .orderDelete v =>
    (countUnless (b.tick.remove v.orderRef) fun c =>
      { c with orphanDelete := c.orphanDelete + 1 }).checkBbo v.locate v.ts.toNat
  | .orderReplace v => b.tick.onOrderReplace v
  | .trade _ => b.tick
  | .brokenTrade _ => b.tick
  | .crossTrade v => b.tick.onCrossTrade v

/-- The book after some messages. -/
def run (b : ReferenceBook) (ms : List Message) : ReferenceBook := Runs.run on b ms

/-! ## Queries -/

def liveOrders (b : ReferenceBook) : ℕ := b.orders.size

def symbol (b : ReferenceBook) (locate : UInt16) : Option RefSymbol := b.symbols[locate]?

def order (b : ReferenceBook) (ref : Ref) : Option RefOrder := b.orders[ref]?

def level (b : ReferenceBook) (locate : UInt16) (side : UInt8) (price : Price) : LevelSnapshot :=
  match b.symbol locate with
  | none => {}
  | some s =>
    match (s.side side)[price]? with
    | none => {}
    | some lvl =>
      { present := true, shares := lvl.shares, orders := lvl.orders, fifo := lvl.fifo.map RefNode.ref }

def depthAt (b : ReferenceBook) (locate : UInt16) (side : UInt8) (price : Price) : Depth :=
  match b.symbol locate with
  | none => {}
  | some s =>
    match (s.side side)[price]? with
    | none => {}
    | some lvl => { present := true, shares := lvl.shares, orders := lvl.orders }

/-- The variables of the loop of `check_invariants()` over one level. -/
structure LevelWalk where
  bad : ℕ := 0
  sum : UInt64 := 0

def walkNode (b : ReferenceBook) (locate : UInt16) (price : Price) (w : LevelWalk) (n : RefNode) :
    LevelWalk :=
  match b.orders[n.ref]? with
  | none => { w with bad := w.bad + 1 }
  | some o =>
    { bad := w.bad + (if o.shares = 0 then 1 else 0) + (if o.price ≠ price then 1 else 0) +
        (if o.locate ≠ locate then 1 else 0)
      sum := w.sum + o.shares.toUInt64 }

/-- The violations in one level. -/
def checkLevel (b : ReferenceBook) (locate : UInt16) (price : Price) (lvl : RefLevel) : ℕ :=
  let w := lvl.fifo.foldl (b.walkNode locate price) {}
  (if lvl.fifo.isEmpty then 1 else 0) + (if lvl.orders.toNat ≠ lvl.fifo.length then 1 else 0) + w.bad +
    (if w.sum ≠ lvl.shares then 1 else 0)

def checkSymbol (b : ReferenceBook) (locate : UInt16) (s : RefSymbol) : ℕ :=
  ((s.bids.toList ++ s.asks.toList).map fun x => b.checkLevel locate x.1 x.2).sum

def checkInvariants (b : ReferenceBook) : ℕ :=
  (b.symbols.toList.map fun x => b.checkSymbol x.1 x.2).sum

end ReferenceBook

end Carteret
