import Carteret.Lib.IntrusiveList
import Carteret.Lib.Runs
import Carteret.FastSide

/-!
# Fast book

The book with a pool of orders, a queue threaded through it for each level, a hash index from references to
pool slots, and two windowed sides for each symbol. A function is `none` when one of its loops would not
end.

1. The data, with every counter of the source.
2. `alloc`, `release`, `link` and `unlink` move a slot between the free list and the queues.
3. `add`, `reduce` and `eraseRef` change the orders; `on` is the handler.
4. The queries, with the walks over a queue that `level()` and `check_invariants()` make.
-/

namespace Carteret

/-! ## The data -/

/-- A pool slot; `next` is also the link of the free list. -/
structure FastOrder where
  next : UInt32 := kNoOrder
  prev : UInt32 := kNoOrder
  shares : Shares := 0
  price : Price := 0
  locate : UInt16 := 0
  side : UInt8 := 0
  deriving DecidableEq

structure FastSymbol where
  bid : FastSide := {}
  ask : FastSide := {}

namespace FastSymbol

/-- `(side == kBuy) ? sym.bid : sym.ask`. -/
def side (s : FastSymbol) (side : UInt8) : FastSide := if side = kBuy then s.bid else s.ask

def setSide (s : FastSymbol) (side : UInt8) (t : FastSide) : FastSymbol :=
  if side = kBuy then { s with bid := t } else { s with ask := t }

end FastSymbol

structure FastCounters where
  orphanExecute : ℕ := 0
  orphanExecutePrice : ℕ := 0
  orphanCancel : ℕ := 0
  orphanDelete : ℕ := 0
  orphanReplace : ℕ := 0
  duplicateAdd : ℕ := 0
  zeroShareCross : ℕ := 0
  removedAtZero : ℕ := 0
  overExecute : ℕ := 0
  crossedObservations : ℕ := 0
  lockedObservations : ℕ := 0
  afterEndOfSystemHours : ℕ := 0
  bookMessages : ℕ := 0
  overflowHits : ℕ := 0
  recenters : ℕ := 0
  levelsMoved : ℕ := 0
  subCentPrices : ℕ := 0
  poolExhausted : ℕ := 0
  symbolOverflow : ℕ := 0
  indexFailures : ℕ := 0

structure FastBookConfig where
  maxOrders : ℕ := 4 <<< 20
  maxSymbols : ℕ := 1 <<< 14
  indexHint : UInt64 := UInt64.ofNat (4 <<< 20)

/-- `pool` and `refs` have `maxOrders` slots, `symbols` has `maxSymbols`. -/
structure FastBook (P : HashPolicy) (W : Window) where
  cfg : FastBookConfig
  index : OrderIndex P
  pool : ℕ → FastOrder
  refs : ℕ → Ref := fun _ => 0
  symbols : ℕ → FastSymbol := fun _ => {}
  freeHead : UInt32
  counters : FastCounters := {}
  afterHours : Bool := false

namespace FastBook

variable {P : HashPolicy} {W : Window}

/-- The loop that seeds the free list, from the last slot down; the head is cut to 32 bits. -/
def seed : ℕ → (ℕ → FastOrder) → UInt32 → (ℕ → FastOrder) × UInt32
  | 0, pool, freeHead => (pool, freeHead)
  | i + 1, pool, freeHead =>
    seed i (Function.update pool i { pool i with next := freeHead }) (UInt32.ofNat i)

def new (P : HashPolicy) (W : Window) (cfg : FastBookConfig) : Option (FastBook P W) :=
  (OrderIndex.new P cfg.indexHint).map fun index =>
    let s := seed cfg.maxOrders (fun _ => {}) kNoOrder
    { cfg := cfg, index := index, pool := s.1, freeHead := s.2 }

def count (b : FastBook P W) (f : FastCounters → FastCounters) : FastBook P W :=
  { b with counters := f b.counters }

def tick (b : FastBook P W) : FastBook P W :=
  b.count fun c => { c with
    bookMessages := c.bookMessages + 1
    afterEndOfSystemHours := if b.afterHours then c.afterEndOfSystemHours + 1
      else c.afterEndOfSystemHours }

/-- `pool_[i]`. -/
def order (b : FastBook P W) (i : UInt32) : FastOrder := b.pool i.toNat

def setOrder (b : FastBook P W) (i : UInt32) (o : FastOrder) : FastBook P W :=
  { b with pool := Function.update b.pool i.toNat o }

/-- `side_of(symbols_[locate], side)`. -/
def side (b : FastBook P W) (locate : UInt16) (side : UInt8) : FastSide :=
  (b.symbols locate.toNat).side side

def setSide (b : FastBook P W) (locate : UInt16) (side : UInt8) (s : FastSide) : FastBook P W :=
  { b with
    symbols := Function.update b.symbols locate.toNat ((b.symbols locate.toNat).setSide side s) }

/-! ## The inside -/

def best (b : FastBook P W) (locate : UInt16) (side : UInt8) : Option Price :=
  if locate.toNat ≥ b.cfg.maxSymbols then none else (b.side locate side).best W side

def recenterSide (b : FastBook P W) (locate : UInt16) (side : UInt8) : FastBook P W :=
  match (b.side locate side).maybeRecenter W side with
  | none => b
  | some (s, moved) =>
    (b.setSide locate side s).count fun c =>
      { c with recenters := c.recenters + 1, levelsMoved := c.levelsMoved + moved }

def maybeRecenter (b : FastBook P W) (locate : UInt16) : FastBook P W :=
  if locate.toNat ≥ b.cfg.maxSymbols then b
  else (b.recenterSide locate kBuy).recenterSide locate kSell

def checkBbo (b : FastBook P W) (locate : UInt16) : FastBook P W :=
  let b := b.maybeRecenter locate
  match b.best locate kBuy, b.best locate kSell with
  | some bid, some ask =>
    if bid > ask then b.count fun c => { c with crossedObservations := c.crossedObservations + 1 }
    else if bid = ask then b.count fun c => { c with lockedObservations := c.lockedObservations + 1 }
    else b
  | _, _ => b

/-! ## Slots and queues -/

def alloc (b : FastBook P W) : UInt32 × FastBook P W :=
  if b.freeHead = kNoOrder then
    (kNoOrder, b.count fun c => { c with poolExhausted := c.poolExhausted + 1 })
  else (b.freeHead, { b with freeHead := (b.order b.freeHead).next })

def release (b : FastBook P W) (i : UInt32) : FastBook P W :=
  { b.setOrder i { b.order i with next := b.freeHead, prev := kNoOrder, shares := 0 } with
    freeHead := i }

def mutableLevel (b : FastBook P W) (o : FastOrder) : Option Home :=
  if o.locate.toNat ≥ b.cfg.maxSymbols then none else (b.side o.locate o.side).findHome W o.price

/-- `lvl->shares -= n` for the level of an order. -/
def subShares (b : FastBook P W) (o : FastOrder) (n : Shares) : FastBook P W :=
  match b.mutableLevel o with
  | none => b
  | some home =>
    let s := b.side o.locate o.side
    let lvl := s.read home
    b.setSide o.locate o.side (s.write { lvl with shares := lvl.shares - n.toUInt64 } home)

/-- The level with the order in slot `idx` at its back. -/
def pushed (lvl : FastLevel) (idx : UInt32) (shares : Shares) : FastLevel where
  shares := lvl.shares + shares.toUInt64
  orders := lvl.orders + 1
  head := if lvl.tail ≠ kNoOrder then lvl.head else idx
  tail := idx

/-- The order is written to slot `idx`, behind the slot `o.prev`. -/
def enqueue (b : FastBook P W) (idx : UInt32) (o : FastOrder) : FastBook P W :=
  let b := b.setOrder idx o
  if o.prev ≠ kNoOrder then b.setOrder o.prev { b.order o.prev with next := idx } else b

/-- The part of `add` that writes the order and puts it at the back of its level. -/
def link (b : FastBook P W) (idx : UInt32) (locate : UInt16) (ref : Ref) (side : UInt8)
    (price : Price) (shares : Shares) : FastBook P W :=
  let r := (b.side locate side).levelFor W (if side = kBuy then kBuy else kSell) price
  let lvl := r.1.read r.2
  let b := b.count fun c => { c with
    subCentPrices := if toCents price = none then c.subCentPrices + 1 else c.subCentPrices
    overflowHits := match r.2 with | .slot _ => c.overflowHits | .overflow _ => c.overflowHits + 1 }
  let b := b.enqueue idx
    { next := kNoOrder, prev := lvl.tail, shares := shares, price := price, locate := locate,
      side := side }
  let b := { b with refs := Function.update b.refs idx.toNat ref }
  b.setSide locate side
    ((r.1.write (pushed lvl idx shares) r.2).markOccupied (lvl.orders == 0) r.2)

/-- The level without the order `o`. -/
def removed (lvl : FastLevel) (o : FastOrder) : FastLevel where
  shares := lvl.shares
  orders := if lvl.orders ≠ 0 then lvl.orders - 1 else lvl.orders
  head := if o.prev ≠ kNoOrder then lvl.head else o.next
  tail := if o.next ≠ kNoOrder then lvl.tail else o.prev

/-- The links around the order `o` in slot `idx` are closed. -/
def dequeue (b : FastBook P W) (idx : UInt32) (o : FastOrder) : FastBook P W :=
  let b := if o.prev ≠ kNoOrder then b.setOrder o.prev { b.order o.prev with next := o.next } else b
  let b := if o.next ≠ kNoOrder then b.setOrder o.next { b.order o.next with prev := o.prev } else b
  b.setOrder idx { b.order idx with next := kNoOrder, prev := kNoOrder }

def unlink (b : FastBook P W) (idx : UInt32) : FastBook P W :=
  let o := b.order idx
  match b.mutableLevel o with
  | none => b
  | some home =>
    let s := b.side o.locate o.side
    let lvl := removed (s.read home) o
    (b.dequeue idx o).setSide o.locate o.side ((s.write lvl home).dropIfEmpty W o.price lvl)

/-! ## The operations -/

def eraseRef (b : FastBook P W) (ref : Ref) : Option (Bool × FastBook P W) :=
  (b.index.erase ref).map fun r =>
    let idx := r.1
    let b := { b with index := r.2 }
    if idx = kNoOrder then (false, b)
    else
      let o := b.order idx
      (true, ((b.subShares o o.shares).unlink idx).release idx)

def reduce (b : FastBook P W) (ref : Ref) (qty : Shares) : Option (Bool × FastBook P W) :=
  (b.index.find ref).bind fun idx =>
    if idx = kNoOrder then some (false, b)
    else
      let o := b.order idx
      let b := if qty > o.shares then b.count fun c => { c with overExecute := c.overExecute + 1 } else b
      let taken := taken qty o.shares
      let b := b.subShares o taken
      let b := b.setOrder idx { o with shares := o.shares - taken }
      if o.shares - taken = 0 then
        let b := b.count fun c => { c with removedAtZero := c.removedAtZero + 1 }
        (b.index.erase ref).map fun r => (true, ({ b with index := r.2 }.unlink idx).release idx)
      else some (true, b)

/-- The end of `add`: an order that the index refuses is taken out again. -/
def enter (b : FastBook P W) (idx : UInt32) (ref : Ref) (locate : UInt16) : Option (FastBook P W) :=
  (b.index.insert ref idx).map fun r =>
    let b := { b with index := r.2 }
    if r.1 then b.checkBbo locate
    else
      ((b.count fun c => { c with indexFailures := c.indexFailures + 1 }).unlink idx).release idx

/-- The start of `add`: a live order with the reference gives way. -/
def supersede (b : FastBook P W) (ref : Ref) : Option (FastBook P W) :=
  (b.index.find ref).bind fun found =>
    if found = kNoOrder then some b
    else ((b.count fun c => { c with duplicateAdd := c.duplicateAdd + 1 }).eraseRef ref).map Prod.snd

/-- The rest of `add`. -/
def addNew (b : FastBook P W) (locate : UInt16) (ref : Ref) (side : UInt8) (price : Price)
    (shares : Shares) : Option (FastBook P W) :=
  let a := b.alloc
  if a.1 = kNoOrder then some a.2
  else (a.2.link a.1 locate ref side price shares).enter a.1 ref locate

def add (b : FastBook P W) (locate : UInt16) (ref : Ref) (side : UInt8) (price : Price)
    (shares : Shares) : Option (FastBook P W) :=
  if locate.toNat ≥ b.cfg.maxSymbols then
    some (b.count fun c => { c with symbolOverflow := c.symbolOverflow + 1 })
  else (b.supersede ref).bind fun b => b.addNew locate ref side price shares

/-! ## The handler -/

/-- What is counted when the operation finds no order. -/
def countUnless (r : Bool × FastBook P W) (f : FastCounters → FastCounters) : FastBook P W :=
  if r.1 then r.2 else r.2.count f

def onOrderReplace (b : FastBook P W) (v : OrderReplace) : Option (FastBook P W) :=
  (b.index.find v.oldOrderRef).bind fun idx =>
    if idx = kNoOrder then some (b.count fun c => { c with orphanReplace := c.orphanReplace + 1 })
    else
      let o := b.order idx
      (b.eraseRef v.oldOrderRef).bind fun r =>
        (r.2.add o.locate v.newOrderRef o.side v.price v.shares).map fun b => b.checkBbo o.locate

def on (b : FastBook P W) : Message → Option (FastBook P W)
  | .systemEvent v => some (if v.eventCode = 69 then { b with afterHours := true } else b)
  | .stockTradingAction _ => some b
  | .operationalHalt _ => some b
  | .stockDirectory _ => some b
  | .addOrder v => b.tick.add v.locate v.orderRef v.side v.price v.shares
  | .addOrderMpid v => b.tick.add v.locate v.orderRef v.side v.price v.shares
  | .orderExecuted v =>
    (b.tick.reduce v.orderRef v.executedShares).map fun r =>
      (countUnless r fun c => { c with orphanExecute := c.orphanExecute + 1 }).checkBbo v.locate
  | .orderExecutedPrice v =>
    (b.tick.reduce v.orderRef v.executedShares).map fun r =>
      (countUnless r fun c => { c with orphanExecutePrice := c.orphanExecutePrice + 1 }).checkBbo v.locate
  | .orderCancel v =>
    (b.tick.reduce v.orderRef v.cancelledShares).map fun r =>
      (countUnless r fun c => { c with orphanCancel := c.orphanCancel + 1 }).checkBbo v.locate
  | .orderDelete v =>
    (b.tick.eraseRef v.orderRef).map fun r =>
      (countUnless r fun c => { c with orphanDelete := c.orphanDelete + 1 }).checkBbo v.locate
  | .orderReplace v => b.tick.onOrderReplace v
  | .trade _ => some b.tick
  | .brokenTrade _ => some b.tick
  | .crossTrade v =>
    some (if v.shares = 0 then b.tick.count fun c => { c with zeroShareCross := c.zeroShareCross + 1 }
      else b.tick)

/-- One message, for a book that may not have returned. -/
def step (b : Option (FastBook P W)) (m : Message) : Option (FastBook P W) := b.bind fun b => b.on m

/-- The book after some messages. -/
def run (P : HashPolicy) (W : Window) (cfg : FastBookConfig) (ms : List Message) :
    Option (FastBook P W) := Runs.run step (new P W cfg) ms

/-! ## Queries -/

def liveOrders (b : FastBook P W) : ℕ := b.index.size

def hasBid (b : FastBook P W) (locate : UInt16) : Bool := (b.best locate kBuy).isSome

def hasAsk (b : FastBook P W) (locate : UInt16) : Bool := (b.best locate kSell).isSome

def bestBid (b : FastBook P W) (locate : UInt16) : Price := (b.best locate kBuy).getD 0

def bestAsk (b : FastBook P W) (locate : UInt16) : Price := (b.best locate kSell).getD 0

def depthAt (b : FastBook P W) (locate : UInt16) (side : UInt8) (price : Price) : Depth :=
  if locate.toNat ≥ b.cfg.maxSymbols then {}
  else
    match (b.side locate side).findLevel W price with
    | none => {}
    | some lvl =>
      if lvl.orders = 0 then {} else { present := true, shares := lvl.shares, orders := lvl.orders }

/-- The slots from `i` on; there are no more than `2 ^ 32` to visit. -/
def walkFrom (b : FastBook P W) (i : UInt32) : Option (List UInt32) :=
  IntrusiveList.walk (fun i => (b.order i).next) kNoOrder (2 ^ 32) i

def level (b : FastBook P W) (locate : UInt16) (side : UInt8) (price : Price) :
    Option LevelSnapshot :=
  if locate.toNat ≥ b.cfg.maxSymbols then some {}
  else
    match (b.side locate side).findLevel W price with
    | none => some {}
    | some lvl =>
      if lvl.orders = 0 then some {}
      else
        (b.walkFrom lvl.head).map fun slots =>
          { present := true, shares := lvl.shares, orders := lvl.orders,
            fifo := slots.map fun i => b.refs i.toNat }

/-- The variables of the loop of `walk_level`. -/
structure Walk where
  bad : ℕ := 0
  sum : UInt64 := 0
  n : UInt32 := 0
  prev : UInt32 := kNoOrder

def walkLoop (b : FastBook P W) (orders : UInt32) : ℕ → UInt32 → Walk → Option Walk
  | 0, _, _ => none
  | fuel + 1, i, w =>
    if i = kNoOrder then some w
    else
      let o := b.order i
      let w : Walk :=
        { bad := w.bad + (if o.prev ≠ w.prev then 1 else 0) + (if o.shares = 0 then 1 else 0)
          sum := w.sum + o.shares.toUInt64
          n := w.n + 1
          prev := i }
      if w.n > orders then some w else walkLoop b orders fuel o.next w

def walkLevel (b : FastBook P W) (lvl : FastLevel) : Option ℕ :=
  (b.walkLoop lvl.orders (2 ^ 32) lvl.head {}).map fun w =>
    w.bad + (if w.prev ≠ lvl.tail then 1 else 0) + (if w.n ≠ lvl.orders then 1 else 0) +
      (if w.sum ≠ lvl.shares then 1 else 0)

/-- The violations on one side: those of its slots, then those of the map. -/
def checkSide (b : FastBook P W) (s : FastSide) : Option ℕ :=
  (((List.range (if s.allocated then W.ticks else 0)).mapM fun i =>
    (b.walkLevel (s.levels i)).map fun bad =>
      (if s.occupied.mem i ≠ decide ((s.levels i).orders ≠ 0) then 1 else 0) + bad).map List.sum).bind
    fun flat =>
      ((s.overflow.toList.mapM fun x =>
        (b.walkLevel x.2).map fun bad => (if x.2.orders = 0 then 1 else 0) + bad).map List.sum).map
        fun beyond => flat + beyond

def checkInvariants (b : FastBook P W) : Option ℕ :=
  ((List.range b.cfg.maxSymbols).mapM fun locate =>
    (b.checkSide (b.symbols locate).bid).bind fun bid =>
      (b.checkSide (b.symbols locate).ask).map fun ask => bid + ask).map List.sum

end FastBook

end Carteret
