import Carteret.QueueSim

/-!
# Feature export

One row for each window of `window` updates of the inside, written when the next window has closed.

1. The inside of a symbol, as `export_features` and `strategy_pnl` both read it.
2. The data. `double` is ℚ, counts are natural numbers; the output file is the list of the printed values, in
   the units in which they are printed, with the locate code for the symbol's name.
3. `touch` and `closeWindow`, and the handlers.

`FeatureExporter.closings` is not in the source: it keeps what has been held at each close.
-/

namespace Carteret

/-- 09:30:00 and 16:00:00. -/
def kOpenNs : UInt64 := 34200000000000

def kCloseNs : UInt64 := 57600000000000

/-! ## The inside -/

structure Inside where
  valid : Bool := false
  bid : Price := 0
  ask : Price := 0
  bidQty : UInt64 := 0
  askQty : UInt64 := 0
  deriving DecidableEq

namespace Inside

/-- What `read_inside` does, which each program has a copy of (`FeatureExporter.readInside`, `Strategy.readInside`). -/
def read (b : ReferenceBook) (locate : UInt16) : Inside :=
  match b.symbol locate with
  | none => {}
  | some s =>
    if !s.hasBid || !s.hasAsk then {}
    else
      let bid := s.bestBid.getD 0
      let ask := s.bestAsk.getD 0
      { valid := true
        bid := bid
        ask := ask
        bidQty := (b.depthAt locate kBuy bid).shares
        askQty := (b.depthAt locate kSell ask).shares }

/-- Best prices and their sizes are the same. -/
def same (now before : Inside) : Bool :=
  now.bid == before.bid && now.ask == before.ask && now.bidQty == before.bidQty && now.askQty == before.askQty

def mid (i : Inside) : ℚ := ((i.bid.toNat : ℚ) + (i.ask.toNat : ℚ)) / 2

def spread (i : Inside) : ℚ := (i.ask.toNat : ℚ) - (i.bid.toNat : ℚ)

/-- The sizes are added on 64 bits. -/
def qsum (i : Inside) : ℚ := ((i.bidQty + i.askQty).toNat : ℚ)

/-- `(bid_qty - ask_qty) / qsum`. -/
def imbalance (i : Inside) : ℚ := ((i.bidQty.toNat : ℚ) - (i.askQty.toNat : ℚ)) / i.qsum

/-- The order flow of an update, one term per side. -/
def flow (now before : Inside) : ℚ :=
  (if now.bid ≥ before.bid then (now.bidQty.toNat : ℚ) else 0) -
    (if now.bid ≤ before.bid then (before.bidQty.toNat : ℚ) else 0) -
    (if now.ask ≤ before.ask then (now.askQty.toNat : ℚ) else 0) +
    (if now.ask ≥ before.ask then (before.askQty.toNat : ℚ) else 0)

def depth (i : Inside) : ℚ := ((i.bidQty.toNat : ℚ) + (i.askQty.toNat : ℚ)) / 2

/-- The micro-price. -/
def micro (i : Inside) : ℚ :=
  if i.qsum > 0 then
    ((i.askQty.toNat : ℚ) * (i.bid.toNat : ℚ) + (i.bidQty.toNat : ℚ) * (i.ask.toNat : ℚ)) / i.qsum
  else i.mid

end Inside

/-! ## The data -/

structure FeatureWindow where
  updates : UInt32 := 0
  ofi : ℚ := 0
  depthSum : ℚ := 0
  signedExec : ℚ := 0
  totalExec : ℚ := 0
  startTs : UInt64 := 0
  halted : Bool := false
  lastE : ℚ := 0
  lastDepth : ℚ := 0
  deriving DecidableEq

/-- The features of a closed window; `held` is the source's `have`. -/
structure Pending where
  held : Bool := false
  ofi : ℚ := 0
  queueImbalance : ℚ := 0
  tradeSign : ℚ := 0
  microDev : ℚ := 0
  mid : ℚ := 0
  spread : ℚ := 0
  endTs : UInt64 := 0
  updates : UInt32 := 0
  closeMsg : ℕ := 0
  deriving DecidableEq

structure SymbolState where
  prev : Inside := {}
  win : FeatureWindow := {}
  pending : Pending := {}
  halted : Bool := false

/-- A line of the output file. -/
structure FeatureRow where
  locate : UInt16
  windowEndTs : UInt64
  updates : UInt32
  ofi : ℚ
  queueImbalance : ℚ
  microDevTicks : ℚ
  tradeSign : ℚ
  mid : ℚ
  spreadTicks : ℚ
  labelTicks : ℚ
  labelHalfspreads : ℚ
  deriving DecidableEq

/-- A line of the audit stream. -/
structure AuditRow where
  locate : UInt16
  featLastMsg : ℕ
  labelFirstMsg : ℕ
  labelLastMsg : ℕ
  deriving DecidableEq

structure FeatureExporter where
  book : ReferenceBook := {}
  auditing : Bool := false
  lag1 : Bool := false
  msgs : ℕ := 0
  state : UInt16 → SymbolState := fun _ => {}
  selected : Finset UInt16
  window : UInt32
  out : List FeatureRow := []
  audit : List AuditRow := []
  rows : ℕ := 0
  droppedHalt : ℕ := 0
  droppedBounds : ℕ := 0
  closings : List (UInt16 × Pending) := []

/-! ## Windows -/

namespace FeatureWindow

/-- An update of the inside enters the window. -/
def observe (w : FeatureWindow) (now before : Inside) (ts : UInt64) (halted : Bool) : FeatureWindow :=
  { w with
    ofi := w.ofi + now.flow before
    lastE := now.flow before
    depthSum := w.depthSum + now.depth
    lastDepth := now.depth
    startTs := if w.updates = 0 then ts else w.startTs
    updates := w.updates + 1
    halted := if halted then true else w.halted }

def inBounds (w : FeatureWindow) (ts : UInt64) : Bool := decide (w.startTs ≥ kOpenNs) && decide (ts < kCloseNs)

/-- The window that closes at `ts` with the inside `now` gives features and a label. -/
def usable (w : FeatureWindow) (now : Inside) (ts : UInt64) : Bool :=
  w.inBounds ts && !w.halted && decide (now.qsum > 0) && decide (now.spread > 0)

/-- The features of the window that closes at `ts`, with `lag1` from one message earlier. -/
def features (w : FeatureWindow) (lag1 : Bool) (now before : Inside) (ts : UInt64) (msgs : ℕ) : Pending :=
  let nupd := if lag1 then (if w.updates ≠ 0 then w.updates - 1 else 0) else w.updates
  let ofiSum := if lag1 then w.ofi - w.lastE else w.ofi
  let depthSum := if lag1 then w.depthSum - w.lastDepth else w.depthSum
  let meanDepth := if nupd ≠ 0 then depthSum / (nupd.toNat : ℚ) else 0
  let fs := if lag1 then before else now
  { held := w.usable now ts
    ofi := if meanDepth > 0 then ofiSum / meanDepth else 0
    queueImbalance := if fs.valid && decide (fs.qsum > 0) then fs.imbalance else 0
    microDev := (now.micro - now.mid) / 100
    tradeSign := if w.totalExec > 0 then w.signedExec / w.totalExec else 0
    mid := now.mid
    spread := now.spread
    endTs := ts
    updates := w.updates
    closeMsg := msgs }

end FeatureWindow

namespace Pending

/-- The line for the held window, when the next one has closed with the middle `mid`. -/
def row (p : Pending) (locate : UInt16) (mid : ℚ) : FeatureRow :=
  let label := mid - p.mid
  { locate := locate
    windowEndTs := p.endTs
    updates := p.updates
    ofi := p.ofi
    queueImbalance := p.queueImbalance
    microDevTicks := p.microDev
    tradeSign := p.tradeSign
    mid := p.mid / 10000
    spreadTicks := p.spread / 100
    labelTicks := label / 100
    labelHalfspreads := label / (p.spread / 2) }

end Pending

namespace FeatureExporter

def init (selected : Finset UInt16) (window : UInt32) (lag1 auditing : Bool) : FeatureExporter :=
  { selected := selected, window := window, lag1 := lag1, auditing := auditing }

def setState (ex : FeatureExporter) (locate : UInt16) (s : SymbolState) : FeatureExporter :=
  { ex with state := Function.update ex.state locate s }

/-- `read_inside` of `export_features`. -/
def readInside (ex : FeatureExporter) (locate : UInt16) : Inside := Inside.read ex.book locate

/-- What becomes of the held window when the next one closes: its line, or a count. -/
def judge (ex : FeatureExporter) (locate : UInt16) (s : SymbolState) (now : Inside) (ts : UInt64) :
    FeatureExporter :=
  if s.pending.held then
    if s.win.usable now ts then
      { ex with
        out := ex.out ++ [s.pending.row locate now.mid]
        audit :=
          if ex.auditing then ex.audit ++ [⟨locate, s.pending.closeMsg, s.pending.closeMsg + 1, ex.msgs⟩]
          else ex.audit
        rows := ex.rows + 1 }
    else if !s.win.inBounds ts then { ex with droppedBounds := ex.droppedBounds + 1 }
    else { ex with droppedHalt := ex.droppedHalt + 1 }
  else ex

def closeWindow (ex : FeatureExporter) (locate : UInt16) (s : SymbolState) (now before : Inside)
    (ts : UInt64) : FeatureExporter :=
  let p := s.win.features ex.lag1 now before ts ex.msgs
  { ex.judge locate s now ts with closings := ex.closings ++ [(locate, p)] }.setState locate
    { s with pending := p, win := {} }

def touch (ex : FeatureExporter) (locate : UInt16) (ts : UInt64) (signedExec totalExec : ℚ) :
    FeatureExporter :=
  if locate ∉ ex.selected then ex
  else
    let s := ex.state locate
    let w := { s.win with
      signedExec := s.win.signedExec + signedExec
      totalExec := s.win.totalExec + totalExec }
    let now := ex.readInside locate
    let before := s.prev
    let s := { s with win := w, prev := now }
    if !now.valid || !before.valid then ex.setState locate s
    else if now.same before then ex.setState locate s
    else
      let s := { s with win := s.win.observe now before ts s.halted }
      if s.win.updates ≥ ex.window then ex.closeWindow locate s now before ts else ex.setState locate s

/-! ## The handlers -/

def onBook (ex : FeatureExporter) (msg : Message) : FeatureExporter := { ex with book := ex.book.on msg }

/-- The signed size of an execution, by the side of the resting order: read before the book applies it. -/
def signedQty (b : ReferenceBook) (ref : Ref) (qty : Shares) : ℚ :=
  match b.order ref with
  | none => 0
  | some o => if o.side = kBuy then -(qty.toNat : ℚ) else (qty.toNat : ℚ)

def executed (ex : FeatureExporter) (locate : UInt16) (ref : Ref) (qty : Shares) (ts : UInt64)
    (msg : Message) : FeatureExporter :=
  (ex.onBook msg).touch locate ts (signedQty ex.book ref qty) (qty.toNat : ℚ)

/-- `state == 'H'`. -/
def isHalt (tradingState : UInt8) : Bool := tradingState == 72

def onStockTradingAction (ex : FeatureExporter) (v : StockTradingAction) : FeatureExporter :=
  let s := ex.state v.locate
  ex.setState v.locate { s with halted := isHalt v.tradingState, win := { s.win with halted := true } }

def count (ex : FeatureExporter) : FeatureExporter := { ex with msgs := ex.msgs + 1 }

open QueueSim (tsOf)

def on (ex : FeatureExporter) (msg : Message) : FeatureExporter :=
  match msg with
  | .systemEvent _ => ex.count.onBook msg
  | .stockDirectory _ => ex.count.onBook msg
  | .stockTradingAction v => ex.count.onStockTradingAction v
  | .addOrder v => (ex.count.onBook msg).touch v.locate (tsOf v.toHeader) 0 0
  | .addOrderMpid v => (ex.count.onBook msg).touch v.locate (tsOf v.toHeader) 0 0
  | .orderCancel v => (ex.count.onBook msg).touch v.locate (tsOf v.toHeader) 0 0
  | .orderDelete v => (ex.count.onBook msg).touch v.locate (tsOf v.toHeader) 0 0
  | .orderReplace v => (ex.count.onBook msg).touch v.locate (tsOf v.toHeader) 0 0
  | .orderExecuted v => ex.count.executed v.locate v.orderRef v.executedShares (tsOf v.toHeader) msg
  | .orderExecutedPrice v => ex.count.executed v.locate v.orderRef v.executedShares (tsOf v.toHeader) msg
  | .trade v => ex.count.touch v.locate (tsOf v.toHeader) 0 0
  | .crossTrade v => ex.count.touch v.locate (tsOf v.toHeader) 0 0
  | .brokenTrade v => ex.count.touch v.locate (tsOf v) 0 0
  | .operationalHalt _ => ex

end FeatureExporter

end Carteret
