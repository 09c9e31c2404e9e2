import Carteret.Features

/-!
# The strategy

At each close of a window the strategy settles its quote of the symbol and places another one, on the side of
the queue imbalance. It drives the queue simulator and learns of fills by `on_fill`.

1. The data. `double` is ℚ, counts are natural numbers.
2. `on_fill`, `on_trading_action` and `after`.
3. The handlers, and the configuration that `main` builds.

`Quote.seq` numbers the order of the quote as the simulator does, and `Strategy.trace` keeps what has happened to
the quotes; neither is in the source and nothing in it reads them. `SymState.qi` and `have_signal` are written
nowhere and are left out.
-/

namespace Carteret

/-! ## The data -/

/-- Market category to tape. -/
def tapeOf (cat : UInt8) : UInt8 :=
  match cat with
  | 81 | 71 | 83 => 67
  | 78 => 65
  | 65 | 80 | 90 | 86 => 66
  | _ => 63

/-- `isOpen` is the source's `open`. -/
structure Quote where
  isOpen : Bool := false
  filled : Bool := false
  side : UInt8 := 0
  price : Price := 0
  midAtEntry : ℚ := 0
  spreadAtEntry : ℚ := 0
  seq : ℕ := 0

structure SymState where
  tape : UInt8 := 63
  prev : Inside := {}
  updates : UInt32 := 0
  halted : Bool := false
  winHalted : Bool := false
  winStartTs : UInt64 := 0
  quote : Quote := {}

structure Tally where
  quotes : ℕ := 0
  fills : ℕ := 0
  fillsTapeA : ℕ := 0
  fillsTapeB : ℕ := 0
  fillsTapeC : ℕ := 0
  fillsTapeX : ℕ := 0
  grossHalfspreads : ℚ := 0
  grossDollars : ℚ := 0
  sumSpreadDollars : ℚ := 0

/-- A window that has closed: what the strategy computes of it. -/
structure Closing where
  ts : UInt64
  usable : Bool
  mid : ℚ
  spread : ℚ
  qi : ℚ
  deriving DecidableEq

inductive QuoteEvent
  | closed (locate : UInt16) (w : Closing)
  | settled (locate : UInt16) (seq : ℕ) (filled : Bool)
  | posted (locate : UInt16) (seq : ℕ) (side : UInt8)
  deriving DecidableEq

structure Strategy where
  sim : QueueSim
  st : UInt16 → SymState := fun _ => {}
  selected : Finset UInt16
  window : UInt32
  tally : Tally := {}
  trace : List QuoteEvent := []

/-! ## The windows -/

namespace SymState

/-- A trading action. -/
def act (s : SymState) (tradingState : UInt8) : SymState :=
  { s with halted := FeatureExporter.isHalt tradingState, winHalted := true }

/-- An update of the inside enters the window. -/
def observe (s : SymState) (ts : UInt64) : SymState :=
  { s with
    winStartTs := if s.updates = 0 then ts else s.winStartTs
    updates := s.updates + 1
    winHalted := if s.halted then true else s.winHalted }

/-- The window that closes at `ts` with the inside `now`. -/
def closing (s : SymState) (now : Inside) (ts : UInt64) : Closing where
  ts := ts
  usable :=
    (decide (s.winStartTs ≥ kOpenNs) && decide (ts < kCloseNs)) && !s.winHalted && decide (now.qsum > 0) &&
      decide (now.spread > 0)
  mid := now.mid
  spread := now.spread
  qi := now.imbalance

end SymState

/-- The tally of a filled quote that is settled at the middle `mid`. -/
def Tally.settle (t : Tally) (tape : UInt8) (q : Quote) (mid : ℚ) : Tally :=
  let sgn : ℚ := if q.side = kBuy then 1 else -1
  let g := (mid - (q.price.toNat : ℚ)) * sgn
  { t with
    fills := t.fills + 1
    fillsTapeA := if tape = 65 then t.fillsTapeA + 1 else t.fillsTapeA
    fillsTapeB := if tape = 66 then t.fillsTapeB + 1 else t.fillsTapeB
    fillsTapeC := if tape = 67 then t.fillsTapeC + 1 else t.fillsTapeC
    fillsTapeX := if tape ≠ 65 ∧ tape ≠ 66 ∧ tape ≠ 67 then t.fillsTapeX + 1 else t.fillsTapeX
    grossDollars := t.grossDollars + g / 10000
    grossHalfspreads := t.grossHalfspreads + if q.spreadAtEntry > 0 then g / (q.spreadAtEntry / 2) else 0
    sumSpreadDollars := t.sumSpreadDollars + q.spreadAtEntry / 10000 }

namespace Strategy

def setSt (s : Strategy) (locate : UInt16) (x : SymState) : Strategy :=
  { s with st := Function.update s.st locate x }

/-- `on_fill`, as `main` installs it. -/
def onFill (s : Strategy) (c : FillCall) : Strategy :=
  if c.model ≠ .exact then s
  else
    let x := s.st c.order.locate
    if x.quote.isOpen then s.setSt c.order.locate { x with quote := { x.quote with filled := true } } else s

/-- A call of the simulator, which calls `on_fill`. -/
def drive (s : Strategy) (f : QueueSim → QueueSim) : Strategy :=
  let sim := f s.sim
  (sim.fills.drop s.sim.fills.length).foldl onFill { s with sim := sim }

/-- `read_inside` of `strategy_pnl`. -/
def readInside (s : Strategy) (locate : UInt16) : Inside := Inside.read s.sim.book locate

def note (s : Strategy) (e : QuoteEvent) : Strategy := { s with trace := s.trace ++ [e] }

def onTradingAction (s : Strategy) (locate : UInt16) (tradingState : UInt8) : Strategy :=
  s.setSt locate ((s.st locate).act tradingState)

/-- The quote of the last window: it exits at this middle. -/
def settle (s : Strategy) (locate : UInt16) (mid : ℚ) : Strategy :=
  let x := s.st locate
  if x.quote.isOpen then
    let s :=
      if x.quote.filled then { s with tally := s.tally.settle x.tape x.quote mid } else s
    let s := s.drive fun sim => sim.cancelSymbol locate
    (s.setSt locate { s.st locate with quote := {} }).note (.settled locate x.quote.seq x.quote.filled)
  else s

/-- The quote for the window just closed, on the signal's side. -/
def post (s : Strategy) (locate : UInt16) (now : Inside) (w : Closing) : Strategy :=
  if w.usable && decide (w.qi ≠ 0) then
    let side := if w.qi > 0 then kBuy else kSell
    let seq := s.sim.placements
    let s := s.drive fun sim => sim.placeDirected locate side w.ts
    let s := s.setSt locate { s.st locate with quote :=
      { (s.st locate).quote with
        isOpen := true
        side := side
        price := if side = kBuy then now.bid else now.ask
        midAtEntry := w.mid
        spreadAtEntry := w.spread
        seq := seq } }
    { s with tally := { s.tally with quotes := s.tally.quotes + 1 } }.note (.posted locate seq side)
  else s

def closeWindow (s : Strategy) (locate : UInt16) (now : Inside) (ts : UInt64) : Strategy :=
  let w := (s.st locate).closing now ts
  let s := ((s.note (.closed locate w)).settle locate w.mid).post locate now w
  s.setSt locate { s.st locate with updates := 0, winHalted := false }

/-- Called after the simulator has applied a message. -/
def after (s : Strategy) (locate : UInt16) (ts : UInt64) : Strategy :=
  if locate ∉ s.selected then s
  else
    let now := s.readInside locate
    let before := (s.st locate).prev
    let x := { s.st locate with prev := now }
    if !now.valid || !before.valid then s.setSt locate x
    else if now.same before then s.setSt locate x
    else
      let x := x.observe ts
      let s := s.setSt locate x
      if x.updates < s.window then s else s.closeWindow locate now ts

/-! ## The handlers -/

open QueueSim (tsOf)

/-- The simulator, then the strategy. -/
def see (s : Strategy) (msg : Message) (h : Header) : Strategy :=
  (s.drive fun sim => sim.on msg).after h.locate (tsOf h)

def on (s : Strategy) (msg : Message) : Strategy :=
  match msg with
  | .systemEvent _ => s.drive fun sim => sim.on msg
  | .stockDirectory v =>
    let s := s.drive fun sim => sim.on msg
    s.setSt v.locate { s.st v.locate with tape := tapeOf v.marketCategory }
  | .stockTradingAction v => s.onTradingAction v.locate v.tradingState
  | .addOrder v => s.see msg v.toHeader
  | .addOrderMpid v => s.see msg v.toHeader
  | .orderCancel v => s.see msg v.toHeader
  | .orderDelete v => s.see msg v.toHeader
  | .orderReplace v => s.see msg v.toHeader
  | .orderExecuted v => s.see msg v.toHeader
  | .orderExecutedPrice v => s.see msg v.toHeader
  | .trade v => s.see msg v.toHeader
  | .crossTrade v => s.see msg v.toHeader
  | .brokenTrade v => s.see msg v
  | .operationalHalt _ => s

/-! ## The start -/

/-- A strategy over a simulator, on the symbols `universe`. -/
def init (P : Platform) (cfg : QueueSimConfig) (selected : Finset UInt16) (window : UInt32) : Strategy :=
  { sim := QueueSim.init P cfg, selected := selected, window := window }

/-- The configuration that `main` builds: no timer, and no cancellation by the clock. -/
def config (eligible : List UInt16) (rule4 : Bool) : QueueSimConfig :=
  { eligible := eligible
    orderSize := 100
    rule4NonDisplayedFills := rule4
    timerPlacement := false
    maxLifeNs := 0xFFFFFFFFFFFFFFFF }

end Strategy

end Carteret
