import Carteret.Features
import Carteret.QueueOrders

/-!
# The registered windows

What the features are, read off the messages of one symbol and nothing else.

1. The formulas as they were registered (`Registered`), each with the exporter's expression that it equals.
2. A symbol's events: its trading actions and the messages after which its inside is read.
3. An event comes with what went before it (`Mark`): the inside at the previous touch, the number of updates of
   the inside, whether the symbol was halted. The event belongs to the window that its number falls in.
4. The features of a window are sums and last values over its events (`Windows.features`), and a row is written
   for two windows that follow each other, are closed and are usable (`Windows.rows`).
-/

namespace Carteret

/-! ## The registered formulas -/

namespace Registered

variable (x y : Inside)

def mid : ℚ := ((x.bid.toNat : ℚ) + (x.ask.toNat : ℚ)) / 2

def spread : ℚ := (x.ask.toNat : ℚ) - (x.bid.toNat : ℚ)

/-- The sizes are 64-bit numbers, and so is their sum. -/
def size : ℚ := ((x.bidQty + x.askQty).toNat : ℚ)

def depth : ℚ := ((x.bidQty.toNat : ℚ) + (x.askQty.toNat : ℚ)) / 2

def queueImbalance : ℚ := ((x.bidQty.toNat : ℚ) - (x.askQty.toNat : ℚ)) / size x

/-- Each price is weighted with the size of the other side. -/
def microPrice : ℚ :=
  if size x = 0 then mid x
  else ((x.askQty.toNat : ℚ) * (x.bid.toNat : ℚ) + (x.bidQty.toNat : ℚ) * (x.ask.toNat : ℚ)) / size x

def indicator (p : Prop) [Decidable p] : ℚ := if p then 1 else 0

/-- The order flow `e_n` of an update from the inside `x` to the inside `y`. -/
def orderFlow : ℚ :=
  indicator (x.bid ≤ y.bid) * y.bidQty.toNat - indicator (y.bid ≤ x.bid) * x.bidQty.toNat -
    indicator (y.ask ≤ x.ask) * y.askQty.toNat + indicator (x.ask ≤ y.ask) * x.askQty.toNat

/-- The sign of an execution, opposite to the resting order's side; no sign without an order. -/
def aggressor (b : ReferenceBook) (ref : Ref) : ℚ :=
  match b.order ref with
  | none => 0
  | some o => if o.side = kBuy then -1 else 1

theorem indicator_mul (p : Prop) [Decidable p] (q : ℚ) : indicator p * q = if p then q else 0 := by
  unfold indicator
  rw [ite_mul, one_mul, zero_mul]

theorem orderFlow_eq : orderFlow x y = y.flow x := by
  unfold orderFlow
  rw [indicator_mul, indicator_mul, indicator_mul, indicator_mul]
  rfl

theorem microPrice_eq : microPrice x = x.micro := by
  unfold microPrice Inside.micro
  have hsize : size x = x.qsum := rfl
  have hpos : 0 ≤ x.qsum := Nat.cast_nonneg _
  rw [hsize]
  by_cases hz : x.qsum = 0
  · rw [if_pos hz, if_neg hz.not_gt]
    rfl
  · rw [if_neg hz, if_pos (lt_of_le_of_ne hpos (Ne.symm hz))]

/-- The exporter skips a division that would be by zero. -/
theorem queueImbalance_eq : queueImbalance x = if decide (x.qsum > 0) = true then x.imbalance else 0 := by
  have hsame : queueImbalance x = x.imbalance := rfl
  rw [hsame]
  split
  · rfl
  · rename_i hz
    have hle : x.qsum ≤ 0 := not_lt.mp (by simpa using hz)
    have hzero : x.qsum = 0 := le_antisymm hle (Nat.cast_nonneg _)
    unfold Inside.imbalance
    rw [hzero, div_zero]

theorem aggressor_mul (b : ReferenceBook) (ref : Ref) (qty : Shares) :
    aggressor b ref * qty.toNat = FeatureExporter.signedQty b ref qty := by
  unfold aggressor FeatureExporter.signedQty
  cases b.order ref with
  | none => exact zero_mul _
  | some o =>
    dsimp only
    rw [ite_mul, neg_mul, one_mul]

end Registered

/-! ## The events of a symbol -/

/-- What a message is to its symbol. -/
inductive SymbolEvent
  | action (halted : Bool)
  | touch (ts : UInt64) (now : Inside) (signedExec totalExec : ℚ)

namespace SymbolEvent

open FeatureExporter QueueSim

/-- The symbol of a message that moves its window, and what is read of the message; `b` is the book before it. -/
def of (b : ReferenceBook) (locate : UInt16) (msg : Message) : Option SymbolEvent :=
  let read (h : Header) (signedExec totalExec : ℚ) : Option SymbolEvent :=
    if h.locate = locate then
      some (touch (tsOf h) (Inside.read (bookAfter b msg) locate) signedExec totalExec)
    else none
  match msg with
  | .stockTradingAction v => if v.locate = locate then some (action (isHalt v.tradingState)) else none
  | .addOrder v => read v.toHeader 0 0
  | .addOrderMpid v => read v.toHeader 0 0
  | .orderCancel v => read v.toHeader 0 0
  | .orderDelete v => read v.toHeader 0 0
  | .orderReplace v => read v.toHeader 0 0
  | .orderExecuted v =>
    read v.toHeader (Registered.aggressor b v.orderRef * v.executedShares.toNat) v.executedShares.toNat
  | .orderExecutedPrice v =>
    read v.toHeader (Registered.aggressor b v.orderRef * v.executedShares.toNat) v.executedShares.toNat
  | .trade v => read v.toHeader 0 0
  | .crossTrade v => read v.toHeader 0 0
  | .brokenTrade v => read v 0 0
  | _ => none

/-- What the exporter reads of an execution. -/
theorem of_orderExecuted (b : ReferenceBook) (l : UInt16) (v : OrderExecuted) :
    of b l (.orderExecuted v) = if v.locate = l then
      some (touch (tsOf v.toHeader) (Inside.read (bookAfter b (.orderExecuted v)) l)
        (signedQty b v.orderRef v.executedShares) v.executedShares.toNat) else none := by
  rw [← Registered.aggressor_mul]
  rfl

theorem of_orderExecutedPrice (b : ReferenceBook) (l : UInt16) (v : OrderExecutedPrice) :
    of b l (.orderExecutedPrice v) = if v.locate = l then
      some (touch (tsOf v.toHeader) (Inside.read (bookAfter b (.orderExecutedPrice v)) l)
        (signedQty b v.orderRef v.executedShares) v.executedShares.toNat) else none := by
  rw [← Registered.aggressor_mul]
  rfl

end SymbolEvent

/-- The symbol's events in a stream of messages, from the book `b`. -/
def symbolEvents (locate : UInt16) : ReferenceBook → List Message → List SymbolEvent
  | _, [] => []
  | b, msg :: ms => (SymbolEvent.of b locate msg).toList ++ symbolEvents locate (bookAfter b msg) ms

theorem symbolEvents_snoc (locate : UInt16) (msg : Message) : ∀ (b : ReferenceBook) (ms : List Message),
    symbolEvents locate b (ms ++ [msg]) =
      symbolEvents locate b ms ++ (SymbolEvent.of (ms.foldl bookAfter b) locate msg).toList
  | b, [] => List.append_nil _
  | b, m :: ms => by
    show (SymbolEvent.of b locate m).toList ++ symbolEvents locate (bookAfter b m) (ms ++ [msg]) = _
    rw [symbolEvents_snoc locate msg, ← List.append_assoc]
    rfl

/-! ## Marks -/

/-- An event of the symbol and what went before it. -/
structure Mark where
  event : SymbolEvent
  before : Inside
  number : ℕ
  wasHalted : Bool

namespace Mark

/-- The event changes the inside of a book that is two-sided before and after it. -/
def isUpdate (m : Mark) : Bool :=
  match m.event with
  | .action _ => false
  | .touch _ now _ _ => now.valid && m.before.valid && !now.same m.before

def now (m : Mark) : Inside :=
  match m.event with
  | .action _ => m.before
  | .touch _ now _ _ => now

def ts (m : Mark) : UInt64 :=
  match m.event with
  | .action _ => 0
  | .touch ts _ _ _ => ts

def signedExec (m : Mark) : ℚ :=
  match m.event with
  | .action _ => 0
  | .touch _ _ signedExec _ => signedExec

def totalExec (m : Mark) : ℚ :=
  match m.event with
  | .action _ => 0
  | .touch _ _ _ totalExec => totalExec

def isAction (m : Mark) : Bool :=
  match m.event with
  | .action _ => true
  | .touch _ _ _ _ => false

/-- The symbol is halted after the event. -/
def isHalted (m : Mark) : Bool :=
  match m.event with
  | .action halted => halted
  | .touch _ _ _ _ => m.wasHalted

end Mark

/-- The events of a symbol, each with what went before it. -/
structure Windows where
  marks : List Mark := []

namespace Windows

def inside (W : Windows) : Inside := (W.marks.getLast?.map Mark.now).getD {}

def halted (W : Windows) : Bool := (W.marks.getLast?.map Mark.isHalted).getD false

def updates (W : Windows) : List Mark := W.marks.filter Mark.isUpdate

def next (W : Windows) (e : SymbolEvent) : Mark := ⟨e, W.inside, W.updates.length, W.halted⟩

def snoc (W : Windows) (e : SymbolEvent) : Windows := ⟨W.marks ++ [W.next e]⟩

def of (es : List SymbolEvent) : Windows := es.foldl snoc {}

theorem of_snoc (es : List SymbolEvent) (e : SymbolEvent) : of (es ++ [e]) = (of es).snoc e :=
  List.foldl_concat ..

/-! ## What a window holds -/

variable (W : Windows) (N : ℕ)

/-- The events behind the close of the window before `k`, up to the close of `k`. -/
def window (k : ℕ) : List Mark := W.marks.filter fun m => m.number / N = k

def updatesIn (k : ℕ) : List Mark := (W.window N k).filter Mark.isUpdate

/-- How many windows have closed. -/
def closed : ℕ := W.updates.length / N

/-- The inside at the last update of the window. -/
def last (k : ℕ) : Inside := ((W.updatesIn N k).getLast?.map Mark.now).getD {}

def startTs (k : ℕ) : UInt64 := ((W.updatesIn N k).head?.map Mark.ts).getD 0

def endTs (k : ℕ) : UInt64 := ((W.updatesIn N k).getLast?.map Mark.ts).getD 0

/-- A trading action falls into the window, or one of its updates while the symbol is halted. -/
def spoiled (k : ℕ) : Bool := (W.window N k).any fun m => m.isAction || m.isUpdate && m.wasHalted

def inBounds (k : ℕ) : Bool := decide (W.startTs N k ≥ kOpenNs) && decide (W.endTs N k < kCloseNs)

def usable (k : ℕ) : Bool :=
  W.inBounds N k && !W.spoiled N k && decide (Registered.size (W.last N k) > 0) &&
    decide (Registered.spread (W.last N k) > 0)

/-- The mean depth of the inside over the updates. -/
def meanDepth (k : ℕ) : ℚ := ((W.updatesIn N k).map fun m => Registered.depth m.now).sum / N

/-- Order flow imbalance: the flow of the updates, in mean depths. -/
def ofi (k : ℕ) : ℚ :=
  if W.meanDepth N k > 0 then
    ((W.updatesIn N k).map fun m => Registered.orderFlow m.before m.now).sum / W.meanDepth N k
  else 0

def signedExec (k : ℕ) : ℚ := ((W.window N k).map Mark.signedExec).sum

def totalExec (k : ℕ) : ℚ := ((W.window N k).map Mark.totalExec).sum

/-- Signed over total executed shares. -/
def tradeSign (k : ℕ) : ℚ :=
  if W.totalExec N k > 0 then W.signedExec N k / W.totalExec N k else 0

/-- The change of the middle over the next window. -/
def label (k : ℕ) : ℚ := Registered.mid (W.last N (k + 1)) - Registered.mid (W.last N k)

/-- What is held of a closed window. -/
def features (k : ℕ) : Pending where
  held := W.usable N k
  ofi := W.ofi N k
  queueImbalance := Registered.queueImbalance (W.last N k)
  tradeSign := W.tradeSign N k
  microDev := (Registered.microPrice (W.last N k) - Registered.mid (W.last N k)) / 100
  mid := Registered.mid (W.last N k)
  spread := Registered.spread (W.last N k)
  endTs := W.endTs N k
  updates := UInt32.ofNat N

/-- The closed windows that are usable and followed by a closed window. -/
def judged : List ℕ := (List.range (W.closed N - 1)).filter fun k => W.usable N k

/-- The row of a window. A tick is a hundred units of the price, and ten thousand are a dollar. -/
def row (locate : UInt16) (k : ℕ) : FeatureRow where
  locate := locate
  windowEndTs := W.endTs N k
  updates := UInt32.ofNat N
  ofi := W.ofi N k
  queueImbalance := Registered.queueImbalance (W.last N k)
  microDevTicks := (Registered.microPrice (W.last N k) - Registered.mid (W.last N k)) / 100
  tradeSign := W.tradeSign N k
  mid := Registered.mid (W.last N k) / 10000
  spreadTicks := Registered.spread (W.last N k) / 100
  labelTicks := W.label N k / 100
  labelHalfspreads := W.label N k / (Registered.spread (W.last N k) / 2)

/-- The exporter writes it from what it holds and the next middle. -/
theorem row_eq (locate : UInt16) (k : ℕ) :
    W.row N locate k = (W.features N k).row locate (W.last N (k + 1)).mid := rfl

/-- The rows: for each window that is usable and followed by one that is usable, in order. -/
def rows (locate : UInt16) : List FeatureRow :=
  ((W.judged N).filter fun k => W.usable N (k + 1)).map (W.row N locate)

/-! ## One more event -/

variable {W N}

@[simp] theorem inside_snoc (e : SymbolEvent) : (W.snoc e).inside = (W.next e).now := by
  unfold inside snoc
  rw [List.getLast?_concat]
  rfl

@[simp] theorem halted_snoc (e : SymbolEvent) : (W.snoc e).halted = (W.next e).isHalted := by
  unfold halted snoc
  rw [List.getLast?_concat]
  rfl

theorem updates_snoc (e : SymbolEvent) :
    (W.snoc e).updates = W.updates ++ if (W.next e).isUpdate then [W.next e] else [] := by
  unfold updates snoc
  rw [List.filter_append, List.filter_singleton]
  cases (W.next e).isUpdate <;> rfl

/-- An event goes into the window that is open. -/
theorem window_snoc (e : SymbolEvent) (k : ℕ) :
    (W.snoc e).window N k = W.window N k ++ if W.closed N = k then [W.next e] else [] := by
  have hnumber : (W.next e).number / N = W.closed N := rfl
  unfold window snoc
  rw [List.filter_append, List.filter_singleton, hnumber]
  by_cases h : W.closed N = k <;> simp [h]

theorem updatesIn_snoc (e : SymbolEvent) (k : ℕ) :
    (W.snoc e).updatesIn N k =
      W.updatesIn N k ++ if W.closed N = k ∧ (W.next e).isUpdate = true then [W.next e] else [] := by
  unfold updatesIn
  rw [window_snoc, List.filter_append]
  by_cases h : W.closed N = k
  · rw [if_pos h, List.filter_singleton]
    cases (W.next e).isUpdate <;> simp [h]
  · simp [h]

/-- A window behind the open one stays as it is. -/
theorem window_snoc_of_ne {k : ℕ} (e : SymbolEvent) (h : W.closed N ≠ k) :
    (W.snoc e).window N k = W.window N k := by
  rw [window_snoc, if_neg h, List.append_nil]

/-- What is read of a window depends on its events. -/
theorem features_congr {W' : Windows} {k : ℕ} (h : W'.window N k = W.window N k) :
    W'.features N k = W.features N k ∧ W'.last N k = W.last N k ∧ W'.usable N k = W.usable N k := by
  have hupdates : W'.updatesIn N k = W.updatesIn N k := by
    unfold updatesIn
    rw [h]
  have hlast : W'.last N k = W.last N k := by
    unfold last
    rw [hupdates]
  have husable : W'.usable N k = W.usable N k := by
    unfold usable inBounds spoiled startTs endTs
    rw [hlast, h, hupdates]
  refine ⟨?_, hlast, husable⟩
  unfold features ofi meanDepth tradeSign signedExec totalExec endTs
  rw [husable, hlast, h, hupdates]

end Windows

end Carteret
