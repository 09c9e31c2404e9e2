import Carteret.FastRefines
import Carteret.FeatureRows
import Carteret.QueueBook

/-!
# What the exporter is fed

1. `Feed`: what a message is to the exporter once the book has been asked. The exporter is its book beside a machine
   on feeds (`rest_run`).
2. `Inside.Shows`: what is read of a symbol is what its live orders show, and nothing else
   (`Inside.Shows.unique`, `Inside.Shows.congr`).
-/

namespace Carteret

open QueueSim (tsOf)

/-! ## Feeds -/

inductive Feed
  | skip
  | count
  | action (locate : UInt16) (halted : Bool)
  | touch (locate : UInt16) (ts : UInt64) (now : Inside) (signedExec totalExec : ℚ)

/-- What the message is; `b` is the book before it. -/
def feedOf (b : ReferenceBook) (msg : Message) : Feed :=
  let read (h : Header) (signedExec totalExec : ℚ) : Feed :=
    .touch h.locate (tsOf h) (Inside.read (bookAfter b msg) h.locate) signedExec totalExec
  match msg with
  | .systemEvent _ => .count
  | .stockDirectory _ => .count
  | .operationalHalt _ => .skip
  | .stockTradingAction v => .action v.locate (FeatureExporter.isHalt v.tradingState)
  | .addOrder v => read v.toHeader 0 0
  | .addOrderMpid v => read v.toHeader 0 0
  | .orderCancel v => read v.toHeader 0 0
  | .orderDelete v => read v.toHeader 0 0
  | .orderReplace v => read v.toHeader 0 0
  | .orderExecuted v =>
    read v.toHeader (FeatureExporter.signedQty b v.orderRef v.executedShares) v.executedShares.toNat
  | .orderExecutedPrice v =>
    read v.toHeader (FeatureExporter.signedQty b v.orderRef v.executedShares) v.executedShares.toNat
  | .trade v => read v.toHeader 0 0
  | .crossTrade v => read v.toHeader 0 0
  | .brokenTrade v => read v 0 0

/-- The feeds of a session, from the book `b`. -/
def feeds : ReferenceBook → List Message → List Feed
  | _, [] => []
  | b, msg :: ms => feedOf b msg :: feeds (bookAfter b msg) ms

namespace FeatureExporter

variable (ex : FeatureExporter)

/-- `touch` on the inside that was read. -/
def touchWith (now : Inside) (locate : UInt16) (ts : UInt64) (signedExec totalExec : ℚ) : FeatureExporter :=
  if locate ∉ ex.selected then ex
  else
    let s := ex.state locate
    if s.updates now then
      if (s.observed now ts signedExec totalExec).win.updates ≥ ex.window then
        ex.closeWindow locate (s.observed now ts signedExec totalExec) now s.prev ts
      else ex.setState locate (s.observed now ts signedExec totalExec)
    else ex.setState locate (s.read now signedExec totalExec)

def take : Feed → FeatureExporter
  | .skip => ex
  | .count => ex.count
  | .action locate halted => ex.count.setState locate ((ex.state locate).acted halted)
  | .touch locate ts now signedExec totalExec => ex.count.touchWith now locate ts signedExec totalExec

/-- Everything but the book. -/
def rest : FeatureExporter := { ex with book := {} }

theorem touch_eq_with (locate : UInt16) (ts : UInt64) (signedExec totalExec : ℚ) :
    ex.touch locate ts signedExec totalExec =
      ex.touchWith (ex.readInside locate) locate ts signedExec totalExec := by
  by_cases h : locate ∈ ex.selected
  · exact (touch_eq h).trans (if_neg (not_not.mpr h)).symm
  · exact (if_pos h : ex.touch locate ts signedExec totalExec = ex).trans (if_pos h).symm

theorem rest_judge (locate : UInt16) (s : SymbolState) (now : Inside) (ts : UInt64) :
    (ex.judge locate s now ts).rest = ex.rest.judge locate s now ts := by
  unfold judge
  rw [apply_ite rest, apply_ite rest, apply_ite rest]
  rfl

theorem rest_closeWindow (locate : UInt16) (s : SymbolState) (now before : Inside) (ts : UInt64) :
    (ex.closeWindow locate s now before ts).rest = ex.rest.closeWindow locate s now before ts := by
  unfold closeWindow
  dsimp only
  rw [← rest_judge]
  rfl

/-- The book is asked for the inside only. -/
theorem rest_touchWith (now : Inside) (locate : UInt16) (ts : UInt64) (signedExec totalExec : ℚ) :
    (ex.touchWith now locate ts signedExec totalExec).rest =
      ex.rest.touchWith now locate ts signedExec totalExec := by
  unfold touchWith
  dsimp only
  rw [apply_ite rest, apply_ite rest, apply_ite rest, rest_closeWindow]
  rfl

/-- **One message** goes to the book and is a feed to the rest. -/
theorem rest_on (msg : Message) : (ex.on msg).rest = ex.rest.take (feedOf ex.book msg) := by
  have htouch : ∀ (ex' : FeatureExporter) (l : UInt16) (ts : UInt64) (signedExec totalExec : ℚ),
      (ex'.touch l ts signedExec totalExec).rest =
        ex'.rest.touchWith (Inside.read ex'.book l) l ts signedExec totalExec := fun ex' l ts se te => by
    rw [touch_eq_with, rest_touchWith]
    rfl
  cases msg with
  | systemEvent v => rfl
  | stockDirectory v => rfl
  | operationalHalt v => rfl
  | stockTradingAction v => rfl
  | _ => exact htouch _ _ _ _ _

theorem book_on (msg : Message) : (ex.on msg).book = bookAfter ex.book msg := (sameSetting_on ex msg).book

/-- **A run** of the exporter is the run of the book, and a run on the feeds. -/
theorem rest_run : ∀ (ms : List Message) (ex : FeatureExporter),
    (Runs.run on ex ms).rest = Runs.run take ex.rest (feeds ex.book ms)
  | [], _ => rfl
  | msg :: ms, ex => by
    rw [Runs.run_cons, rest_run ms, rest_on, book_on]
    rfl

end FeatureExporter

/-! ## What is read of an inside -/

namespace Inside

/-- What the live orders show of a symbol: both best prices with what rests there, or nothing. -/
structure Shows (A : Book) (locate : UInt16) (i : Inside) : Prop where
  sides : i.valid = true ↔ (∃ p, A.IsBest locate true p) ∧ ∃ p, A.IsBest locate false p
  bid : i.valid = true → A.IsBest locate true i.bid ∧ i.bidQty = Book.sumShares (A.level locate true i.bid)
  ask : i.valid = true → A.IsBest locate false i.ask ∧ i.askQty = Book.sumShares (A.level locate false i.ask)
  nothing : i.valid = false → i = {}

end Inside

section

variable {b : ReferenceBook} {A A' : Book} {locate : UInt16} {i j : Inside}

theorem Book.IsBest.unique {buy : Bool} {p q : Price} (hp : A.IsBest locate buy p) (hq : A.IsBest locate buy q) :
    p = q := by
  obtain ⟨⟨e, he, hl, hb, rfl⟩, hall⟩ := hp
  obtain ⟨⟨f, hf, hl', hb', rfl⟩, hall'⟩ := hq
  have hle := hall f hf hl' hb'
  have hge := hall' e he hl hb
  cases buy
  · exact UInt32.le_antisymm hle hge
  · exact UInt32.le_antisymm hge hle

/-- The best price has something at it and nothing beyond it. -/
theorem Book.isBest_iff_level {buy : Bool} {p : Price} : A.IsBest locate buy p ↔
    A.level locate buy p ≠ [] ∧ ∀ q, A.level locate buy q ≠ [] → if buy then q ≤ p else p ≤ q := by
  unfold IsBest
  refine and_congr level_ne_nil_iff.symm ⟨fun hall q hq => ?_, fun hall e he hl hb => ?_⟩
  · obtain ⟨e, he, hl, hb, rfl⟩ := level_ne_nil_iff.mp hq
    exact hall e he hl hb
  · exact hall e.price (level_ne_nil_iff.mpr ⟨e, he, hl, hb, rfl⟩)

namespace Inside

theorem Shows.unique (hi : Shows A locate i) (hj : Shows A locate j) : i = j := by
  have hvalid : i.valid = j.valid := Bool.eq_iff_iff.mpr (hi.sides.trans hj.sides.symm)
  cases hv : i.valid with
  | false => rw [hi.nothing hv, hj.nothing (hvalid ▸ hv)]
  | true =>
    have hv' : j.valid = true := hvalid ▸ hv
    have hbid : i.bid = j.bid := (hi.bid hv).1.unique (hj.bid hv').1
    have hask : i.ask = j.ask := (hi.ask hv).1.unique (hj.ask hv').1
    have hbidQty : i.bidQty = j.bidQty := by rw [(hi.bid hv).2, (hj.bid hv').2, hbid]
    have haskQty : i.askQty = j.askQty := by rw [(hi.ask hv).2, (hj.ask hv').2, hask]
    cases i
    cases j
    simp_all

theorem sumShares_congr {es fs : List Entry} (h : es.map Entry.shares = fs.map Entry.shares) :
    Book.sumShares es = Book.sumShares fs := by
  have hcomp : ∀ xs : List Entry, Book.sumShares xs = ((xs.map Entry.shares).map UInt32.toUInt64).sum := fun xs => by
    rw [List.map_map]
    rfl
  rw [hcomp, hcomp, h]

theorem shows_nothing (h : ¬ ((∃ p, A.IsBest locate true p) ∧ ∃ p, A.IsBest locate false p)) :
    Shows A locate {} :=
  ⟨iff_of_false Bool.false_ne_true h, fun hv => absurd hv Bool.false_ne_true,
    fun hv => absurd hv Bool.false_ne_true, fun _ => rfl⟩

/-- The shares at the levels of a symbol are all that matters. -/
theorem Shows.congr (hi : Shows A locate i)
    (h : ∀ buy p, (A'.level locate buy p).map Entry.shares = (A.level locate buy p).map Entry.shares) :
    Shows A' locate i := by
  have hnil : ∀ buy p, A'.level locate buy p ≠ [] ↔ A.level locate buy p ≠ [] := fun buy p => by
    rw [ne_eq, ne_eq, ← List.map_eq_nil_iff, h, List.map_eq_nil_iff]
  have hbest : ∀ buy p, A'.IsBest locate buy p ↔ A.IsBest locate buy p := fun buy p => by
    simp only [Book.isBest_iff_level, hnil]
  have hsum : ∀ buy p, Book.sumShares (A'.level locate buy p) = Book.sumShares (A.level locate buy p) :=
    fun buy p => sumShares_congr (h buy p)
  refine ⟨?_, fun hv => ?_, fun hv => ?_, hi.nothing⟩
  · simp only [hbest]
    exact hi.sides
  · rw [hbest, hsum]
    exact hi.bid hv
  · rw [hbest, hsum]
    exact hi.ask hv

end Inside

/-- **What is read is what the orders show.** -/
theorem ReferenceBook.Represents.shows (h : b.Represents A) (locate : UInt16) :
    Inside.Shows A locate (Inside.read b locate) := by
  have hbid := fun p => (h.best_query locate p).1
  have hask := fun p => (h.best_query locate p).2
  have hdepth := h.depth_shares locate
  unfold Inside.read
  cases hs : b.symbol locate with
  | none =>
    have hno : ∀ p, ¬ A.IsBest locate true p := fun p hp => by
      rw [← hbid, hs] at hp
      cases hp
    exact Inside.shows_nothing fun h => h.1.elim hno
  | some s =>
    simp only [hs, Option.bind_some] at hbid hask
    dsimp only
    rw [FastBook.isSome_bestBid, FastBook.isSome_bestAsk]
    cases hb : s.bestBid with
    | none =>
      refine Inside.shows_nothing fun h => h.1.elim fun p hp => ?_
      rw [← hbid, hb] at hp
      cases hp
    | some bid =>
      cases ha : s.bestAsk with
      | none =>
        refine Inside.shows_nothing fun h => h.2.elim fun p hp => ?_
        rw [← hask, ha] at hp
        cases hp
      | some ask =>
        have hbest := (hbid bid).mp hb
        have hbest' := (hask ask).mp ha
        exact ⟨iff_of_true rfl ⟨⟨bid, hbest⟩, ask, hbest'⟩, fun _ => ⟨hbest, hdepth kBuy bid⟩,
          fun _ => ⟨hbest', hdepth kSell ask⟩, fun hv => absurd hv Bool.noConfusion⟩

end

end Carteret
