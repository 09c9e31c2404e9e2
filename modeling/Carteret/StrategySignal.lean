import Carteret.FeatureRows
import Carteret.StrategySteps

/-!
# The strategy trades on the exported signal

The strategy and the exporter of features read the same messages, each against a book of its own.

1. The open windows of a symbol are in the same state in both (`Abreast`).
2. A message closes the same window in both or none, and what is computed at the close agrees (`Lockstep.on`).
3. So the quotes are on the sides of the exported queue imbalance (`quotes_on_signal`).
-/

namespace Carteret

/-! ## Closings and postings -/

namespace QuoteEvent

def closingOf : QuoteEvent → Option (UInt16 × Closing)
  | .closed l w => some (l, w)
  | _ => none

def postingOf : QuoteEvent → Option (UInt16 × UInt8)
  | .posted l _ side => some (l, side)
  | _ => none

end QuoteEvent

/-- The windows that the strategy has closed. -/
def Strategy.closings (s : Strategy) : List (UInt16 × Closing) := s.trace.filterMap QuoteEvent.closingOf

/-- The symbols and sides of the quotes that the strategy has posted. -/
def Strategy.postings (s : Strategy) : List (UInt16 × UInt8) := s.trace.filterMap QuoteEvent.postingOf

/-- The strategy and the exporter see the same in a window that closes. -/
structure Agrees (c : UInt16 × Closing) (p : UInt16 × Pending) : Prop where
  locate : c.1 = p.1
  ts : c.2.ts = p.2.endTs
  usable : c.2.usable = p.2.held
  mid : c.2.mid = p.2.mid
  spread : c.2.spread = p.2.spread
  signal : p.2.held = true → c.2.qi = p.2.queueImbalance

/-- The quote for an exported window: none, or on the side of its queue imbalance. -/
def quoteFor (p : UInt16 × Pending) : Option (UInt16 × UInt8) :=
  if p.2.held && decide (p.2.queueImbalance ≠ 0) then
    some (p.1, if p.2.queueImbalance > 0 then kBuy else kSell)
  else none

theorem Agrees.quoteFor {c : UInt16 × Closing} {p : UInt16 × Pending} (h : Agrees c p) :
    quoteFor p = (Strategy.sideOf c.2.usable c.2.qi).map fun side => (c.1, side) := by
  unfold Carteret.quoteFor Strategy.sideOf
  rw [h.usable, h.locate]
  cases hheld : p.2.held with
  | false => rfl
  | true =>
    rw [h.signal hheld]
    split <;> rfl

/-! ## The open window -/

/-- The open window of a symbol, in the strategy and in the exporter. -/
structure Abreast (x : SymState) (y : SymbolState) : Prop where
  prev : x.prev = y.prev
  updates : x.updates = y.win.updates
  halted : x.halted = y.halted
  winHalted : x.winHalted = y.win.halted
  start : x.updates ≠ 0 → x.winStartTs = y.win.startTs

namespace Abreast

variable {x x' : SymState} {y : SymbolState} {now : Inside} {ts : UInt64} {signedExec totalExec : ℚ}

/-- The quote does not matter. -/
theorem congr (h : Abreast x y) (hx : x'.sansQuote = x.sansQuote) : Abreast x' y where
  prev := (congrArg SymState.prev hx).trans h.prev
  updates := (congrArg SymState.updates hx).trans h.updates
  halted := (congrArg SymState.halted hx).trans h.halted
  winHalted := (congrArg SymState.winHalted hx).trans h.winHalted
  start := fun hne => (congrArg SymState.winStartTs hx).trans
    (h.start fun hzero => hne ((congrArg SymState.updates hx).trans hzero))

theorem act (h : Abreast x y) (tradingState : UInt8) : Abreast (x.act tradingState)
    { y with halted := FeatureExporter.isHalt tradingState, win := { y.win with halted := true } } :=
  ⟨h.prev, h.updates, rfl, rfl, h.start⟩

theorem read (h : Abreast x y) (now : Inside) (signedExec totalExec : ℚ) :
    Abreast { x with prev := now } (y.read now signedExec totalExec) :=
  ⟨rfl, h.updates, h.halted, h.winHalted, h.start⟩

theorem observe_start (h : Abreast x y) (now : Inside) (ts : UInt64) (signedExec totalExec : ℚ) :
    (SymState.observe { x with prev := now } ts).winStartTs =
      (y.observed now ts signedExec totalExec).win.startTs := by
  show (if x.updates = 0 then ts else x.winStartTs) = if y.win.updates = 0 then ts else y.win.startTs
  rw [← h.updates]
  split
  · rfl
  · rename_i hne
    exact h.start hne

theorem observe (h : Abreast x y) (now : Inside) (ts : UInt64) (signedExec totalExec : ℚ) :
    Abreast (SymState.observe { x with prev := now } ts) (y.observed now ts signedExec totalExec) where
  prev := rfl
  updates := congrArg (· + 1) h.updates
  halted := h.halted
  winHalted := by
    show (if x.halted then true else x.winHalted) = if y.halted then true else y.win.halted
    rw [h.halted, h.winHalted]
  start := fun _ => h.observe_start now ts signedExec totalExec

/-- Both start an empty window. -/
theorem reset (h : Abreast x y) (p : Pending) :
    Abreast { x with updates := 0, winHalted := false } { y with pending := p, win := {} } :=
  ⟨h.prev, rfl, h.halted, rfl, fun hne => absurd rfl hne⟩

/-- **At a close** the strategy and the exporter compute the same. -/
theorem closing (h : Abreast x y) (hstart : x.winStartTs = y.win.startTs) (hvalid : now.valid = true) (locate : UInt16)
    (before : Inside) (ts : UInt64) (msgs : ℕ) :
    Agrees (locate, x.closing now ts) (locate, y.win.features false now before ts msgs) where
  locate := rfl
  ts := rfl
  usable := by
    show (_ && !x.winHalted && _ && _) = y.win.usable now ts
    unfold FeatureWindow.usable FeatureWindow.inBounds
    rw [hstart, h.winHalted]
  mid := rfl
  spread := rfl
  signal := fun hheld => by
    have hq : decide (now.qsum > 0) = true := by
      have husable : y.win.usable now ts = true := hheld
      unfold FeatureWindow.usable at husable
      simp only [Bool.and_eq_true] at husable
      exact husable.1.2
    show now.imbalance = if now.valid && decide (now.qsum > 0) then now.imbalance else 0
    rw [hvalid, hq]
    rfl

end Abreast

/-! ## Strategy and exporter -/

/-- Both have seen the same messages and closed the same windows. -/
structure Lockstep (s : Strategy) (ex : FeatureExporter) : Prop where
  book : s.sim.book = ex.book
  selected : s.selected = ex.selected
  window : s.window = ex.window
  lag1 : ex.lag1 = false
  state : ∀ l, Abreast (s.st l) (ex.state l)
  closings : List.Forall₂ Agrees s.closings ex.closings
  postings : s.postings = ex.closings.filterMap quoteFor
  quotes : s.tally.quotes = s.postings.length

section

variable {s t : Strategy} {ex : FeatureExporter} {locate : UInt16} {ts : UInt64}

/-- What leaves the windows alone and nothing to the trace. -/
theorem Lockstep.congr (h : Lockstep s ex) (hst : Strategy.SameWindows s t) (htrace : t.trace = s.trace)
    (hquotes : t.tally.quotes = s.tally.quotes) : Lockstep t ex where
  book := hst.book.trans h.book
  selected := hst.selected.trans h.selected
  window := hst.window.trans h.window
  lag1 := h.lag1
  state := fun l => (h.state l).congr (hst.st l)
  closings := by
    unfold Strategy.closings
    rw [htrace]
    exact h.closings
  postings := by
    unfold Strategy.postings
    rw [htrace]
    exact h.postings
  quotes := by
    unfold Strategy.postings
    rw [hquotes, htrace]
    exact h.quotes

/-- A message goes to both books. -/
theorem Lockstep.drive (h : Lockstep s ex) (msg : Message) (n : ℕ) :
    Lockstep (s.drive fun sim => sim.on msg) { ex with msgs := n, book := bookAfter ex.book msg } := by
  have hst (l : UInt16) : ((s.drive fun sim => sim.on msg).st l).sansQuote = (s.st l).sansQuote := by
    rw [Strategy.drive_eq]
    exact SymState.sansQuote_told _ _
  have hbook : (s.drive fun sim => sim.on msg).sim.book = bookAfter ex.book msg := by
    rw [Strategy.drive_eq]
    exact (QueueSim.on_book s.sim msg).trans (by rw [h.book])
  refine ⟨hbook, ?_, ?_, h.lag1, fun l => (h.state l).congr (hst l), ?_, ?_, ?_⟩
  · rw [Strategy.drive_eq]
    exact h.selected
  · rw [Strategy.drive_eq]
    exact h.window
  · rw [Strategy.drive_eq]
    exact h.closings
  · rw [Strategy.drive_eq]
    exact h.postings
  · rw [Strategy.drive_eq]
    exact h.quotes

/-- Both write the state of one symbol. -/
theorem Lockstep.setSt (h : Lockstep s ex) {x : SymState} {y : SymbolState} (hxy : Abreast x y) :
    Lockstep (s.setSt locate x) (ex.setState locate y) := by
  refine ⟨h.book, h.selected, h.window, h.lag1, fun l => ?_, h.closings, h.postings, h.quotes⟩
  rw [Strategy.setSt_st, FeatureExporter.setState_state]
  split
  · exact hxy
  · exact h.state l

/-- **A close.** -/
theorem Lockstep.close {y : SymbolState} (h : Lockstep s (ex.setState locate y)) {now : Inside}
    (hstart : (s.st locate).winStartTs = y.win.startTs) (hvalid : now.valid = true) (before : Inside)
    (ts : UInt64) :
    Lockstep (s.closeWindow locate now ts) (ex.closeWindow locate y now before ts) := by
  have hstates (l : UInt16) : Abreast (s.st l) (if l = locate then y else ex.state l) := by
    rw [← FeatureExporter.setState_state]
    exact h.state l
  have hy : Abreast (s.st locate) y := by
    have hlocate := hstates locate
    rw [if_pos rfl] at hlocate
    exact hlocate
  have hagrees := hy.closing hstart hvalid locate before ts ex.msgs
  set w := (s.st locate).closing now ts with hw
  set p := y.win.features false now before ts ex.msgs with hp
  set s₁ := (s.note (.closed locate w)).settle locate w.mid with hs₁
  set s₂ := s₁.post locate now w with hs₂
  have hnote : Strategy.SameWindows s (s.note (.closed locate w)) := ⟨rfl, rfl, rfl, fun _ => rfl⟩
  have hsame : Strategy.SameWindows s s₂ :=
    (hnote.trans (Strategy.sameWindows_settle _ locate w.mid)).trans (Strategy.sameWindows_post _ locate now w)
  have htrace : ∃ es : List QuoteEvent, es.filterMap QuoteEvent.closingOf = [] ∧
      es.filterMap QuoteEvent.postingOf = [] ∧ s₂.trace = s.trace ++ [.closed locate w] ++ es ++
        ((Strategy.sideOf w.usable w.qi).map fun side => .posted locate s₁.sim.placements side).toList := by
    refine ⟨if (s.st locate).quote.isOpen then
      [.settled locate (s.st locate).quote.seq (s.st locate).quote.filled] else [], ?_, ?_, ?_⟩
    · split <;> rfl
    · split <;> rfl
    · rw [hs₂, Strategy.post_trace, hs₁, Strategy.settle_trace]
      rfl
  obtain ⟨es, hclosing, hposting, htrace⟩ := htrace
  have hclosings : s₂.closings = s.closings ++ [(locate, w)] := by
    unfold Strategy.closings
    rw [htrace]
    simp only [List.filterMap_append, hclosing]
    cases Strategy.sideOf w.usable w.qi <;> simp [QuoteEvent.closingOf]
  have hpostings : s₂.postings = s.postings ++ (quoteFor (locate, p)).toList := by
    unfold Strategy.postings
    rw [htrace, hagrees.quoteFor]
    simp only [List.filterMap_append, hposting]
    cases Strategy.sideOf w.usable w.qi <;> simp [QuoteEvent.postingOf]
  have hquotes : s₂.tally.quotes = s.tally.quotes + (quoteFor (locate, p)).toList.length := by
    rw [hs₂, Strategy.post_quotes, hs₁, Strategy.settle_quotes, hagrees.quoteFor]
    cases Strategy.sideOf w.usable w.qi <;> rfl
  obtain ⟨-, -, -, hselected, hstate⟩ := judge_spec ex locate y now ts
  have hsetting := sameSetting_judge ex locate y now ts
  have hlag : ex.lag1 = false := h.lag1
  have hpending : y.win.features ex.lag1 now before ts ex.msgs = p := by rw [hlag]
  refine ⟨?_, ?_, ?_, ?_, fun l => ?_, ?_, ?_, ?_⟩
  · exact hsame.book.trans (h.book.trans hsetting.book.symm)
  · exact hsame.selected.trans (h.selected.trans hsetting.selected.symm)
  · exact hsame.window.trans (h.window.trans hsetting.window.symm)
  · exact hsetting.lag1.trans hlag
  · unfold FeatureExporter.closeWindow
    rw [FeatureExporter.setState_state]
    show Abreast ((s₂.setSt locate _).st l) _
    rw [Strategy.setSt_st]
    by_cases hl : l = locate
    · have hreset := (hy.congr (hsame.st locate)).reset p
      rw [if_pos hl, if_pos hl, hpending]
      exact hreset
    · have hother := hstates l
      rw [if_neg hl] at hother
      rw [if_neg hl, if_neg hl]
      show Abreast (s₂.st l) ((ex.judge locate y now ts).state l)
      rw [hstate]
      exact hother.congr (hsame.st l)
  · show List.Forall₂ Agrees s₂.closings (ex.closings ++ [(locate, _)])
    rw [hclosings, hpending]
    exact List.rel_append h.closings (.cons hagrees .nil)
  · show s₂.postings = (ex.closings ++ [(locate, _)]).filterMap quoteFor
    have hold : s.postings = ex.closings.filterMap quoteFor := h.postings
    rw [hpostings, hpending, List.filterMap_append, hold]
    cases hq : quoteFor (locate, p) <;> simp [hq]
  · show s₂.tally.quotes = s₂.postings.length
    rw [hquotes, hpostings, List.length_append, h.quotes]

/-- **A touch.** -/
theorem Lockstep.after (h : Lockstep s ex) (locate : UInt16) (ts : UInt64) (signedExec totalExec : ℚ) :
    Lockstep (s.after locate ts) (ex.touch locate ts signedExec totalExec) := by
  by_cases hmem : locate ∈ s.selected
  swap
  · have hs : s.after locate ts = s := if_pos hmem
    have hex : ex.touch locate ts signedExec totalExec = ex := if_pos (h.selected ▸ hmem)
    rw [hs, hex]
    exact h
  have hnow : s.readInside locate = ex.readInside locate := congrArg (Inside.read · locate) h.book
  have hx := h.state locate
  rw [Strategy.after_eq hmem, FeatureExporter.touch_eq (h.selected ▸ hmem), hnow, hx.prev]
  simp only
  have hread := hx.read (ex.readInside locate) signedExec totalExec
  have hobserve := hx.observe (ex.readInside locate) ts signedExec totalExec
  show Lockstep (if (ex.state locate).updates (ex.readInside locate) then _ else _) _
  by_cases hupdate : (ex.state locate).updates (ex.readInside locate) = true
  swap
  · rw [if_neg hupdate, if_neg hupdate]
    exact h.setSt hread
  rw [if_pos hupdate, if_pos hupdate, hobserve.updates, h.window]
  split
  · have hset := @Lockstep.setSt _ _ locate h _ _ hobserve
    have hvalid : (ex.readInside locate).valid = true := by
      unfold SymbolState.updates at hupdate
      simp only [Bool.and_eq_true] at hupdate
      exact hupdate.1.1
    have hstart : ((s.setSt locate (SymState.observe { s.st locate with prev := ex.readInside locate } ts)).st
        locate).winStartTs = ((ex.state locate).observed (ex.readInside locate) ts signedExec
          totalExec).win.startTs := by
      rw [Strategy.setSt_st, if_pos rfl]
      exact hx.observe_start _ ts signedExec totalExec
    exact hset.close hstart hvalid (ex.state locate).prev ts
  · exact h.setSt hobserve

/-- A message that both look at the inside after. -/
theorem Lockstep.see (h : Lockstep s ex) {msg : Message} (hd : Header) (signedExec totalExec : ℚ)
    (hs : s.on msg = s.see msg hd)
    (hex : ex.on msg = FeatureExporter.touch { ex with msgs := ex.msgs + 1, book := bookAfter ex.book msg }
      hd.locate (QueueSim.tsOf hd) signedExec totalExec) : Lockstep (s.on msg) (ex.on msg) := by
  rw [hs, hex]
  exact (h.drive msg (ex.msgs + 1)).after hd.locate (QueueSim.tsOf hd) signedExec totalExec

/-- **A message.** -/
theorem Lockstep.on (h : Lockstep s ex) (msg : Message) : Lockstep (s.on msg) (ex.on msg) := by
  cases msg with
  | systemEvent v => exact h.drive (.systemEvent v) (ex.msgs + 1)
  | stockDirectory v =>
    have hdrive := h.drive (.stockDirectory v) (ex.msgs + 1)
    refine ⟨hdrive.book, hdrive.selected, hdrive.window, hdrive.lag1, fun l => ?_, hdrive.closings,
      hdrive.postings, hdrive.quotes⟩
    have hl := hdrive.state l
    show Abreast ((Strategy.setSt _ _ _).st l) _
    rw [Strategy.setSt_st]
    split
    · rename_i heq
      subst heq
      exact ⟨hl.prev, hl.updates, hl.halted, hl.winHalted, hl.start⟩
    · exact hl
  | stockTradingAction v =>
    have hact := @Lockstep.setSt _ _ v.locate h _ _ ((h.state v.locate).act v.tradingState)
    exact ⟨hact.book, hact.selected, hact.window, hact.lag1, hact.state, hact.closings, hact.postings,
      hact.quotes⟩
  | operationalHalt v => exact h
  | addOrder v => exact h.see v.toHeader 0 0 rfl rfl
  | addOrderMpid v => exact h.see v.toHeader 0 0 rfl rfl
  | orderCancel v => exact h.see v.toHeader 0 0 rfl rfl
  | orderDelete v => exact h.see v.toHeader 0 0 rfl rfl
  | orderReplace v => exact h.see v.toHeader 0 0 rfl rfl
  | orderExecuted v => exact h.see v.toHeader _ _ rfl rfl
  | orderExecutedPrice v => exact h.see v.toHeader _ _ rfl rfl
  | trade v => exact h.see v.toHeader 0 0 rfl rfl
  | crossTrade v => exact h.see v.toHeader 0 0 rfl rfl
  | brokenTrade v => exact h.see v 0 0 rfl rfl

end

theorem lockstep_init (P : Platform) (cfg : QueueSimConfig) (selected : Finset UInt16) (window : UInt32)
    (auditing : Bool) :
    Lockstep (Strategy.init P cfg selected window) (FeatureExporter.init selected window false auditing) :=
  ⟨rfl, rfl, rfl, rfl, fun _ => ⟨rfl, rfl, rfl, rfl, fun _ => rfl⟩, .nil, rfl, rfl⟩

/-- **The strategy trades on the registered signal.** After every message the strategy and the exporter have closed
the same windows, each at the same message, and computed the same of each; and the quotes posted are, in order,
those for the exported windows that are usable and have a queue imbalance, on the side of its sign. -/
theorem quotes_on_signal (P : Platform) (eligible : List UInt16) (rule4 : Bool) (selected : Finset UInt16)
    (window : UInt32) (auditing : Bool) (ms : List Message) :
    let s := Runs.run Strategy.on (Strategy.init P (Strategy.config eligible rule4) selected window) ms
    let ex := Runs.run FeatureExporter.on (FeatureExporter.init selected window false auditing) ms
    List.Forall₂ Agrees s.closings ex.closings ∧ s.postings = ex.closings.filterMap quoteFor ∧
      s.tally.quotes = s.postings.length := by
  have hrun := Runs.run_simulation (R := Lockstep) (fun _ _ msg h => Lockstep.on h msg) ms _ _
    (lockstep_init P (Strategy.config eligible rule4) selected window auditing)
  exact ⟨hrun.closings, hrun.postings, hrun.quotes⟩

end Carteret
