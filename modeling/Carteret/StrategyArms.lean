import Carteret.QueueRule4
import Carteret.StrategyAccounts

/-!
# The strategy with and without rule 4

1. Two strategies whose simulators differ in rule 4 have the same windows and post the same quotes; a quote that the
   one without rule 4 has filled, the other one has (`StrategyArms`).
2. `rule4_adds`: what rule 4 does to the orders of a simulator and to the tally of a strategy.
-/

namespace Carteret

open QueueSim

/-- The arm without rule 4 and the arm with it. -/
structure StrategyArms (s t : Strategy) : Prop where
  sims : Rule4Arms s.sim t.sim
  selected : t.selected = s.selected
  window : t.window = s.window
  st : ∀ l, (t.st l).sansQuote = (s.st l).sansQuote
  isOpen : ∀ l, (t.st l).quote.isOpen = (s.st l).quote.isOpen
  seq : ∀ l, (t.st l).quote.seq = (s.st l).quote.seq
  quotes : t.tally.quotes = s.tally.quotes
  fills : s.tally.fills ≤ t.tally.fills

section

variable {c d : QueueSimConfig} {s t : Strategy} {l : UInt16}

/-- A quote that is filled without rule 4 is filled with it. -/
theorem StrategyArms.filled (h : StrategyArms s t) (hs : Quoting c s) (ht : Quoting d t)
    (hopen : (s.st l).quote.isOpen = true) (hf : (s.st l).quote.filled = true) :
    (t.st l).quote.filled = true := by
  obtain ⟨o, ho, -, hseq, hfilled⟩ := hs.current l hopen
  obtain ⟨o', ho', -, hseq', hfilled'⟩ := ht.current l ((h.isOpen l).trans hopen)
  have hcovers := h.sims.covers o ho o' ho' (hseq'.trans ((h.seq l).trans hseq.symm)) .exact (by decide)
  rw [← hfilled']
  exact hcovers.filled (hfilled.trans hf)

/-- A call that both make and that leaves the windows, the quotes and the tally alone. -/
theorem StrategyArms.drive (h : StrategyArms s t) (msg : Message) :
    StrategyArms (s.drive fun sim => sim.on msg) (t.drive fun sim => sim.on msg) := by
  rw [Strategy.drive_eq, Strategy.drive_eq]
  refine ⟨rule4_pairing.on h.sims trivial, h.selected, h.window, fun k => ?_, fun k => ?_, fun k => ?_, h.quotes,
    h.fills⟩
  · exact (SymState.sansQuote_told _ _).trans ((h.st k).trans (SymState.sansQuote_told _ _).symm)
  · exact (told_quote _ _).1.trans ((h.isOpen k).trans (told_quote _ _).1.symm)
  · exact (told_quote _ _).2.1.trans ((h.seq k).trans (told_quote _ _).2.1.symm)

/-- Both write the windows of a symbol, not its quote. -/
theorem StrategyArms.setSt (h : StrategyArms s t) {x y : SymState} (hxy : y.sansQuote = x.sansQuote)
    (hx : x.quote = (s.st l).quote) (hy : y.quote = (t.st l).quote) :
    StrategyArms (s.setSt l x) (t.setSt l y) := by
  refine ⟨h.sims, h.selected, h.window, fun k => ?_, fun k => ?_, fun k => ?_, h.quotes, h.fills⟩
  · rw [Strategy.setSt_st, Strategy.setSt_st]
    split
    · exact hxy
    · exact h.st k
  · rw [Strategy.setSt_st, Strategy.setSt_st]
    split
    · rw [hx, hy]
      exact h.isOpen l
    · exact h.isOpen k
  · rw [Strategy.setSt_st, Strategy.setSt_st]
    split
    · rw [hx, hy]
      exact h.seq l
    · exact h.seq k

/-- **A settlement in both arms.** -/
theorem StrategyArms.settle (h : StrategyArms s t) (hs : Quoting c s) (ht : Quoting d t) (w : Closing) :
    StrategyArms ((s.note (.closed l w)).settle l w.mid) ((t.note (.closed l w)).settle l w.mid) := by
  cases hopen : (s.st l).quote.isOpen with
  | true =>
    have hset := hs.settles hopen w
    have hset' := ht.settles ((h.isOpen l).trans hopen) w
    have hst {s₁ s₂ : Strategy} (hset : Settles s₁ s₂ l w) (k : UInt16) :
        s₂.st k = if k = l then { s₁.st l with quote := {} } else s₁.st k := by
      rw [hset.st, Function.update_apply]
    have htally {s₁ s₂ : Strategy} (hset : Settles s₁ s₂ l w) : s₂.tally.quotes = s₁.tally.quotes ∧
        s₂.tally.fills = s₁.tally.fills + (s₁.st l).quote.filled.toNat := by
      rw [hset.tally]
      cases (s₁.st l).quote.filled <;> exact ⟨rfl, rfl⟩
    refine ⟨?_, ?_, ?_, fun k => ?_, fun k => ?_, fun k => ?_, ?_, ?_⟩
    · rw [hset.sim, hset'.sim]
      exact rule4_pairing.retire l h.sims
    · rw [hset.selected, hset'.selected, h.selected]
    · rw [hset.window, hset'.window, h.window]
    · rw [hst hset, hst hset']
      split
      · exact h.st l
      · exact h.st k
    · rw [hst hset, hst hset']
      split
      · rfl
      · exact h.isOpen k
    · rw [hst hset, hst hset']
      split
      · rfl
      · exact h.seq k
    · rw [(htally hset).1, (htally hset').1, h.quotes]
    · rw [(htally hset).2, (htally hset').2]
      have hmore : (s.st l).quote.filled.toNat ≤ (t.st l).quote.filled.toNat := by
        cases hf : (s.st l).quote.filled with
        | false => exact Nat.zero_le _
        | true => rw [h.filled hs ht hopen hf]
      exact Nat.add_le_add h.fills hmore
  | false =>
    have hnoted : ((s.note (.closed l w)).st l).quote.isOpen = false := hopen
    have hnoted' : ((t.note (.closed l w)).st l).quote.isOpen = false := (h.isOpen l).trans hopen
    rw [Strategy.settle_of_not_open w.mid hnoted, Strategy.settle_of_not_open w.mid hnoted']
    exact ⟨h.sims, h.selected, h.window, h.st, h.isOpen, h.seq, h.quotes, h.fills⟩

/-- **A posting in both arms.** -/
theorem StrategyArms.post (h : StrategyArms s t) (now : Inside) (l : UInt16) (w : Closing)
    (hvalid : (Inside.read s.sim.book l).valid = true) :
    StrategyArms (s.post l now w) (t.post l now w) := by
  by_cases hpost : (w.usable && decide (w.qi ≠ 0)) = true
  swap
  · rw [Strategy.post_of_not_signal hpost, Strategy.post_of_not_signal hpost]
    exact h
  have hvalid' : (Inside.read t.sim.book l).valid = true := by
    rw [h.sims.aligned.book]
    exact hvalid
  obtain ⟨o, he, hp⟩ := @posts_of_valid _ l now _ hvalid hpost
  obtain ⟨o', he', hp'⟩ := @posts_of_valid _ l now _ hvalid' hpost
  obtain rfl : o = o' := Option.some.inj (he.symm.trans ((h.sims.aligned.entry _ _ _).symm.trans he'))
  have hsame := Strategy.sameWindows_post s l now w
  have hsame' := Strategy.sameWindows_post t l now w
  refine ⟨?_, ?_, ?_, fun k => ?_, fun k => ?_, fun k => ?_, ?_, ?_⟩
  · rw [hp.sim, hp'.sim]
    exact rule4_pairing.push he h.sims
  · rw [hp.selected, hp'.selected, h.selected]
  · rw [hsame.window, hsame'.window, h.window]
  · rw [hsame.st, hsame'.st, h.st]
  · rw [(hp.quote k).1, (hp'.quote k).1, h.isOpen]
  · rw [(hp.quote k).2.1, (hp'.quote k).2.1, h.seq, h.sims.aligned.placements]
  · rw [hp.tally, hp'.tally]
    exact congrArg (· + 1) h.quotes
  · rw [hp.tally, hp'.tally]
    exact h.fills

theorem closing_congr {x y : SymState} (h : y.sansQuote = x.sansQuote) (now : Inside) (ts : UInt64) :
    y.closing now ts = x.closing now ts := by
  show y.sansQuote.closing now ts = x.sansQuote.closing now ts
  rw [h]

/-- **A close in both arms.** -/
theorem StrategyArms.closeWindow (h : StrategyArms s t) (hs : Quoting c s) (ht : Quoting d t) (ts : UInt64)
    (hvalid : (s.readInside l).valid = true) :
    StrategyArms (s.closeWindow l (s.readInside l) ts) (t.closeWindow l (s.readInside l) ts) := by
  have hclosing := closing_congr (h.st l) (s.readInside l) ts
  unfold Strategy.closeWindow
  simp only [hclosing]
  set w := (s.st l).closing (s.readInside l) ts
  have hsettled := h.settle hs ht (l := l) w
  have hbook : ((s.note (.closed l w)).settle l w.mid).sim.book = s.sim.book :=
    (Strategy.sameWindows_settle (s.note (.closed l w)) l w.mid).book
  have hposted := hsettled.post (s.readInside l) l w (by rw [hbook]; exact hvalid)
  refine hposted.setSt ?_ rfl rfl
  exact congrArg (fun x : SymState => ({ x with updates := 0, winHalted := false } : SymState)) (hposted.st l)

theorem StrategyArms.after (h : StrategyArms s t) (hs : Quoting c s) (ht : Quoting d t) (l : UInt16)
    (ts : UInt64) : StrategyArms (s.after l ts) (t.after l ts) := by
  by_cases hmem : l ∈ s.selected
  swap
  · have hid {s : Strategy} (hs : l ∉ s.selected) : s.after l ts = s := if_pos hs
    rw [hid hmem, hid (by rw [h.selected]; exact hmem)]
    exact h
  have hnow : t.readInside l = s.readInside l := congrArg (Inside.read · l) h.sims.aligned.book
  have hprev : (t.st l).prev = (s.st l).prev := by
    show (t.st l).sansQuote.prev = (s.st l).sansQuote.prev
    rw [h.st l]
  have hread (now : Inside) : ({ t.st l with prev := now } : SymState).sansQuote =
      ({ s.st l with prev := now } : SymState).sansQuote :=
    congrArg (fun x : SymState => ({ x with prev := now } : SymState)) (h.st l)
  have hobserve (now : Inside) : (SymState.observe { t.st l with prev := now } ts).sansQuote =
      (SymState.observe { s.st l with prev := now } ts).sansQuote :=
    congrArg (SymState.observe · ts) (hread now)
  have hupdates (now : Inside) : (SymState.observe { t.st l with prev := now } ts).updates =
      (SymState.observe { s.st l with prev := now } ts).updates := by
    show (SymState.observe { t.st l with prev := now } ts).sansQuote.updates =
      (SymState.observe { s.st l with prev := now } ts).sansQuote.updates
    rw [hobserve now]
  rw [Strategy.after_eq hmem, Strategy.after_eq (h.selected ▸ hmem)]
  simp only [hnow, hprev, hupdates, h.window]
  split_ifs with hupdate hfull
  · have hset := h.setSt (hobserve (s.readInside l)) rfl rfl
    have hvalid : (s.readInside l).valid = true := by
      simp only [Bool.and_eq_true] at hupdate
      exact hupdate.1.1
    exact hset.closeWindow (hs.setSt rfl) (ht.setSt rfl) ts hvalid
  · exact h.setSt (hobserve (s.readInside l)) rfl rfl
  · exact h.setSt (hread (s.readInside l)) rfl rfl

/-- **A message in both arms.** -/
theorem StrategyArms.on (h : StrategyArms s t) (hs : Quoting c s) (ht : Quoting d t)
    (hc : c.timerPlacement = false) (hd : d.timerPlacement = false) (msg : Message) :
    StrategyArms (s.on msg) (t.on msg) := by
  have hsee (msg : Message) (hdr : Header) : StrategyArms (s.see msg hdr) (t.see msg hdr) :=
    (h.drive msg).after (hs.drive hc msg) (ht.drive hd msg) hdr.locate (tsOf hdr)
  cases msg with
  | systemEvent v => exact h.drive (.systemEvent v)
  | stockDirectory v =>
    have hdrive := h.drive (.stockDirectory v)
    refine hdrive.setSt ?_ rfl rfl
    exact congrArg (fun x : SymState => ({ x with tape := tapeOf v.marketCategory } : SymState))
      (hdrive.st v.locate)
  | stockTradingAction v =>
    refine h.setSt ?_ rfl rfl
    exact congrArg (fun x : SymState => x.act v.tradingState) (h.st v.locate)
  | operationalHalt v => exact h
  | addOrder v => exact hsee (.addOrder v) v.toHeader
  | addOrderMpid v => exact hsee (.addOrderMpid v) v.toHeader
  | orderCancel v => exact hsee (.orderCancel v) v.toHeader
  | orderDelete v => exact hsee (.orderDelete v) v.toHeader
  | orderReplace v => exact hsee (.orderReplace v) v.toHeader
  | orderExecuted v => exact hsee (.orderExecuted v) v.toHeader
  | orderExecutedPrice v => exact hsee (.orderExecutedPrice v) v.toHeader
  | trade v => exact hsee (.trade v) v.toHeader
  | crossTrade v => exact hsee (.crossTrade v) v.toHeader
  | brokenTrade v => exact hsee (.brokenTrade v) v

end

/-- **Rule 4 can only add fills.** After every message, two simulators that differ in rule 4 have placed the same
orders in the same order, and what a model that throws no coin has filled without the rule is filled with it. Two
strategies that differ in it have posted as many quotes, and the one with the rule has no fewer fills. -/
theorem rule4_adds (P : Platform) (cfg : QueueSimConfig) (selected : Finset UInt16) (window : UInt32)
    (ms : List Message) :
    (let off := Runs.run QueueSim.on (QueueSim.init P { cfg with rule4NonDisplayedFills := false }) ms
      let on := Runs.run QueueSim.on (QueueSim.init P { cfg with rule4NonDisplayedFills := true }) ms
      off.placements = on.placements ∧
      (∀ p, (∃ o ∈ off.orders, o.placement = p) ↔ ∃ o' ∈ on.orders, o'.placement = p) ∧
      ∀ o ∈ off.orders, ∀ o' ∈ on.orders, o'.placement = o.placement →
        ∀ m, m ≠ .bernoulliProportional → (o.models m).filled = true → (o'.models m).filled = true) ∧
    let off := Runs.run Strategy.on (Strategy.init P
      { cfg with timerPlacement := false, rule4NonDisplayedFills := false } selected window) ms
    let on := Runs.run Strategy.on (Strategy.init P
      { cfg with timerPlacement := false, rule4NonDisplayedFills := true } selected window) ms
    off.tally.quotes = on.tally.quotes ∧ off.tally.fills ≤ on.tally.fills := by
  refine ⟨?_, ?_⟩
  · have hstep : ∀ (s t : QueueSim) (msg : Message), Rule4Arms s t → Rule4Arms (s.on msg) (t.on msg) :=
      fun _ _ _ h => rule4_pairing.on h trivial
    have harms := Runs.run_simulation hstep ms _ _ (rule4_init P cfg)
    obtain ⟨hleft, hright⟩ := harms.orders
    refine ⟨harms.aligned.placements.symm, fun p => ⟨?_, ?_⟩, fun o ho o' ho' hp m hm hf => ?_⟩
    · rintro ⟨o, ho, rfl⟩
      obtain ⟨o', ho', hp, -⟩ := hleft o ho
      exact ⟨o', ho', hp⟩
    · rintro ⟨o', ho', rfl⟩
      obtain ⟨o, ho, hp⟩ := hright o' ho'
      exact ⟨o, ho, hp.symm⟩
    · exact (harms.covers o ho o' ho' (congrArg Placement.seq hp) m hm).filled hf
  · have hstart : Rule4Arms
        (QueueSim.init P { cfg with timerPlacement := false, rule4NonDisplayedFills := false })
        (QueueSim.init P { cfg with timerPlacement := false, rule4NonDisplayedFills := true }) :=
      rule4_init P { cfg with timerPlacement := false }
    have harms := Runs.run_simulation
      (R := fun s t : Strategy =>
        Quoting { cfg with timerPlacement := false, rule4NonDisplayedFills := false } s ∧
          Quoting { cfg with timerPlacement := false, rule4NonDisplayedFills := true } t ∧ StrategyArms s t)
      (fun _ _ msg h => ⟨h.1.on rfl msg, h.2.1.on rfl msg, h.2.2.on h.1 h.2.1 rfl rfl msg⟩) ms _ _
      ⟨Quoting.init P _ selected window, Quoting.init P _ selected window,
        ⟨hstart, rfl, rfl, fun _ => rfl, fun _ => rfl, fun _ => rfl, rfl, le_rfl⟩⟩
    exact ⟨harms.2.2.quotes.symm, harms.2.2.fills⟩

end Carteret
