import Carteret.Lib.History
import Carteret.ReferenceRefines

/-!
# The crossed-book gate

Crossed and locked observations are classified by three state machines of a symbol: its trading state, its
operational halts and its reopening window. Here the classification is stated by the history alone, and
the reference book is proved to count by it.

1. `GateEvent`: what the gate reads; `events`, what a message shows it.
2. The trading state, the halts and the window of a symbol, by the history.
3. `Reads`: the book's fields say what the history says. One step, then every run.
4. The classification, and what the cap is charged for.
-/

namespace Carteret

open History

/-! ## Events -/

/-- What the gate reads. An operational halt is one for the replayed market; an observation is a look at
a symbol with orders on both sides. -/
inductive GateEvent
  | action (locate : UInt16) (state : UInt8) (ts : ℕ)
  | halt (locate : UInt16) (action : UInt8)
  | cross (locate : UInt16)
  | observation (locate : UInt16) (bid ask : Price) (ts : ℕ)
  deriving DecidableEq

/-- The symbol that an event is about. -/
def GateEvent.locate : GateEvent → UInt16
  | .action l _ _ => l
  | .halt l _ => l
  | .cross l => l
  | .observation l _ _ _ => l

namespace ReferenceBook

/-- What a look at a symbol observes. -/
def look (b : ReferenceBook) (locate : UInt16) (ts : ℕ) : List GateEvent :=
  match (b.symbol locate).bind RefSymbol.bestBid, (b.symbol locate).bind RefSymbol.bestAsk with
  | some bid, some ask => [.observation locate bid ask ts]
  | _, _ => []

/-- What the gate reads of a message. The handlers look once the orders have changed. -/
def events (b : ReferenceBook) (m : Message) : List GateEvent :=
  match m with
  | .stockTradingAction v => [.action v.locate v.tradingState v.ts.toNat]
  | .operationalHalt v =>
    if v.marketCode = b.venueMarketCode then [.halt v.locate v.haltAction] else []
  | .crossTrade v => [.cross v.locate]
  | .addOrder v => (b.on m).look v.locate v.ts.toNat
  | .addOrderMpid v => (b.on m).look v.locate v.ts.toNat
  | .orderExecuted v => (b.on m).look v.locate v.ts.toNat
  | .orderExecutedPrice v => (b.on m).look v.locate v.ts.toNat
  | .orderCancel v => (b.on m).look v.locate v.ts.toNat
  | .orderDelete v => (b.on m).look v.locate v.ts.toNat
  | .orderReplace v =>
    match b.orders[v.oldOrderRef]? with
    | none => []
    | some o => (b.on m).look o.locate v.ts.toNat ++ (b.on m).look v.locate v.ts.toNat
  | _ => []

/-- What the gate reads of a session. -/
def trace (b : ReferenceBook) (ms : List Message) : List GateEvent := outputs on events b ms

end ReferenceBook

/-! ## The history of a symbol -/

namespace Gate

variable {l : UInt16} {T : List GateEvent} {e : GateEvent}

/-- The latest trading action of the symbol announced this state. -/
def Announced (l : UInt16) (state : UInt8) (T : List GateEvent) : Prop :=
  Since (fun _ e => ∃ ts, e = .action l state ts) (fun _ e => ∃ state ts, e = .action l state ts) T

/-- The symbol has a trading state. A byte of zero stands for none. -/
def Known (l : UInt16) (T : List GateEvent) : Prop := ∃ state, state ≠ 0 ∧ Announced l state T

/-- The latest operational halt action, of those that halt or release, halts. -/
def Halted (l : UInt16) (T : List GateEvent) : Prop :=
  Since (fun _ e => e = .halt l 72) (fun _ e => e = .halt l 72 ∨ e = .halt l 84) T

/-- A transition into `'T'`. -/
def Enters (l : UInt16) (ts : ℕ) (pre : List GateEvent) (e : GateEvent) : Prop :=
  e = .action l 84 ts ∧ ¬ Announced l 84 pre

/-- The latest transition into `'T'` was at `ts`. -/
def EnteredAt (l : UInt16) (ts : ℕ) (T : List GateEvent) : Prop :=
  Since (Enters l ts) (fun pre e => ∃ ts, Enters l ts pre e) T

/-- A transition into `'T'` from another state that was announced opens a reopening window. -/
def Opens (l : UInt16) (ts : ℕ) (pre : List GateEvent) (e : GateEvent) : Prop :=
  Enters l ts pre e ∧ Known l pre

/-- The latest transition that opened a window was at `ts`. -/
def OpenedAt (l : UInt16) (ts : ℕ) (T : List GateEvent) : Prop :=
  Since (Opens l ts) (fun pre e => ∃ ts, Opens l ts pre e) T

/-- A crossed or locked observation of the symbol. -/
def Touching (l : UInt16) (ts : ℕ) (e : GateEvent) : Prop :=
  ∃ bid ask, e = .observation l bid ask ts ∧ ask ≤ bid

/-- A crossed or locked observation more than the cap after the latest transition into `'T'`. -/
def Late (l : UInt16) (pre : List GateEvent) (e : GateEvent) : Prop :=
  ∃ ts entered, Touching l ts e ∧ EnteredAt l entered pre ∧ entered + ReferenceBook.kReopenCapNs < ts

/-- A reopening window ends with a cross trade, with an observation of the bid below the offer, or late. -/
def Closes (l : UInt16) (pre : List GateEvent) (e : GateEvent) : Prop :=
  e = .cross l ∨ (∃ bid ask ts, e = .observation l bid ask ts ∧ bid < ask) ∨ Late l pre e

/-- A reopening window of the symbol is open. -/
def WindowOpen (l : UInt16) (T : List GateEvent) : Prop :=
  Since (fun pre e => ∃ ts, Opens l ts pre e) (Closes l) T

/-- How the observation `e` of the symbol is to be classified, after `pre`. -/
def Classed (l : UInt16) (pre : List GateEvent) (e : GateEvent) : ReferenceBook.Excuse → Prop
  | .beforeFirstAction => ¬ Known l pre
  | .operationalHalt => Known l pre ∧ Halted l pre
  | .whileNotTrading => Known l pre ∧ ¬ Halted l pre ∧ ¬ Announced l 84 pre
  | .awaitingReopen => Announced l 84 pre ∧ ¬ Halted l pre ∧ WindowOpen l (pre ++ [e])
  | .unexplained => Announced l 84 pre ∧ ¬ Halted l pre ∧ ¬ WindowOpen l (pre ++ [e])

/-- A crossed observation that is classified `why`. -/
def CrossedAs (why : ReferenceBook.Excuse) (pre : List GateEvent) (e : GateEvent) : Prop :=
  ∃ l bid ask ts, e = .observation l bid ask ts ∧ ask < bid ∧ Classed l pre e why

/-- A locked observation that is classified `why`. -/
def LockedAs (why : ReferenceBook.Excuse) (pre : List GateEvent) (e : GateEvent) : Prop :=
  ∃ l price ts, e = .observation l price price ts ∧ Classed l pre e why

/-- A crossed observation. -/
def CrossedSeen (e : GateEvent) : Prop := ∃ l bid ask ts, e = .observation l bid ask ts ∧ ask < bid

/-- A locked observation. -/
def LockedSeen (e : GateEvent) : Prop := ∃ l price ts, e = .observation l price price ts

/-- The observation finds a window open, and caps it. -/
def Caps (pre : List GateEvent) (e : GateEvent) : Prop := ∃ l, WindowOpen l pre ∧ Late l pre e

/-- A crossed or locked observation more than the cap after the transition that opened the window. -/
def PastOpening (l : UInt16) (pre : List GateEvent) (e : GateEvent) : Prop :=
  ∃ ts opened, Touching l ts e ∧ OpenedAt l opened pre ∧ opened + ReferenceBook.kReopenCapNs < ts

/-- The observation would otherwise have been excused by the window, and the cap is passed. -/
def Relied (pre : List GateEvent) (e : GateEvent) : Prop :=
  ∃ l, PastOpening l pre e ∧ Announced l 84 pre ∧ ¬ Halted l pre

/-- A late observation of a symbol whose open window excuses nothing: the symbol does not trade, or it is
halted, or the window was opened less than the cap ago. -/
def Idle (l : UInt16) (pre : List GateEvent) (e : GateEvent) : Prop :=
  WindowOpen l pre ∧ Late l pre e ∧ (¬ Announced l 84 pre ∨ Halted l pre ∨ ¬ PastOpening l pre e)

/-! ## One more event -/

theorem announced_snoc_action (l : UInt16) (s state : UInt8) (ts : ℕ) (T : List GateEvent) :
    Announced l s (T ++ [.action l state ts]) ↔ s = state := by
  unfold Announced
  rw [since_snoc]
  constructor
  · rintro (⟨ts', h⟩ | ⟨-, h⟩)
    · injection h with _ hs _
      exact hs.symm
    · exact absurd ⟨state, ts, rfl⟩ h
  · rintro rfl
    exact .inl ⟨ts, rfl⟩

/-- Only trading actions announce a state. -/
theorem announced_snoc (h : ∀ state ts, e ≠ .action l state ts) (s : UInt8) :
    Announced l s (T ++ [e]) ↔ Announced l s T :=
  since_snoc_of_not (fun ⟨ts, hc⟩ => h s ts hc) fun ⟨state, ts, hc⟩ => h state ts hc

theorem halted_snoc_halt (l : UInt16) (action : UInt8) (T : List GateEvent) :
    Halted l (T ++ [.halt l action]) ↔ action = 72 ∨ (action ≠ 84 ∧ Halted l T) := by
  unfold Halted
  rw [since_snoc]
  simp only [GateEvent.halt.injEq, true_and]
  constructor
  · rintro (h | ⟨h, hne⟩)
    · exact .inl h
    · exact .inr ⟨fun hc => hne (.inr hc), h⟩
  · rintro (h | ⟨hne, h⟩)
    · exact .inl h
    · by_cases hh : action = 72
      · exact .inl hh
      · exact .inr ⟨h, fun hc => hc.elim hh hne⟩

/-- Only operational halts halt and release. -/
theorem halted_snoc (h : ∀ action, e ≠ .halt l action) : Halted l (T ++ [e]) ↔ Halted l T :=
  since_snoc_of_not (h 72) fun hc => hc.elim (h 72) (h 84)

/-- Only trading actions enter `'T'`. -/
theorem enteredAt_snoc (h : ∀ state ts, e ≠ .action l state ts) (ts : ℕ) :
    EnteredAt l ts (T ++ [e]) ↔ EnteredAt l ts T :=
  since_snoc_of_not (fun hc => h 84 ts hc.1) fun ⟨ts, hc⟩ => h 84 ts hc.1

/-- An event that neither opens nor closes a window leaves it. -/
theorem windowOpen_snoc (h : ∀ state ts, e ≠ .action l state ts) :
    WindowOpen l (T ++ [e]) ↔ WindowOpen l T ∧ ¬ Closes l T e :=
  since_snoc.trans ⟨fun hc => hc.elim (fun ⟨ts, hc⟩ => absurd hc.1.1 (h 84 ts)) id, .inr⟩

/-- While a window is open there was a transition into `'T'`. -/
theorem entered_of_open (h : WindowOpen l T) : ∃ ts, EnteredAt l ts T := by
  induction T using List.reverseRecOn with
  | nil => exact absurd h not_since_nil
  | append_singleton T e ih =>
    rcases since_snoc.mp h with ⟨ts, hopens⟩ | ⟨hopen, -⟩
    · exact ⟨ts, since_snoc.mpr (.inl hopens.1)⟩
    · by_cases henters : ∃ ts, Enters l ts T e
      · obtain ⟨ts, henters⟩ := henters
        exact ⟨ts, since_snoc.mpr (.inl henters)⟩
      · obtain ⟨ts, hts⟩ := ih hopen
        exact ⟨ts, since_snoc.mpr (.inr ⟨hts, henters⟩)⟩

/-- With no zero byte among them, any trading action makes the state known. -/
theorem known_iff (h : ∀ state ts, GateEvent.action l state ts ∈ T → state ≠ 0) :
    Known l T ↔ ∃ state, Announced l state T := by
  constructor
  · rintro ⟨state, -, hs⟩
    exact ⟨state, hs⟩
  · rintro ⟨state, pre, _, post, hT, ⟨ts, rfl⟩, hlater⟩
    exact ⟨state, h state ts (by rw [hT]; simp), pre, _, post, hT, ⟨ts, rfl⟩, hlater⟩

/-- Events of other symbols do not matter. -/
theorem foreign (h : e.locate ≠ l) :
    (∀ s, Announced l s (T ++ [e]) ↔ Announced l s T) ∧ (Halted l (T ++ [e]) ↔ Halted l T) ∧
      (∀ ts, EnteredAt l ts (T ++ [e]) ↔ EnteredAt l ts T) ∧ (WindowOpen l (T ++ [e]) ↔ WindowOpen l T) := by
  have haction : ∀ state ts, e ≠ .action l state ts := fun state ts hc => h (by rw [hc]; rfl)
  have hhalt : ∀ action, e ≠ .halt l action := fun action hc => h (by rw [hc]; rfl)
  refine ⟨announced_snoc haction, halted_snoc hhalt, enteredAt_snoc haction,
    (windowOpen_snoc haction).trans (and_iff_left ?_)⟩
  rintro (hc | ⟨bid, ask, ts, hc, -⟩ | ⟨ts, entered, ⟨bid, ask, hc, -⟩, -⟩)
  · exact h (by rw [hc]; rfl)
  · exact h (by rw [hc]; rfl)
  · exact h (by rw [hc]; rfl)

/-- Every observation has exactly one class. -/
theorem existsUnique_classed (l : UInt16) (pre : List GateEvent) (e : GateEvent) :
    ∃! why, Classed l pre e why := by
  have hknown : Announced l 84 pre → Known l pre := fun h => ⟨84, by decide, h⟩
  suffices h : ∃ why, Classed l pre e why ∧ ∀ why', Classed l pre e why' → why' = why from h
  by_cases hk : Known l pre
  · by_cases hh : Halted l pre
    · refine ⟨.operationalHalt, ⟨hk, hh⟩, fun why h => ?_⟩
      cases why with
      | beforeFirstAction => exact absurd hk h
      | operationalHalt => rfl
      | whileNotTrading => exact absurd hh h.2.1
      | awaitingReopen => exact absurd hh h.2.1
      | unexplained => exact absurd hh h.2.1
    · by_cases ha : Announced l 84 pre
      · by_cases hw : WindowOpen l (pre ++ [e])
        · refine ⟨.awaitingReopen, ⟨ha, hh, hw⟩, fun why h => ?_⟩
          cases why with
          | beforeFirstAction => exact absurd hk h
          | operationalHalt => exact absurd h.2 hh
          | whileNotTrading => exact absurd ha h.2.2
          | awaitingReopen => rfl
          | unexplained => exact absurd hw h.2.2
        · refine ⟨.unexplained, ⟨ha, hh, hw⟩, fun why h => ?_⟩
          cases why with
          | beforeFirstAction => exact absurd hk h
          | operationalHalt => exact absurd h.2 hh
          | whileNotTrading => exact absurd ha h.2.2
          | awaitingReopen => exact absurd h.2.2 hw
          | unexplained => rfl
      · refine ⟨.whileNotTrading, ⟨hk, hh, ha⟩, fun why h => ?_⟩
        cases why with
        | beforeFirstAction => exact absurd hk h
        | operationalHalt => exact absurd h.2 hh
        | whileNotTrading => rfl
        | awaitingReopen => exact absurd h.1 ha
        | unexplained => exact absurd h.1 ha
  · refine ⟨.beforeFirstAction, hk, fun why h => ?_⟩
    cases why with
    | beforeFirstAction => rfl
    | operationalHalt => exact absurd h.1 hk
    | whileNotTrading => exact absurd h.1 hk
    | awaitingReopen => exact absurd (hknown h.1) hk
    | unexplained => exact absurd (hknown h.1) hk

/-- Only observations are counted. -/
theorem tally_snoc_of_unobserved (h : ∀ l bid ask ts, e ≠ .observation l bid ask ts)
    (why : ReferenceBook.Excuse) : tally (CrossedAs why) (T ++ [e]) = tally (CrossedAs why) T ∧
      tally (LockedAs why) (T ++ [e]) = tally (LockedAs why) T ∧ tally Caps (T ++ [e]) = tally Caps T := by
  refine ⟨tally_snoc_of_not ?_, tally_snoc_of_not ?_, tally_snoc_of_not ?_⟩
  · rintro ⟨l, bid, ask, ts, hc, -⟩
    exact h l bid ask ts hc
  · rintro ⟨l, price, ts, hc, -⟩
    exact h l price price ts hc
  · rintro ⟨l, -, ts, -, ⟨bid, ask, hc, -⟩, -⟩
    exact h l bid ask ts hc

end Gate

/-! ## The fields say what the history says -/

/-- The counters of the gate, by the classification where there is one. -/
structure GateCounters where
  crossed : ReferenceBook.Excuse → ℕ
  locked : ReferenceBook.Excuse → ℕ
  crossedObservations : ℕ
  lockedObservations : ℕ
  capped : ℕ

def RefCounters.gate (c : RefCounters) : GateCounters where
  crossed
    | .beforeFirstAction => c.crossedBeforeFirstAction
    | .operationalHalt => c.crossedOperationalHalt
    | .whileNotTrading => c.crossedWhileNotTrading
    | .awaitingReopen => c.crossedAwaitingReopen
    | .unexplained => c.crossedUnexplained
  locked
    | .beforeFirstAction => c.lockedBeforeFirstAction
    | .operationalHalt => c.lockedOperationalHalt
    | .whileNotTrading => c.lockedWhileNotTrading
    | .awaitingReopen => c.lockedAwaitingReopen
    | .unexplained => c.lockedUnexplained
  crossedObservations := c.crossedObservations
  lockedObservations := c.lockedObservations
  capped := c.reopenWindowsCapped

/-- All classes together. -/
def GateCounters.total (f : ReferenceBook.Excuse → ℕ) : ℕ :=
  f .beforeFirstAction + f .operationalHalt + f .whileNotTrading + f .awaitingReopen + f .unexplained

/-- One more in one class. -/
theorem GateCounters.total_succ (f : ReferenceBook.Excuse → ℕ) (why : ReferenceBook.Excuse) :
    GateCounters.total (fun w => f w + if why = w then 1 else 0) = GateCounters.total f + 1 := by
  unfold total
  cases why <;> simp <;> omega

/-- The classes together are what they divide. -/
theorem GateCounters.total_tally {P : ReferenceBook.Excuse → List GateEvent → GateEvent → Prop}
    {Q : List GateEvent → GateEvent → Prop} (hone : ∀ pre e, Q pre e → ∃ why, ∀ w, P w pre e ↔ why = w)
    (hin : ∀ pre e w, P w pre e → Q pre e) (T : List GateEvent) :
    GateCounters.total (fun why => tally (P why) T) = tally Q T := by
  classical
  induction T using List.reverseRecOn with
  | nil => rfl
  | append_singleton T e ih =>
    rw [tally_snoc, ← ih]
    by_cases hQ : Q T e
    · obtain ⟨why, hwhy⟩ := hone T e hQ
      rw [if_pos hQ, ← GateCounters.total_succ _ why]
      refine congrArg GateCounters.total (funext fun w => ?_)
      rw [tally_snoc]
      exact congrArg (_ + ·) (if_congr (hwhy w) rfl rfl)
    · rw [if_neg hQ, add_zero]
      refine congrArg GateCounters.total (funext fun w => ?_)
      exact tally_snoc_of_not fun h => hQ (hin T e w h)

namespace Gate

theorem total_crossedAs (T : List GateEvent) :
    GateCounters.total (fun why => tally (CrossedAs why) T) = tally (fun _ e => CrossedSeen e) T := by
  refine GateCounters.total_tally ?_ ?_ T
  · rintro pre e ⟨l, bid, ask, ts, rfl, hlt⟩
    obtain ⟨why, hwhy, honly⟩ := existsUnique_classed l pre (.observation l bid ask ts)
    refine ⟨why, fun w => ⟨?_, ?_⟩⟩
    · rintro ⟨l', bid', ask', ts', hc, -, hw⟩
      obtain ⟨rfl, rfl, rfl, rfl⟩ := GateEvent.observation.inj hc
      exact (honly w hw).symm
    · rintro rfl
      exact ⟨l, bid, ask, ts, rfl, hlt, hwhy⟩
  · rintro pre e w ⟨l, bid, ask, ts, he, hlt, -⟩
    exact ⟨l, bid, ask, ts, he, hlt⟩

theorem total_lockedAs (T : List GateEvent) :
    GateCounters.total (fun why => tally (LockedAs why) T) = tally (fun _ e => LockedSeen e) T := by
  refine GateCounters.total_tally ?_ ?_ T
  · rintro pre e ⟨l, price, ts, rfl⟩
    obtain ⟨why, hwhy, honly⟩ := existsUnique_classed l pre (.observation l price price ts)
    refine ⟨why, fun w => ⟨?_, ?_⟩⟩
    · rintro ⟨l', price', ts', hc, hw⟩
      obtain ⟨rfl, rfl, -, rfl⟩ := GateEvent.observation.inj hc
      exact (honly w hw).symm
    · rintro rfl
      exact ⟨l, price, ts, rfl, hwhy⟩
  · rintro pre e w ⟨l, price, ts, he, -⟩
    exact ⟨l, price, ts, he⟩

end Gate

namespace ReferenceBook

open Gate

variable {b b' : ReferenceBook} {T : List GateEvent}

/-- The trading state of a symbol; a default one before anything is known. -/
def gate (b : ReferenceBook) (l : UInt16) : TradingState := b.tradingState.getD l {}

/-- What the gate keeps of a symbol, by the history. -/
structure SymbolReads (t : TradingState) (l : UInt16) (T : List GateEvent) : Prop where
  state : ∀ s, s ≠ 0 → (t.state = s ↔ Announced l s T)
  halted : t.operationallyHalted = true ↔ Halted l T
  awaiting : t.awaitingReopen = true ↔ WindowOpen l T
  entered : ∀ ts, EnteredAt l ts T → t.enteredTTs = ts

variable {t : TradingState} {l : UInt16}

theorem SymbolReads.foreign (h : SymbolReads t l T) {e : GateEvent} (hl : e.locate ≠ l) :
    SymbolReads t l (T ++ [e]) := by
  obtain ⟨ha, hh, he, hw⟩ := Gate.foreign (T := T) hl
  exact ⟨fun s hs => (h.state s hs).trans (ha s).symm, h.halted.trans hh.symm, h.awaiting.trans hw.symm,
    fun ts hts => h.entered ts ((he ts).mp hts)⟩

/-- What the gate keeps and counts, by the history. -/
structure Reads (b : ReferenceBook) (T : List GateEvent) : Prop where
  symbol : ∀ l, SymbolReads (b.gate l) l T
  crossed : ∀ why, b.counters.gate.crossed why = tally (CrossedAs why) T
  locked : ∀ why, b.counters.gate.locked why = tally (LockedAs why) T
  capped : b.counters.gate.capped = tally Caps T
  crossed_total : b.counters.gate.crossedObservations = GateCounters.total b.counters.gate.crossed
  locked_total : b.counters.gate.lockedObservations = GateCounters.total b.counters.gate.locked

/-- Only the trading states and the counters of the gate matter. -/
theorem Reads.congr (h : Reads b T) (hstate : b'.tradingState = b.tradingState)
    (hcounts : b'.counters.gate = b.counters.gate) : Reads b' T where
  symbol l := by
    have hgate : b'.gate l = b.gate l := by unfold ReferenceBook.gate; rw [hstate]
    rw [hgate]
    exact h.symbol l
  crossed := hcounts ▸ h.crossed
  locked := hcounts ▸ h.locked
  capped := hcounts ▸ h.capped
  crossed_total := hcounts ▸ h.crossed_total
  locked_total := hcounts ▸ h.locked_total

theorem reads_new (code : UInt8) : Reads { venueMarketCode := code } [] where
  symbol l := by
    have hgate : gate { venueMarketCode := code } l = {} := Std.TreeMap.getD_emptyc
    rw [hgate]
    exact ⟨fun s hs => iff_of_false (Ne.symm hs) not_since_nil, iff_of_false Bool.false_ne_true not_since_nil,
      iff_of_false Bool.false_ne_true not_since_nil, fun ts hc => absurd hc not_since_nil⟩
  crossed why := by cases why <;> rfl
  locked why := by cases why <;> rfl
  capped := rfl
  crossed_total := rfl
  locked_total := rfl

theorem gate_insert (hstate : b'.tradingState = b.tradingState.insert l t) (k : UInt16) :
    b'.gate k = if k = l then t else b.gate k := by
  unfold gate
  rw [hstate, Std.TreeMap.getD_insert]
  exact if_congr (Std.LawfulEqCmp.compare_eq_iff_eq.trans eq_comm) rfl rfl

/-- An event that is no observation, when the trading state of its symbol becomes `t`. -/
theorem Reads.set (h : Reads b T) {e : GateEvent} (hl : e.locate = l)
    (hnone : ∀ l bid ask ts, e ≠ .observation l bid ask ts)
    (hgate : ∀ k, b'.gate k = if k = l then t else b.gate k)
    (hcounts : b'.counters.gate = b.counters.gate) (ht : SymbolReads t l (T ++ [e])) : Reads b' (T ++ [e]) where
  symbol k := by
    rw [hgate]
    split
    · rename_i hk
      rw [hk]
      exact ht
    · rename_i hk
      exact (h.symbol k).foreign (hl.trans_ne (Ne.symm hk))
  crossed why := by rw [hcounts, (tally_snoc_of_unobserved hnone why).1]; exact h.crossed why
  locked why := by rw [hcounts, (tally_snoc_of_unobserved hnone why).2.1]; exact h.locked why
  capped := by
    rw [hcounts, (tally_snoc_of_unobserved hnone .unexplained).2.2]
    exact h.capped
  crossed_total := hcounts ▸ h.crossed_total
  locked_total := hcounts ▸ h.locked_total

theorem SymbolReads.known_iff (h : SymbolReads t l T) : t.state ≠ 0 ↔ Known l T := by
  constructor
  · intro hne
    exact ⟨_, hne, (h.state _ hne).mp rfl⟩
  · rintro ⟨s, hs, hannounced⟩
    rw [(h.state s hs).mpr hannounced]
    exact hs

/-- A trading action announces `s`. -/
theorem SymbolReads.action (h : SymbolReads t l T) (s : UInt8) (ts : ℕ) :
    SymbolReads
      { t with
        enteredTTs := if s = 84 ∧ t.state ≠ 84 then ts else t.enteredTTs
        awaitingReopen := if (s = 84 ∧ t.state ≠ 84) ∧ t.state ≠ 0 then true else t.awaitingReopen
        state := s } l (T ++ [.action l s ts]) := by
  have henters : ∀ ts', Enters l ts' T (.action l s ts) ↔ (s = 84 ∧ t.state ≠ 84) ∧ ts = ts' := by
    intro ts'
    unfold Enters
    rw [← h.state 84 (by decide)]
    simp only [GateEvent.action.injEq, true_and]
    tauto
  refine ⟨fun s' _ => ?_, ?_, ?_, fun ts' hts => ?_⟩
  · rw [announced_snoc_action]
    exact eq_comm
  · rw [halted_snoc (fun _ hc => by cases hc)]
    exact h.halted
  · have hcloses : ¬ Closes l T (.action l s ts) := by
      rintro (hc | ⟨_, _, _, hc, -⟩ | ⟨_, _, ⟨_, _, hc, -⟩, -⟩) <;> cases hc
    unfold WindowOpen
    rw [since_snoc, and_iff_left hcloses]
    unfold Opens
    simp only [henters, ← h.known_iff]
    have hopen := h.awaiting
    unfold WindowOpen Opens at hopen
    split
    · rename_i hc
      exact iff_of_true rfl (.inl ⟨ts, ⟨hc.1, rfl⟩, hc.2⟩)
    · rename_i hc
      refine hopen.trans (or_iff_right ?_).symm
      rintro ⟨ts', ⟨hs, -⟩, hne⟩
      exact hc ⟨hs, hne⟩
  · rcases since_snoc.mp hts with hnow | ⟨hbefore, hnot⟩
    · obtain ⟨hs, rfl⟩ := (henters ts').mp hnow
      exact if_pos hs
    · have hne : ¬ (s = 84 ∧ t.state ≠ 84) := fun hs => hnot ⟨ts, (henters ts).mpr ⟨hs, rfl⟩⟩
      exact (if_neg hne).trans (h.entered ts' hbefore)

theorem Reads.stockTradingAction (h : Reads b T) (v : StockTradingAction) :
    Reads (b.onStockTradingAction v) (T ++ [.action v.locate v.tradingState v.ts.toNat]) :=
  h.set rfl (fun _ _ _ _ hc => by cases hc) (gate_insert rfl) rfl ((h.symbol v.locate).action _ _)

/-- An operational halt for the replayed market. -/
theorem SymbolReads.halt (h : SymbolReads t l T) (action : UInt8) (halted : Bool)
    (hhalted : halted = true ↔ action = 72 ∨ action ≠ 84 ∧ t.operationallyHalted = true) :
    SymbolReads { t with operationallyHalted := halted } l (T ++ [.halt l action]) := by
  have hcloses : ¬ Closes l T (.halt l action) := by
    rintro (hc | ⟨_, _, _, hc, -⟩ | ⟨_, _, ⟨_, _, hc, -⟩, -⟩) <;> cases hc
  have haction : ∀ s ts, GateEvent.halt l action ≠ .action l s ts := fun _ _ hc => by cases hc
  refine ⟨fun s hs => ?_, ?_, ?_, fun ts hts => h.entered ts ((enteredAt_snoc haction ts).mp hts)⟩
  · rw [announced_snoc haction]
    exact h.state s hs
  · rw [halted_snoc_halt, ← h.halted]
    exact hhalted
  · rw [windowOpen_snoc haction, and_iff_left hcloses]
    exact h.awaiting

theorem Reads.operationalHalt (h : Reads b T) (v : OperationalHalt) :
    Reads (b.onOperationalHalt v) (T ++ b.events (.operationalHalt v)) := by
  unfold onOperationalHalt events
  by_cases hcode : v.marketCode = b.venueMarketCode
  · dsimp only
    rw [if_neg (not_not.mpr hcode), if_pos hcode]
    have hsym := h.symbol v.locate
    split_ifs with hhalt hrelease
    · refine h.set rfl (fun _ _ _ _ hc => by cases hc) (gate_insert rfl) rfl (hsym.halt _ true ?_)
      exact iff_of_true rfl (.inl hhalt)
    · refine h.set rfl (fun _ _ _ _ hc => by cases hc) (gate_insert rfl) rfl (hsym.halt _ false ?_)
      exact iff_of_false Bool.false_ne_true fun hc => hc.elim hhalt fun hc => hc.1 hrelease
    · refine h.set rfl (fun _ _ _ _ hc => by cases hc) (gate_insert rfl) rfl
        (hsym.halt _ (b.gate v.locate).operationallyHalted ?_)
      exact ⟨fun hc => .inr ⟨hrelease, hc⟩, fun hc => hc.elim (absurd · hhalt) And.right⟩
  · dsimp only
    rw [if_pos hcode, if_neg hcode, List.append_nil]
    exact h

/-- A cross trade. -/
theorem SymbolReads.cross (h : SymbolReads t l T) :
    SymbolReads { t with awaitingReopen := false } l (T ++ [.cross l]) := by
  have haction : ∀ s ts, GateEvent.cross l ≠ .action l s ts := fun _ _ hc => by cases hc
  refine ⟨fun s hs => ?_, ?_, ?_, fun ts hts => h.entered ts ((enteredAt_snoc haction ts).mp hts)⟩
  · rw [announced_snoc haction]
    exact h.state s hs
  · rw [halted_snoc (fun _ hc => by cases hc)]
    exact h.halted
  · rw [windowOpen_snoc haction]
    exact iff_of_false Bool.false_ne_true fun hc => hc.2 (.inl rfl)

theorem Reads.crossTrade (h : Reads b T) (v : CrossTrade) :
    Reads (b.onCrossTrade v) (T ++ [.cross v.locate]) := by
  unfold onCrossTrade
  obtain ⟨c, hc, hreads⟩ : ∃ c, (if v.shares = 0 then
      b.count fun c => { c with zeroShareCross := c.zeroShareCross + 1 } else b) = c ∧ Reads c T := by
    refine ⟨_, rfl, ?_⟩
    split
    · exact h.congr rfl rfl
    · exact h
  dsimp only
  rw [hc]
  have hnone : ∀ l bid ask ts, GateEvent.cross v.locate ≠ .observation l bid ask ts :=
    fun _ _ _ _ hc => by cases hc
  have hsym := (hreads.symbol v.locate).cross
  have hsame : (c.gate v.locate).awaitingReopen = false →
      ∀ k, c.gate k = if k = v.locate then { c.gate v.locate with awaitingReopen := false } else c.gate k := by
    intro hfalse k
    split
    · rename_i hk
      rw [hk, ← hfalse]
    · rfl
  have hgate : c.gate v.locate = c.tradingState[v.locate]?.getD {} := Std.TreeMap.getD_eq_getD_getElem?
  cases ht : c.tradingState[v.locate]? with
  | none =>
    rw [ht] at hgate
    exact hreads.set rfl hnone (hsame (by rw [hgate]; rfl)) rfl hsym
  | some t =>
    obtain rfl : t = c.gate v.locate := by rw [hgate, ht, Option.getD_some]
    dsimp only
    split
    · exact hreads.set rfl hnone (gate_insert rfl) rfl hsym
    · rename_i hfalse
      exact hreads.set rfl hnone (hsame (Bool.eq_false_iff.mpr hfalse)) rfl hsym

/-- The observation finds the window open, and past the cap. -/
def late (t : TradingState) (bid ask : Price) (ts : ℕ) : Bool :=
  t.awaitingReopen && decide (ask ≤ bid) && decide (t.enteredTTs + kReopenCapNs < ts)

/-- The trading state after an observation. -/
def observed (t : TradingState) (bid ask : Price) (ts : ℕ) : TradingState :=
  { t with awaitingReopen := t.awaitingReopen && !late t bid ask ts && decide (ask ≤ bid) }

theorem excuse_getD (t : Option TradingState) (awaiting : Bool) :
    excuse t awaiting = excuse (some (t.getD {})) awaiting := by
  cases t with
  | none => rfl
  | some t => rfl

theorem gate_crossed (c : RefCounters) (l : UInt16) (ts depth : ℕ) (why : Excuse) :
    (crossed c l ts depth why).gate = { c.gate with
      crossed := fun w => c.gate.crossed w + if why = w then 1 else 0
      crossedObservations := c.gate.crossedObservations + 1 } := by
  unfold RefCounters.gate
  congr 1
  · funext w
    cases why <;> cases w <;> rfl
  · cases why <;> rfl
  all_goals cases why <;> rfl

theorem gate_locked (c : RefCounters) (l : UInt16) (ts : ℕ) (why : Excuse) :
    (locked c l ts why).gate = { c.gate with
      locked := fun w => c.gate.locked w + if why = w then 1 else 0
      lockedObservations := c.gate.lockedObservations + 1 } := by
  unfold RefCounters.gate
  congr 1
  · cases why <;> rfl
  · funext w
    cases why <;> cases w <;> rfl
  all_goals cases why <;> rfl

/-- The counters after an observation that is classified `why`. -/
def counted (c : GateCounters) (bid ask : Price) (capped : Bool) (why : Excuse) : GateCounters where
  crossed := fun w => c.crossed w + if ask < bid ∧ why = w then 1 else 0
  locked := fun w => c.locked w + if bid = ask ∧ why = w then 1 else 0
  crossedObservations := c.crossedObservations + if ask < bid then 1 else 0
  lockedObservations := c.lockedObservations + if bid = ask then 1 else 0
  capped := c.capped + if capped = true then 1 else 0

/-- What an observation of a symbol with orders on both sides does to what the gate keeps and counts. -/
structure Observes (b b' : ReferenceBook) (l : UInt16) (bid ask : Price) (ts : ℕ) : Prop where
  gate : ∀ k, b'.gate k = if k = l then observed (b.gate l) bid ask ts else b.gate k
  counters : b'.counters.gate = counted b.counters.gate bid ask (late (b.gate l) bid ask ts)
    (excuse (some (b.gate l)) (observed (b.gate l) bid ask ts).awaitingReopen)

/-- The capped test, as the source writes it on the trading state. -/
theorem late_gate (b : ReferenceBook) (l : UInt16) (bid ask : Price) (ts : ℕ) :
    ((b.tradingState[l]?.any fun t => t.awaitingReopen) && decide (bid ≥ ask) &&
      b.tradingState[l]?.any fun t => decide (ts ≥ t.enteredTTs) && decide (ts - t.enteredTTs > kReopenCapNs)) =
        late (b.gate l) bid ask ts := by
  rw [show b.gate l = b.tradingState[l]?.getD {} from Std.TreeMap.getD_eq_getD_getElem?]
  unfold late
  cases b.tradingState[l]? with
  | none => simp
  | some t =>
    simp only [Option.any_some, Option.getD_some]
    congr 1
    rw [← Bool.decide_and]
    exact decide_eq_decide.mpr ⟨fun hc => by omega, fun hc => by omega⟩

/-- The book when a window that is too old has been closed. -/
theorem gate_capped (b : ReferenceBook) (l : UInt16) (old : Bool) :
    ∃ c, (if old = true then
      (b.closeWindow l (b.gate l)).count fun c => { c with reopenWindowsCapped := c.reopenWindowsCapped + 1 }
        else b) = c ∧
      (∀ k, c.gate k = if k = l then { b.gate l with
        awaitingReopen := (b.gate l).awaitingReopen && !old } else b.gate k) ∧
      c.counters.gate = { b.counters.gate with
        capped := b.counters.gate.capped + if old = true then 1 else 0 } := by
  refine ⟨_, rfl, ?_⟩
  cases old with
  | true =>
    refine ⟨fun k => ?_, rfl⟩
    rw [Bool.not_true, Bool.and_false]
    exact gate_insert rfl k
  | false =>
    refine ⟨fun k => ?_, rfl⟩
    rw [if_neg Bool.false_ne_true, Bool.not_false, Bool.and_true]
    split
    · rename_i hk
      rw [hk]
    · rfl

theorem observes_checkBbo (b : ReferenceBook) {l : UInt16} {bid ask : Price}
    (hbid : (b.symbol l).bind RefSymbol.bestBid = some bid)
    (hask : (b.symbol l).bind RefSymbol.bestAsk = some ask) (ts : ℕ) :
    Observes b (b.checkBbo l ts) l bid ask ts := by
  obtain ⟨s, hs, hbid⟩ := Option.bind_eq_some_iff.mp hbid
  rw [hs, Option.bind_some] at hask
  have hgate : b.gate l = b.tradingState[l]?.getD {} := Std.TreeMap.getD_eq_getD_getElem?
  have hsymbol : b.symbols[l]? = some s := hs
  unfold ReferenceBook.checkBbo
  rw [hsymbol]
  dsimp only
  rw [hbid, hask]
  dsimp only
  have hawaiting : (b.tradingState[l]?.any fun t => t.awaitingReopen) = (b.gate l).awaitingReopen := by
    rw [hgate]
    cases b.tradingState[l]? <;> rfl
  rw [late_gate, hawaiting, excuse_getD, ← hgate]
  obtain ⟨c, hc, hcgate, hccounters⟩ := gate_capped b l (late (b.gate l) bid ask ts)
  rw [hc]
  have htouch : ask ≤ bid → observed (b.gate l) bid ask ts = { b.gate l with
      awaitingReopen := (b.gate l).awaitingReopen && !late (b.gate l) bid ask ts } := fun hle => by
    unfold observed
    rw [decide_eq_true hle, Bool.and_true]
  -- the cases are those of the source
  by_cases hgt : bid > ask
  · have hne : ¬ bid = ask := fun hc => UInt32.lt_irrefl ask (hc ▸ hgt)
    have hobs := htouch (UInt32.le_of_lt hgt)
    rw [if_pos hgt]
    refine ⟨fun k => ?_, ?_⟩
    · rw [hobs]
      exact hcgate k
    · refine (gate_crossed _ _ _ _ _).trans ?_
      rw [hccounters, hobs]
      unfold counted
      simp [hgt, hne]
  · rw [if_neg hgt]
    by_cases heq : bid = ask
    · have hobs := htouch (UInt32.not_lt.mp (heq ▸ hgt))
      rw [if_pos heq]
      refine ⟨fun k => ?_, ?_⟩
      · rw [hobs]
        exact hcgate k
      · refine (gate_locked _ _ _ _).trans ?_
        rw [hccounters, hobs]
        unfold counted
        simp [heq]
    · have hnle : ¬ ask ≤ bid := fun hc => heq (UInt32.le_antisymm (UInt32.not_lt.mp hgt) hc)
      have hobs : observed (b.gate l) bid ask ts = { b.gate l with awaitingReopen := false } := by
        unfold observed
        rw [decide_eq_false hnle, Bool.and_false]
      have hlate : late (b.gate l) bid ask ts = false := by
        unfold late
        rw [decide_eq_false hnle, Bool.and_false, Bool.false_and]
      rw [if_neg heq]
      obtain ⟨d, hd, hdgate, hdcounters⟩ : ∃ d,
          (if ((b.gate l).awaitingReopen && !late (b.gate l) bid ask ts) = true then
            (c.closeWindow l (b.gate l)).count fun c => heldOpen c ts (b.gate l) else c) = d ∧
          (∀ k, d.gate k = if k = l then { b.gate l with awaitingReopen := false } else b.gate k) ∧
          d.counters.gate = c.counters.gate := by
        refine ⟨_, rfl, ?_⟩
        rw [hlate, Bool.not_false, Bool.and_true] at hcgate ⊢
        split
        · refine ⟨fun k => (gate_insert rfl k).trans ?_, rfl⟩
          split
          · rfl
          · rename_i hk
            rw [hcgate, if_neg hk]
        · rename_i hfalse
          rw [Bool.eq_false_iff.mpr hfalse] at hcgate
          exact ⟨hcgate, rfl⟩
      rw [hd]
      refine ⟨fun k => ?_, ?_⟩
      · rw [hobs]
        exact hdgate k
      · rw [hdcounters, hccounters]
        unfold counted
        simp [hgt, heq]

theorem SymbolReads.late_iff (h : SymbolReads t l T) (bid ask : Price) (ts : ℕ) :
    late t bid ask ts = true ↔ WindowOpen l T ∧ Late l T (.observation l bid ask ts) := by
  unfold late
  simp only [Bool.and_eq_true, decide_eq_true_eq, and_assoc]
  rw [h.awaiting]
  refine and_congr_right fun hopen => ?_
  obtain ⟨entered, hentered⟩ := entered_of_open hopen
  constructor
  · rintro ⟨hle, hlt⟩
    exact ⟨ts, entered, ⟨bid, ask, rfl, hle⟩, hentered, h.entered entered hentered ▸ hlt⟩
  · rintro ⟨ts', entered', ⟨bid', ask', hobs, hle⟩, hentered', hlt⟩
    obtain ⟨-, rfl, rfl, rfl⟩ := GateEvent.observation.inj hobs
    exact ⟨hle, (h.entered entered' hentered').symm ▸ hlt⟩

theorem SymbolReads.observation (h : SymbolReads t l T) (bid ask : Price) (ts : ℕ) :
    SymbolReads (observed t bid ask ts) l (T ++ [.observation l bid ask ts]) := by
  have haction : ∀ s ts', GateEvent.observation l bid ask ts ≠ .action l s ts' := fun _ _ hc => by cases hc
  refine ⟨fun s hs => ?_, ?_, ?_, fun ts' hts => h.entered ts' ((enteredAt_snoc haction ts').mp hts)⟩
  · rw [announced_snoc haction]
    exact h.state s hs
  · rw [halted_snoc (fun _ hc => by cases hc)]
    exact h.halted
  · rw [windowOpen_snoc haction, ← h.awaiting]
    unfold observed
    simp only [Bool.and_eq_true, Bool.not_eq_true', decide_eq_true_eq, and_assoc]
    refine and_congr_right fun hopen => ?_
    rw [← Bool.not_eq_true, h.late_iff, and_iff_right (h.awaiting.mp hopen)]
    constructor
    · rintro ⟨hnot, hle⟩ (hc | ⟨bid', ask', ts', hc, hlt⟩ | hc)
      · cases hc
      · obtain ⟨-, rfl, rfl, rfl⟩ := GateEvent.observation.inj hc
        exact absurd hlt (UInt32.not_lt.mpr hle)
      · exact hnot hc
    · intro hnot
      exact ⟨fun hc => hnot (.inr (.inr hc)),
        UInt32.not_lt.mp fun hlt => hnot (.inr (.inl ⟨bid, ask, ts, rfl, hlt⟩))⟩

/-- The classification, by the fields. -/
theorem excuse_eq_iff (t : TradingState) (awaiting : Bool) (why : Excuse) :
    excuse (some t) awaiting = why ↔
      match why with
      | .beforeFirstAction => ¬ t.state ≠ 0
      | .operationalHalt => t.state ≠ 0 ∧ t.operationallyHalted = true
      | .whileNotTrading => t.state ≠ 0 ∧ ¬ t.operationallyHalted = true ∧ ¬ t.state = 84
      | .awaitingReopen => t.state = 84 ∧ ¬ t.operationallyHalted = true ∧ awaiting = true
      | .unexplained => t.state = 84 ∧ ¬ t.operationallyHalted = true ∧ ¬ awaiting = true := by
  unfold excuse
  by_cases hknown : t.state = 0
  · cases why <;> simp [hknown]
  · cases hhalt : t.operationallyHalted
    · by_cases htrading : t.state = 84
      · cases awaiting <;> cases why <;> simp [hhalt, htrading]
      · cases why <;> simp [hknown, hhalt, htrading]
    · cases why <;> simp [hknown, hhalt]

/-- The classification, by the history. -/
theorem SymbolReads.excuse_eq_iff (h : SymbolReads t l T) {e : GateEvent} {awaiting : Bool}
    (hw : awaiting = true ↔ WindowOpen l (T ++ [e])) (why : Excuse) :
    excuse (some t) awaiting = why ↔ Classed l T e why := by
  rw [ReferenceBook.excuse_eq_iff]
  have htrading := h.state 84 (by decide)
  cases why with
  | beforeFirstAction => exact not_congr h.known_iff
  | operationalHalt => exact and_congr h.known_iff h.halted
  | whileNotTrading => exact and_congr h.known_iff (and_congr (not_congr h.halted) (not_congr htrading))
  | awaitingReopen => exact and_congr htrading (and_congr (not_congr h.halted) hw)
  | unexplained => exact and_congr htrading (and_congr (not_congr h.halted) (not_congr hw))

/-- A look at a symbol without orders on both sides observes nothing. -/
theorem checkBbo_of_look (l : UInt16) (ts : ℕ) (h : b.look l ts = []) : b.checkBbo l ts = b := by
  unfold look symbol at h
  unfold ReferenceBook.checkBbo
  cases hs : b.symbols[l]? with
  | none => rfl
  | some s =>
    rw [hs, Option.bind_some, Option.bind_some] at h
    dsimp only
    cases hbid : s.bestBid with
    | none => rfl
    | some bid =>
      cases hask : s.bestAsk with
      | none => rfl
      | some ask =>
        rw [hbid, hask] at h
        cases h

/-- A look at a symbol. -/
theorem Reads.checkBbo (h : Reads b T) (l : UInt16) (ts : ℕ) :
    Reads (b.checkBbo l ts) (T ++ b.look l ts) := by
  classical
  have hnone : b.look l ts = [] → Reads (b.checkBbo l ts) (T ++ b.look l ts) := fun hlook => by
    rw [checkBbo_of_look l ts hlook, hlook, List.append_nil]
    exact h
  cases hbid : (b.symbol l).bind RefSymbol.bestBid with
  | none =>
    refine hnone ?_
    unfold look
    rw [hbid]
  | some bid =>
    cases hask : (b.symbol l).bind RefSymbol.bestAsk with
    | none =>
      refine hnone ?_
      unfold look
      rw [hbid, hask]
    | some ask =>
      have hobs := observes_checkBbo b hbid hask ts
      have hlook : b.look l ts = [.observation l bid ask ts] := by
        unfold look
        rw [hbid, hask]
      have hsym := h.symbol l
      have hnext := hsym.observation bid ask ts
      rw [hlook]
      refine ⟨fun k => ?_, fun why => ?_, fun why => ?_, ?_, ?_, ?_⟩
      · rw [hobs.gate]
        split
        · rename_i hk
          rw [hk]
          exact hnext
        · rename_i hk
          exact (h.symbol k).foreign (Ne.symm hk)
      · rw [hobs.counters, tally_snoc, ← h.crossed]
        refine congrArg (_ + ·) (if_congr ?_ rfl rfl)
        rw [hsym.excuse_eq_iff hnext.awaiting]
        constructor
        · rintro ⟨hlt, hclassed⟩
          exact ⟨l, bid, ask, ts, rfl, hlt, hclassed⟩
        · rintro ⟨l', bid', ask', ts', hc, hlt, hclassed⟩
          obtain ⟨rfl, rfl, rfl, rfl⟩ := GateEvent.observation.inj hc
          exact ⟨hlt, hclassed⟩
      · rw [hobs.counters, tally_snoc, ← h.locked]
        refine congrArg (_ + ·) (if_congr ?_ rfl rfl)
        rw [hsym.excuse_eq_iff hnext.awaiting]
        constructor
        · rintro ⟨rfl, hclassed⟩
          exact ⟨l, bid, ts, rfl, hclassed⟩
        · rintro ⟨l', price, ts', hc, hclassed⟩
          obtain ⟨rfl, rfl, rfl, rfl⟩ := GateEvent.observation.inj hc
          exact ⟨rfl, hclassed⟩
      · rw [hobs.counters, tally_snoc, ← h.capped]
        refine congrArg (_ + ·) (if_congr ?_ rfl rfl)
        rw [hsym.late_iff]
        constructor
        · rintro ⟨hopen, hlate⟩
          exact ⟨l, hopen, hlate⟩
        · rintro ⟨l', hopen, hlate⟩
          obtain ⟨ts', entered, ⟨bid', ask', hc, hle⟩, hrest⟩ := hlate
          obtain ⟨rfl, rfl, rfl, rfl⟩ := GateEvent.observation.inj hc
          exact ⟨hopen, _, entered, ⟨_, _, rfl, hle⟩, hrest⟩
      · rw [hobs.counters]
        unfold counted
        by_cases hlt : ask < bid
        · simp only [hlt, true_and, if_true, GateCounters.total_succ, h.crossed_total]
        · simp only [hlt, false_and, if_false, Nat.add_zero, h.crossed_total]
      · rw [hobs.counters]
        unfold counted
        by_cases heq : bid = ask
        · simp only [heq, true_and, if_true, GateCounters.total_succ, h.locked_total]
        · simp only [heq, false_and, if_false, Nat.add_zero, h.locked_total]

/-! ## One message -/

/-- What the gate keeps and counts is the same in both. -/
structure SameGate (b b' : ReferenceBook) : Prop where
  state : b'.tradingState = b.tradingState
  counters : b'.counters.gate = b.counters.gate

theorem SameGate.refl (b : ReferenceBook) : SameGate b b := ⟨rfl, rfl⟩

theorem SameGate.trans {c : ReferenceBook} (h : SameGate b b') (h' : SameGate b' c) : SameGate b c :=
  ⟨h'.state.trans h.state, h'.counters.trans h.counters⟩

theorem Reads.same (h : Reads b T) (hb : SameGate b b') : Reads b' T := h.congr hb.state hb.counters

theorem sameGate_erase (b : ReferenceBook) (ref : Ref) (o : RefOrder) : SameGate b (b.erase ref o) := by
  obtain ⟨symbols, h⟩ := erase_frame b ref o
  rw [h]
  exact ⟨rfl, rfl⟩

theorem sameGate_remove (b : ReferenceBook) (ref : Ref) : SameGate b (b.remove ref).2 := by
  unfold remove
  split
  · exact SameGate.refl b
  · exact sameGate_erase b ref _

theorem sameGate_execute (b : ReferenceBook) (ref : Ref) (qty : Shares) :
    SameGate b (b.execute ref qty).2 := by
  unfold execute
  cases b.orders[ref]? with
  | none => exact SameGate.refl b
  | some o =>
    dsimp only
    obtain ⟨c, hc, hsame⟩ : ∃ c, (if qty > o.shares then
        b.count fun c => { c with overExecute := c.overExecute + 1 } else b) = c ∧ SameGate b c := by
      refine ⟨_, rfl, ?_⟩
      split
      · exact ⟨rfl, rfl⟩
      · exact SameGate.refl b
    rw [hc]
    split
    · exact hsame.trans ⟨rfl, rfl⟩
    · split
      · refine hsame.trans (SameGate.trans ?_ (sameGate_erase _ ref _))
        exact ⟨rfl, rfl⟩
      · exact hsame.trans ⟨rfl, rfl⟩

/-- An observation does not change what is observed. -/
@[simp] theorem look_checkBbo (b : ReferenceBook) (l l' : UInt16) (ts ts' : ℕ) :
    (b.checkBbo l ts).look l' ts' = b.look l' ts' := by
  unfold look symbol
  rw [(checkBbo_frame b l ts).symbols]

/-- What is looked at once the orders have changed. -/
theorem Reads.looks (h : Reads b T) (hb : SameGate b b') (locate : UInt16) (ts : ℕ) :
    Reads (b'.checkBbo locate ts) (T ++ (b'.checkBbo locate ts).look locate ts) := by
  rw [look_checkBbo]
  exact (h.same hb).checkBbo locate ts

/-- An add is one look. -/
theorem Reads.addRetained (h : Reads b T) (locate : UInt16) (ref : Ref) (side : UInt8) (price : Price)
    (shares : Shares) (stock attribution : Bytes) (ts : ℕ) :
    Reads (b.addRetained locate ref side price shares stock attribution ts)
      (T ++ (b.addRetained locate ref side price shares stock attribution ts).look locate ts) := by
  unfold ReferenceBook.addRetained
  dsimp only
  obtain ⟨c, hc, hsame⟩ : ∃ c, (if b.orders.contains ref = true then
      ((b.count fun c => { c with duplicateAdd := c.duplicateAdd + 1 }).remove ref).2 else b) = c ∧
        SameGate b c := by
    refine ⟨_, rfl, ?_⟩
    split
    · refine SameGate.trans ?_ (sameGate_remove _ ref)
      exact ⟨rfl, rfl⟩
    · exact SameGate.refl b
  rw [hc]
  refine h.looks ?_ locate ts
  exact hsame.trans ⟨rfl, rfl⟩

/-- A message that reduces or removes an order is one look. -/
theorem Reads.modify (h : Reads b T) {r : Bool × ReferenceBook} (hr : SameGate b r.2)
    {f : RefCounters → RefCounters} (hf : ∀ c, (f c).gate = c.gate) (locate : UInt16) (ts : ℕ) :
    Reads ((countUnless r f).checkBbo locate ts)
      (T ++ ((countUnless r f).checkBbo locate ts).look locate ts) := by
  refine h.looks (hr.trans ?_) locate ts
  unfold countUnless
  split
  · exact SameGate.refl _
  · exact ⟨rfl, hf _⟩

/-- **One message.** -/
theorem Reads.on (h : Reads b T) (m : Message) : Reads (b.on m) (T ++ b.events m) := by
  have htick : Reads b.tick T := h.congr rfl rfl
  have hquiet : ∀ {b'}, SameGate b b' → Reads b' (T ++ []) := fun hb => by
    rw [List.append_nil]
    exact h.same hb
  cases m with
  | systemEvent v =>
    refine hquiet ?_
    unfold ReferenceBook.on
    dsimp only
    split
    · exact ⟨rfl, rfl⟩
    · exact SameGate.refl b
  | stockTradingAction v => exact h.stockTradingAction v
  | operationalHalt v => exact h.operationalHalt v
  | stockDirectory v => exact hquiet ⟨rfl, rfl⟩
  | addOrder v => exact htick.addRetained _ _ _ _ _ _ _ _
  | addOrderMpid v => exact htick.addRetained _ _ _ _ _ _ _ _
  | orderExecuted v =>
    exact htick.modify (sameGate_execute _ _ _)
      (f := fun c => { c with orphanExecute := c.orphanExecute + 1 }) (fun _ => rfl) v.locate v.ts.toNat
  | orderExecutedPrice v =>
    exact htick.modify (sameGate_execute _ _ _)
      (f := fun c => { c with orphanExecutePrice := c.orphanExecutePrice + 1 }) (fun _ => rfl) v.locate v.ts.toNat
  | orderCancel v =>
    exact htick.modify (sameGate_execute _ _ _)
      (f := fun c => { c with orphanCancel := c.orphanCancel + 1 }) (fun _ => rfl) v.locate v.ts.toNat
  | orderDelete v =>
    exact htick.modify (sameGate_remove _ _)
      (f := fun c => { c with orphanDelete := c.orphanDelete + 1 }) (fun _ => rfl) v.locate v.ts.toNat
  | orderReplace v =>
    unfold events
    dsimp only
    have hold : b.tick.orders[v.oldOrderRef]? = b.orders[v.oldOrderRef]? := rfl
    cases ho : b.orders[v.oldOrderRef]? with
    | none =>
      show Reads (b.tick.onOrderReplace v) (T ++ [])
      refine hquiet ?_
      unfold onOrderReplace
      rw [hold, ho]
      exact ⟨rfl, rfl⟩
    | some o =>
      dsimp only
      show Reads (b.tick.onOrderReplace v) (T ++ ((b.tick.onOrderReplace v).look o.locate v.ts.toNat ++
        (b.tick.onOrderReplace v).look v.locate v.ts.toNat))
      unfold onOrderReplace
      rw [hold, ho]
      dsimp only
      rw [look_checkBbo, look_checkBbo, ← List.append_assoc]
      exact ((htick.same (sameGate_remove b.tick v.oldOrderRef)).addRetained _ _ _ _ _ _ _ _).checkBbo _ _
  | trade v => exact hquiet ⟨rfl, rfl⟩
  | brokenTrade v => exact hquiet ⟨rfl, rfl⟩
  | crossTrade v => exact htick.crossTrade v

/-- **Every run.** -/
theorem reads_run (code : UInt8) (ms : List Message) :
    Reads (run { venueMarketCode := code } ms) (trace { venueMarketCode := code } ms) :=
  outputs_invariant (R := Reads) (fun _ _ m h => h.on m) (reads_new code) ms

/-- **The crossed-book gate.** The counters of a class are the crossed and the locked observations that
the history puts into the class; every observation has one class, so the classes add up. -/
theorem classification (code : UInt8) (ms : List Message) :
    let c := (run { venueMarketCode := code } ms).counters
    let T := trace { venueMarketCode := code } ms
    (∀ why, c.gate.crossed why = tally (CrossedAs why) T) ∧
      (∀ why, c.gate.locked why = tally (LockedAs why) T) ∧
      (∀ l pre e, ∃! why, Classed l pre e why) ∧
      (c.crossedObservations = GateCounters.total c.gate.crossed ∧
        c.crossedObservations = tally (fun _ e => CrossedSeen e) T) ∧
      (c.lockedObservations = GateCounters.total c.gate.locked ∧
        c.lockedObservations = tally (fun _ e => LockedSeen e) T) := by
  have h := reads_run code ms
  refine ⟨h.crossed, h.locked, existsUnique_classed, ⟨h.crossed_total, ?_⟩, h.locked_total, ?_⟩
  · rw [← total_crossedAs, ← funext h.crossed]
    exact h.crossed_total
  · rw [← total_lockedAs, ← funext h.locked]
    exact h.locked_total

/-! ## The cap -/

theorem late_locate {l l' : UInt16} {pre : List GateEvent} {e : GateEvent} (h : Late l pre e)
    (h' : PastOpening l' pre e) : l = l' := by
  obtain ⟨ts, entered, ⟨bid, ask, rfl, -⟩, -⟩ := h
  obtain ⟨ts', opened, ⟨bid', ask', hc, -⟩, -⟩ := h'
  exact (GateEvent.observation.inj hc).1

/-- **What the cap is charged for.** Every charge is for a window that would have been the excuse exactly
when no late observation finds a symbol with an open window that excuses nothing. -/
theorem capped_iff (code : UInt8) (ms : List Message) :
    (run { venueMarketCode := code } ms).counters.reopenWindowsCapped =
        tally (fun pre e => Caps pre e ∧ Relied pre e) (trace { venueMarketCode := code } ms) ↔
      ∀ pre e post, trace { venueMarketCode := code } ms = pre ++ e :: post → ∀ l, ¬ Idle l pre e := by
  have hcapped : (run { venueMarketCode := code } ms).counters.reopenWindowsCapped = tally Caps _ :=
    (reads_run code ms).capped
  rw [hcapped, eq_comm, tally_and_eq_iff]
  refine forall₄_congr fun pre e post _ => ⟨?_, ?_⟩
  · rintro h l ⟨hopen, hlate, hidle⟩
    obtain ⟨l', hpast, htrading, hhalted⟩ := h ⟨l, hopen, hlate⟩
    obtain rfl := late_locate hlate hpast
    rcases hidle with hc | hc | hc
    · exact hc htrading
    · exact hhalted hc
    · exact hc hpast
  · rintro h ⟨l, hopen, hlate⟩
    by_contra hnot
    refine h l ⟨hopen, hlate, ?_⟩
    by_contra hidle
    push Not at hidle
    exact hnot ⟨l, hidle.2.2, hidle.1, hidle.2.1⟩

/-- A symbol that was halted resumes, is halted again, and is seen crossed a second later. -/
def haltedAgain : List Message :=
  [.stockTradingAction
      { locate := 1, ts := 0, tradingState := 72 },
    .stockTradingAction
      { locate := 1, ts := 1, tradingState := 84 },
    .stockTradingAction
      { locate := 1, ts := 2, tradingState := 72 },
    .addOrder
      { locate := 1, ts := 3, orderRef := 1, side := kBuy, shares := 5, stock := [], price := 20000 },
    .addOrder
      { locate := 1, ts := 1000000000, orderRef := 2, side := kSell, shares := 5, stock := [], price := 10000 }]

/-- The observation is excused by the halt, and yet the window is capped. -/
theorem not_capped : (run {} haltedAgain).counters.reopenWindowsCapped = 1 ∧
    (run {} haltedAgain).counters.crossedWhileNotTrading = 1 ∧
      tally (fun pre e => Caps pre e ∧ Relied pre e) (trace {} haltedAgain) = 0 := by
  have htrace : trace {} haltedAgain =
      [.action 1 72 0, .action 1 84 1] ++ [.action 1 72 2] ++ [.observation 1 20000 10000 1000000000] := by
    decide +kernel
  refine ⟨by decide +kernel, by decide +kernel, ?_⟩
  -- nothing but the last event can be charged, and the symbol is halted there
  have hnone : ∀ {T : List GateEvent} {l : UInt16} {s : UInt8} {ts : ℕ},
      ¬ (Caps T (.action l s ts) ∧ Relied T (.action l s ts)) := by
    rintro T l s ts ⟨-, l', ⟨_, _, ⟨_, _, hc, -⟩, -⟩, -⟩
    cases hc
  rw [htrace, tally_snoc_of_not, tally_snoc_of_not hnone]
  · show tally _ ([GateEvent.action 1 72 0] ++ [.action 1 84 1]) = 0
    rw [tally_snoc_of_not hnone]
    show tally _ ([] ++ [GateEvent.action 1 72 0]) = 0
    rw [tally_snoc_of_not hnone]
    rfl
  · rintro ⟨-, l, ⟨_, _, ⟨_, _, hc, -⟩, -⟩, htrading, -⟩
    obtain ⟨rfl, -⟩ := GateEvent.observation.inj hc
    exact absurd ((announced_snoc_action _ _ _ _ _).mp htrading) (by decide)

end ReferenceBook

end Carteret
