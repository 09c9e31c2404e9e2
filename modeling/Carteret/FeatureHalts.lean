import Carteret.FeatureRows

/-!
# Rows and halts

A window that contains a trading halt of its symbol is to be dropped. The exporter flags the window in which a
trading action comes, and each window with an update while the state is `'H'`.

1. The registered windows: in the states `'H'` and `'P'`, halted and paused, a symbol is stopped
   (`registeredWindows`).
2. The flag of the open window covers it, as long as no update during a pause finds the flag down (`Guarded`).
3. `rows_unspoiled`: the rows of such runs span no halt.
-/

namespace Carteret

/-! ## The registered windows -/

/-- Halted or paused. -/
def isStopped (tradingState : UInt8) : Bool := tradingState == 72 || tradingState == 80

/-- The state that a message gives the symbol. -/
def tradingStateOf (locate : UInt16) : Message → Option UInt8
  | .stockTradingAction v => if v.locate = locate then some v.tradingState else none
  | _ => none

/-- The symbol's latest trading state. -/
def tradingState (locate : UInt16) (ms : List Message) : Option UInt8 :=
  (ms.filterMap (tradingStateOf locate)).getLast?

/-- What a message is to its symbol, stopped in both states. -/
def registeredEvent (b : ReferenceBook) (locate : UInt16) (msg : Message) : Option SymbolEvent :=
  match tradingStateOf locate msg with
  | some c => some (.action (isStopped c))
  | none => SymbolEvent.of b locate msg

/-- The windows of a symbol in a stream of messages. -/
def registeredWindows (locate : UInt16) (ms : List Message) : Windows :=
  (ms.foldl (fun p msg => (bookAfter p.1 msg, p.2.feed (registeredEvent p.1 locate msg))) (({} : ReferenceBook), {})).2

theorem registeredWindows_snoc (locate : UInt16) (ms : List Message) (msg : Message) :
    registeredWindows locate (ms ++ [msg]) =
      (registeredWindows locate ms).feed (registeredEvent (ms.foldl bookAfter {}) locate msg) := by
  have hbook : ∀ (ms : List Message) (b : ReferenceBook) (W : Windows),
      (ms.foldl (fun p msg => (bookAfter p.1 msg, p.2.feed (registeredEvent p.1 locate msg))) (b, W)).1 =
        ms.foldl bookAfter b := by
    intro ms
    induction ms with
    | nil => intro b W; rfl
    | cons msg ms ih => intro b W; exact ih _ _
  unfold registeredWindows
  rw [List.foldl_concat, hbook]

theorem tradingState_snoc (locate : UInt16) (ms : List Message) (msg : Message) :
    tradingState locate (ms ++ [msg]) = (tradingStateOf locate msg).or (tradingState locate ms) := by
  unfold tradingState
  rw [List.filterMap_append]
  cases h : tradingStateOf locate msg with
  | none => rw [List.filterMap_cons_none h, List.filterMap_nil, List.append_nil]; rfl
  | some c => rw [List.filterMap_cons_some h, List.filterMap_nil, List.getLast?_concat]; rfl

/-! ## The flag -/

/-- The state of a symbol whose registered windows are `W` and whose trading state is `state`. -/
structure Guarded (N : ℕ) (W : Windows) (state : Option UInt8) (s : SymbolState) : Prop where
  prev : s.prev = W.inside
  stopped : W.halted = (state.map isStopped).getD false
  halted : s.halted = (state.map FeatureExporter.isHalt).getD false
  numbers : ∀ m ∈ W.marks, m.number ≤ W.updates.length
  modulo : W.updates.length % N = s.win.updates.toNat
  flag : W.spoiled N (W.closed N) = true → s.win.halted = true
  held : s.pending.held = true → W.closed N ≠ 0 ∧ W.spoiled N (W.closed N - 1) = false

section

variable {N : ℕ} {W : Windows} {state : Option UInt8} {s : SymbolState}

theorem guarded_init (N : ℕ) : Guarded N {} none {} where
  prev := rfl
  stopped := rfl
  halted := rfl
  numbers := by simp
  modulo := Nat.zero_mod N
  flag := fun h => absurd h (by simp [Windows.spoiled, Windows.window])
  held := fun h => absurd h Bool.false_ne_true

/-- A window that has closed stays as it is. -/
theorem spoiled_snoc_of_ne (e : SymbolEvent) {k : ℕ} (hk : W.closed N ≠ k) :
    (W.snoc e).spoiled N k = W.spoiled N k := by
  unfold Windows.spoiled
  rw [Windows.window_snoc_of_ne e hk]

/-- What is held stays as it is while no window closes. -/
theorem Guarded.held_snoc (h : Guarded N W state s) {e : SymbolEvent} (hclosed : (W.snoc e).closed N = W.closed N)
    (hheld : s.pending.held = true) :
    (W.snoc e).closed N ≠ 0 ∧ (W.snoc e).spoiled N ((W.snoc e).closed N - 1) = false := by
  obtain ⟨hz, hclean⟩ := h.held hheld
  rw [hclosed]
  exact ⟨hz, by rw [spoiled_snoc_of_ne e (by omega), hclean]⟩

theorem Guarded.acted (h : Guarded N W state s) (c : UInt8) :
    Guarded N (W.snoc (.action (isStopped c))) (some c) (s.acted (FeatureExporter.isHalt c)) := by
  have hnot : (W.next (.action (isStopped c))).isUpdate = false := rfl
  have hclosed : (W.snoc (.action (isStopped c))).closed N = W.closed N := closed_snoc_of_not hnot
  refine ⟨?_, ?_, rfl, ?_, ?_, fun _ => rfl, h.held_snoc hclosed⟩
  · rw [Windows.inside_snoc]
    exact h.prev
  · rw [Windows.halted_snoc]
    rfl
  · rw [updates_snoc_of_not hnot]
    exact numbers_snoc h.numbers _
  · rw [updates_snoc_of_not hnot]
    exact h.modulo

variable {ts : UInt64} {now : Inside} {signedExec totalExec : ℚ}

theorem Guarded.isUpdate (h : Guarded N W state s) :
    (W.next (.touch ts now signedExec totalExec)).isUpdate = s.updates now := by
  unfold SymbolState.updates
  rw [h.prev]
  rfl

theorem Guarded.read (h : Guarded N W state s) (hnot : s.updates now = false) :
    Guarded N (W.snoc (.touch ts now signedExec totalExec)) state (s.read now signedExec totalExec) := by
  have hnot' : (W.next (.touch ts now signedExec totalExec)).isUpdate = false := h.isUpdate.trans hnot
  have hclosed : (W.snoc (.touch ts now signedExec totalExec)).closed N = W.closed N := closed_snoc_of_not hnot'
  refine ⟨?_, ?_, h.halted, ?_, ?_, fun hspoiled => ?_, h.held_snoc hclosed⟩
  · rw [Windows.inside_snoc]
    rfl
  · rw [Windows.halted_snoc]
    exact h.stopped
  · rw [updates_snoc_of_not hnot']
    exact numbers_snoc h.numbers _
  · rw [updates_snoc_of_not hnot']
    exact h.modulo
  · rw [hclosed, spoiled_snoc rfl, hnot'] at hspoiled
    refine h.flag ?_
    simpa [Mark.isAction, Windows.next] using hspoiled

/-- The flag behind an update covers the open window. -/
theorem Guarded.flag_observed (h : Guarded N W state s) (hpause : state = some 80 → s.win.halted = true)
    (hspoiled : (W.snoc (.touch ts now signedExec totalExec)).spoiled N (W.closed N) = true) :
    (s.observed now ts signedExec totalExec).win.halted = true := by
  have hflag : (s.observed now ts signedExec totalExec).win.halted = if s.halted then true else s.win.halted := rfl
  rw [spoiled_snoc rfl] at hspoiled
  rw [hflag]
  cases hh : s.halted with
  | true => rfl
  | false =>
    rw [if_neg Bool.false_ne_true]
    rcases (Bool.or_eq_true _ _).mp hspoiled with hbefore | hnow
    · exact h.flag hbefore
    · -- the update comes while the symbol is stopped, and not halted: it is paused
      have hstopped : W.halted = true := by
        have hor := (Bool.or_eq_true _ _).mp hnow
        exact ((Bool.and_eq_true _ _).mp (hor.resolve_left Bool.false_ne_true)).2
      refine hpause ?_
      have hhalt := h.halted
      rw [hh] at hhalt
      rw [h.stopped] at hstopped
      cases state with
      | none => cases hstopped
      | some c =>
        change false = (c == 72) at hhalt
        change (c == 72 || c == 80) = true at hstopped
        rw [← hhalt, Bool.false_or, beq_iff_eq] at hstopped
        rw [hstopped]

theorem Guarded.observed (h : Guarded N W state s) (hN : N < 2 ^ 32) (hupdate : s.updates now = true)
    (hpause : state = some 80 → s.win.halted = true) (hlt : s.win.updates.toNat + 1 < N) :
    Guarded N (W.snoc (.touch ts now signedExec totalExec)) state (s.observed now ts signedExec totalExec) := by
  have hup : (W.next (.touch ts now signedExec totalExec)).isUpdate = true := h.isUpdate.trans hupdate
  obtain ⟨hclosed, hmodulo⟩ := snoc_of_lt (N := N) hup (by rw [h.modulo]; exact hlt)
  refine ⟨?_, ?_, h.halted, fun m hm => ?_, ?_, fun hspoiled => ?_, h.held_snoc hclosed⟩
  · rw [Windows.inside_snoc]
    rfl
  · rw [Windows.halted_snoc]
    exact h.stopped
  · rw [updates_length_snoc hup]
    exact Nat.le_succ_of_le (numbers_snoc h.numbers _ m hm)
  · rw [count_observed (by omega), hmodulo, h.modulo]
  · rw [hclosed] at hspoiled
    exact h.flag_observed hpause hspoiled

/-- The update that completes the window: what is held from then on is clean, and the next window is empty. -/
theorem Guarded.close (h : Guarded N W state s) (hupdate : s.updates now = true)
    (hpause : state = some 80 → s.win.halted = true) (heq : s.win.updates.toNat + 1 = N) {p : Pending}
    (hp : p.held = true → (s.observed now ts signedExec totalExec).win.halted = false) :
    Guarded N (W.snoc (.touch ts now signedExec totalExec)) state
        { s.observed now ts signedExec totalExec with pending := p, win := {} } ∧
      (W.snoc (.touch ts now signedExec totalExec)).closed N = W.closed N + 1 := by
  have hup : (W.next (.touch ts now signedExec totalExec)).isUpdate = true := h.isUpdate.trans hupdate
  obtain ⟨hclosed, hmodulo⟩ := snoc_of_eq (N := N) hup (by rw [h.modulo]; exact heq)
  refine ⟨⟨?_, ?_, h.halted, fun m hm => ?_, ?_, fun hspoiled => ?_, fun hheld => ?_⟩, hclosed⟩
  · rw [Windows.inside_snoc]
    rfl
  · rw [Windows.halted_snoc]
    exact h.stopped
  · rw [updates_length_snoc hup]
    exact Nat.le_succ_of_le (numbers_snoc h.numbers _ m hm)
  · exact hmodulo
  · rw [hclosed] at hspoiled
    unfold Windows.spoiled at hspoiled
    rw [window_snoc_succ h.numbers] at hspoiled
    cases hspoiled
  · rw [hclosed]
    refine ⟨Nat.succ_ne_zero _, ?_⟩
    rw [Nat.add_sub_cancel]
    by_contra hspoiled
    exact Bool.false_ne_true ((hp hheld).symm.trans (h.flag_observed hpause (Bool.eq_true_of_not_eq_false hspoiled)))

end

/-! ## The exporter -/

/-- The label window, which has closed last, and the feature window, which has closed before it, span no halt. -/
def Unspoiled (N : ℕ) (W : Windows) : Prop :=
  2 ≤ W.closed N ∧ W.spoiled N (W.closed N - 1) = false ∧ W.spoiled N (W.closed N - 2) = false

namespace FeatureExporter

/-- All selected symbols are guarded, and their windows are those of the messages. -/
structure GuardedAll (N : ℕ) (ms : List Message) (ex : FeatureExporter) : Prop where
  guarded : ∀ l ∈ ex.selected, Guarded N (registeredWindows l ms) (tradingState l ms) (ex.state l)
  book : ex.book = ms.foldl bookAfter {}

variable {N : ℕ} {ms : List Message} {ex : FeatureExporter} {msg : Message} {l₀ : UInt16} {ts : UInt64}
  {signedExec totalExec : ℚ}

/-- The message is an update of the symbol's inside. -/
def UpdatedBy (ex : FeatureExporter) (l : UInt16) (msg : Message) : Prop :=
  ∃ ts now signedExec totalExec, SymbolEvent.of ex.book l msg = some (.touch ts now signedExec totalExec) ∧
    (ex.state l).updates now = true

/-- No selected symbol is updated during a pause while the flag of its window is down. -/
def PauseFlagged (ms : List Message) (ex : FeatureExporter) (msg : Message) : Prop :=
  ∀ l ∈ ex.selected, tradingState l ms = some 80 → ex.UpdatedBy l msg → (ex.state l).win.halted = true

/-- The message writes no row, or one that spans no halt. -/
def WritesUnspoiled (N : ℕ) (ms : List Message) (ex : FeatureExporter) (msg : Message) : Prop :=
  (ex.on msg).out = ex.out ∨
    ∃ r, (ex.on msg).out = ex.out ++ [r] ∧ Unspoiled N (registeredWindows r.locate (ms ++ [msg]))

/-- What a message is to the exporter, and to the registered windows. -/
theorem on_registered (ex : FeatureExporter) (msg : Message) : ∃ n,
    (ex.on msg = { ex with msgs := n, book := bookAfter ex.book msg } ∧
      ∀ l, tradingStateOf l msg = none ∧ registeredEvent ex.book l msg = none) ∨
    (∃ l₀ c,
      ex.on msg = { ex with msgs := n, book := bookAfter ex.book msg }.setState l₀ ((ex.state l₀).acted (isHalt c)) ∧
      tradingStateOf l₀ msg = some c ∧
      ∀ l, l ≠ l₀ → tradingStateOf l msg = none ∧ registeredEvent ex.book l msg = none) ∨
    (∃ l₀ ts signedExec totalExec,
      ex.on msg = { ex with msgs := n, book := bookAfter ex.book msg }.touch l₀ ts signedExec totalExec ∧
      ∀ l, tradingStateOf l msg = none ∧ registeredEvent ex.book l msg = SymbolEvent.of ex.book l msg ∧
        SymbolEvent.of ex.book l msg = if l₀ = l then
          some (.touch ts (Inside.read (bookAfter ex.book msg) l) signedExec totalExec) else none) := by
  cases msg with
  | systemEvent v => exact ⟨_, .inl ⟨rfl, fun _ => ⟨rfl, rfl⟩⟩⟩
  | stockDirectory v => exact ⟨_, .inl ⟨rfl, fun _ => ⟨rfl, rfl⟩⟩⟩
  | operationalHalt v => exact ⟨ex.msgs, .inl ⟨rfl, fun _ => ⟨rfl, rfl⟩⟩⟩
  | stockTradingAction v =>
    refine ⟨_, .inr (.inl ⟨v.locate, v.tradingState, rfl, if_pos rfl, fun l hl => ?_⟩)⟩
    have hnone : tradingStateOf l (.stockTradingAction v) = none := if_neg (Ne.symm hl)
    refine ⟨hnone, ?_⟩
    unfold registeredEvent
    rw [hnone]
    exact if_neg (Ne.symm hl)
  | orderExecuted v =>
    exact ⟨_, .inr (.inr ⟨_, _, _, _, rfl, fun l => ⟨rfl, rfl, SymbolEvent.of_orderExecuted _ l v⟩⟩)⟩
  | orderExecutedPrice v =>
    exact ⟨_, .inr (.inr ⟨_, _, _, _, rfl, fun l => ⟨rfl, rfl, SymbolEvent.of_orderExecutedPrice _ l v⟩⟩)⟩
  | _ => exact ⟨_, .inr (.inr ⟨_, _, _, _, rfl, fun _ => ⟨rfl, rfl, rfl⟩⟩)⟩

/-- The windows and the state of a symbol that the message is not about. -/
theorem registered_same {l : UInt16} (hbook : ex.book = ms.foldl bookAfter {}) (hstate : tradingStateOf l msg = none)
    (hevent : registeredEvent ex.book l msg = none) :
    registeredWindows l (ms ++ [msg]) = registeredWindows l ms ∧ tradingState l (ms ++ [msg]) = tradingState l ms := by
  rw [registeredWindows_snoc, tradingState_snoc, ← hbook, hevent, hstate]
  exact ⟨rfl, rfl⟩

/-- A touch of a symbol, at the windows of the messages so far. -/
theorem touch_guarded {W : Windows} {state : Option UInt8} (hmem : l₀ ∈ ex.selected)
    (h : Guarded N W state (ex.state l₀)) (hN : N = ex.window.toNat) (hpos : 0 < N)
    (hpause : state = some 80 → (ex.state l₀).updates (ex.readInside l₀) = true → (ex.state l₀).win.halted = true) :
    let W' := W.snoc (.touch ts (ex.readInside l₀) signedExec totalExec)
    let ex' := ex.touch l₀ ts signedExec totalExec
    Guarded N W' state (ex'.state l₀) ∧ (∀ l ≠ l₀, ex'.state l = ex.state l) ∧
      (ex'.out = ex.out ∨ ∃ r, ex'.out = ex.out ++ [r] ∧ r.locate = l₀ ∧ Unspoiled N W') := by
  intro W' ex'
  have hbound : N < 2 ^ 32 := hN ▸ ex.window.toNat_lt
  have hmodlt : (ex.state l₀).win.updates.toNat < N := by
    rw [← h.modulo]
    exact Nat.mod_lt _ hpos
  have hcount : ((ex.state l₀).observed (ex.readInside l₀) ts signedExec totalExec).win.updates.toNat =
      (ex.state l₀).win.updates.toNat + 1 := count_observed (by omega)
  have htouch : ex' = _ := touch_eq hmem
  dsimp only at htouch
  by_cases hupdate : (ex.state l₀).updates (ex.readInside l₀) = true
  swap
  · have hset : ex' = ex.setState l₀ ((ex.state l₀).read (ex.readInside l₀) signedExec totalExec) := by
      rw [htouch, if_neg hupdate]
    rw [hset]
    refine ⟨?_, fun l hl => by rw [setState_state, if_neg hl], .inl rfl⟩
    rw [setState_state, if_pos rfl]
    exact h.read (Bool.eq_false_iff.mpr hupdate)
  rw [if_pos hupdate] at htouch
  have hflagged : state = some 80 → (ex.state l₀).win.halted = true := fun hs => hpause hs hupdate
  by_cases hfull : ((ex.state l₀).observed (ex.readInside l₀) ts signedExec totalExec).win.updates ≥ ex.window
  swap
  · have hlt : (ex.state l₀).win.updates.toNat + 1 < N := by
      have hnle := UInt32.le_iff_toNat_le.not.mp hfull
      rw [hcount, ← hN] at hnle
      omega
    have hset : ex' = ex.setState l₀ ((ex.state l₀).observed (ex.readInside l₀) ts signedExec totalExec) := by
      rw [htouch, if_neg hfull]
    rw [hset]
    refine ⟨?_, fun l hl => by rw [setState_state, if_neg hl], .inl rfl⟩
    rw [setState_state, if_pos rfl]
    exact h.observed hbound hupdate hflagged hlt
  · have heq : (ex.state l₀).win.updates.toNat + 1 = N := by
      have hle := UInt32.le_iff_toNat_le.mp hfull
      rw [hcount, ← hN] at hle
      omega
    rw [if_pos hfull] at htouch
    set s := (ex.state l₀).observed (ex.readInside l₀) ts signedExec totalExec with hs
    obtain ⟨hout, -, -, -, hstate⟩ := judge_spec ex l₀ s (ex.readInside l₀) ts
    have husable : s.win.usable (ex.readInside l₀) ts = true → s.win.halted = false := by
      intro hu
      unfold FeatureWindow.usable at hu
      simp only [Bool.and_eq_true, Bool.not_eq_true'] at hu
      exact hu.1.1.2
    obtain ⟨hguarded, hclosed⟩ := h.close hupdate hflagged heq
      (p := s.win.features ex.lag1 (ex.readInside l₀) (ex.state l₀).prev ts ex.msgs) husable
    have hafter : ∀ l, ex'.state l = if l = l₀ then { s with
        pending := s.win.features ex.lag1 (ex.readInside l₀) (ex.state l₀).prev ts ex.msgs, win := {} }
        else ex.state l := by
      intro l
      rw [htouch, closeWindow, setState_state]
      show (if l = l₀ then _ else (ex.judge l₀ s (ex.readInside l₀) ts).state l) = _
      rw [hstate]
    refine ⟨?_, fun l hl => by rw [hafter, if_neg hl], ?_⟩
    · rw [hafter, if_pos rfl]
      exact hguarded
    · have hout' : ex'.out = (ex.judge l₀ s (ex.readInside l₀) ts).out := by
        rw [htouch]
        rfl
      rw [hout', hout]
      by_cases hc : s.pending.held = true ∧ s.win.usable (ex.readInside l₀) ts = true
      · rw [if_pos hc]
        obtain ⟨hz, hfeature⟩ := h.held hc.1
        refine .inr ⟨_, rfl, rfl, ?_, ?_, ?_⟩
        · rw [hclosed]
          omega
        · rw [hclosed, Nat.add_sub_cancel]
          by_contra hspoiled
          exact Bool.false_ne_true ((husable hc.2).symm.trans
            (h.flag_observed hflagged (Bool.eq_true_of_not_eq_false hspoiled)))
        · rw [hclosed, show (W.closed N + 1 - 2) = W.closed N - 1 from by omega, spoiled_snoc_of_ne _ (by omega),
            hfeature]
      · rw [if_neg hc, List.append_nil]
        exact .inl rfl

/-- **A message.** -/
theorem GuardedAll.on (h : GuardedAll N ms ex) (hN : N = ex.window.toNat) (hpos : 0 < N)
    (hpause : ex.PauseFlagged ms msg) : GuardedAll N (ms ++ [msg]) (ex.on msg) ∧ ex.WritesUnspoiled N ms msg := by
  have hsetting := sameSetting_on ex msg
  have hselected : (ex.on msg).selected = ex.selected := hsetting.selected
  have hbook : (ex.on msg).book = (ms ++ [msg]).foldl bookAfter {} := by
    rw [hsetting.book, h.book, List.foldl_concat]
  unfold WritesUnspoiled
  obtain ⟨n, ⟨heq, hnone⟩ | ⟨l₀, c, heq, hst, hnone⟩ | ⟨l₀, ts, signedExec, totalExec, heq, hof⟩⟩ :=
    on_registered ex msg
  · refine ⟨⟨fun l hl => ?_, hbook⟩, .inl (by rw [heq])⟩
    obtain ⟨hw, hst⟩ := registered_same h.book (hnone l).1 (hnone l).2
    rw [hw, hst, heq]
    exact h.guarded l (hselected ▸ hl)
  · refine ⟨⟨fun l hl => ?_, hbook⟩, .inl (by rw [heq]; rfl)⟩
    have hg := h.guarded l (hselected ▸ hl)
    rw [heq, setState_state]
    by_cases hl₀ : l = l₀
    · subst hl₀
      rw [if_pos rfl, registeredWindows_snoc, tradingState_snoc, registeredEvent, hst]
      exact hg.acted c
    · obtain ⟨hw, hstate⟩ := registered_same h.book (hnone l hl₀).1 (hnone l hl₀).2
      rw [if_neg hl₀, hw, hstate]
      exact hg
  · by_cases hmem : l₀ ∈ ex.selected
    · have hevent : registeredEvent ex.book l₀ msg =
          some (.touch ts (Inside.read (bookAfter ex.book msg) l₀) signedExec totalExec) := by
        rw [(hof l₀).2.1, (hof l₀).2.2, if_pos rfl]
      have hwindows : registeredWindows l₀ (ms ++ [msg]) = (registeredWindows l₀ ms).snoc
          (.touch ts (Inside.read (bookAfter ex.book msg) l₀) signedExec totalExec) := by
        rw [registeredWindows_snoc, ← h.book, hevent]
        rfl
      have hstate : tradingState l₀ (ms ++ [msg]) = tradingState l₀ ms := by
        rw [tradingState_snoc, (hof l₀).1]
        rfl
      obtain ⟨hg, hothers, hout⟩ := @touch_guarded N { ex with msgs := n, book := bookAfter ex.book msg } l₀ ts
        signedExec totalExec _ _ hmem (h.guarded l₀ hmem) hN hpos fun hs hup =>
          hpause l₀ hmem hs ⟨ts, _, signedExec, totalExec, by rw [(hof l₀).2.2, if_pos rfl]; rfl, hup⟩
      rw [← heq] at hg hothers hout
      refine ⟨⟨fun l hl => ?_, hbook⟩, ?_⟩
      · by_cases hl₀ : l = l₀
        · subst hl₀
          rw [hwindows, hstate]
          exact hg
        · have hnone : registeredEvent ex.book l msg = none := by
            rw [(hof l).2.1, (hof l).2.2, if_neg (Ne.symm hl₀)]
          obtain ⟨hw, hst⟩ := registered_same h.book (hof l).1 hnone
          rw [hw, hst, hothers l hl₀]
          exact h.guarded l (hselected ▸ hl)
      · rcases hout with hsame | ⟨r, hr, hloc, hclean⟩
        · exact .inl hsame
        · refine .inr ⟨r, hr, ?_⟩
          rw [hloc, hwindows]
          exact hclean
    · have hskip : ex.on msg = { ex with msgs := n, book := bookAfter ex.book msg } := heq.trans (if_pos hmem)
      refine ⟨⟨fun l hl => ?_, hbook⟩, .inl (by rw [hskip])⟩
      have hne : l ≠ l₀ := fun hc => hmem (hc ▸ hselected ▸ hl)
      have hnone : registeredEvent ex.book l msg = none := by
        rw [(hof l).2.1, (hof l).2.2, if_neg (Ne.symm hne)]
      obtain ⟨hw, hst⟩ := registered_same h.book (hof l).1 hnone
      rw [hw, hst, hskip]
      exact h.guarded l (hselected ▸ hl)

/-- **The rows span no halt**, in a run in which no update during a pause finds the flag of its window down: every
message writes no row, or one whose feature window and label window have no trading action and no update while the
symbol is halted or paused. -/
theorem rows_unspoiled (selected : Finset UInt16) {window : UInt32} (hwindow : 1 ≤ window) (lag1 auditing : Bool)
    (ms : List Message)
    (hpause : ∀ pre msg, pre ++ [msg] <+: ms →
      (Runs.run on (init selected window lag1 auditing) pre).PauseFlagged pre msg) :
    ∀ pre msg, pre ++ [msg] <+: ms →
      (Runs.run on (init selected window lag1 auditing) pre).WritesUnspoiled window.toNat pre msg := by
  have hpos : 0 < window.toNat := UInt32.le_iff_toNat_le.mp hwindow
  have hwin : ∀ ms, (Runs.run on (init selected window lag1 auditing) ms).window = window := fun ms =>
    (sameSetting_run ms (init selected window lag1 auditing)).window
  have hall : ∀ pre, pre <+: ms →
      GuardedAll window.toNat pre (Runs.run on (init selected window lag1 auditing) pre) := by
    intro pre
    induction pre using List.reverseRecOn with
    | nil => exact fun _ => ⟨fun _ _ => guarded_init _, rfl⟩
    | append_singleton pre msg ih =>
      intro hpre
      have hbefore := ih ((List.prefix_append pre [msg]).trans hpre)
      rw [Runs.run_snoc]
      exact (hbefore.on (by rw [hwin]) hpos (hpause pre msg hpre)).1
  intro pre msg hpre
  exact ((hall pre ((List.prefix_append pre [msg]).trans hpre)).on (by rw [hwin]) hpos (hpause pre msg hpre)).2

/-- Where no message pauses a selected symbol, no flag is missed. -/
theorem pauseFlagged_of_unpaused (ex : FeatureExporter) {pre : List Message} (hpre : pre ++ [msg] <+: ms)
    (h : ∀ l ∈ ex.selected, ∀ m ∈ ms, tradingStateOf l m ≠ some 80) : ex.PauseFlagged pre msg := by
  intro l hl hstate _
  obtain ⟨m, hm, heq⟩ := List.mem_filterMap.mp (List.mem_of_getLast? hstate)
  exact absurd heq (h l hl m (hpre.subset (List.mem_append_left _ hm)))

/-! ## A pause and a halt -/

def actionAt (ns : BitVec 48) (state : UInt8) : Message :=
  .stockTradingAction { locate := 1, ts := 34200000000000 + ns, tradingState := state }

/-- A trading action before the third of five updates. -/
def stoppedAt (state : UInt8) : List Message :=
  [addAt 0 1 kBuy 10 1000000, addAt 1 2 kSell 10 1000200, actionAt 2 state, addAt 3 3 kBuy 5 1000000,
    addAt 4 4 kBuy 5 1000000, addAt 5 5 kBuy 5 1000000]

/-- A paused symbol, with windows of one update: the last update writes a row, and both its windows are updates during
the pause. -/
theorem not_rows_unspoiled :
    let W := registeredWindows 1 (stoppedAt 80)
    (Runs.run on (init {1} 1 false false) (stoppedAt 80)).out.length = 1 ∧ tradingState 1 (stoppedAt 80) = some 80 ∧
      W.closed 1 = 3 ∧ W.spoiled 1 2 = true ∧ W.spoiled 1 1 = true := by
  decide +kernel

/-- A symbol that is halted for one update and traded again. -/
def haltedOnce : List Message :=
  stoppedAt 72 ++ [actionAt 6 84, addAt 7 6 kBuy 5 1000000, addAt 8 7 kBuy 5 1000000, addAt 9 8 kBuy 5 1000000]

/-- A halt is no pause: the row that the last update writes spans no halt, nor would any other. -/
theorem rows_unspoiled_halted :
    (Runs.run on (init {1} 1 false false) haltedOnce).out.length = 1 ∧
      (registeredWindows 1 haltedOnce).spoiled 1 0 = true ∧
      ∀ pre msg, pre ++ [msg] <+: haltedOnce →
        (Runs.run on (init {1} 1 false false) pre).WritesUnspoiled 1 pre msg := by
  refine ⟨by decide +kernel, by decide +kernel, ?_⟩
  apply rows_unspoiled {1} (le_refl 1) false false haltedOnce
  intro pre msg hpre
  refine pauseFlagged_of_unpaused _ hpre fun l _ m hm => ?_
  unfold haltedOnce stoppedAt at hm
  simp only [List.mem_append, List.mem_cons, List.not_mem_nil, or_false] at hm
  rcases hm with (rfl | rfl | rfl | rfl | rfl | rfl) | rfl | rfl | rfl | rfl <;> unfold tradingStateOf <;>
    simp [addAt, actionAt]

end FeatureExporter

end Carteret
