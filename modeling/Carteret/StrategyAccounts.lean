import Carteret.QueueDriven
import Carteret.StrategySteps
import Carteret.StrategyTrace

/-!
# The accounts of the strategy

1. The simulator of a strategy is one that is driven from outside (`Solid`).
2. A quote that is open goes with the order of its number, and they agree on whether it is filled; any other order
   is dead (`Quoting`). A message, a settlement and a posting each preserve that.
3. So what the strategy counts is what the simulator counts, and orders end by a fill or at the close that settles
   their quote (`strategy_accounts`).
-/

namespace Carteret

open QueueSim

/-! ## The simulator -/

/-- What holds of the simulator whatever it is called for. -/
structure Solid (cfg : QueueSimConfig) (sim : QueueSim) : Prop where
  sound : Sound sim
  tallied : Tallied sim
  called : sim.toLedger.Called
  cfg : sim.cfg = cfg

section

variable {cfg : QueueSimConfig} {sim : QueueSim}

theorem solid_init (P : Platform) (cfg : QueueSimConfig) : Solid cfg (QueueSim.init P cfg) :=
  ⟨sound_init P cfg, tallied_init P cfg, fun _ _ => rfl, rfl⟩

theorem Solid.step (h : Solid cfg sim) (e : SimStep) : Solid cfg (sim.step e) where
  sound := sound_invariant.step h.sound fun _ _ => trivial
  tallied := (tallied_invariant.step ⟨h.sound, h.tallied⟩ fun _ _ => trivial).2
  called := ((called_invariant []).step ⟨h.sound, h.called, List.nil_prefix⟩ fun _ _ => trivial).2.called
  cfg := (sameCfg cfg).step h.cfg fun _ _ => trivial

/-- Nothing but a message calls `on_fill`. -/
theorem Solid.silent (h : Solid cfg sim) {e : SimStep} (he : ∀ msg, e ≠ .message msg) :
    (sim.step e).fills = sim.fills :=
  ((silent_invariant sim.fills).step ⟨h.sound, rfl⟩ fun msg hm => he msg hm).2

end

/-! ## Quotes and orders -/

/-- The number of the open quote of a symbol. -/
def Strategy.openSeq (s : Strategy) (l : UInt16) : Option ℕ :=
  if (s.st l).quote.isOpen then some (s.st l).quote.seq else none

/-- The event settles a quote that is filled. -/
def QuoteEvent.countsFill : QuoteEvent → Bool
  | .settled _ _ filled => filled
  | _ => false

/-- No cancellation by the clock. -/
def kNoLimit : UInt64 := 0xFFFFFFFFFFFFFFFF

/-- Orders and quotes are in step. -/
structure Quoting (cfg : QueueSimConfig) (s : Strategy) : Prop where
  solid : Solid cfg s.sim
  quotes : s.tally.quotes = s.sim.placements
  current : ∀ l, (s.st l).quote.isOpen = true → ∃ o ∈ s.sim.orders, o.locate = l ∧
    o.seq = (s.st l).quote.seq ∧ (o.models .exact).filled = (s.st l).quote.filled
  idle : ∀ l, (s.st l).quote.isOpen = false → (s.st l).quote.filled = false
  live : ∀ o ∈ s.sim.orders, o.anyLive = true → s.openSeq o.locate = some o.seq
  trace : Lifecycle s.trace s.openSeq
  posted : ∀ l n side, .posted l n side ∈ s.trace ↔
    ∃ o ∈ s.sim.orders, o.locate = l ∧ o.seq = n ∧ o.side = side
  settled : ∀ l n f, .settled l n f ∈ s.trace →
    ∃ o ∈ s.sim.orders, o.locate = l ∧ o.seq = n ∧ (o.models .exact).filled = f
  fills : s.tally.fills = s.trace.countP QuoteEvent.countsFill
  tapes : s.tally.fills = s.tally.fillsTapeA + s.tally.fillsTapeB + s.tally.fillsTapeC + s.tally.fillsTapeX
  selected : ∀ l, (s.st l).quote.isOpen = true → l ∈ s.selected
  entered : ∀ o ∈ s.sim.orders, o.enteredTs ≤ s.sim.lastTs
  ended : cfg.maxLifeNs = kNoLimit → ∀ o ∈ s.sim.orders, ∀ m, (o.models m).live = false →
    (o.models m).filled = true ∨ ∃ f, .settled o.locate o.seq f ∈ s.trace

section

variable {cfg : QueueSimConfig} {s t : Strategy} {l : UInt16} {n : ℕ}

theorem openSeq_eq_some : s.openSeq l = some n ↔ (s.st l).quote.isOpen = true ∧ (s.st l).quote.seq = n := by
  unfold Strategy.openSeq
  split
  · rename_i h
    simp [h]
  · rename_i h
    simp [h]

theorem openSeq_eq_none : s.openSeq l = none ↔ (s.st l).quote.isOpen = false := by
  unfold Strategy.openSeq
  split
  · rename_i h
    simp [h]
  · rename_i h
    simp [h]

theorem Quoting.init (P : Platform) (cfg : QueueSimConfig) (selected : Finset UInt16) (window : UInt32) :
    Quoting cfg (Strategy.init P cfg selected window) where
  solid := solid_init P cfg
  quotes := rfl
  current := fun l h => by cases h
  idle := fun _ _ => rfl
  live := fun o ho => by cases ho
  trace := .start
  posted := fun l n side => by
    refine iff_of_false List.not_mem_nil ?_
    rintro ⟨o, ho, -⟩
    cases ho
  settled := fun l n f h => by cases h
  fills := rfl
  tapes := rfl
  selected := fun l h => by cases h
  entered := fun o ho => by cases ho
  ended := fun _ o ho => by cases ho

/-- A settled quote belongs to a dead order. -/
theorem Quoting.settled_dead (h : Quoting cfg s) {o : SyntheticOrder} (ho : o ∈ s.sim.orders) {f : Bool}
    (hmem : .settled o.locate o.seq f ∈ s.trace) : o.anyLive = false := by
  cases hany : o.anyLive with
  | false => rfl
  | true => exact absurd hmem (h.trace.not_settled (h.live o ho hany) f)

/-- The quotes stay, and what is written besides them. -/
theorem Quoting.congr (h : Quoting cfg s) (hsim : t.sim = s.sim) (htally : t.tally = s.tally)
    (htrace : t.trace = s.trace) (hselected : t.selected = s.selected)
    (hquote : ∀ l, (t.st l).quote = (s.st l).quote) : Quoting cfg t := by
  have hopen : t.openSeq = s.openSeq := by
    funext l
    unfold Strategy.openSeq
    rw [hquote]
  refine ⟨?_, ?_, fun l => ?_, fun l => ?_, ?_, ?_, ?_, ?_, ?_, ?_, fun l => ?_, ?_, ?_⟩
  · rw [hsim]
    exact h.solid
  · rw [htally, hsim]
    exact h.quotes
  · rw [hquote, hsim]
    exact h.current l
  · rw [hquote]
    exact h.idle l
  · rw [hsim, hopen]
    exact h.live
  · rw [htrace, hopen]
    exact h.trace
  · rw [htrace, hsim]
    exact h.posted
  · rw [htrace, hsim]
    exact h.settled
  · rw [htally, htrace]
    exact h.fills
  · rw [htally]
    exact h.tapes
  · rw [hquote, hselected]
    exact h.selected l
  · rw [hsim]
    exact h.entered
  · rw [hsim, htrace]
    exact h.ended

/-! ## A message -/

theorem tickOf_lt {msg : Message} {ts : UInt64} (h : tickOf msg = some ts) : ts.toNat < 2 ^ 48 := by
  have hts (hd : Header) : (tsOf hd).toNat < 2 ^ 48 := by
    unfold tsOf
    rw [UInt64.toNat_ofNat']
    exact (Nat.mod_le _ _).trans_lt hd.ts.isLt
  cases msg <;> cases h <;> exact hts _

/-- A quote that is open and its order are filled by the same messages. -/
theorem Quoting.filled_told (h : Quoting cfg s) (htimer : cfg.timerPlacement = false) (msg : Message)
    {o o' : SyntheticOrder} (ho : o ∈ s.sim.orders) (ho' : o' ∈ (s.sim.on msg).orders)
    (holder : Older s.sim msg o o') (hopen : (s.st o.locate).quote.isOpen = true)
    (hseq : o.seq = (s.st o.locate).quote.seq)
    (hfilled : (o.models .exact).filled = (s.st o.locate).quote.filled) :
    (o'.models .exact).filled =
      ((s.st o.locate).told (Strategy.called s.sim (s.sim.on msg) o.locate)).quote.filled := by
  have hsound := h.solid.sound
  have hsound' := (h.solid.step (.message msg)).sound
  have hcalled := called_iff (m := .exact) (l := o.locate) hsound h.solid.tallied h.solid.called msg
  unfold SymState.told
  rw [hopen, Bool.true_and]
  by_cases hc : Strategy.called s.sim (s.sim.on msg) o.locate = true
  · rw [if_pos hc]
    obtain ⟨o₁, ho₁, o₁', ho₁', hseq₁, hloc₁, hf₁, hf₁'⟩ := hcalled.mp hc
    -- the order that was filled was live, so it is the quote's
    have hsame : o₁ = o := by
      obtain ⟨o₂, ho₂, holder₂⟩ := (on_older hsound (by rw [h.solid.cfg, htimer]) msg).1 o₁ ho₁
      obtain rfl := hsound'.eq_of_seq_eq ho₂ ho₁' (holder₂.seq.trans hseq₁.symm)
      have hany : o₁.anyLive = true := by
        cases hany : o₁.anyLive with
        | true => rfl
        | false =>
          rw [holder₂.dead hany, hf₁] at hf₁'
          cases hf₁'
      have hcur := h.live o₁ ho₁ hany
      rw [← holder₂.locate, hloc₁] at hcur
      exact hsound.eq_of_seq_eq ho₁ ho ((openSeq_eq_some.mp hcur).2.symm.trans hseq.symm)
    subst hsame
    rw [← hsound'.eq_of_seq_eq ho₁' ho' (hseq₁.trans holder.seq.symm)]
    exact hf₁'
  · rw [if_neg hc, ← hfilled]
    cases hf : (o.models .exact).filled with
    | true =>
      obtain ⟨o₁, ho₁, hseq₁, -, hf₁⟩ := filled_on hsound h.solid.tallied msg ho hf
      rw [← hsound'.eq_of_seq_eq ho₁ ho' (hseq₁.trans holder.seq.symm)]
      exact hf₁
    | false =>
      by_contra hf'
      exact hc (hcalled.mpr ⟨o, ho, o', ho', holder.seq, holder.locate, hf, Bool.eq_true_of_not_eq_false hf'⟩)

theorem told_quote (x : SymState) (hit : Bool) :
    (x.told hit).quote.isOpen = x.quote.isOpen ∧ (x.told hit).quote.seq = x.quote.seq ∧
      (x.quote.isOpen = false → (x.told hit).quote = x.quote) := by
  unfold SymState.told
  split
  · rename_i h
    rw [Bool.and_eq_true] at h
    exact ⟨rfl, rfl, fun hc => by rw [h.1] at hc; cases hc⟩
  · exact ⟨rfl, rfl, fun _ => rfl⟩

/-- **A message to the simulator.** -/
theorem Quoting.drive (h : Quoting cfg s) (htimer : cfg.timerPlacement = false) (msg : Message) :
    Quoting cfg (s.drive fun sim => sim.on msg) := by
  have htimer' : s.sim.cfg.timerPlacement = false := by rw [h.solid.cfg, htimer]
  obtain ⟨hold, hnew⟩ := on_older h.solid.sound htimer' msg
  obtain ⟨hunplaced, hlast⟩ := unplaced_on h.solid.sound htimer' msg
  rw [Strategy.drive_eq]
  set told : UInt16 → SymState := fun l => (s.st l).told (Strategy.called s.sim (s.sim.on msg) l) with htold
  have hopen : Strategy.openSeq { s with sim := s.sim.on msg, st := told } = s.openSeq := by
    funext l
    unfold Strategy.openSeq
    show (if (told l).quote.isOpen then some (told l).quote.seq else none) = _
    rw [htold, (told_quote _ _).1, (told_quote _ _).2.1]
  refine ⟨h.solid.step (.message msg), ?_, fun l hl => ?_, fun l hl => ?_, fun o' ho' hl => ?_, ?_,
    fun l n side => ?_, fun l n f hmem => ?_, h.fills, h.tapes, fun l hl => ?_, fun o' ho' => ?_,
    fun hlife o' ho' m hl => ?_⟩
  · exact h.quotes.trans hunplaced.placements.symm
  · have hl' : (s.st l).quote.isOpen = true := (told_quote _ _).1.symm.trans hl
    obtain ⟨o, ho, rfl, hseq, hfilled⟩ := h.current l hl'
    obtain ⟨o', ho', holder⟩ := hold o ho
    exact ⟨o', ho', holder.locate, holder.seq.trans (hseq.trans (told_quote _ _).2.1.symm),
      h.filled_told htimer msg ho ho' holder hl' hseq hfilled⟩
  · have hl' : (s.st l).quote.isOpen = false := (told_quote _ _).1.symm.trans hl
    show (told l).quote.filled = false
    rw [htold, (told_quote _ _).2.2 hl']
    exact h.idle l hl'
  · obtain ⟨o, ho, holder⟩ := hnew o' ho'
    rw [hopen, holder.locate, holder.seq]
    exact h.live o ho (holder.live hl)
  · rw [hopen]
    exact h.trace
  · refine (h.posted l n side).trans ⟨?_, ?_⟩
    · rintro ⟨o, ho, hloc, hseq, hside⟩
      obtain ⟨o', ho', holder⟩ := hold o ho
      exact ⟨o', ho', holder.locate.trans hloc, holder.seq.trans hseq,
        (congrArg Placement.side holder.placement).trans hside⟩
    · rintro ⟨o', ho', hloc, hseq, hside⟩
      obtain ⟨o, ho, holder⟩ := hnew o' ho'
      exact ⟨o, ho, holder.locate.symm.trans hloc, holder.seq.symm.trans hseq,
        (congrArg Placement.side holder.placement).symm.trans hside⟩
  · obtain ⟨o, ho, rfl, rfl, hf⟩ := h.settled l n f hmem
    obtain ⟨o', ho', holder⟩ := hold o ho
    rw [holder.dead (h.settled_dead ho hmem)] at ho'
    exact ⟨o, ho', rfl, rfl, hf⟩
  · exact h.selected l ((told_quote _ _).1.symm.trans hl)
  · obtain ⟨o, ho, holder⟩ := hnew o' ho'
    have hts : o'.enteredTs = o.enteredTs := congrArg Placement.enteredTs holder.placement
    rw [hts]
    exact UInt64.le_trans (h.entered o ho) hunplaced.lastTs_le
  · obtain ⟨o, ho, holder⟩ := hnew o' ho'
    show _ ∨ ∃ f, QuoteEvent.settled o'.locate o'.seq f ∈ s.trace
    rw [holder.locate, holder.seq]
    cases hlive : (o.models m).live with
    | true =>
      rcases holder.ended m hlive with hl' | hf | ⟨ts, htick, hle, hover⟩
      · rw [hl] at hl'
        cases hl'
      · exact .inl hf
      · -- no order is as old as that
        have hage := UInt64.toNat_sub_of_le ts o.enteredTs (UInt64.le_trans (h.entered o ho) hle)
        have hts := tickOf_lt htick
        rw [h.solid.cfg, hlife, ge_iff_le, UInt64.le_iff_toNat_le, hage] at hover
        have hlimit : kNoLimit.toNat = 2 ^ 64 - 1 := by decide
        omega
    | false =>
      rcases h.ended hlife o ho m hlive with hf | hf
      · have hdead : (o'.models m).filled = true := by
          obtain ⟨o₁, ho₁, hseq, -, hf₁⟩ := filled_on h.solid.sound h.solid.tallied msg ho hf
          rw [← (h.solid.step (.message msg)).sound.eq_of_seq_eq ho₁ ho' (hseq.trans holder.seq.symm)]
          exact hf₁
        exact .inl hdead
      · exact .inr hf

/-! ## A close -/

/-- A close of a symbol that has no quote. -/
theorem Quoting.note (h : Quoting cfg s) (hnone : s.openSeq l = none) (w : Closing) :
    Quoting cfg (s.note (.closed l w)) where
  solid := h.solid
  quotes := h.quotes
  current := h.current
  idle := h.idle
  live := h.live
  trace := h.trace.close w hnone
  posted := fun l' n side => by
    have hmem : QuoteEvent.posted l' n side ∈ s.trace ++ [.closed l w] ↔ .posted l' n side ∈ s.trace := by simp
    exact hmem.trans (h.posted l' n side)
  settled := fun l' n f hmem => by
    have hmem' : QuoteEvent.settled l' n f ∈ s.trace ++ [.closed l w] := hmem
    exact h.settled l' n f (by simpa using hmem')
  fills := by
    show _ = (s.trace ++ [_]).countP _
    rw [List.countP_append]
    exact h.fills
  tapes := h.tapes
  selected := h.selected
  entered := h.entered
  ended := fun hlife o ho m hl => (h.ended hlife o ho m hl).imp_right fun ⟨f, hf⟩ =>
    ⟨f, List.mem_append_left _ hf⟩

theorem tapes_settle {x : Tally} (h : x.fills = x.fillsTapeA + x.fillsTapeB + x.fillsTapeC + x.fillsTapeX)
    (tape : UInt8) (q : Quote) (mid : ℚ) :
    (x.settle tape q mid).fills = (x.settle tape q mid).fillsTapeA + (x.settle tape q mid).fillsTapeB +
      (x.settle tape q mid).fillsTapeC + (x.settle tape q mid).fillsTapeX := by
  show x.fills + 1 = (if tape = 65 then x.fillsTapeA + 1 else x.fillsTapeA) +
    (if tape = 66 then x.fillsTapeB + 1 else x.fillsTapeB) +
    (if tape = 67 then x.fillsTapeC + 1 else x.fillsTapeC) +
    if tape ≠ 65 ∧ tape ≠ 66 ∧ tape ≠ 67 then x.fillsTapeX + 1 else x.fillsTapeX
  by_cases ha : tape = 65
  · subst ha
    simp
    omega
  by_cases hb : tape = 66
  · subst hb
    simp
    omega
  by_cases hc : tape = 67
  · subst hc
    simp
    omega
  simp [ha, hb, hc]
  omega

/-- What a settlement writes. -/
structure Settles (s t : Strategy) (l : UInt16) (w : Closing) : Prop where
  sim : t.sim = s.sim.cancelSymbol l
  st : t.st = Function.update s.st l { s.st l with quote := {} }
  selected : t.selected = s.selected
  window : t.window = s.window
  trace : t.trace = s.trace ++ [.closed l w, .settled l (s.st l).quote.seq (s.st l).quote.filled]
  tally : t.tally =
    if (s.st l).quote.filled then s.tally.settle (s.st l).tape (s.st l).quote w.mid else s.tally

theorem Quoting.settles (h : Quoting cfg s) (hopen : (s.st l).quote.isOpen = true) (w : Closing) :
    Settles s ((s.note (.closed l w)).settle l w.mid) l w := by
  have hsilent : (s.sim.cancelSymbol l).fills = s.sim.fills := h.solid.silent (e := .cancelSymbol l) (by simp)
  have hopen' : ((s.note (.closed l w)).st l).quote.isOpen = true := hopen
  have htrace : ((s.note (.closed l w)).settle l w.mid).trace =
      s.trace ++ [.closed l w, .settled l (s.st l).quote.seq (s.st l).quote.filled] := by
    rw [Strategy.settle_trace, if_pos hopen']
    show s.trace ++ [_] ++ [_] = _
    rw [List.append_assoc]
    rfl
  suffices hrest : ((s.note (.closed l w)).settle l w.mid).sim = s.sim.cancelSymbol l ∧
      ((s.note (.closed l w)).settle l w.mid).st = Function.update s.st l { s.st l with quote := {} } ∧
      ((s.note (.closed l w)).settle l w.mid).selected = s.selected ∧
      ((s.note (.closed l w)).settle l w.mid).window = s.window ∧
      ((s.note (.closed l w)).settle l w.mid).tally =
        if (s.st l).quote.filled then s.tally.settle (s.st l).tape (s.st l).quote w.mid else s.tally from
    ⟨hrest.1, hrest.2.1, hrest.2.2.1, hrest.2.2.2.1, htrace, hrest.2.2.2.2⟩
  unfold Strategy.settle
  simp only [hopen', if_true]
  have hdrive (x : Strategy) (hx : x.sim = s.sim) :
      (x.drive fun sim => sim.cancelSymbol l) = { x with sim := x.sim.cancelSymbol l } :=
    Strategy.drive_silent (by rw [hx]; exact hsilent)
  rw [hdrive _ (by split <;> rfl)]
  cases hf : (s.st l).quote.filled with
  | true =>
    have hf' : ((s.note (.closed l w)).st l).quote.filled = true := hf
    rw [if_pos hf']
    exact ⟨rfl, rfl, rfl, rfl, rfl⟩
  | false =>
    have hf' : ((s.note (.closed l w)).st l).quote.filled = false := hf
    rw [if_neg (by rw [hf']; exact Bool.false_ne_true)]
    exact ⟨rfl, rfl, rfl, rfl, rfl⟩

/-- What `cancel_symbol` makes of an order. -/
theorem seeCancelSymbol_dead (o : SyntheticOrder) (ho : o.locate = l) : (seeCancelSymbol l o).anyLive = false := by
  unfold seeCancelSymbol SyntheticOrder.seeRetire
  rw [if_pos ho]
  cases hany : o.anyLive with
  | true =>
    rw [if_pos rfl]
    refine List.any_eq_false.mpr fun m _ => ?_
    show ¬ (if (o.models m).live then (o.models m).expire else o.models m).live = true
    split
    · exact Bool.false_ne_true
    · assumption
  | false =>
    rw [if_neg Bool.false_ne_true]
    exact hany

theorem seeCancelSymbol_of_ne (o : SyntheticOrder) (ho : o.locate ≠ l) : seeCancelSymbol l o = o := if_neg ho

theorem seeCancelSymbol_filled (o : SyntheticOrder) (m : QueueModel) :
    ((seeCancelSymbol l o).models m).filled = (o.models m).filled := by
  unfold seeCancelSymbol SyntheticOrder.seeRetire
  split_ifs
  · exact (sameFate_expire o).filled m
  · rfl
  · rfl

/-- **A settlement.** -/
theorem Quoting.settle (h : Quoting cfg s) (hopen : (s.st l).quote.isOpen = true) {w : Closing}
    (ht : Settles s t l w) : Quoting cfg t := by
  have hsolid := h.solid.step (.cancelSymbol l)
  have hmem (o' : SyntheticOrder) : o' ∈ t.sim.orders ↔ ∃ o ∈ s.sim.orders, seeCancelSymbol l o = o' := by
    rw [ht.sim]
    exact (h.solid.sound.retire_orders l).mem_iff.trans List.mem_map
  have hplacement (o : SyntheticOrder) : (seeCancelSymbol l o).placement = o.placement :=
    (SyntheticOrder.placement_seeCancelSymbol l).1
  have hseq (o : SyntheticOrder) : (seeCancelSymbol l o).seq = o.seq := congrArg Placement.seq (hplacement o)
  have hloc (o : SyntheticOrder) : (seeCancelSymbol l o).locate = o.locate :=
    congrArg Placement.locate (hplacement o)
  have hst (k : UInt16) : (t.st k).quote = if k = l then {} else (s.st k).quote := by
    rw [ht.st, Function.update_apply]
    split <;> rfl
  have hother {k : UInt16} (hk : (t.st k).quote.isOpen = true) : k ≠ l ∧ (t.st k).quote = (s.st k).quote := by
    rw [hst] at hk ⊢
    split at hk
    · cases hk
    · rename_i hne
      exact ⟨hne, if_neg hne⟩
  have hopenSeq : t.openSeq = Function.update s.openSeq l none := by
    funext k
    unfold Strategy.openSeq
    rw [hst]
    by_cases hk : k = l
    · subst hk
      rw [Function.update_self, if_pos rfl]
      rfl
    · rw [Function.update_of_ne hk, if_neg hk]
  obtain ⟨q, hq, hqloc, hqseq, hqfilled⟩ := h.current l hopen
  have hcur : s.openSeq l = some (s.st l).quote.seq := openSeq_eq_some.mpr ⟨hopen, rfl⟩
  refine ⟨ht.sim ▸ hsolid, ?_, fun k hk => ?_, fun k hk => ?_, fun o' ho' hl => ?_, ?_, fun k n side => ?_,
    fun k n f hset => ?_, ?_, ?_, fun k hk => ?_, fun o' ho' => ?_, fun hlife o' ho' m hl => ?_⟩
  · have hquotes : t.tally.quotes = s.tally.quotes := by
      rw [ht.tally]
      split <;> rfl
    rw [hquotes, ht.sim, h.quotes]
    rfl
  · obtain ⟨hne, hsame⟩ := hother hk
    rw [hsame] at hk ⊢
    obtain ⟨o, ho, holoc, hoseq, hofilled⟩ := h.current k hk
    refine ⟨o, (hmem o).mpr ⟨o, ho, seeCancelSymbol_of_ne o ?_⟩, holoc, hoseq, hofilled⟩
    rw [holoc]
    exact hne
  · rw [hst] at hk ⊢
    split
    · rfl
    · rename_i hne
      rw [if_neg hne] at hk
      exact h.idle k hk
  · obtain ⟨o, ho, rfl⟩ := (hmem o').mp ho'
    by_cases hol : o.locate = l
    · rw [seeCancelSymbol_dead o hol] at hl
      cases hl
    · rw [seeCancelSymbol_of_ne o hol] at hl ⊢
      rw [hopenSeq, Function.update_of_ne hol]
      exact h.live o ho hl
  · rw [ht.trace, hopenSeq]
    exact .settle w _ h.trace hcur
  · rw [ht.trace]
    have hposted : QuoteEvent.posted k n side ∈ s.trace ++
        [.closed l w, .settled l (s.st l).quote.seq (s.st l).quote.filled] ↔ .posted k n side ∈ s.trace := by simp
    refine hposted.trans ((h.posted k n side).trans ⟨?_, ?_⟩)
    · rintro ⟨o, ho, h1, h2, h3⟩
      exact ⟨_, (hmem _).mpr ⟨o, ho, rfl⟩, (hloc o).trans h1, (hseq o).trans h2,
        (congrArg Placement.side (hplacement o)).trans h3⟩
    · rintro ⟨o', ho', h1, h2, h3⟩
      obtain ⟨o, ho, rfl⟩ := (hmem o').mp ho'
      exact ⟨o, ho, (hloc o).symm.trans h1, (hseq o).symm.trans h2,
        (congrArg Placement.side (hplacement o)).symm.trans h3⟩
  · rw [ht.trace] at hset
    rcases List.mem_append.mp hset with hset | hset
    · obtain ⟨o, ho, h1, h2, h3⟩ := h.settled k n f hset
      exact ⟨_, (hmem _).mpr ⟨o, ho, rfl⟩, (hloc o).trans h1, (hseq o).trans h2,
        (seeCancelSymbol_filled o .exact).trans h3⟩
    · simp only [List.mem_cons, reduceCtorEq, QuoteEvent.settled.injEq, List.not_mem_nil, or_false,
        false_or] at hset
      obtain ⟨rfl, rfl, rfl⟩ := hset
      exact ⟨_, (hmem _).mpr ⟨q, hq, rfl⟩, (hloc q).trans hqloc, (hseq q).trans hqseq,
        (seeCancelSymbol_filled q .exact).trans hqfilled⟩
  · rw [ht.trace, ht.tally, List.countP_append, ← h.fills]
    cases (s.st l).quote.filled <;> rfl
  · rw [ht.tally]
    split
    · exact tapes_settle h.tapes _ _ _
    · exact h.tapes
  · rw [ht.selected]
    obtain ⟨-, hsame⟩ := hother hk
    rw [hsame] at hk
    exact h.selected k hk
  · obtain ⟨o, ho, rfl⟩ := (hmem o').mp ho'
    have hts : (seeCancelSymbol l o).enteredTs = o.enteredTs := congrArg Placement.enteredTs (hplacement o)
    rw [hts, ht.sim]
    exact h.entered o ho
  · obtain ⟨o, ho, rfl⟩ := (hmem o').mp ho'
    rw [hloc, hseq, seeCancelSymbol_filled, ht.trace]
    cases hlive : (o.models m).live with
    | true =>
      -- the order was live, so it is the one that the quote is settled with
      have hflag := h.solid.sound.flagged o ho
      have hol : o.locate = l := by
        by_contra hne
        rw [seeCancelSymbol_of_ne o hne, hlive] at hl
        cases hl
      have hown := h.live o ho (hflag.anyLive hlive)
      rw [hol, hcur] at hown
      rw [hol, ← Option.some.inj hown]
      exact .inr ⟨(s.st l).quote.filled, by simp⟩
    | false =>
      exact (h.ended hlife o ho m hlive).imp_right fun ⟨f, hf⟩ => ⟨f, List.mem_append_left _ hf⟩

/-- What a posting writes. -/
structure Posts (s t : Strategy) (l : UInt16) (o : SyntheticOrder) : Prop where
  sim : t.sim = s.sim.push o
  quote : ∀ k, (t.st k).quote.isOpen = (if k = l then true else (s.st k).quote.isOpen) ∧
    (t.st k).quote.seq = (if k = l then s.sim.placements else (s.st k).quote.seq) ∧
    (t.st k).quote.filled = (s.st k).quote.filled
  selected : t.selected = s.selected
  trace : t.trace = s.trace ++ [.posted l s.sim.placements o.side]
  tally : t.tally = { s.tally with quotes := s.tally.quotes + 1 }

theorem posts_of_valid {now : Inside} {w : Closing}
    (hvalid : (Inside.read s.sim.book l).valid = true) (hpost : (w.usable && decide (w.qi ≠ 0)) = true) :
    ∃ o, s.sim.entry l (if w.qi > 0 then kBuy else kSell) w.ts = some o ∧ Posts s (s.post l now w) l o := by
  obtain ⟨o, he⟩ := entry_of_valid hvalid (if w.qi > 0 then kBuy else kSell) w.ts
  obtain ⟨-, -, -, hside, -⟩ := entry_spec he
  have hpush : s.sim.placeDirected l (if w.qi > 0 then kBuy else kSell) w.ts = s.sim.push o := by
    unfold placeDirected placeAt
    rw [he]
  have hdrive : (s.drive fun sim => sim.placeDirected l (if w.qi > 0 then kBuy else kSell) w.ts) =
      { s with sim := s.sim.push o } := by
    rw [Strategy.drive_silent (by rw [hpush]; rfl), hpush]
  refine ⟨o, he, ?_⟩
  unfold Strategy.post
  rw [if_pos hpost]
  simp only [hdrive]
  refine ⟨rfl, fun k => ?_, rfl, by rw [hside]; rfl, rfl⟩
  show ((Function.update s.st l _ k).quote.isOpen = _) ∧ (Function.update s.st l _ k).quote.seq = _ ∧
    (Function.update s.st l _ k).quote.filled = _
  by_cases hk : k = l
  · subst hk
    simp only [Function.update_self, if_true, and_self]
  · simp only [Function.update_of_ne hk, if_neg hk, and_self]

/-- **A posting.** -/
theorem Quoting.post (h : Quoting cfg s) (hnone : s.openSeq l = none) (hmem : l ∈ s.selected) {side : UInt8}
    {ts : UInt64} (hts : ts ≤ s.sim.lastTs) {o : SyntheticOrder} (he : s.sim.entry l side ts = some o)
    (ht : Posts s t l o) : Quoting cfg t := by
  obtain ⟨hent, hoseq, holoc, hoside, hots⟩ := entry_spec he
  have hfresh (m : QueueModel) : (o.models m).live = true ∧ (o.models m).filled = false := by
    rw [hent.models]
    exact ⟨rfl, rfl⟩
  have hplaced : s.sim.step (.placeDirected l side ts) = s.sim.push o := by
    show s.sim.placeAt l side ts = _
    unfold placeAt
    rw [he]
  have hsolid := h.solid.step (.placeDirected l side ts)
  rw [hplaced] at hsolid
  have hclosed : (s.st l).quote.isOpen = false := openSeq_eq_none.mp hnone
  have horders (o' : SyntheticOrder) : o' ∈ t.sim.orders ↔ o' ∈ s.sim.orders ∨ o' = o := by
    rw [ht.sim, push_orders, List.mem_append, List.mem_singleton]
  have hopenSeq : t.openSeq = Function.update s.openSeq l (some s.sim.placements) := by
    funext k
    unfold Strategy.openSeq
    rw [(ht.quote k).1, (ht.quote k).2.1]
    by_cases hk : k = l
    · subst hk
      rw [Function.update_self, if_pos rfl, if_pos rfl, if_pos rfl]
    · rw [Function.update_of_ne hk, if_neg hk, if_neg hk]
  have hposted (k : UInt16) (n : ℕ) (sd : UInt8) : .posted k n sd ∈ t.trace ↔
      .posted k n sd ∈ s.trace ∨ k = l ∧ n = s.sim.placements ∧ sd = o.side := by
    rw [ht.trace]
    simp
  refine ⟨ht.sim ▸ hsolid, ?_, fun k hk => ?_, fun k hk => ?_, fun o' ho' hl => ?_, ?_, fun k n sd => ?_,
    fun k n f hset => ?_, ?_, ?_, fun k hk => ?_, fun o' ho' => ?_, fun hlife o' ho' m hl => ?_⟩
  · rw [ht.tally, ht.sim]
    exact congrArg (· + 1) h.quotes
  · rw [(ht.quote k).1] at hk
    rw [(ht.quote k).2.1, (ht.quote k).2.2]
    by_cases hkl : k = l
    · subst hkl
      rw [if_pos rfl, h.idle k hclosed]
      exact ⟨o, (horders o).mpr (.inr rfl), holoc, hoseq, (hfresh .exact).2⟩
    · rw [if_neg hkl] at hk ⊢
      obtain ⟨o', ho', h1, h2, h3⟩ := h.current k hk
      exact ⟨o', (horders o').mpr (.inl ho'), h1, h2, h3⟩
  · rw [(ht.quote k).1] at hk
    rw [(ht.quote k).2.2]
    split at hk
    · cases hk
    · exact h.idle k hk
  · rw [hopenSeq]
    rcases (horders o').mp ho' with ho' | rfl
    · have hown := h.live o' ho' hl
      by_cases hol : o'.locate = l
      · rw [hol, hnone] at hown
        cases hown
      · rw [Function.update_of_ne hol]
        exact hown
    · rw [holoc, Function.update_self, hoseq]
  · rw [ht.trace, hopenSeq]
    refine .post o.side h.trace hnone fun k n sd hold => ?_
    obtain ⟨o', ho', -, rfl, -⟩ := (h.posted k n sd).mp hold
    exact Nat.ne_of_lt (h.solid.sound.seq_lt ho')
  · rw [hposted, h.posted]
    constructor
    · rintro (⟨o', ho', h1, h2, h3⟩ | ⟨rfl, rfl, rfl⟩)
      · exact ⟨o', (horders o').mpr (.inl ho'), h1, h2, h3⟩
      · exact ⟨o, (horders o).mpr (.inr rfl), holoc, hoseq, rfl⟩
    · rintro ⟨o', ho', h1, h2, h3⟩
      rcases (horders o').mp ho' with ho' | rfl
      · exact .inl ⟨o', ho', h1, h2, h3⟩
      · exact .inr ⟨h1.symm.trans holoc, h2.symm.trans hoseq, h3.symm⟩
  · rw [ht.trace] at hset
    obtain ⟨o', ho', h1, h2, h3⟩ := h.settled k n f (by simpa using hset)
    exact ⟨o', (horders o').mpr (.inl ho'), h1, h2, h3⟩
  · rw [ht.tally, ht.trace, List.countP_append]
    exact h.fills
  · rw [ht.tally]
    exact h.tapes
  · rw [(ht.quote k).1] at hk
    rw [ht.selected]
    by_cases hkl : k = l
    · rw [hkl]
      exact hmem
    · rw [if_neg hkl] at hk
      exact h.selected k hk
  · have hlast : t.sim.lastTs = s.sim.lastTs := by
      rw [ht.sim]
      rfl
    rw [hlast]
    rcases (horders o').mp ho' with ho' | rfl
    · exact h.entered o' ho'
    · rw [hots]
      exact hts
  · rcases (horders o').mp ho' with ho' | rfl
    · rw [ht.trace]
      exact (h.ended hlife o' ho' m hl).imp_right fun ⟨f, hf⟩ => ⟨f, List.mem_append_left _ hf⟩
    · rw [(hfresh m).1] at hl
      cases hl

/-! ## Runs -/

/-- **A close.** -/
theorem Quoting.closeWindow (h : Quoting cfg s) (hmem : l ∈ s.selected) {ts : UInt64} (hts : ts ≤ s.sim.lastTs)
    (hvalid : (s.readInside l).valid = true) : Quoting cfg (s.closeWindow l (s.readInside l) ts) := by
  set w := (s.st l).closing (s.readInside l) ts with hw
  obtain ⟨s₁, hs₁, h₁, hnone, hlast⟩ : ∃ s₁, (s.note (.closed l w)).settle l w.mid = s₁ ∧ Quoting cfg s₁ ∧
      s₁.openSeq l = none ∧ s₁.sim.lastTs = s.sim.lastTs := by
    refine ⟨_, rfl, ?_⟩
    cases hopen : (s.st l).quote.isOpen with
    | true =>
      have hset := h.settles hopen w
      refine ⟨h.settle hopen hset, ?_, by rw [hset.sim]; rfl⟩
      rw [openSeq_eq_none, hset.st, Function.update_self]
    | false =>
      have hnone : s.openSeq l = none := openSeq_eq_none.mpr hopen
      have hopen' : ((s.note (.closed l w)).st l).quote.isOpen = false := hopen
      rw [Strategy.settle_of_not_open w.mid hopen']
      exact ⟨h.note hnone w, hnone, rfl⟩
  have hframe : Strategy.SameWindows s s₁ := by
    have hnote : Strategy.SameWindows s (s.note (.closed l w)) := ⟨rfl, rfl, rfl, fun _ => rfl⟩
    rw [← hs₁]
    exact hnote.trans (Strategy.sameWindows_settle _ l w.mid)
  have hposted : Quoting cfg (s₁.post l (s.readInside l) w) := by
    by_cases hpost : (w.usable && decide (w.qi ≠ 0)) = true
    · have hvalid₁ : (Inside.read s₁.sim.book l).valid = true := by
        rw [hframe.book]
        exact hvalid
      obtain ⟨o, he, ht⟩ := posts_of_valid hvalid₁ hpost
      exact h₁.post hnone (by rw [hframe.selected]; exact hmem) (by rw [hlast]; exact hts) he ht
    · rw [Strategy.post_of_not_signal hpost]
      exact h₁
  unfold Strategy.closeWindow
  simp only
  rw [← hw, hs₁]
  refine hposted.congr rfl rfl rfl rfl fun k => ?_
  rw [Strategy.setSt_st]
  split
  · rename_i hk
    rw [hk]
  · rfl

/-- The windows of one symbol are written, not its quote. -/
theorem Quoting.setSt (h : Quoting cfg s) {x : SymState} (hx : x.quote = (s.st l).quote) :
    Quoting cfg (s.setSt l x) := by
  refine h.congr rfl rfl rfl rfl fun k => ?_
  rw [Strategy.setSt_st]
  split
  · rename_i hk
    rw [hx, hk]
  · rfl

theorem Quoting.after (h : Quoting cfg s) {ts : UInt64} (hts : ts ≤ s.sim.lastTs) (l : UInt16) :
    Quoting cfg (s.after l ts) := by
  by_cases hmem : l ∈ s.selected
  swap
  · have hid : s.after l ts = s := if_pos hmem
    rw [hid]
    exact h
  rw [Strategy.after_eq hmem]
  simp only
  split_ifs with hupdate hfull
  · have hset := h.setSt (l := l) (x := SymState.observe { s.st l with prev := s.readInside l } ts) rfl
    have hvalid : (s.readInside l).valid = true := by
      simp only [Bool.and_eq_true] at hupdate
      exact hupdate.1.1
    exact hset.closeWindow hmem hts hvalid
  · exact h.setSt rfl
  · exact h.setSt rfl

theorem Quoting.see (h : Quoting cfg s) (htimer : cfg.timerPlacement = false) (msg : Message) {hd : Header}
    (htick : tickOf msg = some (tsOf hd)) : Quoting cfg (s.see msg hd) := by
  have hlast := (unplaced_on h.solid.sound (by rw [h.solid.cfg, htimer]) msg).2 _ htick
  have hdrive := h.drive htimer msg
  refine hdrive.after ?_ hd.locate
  rw [Strategy.drive_eq]
  exact hlast

/-- **A message.** -/
theorem Quoting.on (h : Quoting cfg s) (htimer : cfg.timerPlacement = false) (msg : Message) :
    Quoting cfg (s.on msg) := by
  cases msg with
  | systemEvent v => exact h.drive htimer (.systemEvent v)
  | stockDirectory v => exact (h.drive htimer (.stockDirectory v)).setSt rfl
  | stockTradingAction v => exact h.setSt rfl
  | operationalHalt v => exact h
  | addOrder v => exact h.see htimer (.addOrder v) rfl
  | addOrderMpid v => exact h.see htimer (.addOrderMpid v) rfl
  | orderCancel v => exact h.see htimer (.orderCancel v) rfl
  | orderDelete v => exact h.see htimer (.orderDelete v) rfl
  | orderReplace v => exact h.see htimer (.orderReplace v) rfl
  | orderExecuted v => exact h.see htimer (.orderExecuted v) rfl
  | orderExecutedPrice v => exact h.see htimer (.orderExecutedPrice v) rfl
  | trade v => exact h.see htimer (.trade v) rfl
  | crossTrade v => exact h.see htimer (.crossTrade v) rfl
  | brokenTrade v => exact h.see htimer (.brokenTrade v) rfl

theorem quoting_run (P : Platform) (htimer : cfg.timerPlacement = false) (selected : Finset UInt16)
    (window : UInt32) (ms : List Message) :
    Quoting cfg (Runs.run Strategy.on (Strategy.init P cfg selected window) ms) :=
  have hstep : ∀ (s : Strategy) (msg : Message), Quoting cfg s → Quoting cfg (s.on msg) :=
    fun _ msg h => h.on htimer msg
  Runs.run_invariant hstep ms _ (Quoting.init P cfg selected window)

/-! ## The accounts -/

/-- A symbol has one live order at most. -/
theorem Quoting.one_live (h : Quoting cfg s) (l : UInt16) :
    (s.sim.orders.countP fun o => o.anyLive && decide (o.locate = l)) ≤ 1 := by
  rw [List.countP_eq_length_filter]
  set os := s.sim.orders.filter fun o => o.anyLive && decide (o.locate = l) with hos
  have hseq : ∀ o ∈ os, s.openSeq l = some o.seq := by
    intro o ho
    obtain ⟨hmem, hp⟩ := List.mem_filter.mp ho
    simp only [Bool.and_eq_true, decide_eq_true_eq] at hp
    rw [← hp.2]
    exact h.live o hmem hp.1
  have hnodup : (os.map SyntheticOrder.seq).Nodup :=
    h.solid.sound.seq_nodup.sublist (List.filter_sublist.map SyntheticOrder.seq)
  match hcase : os with
  | [] => exact Nat.zero_le _
  | [o] => exact le_rfl
  | o :: o' :: rest =>
    rw [List.map_cons, List.map_cons, List.nodup_cons] at hnodup
    have hsame : o.seq = o'.seq := Option.some.inj ((hseq o (List.mem_cons_self ..)).symm.trans
      (hseq o' (List.mem_cons_of_mem _ (List.mem_cons_self ..))))
    exact absurd (hsame ▸ List.mem_cons_self ..) hnodup.1

/-- The symbol and the number of a quote that is settled filled. -/
def QuoteEvent.filledQuote : QuoteEvent → Option (UInt16 × ℕ)
  | .settled l n filled => if filled then some (l, n) else none
  | _ => none

theorem filledQuote_eq_some {e : QuoteEvent} {p : UInt16 × ℕ} :
    e.filledQuote = some p ↔ e = .settled p.1 p.2 true := by
  unfold QuoteEvent.filledQuote
  cases e with
  | settled l n filled =>
    cases filled <;> simp [Prod.ext_iff, eq_comm]
  | _ => simp

/-- No quote is settled twice. -/
theorem Lifecycle.nodup_filled {es : List QuoteEvent} {cur : UInt16 → Option ℕ} (h : Lifecycle es cur) :
    (es.filterMap QuoteEvent.filledQuote).Nodup := by
  have hnone {es fs : List QuoteEvent} (hfs : fs.filterMap QuoteEvent.filledQuote = [])
      (hes : (es.filterMap QuoteEvent.filledQuote).Nodup) :
      ((es ++ fs).filterMap QuoteEvent.filledQuote).Nodup := by
    rw [List.filterMap_append, hfs, List.append_nil]
    exact hes
  induction h with
  | start => exact List.nodup_nil
  | close w _ _ ih => exact hnone rfl ih
  | @settle es cur l n w filled h hcur ih =>
    cases filled with
    | false => exact hnone rfl ih
    | true =>
      have hnew : (l, n) ∉ es.filterMap QuoteEvent.filledQuote := by
        intro hmem
        obtain ⟨e, he, heq⟩ := List.mem_filterMap.mp hmem
        rw [filledQuote_eq_some] at heq
        exact h.not_settled hcur true (heq ▸ he)
      have hsplit : (es ++ [QuoteEvent.closed l w, QuoteEvent.settled l n true]).filterMap QuoteEvent.filledQuote =
          es.filterMap QuoteEvent.filledQuote ++ [(l, n)] := by
        rw [List.filterMap_append]
        rfl
      rw [hsplit]
      exact List.nodup_append.mpr ⟨ih, List.nodup_singleton _, fun a ha b hb hab =>
        hnew (by rw [← List.mem_singleton.mp hb, ← hab]; exact ha)⟩
  | post side _ _ _ ih => exact hnone rfl ih

/-- The simulator counts the fills that the strategy has counted and those of its open quotes. -/
theorem Quoting.filled_eq (h : Quoting cfg s) : (s.sim.res .exact).filled =
    s.tally.fills + (s.selected.filter fun l => (s.st l).quote.isOpen && (s.st l).quote.filled).card := by
  have hsound := h.solid.sound
  set filled := (s.sim.orders.filter fun o => (o.models .exact).filled).map fun o => (o.locate, o.seq) with hfilled
  set settled := s.trace.filterMap QuoteEvent.filledQuote with hsettled
  set current := s.selected.filter fun l => (s.st l).quote.isOpen && (s.st l).quote.filled with hcurrent
  have hcount : (s.sim.res .exact).filled = filled.length := by
    have hweight : (s.sim.res .exact).filled = (s.sim.orders.map (·.weight .exact .filled)).sum :=
      h.solid.tallied.count .exact .filled
    simp only [SyntheticOrder.weight_filled] at hweight
    rw [hweight, sum_toNat, List.length_map, List.countP_eq_length_filter]
  have hfills : s.tally.fills = settled.length := by
    rw [h.fills, hsettled, List.length_filterMap_eq_countP]
    refine List.countP_congr fun e _ => ?_
    cases e with
    | settled l n filled => cases filled <;> simp [QuoteEvent.countsFill, QuoteEvent.filledQuote]
    | _ => simp [QuoteEvent.countsFill, QuoteEvent.filledQuote]
  have hnodup : filled.Nodup := by
    have hseq : (filled.map Prod.snd).Nodup := by
      rw [hfilled, List.map_map]
      exact hsound.seq_nodup.sublist (List.filter_sublist.map SyntheticOrder.seq)
    exact hseq.of_map
  have hmem (p : UInt16 × ℕ) : p ∈ filled ↔
      ∃ o ∈ s.sim.orders, (o.models .exact).filled = true ∧ o.locate = p.1 ∧ o.seq = p.2 := by
    rw [hfilled]
    simp [Prod.ext_iff, and_assoc]
  have hmem' (p : UInt16 × ℕ) : p ∈ settled ↔ .settled p.1 p.2 true ∈ s.trace := by
    rw [hsettled, List.mem_filterMap]
    simp only [filledQuote_eq_some, exists_eq_right]
  have hopen (l : UInt16) : l ∈ current ↔ (s.st l).quote.isOpen = true ∧ (s.st l).quote.filled = true := by
    rw [hcurrent, Finset.mem_filter, Bool.and_eq_true]
    exact ⟨fun hl => hl.2, fun hl => ⟨h.selected l hl.1, hl⟩⟩
  -- a filled order is settled filled, or the quote of its symbol is open and filled
  have hsplit : filled.toFinset = settled.toFinset ∪ current.image fun l => (l, (s.st l).quote.seq) := by
    ext ⟨l, n⟩
    rw [Finset.mem_union, List.mem_toFinset, List.mem_toFinset, Finset.mem_image, hmem, hmem']
    constructor
    · rintro ⟨o, ho, hf, rfl, rfl⟩
      rcases h.trace.settled_of_posted ((h.posted _ _ _).mpr ⟨o, ho, rfl, rfl, rfl⟩) with hcur | ⟨f, hset⟩
      · obtain ⟨hop, hseq⟩ := openSeq_eq_some.mp hcur
        obtain ⟨o', ho', -, hseq', hf'⟩ := h.current _ hop
        obtain rfl := hsound.eq_of_seq_eq ho' ho (hseq'.trans hseq)
        exact .inr ⟨o'.locate, (hopen _).mpr ⟨hop, hf'.symm.trans hf⟩, by rw [hseq]⟩
      · obtain ⟨o', ho', -, hseq', hf'⟩ := h.settled _ _ _ hset
        obtain rfl := hsound.eq_of_seq_eq ho' ho hseq'
        rw [← hf', hf] at hset
        exact .inl hset
    · rintro (hset | ⟨l', hl', heq⟩)
      · obtain ⟨o, ho, hloc, hseq, hf⟩ := h.settled _ _ _ hset
        exact ⟨o, ho, hf, hloc, hseq⟩
      · obtain ⟨rfl, rfl⟩ := Prod.mk.inj heq
        obtain ⟨hop, hqf⟩ := (hopen _).mp hl'
        obtain ⟨o, ho, hloc, hseq, hf⟩ := h.current _ hop
        exact ⟨o, ho, hf.trans hqf, hloc, hseq⟩
  have hdisjoint : Disjoint settled.toFinset (current.image fun l => (l, (s.st l).quote.seq)) := by
    rw [Finset.disjoint_left]
    rintro p hp hp'
    obtain ⟨l, hl, rfl⟩ := Finset.mem_image.mp hp'
    have hset := (hmem' _).mp (List.mem_toFinset.mp hp)
    exact h.trace.not_settled (openSeq_eq_some.mpr ⟨((hopen l).mp hl).1, rfl⟩) true hset
  have hinj : Function.Injective fun l : UInt16 => (l, (s.st l).quote.seq) := fun a b hab =>
    (Prod.mk.inj hab).1
  rw [hcount, ← List.toFinset_card_of_nodup hnodup, hsplit, Finset.card_union_of_disjoint hdisjoint,
    List.toFinset_card_of_nodup h.trace.nodup_filled, Finset.card_image_of_injective _ hinj, hfills]

theorem Quoting.placed_eq (h : Quoting cfg s) : (s.sim.res .exact).placed = s.tally.quotes := by
  have hplaced : (s.sim.res .exact).placed = (s.sim.orders.map (·.weight .exact .placed)).sum :=
    h.solid.tallied.count .exact .placed
  have hlength := h.solid.sound.seqs.length_eq
  rw [List.length_map, List.length_range] at hlength
  simp only [SyntheticOrder.weight_placed, List.map_const', List.sum_replicate, smul_eq_mul, mul_one] at hplaced
  rw [hplaced, hlength, h.quotes]

end

/-- **The accounts of the strategy.** After every message: the simulator has placed as many orders as there were
quotes, its fills are those settled and those of open quotes, and the fills by tape add up. A symbol has one live
order at most and only while its quote is open. A quote is posted when the symbol's quotes before it are settled,
and settled at the next close of the symbol; an order ends when it is filled or its quote is settled. -/
theorem strategy_accounts (P : Platform) (eligible : List UInt16) (rule4 : Bool) (selected : Finset UInt16)
    (window : UInt32) (ms : List Message) :
    let s := Runs.run Strategy.on (Strategy.init P (Strategy.config eligible rule4) selected window) ms
    (s.sim.res .exact).placed = s.tally.quotes ∧
    ((s.sim.res .exact).filled = s.tally.fills +
        (s.selected.filter fun l => (s.st l).quote.isOpen && (s.st l).quote.filled).card ∧
      ∀ l, (s.st l).quote.isOpen = true → l ∈ s.selected) ∧
    s.tally.fills = s.tally.fillsTapeA + s.tally.fillsTapeB + s.tally.fillsTapeC + s.tally.fillsTapeX ∧
    (∀ l, (s.sim.orders.countP fun o => o.anyLive && decide (o.locate = l)) ≤ 1) ∧
    (∀ o ∈ s.sim.orders, o.anyLive = true →
      (s.st o.locate).quote.isOpen = true ∧ (s.st o.locate).quote.seq = o.seq) ∧
    (∀ l n side, .posted l n side ∈ s.trace ↔ ∃ o ∈ s.sim.orders, o.locate = l ∧ o.seq = n ∧ o.side = side) ∧
    (∀ xs l n side ys, s.trace = xs ++ .posted l n side :: ys →
      (∀ k sd, .posted l k sd ∈ xs → ∃ f, .settled l k f ∈ xs) ∧
        ((∃ f, .settled l n f ∈ ys) ↔ ∃ w, .closed l w ∈ ys)) ∧
    ∀ o ∈ s.sim.orders, ∀ m, (o.models m).live = false →
      (o.models m).filled = true ∨ ∃ f, .settled o.locate o.seq f ∈ s.trace := by
  have hconfig : (Strategy.config eligible rule4).timerPlacement = false := rfl
  have h := quoting_run P hconfig selected window ms
  refine ⟨h.placed_eq, ⟨h.filled_eq, h.selected⟩, h.tapes, h.one_live, fun o ho hl =>
    openSeq_eq_some.mp (h.live o ho hl), h.posted, fun xs l n side ys hsplit =>
    ⟨fun k sd hk => h.trace.posted_after hsplit hk, ?_⟩, h.ended rfl⟩
  have hiff := h.trace.settled_iff_closed hsplit
  split_ifs at hiff
  · exact iff_of_false (fun ⟨f, hf⟩ => hiff.1 f hf) fun ⟨w, hw⟩ => hiff.2 w hw
  · exact iff_of_true hiff.1 hiff.2

end Carteret
