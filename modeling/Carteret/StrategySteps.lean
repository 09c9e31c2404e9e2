import Carteret.QueueBook
import Carteret.QueueCalls
import Carteret.Strategy

/-!
# Steps of the strategy

1. A call of the simulator tells the quotes of its fills and changes nothing else of the strategy (`drive_eq`).
2. Settling and posting leave the windows alone (`SameWindows`).
3. What `after` does: nothing, one update more, or a close (`after_eq`).
-/

namespace Carteret

/-- `on_fill` has been called for the symbol, or not. -/
def SymState.told (x : SymState) (hit : Bool) : SymState :=
  if x.quote.isOpen && hit then { x with quote := { x.quote with filled := true } } else x

namespace SymState

theorem told_false (x : SymState) : x.told false = x := by
  unfold told
  rw [Bool.and_false, if_neg Bool.false_ne_true]

theorem told_told (x : SymState) (hit hit' : Bool) : (x.told hit).told hit' = x.told (hit || hit') := by
  unfold told
  cases hopen : x.quote.isOpen <;> cases hit <;> cases hit' <;> simp [hopen]

/-- All but the quote. -/
def sansQuote (x : SymState) : SymState := { x with quote := {} }

theorem sansQuote_told (x : SymState) (hit : Bool) : (x.told hit).sansQuote = x.sansQuote := by
  unfold told
  split <;> rfl

end SymState

namespace Strategy

variable {s t : Strategy} {l locate : UInt16} {ts : UInt64}

theorem setSt_st (s : Strategy) (locate : UInt16) (x : SymState) (l : UInt16) :
    (s.setSt locate x).st l = if l = locate then x else s.st l :=
  Function.update_apply s.st locate x l

/-! ## Calls of the simulator -/

theorem onFill_eq (s : Strategy) (c : FillCall) :
    s.onFill c = { s with st := fun l => (s.st l).told (c.isOf .exact l) } := by
  have hst {x : SymState} (hx : x = (s.st c.order.locate).told (c.isOf .exact c.order.locate))
      (hne : ∀ l, l ≠ c.order.locate → c.isOf .exact l = false) :
      Function.update s.st c.order.locate x = fun l => (s.st l).told (c.isOf .exact l) := by
    funext l
    by_cases hl : l = c.order.locate
    · subst hl
      rw [Function.update_self, hx]
    · rw [Function.update_of_ne hl, hne l hl, SymState.told_false]
  unfold onFill
  by_cases hm : c.model = .exact
  · have hne (l : UInt16) (hl : l ≠ c.order.locate) : c.isOf .exact l = false := by
      simp [FillCall.isOf, Ne.symm hl]
    have hself : c.isOf .exact c.order.locate = true := by simp [FillCall.isOf, hm]
    rw [if_neg (not_not.mpr hm)]
    simp only
    split
    · rename_i hopen
      have hx : { s.st c.order.locate with quote := { (s.st c.order.locate).quote with filled := true } } =
          (s.st c.order.locate).told (c.isOf .exact c.order.locate) := by
        unfold SymState.told
        rw [hopen, hself, Bool.and_true, if_pos rfl]
      unfold setSt
      rw [hst hx hne]
    · rename_i hopen
      have hx : s.st c.order.locate = (s.st c.order.locate).told (c.isOf .exact c.order.locate) := by
        unfold SymState.told
        rw [if_neg (by simp [hopen])]
      rw [← hst hx hne, Function.update_eq_self]
  · have hnone (l : UInt16) : c.isOf .exact l = false := by simp [FillCall.isOf, hm]
    rw [if_pos hm]
    simp only [hnone, SymState.told_false]

theorem foldl_onFill : ∀ (calls : List FillCall) (s : Strategy),
    calls.foldl onFill s = { s with st := fun l => (s.st l).told (calls.any (·.isOf .exact l)) }
  | [], s => by simp only [List.foldl_nil, List.any_nil, SymState.told_false]
  | c :: calls, s => by
    rw [List.foldl_cons, foldl_onFill calls, onFill_eq]
    simp only [SymState.told_told, List.any_cons]

/-- The calls of `on_fill` that the simulator makes in a symbol. -/
def called (sim sim' : QueueSim) (l : UInt16) : Bool :=
  (sim'.fills.drop sim.fills.length).any (·.isOf .exact l)

/-- **A call of the simulator.** -/
theorem drive_eq (s : Strategy) (f : QueueSim → QueueSim) :
    s.drive f = { s with sim := f s.sim, st := fun l => (s.st l).told (called s.sim (f s.sim) l) } :=
  foldl_onFill _ _

/-- A call that fills nothing. -/
theorem drive_silent {f : QueueSim → QueueSim} (h : (f s.sim).fills = s.sim.fills) :
    s.drive f = { s with sim := f s.sim } := by
  rw [drive_eq]
  unfold called
  rw [h, List.drop_length]
  simp only [List.any_nil, SymState.told_false]

/-! ## What leaves the windows alone -/

/-- The same book and the same windows of every symbol. -/
structure SameWindows (s t : Strategy) : Prop where
  selected : t.selected = s.selected
  window : t.window = s.window
  book : t.sim.book = s.sim.book
  st : ∀ l, (t.st l).sansQuote = (s.st l).sansQuote

theorem SameWindows.refl (s : Strategy) : SameWindows s s := ⟨rfl, rfl, rfl, fun _ => rfl⟩

theorem SameWindows.trans {u : Strategy} (h : SameWindows s t) (h' : SameWindows t u) : SameWindows s u :=
  ⟨h'.selected.trans h.selected, h'.window.trans h.window, h'.book.trans h.book,
    fun l => (h'.st l).trans (h.st l)⟩

theorem sameWindows_drive (s : Strategy) {f : QueueSim → QueueSim} (hf : (f s.sim).book = s.sim.book) :
    SameWindows s (s.drive f) := by
  rw [drive_eq]
  exact ⟨rfl, rfl, hf, fun l => SymState.sansQuote_told _ _⟩

/-- Another quote for one symbol. -/
theorem sameWindows_setQuote (s : Strategy) (locate : UInt16) (q : Quote) :
    SameWindows s (s.setSt locate { s.st locate with quote := q }) := by
  refine ⟨rfl, rfl, rfl, fun l => ?_⟩
  rw [setSt_st]
  split
  · rename_i hl
    subst hl
    rfl
  · rfl

theorem sameWindows_settle (s : Strategy) (locate : UInt16) (mid : ℚ) :
    SameWindows s (s.settle locate mid) := by
  unfold settle
  simp only
  split
  · have htally : SameWindows s (if (s.st locate).quote.filled then
        { s with tally := s.tally.settle (s.st locate).tape (s.st locate).quote mid } else s) := by
      split
      · exact ⟨rfl, rfl, rfl, fun _ => rfl⟩
      · exact SameWindows.refl s
    have hdrive := htally.trans (sameWindows_drive _ (f := fun sim => sim.cancelSymbol locate) rfl)
    have hquote := hdrive.trans (sameWindows_setQuote _ locate {})
    exact ⟨hquote.selected, hquote.window, hquote.book, hquote.st⟩
  · exact SameWindows.refl s

theorem placeDirected_book (sim : QueueSim) (locate : UInt16) (side : UInt8) (ts : UInt64) :
    (sim.placeDirected locate side ts).book = sim.book :=
  (QueueSim.sameBook sim.book).placeAt rfl locate side ts

theorem sameWindows_post (s : Strategy) (locate : UInt16) (now : Inside) (w : Closing) :
    SameWindows s (s.post locate now w) := by
  unfold post
  split
  · have hdrive := sameWindows_drive s (f := fun sim =>
      sim.placeDirected locate (if w.qi > 0 then kBuy else kSell) w.ts) (placeDirected_book _ _ _ _)
    have hquote (q : Quote) := hdrive.trans (sameWindows_setQuote _ locate q)
    exact ⟨(hquote {}).selected, (hquote {}).window, (hquote {}).book, (hquote _).st⟩
  · exact SameWindows.refl s

/-- Without an open quote there is nothing to settle. -/
theorem settle_of_not_open (mid : ℚ) (h : (s.st l).quote.isOpen = false) : s.settle l mid = s := by
  unfold settle
  simp only [h, Bool.false_eq_true, if_false]

/-- A window without a signal posts nothing. -/
theorem post_of_not_signal {w : Closing} (h : ¬ (w.usable && decide (w.qi ≠ 0)) = true) (now : Inside) :
    s.post l now w = s := by
  unfold post
  rw [if_neg h]

/-! ## The trace -/

@[simp] theorem drive_trace (s : Strategy) (f : QueueSim → QueueSim) : (s.drive f).trace = s.trace := by
  rw [drive_eq]

@[simp] theorem drive_tally (s : Strategy) (f : QueueSim → QueueSim) : (s.drive f).tally = s.tally := by
  rw [drive_eq]

theorem settle_trace (s : Strategy) (locate : UInt16) (mid : ℚ) : (s.settle locate mid).trace =
    s.trace ++ if (s.st locate).quote.isOpen then
      [.settled locate (s.st locate).quote.seq (s.st locate).quote.filled] else [] := by
  unfold settle
  simp only
  split
  · show (drive _ _).trace ++ _ = _
    rw [drive_trace]
    split <;> rfl
  · rw [List.append_nil]

theorem settle_quotes (s : Strategy) (locate : UInt16) (mid : ℚ) :
    (s.settle locate mid).tally.quotes = s.tally.quotes := by
  unfold settle
  simp only
  split
  · show (drive _ _).tally.quotes = _
    rw [drive_tally]
    split <;> rfl
  · rfl

/-- The side on which a closed window has a quote posted. -/
def sideOf (usable : Bool) (qi : ℚ) : Option UInt8 :=
  if usable && decide (qi ≠ 0) then some (if qi > 0 then kBuy else kSell) else none

theorem post_trace (s : Strategy) (locate : UInt16) (now : Inside) (w : Closing) :
    (s.post locate now w).trace =
      s.trace ++ ((sideOf w.usable w.qi).map fun side => .posted locate s.sim.placements side).toList := by
  unfold post sideOf
  split
  · show (drive _ _).trace ++ _ = _
    rw [drive_trace]
    rfl
  · exact (List.append_nil _).symm

theorem post_quotes (s : Strategy) (locate : UInt16) (now : Inside) (w : Closing) :
    (s.post locate now w).tally.quotes = s.tally.quotes + (sideOf w.usable w.qi).toList.length := by
  unfold post sideOf
  split
  · show (drive _ _).tally.quotes + 1 = _
    rw [drive_tally]
    rfl
  · rfl

/-! ## What follows a message -/

/-- The three ways of `after`. -/
theorem after_eq (h : locate ∈ s.selected) : s.after locate ts =
    let now := s.readInside locate
    let x := { s.st locate with prev := now }
    if now.valid && (s.st locate).prev.valid && !now.same (s.st locate).prev then
      if (x.observe ts).updates ≥ s.window then (s.setSt locate (x.observe ts)).closeWindow locate now ts
      else s.setSt locate (x.observe ts)
    else s.setSt locate x := by
  unfold after
  rw [if_neg (not_not.mpr h)]
  simp only
  by_cases hvalid : ((!(s.readInside locate).valid || !(s.st locate).prev.valid) = true)
  · have hnot : ((s.readInside locate).valid && (s.st locate).prev.valid &&
        !(s.readInside locate).same (s.st locate).prev) = false := by
      cases hv : (s.readInside locate).valid <;> cases hp : (s.st locate).prev.valid <;>
        simp [hv, hp] at hvalid ⊢
    rw [if_pos hvalid, hnot]
    rfl
  · have hboth : (s.readInside locate).valid = true ∧ (s.st locate).prev.valid = true := by
      simpa using hvalid
    have hturn {a b : UInt32} (x y : Strategy) : (if a < b then x else y) = if a ≥ b then y else x := by
      by_cases hlt : a < b
      · rw [if_pos hlt, if_neg (UInt32.not_le.mpr hlt)]
      · rw [if_neg hlt, if_pos (UInt32.not_lt.mp hlt)]
    rw [if_neg hvalid, hboth.1, hboth.2]
    cases (s.readInside locate).same (s.st locate).prev with
    | true => rfl
    | false => exact hturn _ _

end Strategy

end Carteret
