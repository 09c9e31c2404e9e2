import Carteret.FastRefines
import Carteret.Features
import Carteret.QueueLife

/-!
# The simulator without a timer

1. An event fills a live model or leaves it live; it does not end it otherwise (`see_ended`).
2. Without a timer a message places nothing, so the orders behind it are the orders before it, each a step older
   (`Older`, `on_older`).
3. An order that is placed from outside enters when the inside has two sides (`entry_of_valid`).
-/

namespace Carteret

namespace SyntheticOrder

variable {b : ReferenceBook} {ev : BookEvent} {o : SyntheticOrder} {hit : Bool} {m : QueueModel}

theorem fillLive_ended (ts : UInt64) (why : FillReason) (hl : (o.models m).live = true) :
    ((o.fillLive ts why).models m).filled = true := by
  unfold fillLive update
  simp only [hl, if_true]
  rfl

/-- A live model is live after the event, or filled. -/
theorem see_ended (hl : (o.models m).live = true) :
    ((o.see b ev hit).models m).live = true ∨ ((o.see b ev hit).models m).filled = true := by
  cases ev with
  | execution r qty ts =>
    show ((if o.locate = r.locate then o.seeExecution r qty ts else o).models m).live = true ∨ _
    show _ ∨ ((if o.locate = r.locate then o.seeExecution r qty ts else o).models m).filled = true
    unfold seeExecution
    split_ifs
    · exact .inl hl
    · exact .inr (fillLive_ended ts .tradeThrough hl)
    · exact .inl hl
    · have hexact (st : ModelState) (hst : st.live = true) :
          (st.executedExact r o.aheadRefs qty ts).live = true ∨
            (st.executedExact r o.aheadRefs qty ts).filled = true := by
        unfold ModelState.executedExact
        rw [if_pos hst]
        split
        · exact .inl hst
        · exact .inr rfl
      have happroximate (st : ModelState) (hst : st.live = true) :
          (st.executedApproximate qty ts).live = true ∨ (st.executedApproximate qty ts).filled = true := by
        unfold ModelState.executedApproximate
        rw [if_pos hst]
        split
        · exact .inr rfl
        · exact .inl hst
      cases m with
      | exact => exact hexact _ hl
      | _ => exact happroximate _ hl
    · exact .inl hl
  | cancel r qty =>
    refine .inl ?_
    show ((if atLevelOf r o then o.cancelled r qty (cancelBefore b o qty) hit else o).models m).live = true
    split
    · unfold cancelled update
      cases m <;> simp only <;> try split_ifs
      all_goals exact hl
    · exact hl
  | print locate price ts =>
    show ((if o.locate = locate then o.seePrint price ts else o).models m).live = true ∨ _
    show _ ∨ ((if o.locate = locate then o.seePrint price ts else o).models m).filled = true
    unfold seePrint
    split_ifs
    · exact .inl hl
    · exact .inr (fillLive_ended ts .nonDisplayedPrint hl)
    · exact .inl hl
  | quiet => exact .inl hl

end SyntheticOrder

namespace QueueSim

variable {s : QueueSim} {msg : Message}

/-! ## A message without a timer -/

/-- Without a timer the clock places nothing. -/
theorem tick_of_no_timer (htimer : s.cfg.timerPlacement = false) (ts : UInt64) :
    s.tick ts = if ts < s.lastTs then s
      else { s with lastTs := ts, toLedger := s.toLedger.settle s.book ts }.sweep ts := by
  have hcfg : ({ s with lastTs := ts, toLedger := s.toLedger.settle s.book ts }.sweep ts).cfg = s.cfg := by
    unfold sweep
    split <;> rfl
  unfold tick
  simp only [hcfg, htimer, Bool.false_eq_true, if_false]

/-- What a message without a timer leaves. -/
structure Unplaced (s s' : QueueSim) : Prop where
  cfg : s'.cfg = s.cfg
  placements : s'.placements = s.placements
  lastTs_le : s.lastTs ≤ s'.lastTs

theorem unplaced_on (hs : Sound s) (htimer : s.cfg.timerPlacement = false) (msg : Message) :
    Unplaced s (s.on msg) ∧ ∀ ts, tickOf msg = some ts → ts ≤ (s.on msg).lastTs := by
  have hbook : Sound { s with book := bookAfter s.book msg } := hs.withBook _
  have hreact : Unplaced s (react { s with book := bookAfter s.book msg } (eventOf s.cfg s.book msg)) := by
    rw [hbook.react_eq]
    exact ⟨rfl, rfl, UInt64.le_refl _⟩
  rw [on_eq]
  cases htick : tickOf msg with
  | none => exact ⟨hreact, by simp⟩
  | some ts =>
    show Unplaced s (tick _ ts) ∧ ∀ ts', some ts = some ts' → ts' ≤ (tick _ ts).lastTs
    generalize react { s with book := bookAfter s.book msg } (eventOf s.cfg s.book msg) = s₁ at hreact
    have hlast : s.lastTs ≤ s₁.lastTs := hreact.lastTs_le
    rw [tick_of_no_timer (by rw [hreact.cfg, htimer])]
    split
    · rename_i hlt
      refine ⟨hreact, fun ts' hts' => ?_⟩
      obtain rfl := Option.some.inj hts'
      exact UInt64.le_of_lt hlt
    · rename_i hge
      have hle : s.lastTs ≤ ts := UInt64.le_trans hlast (UInt64.not_lt.mp hge)
      unfold sweep
      split
      · exact ⟨⟨hreact.cfg, hreact.placements, hle⟩, fun ts' hts' =>
          UInt64.le_of_eq (Option.some.inj hts').symm⟩
      · exact ⟨⟨hreact.cfg, hreact.placements, hle⟩, fun ts' hts' =>
          UInt64.le_of_eq (Option.some.inj hts').symm⟩

/-- A message has passed an order: it is dead and stays as it is, or it is live and may have been filled, or
retired by the sweep. -/
structure Older (s : QueueSim) (msg : Message) (o o' : SyntheticOrder) : Prop where
  placement : o'.placement = o.placement
  dead : o.anyLive = false → o' = o
  ended : ∀ m, (o.models m).live = true → (o'.models m).live = true ∨ (o'.models m).filled = true ∨
    ∃ ts, tickOf msg = some ts ∧ s.lastTs ≤ ts ∧ ts - o.enteredTs ≥ s.cfg.maxLifeNs

theorem Older.seq {o o' : SyntheticOrder} (h : Older s msg o o') : o'.seq = o.seq :=
  congrArg Placement.seq h.placement

theorem Older.locate {o o' : SyntheticOrder} (h : Older s msg o o') : o'.locate = o.locate :=
  congrArg Placement.locate h.placement

/-- What is live was live. -/
theorem Older.live {o o' : SyntheticOrder} (h : Older s msg o o') (hl : o'.anyLive = true) : o.anyLive = true := by
  cases hany : o.anyLive with
  | true => rfl
  | false =>
    rw [h.dead hany, hany] at hl
    cases hl

theorem older_see (hs : Sound s) {o : SyntheticOrder} (ho : o ∈ s.orders) (hit : Bool) :
    Older s msg o (o.see (bookAfter s.book msg) (eventOf s.cfg s.book msg) hit) where
  placement := SyntheticOrder.placement_see (hs.flagged o ho) hit
  dead := fun hdead => see_dead hdead hit
  ended := fun _ hl => (SyntheticOrder.see_ended hl).imp_right .inl

theorem older_seeOn (hs : Sound s) {ts : UInt64} (htick : tickOf msg = some ts) (hle : s.lastTs ≤ ts)
    {o : SyntheticOrder} (ho : o ∈ s.orders) (hit : Bool) : Older s msg o (s.seeOn msg ts hit o) := by
  have hsee : Older s msg o (o.see (bookAfter s.book msg) (eventOf s.cfg s.book msg) hit) := older_see hs ho hit
  have hflag : (o.see (bookAfter s.book msg) (eventOf s.cfg s.book msg) hit).Flagged :=
    see_flagged (hs.flagged o ho) hit
  have hentered : (o.see (bookAfter s.book msg) (eventOf s.cfg s.book msg) hit).enteredTs = o.enteredTs :=
    congrArg Placement.enteredTs hsee.placement
  unfold seeOn seeTick
  by_cases hdue : s.SweepDue ts
  swap
  · rw [if_neg hdue]
    exact hsee
  rw [if_pos hdue]
  refine ⟨(SyntheticOrder.placement_seeSweep s.cfg ts).1.trans hsee.placement, fun hdead => ?_, fun m hl => ?_⟩
  · rw [hsee.dead hdead]
    exact seeSweep_dead hdead ts
  · rw [SyntheticOrder.seeSweep_models hflag, hentered]
    split
    · rename_i hover
      exact .inr (.inr ⟨ts, htick, hle, hover.2⟩)
    · exact hsee.ended m hl

/-- **A message without a timer.** -/
theorem on_older (hs : Sound s) (htimer : s.cfg.timerPlacement = false) (msg : Message) :
    (∀ o ∈ s.orders, ∃ o' ∈ (s.on msg).orders, Older s msg o o') ∧
      ∀ o' ∈ (s.on msg).orders, ∃ o ∈ s.orders, Older s msg o o' := by
  have hs' : Sound (s.on msg) := sound_invariant.on hs trivial
  have hbook : Sound { s with book := bookAfter s.book msg } := hs.withBook _
  have hold : ∀ o ∈ s.orders, ∃ o' ∈ (s.on msg).orders, Older s msg o o' := by
    intro o ho
    have hreact := hbook.react_orders (eventOf s.cfg s.book msg)
    have hstays (h : s.on msg = react { s with book := bookAfter s.book msg } (eventOf s.cfg s.book msg)) :
        ∃ o' ∈ (s.on msg).orders, Older s msg o o' := by
      obtain ⟨o', ho', hit, -, rfl⟩ := Scan.exists_right hreact ho
      rw [h]
      exact ⟨_, ho', older_see hs ho hit⟩
    cases htick : tickOf msg with
    | none =>
      refine hstays ?_
      rw [on_eq, htick]
      rfl
    | some ts =>
      by_cases hle : s.lastTs ≤ ts
      · obtain ⟨hit, -, hmem⟩ := (moved_on hs htick hle).old o ho
        exact ⟨_, hmem, older_seeOn hs htick hle ho hit⟩
      · -- the clock does not go back
        refine hstays ?_
        rw [on_eq, htick]
        show tick _ ts = _
        have hlast : (react { s with book := bookAfter s.book msg } (eventOf s.cfg s.book msg)).lastTs =
            s.lastTs := by
          rw [hbook.react_eq]
          rfl
        unfold tick
        rw [hlast, if_pos (UInt64.not_le.mp hle)]
  refine ⟨hold, fun o' ho' => ?_⟩
  have hlt := hs'.seq_lt ho'
  rw [(unplaced_on hs htimer msg).1.placements] at hlt
  obtain ⟨o, ho, hseq⟩ := List.mem_map.mp (hs.seqs.mem_iff.mpr (List.mem_range.mpr hlt))
  obtain ⟨o₁, ho₁, holder⟩ := hold o ho
  obtain rfl := hs'.eq_of_seq_eq ho₁ ho' (holder.seq.trans hseq)
  exact ⟨o, ho, holder⟩

/-! ## Placements from outside -/

/-- At the inside of a book with two sides there is a level to join. -/
theorem entry_of_valid {locate : UInt16} (h : (Inside.read s.book locate).valid = true) (side : UInt8)
    (ts : UInt64) : ∃ o, s.entry locate side ts = some o := by
  unfold Inside.read at h
  unfold entry
  cases hsym : s.book.symbol locate with
  | none =>
    rw [hsym] at h
    cases h
  | some sym =>
    rw [hsym] at h
    simp only at h ⊢
    by_cases hsides : (!sym.hasBid || !sym.hasAsk) = true
    · rw [if_pos hsides] at h
      cases h
    have hboth : sym.hasBid = true ∧ sym.hasAsk = true := by simpa using hsides
    rw [if_neg hsides]
    have hlevel : (s.book.level locate side (if side = kBuy then sym.bestBid.getD 0 else
        sym.bestAsk.getD 0)).present = true := by
      have hpresent {p : Price} (hp : p ∈ (sym.side side).keys) : (s.book.level locate side p).present = true := by
        unfold ReferenceBook.level
        rw [hsym]
        simp only
        have hmem : p ∈ sym.side side := Std.TreeMap.mem_keys.mp hp
        cases hget : (sym.side side)[p]? with
        | none =>
          rw [Std.TreeMap.mem_iff_isSome_getElem?, hget] at hmem
          cases hmem
        | some lvl => rfl
      by_cases hside : side = kBuy
      · rw [if_pos hside]
        have hsome := (FastBook.isSome_bestBid sym).symm.trans hboth.1
        obtain ⟨p, hp⟩ := Option.isSome_iff_exists.mp hsome
        rw [hp]
        refine hpresent ?_
        unfold RefSymbol.side
        rw [if_pos hside]
        exact List.mem_of_getLast? hp
      · rw [if_neg hside]
        have hsome := (FastBook.isSome_bestAsk sym).symm.trans hboth.2
        obtain ⟨p, hp⟩ := Option.isSome_iff_exists.mp hsome
        rw [hp]
        refine hpresent ?_
        unfold RefSymbol.side
        rw [if_neg hside]
        exact List.mem_of_head? hp
    rw [if_neg (by rw [hlevel]; exact Bool.false_ne_true)]
    exact ⟨_, rfl⟩

end QueueSim

end Carteret
