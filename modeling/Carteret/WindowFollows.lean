import Carteret.Recenter

/-!
# The window follows the inside

1. `settled`: a side after `maybe_recenter`. Its best price is what it was, and it would not move again.
2. `Valid.settled_inWindow_iff`: its window holds the best price, unless the old origin was within the hysteresis of
   zero and the best price lies below it.
3. `windowFollows_iff`: the same for `check_bbo` in every reachable book.
-/

namespace Carteret

/-- The whole cents of a price. -/
def floorCents (p : Price) : ℤ := (p.toNat / 100 : ℕ)

namespace FastSide

variable {W : Window} {s t : FastSide} {side : UInt8} {p : Price}

/-- The side after `maybe_recenter`. -/
def settled (W : Window) (s : FastSide) (side : UInt8) : FastSide :=
  match s.maybeRecenter W side with
  | none => s
  | some (t, _) => t

/-- The whole-cent floor of the price lies inside the window. -/
def InWindow (W : Window) (s : FastSide) (p : Price) : Prop :=
  0 ≤ s.baseCents ∧ s.baseCents ≤ floorCents p ∧ floorCents p < s.baseCents + W.ticks

/-- The best price is below an origin that is too near zero for the window to move. -/
def Stranded (W : Window) (s : FastSide) (p : Price) : Prop :=
  floorCents p < s.baseCents ∧ s.baseCents < W.hysteresis

/-- Moving the window keeps the best price. -/
theorem Valid.best_settled (h : Valid W s) (d : UInt8) : (s.settled W side).best W d = s.best W d := by
  unfold settled
  cases hm : s.maybeRecenter W side with
  | none => rfl
  | some r =>
    obtain ⟨ht, hlev⟩ := h.maybeRecenter hm
    have horders : ∀ q, (r.1.levelAt W q).orders ≠ 0 ↔ (s.levelAt W q).orders ≠ 0 := by
      intro q
      rw [hlev]
      by_cases hq : (s.levelAt W q).orders = 0
      · rw [if_pos hq]
        exact iff_of_false (not_not.mpr rfl) (not_not.mpr hq)
      · rw [if_neg hq]
    ext q
    rw [ht.best_eq_some_iff, h.best_eq_some_iff, horders]
    simp only [horders]

/-- A window that moves gets the origin of its best price. -/
theorem baseCents_recenter {c : ℤ} {n : ℕ} (ht : s.recenter W side c = some (t, n)) :
    t.baseCents = anchorFor W side c := by
  obtain ⟨rfl, -⟩ := Prod.mk.inj (Option.some.inj (Option.ite_none_left_eq_some.mp ht).2)
  exact baseCents_foldl_refill s.scratch _

/-- The margin and the hysteresis are an eighth of the width, which is at least 64. -/
theorem margin_bounds (W : Window) :
    W.hysteresis = W.margin ∧ 8 ≤ W.margin ∧ 8 * W.margin ≤ W.ticks ∧ (W.ticks : ℤ) < 8 * W.margin + 8 := by
  obtain ⟨k, hk⟩ := W.dvd
  have hpos := W.pos
  unfold Window.hysteresis Window.margin
  omega

theorem anchorFor_eq (W : Window) (side : UInt8) (c : ℤ) :
    anchorFor W side c = max 0 (if side = kBuy then c - (W.ticks - 1 - W.margin) else c - W.margin) := by
  unfold anchorFor
  dsimp only
  rw [max_def]
  split_ifs <;> omega

/-- When a window stays: its best price is clear of both edges, or the move is within the hysteresis. -/
def Stays (W : Window) (side : UInt8) (base c : ℤ) : Prop :=
  0 ≤ base ∧ (base + W.margin ≤ c ∧ c < base + W.ticks - W.margin ∨ |anchorFor W side c - base| < W.hysteresis)

theorem maybeRecenter_eq_none (hp : s.best W side = some p) :
    s.maybeRecenter W side = none ↔ Stays W side s.baseCents (floorCents p) := by
  unfold maybeRecenter Stays
  rw [hp, Option.bind_some]
  show (if s.baseCents < 0 then s.recenter W side (floorCents p)
    else if floorCents p - s.baseCents ≥ W.margin ∧ floorCents p - s.baseCents < W.ticks - W.margin then none
      else s.recenter W side (floorCents p)) = none ↔ _
  by_cases h0 : s.baseCents < 0
  · rw [if_pos h0, recenter_eq_none]
    exact iff_of_false (fun hc => absurd hc.1 (not_le.mpr h0)) fun hc => absurd hc.1 (not_le.mpr h0)
  rw [if_neg h0]
  by_cases hclear : floorCents p - s.baseCents ≥ W.margin ∧ floorCents p - s.baseCents < W.ticks - W.margin
  · rw [if_pos hclear]
    exact iff_of_true rfl ⟨not_lt.mp h0, .inl (by omega)⟩
  · rw [if_neg hclear, recenter_eq_none]
    refine and_congr_right fun _ => (or_iff_right ?_).symm
    omega

/-- Where the origin of a side ends up. -/
theorem baseCents_settled (hp : s.best W side = some p) :
    Stays W side s.baseCents (floorCents p) ∧ s.settled W side = s ∨
      ¬ Stays W side s.baseCents (floorCents p) ∧
        (s.settled W side).baseCents = anchorFor W side (floorCents p) := by
  unfold settled
  cases hm : s.maybeRecenter W side with
  | none => exact .inl ⟨(maybeRecenter_eq_none hp).mp hm, rfl⟩
  | some r =>
    refine .inr ⟨fun hs => ?_, ?_⟩
    · rw [(maybeRecenter_eq_none hp).mpr hs] at hm
      cases hm
    · obtain ⟨px, hpx, hr⟩ := Option.bind_eq_some_iff.mp hm
      obtain rfl := Option.some.inj (hp.symm.trans hpx)
      dsimp only at hr
      split at hr
      · exact baseCents_recenter hr
      · exact baseCents_recenter (Option.ite_none_left_eq_some.mp hr).2

/-- The origin that a best price asks for holds it, and stays. -/
theorem anchored (W : Window) (side : UInt8) {c : ℤ} (hc : 0 ≤ c) :
    (0 ≤ anchorFor W side c ∧ anchorFor W side c ≤ c ∧ c < anchorFor W side c + W.ticks) ∧
      Stays W side (anchorFor W side c) c := by
  obtain ⟨hhyst, hm, hlow, hhigh⟩ := margin_bounds W
  unfold Stays
  rw [sub_self, abs_zero, hhyst]
  refine ⟨?_, anchorFor_nonneg W side c, .inr (by omega)⟩
  rw [anchorFor_eq]
  split_ifs <;> omega

/-- A window that stays holds its best price, but for one below an origin within the hysteresis of zero. -/
theorem stays_iff (W : Window) (side : UInt8) {base c : ℤ} (hc : 0 ≤ c) (hs : Stays W side base c) :
    (base ≤ c ∧ c < base + W.ticks) ↔ ¬ (c < base ∧ base < W.hysteresis) := by
  obtain ⟨hhyst, hm, hlow, hhigh⟩ := margin_bounds W
  obtain ⟨h0, hclear | hnear⟩ := hs
  · omega
  · rw [anchorFor_eq, abs_lt, hhyst] at hnear
    rw [hhyst]
    split_ifs at hnear <;> omega

theorem floorCents_nonneg (p : Price) : 0 ≤ floorCents p := Int.natCast_nonneg _

/-- **The window of a settled side.** -/
theorem settled_inWindow_iff (hp : s.best W side = some p) :
    InWindow W (s.settled W side) p ↔ ¬ Stranded W s p := by
  have hc := floorCents_nonneg p
  obtain ⟨hstays, hsame⟩ | ⟨hmoves, hbase⟩ := baseCents_settled hp
  · unfold InWindow Stranded
    rw [hsame, ← stays_iff W side hc hstays]
    exact and_iff_right hstays.1
  · obtain ⟨hin, -⟩ := anchored W side hc
    unfold InWindow Stranded
    rw [hbase]
    refine iff_of_true hin fun hs => hmoves ?_
    obtain ⟨hhyst, hm, hlow, hhigh⟩ := margin_bounds W
    refine ⟨by omega, .inr ?_⟩
    rw [anchorFor_eq, abs_lt]
    split_ifs <;> omega

/-- **It does not move again.** -/
theorem Valid.maybeRecenter_settled (h : Valid W s) : (s.settled W side).maybeRecenter W side = none := by
  cases hp : s.best W side with
  | none =>
    unfold FastSide.maybeRecenter
    rw [h.best_settled, hp, Option.bind_none]
  | some p =>
    rw [maybeRecenter_eq_none ((h.best_settled side).trans hp)]
    obtain ⟨hstays, hsame⟩ | ⟨-, hbase⟩ := baseCents_settled hp
    · rw [hsame]
      exact hstays
    · rw [hbase]
      exact (anchored W side (floorCents_nonneg p)).2

end FastSide

namespace FastBook

variable {P : HashPolicy} {W : Window} {b : FastBook P W} {A : Book} {x : Bool} {locate : UInt16}

/-- After `check_bbo` each side of the symbol that has a best price has it in its window, and the window would not move
again. -/
def WindowFollows (b : FastBook P W) (locate : UInt16) : Prop :=
  (∀ side ∈ [kBuy, kSell], ∀ p, (b.checkBbo locate).best locate side = some p →
    ((b.checkBbo locate).side locate side).InWindow W p) ∧
  (b.checkBbo locate).maybeRecenter locate = b.checkBbo locate

theorem side_recenterSide (b : FastBook P W) (locate : UInt16) {d side : UInt8} :
    (b.recenterSide locate d).side locate side =
      if (side == kBuy) = (d == kBuy) then (b.side locate side).settled W d else b.side locate side := by
  have hsame : (side == kBuy) = (d == kBuy) → b.side locate d = b.side locate side := fun h => by
    rw [side_eq, side_eq, h]
  unfold recenterSide FastSide.settled
  by_cases h : (side == kBuy) = (d == kBuy)
  · rw [if_pos h, ← hsame h]
    cases (b.side locate d).maybeRecenter W d with
    | none => exact (hsame h).symm
    | some r =>
      show (b.setSide locate d r.1).side locate side = r.1
      rw [side_eq, half_setSide, if_pos ⟨rfl, h⟩]
  · rw [if_neg h]
    cases (b.side locate d).maybeRecenter W d with
    | none => rfl
    | some r =>
      show (b.setSide locate d r.1).side locate side = b.side locate side
      rw [side_eq, half_setSide, if_neg fun hc => h hc.2, ← side_eq]

theorem side_checkBbo (b : FastBook P W) (locate l : UInt16) (side : UInt8) :
    (b.checkBbo locate).side l side = (b.maybeRecenter locate).side l side := by
  unfold checkBbo
  dsimp only
  split
  · split_ifs <;> rfl
  · rfl

/-- Each side is settled by itself. -/
theorem side_maybeRecenter (hl : locate.toNat < b.cfg.maxSymbols) {side : UInt8} (hside : side ∈ [kBuy, kSell]) :
    (b.maybeRecenter locate).side locate side = (b.side locate side).settled W side := by
  unfold maybeRecenter
  rw [if_neg (not_le.mpr hl), side_recenterSide, side_recenterSide]
  rcases List.mem_cons.mp hside with rfl | hside
  · rfl
  · obtain rfl := List.mem_singleton.mp hside
    rfl

theorem cfg_checkBbo (b : FastBook P W) (locate : UInt16) : (b.checkBbo locate).cfg = b.cfg := by
  have hside : ∀ (b : FastBook P W) (d : UInt8), (b.recenterSide locate d).cfg = b.cfg := by
    intro b d
    unfold recenterSide
    split <;> rfl
  have hmove : (b.maybeRecenter locate).cfg = b.cfg := by
    unfold maybeRecenter
    split
    · rfl
    · rw [hside, hside]
  unfold checkBbo
  dsimp only
  split
  · split_ifs <;> exact hmove
  · exact hmove

/-- The best prices are those of the book before. -/
theorem Rep.best_checkBbo (h : Rep x b A) {side : UInt8} (hside : side ∈ [kBuy, kSell]) :
    (b.checkBbo locate).best locate side = b.best locate side := by
  obtain ⟨slot, F, h⟩ := h
  unfold best
  rw [cfg_checkBbo]
  by_cases hl : locate.toNat ≥ b.cfg.maxSymbols
  · rw [if_pos hl, if_pos hl]
  · have hv := h.core.valid locate (side == kBuy)
    rw [← side_eq] at hv
    rw [if_neg hl, if_neg hl, side_checkBbo, side_maybeRecenter (not_le.mp hl) hside, hv.best_settled]

/-- **Idempotence.** -/
theorem Rep.maybeRecenter_checkBbo (h : Rep x b A) :
    (b.checkBbo locate).maybeRecenter locate = b.checkBbo locate := by
  obtain ⟨slot, F, h⟩ := h
  have hcfg := cfg_checkBbo b locate
  by_cases hl : locate.toNat ≥ b.cfg.maxSymbols
  · unfold maybeRecenter
    rw [hcfg, if_pos hl]
  have hstay : ∀ side ∈ [kBuy, kSell], (b.checkBbo locate).recenterSide locate side = b.checkBbo locate := by
    intro side hside
    have hv := h.core.valid locate (side == kBuy)
    rw [← side_eq] at hv
    unfold recenterSide
    rw [side_checkBbo, side_maybeRecenter (not_le.mp hl) hside, hv.maybeRecenter_settled]
  show (if locate.toNat ≥ (b.checkBbo locate).cfg.maxSymbols then b.checkBbo locate
    else ((b.checkBbo locate).recenterSide locate kBuy).recenterSide locate kSell) = _
  rw [hcfg, if_neg hl, hstay kBuy (by decide), hstay kSell (by decide)]

theorem Rep.follows_iff_settled (h : Rep x b A) (locate : UInt16) : WindowFollows b locate ↔
    ∀ side ∈ [kBuy, kSell], ∀ p, b.best locate side = some p → ¬ (b.side locate side).Stranded W p := by
  unfold WindowFollows
  rw [and_iff_left h.maybeRecenter_checkBbo]
  refine forall₂_congr fun side hside => forall_congr' fun p => ?_
  rw [h.best_checkBbo hside]
  refine forall_congr' fun hp => ?_
  unfold best at hp
  split at hp
  · cases hp
  · rename_i hl
    rw [side_checkBbo, side_maybeRecenter (not_le.mp hl) hside, FastSide.settled_inWindow_iff hp]

/-- **When the window follows the inside.** In every reachable book, after `check_bbo` every side that has a best price
has it in its window and stays, exactly when no side has its best price below an origin within the hysteresis of
zero. -/
theorem windowFollows_iff (P : HashPolicy) (W : Window) (cfg : FastBookConfig) (ms : List Message)
    {b : FastBook P W} (hb : run P W cfg ms = some b) (locate : UInt16) : WindowFollows b locate ↔
      ∀ side ∈ [kBuy, kSell], ∀ p, b.best locate side = some p → ¬ (b.side locate side).Stranded W p := by
  obtain ⟨b₀, h₀⟩ := new_of_run hb
  obtain ⟨b', hb', -, hrep, -⟩ := rep_run h₀ ms
  obtain rfl := Option.some.inj (hb.symm.trans hb')
  exact hrep.follows_iff_settled locate

theorem windowFollows_iff_three : ∃ b, run multiplyShiftHash defaultWindow ⟨8, 4, 8⟩ threeMessages = some b ∧
    WindowFollows b 1 := by
  have hnew : (new multiplyShiftHash defaultWindow ⟨8, 4, 8⟩).isSome = true := (new_isSome _).mpr (by decide)
  obtain ⟨b₀, h₀⟩ := Option.isSome_iff_exists.mp hnew
  obtain ⟨b, hb, -⟩ := rep_run h₀ threeMessages
  have horigin : (run multiplyShiftHash defaultWindow ⟨8, 4, 8⟩ threeMessages).all (fun b =>
      [kBuy, kSell].all fun side => decide (defaultWindow.hysteresis ≤ (b.side 1 side).baseCents) ||
        decide ((b.side 1 side).baseCents ≤ 0)) = true := by decide +kernel
  rw [hb, Option.all_some, List.all_eq_true] at horigin
  refine ⟨b, hb, (windowFollows_iff multiplyShiftHash defaultWindow ⟨8, 4, 8⟩ threeMessages hb 1).mpr ?_⟩
  rintro side hside p - ⟨hlow, hnear⟩
  have hp := FastSide.floorCents_nonneg p
  have := horigin side hside
  simp only [Bool.or_eq_true, decide_eq_true_eq] at this
  omega

/-- A bid at 2.28 is the first, and puts the origin at five cents; a bid at three cents is left when it goes. -/
def strandedBid : List Message :=
  [.addOrder
      { locate := 1, ts := 0, orderRef := 7, side := kBuy, shares := 5, stock := [], price := 22800 },
    .addOrder
      { locate := 1, ts := 0, orderRef := 8, side := kBuy, shares := 5, stock := [], price := 300 },
    .orderDelete { locate := 1, ts := 0, orderRef := 7 }]

/-- The best bid is below the window, and the window does not move. -/
theorem not_windowFollows :
    ∃ b, run multiplyShiftHash defaultWindow ⟨8, 4, 8⟩ strandedBid = some b ∧ ¬ WindowFollows b 1 := by
  have hstate : (run multiplyShiftHash defaultWindow ⟨8, 4, 8⟩ strandedBid).map (fun b =>
      ((b.checkBbo 1).best 1 kBuy, ((b.checkBbo 1).side 1 kBuy).baseCents)) = some (some 300, 5) := by
    decide +kernel
  obtain ⟨b, hb, hpair⟩ := Option.map_eq_some_iff.mp hstate
  obtain ⟨hbest, hbase⟩ := Prod.mk.inj hpair
  refine ⟨b, hb, fun h => ?_⟩
  obtain ⟨-, hin, -⟩ := h.1 kBuy (by decide) 300 hbest
  rw [hbase] at hin
  exact absurd hin (by decide)

end FastBook

end Carteret
