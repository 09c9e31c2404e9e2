import Carteret.FastInvariants

/-!
# Moving the window

1. `Represented`: the representation invariant of a side. The sides of a book with exact totals meet it.
2. `nodup_scratch`: the walk over the bitmap and the map meets every level once.
3. `recenter_preserves`: moving the window changes no level and no order, and keeps the invariant; it stays within the
   hysteresis of its origin, and else takes the origin asked for.
-/

namespace Carteret

namespace FastSide

variable {W : Window} {s t : FastSide} {p q : Price} {i : ℕ}

/-- Whole-cent levels in the window are in their slot with their bit set and have a 32-bit price, all other levels are
in the map, and every other slot is a default level. -/
structure Represented (W : Window) (s : FastSide) : Prop where
  bitmap : s.occupied.Wf W
  occupied_iff : ∀ i < W.ticks, s.occupied.mem i = true ↔ (s.levels i).orders ≠ 0
  priced : ∀ i, s.occupied.mem i = true → s.inWindow W (ofCents (s.baseCents + i)) = some i
  default : ∀ i < W.ticks, s.occupied.mem i = false → s.levels i = {}
  unallocated : s.allocated = false → s.levels = fun _ => {}
  overflow : ∀ (p : Price) (lvl : FastLevel), s.overflow[p]? = some lvl → lvl.orders ≠ 0 ∧ s.inWindow W p = none

/-- The level with orders that a search for the price finds. -/
def nonempty (W : Window) (s : FastSide) (p : Price) : Option FastLevel :=
  (s.findLevel W p).filter fun lvl => lvl.orders ≠ 0

/-- The slots that are not marked are default levels when every level without orders is one. -/
theorem Valid.represented (h : Valid W s) (hdefault : ∀ q, (s.levelAt W q).orders = 0 → s.levelAt W q = {}) :
    Represented W s where
  bitmap := h.bitmap
  occupied_iff := h.occupied_iff
  priced i hm := (h.inWindow_of_mem hm).1
  default i hi hm := by
    by_contra hne
    have h0 := h.base_nonneg hne
    have hprice : (s.baseCents + i) * 100 < 2 ^ 32 := not_le.mp fun hc => hne (h.unpriced i hc)
    have hlev := levelAt_of_inWindow (inWindow_ofCents h0 hi hprice)
    have hzero : (s.levels i).orders = 0 := by
      by_contra hc
      rw [(h.occupied_iff i hi).mpr hc] at hm
      cases hm
    exact hne (hlev.symm.trans (hdefault _ (by rw [hlev]; exact hzero)))
  unallocated := h.unallocated
  overflow p lvl hp := ⟨h.overflow_orders p lvl hp, (h.overflow_outside p lvl hp).1⟩

/-- The window stays when it has an origin within the hysteresis of the one asked for. -/
theorem recenter_eq_none {c : ℤ} : s.recenter W side c = none ↔
    0 ≤ s.baseCents ∧ |anchorFor W side c - s.baseCents| < W.hysteresis := by
  have hdelta : (if anchorFor W side c > s.baseCents then anchorFor W side c - s.baseCents
      else s.baseCents - anchorFor W side c) = |anchorFor W side c - s.baseCents| := by
    by_cases h : anchorFor W side c > s.baseCents
    · rw [if_pos h, abs_of_pos (by omega)]
    · rw [if_neg h, abs_of_nonpos (by omega), neg_sub]
  unfold recenter
  dsimp only
  rw [hdelta]
  by_cases h : s.baseCents ≥ 0 ∧ |anchorFor W side c - s.baseCents| < W.hysteresis
  · exact iff_of_true (if_pos h) h
  · rw [if_neg h]
    exact iff_of_false (by simp) h

/-! ## The walk -/

/-- The slots that the bitmap marks, in the order of the walk. -/
def slots (s : FastSide) : List ℕ :=
  (WordSet.members 64 s.occupied.summary).flatMap fun w =>
    (WordSet.members 64 (s.occupied.words w)).map fun b => (w <<< 6) + b

theorem scratch_eq (s : FastSide) :
    s.scratch = (if s.allocated && decide (s.baseCents ≥ 0) then
      s.slots.map fun i : ℕ => (ofCents (s.baseCents + i), s.levels i) else []) ++ s.overflow.toList := by
  unfold scratch slots
  rw [List.map_flatMap]
  simp only [List.map_map]
  rfl

theorem mem_members (x : BitVec 64) (k : ℕ) : k ∈ WordSet.members 64 x ↔ x.getLsbD k = true :=
  (WordSet.members_spec (j := 0) (by simp) (by simp)).1 k

/-- The walk goes up the window. -/
theorem pairwise_slots (s : FastSide) : s.slots.Pairwise (· < ·) := by
  have hsorted : ∀ x : BitVec 64, (WordSet.members 64 x).Pairwise (· < ·) := fun x =>
    (WordSet.members_spec (j := 0) (by simp) (by simp)).2
  unfold slots
  refine List.pairwise_flatMap.mpr ⟨fun w _ => ?_, (hsorted _).imp fun {v w} hvw => ?_⟩
  · exact List.pairwise_map.mpr ((hsorted _).imp fun h => Nat.add_lt_add_left h _)
  · intro i hi j hj
    obtain ⟨a, ha, rfl⟩ := List.mem_map.mp hi
    obtain ⟨b, -, rfl⟩ := List.mem_map.mp hj
    have hlt := WordSet.lt_of_mem ((mem_members _ _).mp ha)
    rw [LevelBitmap.shiftLeft_six, LevelBitmap.shiftLeft_six]
    omega

theorem mem_of_mem_slots (hi : i ∈ s.slots) : s.occupied.mem i = true := by
  obtain ⟨w, -, hi⟩ := List.mem_flatMap.mp hi
  obtain ⟨b, hb, rfl⟩ := List.mem_map.mp hi
  have hb := (mem_members _ _).mp hb
  rw [LevelBitmap.shiftLeft_six, LevelBitmap.mem_word _ _ _ (WordSet.lt_of_mem hb)]
  exact hb

/-- **No level is met twice.** -/
theorem Represented.nodup_scratch (h : Represented W s) : (s.scratch.map Prod.fst).Nodup := by
  have hkeys : (s.overflow.toList.map Prod.fst).Nodup := by
    rw [Std.TreeMap.map_fst_toList_eq_keys]
    exact Std.TreeMap.nodup_keys
  rw [scratch_eq, List.map_append]
  refine List.nodup_append.mpr ⟨?_, hkeys, ?_⟩
  · split
    · rw [List.map_map]
      refine List.Nodup.map_on (fun i hi j hj hij => ?_) ((pairwise_slots s).imp fun h => h.ne)
      have hi := h.priced i (mem_of_mem_slots hi)
      have hj := h.priced j (mem_of_mem_slots hj)
      rw [show ofCents (s.baseCents + i) = ofCents (s.baseCents + j) from hij, hj] at hi
      exact (Option.some.inj hi).symm
    · exact List.nodup_nil
  · intro p hp q hq hpq
    subst hpq
    obtain ⟨⟨p, lvl⟩, hmem, rfl⟩ := List.mem_map.mp hq
    rw [Std.TreeMap.mem_toList_iff_getElem?_eq_some] at hmem
    have hout := (h.overflow p lvl hmem).2
    split at hp
    · rw [List.map_map] at hp
      obtain ⟨i, hi, hip⟩ := List.mem_map.mp hp
      have hin := h.priced i (mem_of_mem_slots hi)
      rw [show ofCents (s.baseCents + i) = p from hip, hout] at hin
      cases hin
    · cases hp

/-- The walk meets the levels with orders. -/
theorem Represented.mem_scratch (h : Represented W s) (x : Price × FastLevel) :
    x ∈ s.scratch ↔ x.2 = s.levelAt W x.1 ∧ x.2.orders ≠ 0 :=
  FastSide.mem_scratch h.bitmap h.occupied_iff h.priced h.unallocated h.overflow x

/-- A search finds the level where it belongs. -/
theorem Represented.nonempty_eq (h : Represented W s) (p : Price) :
    s.nonempty W p = if (s.levelAt W p).orders = 0 then none else some (s.levelAt W p) := by
  have hfound := findLevel_getD h.unallocated (fun p lvl hp => (h.overflow p lvl hp).2) p
  unfold nonempty
  rw [← hfound]
  cases s.findLevel W p with
  | none => rfl
  | some lvl =>
    rw [Option.getD_some]
    by_cases hlvl : lvl.orders = 0
    · rw [if_pos hlvl, Option.filter_some_neg (by simpa using hlvl)]
    · rw [if_neg hlvl, Option.filter_some_pos (by simpa using hlvl)]

/-! ## Moving the window -/

theorem Represented.recenter (h : Represented W s) {side : UInt8} {c : ℤ} {n : ℕ}
    (ht : s.recenter W side c = some (t, n)) :
    Represented W t ∧ t.baseCents = anchorFor W side c ∧ ∀ p, t.nonempty W p = s.nonempty W p := by
  obtain ⟨hvalid, hbase, hlev⟩ := refilled_of_scratch h.mem_scratch ht
  have hdefault : ∀ q, (t.levelAt W q).orders = 0 → t.levelAt W q = {} := by
    intro q
    rw [hlev]
    split
    · exact fun _ => rfl
    · exact fun hq => absurd hq ‹_›
  have ht := hvalid.represented hdefault
  refine ⟨ht, hbase, fun p => ?_⟩
  rw [ht.nonempty_eq, h.nonempty_eq, hlev]
  by_cases hp : (s.levelAt W p).orders = 0
  · rw [if_pos hp, if_pos hp]
    rfl
  · rw [if_neg hp, if_neg hp]

/-- The walk meets the same levels, each once. -/
theorem Represented.perm_scratch (h : Represented W s) (ht : Represented W t)
    (hsame : ∀ p, t.nonempty W p = s.nonempty W p) : t.scratch.Perm s.scratch := by
  have hin : ∀ {u : FastSide}, Represented W u → ∀ x, x ∈ u.scratch ↔ u.nonempty W x.1 = some x.2 := by
    intro u hu x
    rw [hu.mem_scratch, hu.nonempty_eq]
    by_cases hx : (u.levelAt W x.1).orders = 0
    · rw [if_pos hx]
      refine iff_of_false ?_ (by simp)
      rintro ⟨heq, hne⟩
      exact hne (heq ▸ hx)
    · rw [if_neg hx, Option.some.injEq]
      refine ⟨fun hc => hc.1.symm, fun hc => ⟨hc.symm, hc ▸ hx⟩⟩
  refine (List.perm_ext_iff_of_nodup ht.nodup_scratch.of_map h.nodup_scratch.of_map).mpr fun x => ?_
  rw [hin ht, hin h, hsame]

end FastSide

namespace FastBook

variable {P : HashPolicy} {W : Window}

/-- `recenter` of side `d` of a symbol, with the code `side`. -/
def recenter (b : FastBook P W) (locate : UInt16) (d side : UInt8) (bestCents : ℤ) : FastBook P W :=
  match (b.side locate d).recenter W side bestCents with
  | none => b
  | some (s, moved) =>
    (b.setSide locate d s).count fun c =>
      { c with recenters := c.recenters + 1, levelsMoved := c.levelsMoved + moved }

theorem side_setSide_self (b : FastBook P W) (locate : UInt16) (d : UInt8) (s : FastSide) :
    (b.setSide locate d s).side locate d = s := by
  rw [side_eq, half_setSide, if_pos ⟨rfl, rfl⟩]

/-- The sides of a book with exact totals. -/
theorem Holds.represented {b : FastBook P W} {A : Book} {slot : Ref → UInt32} {F : List UInt32}
    (h : Holds true b A slot F) (locate : UInt16) (d : UInt8) : (b.side locate d).Represented W := by
  have hv := h.core.valid locate (d == kBuy)
  rw [side_eq]
  exact ⟨hv.bitmap, hv.occupied_iff, fun i hm => (hv.inWindow_of_mem hm).1,
    fun i hi hm => h.slot_default locate _ hi hm, hv.unallocated,
    fun p lvl hp => ⟨hv.overflow_orders p lvl hp, (hv.overflow_outside p lvl hp).1⟩⟩

/-- **Recentering preserves the side.** -/
theorem recenter_preserves (b : FastBook P W) (locate : UInt16) (d side : UInt8) (bestCents : ℤ)
    (h : (b.side locate d).Represented W) :
    let s := b.side locate d
    let b' := b.recenter locate d side bestCents
    let s' := b'.side locate d
    (∀ p, s'.nonempty W p = s.nonempty W p) ∧ s'.scratch.Perm s.scratch ∧ (s'.scratch.map Prod.fst).Nodup ∧
      (b'.pool = b.pool ∧ b'.refs = b.refs) ∧ s'.Represented W ∧
      if 0 ≤ s.baseCents ∧ |anchorFor W side bestCents - s.baseCents| < W.hysteresis then b' = b
      else s'.baseCents = anchorFor W side bestCents := by
  dsimp only
  have hstays := @FastSide.recenter_eq_none W (b.side locate d) side bestCents
  unfold recenter
  cases hr : (b.side locate d).recenter W side bestCents with
  | none => exact ⟨fun _ => rfl, List.Perm.refl _, h.nodup_scratch, ⟨rfl, rfl⟩, h, by rw [if_pos (hstays.mp hr)]⟩
  | some r =>
    obtain ⟨t, n⟩ := r
    obtain ⟨ht, hbase, hsame⟩ := h.recenter hr
    have hside : ((b.setSide locate d t).count fun c =>
        { c with recenters := c.recenters + 1, levelsMoved := c.levelsMoved + n }).side locate d = t :=
      side_setSide_self b locate d t
    dsimp only
    rw [hside]
    refine ⟨hsame, h.perm_scratch ht hsame, ht.nodup_scratch, ⟨rfl, rfl⟩, ht, ?_⟩
    rw [if_neg fun hc => Option.some_ne_none _ (hr.symm.trans (hstays.mpr hc))]
    exact hbase

/-- The window of a bid at 400 dollars goes down to zero, and the bid to the map. -/
theorem recenter_preserves_three :
    ∃ b, run multiplyShiftHash defaultWindow ⟨8, 4, 8⟩ threeMessages = some b ∧
      (∀ p, ((b.recenter 1 kBuy kBuy 90).side 1 kBuy).nonempty defaultWindow p =
        (b.side 1 kBuy).nonempty defaultWindow p) ∧
      ((b.recenter 1 kBuy kBuy 90).side 1 kBuy).Represented defaultWindow ∧
      (b.side 1 kBuy).baseCents = 39777 ∧ ((b.recenter 1 kBuy kBuy 90).side 1 kBuy).baseCents = 0 := by
  have hnew : (new multiplyShiftHash defaultWindow ⟨8, 4, 8⟩).isSome = true := (new_isSome _).mpr (by decide)
  obtain ⟨b₀, h₀⟩ := Option.isSome_iff_exists.mp hnew
  obtain ⟨b, hb, -, -, hexact⟩ := rep_run h₀ threeMessages
  have hzero : (run multiplyShiftHash defaultWindow ⟨8, 4, 8⟩ threeMessages).all
      (fun b => b.counters.indexFailures == 0) = true := by decide +kernel
  rw [hb] at hzero
  obtain ⟨slot, F, h⟩ := hexact (leakFree_of_indexFailures hnew hb (by simpa using hzero))
  have hbase : (run multiplyShiftHash defaultWindow ⟨8, 4, 8⟩ threeMessages).all
      (fun b => (b.side 1 kBuy).baseCents == 39777) = true := by decide +kernel
  rw [hb] at hbase
  have hbase' : (b.side 1 kBuy).baseCents = 39777 := by simpa using hbase
  obtain ⟨hsame, -, -, -, hrep, hmoved⟩ := recenter_preserves b 1 kBuy kBuy 90 (h.represented 1 kBuy)
  rw [hbase', if_neg (by decide)] at hmoved
  exact ⟨b, hb, hsame, hrep, hbase', hmoved⟩

end FastBook

end Carteret
