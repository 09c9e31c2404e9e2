import Carteret.Lib.OrderedMap
import Carteret.LevelBitmap
import Carteret.OrderIndex
import Carteret.Book

/-!
# One side of a symbol in the fast book

Levels at whole cents live in a flat window over `baseCents`, all others in an ordered map. The window
moves; where a level lives follows from its price and the window.

1. The data and the operations on a side.
2. `Valid`: the bitmap marks the slots with orders, and the map holds only levels with orders, none of which
   belongs in the window.
3. `levelAt` is the level at a price, wherever it lives. Each operation is described by what it makes of
   `levelAt`; moving the window changes it at no price that has orders.
4. `best_eq_some_iff`: the best price over the window and the map.
-/

namespace Carteret

/-- `reserved` is always zero. -/
structure FastLevel where
  shares : UInt64 := 0
  orders : UInt32 := 0
  head : UInt32 := kNoOrder
  tail : UInt32 := kNoOrder
  deriving DecidableEq

/-- `levels` has no slots until it is `allocated`, and `kWindowTicks` from then on. -/
structure FastSide where
  allocated : Bool := false
  levels : ℕ → FastLevel := fun _ => {}
  occupied : LevelBitmap := {}
  overflow : Std.TreeMap Price FastLevel := ∅
  baseCents : ℤ := -1

/-- Where a level lives. -/
inductive Home
  | slot (off : ℕ)
  | overflow (price : Price)
  deriving DecidableEq

/-- `kRecenterMargin`. -/
def Window.margin (W : Window) : ℤ := (W.ticks / 8 : ℕ)

/-- `kRecenterHysteresis`. -/
def Window.hysteresis (W : Window) : ℤ := (W.ticks / 8 : ℕ)

/-- The price in cents, when it is a whole number of them. -/
def toCents (p : Price) : Option ℤ := if p % 100 ≠ 0 then none else some (p / 100).toNat

/-- `static_cast<Price>(cents * 100)`. -/
def ofCents (cents : ℤ) : Price := UInt32.ofNat (cents * 100).toNat

def anchorFor (W : Window) (side : UInt8) (bestCents : ℤ) : ℤ :=
  let base :=
    if side = kBuy then bestCents - (W.ticks - 1 - W.margin) else bestCents - W.margin
  if base < 0 then 0 else base

namespace FastSide

/-! ## The operations -/

/-- The slot of a price, when it falls inside the window. -/
def inWindow (W : Window) (s : FastSide) (price : Price) : Option ℕ :=
  (toCents price).bind fun cents =>
    if s.baseCents < 0 then none
    else
      let off := cents - s.baseCents
      if 0 ≤ off ∧ off < W.ticks then some off.toNat else none

def read (s : FastSide) : Home → FastLevel
  | .slot off => s.levels off
  | .overflow price => s.overflow.getD price {}

def write (s : FastSide) (lvl : FastLevel) : Home → FastSide
  | .slot off => { s with levels := Function.update s.levels off lvl }
  | .overflow price => { s with overflow := s.overflow.insert price lvl }

/-- `if (levels.empty()) levels.resize(kWindowTicks)`. -/
def allocate (s : FastSide) : FastSide :=
  if s.allocated then s else { s with allocated := true, levels := fun _ => {} }

/-- The level of a live order, by `mutable_level` and `find_level`. -/
def findHome (W : Window) (s : FastSide) (price : Price) : Option Home :=
  let beyond := if s.overflow.contains price then some (.overflow price) else none
  match s.inWindow W price with
  | some off => if s.allocated then some (.slot off) else beyond
  | none => beyond

def findLevel (W : Window) (s : FastSide) (price : Price) : Option FastLevel :=
  (s.findHome W price).map s.read

/-- `&overflow[price]`. -/
def overflowEntry (s : FastSide) (price : Price) : FastSide × Home :=
  ({ s with overflow := s.overflow.insertIfNew price {} }, .overflow price)

def levelFor (W : Window) (s : FastSide) (side : UInt8) (price : Price) : FastSide × Home :=
  match toCents price with
  | none => s.overflowEntry price
  | some cents =>
    let s := { s with baseCents := if s.baseCents < 0 then anchorFor W side cents else s.baseCents }
    let s := s.allocate
    let off := cents - s.baseCents
    if off < 0 ∨ off ≥ W.ticks then s.overflowEntry price else (s, .slot off.toNat)

/-- The occupancy bit of a slot whose level had no orders. -/
def markOccupied (s : FastSide) (wasEmpty : Bool) : Home → FastSide
  | .slot off => if wasEmpty then { s with occupied := s.occupied.set off } else s
  | .overflow _ => s

/-- A level that is left without orders gives up its bit, or its place in the map. -/
def dropIfEmpty (W : Window) (s : FastSide) (price : Price) (lvl : FastLevel) : FastSide :=
  if lvl.orders = 0 then
    match s.inWindow W price with
    | some off => { s with occupied := s.occupied.clear off }
    | none => { s with overflow := s.overflow.erase price }
  else s

/-- The levels with orders and their prices, from both homes. -/
def scratch (s : FastSide) : List (Price × FastLevel) :=
  (if s.allocated && decide (s.baseCents ≥ 0) then
    (WordSet.members 64 s.occupied.summary).flatMap fun w =>
      (WordSet.members 64 (s.occupied.words w)).map fun b =>
        (ofCents (s.baseCents + ((w <<< 6) + b : ℕ)), s.levels ((w <<< 6) + b))
  else []) ++ s.overflow.toList

/-- A level is placed in its home in the new window. -/
def refill (W : Window) (s : FastSide) (x : Price × FastLevel) : FastSide :=
  match s.inWindow W x.1 with
  | some off =>
    { s.allocate with
      levels := Function.update s.allocate.levels off x.2
      occupied := s.occupied.set off }
  | none => { s with overflow := s.overflow.insert x.1 x.2 }

/-- The window before its levels are placed. -/
def emptied (s : FastSide) (newBase : ℤ) : FastSide :=
  { allocated := s.allocated, levels := fun _ => {}, occupied := {}, overflow := ∅, baseCents := newBase }

/-- The side after the move and the number of levels moved; `none` when the move is not worth it. -/
def recenter (W : Window) (s : FastSide) (side : UInt8) (bestCents : ℤ) : Option (FastSide × ℕ) :=
  let newBase := anchorFor W side bestCents
  let delta := if newBase > s.baseCents then newBase - s.baseCents else s.baseCents - newBase
  if s.baseCents ≥ 0 ∧ delta < W.hysteresis then none
  else some (s.scratch.foldl (refill W) (s.emptied newBase), s.scratch.length)

/-- The best price of the window. -/
def flatBest (W : Window) (s : FastSide) (side : UInt8) : Option Price :=
  if s.baseCents ≥ 0 ∧ s.occupied.empty = false then
    let i := if side = kBuy then s.occupied.highest W else s.occupied.lowest W
    if i < W.ticks then some (ofCents (s.baseCents + i)) else none
  else none

/-- The best price of the map. -/
def overflowBest (s : FastSide) (side : UInt8) : Option Price :=
  if side = kBuy then s.overflow.keys.getLast? else s.overflow.keys.head?

def best (W : Window) (s : FastSide) (side : UInt8) : Option Price :=
  match s.flatBest W side, s.overflowBest side with
  | none, candidate => candidate
  | some out, none => some out
  | some out, some candidate =>
    if (if side = kBuy then candidate > out else candidate < out) then some candidate else some out

/-- `maybe_recenter` for one side; `none` when the window stays. -/
def maybeRecenter (W : Window) (s : FastSide) (side : UInt8) : Option (FastSide × ℕ) :=
  (s.best W side).bind fun bestPx =>
    let bestCents : ℤ := (bestPx.toNat / 100 : ℕ)
    if s.baseCents < 0 then s.recenter W side bestCents
    else
      let off := bestCents - s.baseCents
      if off ≥ W.margin ∧ off < W.ticks - W.margin then none else s.recenter W side bestCents

/-! ## Prices and slots -/

variable {W : Window} {s : FastSide} {price p q : Price} {i j : ℕ} {lvl : FastLevel}

theorem toCents_eq_some {c : ℤ} : toCents p = some c ↔ c * 100 = p.toNat := by
  have hmod : p % 100 ≠ 0 ↔ p.toNat % 100 ≠ 0 := by
    rw [ne_eq, ← UInt32.toNat_inj, UInt32.toNat_mod]; rfl
  have hdiv : (p / 100).toNat = p.toNat / 100 := by rw [UInt32.toNat_div]; rfl
  unfold toCents
  split
  · rename_i h
    rw [hmod] at h
    constructor
    · intro hc; cases hc
    · intro hc; omega
  · rename_i h
    rw [hmod, not_not] at h
    rw [Option.some.injEq, hdiv]
    omega

theorem toCents_eq_none : toCents p = none ↔ ∀ c : ℤ, c * 100 ≠ p.toNat := by
  constructor
  · intro h c hc
    rw [toCents_eq_some.mpr hc] at h
    cases h
  · intro h
    cases hc : toCents p with
    | none => rfl
    | some c => exact absurd (toCents_eq_some.mp hc) (h c)

theorem inWindow_eq_some :
    s.inWindow W p = some i ↔ 0 ≤ s.baseCents ∧ i < W.ticks ∧ (s.baseCents + i) * 100 = p.toNat := by
  unfold inWindow
  rw [Option.bind_eq_some_iff]
  constructor
  · rintro ⟨c, hc, h⟩
    have hc := toCents_eq_some.mp hc
    split at h
    · cases h
    · dsimp only at h
      split at h
      · obtain rfl := Option.some.inj h
        omega
      · cases h
  · rintro ⟨h0, hi, hp⟩
    refine ⟨s.baseCents + i, toCents_eq_some.mpr hp, ?_⟩
    rw [if_neg (by omega)]
    dsimp only
    rw [if_pos (by omega)]
    congr 1
    omega

theorem inWindow_eq_none :
    s.inWindow W p = none ↔
      ∀ i : ℕ, 0 ≤ s.baseCents → i < W.ticks → (s.baseCents + i) * 100 ≠ p.toNat := by
  constructor
  · intro h i h0 hi hp
    rw [inWindow_eq_some.mpr ⟨h0, hi, hp⟩] at h
    cases h
  · intro h
    cases hc : s.inWindow W p with
    | none => rfl
    | some i =>
      obtain ⟨h0, hi, hp⟩ := inWindow_eq_some.mp hc
      exact absurd hp (h i h0 hi)

theorem inWindow_congr {s' : FastSide} (h : s'.baseCents = s.baseCents) (p : Price) :
    s'.inWindow W p = s.inWindow W p := by
  unfold inWindow; rw [h]

/-- Two prices in one slot are equal. -/
theorem inWindow_inj (hp : s.inWindow W p = some i) (hq : s.inWindow W q = some i) : p = q := by
  obtain ⟨-, -, hp⟩ := inWindow_eq_some.mp hp
  obtain ⟨-, -, hq⟩ := inWindow_eq_some.mp hq
  exact UInt32.toNat_inj.mp (by omega)

theorem inWindow_ofCents (h0 : 0 ≤ s.baseCents) (hi : i < W.ticks)
    (hlt : (s.baseCents + i) * 100 < 2 ^ 32) : s.inWindow W (ofCents (s.baseCents + i)) = some i := by
  refine inWindow_eq_some.mpr ⟨h0, hi, ?_⟩
  unfold ofCents
  rw [UInt32.toNat_ofNat_of_lt' (by change _ < 2 ^ 32; omega)]
  omega

theorem anchorFor_nonneg (W : Window) (side : UInt8) (c : ℤ) : 0 ≤ anchorFor W side c := by
  unfold anchorFor
  dsimp only
  split <;> omega

/-! ## The invariant -/

/-- Where the level of a price belongs. -/
def home (W : Window) (s : FastSide) (p : Price) : Home :=
  match s.inWindow W p with
  | some off => .slot off
  | none => .overflow p

/-- The level at a price; a default one where there is none. -/
def levelAt (W : Window) (s : FastSide) (p : Price) : FastLevel := s.read (s.home W p)

/-- `overflow_outside`: a whole-cent price is in the map only beyond a window that exists. -/
structure Valid (W : Window) (s : FastSide) : Prop where
  bitmap : s.occupied.Wf W
  occupied_iff : ∀ i < W.ticks, s.occupied.mem i = true ↔ (s.levels i).orders ≠ 0
  unallocated : s.allocated = false → s.levels = fun _ => {}
  unpriced : ∀ i : ℕ, 2 ^ 32 ≤ (s.baseCents + i) * 100 → s.levels i = {}
  unanchored : s.baseCents < 0 → s.allocated = false
  overflow_orders : ∀ (p : Price) (lvl : FastLevel), s.overflow[p]? = some lvl → lvl.orders ≠ 0
  overflow_outside : ∀ (p : Price) (lvl : FastLevel), s.overflow[p]? = some lvl →
    s.inWindow W p = none ∧ (s.baseCents < 0 → toCents p = none)

theorem home_of_inWindow (h : s.inWindow W p = some i) : s.home W p = .slot i := by
  unfold home; rw [h]

theorem home_of_outside (h : s.inWindow W p = none) : s.home W p = .overflow p := by
  unfold home; rw [h]

theorem levelAt_of_inWindow (h : s.inWindow W p = some i) : s.levelAt W p = s.levels i := by
  unfold levelAt; rw [home_of_inWindow h]; rfl

theorem levelAt_of_outside (h : s.inWindow W p = none) :
    s.levelAt W p = (s.overflow[p]?).getD {} := by
  unfold levelAt
  rw [home_of_outside h]
  exact Std.TreeMap.getD_eq_getD_getElem?

theorem valid_empty (W : Window) : Valid W {} where
  bitmap := LevelBitmap.wf_empty W
  occupied_iff i _ := by simp [LevelBitmap.mem]
  unallocated _ := rfl
  unpriced _ _ := rfl
  unanchored _ := rfl
  overflow_orders p lvl h := by rw [Std.TreeMap.getElem?_emptyc] at h; cases h
  overflow_outside p lvl h := by rw [Std.TreeMap.getElem?_emptyc] at h; cases h

theorem levelAt_empty (W : Window) (p : Price) : levelAt W {} p = {} := by
  have h : inWindow W {} p = none :=
    inWindow_eq_none.mpr fun i h0 _ _ => absurd h0 (by decide)
  rw [levelAt_of_outside h, Std.TreeMap.getElem?_emptyc]
  rfl

theorem Valid.base_nonneg (h : Valid W s) (hi : (s.levels i) ≠ {}) : 0 ≤ s.baseCents := by
  by_contra hneg
  exact hi (congrFun (h.unallocated (h.unanchored (not_le.mp hneg))) i)

/-- Reading by search finds the level that belongs to the price, when the map holds only levels outside the window. -/
theorem findLevel_getD (hunallocated : s.allocated = false → s.levels = fun _ => {})
    (hover : ∀ (p : Price) (lvl : FastLevel), s.overflow[p]? = some lvl → s.inWindow W p = none) (p : Price) :
    (s.findLevel W p).getD {} = s.levelAt W p := by
  have hbeyond : ((if s.overflow.contains p then some (Home.overflow p) else none).map s.read).getD {} =
      (s.overflow[p]?).getD {} := by
    rw [Std.TreeMap.contains_eq_isSome_getElem?]
    cases hp : s.overflow[p]? with
    | none => rfl
    | some lvl =>
      refine (Std.TreeMap.getD_eq_getD_getElem?).trans ?_
      rw [hp]
  unfold findLevel findHome
  cases hw : s.inWindow W p with
  | none => exact hbeyond.trans (levelAt_of_outside hw).symm
  | some i =>
    rw [levelAt_of_inWindow hw]
    dsimp only
    cases ha : s.allocated with
    | true => rfl
    | false =>
      have hnone : s.overflow[p]? = none := by
        by_contra hne
        obtain ⟨lvl, hlvl⟩ := Option.ne_none_iff_exists'.mp hne
        rw [hover p lvl hlvl] at hw
        cases hw
      rw [hunallocated ha]
      exact hbeyond.trans (by rw [hnone]; rfl)

theorem Valid.findLevel_getD (h : Valid W s) (p : Price) : (s.findLevel W p).getD {} = s.levelAt W p :=
  FastSide.findLevel_getD h.unallocated (fun p lvl hp => (h.overflow_outside p lvl hp).1) p

/-- A level with orders is found where it belongs. -/
theorem Valid.findHome_eq (h : Valid W s) (hne : (s.levelAt W p).orders ≠ 0) :
    s.findHome W p = some (s.home W p) := by
  unfold findHome home
  cases hw : s.inWindow W p with
  | some i =>
    rw [levelAt_of_inWindow hw] at hne
    have ha : s.allocated = true := by
      by_contra hf
      rw [h.unallocated (by simpa using hf)] at hne
      exact hne rfl
    dsimp only
    rw [if_pos ha]
  | none =>
    rw [levelAt_of_outside hw] at hne
    dsimp only
    rw [Std.TreeMap.contains_eq_isSome_getElem?]
    cases hp : s.overflow[p]? with
    | none => rw [hp] at hne; exact absurd rfl hne
    | some lvl => rfl

/-! ## Writing a level -/

theorem Valid.put_flat (h : Valid W s) (hp : s.inWindow W p = some i) (ha : s.allocated = true)
    (lvl : FastLevel) {o : LevelBitmap} (ho : o.Wf W)
    (hm : ∀ j, o.mem j = if j = i then decide (lvl.orders ≠ 0) else s.occupied.mem j) :
    Valid W { s with levels := Function.update s.levels i lvl, occupied := o } ∧
      ∀ q, levelAt W { s with levels := Function.update s.levels i lvl, occupied := o } q =
        if q = p then lvl else s.levelAt W q := by
  obtain ⟨h0, hi, hprice⟩ := inWindow_eq_some.mp hp
  refine ⟨⟨ho, fun j hj => ?_, fun hf => ?_, fun j hj => ?_, h.unanchored, h.overflow_orders,
    h.overflow_outside⟩, fun q => ?_⟩
  · dsimp only
    rw [hm]
    by_cases hji : j = i
    · rw [if_pos hji, hji, Function.update_self, decide_eq_true_eq]
    · rw [if_neg hji, Function.update_of_ne hji]
      exact h.occupied_iff j hj
  · rw [ha] at hf; cases hf
  · have hji : j ≠ i := by
      rintro rfl
      have := p.toNat_lt
      dsimp only at hj
      omega
    exact (Function.update_of_ne hji _ _).trans (h.unpriced j hj)
  · cases hq : s.inWindow W q with
    | none =>
      have hne : q ≠ p := by rintro rfl; rw [hp] at hq; cases hq
      rw [if_neg hne, levelAt_of_outside hq]
      exact levelAt_of_outside hq
    | some j =>
      refine (levelAt_of_inWindow (s := { s with levels := _, occupied := o }) hq).trans ?_
      dsimp only
      by_cases hji : j = i
      · rw [hji, Function.update_self, if_pos (inWindow_inj (hji ▸ hq) hp)]
      · rw [Function.update_of_ne hji, if_neg, levelAt_of_inWindow hq]
        rintro rfl
        rw [hp] at hq
        exact hji (Option.some.inj hq).symm

theorem Valid.put_overflow (h : Valid W s) (hp : s.inWindow W p = none)
    (hc : s.baseCents < 0 → toCents p = none) (lvl : FastLevel) {m : Std.TreeMap Price FastLevel}
    (hm : ∀ q : Price, m[q]? =
      if q = p then if lvl.orders = 0 then none else some lvl else s.overflow[q]?) :
    Valid W { s with overflow := m } ∧
      ∀ q, levelAt W { s with overflow := m } q =
        if q = p then if lvl.orders = 0 then {} else lvl else s.levelAt W q := by
  refine ⟨⟨h.bitmap, h.occupied_iff, h.unallocated, h.unpriced, h.unanchored, fun q l hl => ?_,
    fun q l hl => ?_⟩, fun q => ?_⟩
  · dsimp only at hl
    rw [hm] at hl
    split at hl
    · split at hl
      · cases hl
      · obtain rfl := Option.some.inj hl; assumption
    · exact h.overflow_orders q l hl
  · dsimp only at hl
    rw [hm] at hl
    split at hl
    · rename_i hq; subst hq; exact ⟨hp, hc⟩
    · exact h.overflow_outside q l hl
  · cases hq : s.inWindow W q with
    | none =>
      refine (levelAt_of_outside (s := { s with overflow := m }) hq).trans ?_
      dsimp only
      rw [hm, levelAt_of_outside hq]
      split
      · split <;> rfl
      · rfl
    | some j =>
      have hne : q ≠ p := by rintro rfl; rw [hp] at hq; cases hq
      rw [if_neg hne, levelAt_of_inWindow hq]
      exact levelAt_of_inWindow hq

theorem Valid.allocated_of_orders (h : Valid W s) (hi : (s.levels i).orders ≠ 0) :
    s.allocated = true := by
  by_contra hf
  rw [h.unallocated (by simpa using hf)] at hi
  exact hi rfl

/-- A level of the map is a level beyond the window. -/
theorem Valid.overflow_of_orders (h : Valid W s) (hp : s.inWindow W p = none)
    (hne : (s.levelAt W p).orders ≠ 0) :
    ∃ lvl, s.overflow[p]? = some lvl ∧ (s.baseCents < 0 → toCents p = none) := by
  rw [levelAt_of_outside hp] at hne
  cases ho : s.overflow[p]? with
  | none => rw [ho] at hne; exact absurd rfl hne
  | some lvl => exact ⟨lvl, rfl, (h.overflow_outside p lvl ho).2⟩

/-- A level with orders is overwritten and keeps orders. -/
theorem Valid.write (h : Valid W s) (lvl : FastLevel) (hne : (s.levelAt W p).orders ≠ 0)
    (hl : lvl.orders ≠ 0) :
    Valid W (s.write lvl (s.home W p)) ∧
      ∀ q, (s.write lvl (s.home W p)).levelAt W q = if q = p then lvl else s.levelAt W q := by
  cases hp : s.inWindow W p with
  | some i =>
    rw [home_of_inWindow hp]
    rw [levelAt_of_inWindow hp] at hne
    obtain ⟨-, hi, -⟩ := inWindow_eq_some.mp hp
    refine h.put_flat hp (h.allocated_of_orders hne) lvl h.bitmap fun j => ?_
    split
    · rename_i hji
      rw [hji, (h.occupied_iff i hi).mpr hne, decide_eq_true hl]
    · rfl
  | none =>
    obtain ⟨-, -, hc⟩ := h.overflow_of_orders hp hne
    rw [home_of_outside hp]
    have hput := h.put_overflow hp hc lvl (m := s.overflow.insert p lvl) fun q => by
      rw [OrderedMap.getElem?_insert_eq, if_neg hl]
    rw [if_neg hl] at hput
    exact hput

/-- A level with orders is overwritten and may lose the last of them. -/
theorem Valid.dropIfEmpty (h : Valid W s) (hne : (s.levelAt W p).orders ≠ 0) (lvl : FastLevel) :
    Valid W ((s.write lvl (s.home W p)).dropIfEmpty W p lvl) ∧
      ∀ q, ((s.write lvl (s.home W p)).dropIfEmpty W p lvl).levelAt W q =
        if q = p then if lvl.orders = 0 ∧ s.inWindow W p = none then {} else lvl
        else s.levelAt W q := by
  by_cases hl : lvl.orders = 0
  · unfold FastSide.dropIfEmpty
    rw [if_pos hl]
    cases hp : s.inWindow W p with
    | some i =>
      rw [home_of_inWindow hp]
      have hw : (s.write lvl (.slot i)).inWindow W p = some i := hp
      rw [hw]
      rw [levelAt_of_inWindow hp] at hne
      obtain ⟨-, hi, -⟩ := inWindow_eq_some.mp hp
      have hput := h.put_flat hp (h.allocated_of_orders hne) lvl (h.bitmap.clear hi) fun j => by
        rw [LevelBitmap.mem_clear]
        by_cases hji : j = i
        · rw [if_pos hji, decide_eq_false (not_not.mpr hji), Bool.and_false,
            decide_eq_false (not_not.mpr hl)]
        · rw [if_neg hji, decide_eq_true hji, Bool.and_true]
      refine ⟨hput.1, fun q => (hput.2 q).trans ?_⟩
      simp
    | none =>
      obtain ⟨-, -, hc⟩ := h.overflow_of_orders hp hne
      rw [home_of_outside hp]
      have hw : (s.write lvl (.overflow p)).inWindow W p = none := hp
      rw [hw]
      have hput := h.put_overflow hp hc lvl (m := (s.overflow.insert p lvl).erase p) fun q => by
        rw [OrderedMap.getElem?_erase_eq, OrderedMap.getElem?_insert_eq, if_pos hl]
        split <;> rfl
      refine ⟨hput.1, fun q => (hput.2 q).trans ?_⟩
      simp [hl]
  · unfold FastSide.dropIfEmpty
    rw [if_neg hl]
    have hwrite := h.write lvl hne hl
    refine ⟨hwrite.1, fun q => (hwrite.2 q).trans ?_⟩
    simp [hl]

/-! ## A new order's level -/

theorem baseCents_allocate (s : FastSide) : s.allocate.baseCents = s.baseCents := by
  unfold allocate; split <;> rfl

theorem occupied_allocate (s : FastSide) : s.allocate.occupied = s.occupied := by
  unfold allocate; split <;> rfl

theorem allocated_allocate (s : FastSide) : s.allocate.allocated = true := by
  unfold allocate
  split
  · assumption
  · rfl

/-- The side once it can hold a whole-cent level. -/
theorem Valid.anchor (h : Valid W s) {base : ℤ} (hb : base = s.baseCents ∨ s.baseCents < 0 ∧ 0 ≤ base)
    (hb0 : 0 ≤ base) :
    Valid W ({ s with baseCents := base } : FastSide).allocate ∧
      ∀ q, levelAt W ({ s with baseCents := base } : FastSide).allocate q = s.levelAt W q := by
  rcases hb with rfl | ⟨hneg, -⟩
  · unfold allocate
    dsimp only
    by_cases ha : s.allocated = true
    · rw [if_pos ha]
      exact ⟨h, fun _ => rfl⟩
    · rw [if_neg ha]
      have hlev := h.unallocated (by simpa using ha)
      refine ⟨⟨h.bitmap, ?_, fun _ => rfl, fun _ _ => rfl, fun hn => absurd hb0 (not_le.mpr hn),
        h.overflow_orders, h.overflow_outside⟩, fun q => ?_⟩
      · have := h.occupied_iff
        rw [hlev] at this
        exact this
      · cases hq : s.inWindow W q with
        | none => rw [levelAt_of_outside hq]; exact levelAt_of_outside hq
        | some j => rw [levelAt_of_inWindow hq, hlev]; exact levelAt_of_inWindow hq
  · have ha := h.unanchored hneg
    have hlev := h.unallocated ha
    have hout : ∀ q, s.inWindow W q = none := fun q =>
      inWindow_eq_none.mpr fun j h0 _ _ => absurd hneg (not_lt.mpr h0)
    unfold allocate
    dsimp only
    rw [if_neg (by rw [ha]; exact Bool.false_ne_true)]
    refine ⟨⟨h.bitmap, ?_, fun _ => rfl, fun _ _ => rfl, fun hn => absurd hb0 (not_le.mpr hn),
      h.overflow_orders, fun q l hl => ⟨?_, fun hn => absurd hb0 (not_le.mpr hn)⟩⟩, fun q => ?_⟩
    · have := h.occupied_iff
      rw [hlev] at this
      exact this
    · -- what the map holds is not a whole number of cents
      have hsub := (h.overflow_outside q l hl).2 hneg
      exact inWindow_eq_none.mpr fun j _ _ => toCents_eq_none.mp hsub _
    · rw [levelAt_of_outside (hout q)]
      cases hq : inWindow W { s with allocated := true, levels := fun _ => {}, baseCents := base } q with
      | none => exact levelAt_of_outside hq
      | some j =>
        rw [levelAt_of_inWindow hq]
        have hnone : s.overflow[q]? = none := by
          by_contra hne
          obtain ⟨l, hl⟩ := Option.ne_none_iff_exists'.mp hne
          exact toCents_eq_none.mp ((h.overflow_outside q l hl).2 hneg) _ (inWindow_eq_some.mp hq).2.2
        rw [hnone]
        rfl

/-- The side that `levelFor` works on, and the home that it picks there. -/
theorem Valid.levelFor_cases (h : Valid W s) (side : UInt8) (p : Price) :
    ∃ t, Valid W t ∧ (∀ q, t.levelAt W q = s.levelAt W q) ∧
      ((∃ i, t.inWindow W p = some i ∧ t.allocated = true ∧ s.levelFor W side p = (t, .slot i)) ∨
        (t.inWindow W p = none ∧ (t.baseCents < 0 → toCents p = none) ∧
          s.levelFor W side p = t.overflowEntry p)) := by
  unfold levelFor
  cases hc : toCents p with
  | none =>
    exact ⟨s, h, fun _ => rfl, .inr ⟨inWindow_eq_none.mpr fun j _ _ => toCents_eq_none.mp hc _,
      fun _ => rfl, rfl⟩⟩
  | some c =>
    dsimp only
    have hcents := toCents_eq_some.mp hc
    set base := if s.baseCents < 0 then anchorFor W side c else s.baseCents with hbase
    have hb : base = s.baseCents ∨ s.baseCents < 0 ∧ 0 ≤ base := by
      rw [hbase]
      split
      · exact .inr ⟨by assumption, anchorFor_nonneg W side c⟩
      · exact .inl rfl
    have hb0 : 0 ≤ base := by
      rw [hbase]
      split
      · exact anchorFor_nonneg W side c
      · omega
    obtain ⟨hvalid, hsame⟩ := h.anchor hb hb0
    set t := ({ s with baseCents := base } : FastSide).allocate with ht
    have htb : t.baseCents = base := baseCents_allocate _
    have hta : t.allocated = true := allocated_allocate _
    refine ⟨t, hvalid, hsame, ?_⟩
    rw [htb]
    by_cases hout : c - base < 0 ∨ c - base ≥ W.ticks
    · rw [if_pos hout]
      refine .inr ⟨inWindow_eq_none.mpr fun j _ hj hp => ?_, fun hn => absurd hb0 (not_le.mpr hn), rfl⟩
      rw [htb] at hp
      omega
    · rw [if_neg hout]
      refine .inl ⟨(c - base).toNat, inWindow_eq_some.mpr ?_, hta, rfl⟩
      rw [htb]
      omega

/-- The level of the new order is the one at its price, and once it has orders the side is as it should
be. -/
theorem Valid.levelFor (h : Valid W s) (lvl : FastLevel) (side : UInt8) (p : Price)
    (hl : lvl.orders ≠ 0) :
    let r := s.levelFor W side p
    let s' := (r.1.write lvl r.2).markOccupied ((r.1.read r.2).orders == 0) r.2
    r.1.read r.2 = s.levelAt W p ∧ s'.home W p = r.2 ∧ Valid W s' ∧
      ∀ q, s'.levelAt W q = if q = p then lvl else s.levelAt W q := by
  obtain ⟨t, ht, hsame, ⟨i, hp, ha, heq⟩ | ⟨hp, hc, heq⟩⟩ := h.levelFor_cases side p
  · rw [heq]
    obtain ⟨-, hi, -⟩ := inWindow_eq_some.mp hp
    have hread : t.read (.slot i) = s.levelAt W p := by
      rw [← hsame p, levelAt_of_inWindow hp]; rfl
    -- the bit of the slot is set, now or from before
    obtain ⟨o, ho, hwf, hm⟩ : ∃ o, (t.write lvl (.slot i)).markOccupied
          ((t.read (.slot i)).orders == 0) (.slot i) =
            { t with levels := Function.update t.levels i lvl, occupied := o } ∧ o.Wf W ∧
          ∀ j, o.mem j = if j = i then decide (lvl.orders ≠ 0) else t.occupied.mem j := by
      unfold markOccupied
      dsimp only
      split
      · refine ⟨_, rfl, ht.bitmap.set hi, fun j => ?_⟩
        refine (LevelBitmap.mem_set i j).trans ?_
        by_cases hji : j = i
        · simp [hji, hl]
        · simp [hji, FastSide.write]
      · rename_i hocc
        refine ⟨_, rfl, ht.bitmap, fun j => ?_⟩
        have hbit := (ht.occupied_iff i hi).mpr (by simpa [FastSide.read] using hocc)
        by_cases hji : j = i
        · rw [if_pos hji, hji, hbit, decide_eq_true hl]
        · rw [if_neg hji]
    dsimp only
    rw [ho]
    obtain ⟨hvalid, hlev⟩ := ht.put_flat hp ha lvl hwf hm
    refine ⟨hread, home_of_inWindow hp, hvalid, fun q => ?_⟩
    rw [hlev, hsame]
  · rw [heq]
    unfold overflowEntry
    have hget : ∀ q : Price, ((t.overflow.insertIfNew p {}).insert p lvl)[q]? =
        if q = p then if lvl.orders = 0 then none else some lvl else t.overflow[q]? := by
      intro q
      rw [OrderedMap.getElem?_insert_eq]
      by_cases hq : q = p
      · rw [if_pos hq, if_pos hq, if_neg hl]
      · rw [if_neg hq, if_neg hq, Std.TreeMap.getElem?_insertIfNew, if_neg]
        rintro ⟨hcmp, -⟩
        exact hq (Std.LawfulEqCmp.compare_eq_iff_eq.mp hcmp).symm
    obtain ⟨hvalid, hlev⟩ := ht.put_overflow hp hc lvl hget
    have hread : (t.overflow.insertIfNew p {}).getD p {} = s.levelAt W p := by
      rw [← hsame p, levelAt_of_outside hp, Std.TreeMap.getD_eq_getD_getElem?,
        Std.TreeMap.getElem?_insertIfNew]
      cases ho : t.overflow[p]? with
      | none =>
        have habsent : ¬ p ∈ t.overflow := fun hmem => by
          obtain ⟨l, hl⟩ := OrderedMap.mem_iff_getElem?.mp hmem
          rw [ho] at hl
          cases hl
        rw [if_pos ⟨Std.ReflCmp.compare_self, habsent⟩]
        rfl
      | some l => rw [if_neg fun hc => hc.2 (OrderedMap.mem_iff_getElem?.mpr ⟨l, ho⟩)]
    refine ⟨hread, home_of_outside hp, hvalid, fun q => (hlev q).trans ?_⟩
    rw [if_neg hl, hsame]

/-- The level of the price would be a new one of the map. -/
def opensOverflow (W : Window) (s : FastSide) (p : Price) : Bool :=
  ((toCents p).isNone || (decide (s.baseCents ≥ 0) && (s.inWindow W p).isNone)) &&
    !s.overflow.contains p

theorem levelFor_of_opensOverflow (side : UInt8) (h : s.opensOverflow W p = true) :
    (s.levelFor W side p).2 = .overflow p ∧ (s.levelAt W p).orders = 0 := by
  unfold opensOverflow at h
  rw [Bool.and_eq_true, Bool.or_eq_true, Bool.and_eq_true, Option.isNone_iff_eq_none,
    Option.isNone_iff_eq_none, decide_eq_true_eq, Bool.not_eq_true',
    Std.TreeMap.contains_eq_isSome_getElem?] at h
  obtain ⟨hbeyond, hnew⟩ := h
  have hout : s.inWindow W p = none := by
    rcases hbeyond with hc | ⟨-, hw⟩
    · exact inWindow_eq_none.mpr fun j _ _ => toCents_eq_none.mp hc _
    · exact hw
  constructor
  · unfold levelFor
    cases hc : toCents p with
    | none => rfl
    | some c =>
      have h0 : 0 ≤ s.baseCents := by
        rcases hbeyond with hn | ⟨h0, -⟩
        · rw [hc] at hn; cases hn
        · exact h0
      have hcents := toCents_eq_some.mp hc
      dsimp only
      rw [baseCents_allocate, if_neg (not_lt.mpr h0), if_pos]
      · rfl
      · by_contra hin
        dsimp only at hin
        refine inWindow_eq_none.mp hout (c - s.baseCents).toNat h0 (by omega) ?_
        omega
  · have hnone : s.overflow[p]? = none := by
      rw [← Option.isNone_iff_eq_none, ← Option.not_isSome, hnew]; rfl
    rw [levelAt_of_outside hout, hnone]
    rfl

/-! ## Moving the window -/

/-- A price with its occupied slot. -/
theorem Valid.inWindow_of_mem (h : Valid W s) (hm : s.occupied.mem i = true) :
    s.inWindow W (ofCents (s.baseCents + i)) = some i ∧ (s.levels i).orders ≠ 0 := by
  have hi := h.bitmap.mem_lt i hm
  have hne := (h.occupied_iff i hi).mp hm
  have hdef : s.levels i ≠ {} := by
    intro hc; rw [hc] at hne; exact hne rfl
  refine ⟨inWindow_ofCents (h.base_nonneg hdef) hi ?_, hne⟩
  by_contra hge
  exact hdef (h.unpriced i (not_lt.mp hge))

/-- The scratch list is the levels with orders, when the bitmap marks those of the window and the map holds the
others. -/
theorem mem_scratch (hbitmap : s.occupied.Wf W)
    (hocc : ∀ i < W.ticks, s.occupied.mem i = true ↔ (s.levels i).orders ≠ 0)
    (hpriced : ∀ i, s.occupied.mem i = true → s.inWindow W (ofCents (s.baseCents + i)) = some i)
    (hunallocated : s.allocated = false → s.levels = fun _ => {})
    (hover : ∀ (p : Price) (lvl : FastLevel), s.overflow[p]? = some lvl → lvl.orders ≠ 0 ∧ s.inWindow W p = none)
    (x : Price × FastLevel) : x ∈ s.scratch ↔ x.2 = s.levelAt W x.1 ∧ x.2.orders ≠ 0 := by
  have hflat : (∃ i, s.occupied.mem i = true ∧ x = (ofCents (s.baseCents + i), s.levels i)) ↔
      (∃ i, s.inWindow W x.1 = some i) ∧ x.2 = s.levelAt W x.1 ∧ x.2.orders ≠ 0 := by
    constructor
    · rintro ⟨i, hm, rfl⟩
      have hw := hpriced i hm
      exact ⟨⟨i, hw⟩, (levelAt_of_inWindow hw).symm, (hocc i (inWindow_eq_some.mp hw).2.1).mp hm⟩
    · rintro ⟨⟨i, hw⟩, hx, hne⟩
      rw [levelAt_of_inWindow hw] at hx
      obtain ⟨-, hi, -⟩ := inWindow_eq_some.mp hw
      have hm := (hocc i hi).mpr (hx ▸ hne)
      exact ⟨i, hm, Prod.ext (inWindow_inj hw (hpriced i hm)) hx⟩
  have hover : x ∈ s.overflow.toList ↔
      s.inWindow W x.1 = none ∧ x.2 = s.levelAt W x.1 ∧ x.2.orders ≠ 0 := by
    obtain ⟨p, lvl⟩ := x
    rw [Std.TreeMap.mem_toList_iff_getElem?_eq_some]
    constructor
    · intro hp
      obtain ⟨hne, hw⟩ := hover p lvl hp
      refine ⟨hw, ?_, hne⟩
      dsimp only
      rw [levelAt_of_outside hw, hp]
      rfl
    · rintro ⟨hw, hx, hne⟩
      dsimp only at hw hx hne
      rw [levelAt_of_outside hw] at hx
      cases hp : s.overflow[p]? with
      | none => rw [hp] at hx; rw [hx] at hne; exact absurd rfl hne
      | some l => rw [hp] at hx; rw [hx]; rfl
  have hbits : x ∈ (if s.allocated && decide (s.baseCents ≥ 0) then
      (WordSet.members 64 s.occupied.summary).flatMap fun w =>
        (WordSet.members 64 (s.occupied.words w)).map fun b =>
          (ofCents (s.baseCents + ((w <<< 6) + b : ℕ)), s.levels ((w <<< 6) + b))
      else []) ↔ ∃ i, s.occupied.mem i = true ∧ x = (ofCents (s.baseCents + i), s.levels i) := by
    have hspec : ∀ (y : BitVec 64) (k : ℕ), k ∈ WordSet.members 64 y ↔ y.getLsbD k = true :=
      fun y => (WordSet.members_spec (j := 0) (by simp) (by simp)).1
    split
    · rw [List.mem_flatMap]
      constructor
      · rintro ⟨w, -, hx⟩
        obtain ⟨b, hb, rfl⟩ := List.mem_map.mp hx
        have hb := (hspec _ _).mp hb
        rw [LevelBitmap.shiftLeft_six]
        exact ⟨_, by rw [LevelBitmap.mem_word _ _ _ (WordSet.lt_of_mem hb)]; exact hb, rfl⟩
      · rintro ⟨i, hm, rfl⟩
        have hword : s.occupied.mem (i / 64 * 64 + i % 64) = true := by
          rw [show i / 64 * 64 + i % 64 = i by omega]; exact hm
        rw [LevelBitmap.mem_word _ _ _ (by omega)] at hword
        have hne : s.occupied.words (i / 64) ≠ 0#64 := by
          intro h0; rw [h0] at hword; simp at hword
        refine ⟨i / 64, (hspec _ _).mpr ((hbitmap.summary_iff _).mpr hne), List.mem_map.mpr
          ⟨i % 64, (hspec _ _).mpr hword, ?_⟩⟩
        rw [LevelBitmap.shiftLeft_six, show i / 64 * 64 + i % 64 = i by omega]
    · rename_i hna
      refine iff_of_false (by simp) ?_
      rintro ⟨i, hm, -⟩
      obtain ⟨h0, hi, -⟩ := inWindow_eq_some.mp (hpriced i hm)
      have hne := (hocc i hi).mp hm
      have ha : s.allocated = true := by
        by_contra hf
        rw [hunallocated (by simpa using hf)] at hne
        exact hne rfl
      rw [ha, decide_eq_true h0] at hna
      exact hna rfl
  unfold scratch
  rw [List.mem_append, hbits, hflat, hover]
  constructor
  · rintro (⟨-, hx⟩ | ⟨-, hx⟩) <;> exact hx
  · intro hx
    cases hw : s.inWindow W x.1 with
    | some i => exact .inl ⟨⟨i, rfl⟩, hx⟩
    | none => exact .inr ⟨rfl, hx⟩

theorem Valid.mem_scratch (h : Valid W s) (x : Price × FastLevel) :
    x ∈ s.scratch ↔ x.2 = s.levelAt W x.1 ∧ x.2.orders ≠ 0 :=
  FastSide.mem_scratch h.bitmap h.occupied_iff (fun _ hm => (h.inWindow_of_mem hm).1) h.unallocated
    (fun p lvl hp => ⟨h.overflow_orders p lvl hp, (h.overflow_outside p lvl hp).1⟩) x

theorem valid_emptied {base : ℤ} (hb : 0 ≤ base) :
    Valid W (s.emptied base) ∧ ∀ q, (s.emptied base).levelAt W q = {} := by
  refine ⟨⟨LevelBitmap.wf_empty W, fun i _ => by simp [emptied, LevelBitmap.mem], fun _ => rfl,
    fun _ _ => rfl, fun hn => absurd hb (not_le.mpr hn), fun q l hl => ?_, fun q l hl => ?_⟩, fun q => ?_⟩
  · rw [emptied, Std.TreeMap.getElem?_emptyc] at hl; cases hl
  · rw [emptied, Std.TreeMap.getElem?_emptyc] at hl; cases hl
  · cases hq : (s.emptied base).inWindow W q with
    | some i => exact levelAt_of_inWindow hq
    | none =>
      rw [levelAt_of_outside hq, emptied, Std.TreeMap.getElem?_emptyc]
      rfl

/-- One level is placed. -/
theorem Valid.refill (h : Valid W s) (hb : 0 ≤ s.baseCents) {x : Price × FastLevel}
    (hx : x.2.orders ≠ 0) :
    Valid W (s.refill W x) ∧ (s.refill W x).baseCents = s.baseCents ∧
      ∀ q, (s.refill W x).levelAt W q = if q = x.1 then x.2 else s.levelAt W q := by
  unfold FastSide.refill
  cases hw : s.inWindow W x.1 with
  | some i =>
    dsimp only
    obtain ⟨-, hi, -⟩ := inWindow_eq_some.mp hw
    obtain ⟨hvalid, hsame⟩ := h.anchor (.inl rfl) hb
    change Valid W s.allocate at hvalid
    have hbase := s.baseCents_allocate
    have hput := hvalid.put_flat ((inWindow_congr hbase _).trans hw) s.allocated_allocate x.2
      (o := s.occupied.set i) (h.bitmap.set hi) fun j => by
        rw [LevelBitmap.mem_set, occupied_allocate]
        by_cases hji : j = i
        · simp [hji, hx]
        · simp [hji]
    refine ⟨hput.1, hbase, fun q => (hput.2 q).trans ?_⟩
    rw [show s.allocate.levelAt W q = s.levelAt W q from hsame q]
  | none =>
    dsimp only
    have hput := h.put_overflow hw (fun hn => absurd hb (not_le.mpr hn)) x.2
      (m := s.overflow.insert x.1 x.2) fun q => by rw [OrderedMap.getElem?_insert_eq, if_neg hx]
    rw [if_neg hx] at hput
    exact ⟨hput.1, rfl, hput.2⟩

/-- All levels are placed, each as `f` has it. -/
theorem Valid.foldl_refill {f : Price → FastLevel} : ∀ {xs : List (Price × FastLevel)} {s : FastSide},
    Valid W s → 0 ≤ s.baseCents → (∀ x ∈ xs, x.2 = f x.1 ∧ x.2.orders ≠ 0) →
      Valid W (xs.foldl (FastSide.refill W) s) ∧
        ∀ q, (xs.foldl (FastSide.refill W) s).levelAt W q =
          if q ∈ xs.map Prod.fst then f q else s.levelAt W q
  | [], s, h, _, _ => ⟨h, fun q => (if_neg (by simp)).symm⟩
  | x :: xs, s, h, hb, hxs => by
    obtain ⟨hx, hne⟩ := hxs x (by simp)
    obtain ⟨hvalid, hbase, hlev⟩ := h.refill hb hne
    obtain ⟨hvalid', hlev'⟩ := hvalid.foldl_refill (by rw [hbase]; exact hb)
      fun y hy => hxs y (List.mem_cons_of_mem _ hy)
    refine ⟨hvalid', fun q => (hlev' q).trans ?_⟩
    rw [List.map_cons, hlev]
    by_cases hq : q ∈ xs.map Prod.fst
    · rw [if_pos hq, if_pos (List.mem_cons_of_mem _ hq)]
    · rw [if_neg hq]
      by_cases hqx : q = x.1
      · rw [if_pos hqx, if_pos (by simp [hqx]), hx, hqx]
      · rw [if_neg hqx, if_neg (by rw [List.mem_cons, not_or]; exact ⟨hqx, hq⟩)]

/-- Placing levels does not move the window. -/
theorem baseCents_foldl_refill : ∀ (xs : List (Price × FastLevel)) (s : FastSide),
    (xs.foldl (FastSide.refill W) s).baseCents = s.baseCents
  | [], _ => rfl
  | x :: xs, s => by
    refine (baseCents_foldl_refill xs (s.refill W x)).trans ?_
    unfold FastSide.refill
    split
    · exact s.baseCents_allocate
    · rfl

/-- The window moves and every level that the walk meets stays what it is. -/
theorem refilled_of_scratch (hs : ∀ x, x ∈ s.scratch ↔ x.2 = s.levelAt W x.1 ∧ x.2.orders ≠ 0) {side : UInt8} {c : ℤ}
    {t : FastSide} {n : ℕ} (ht : s.recenter W side c = some (t, n)) :
    Valid W t ∧ t.baseCents = anchorFor W side c ∧
      ∀ q, t.levelAt W q = if (s.levelAt W q).orders = 0 then {} else s.levelAt W q := by
  obtain ⟨rfl, -⟩ := Prod.mk.inj (Option.some.inj (Option.ite_none_left_eq_some.mp ht).2)
  have hb := anchorFor_nonneg W side c
  obtain ⟨hempty, hlev⟩ := valid_emptied (W := W) (s := s) hb
  obtain ⟨hvalid, hall⟩ := hempty.foldl_refill (f := s.levelAt W) hb fun x hx => (hs x).mp hx
  refine ⟨hvalid, baseCents_foldl_refill s.scratch _, fun q => ?_⟩
  rw [hall, hlev]
  by_cases hq : (s.levelAt W q).orders = 0
  · rw [if_pos hq, if_neg]
    rw [List.mem_map]
    rintro ⟨x, hx, rfl⟩
    obtain ⟨hx, hne⟩ := (hs x).mp hx
    exact hne (hx ▸ hq)
  · rw [if_neg hq, if_pos]
    exact List.mem_map.mpr ⟨(q, s.levelAt W q), (hs _).mpr ⟨rfl, hq⟩, rfl⟩

theorem Valid.recenter (h : Valid W s) {side : UInt8} {c : ℤ} {t : FastSide} {n : ℕ}
    (ht : s.recenter W side c = some (t, n)) :
    Valid W t ∧ ∀ q, t.levelAt W q = if (s.levelAt W q).orders = 0 then {} else s.levelAt W q := by
  obtain ⟨hvalid, -, hlev⟩ := refilled_of_scratch h.mem_scratch ht
  exact ⟨hvalid, hlev⟩

theorem Valid.maybeRecenter (h : Valid W s) {side : UInt8} {t : FastSide} {n : ℕ}
    (ht : s.maybeRecenter W side = some (t, n)) :
    Valid W t ∧ ∀ q, t.levelAt W q = if (s.levelAt W q).orders = 0 then {} else s.levelAt W q := by
  obtain ⟨bestPx, -, ht⟩ := Option.bind_eq_some_iff.mp ht
  dsimp only at ht
  split at ht
  · exact h.recenter ht
  · exact h.recenter (Option.ite_none_left_eq_some.mp ht).2

/-! ## The best price -/

/-- `p` is at least as good as `q` on this side. -/
def AtLeast (side : UInt8) (p q : Price) : Prop := if side = kBuy then q ≤ p else p ≤ q

theorem atLeast_trans {side : UInt8} {r : Price} (h : AtLeast side p q) (h' : AtLeast side q r) :
    AtLeast side p r := by
  unfold AtLeast at *
  split_ifs at *
  · exact UInt32.le_trans h' h
  · exact UInt32.le_trans h h'

theorem atLeast_antisymm {side : UInt8} (h : AtLeast side p q) (h' : AtLeast side q p) : p = q := by
  unfold AtLeast at *
  split_ifs at *
  · exact UInt32.le_antisymm h' h
  · exact UInt32.le_antisymm h h'

theorem atLeast_of_cents {side : UInt8} {c : ℤ} (hp : (c + i) * 100 = p.toNat)
    (hq : (c + j) * 100 = q.toNat) (h : if side = kBuy then j ≤ i else i ≤ j) : AtLeast side p q := by
  unfold AtLeast
  split_ifs at *
  · exact UInt32.le_iff_toNat_le.mpr (by omega)
  · exact UInt32.le_iff_toNat_le.mpr (by omega)

/-- The best of the levels in the window. -/
theorem Valid.flatBest_spec (h : Valid W s) (side : UInt8) :
    (s.flatBest W side = none → ∀ q i, s.inWindow W q = some i → (s.levelAt W q).orders = 0) ∧
      ∀ p, s.flatBest W side = some p → (s.levelAt W p).orders ≠ 0 ∧
        ∀ q i, s.inWindow W q = some i → (s.levelAt W q).orders ≠ 0 → AtLeast side p q := by
  have hocc : ∀ {q i}, s.inWindow W q = some i → (s.levelAt W q).orders ≠ 0 →
      s.occupied.mem i = true := fun hw hne => by
    rw [levelAt_of_inWindow hw] at hne
    exact (h.occupied_iff _ (inWindow_eq_some.mp hw).2.1).mpr hne
  by_cases hany : s.baseCents ≥ 0 ∧ s.occupied.empty = false
  · obtain ⟨k, hk, hmem, hext⟩ : ∃ k, (if side = kBuy then s.occupied.highest W
        else s.occupied.lowest W) = k ∧ s.occupied.mem k = true ∧
          ∀ j, s.occupied.mem j = true → if side = kBuy then j ≤ k else k ≤ j := by
      refine ⟨_, rfl, ?_⟩
      split
      · exact h.bitmap.highest_spec hany.2
      · exact h.bitmap.lowest_spec hany.2
    have hflat : s.flatBest W side = some (ofCents (s.baseCents + k)) := by
      unfold flatBest
      rw [if_pos hany, hk]
      exact if_pos (h.bitmap.mem_lt k hmem)
    obtain ⟨hw, hne⟩ := h.inWindow_of_mem hmem
    refine ⟨fun hc => (by rw [hflat] at hc; cases hc), fun p hp => ?_⟩
    rw [hflat] at hp
    obtain rfl := Option.some.inj hp
    refine ⟨by rw [levelAt_of_inWindow hw]; exact hne, fun q i hq hqne => ?_⟩
    exact atLeast_of_cents (inWindow_eq_some.mp hw).2.2 (inWindow_eq_some.mp hq).2.2
      (hext i (hocc hq hqne))
  · have hflat : s.flatBest W side = none := if_neg hany
    refine ⟨fun _ q i hq => ?_, fun p hp => (by rw [hflat] at hp; cases hp)⟩
    by_contra hne
    refine hany ⟨(inWindow_eq_some.mp hq).1, ?_⟩
    by_contra hempty
    have := h.bitmap.empty_iff.mp (by simpa using hempty) i
    rw [hocc hq hne] at this
    cases this

/-- The best of the levels in the map. -/
theorem Valid.overflowBest_spec (h : Valid W s) (side : UInt8) :
    (s.overflowBest side = none → ∀ q, s.inWindow W q = none → (s.levelAt W q).orders = 0) ∧
      ∀ p, s.overflowBest side = some p → (s.levelAt W p).orders ≠ 0 ∧
        ∀ q, s.inWindow W q = none → (s.levelAt W q).orders ≠ 0 → AtLeast side p q := by
  have hin : ∀ {q}, s.inWindow W q = none → (s.levelAt W q).orders ≠ 0 →
      ∃ l, s.overflow[q]? = some l := fun hw hne => by
    obtain ⟨l, hl, -⟩ := h.overflow_of_orders hw hne
    exact ⟨l, hl⟩
  have hkey : ∀ {p l}, s.overflow[p]? = some l → (s.levelAt W p).orders ≠ 0 := fun {p l} hl => by
    rw [levelAt_of_outside (h.overflow_outside p l hl).1, hl]
    exact h.overflow_orders p l hl
  constructor
  · intro hnone q hw
    by_contra hne
    obtain ⟨l, hl⟩ := hin hw hne
    have hkeys : s.overflow.keys ≠ [] := List.ne_nil_of_mem
      (Std.TreeMap.mem_keys.mpr (OrderedMap.mem_iff_getElem?.mpr ⟨l, hl⟩))
    unfold overflowBest at hnone
    split at hnone
    · exact hkeys (List.getLast?_eq_none_iff.mp hnone)
    · exact hkeys (List.head?_eq_none_iff.mp hnone)
  · intro p hp
    unfold overflowBest at hp
    split at hp
    · rename_i hbuy
      obtain ⟨⟨l, hl⟩, hall⟩ := OrderedMap.getLast?_keys_eq_some.mp hp
      refine ⟨hkey hl, fun q hw hne => ?_⟩
      obtain ⟨l', hl'⟩ := hin hw hne
      unfold AtLeast
      rw [if_pos hbuy]
      exact Std.isLE_compare.mp (hall q l' hl')
    · rename_i hbuy
      obtain ⟨⟨l, hl⟩, hall⟩ := OrderedMap.head?_keys_eq_some.mp hp
      refine ⟨hkey hl, fun q hw hne => ?_⟩
      obtain ⟨l', hl'⟩ := hin hw hne
      unfold AtLeast
      rw [if_neg hbuy]
      exact Std.isLE_compare.mp (hall q l' hl')

theorem Valid.best_spec (h : Valid W s) (side : UInt8) :
    (s.best W side = none → ∀ q, (s.levelAt W q).orders = 0) ∧
      ∀ p, s.best W side = some p → (s.levelAt W p).orders ≠ 0 ∧
        ∀ q, (s.levelAt W q).orders ≠ 0 → AtLeast side p q := by
  obtain ⟨hfnone, hfsome⟩ := h.flatBest_spec side
  obtain ⟨honone, hosome⟩ := h.overflowBest_spec side
  -- a price is in the window or not
  have hsplit : ∀ {P : Price → Prop}, (∀ q i, s.inWindow W q = some i → P q) →
      (∀ q, s.inWindow W q = none → P q) → ∀ q, P q := fun h1 h2 q => by
    cases hq : s.inWindow W q with
    | some i => exact h1 q i hq
    | none => exact h2 q hq
  unfold best
  cases hf : s.flatBest W side with
  | none =>
    refine ⟨fun ho => hsplit (hfnone hf) (honone ho), fun p ho => ?_⟩
    obtain ⟨hne, hall⟩ := hosome p ho
    exact ⟨hne, hsplit (fun q i hq hqne => absurd (hfnone hf q i hq) hqne) hall⟩
  | some out =>
    obtain ⟨hne, hall⟩ := hfsome out hf
    cases ho : s.overflowBest side with
    | none =>
      refine ⟨fun hc => (by cases hc), fun p hp => ?_⟩
      obtain rfl := Option.some.inj hp
      exact ⟨hne, hsplit hall fun q hq hqne => absurd (honone ho q hq) hqne⟩
    | some cand =>
      obtain ⟨hne', hall'⟩ := hosome cand ho
      have hbetter : (if side = kBuy then cand > out else cand < out) → AtLeast side cand out := by
        unfold AtLeast; split_ifs <;> exact UInt32.le_of_lt
      have hworse : ¬ (if side = kBuy then cand > out else cand < out) → AtLeast side out cand := by
        unfold AtLeast; split_ifs <;> exact UInt32.not_lt.mp
      dsimp only
      by_cases hc : if side = kBuy then cand > out else cand < out
      · rw [if_pos hc]
        refine ⟨fun hn => (by cases hn), fun p hp => ?_⟩
        obtain rfl := Option.some.inj hp
        exact ⟨hne', hsplit (fun q i hq hqne => atLeast_trans (hbetter hc) (hall q i hq hqne)) hall'⟩
      · rw [if_neg hc]
        refine ⟨fun hn => (by cases hn), fun p hp => ?_⟩
        obtain rfl := Option.some.inj hp
        exact ⟨hne, hsplit hall fun q hq hqne => atLeast_trans (hworse hc) (hall' q hq hqne)⟩

/-- The answer is the best of the prices that have orders. -/
theorem Valid.best_eq_some_iff (h : Valid W s) {side : UInt8} :
    s.best W side = some p ↔
      (s.levelAt W p).orders ≠ 0 ∧ ∀ q, (s.levelAt W q).orders ≠ 0 → AtLeast side p q := by
  obtain ⟨hnone, hsome⟩ := h.best_spec side
  refine ⟨hsome p, fun ⟨hne, hall⟩ => ?_⟩
  cases hb : s.best W side with
  | none => exact absurd (hnone hb p) hne
  | some q =>
    obtain ⟨hqne, hqall⟩ := hsome q hb
    rw [atLeast_antisymm (hqall p hne) (hall q hqne)]

end FastSide

end Carteret
