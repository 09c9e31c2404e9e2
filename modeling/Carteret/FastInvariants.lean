import Carteret.FastRefines

/-!
# The representation invariant of the fast book

`WellFormed` says in terms of the fields what a fast book looks like: the free list and the slots of the
live orders, the index, the queues, the bitmap, the window and the overflow map. `wellFormed_run` proves it
of every run without an index failure, and that a replacement is never refused.
-/

namespace Carteret

open IntrusiveList

namespace FastBook

variable {P : HashPolicy} {W : Window} {b : FastBook P W} {A : Book} {slot : Ref → UInt32}
  {F : List UInt32} {i : UInt32} {e : Entry} {x : Bool}

/-- The slots of a level, first to last. -/
def slotsOf (slot : Ref → UInt32) (es : List Entry) : List UInt32 := es.map fun e => slot e.ref

/-- The level that a search finds. -/
def foundLevel (b : FastBook P W) (locate : UInt16) (side : UInt8) (price : Price) : FastLevel :=
  ((b.side locate side).findLevel W price).getD {}

/-- One side: the bitmap marks the slots with orders, the other slots are default levels, and the map holds
only levels with orders that are sub-cent or outside the window. -/
structure SideFormed (W : Window) (s : FastSide) : Prop where
  occupied_iff : ∀ i < W.ticks, s.occupied.mem i = true ↔ (s.levels i).orders ≠ 0
  occupied_lt : ∀ i, s.occupied.mem i = true → i < W.ticks
  summary_iff : ∀ w, s.occupied.summary.getLsbD w = true ↔ s.occupied.words w ≠ 0#64
  priced : ∀ i, s.occupied.mem i = true → s.inWindow W (ofCents (s.baseCents + i)) = some i
  default : ∀ i < W.ticks, s.occupied.mem i = false → s.levels i = {}
  overflow : ∀ (p : Price) (lvl : FastLevel), s.overflow[p]? = some lvl →
    lvl.orders ≠ 0 ∧ (toCents p = none ∨ s.inWindow W p = none)

/-- The fast book `b` for the live orders `A`. -/
structure WellFormed (b : FastBook P W) (A : Book) (slot : Ref → UInt32) (F : List UInt32) : Prop where
  free : Stack (fun i => (b.order i).next) kNoOrder b.freeHead F
  free_nodup : F.Nodup
  partition : ∀ i : UInt32, (i ∈ F ∨ ∃ e ∈ A.orders, slot e.ref = i) ↔
    i.toNat < b.cfg.maxOrders ∧ i.toNat < 2 ^ 32 - 1
  disjoint : ∀ e ∈ A.orders, slot e.ref ∉ F
  slot_inj : ∀ e ∈ A.orders, ∀ f ∈ A.orders, slot e.ref = slot f.ref → e = f
  index_eq : ∀ ref, b.index.find ref = some (slot ref)
  index_live : ∀ ref, slot ref ≠ kNoOrder ↔ (A.find ref).isSome = true
  stores : ∀ e ∈ A.orders, b.Stores (slot e.ref) e
  queue : ∀ locate side price, Queue b.pool (b.foundLevel locate side price)
    (slotsOf slot (A.level locate (side == kBuy) price))
  one_queue : ∀ e ∈ A.orders, ∀ locate buy price,
    slot e.ref ∈ slotsOf slot (A.level locate buy price) ↔
      e.locate = locate ∧ e.buy = buy ∧ e.price = price
  orders_eq : ∀ locate side price, (b.foundLevel locate side price).orders.toNat =
    (A.level locate (side == kBuy) price).length
  shares_eq : ∀ locate side price, (b.foundLevel locate side price).shares.toNat =
    Book.total (A.level locate (side == kBuy) price)
  sides : ∀ locate side, SideFormed W (b.side locate side)

theorem total_le (es : List Entry) : Book.total es ≤ es.length * (2 ^ 32 - 1) := by
  induction es with
  | nil => exact Nat.zero_le _
  | cons e es ih =>
    have hsum : Book.total (e :: es) = e.shares.toNat + Book.total es := by simp [Book.total]
    have hlt := e.shares.toNat_lt
    rw [hsum, List.length_cons, Nat.succ_mul]
    omega

/-- A flat slot that is marked neither holds orders nor shares. -/
theorem Holds.slot_default (h : Holds true b A slot F) (locate : UInt16) (buy : Bool) {i : ℕ}
    (hi : i < W.ticks) (hm : (b.half locate buy).occupied.mem i = false) :
    (b.half locate buy).levels i = {} := by
  have hv := h.core.valid locate buy
  set s := b.half locate buy with hs
  by_contra hne
  have h0 := hv.base_nonneg hne
  have hprice : (s.baseCents + i) * 100 < 2 ^ 32 := not_le.mp fun hc => hne (hv.unpriced i hc)
  have hlev := FastSide.levelAt_of_inWindow (FastSide.inWindow_ofCents h0 hi hprice)
  have hzero : (s.levels i).orders = 0 := by
    by_contra hc
    rw [(hv.occupied_iff i hi).mpr hc] at hm
    cases hm
  have hnil : A.level locate buy (ofCents (s.baseCents + i)) = [] :=
    h.core.orders_eq_zero.mp (by unfold levelAt; rw [← hs, hlev]; exact hzero)
  have hq := h.core.queue locate buy (ofCents (s.baseCents + i))
  have hshares := h.exact_of rfl locate buy (ofCents (s.baseCents + i))
  rw [hnil] at hq hshares
  have hends := hq.ends_of_nil
  unfold levelAt at hends hshares
  rw [← hs, hlev] at hends hshares
  refine hne ?_
  cases hl : s.levels i with
  | mk shares orders head tail =>
    rw [hl] at hends hshares hzero
    obtain ⟨rfl, rfl⟩ := hends
    obtain rfl : shares = 0 := hshares
    obtain rfl : orders = 0 := hzero
    rfl

theorem Holds.sideFormed (h : Holds true b A slot F) (locate : UInt16) (side : UInt8) :
    SideFormed W (b.side locate side) := by
  have hv := h.core.valid locate (side == kBuy)
  rw [side_eq]
  exact ⟨hv.occupied_iff, hv.bitmap.mem_lt, hv.bitmap.summary_iff,
    fun i hm => (hv.inWindow_of_mem hm).1, fun i hi hm => h.slot_default locate _ hi hm,
    fun p lvl hp => ⟨hv.overflow_orders p lvl hp, .inr (hv.overflow_outside p lvl hp).1⟩⟩

/-- A book that stands for `A` with exact totals is well formed. -/
theorem Holds.wellFormed (h : Holds true b A slot F) : WellFormed b A slot F := by
  have hfound : ∀ locate side price,
      b.foundLevel locate side price = b.levelAt locate (side == kBuy) price := fun locate side price => by
    unfold foundLevel
    rw [side_eq]
    exact (h.core.valid locate (side == kBuy)).findLevel_getD price
  have hnil : kNoOrder.toNat = 2 ^ 32 - 1 := rfl
  refine
    { free := h.core.free
      free_nodup := h.core.nodup
      partition := fun i => ?_
      disjoint := h.core.disjoint
      slot_inj := fun e he f hf hs => h.core.slot_inj he hf hs
      index_eq := h.index.find_eq
      index_live := fun ref => ?_
      stores := h.core.stores
      queue := fun locate side price => by rw [hfound]; exact h.core.queue locate (side == kBuy) price
      one_queue := fun e he locate buy price => ?_
      orders_eq := fun locate side price => ?_
      shares_eq := fun locate side price => ?_
      sides := h.sideFormed }
  · rw [h.core.slots i]
    have hne : i ≠ kNoOrder ↔ i.toNat ≠ 2 ^ 32 - 1 := by rw [← hnil, ne_eq, ne_eq, UInt32.toNat_inj]
    have hlt := i.toNat_lt
    rw [hne]
    omega
  · rw [h.live_iff, Option.isSome_iff_exists]
    simp only [Book.find_eq_some]
  · rw [← Entry.restsAt_iff]
    constructor
    · intro hmem
      obtain ⟨f, hf, hs⟩ := List.mem_map.mp hmem
      obtain ⟨hfA, hr⟩ := Book.mem_level.mp hf
      rwa [← h.core.slot_inj hfA he hs]
    · exact fun hr => List.mem_map.mpr ⟨e, Book.mem_level.mpr ⟨he, hr⟩, rfl⟩
  · rw [hfound, (h.core.queue locate (side == kBuy) price).orders_toNat, List.length_map]
  · have hlen := (h.core.queue locate (side == kBuy) price).length_lt
    have hle := total_le (A.level locate (side == kBuy) price)
    rw [List.length_map] at hlen
    rw [hfound, h.exact_of rfl, ← Book.ofNat_total, UInt64.toNat_ofNat_of_lt']
    change _ < 2 ^ 64
    have hmul : (A.level locate (side == kBuy) price).length * (2 ^ 32 - 1) ≤
        (2 ^ 32 - 1) * (2 ^ 32 - 1) := Nat.mul_le_mul_right _ (by omega)
    omega

/-- What the index does not refuse leaves nothing behind. -/
theorem Rep.leaks_eq_false (h : Rep x b A) {m : Message}
    (hr : A.refused b.limits m ≠ some .index) : b.leaks m = false := by
  cases m with
  | addOrder v => exact h.leaksAdd_eq_false v.side v.price v.shares hr
  | addOrderMpid v => exact h.leaksAdd_eq_false v.side v.price v.shares hr
  | _ => rfl

/-- The index failures say whether shares were left behind. -/
theorem leakFree_of_indexFailures {cfg : FastBookConfig} (h₀ : (new P W cfg).isSome = true) :
    ∀ {ms : List Message} {b : FastBook P W}, run P W cfg ms = some b →
      b.counters.indexFailures = 0 → LeakFree P W cfg ms := by
  obtain ⟨b₀, h₀⟩ := Option.isSome_iff_exists.mp h₀
  intro ms
  induction ms using List.reverseRecOn with
  | nil => exact fun _ _ => trivial
  | append_singleton ms m ih =>
    intro b' hb' hzero
    obtain ⟨b, hb, -, hrep, -⟩ := rep_run h₀ ms
    obtain ⟨c, hon, hfol⟩ := hrep.on m
    obtain rfl := Option.some.inj (((run_snoc hb m).trans hon).symm.trans hb')
    have hcount : c.counters.indexFailures = bump b.failures _ .index :=
      congrFun hfol.failures_eq .index
    rw [hzero] at hcount
    have hwhy : (bounded b₀.limits ms).refused b.limits m ≠ some .index := by
      intro hc
      unfold bump at hcount
      rw [if_pos hc] at hcount
      exact absurd hcount.symm (Nat.succ_ne_zero _)
    unfold bump at hcount
    rw [if_neg hwhy] at hcount
    refine Runs.along_append.mpr ⟨ih hb hcount.symm, fun d hd => ?_, trivial⟩
    obtain rfl := Option.some.inj (hb.symm.trans hd)
    exact hrep.leaks_eq_false hwhy

/-- A replacement of a live order is never refused. -/
theorem Rep.replace_live (h : Rep x b A) {v : OrderReplace} (he : A.find v.oldOrderRef = some e) :
    ∃ b' i, b.on (.orderReplace v) = some b' ∧ i ≠ kNoOrder ∧
      b'.index.find v.newOrderRef = some i ∧ b'.Stores i (Book.replacement v e) := by
  obtain ⟨b', hon, hfol⟩ := h.on (.orderReplace v)
  obtain ⟨slot, F, hold⟩ := hfol.done rfl
  have hstep : A.step (.orderReplace v) = (A.drop v.oldOrderRef).place (Book.replacement v e) := by
    dsimp only [Book.step]
    rw [he]
  rw [hstep] at hold
  have hfind : ((A.drop v.oldOrderRef).place (Book.replacement v e)).find v.newOrderRef =
      some (Book.replacement v e) := (Book.find_place _ _ _).trans (if_pos rfl)
  refine ⟨b', slot v.newOrderRef, hon, hold.slot_ne hfind, hold.index.find_eq _, ?_⟩
  exact hold.core.stores _ (Book.find_eq_some.mp hfind).1

/-- **The representation invariant.** After any messages without an index failure the fast book is well
formed; and in every state that a run reaches, a replacement of a live order is live afterwards. -/
theorem wellFormed_run (P : HashPolicy) (W : Window) (cfg : FastBookConfig) (ms : List Message)
    (hnew : (new P W cfg).isSome = true) :
    ∃ b, run P W cfg ms = some b ∧
      (b.counters.indexFailures = 0 → ∃ slot F, WellFormed b (bounded b.limits ms) slot F) ∧
      ∀ (v : OrderReplace) (e : Entry), (bounded b.limits ms).find v.oldOrderRef = some e →
        ∃ b' i, b.on (.orderReplace v) = some b' ∧ i ≠ kNoOrder ∧
          b'.index.find v.newOrderRef = some i ∧ b'.Stores i (Book.replacement v e) := by
  obtain ⟨b₀, h₀⟩ := Option.isSome_iff_exists.mp hnew
  obtain ⟨b, hb, hlim, hrep, hexact⟩ := rep_run h₀ ms
  rw [← hlim] at hrep hexact
  refine ⟨b, hb, fun hzero => ?_, fun v e he => hrep.replace_live he⟩
  obtain ⟨slot, F, h⟩ := hexact (leakFree_of_indexFailures hnew hb hzero)
  exact ⟨slot, F, h.wellFormed⟩

theorem wellFormed_run_three :
    ∃ b, run multiplyShiftHash defaultWindow ⟨8, 4, 8⟩ threeMessages = some b ∧
      (b.counters.indexFailures = 0 →
        ∃ slot F, WellFormed b (bounded b.limits threeMessages) slot F) ∧
      ∀ (v : OrderReplace) (e : Entry),
        (bounded b.limits threeMessages).find v.oldOrderRef = some e →
          ∃ b' i, b.on (.orderReplace v) = some b' ∧ i ≠ kNoOrder ∧
            b'.index.find v.newOrderRef = some i ∧ b'.Stores i (Book.replacement v e) :=
  wellFormed_run multiplyShiftHash defaultWindow ⟨8, 4, 8⟩ threeMessages
    ((new_isSome _).mpr (by decide))

/-- A pool of `2 ^ 32` orders has a slot that is neither free nor live: its index would be `kNoOrder`. -/
theorem not_partition : ∃ b, run multiplyShiftHash defaultWindow ⟨2 ^ 32, 1, 1⟩ [] = some b ∧
    b.counters.indexFailures = 0 ∧
      ¬ ∃ F, Stack (fun i => (b.order i).next) kNoOrder b.freeHead F ∧
        ∀ n < b.cfg.maxOrders, (∃ i ∈ F, i.toNat = n) ∨
          ∃ ref i, b.index.find ref = some i ∧ i ≠ kNoOrder ∧ i.toNat = n := by
  obtain ⟨b, hb⟩ := Option.isSome_iff_exists.mp ((new_isSome (P := multiplyShiftHash)
    (W := defaultWindow) ⟨2 ^ 32, 1, 1⟩).mpr (by decide))
  obtain ⟨-, hcfg, hfail⟩ := holds_new hb
  refine ⟨b, hb, congrFun hfail .index, ?_⟩
  rintro ⟨F, hF, hall⟩
  have hlast : ∀ i : UInt32, i.toNat = 2 ^ 32 - 1 → i = kNoOrder := fun i hi => UInt32.toNat_inj.mp hi
  rcases hall (2 ^ 32 - 1) (by rw [hcfg]; decide) with ⟨i, hi, hn⟩ | ⟨ref, i, -, hne, hn⟩
  · exact hF.nil_notMem (hlast i hn ▸ hi)
  · exact hne (hlast i hn)

end FastBook

end Carteret
