import Carteret.BoundedBook
import Carteret.FastBook

/-!
# The shape of the fast book

`Core b A slot F`: the pool, the queues, the sides and the free list of `b` hold the orders of the abstract
book `A`, each in its `slot`, and the free list is `F`. The share totals of the levels are left out: they are
the subject of `Exact`.

1. `Queue pool lvl L`: the slots `L` are threaded through the pool from the level `lvl`.
2. One lemma for each operation: `Core.link`, `Core.retire`, `Core.subShares`, `Core.setShares`,
   `Core.checkBbo`. Each also says what becomes of the share totals.
-/

namespace Carteret

open IntrusiveList

/-! ## Queues -/

/-- The forward link of a slot; the head of the level stands at `kNoOrder`. -/
def linkNext (pool : ℕ → FastOrder) (lvl : FastLevel) (i : UInt32) : UInt32 :=
  if i = kNoOrder then lvl.head else (pool i.toNat).next

/-- The backward link of a slot; the tail of the level stands at `kNoOrder`. -/
def linkPrev (pool : ℕ → FastOrder) (lvl : FastLevel) (i : UInt32) : UInt32 :=
  if i = kNoOrder then lvl.tail else (pool i.toNat).prev

/-- The queue of a level. -/
structure Queue (pool : ℕ → FastOrder) (lvl : FastLevel) (L : List UInt32) : Prop where
  ring : Ring (linkNext pool lvl) (linkPrev pool lvl) kNoOrder L
  orders_eq : lvl.orders = UInt32.ofNat L.length

namespace Queue

variable {pool pool' : ℕ → FastOrder} {lvl lvl' : FastLevel} {L L₁ L₂ : List UInt32} {x i : UInt32}

theorem length_le_of_nodup {M : List UInt32} (h : M.Nodup) : M.length ≤ 2 ^ 32 := by
  have hmap : (M.map UInt32.toNat).Nodup := h.map fun a b => UInt32.toNat_inj.mp
  have hsub : M.map UInt32.toNat ⊆ List.range (2 ^ 32) := fun k hk => by
    obtain ⟨a, -, rfl⟩ := List.mem_map.mp hk
    exact List.mem_range.mpr a.toNat_lt
  simpa using (hmap.subperm hsub).length_le

/-- A level has fewer than `2 ^ 32` orders: they rest in slots that differ. -/
theorem length_lt (h : Queue pool lvl L) : L.length < 2 ^ 32 := length_le_of_nodup h.ring.nodup

theorem orders_toNat (h : Queue pool lvl L) : lvl.orders.toNat = L.length := by
  rw [h.orders_eq, UInt32.toNat_ofNat_of_lt' h.length_lt]

theorem orders_eq_zero (h : Queue pool lvl L) : lvl.orders = 0 ↔ L = [] := by
  rw [← UInt32.toNat_inj, h.orders_toNat, ← List.length_eq_zero_iff]
  rfl

/-- A level has room for one more order while a slot is not in its queue. -/
theorem orders_succ_ne_zero (h : Queue pool lvl L) (hx : x ≠ kNoOrder) (hxL : x ∉ L) :
    lvl.orders + 1 ≠ 0 := by
  have hnd := List.nodup_cons.mp h.ring.nodup
  have hall : (kNoOrder :: x :: L).Nodup := by
    refine List.nodup_cons.mpr ⟨?_, List.nodup_cons.mpr ⟨hxL, hnd.2⟩⟩
    rw [List.mem_cons, not_or]
    exact ⟨Ne.symm hx, hnd.1⟩
  have hlen := length_le_of_nodup hall
  simp only [List.length_cons] at hlen
  intro hc
  have hz := congrArg UInt32.toNat hc
  rw [UInt32.toNat_add, h.orders_toNat] at hz
  change (L.length + 1) % 2 ^ 32 = 0 at hz
  rw [Nat.mod_eq_of_lt (by omega)] at hz
  cases hz

theorem ne_nil (h : Queue pool lvl L) (hi : i ∈ L) : i ≠ kNoOrder := fun hc =>
  h.ring.nil_notMem (hc ▸ hi)

theorem default (pool : ℕ → FastOrder) : Queue pool {} [] := ⟨ring_nil.mpr ⟨rfl, rfl⟩, rfl⟩

theorem ends_of_nil (h : Queue pool lvl []) : lvl.head = kNoOrder ∧ lvl.tail = kNoOrder :=
  ring_nil.mp h.ring

/-- Only the links of the slots and the ends of the level count. -/
theorem congr (h : Queue pool lvl L)
    (hp : ∀ i ∈ L, (pool' i.toNat).next = (pool i.toNat).next ∧
      (pool' i.toNat).prev = (pool i.toNat).prev)
    (ho : lvl'.orders = lvl.orders) (hh : lvl'.head = lvl.head) (ht : lvl'.tail = lvl.tail) :
    Queue pool' lvl' L := by
  refine ⟨h.ring.congr (fun a ha => ?_) fun a ha => ?_, by rw [ho, h.orders_eq]⟩
  · unfold linkNext
    split
    · exact hh
    · rename_i hne; exact (hp a (ha.resolve_left hne)).1
  · unfold linkPrev
    split
    · exact ht
    · rename_i hne; exact (hp a (ha.resolve_left hne)).2

/-- A slot is linked in at the back. -/
theorem push (h : Queue pool lvl L) (hx : x ≠ kNoOrder) (hxL : x ∉ L)
    (hxn : (pool' x.toNat).next = kNoOrder) (hxp : (pool' x.toNat).prev = lvl.tail)
    (hp : ∀ i, i ≠ kNoOrder → i ≠ x →
      (pool' i.toNat).next = (if i = lvl.tail then x else (pool i.toNat).next) ∧
        (pool' i.toNat).prev = (pool i.toNat).prev) (n : UInt64) :
    Queue pool'
      { shares := n, orders := lvl.orders + 1,
        head := if lvl.tail ≠ kNoOrder then lvl.head else x, tail := x } (L ++ [x]) := by
  have htail : linkPrev pool lvl kNoOrder = lvl.tail := if_pos rfl
  refine ⟨h.ring.push hx hxL ?_ ?_ (fun a ha => ?_) (if_pos rfl) fun a ha => ?_, ?_⟩
  · exact (if_neg hx).trans hxn
  · rw [htail]; exact (if_neg hx).trans hxp
  · rw [htail]
    by_cases ha0 : a = kNoOrder
    · unfold linkNext
      rw [if_pos ha0, if_pos ha0, ha0]
      dsimp only
      by_cases ht : lvl.tail = kNoOrder
      · rw [if_neg (not_not.mpr ht), if_pos ht.symm]
      · rw [if_pos ht, if_neg (Ne.symm ht)]
    · have hax : a ≠ x := fun hc => hxL (hc ▸ ha.resolve_left ha0)
      unfold linkNext
      rw [if_neg ha0, if_neg ha0, (hp a ha0 hax).1]
  · have ha0 := h.ne_nil ha
    have hax : a ≠ x := fun hc => hxL (hc ▸ ha)
    unfold linkPrev
    rw [if_neg ha0, if_neg ha0, (hp a ha0 hax).2]
  · rw [h.orders_eq, List.length_append, List.length_singleton, UInt32.ofNat_add]
    rfl

/-- A slot is linked out. -/
theorem remove (h : Queue pool lvl (L₁ ++ x :: L₂))
    (hp : ∀ i, i ≠ kNoOrder → i ≠ x →
      (pool' i.toNat).next =
          (if i = (pool x.toNat).prev then (pool x.toNat).next else (pool i.toNat).next) ∧
        (pool' i.toNat).prev =
          if i = (pool x.toNat).next then (pool x.toNat).prev else (pool i.toNat).prev) (n : UInt64) :
    Queue pool'
      { shares := n, orders := if lvl.orders ≠ 0 then lvl.orders - 1 else lvl.orders,
        head := if (pool x.toNat).prev ≠ kNoOrder then lvl.head else (pool x.toNat).next,
        tail := if (pool x.toNat).next ≠ kNoOrder then lvl.tail else (pool x.toNat).prev }
      (L₁ ++ L₂) := by
  have hx : x ≠ kNoOrder := h.ne_nil (by simp)
  have hxL : x ∉ L₁ ++ L₂ := by
    have := (List.nodup_cons.mp h.ring.nodup).2
    rw [List.nodup_middle, List.nodup_cons] at this
    exact this.1
  have hnext : linkNext pool lvl x = (pool x.toNat).next := if_neg hx
  have hprev : linkPrev pool lvl x = (pool x.toNat).prev := if_neg hx
  refine ⟨h.ring.remove (fun a ha => ?_) fun a ha => ?_, ?_⟩
  · rw [hnext, hprev]
    unfold linkNext
    by_cases ha0 : a = kNoOrder
    · rw [if_pos ha0, if_pos ha0, ha0]
      dsimp only
      by_cases hc : (pool x.toNat).prev = kNoOrder
      · rw [if_neg (not_not.mpr hc), if_pos hc.symm]
      · rw [if_pos hc, if_neg (Ne.symm hc)]
    · have hax : a ≠ x := fun hc => hxL (hc ▸ ha.resolve_left ha0)
      rw [if_neg ha0, if_neg ha0, (hp a ha0 hax).1]
  · rw [hnext, hprev]
    unfold linkPrev
    by_cases ha0 : a = kNoOrder
    · rw [if_pos ha0, if_pos ha0, ha0]
      dsimp only
      by_cases hc : (pool x.toNat).next = kNoOrder
      · rw [if_neg (not_not.mpr hc), if_pos hc.symm]
      · rw [if_pos hc, if_neg (Ne.symm hc)]
    · have hax : a ≠ x := fun hc => hxL (hc ▸ ha.resolve_left ha0)
      rw [if_neg ha0, if_neg ha0, (hp a ha0 hax).2]
  · have hlen : (L₁ ++ x :: L₂).length = (L₁ ++ L₂).length + 1 := by
      simp only [List.length_append, List.length_cons]; omega
    have hne : lvl.orders ≠ 0 := fun hc => by simpa using h.orders_eq_zero.mp hc
    dsimp only
    rw [if_pos hne, h.orders_eq, hlen, UInt32.ofNat_add]
    simp

/-- The neighbours of a slot are in its queue. -/
theorem neighbours (h : Queue pool lvl L) (hx : x ∈ L) :
    ((pool x.toNat).next = kNoOrder ∨ (pool x.toNat).next ∈ L) ∧
      ((pool x.toNat).prev = kNoOrder ∨ (pool x.toNat).prev ∈ L) := by
  have hx0 := h.ne_nil hx
  have hmem := h.ring.next_mem hx
  unfold linkNext linkPrev at hmem
  rwa [if_neg hx0, if_neg hx0] at hmem

theorem tail_mem (h : Queue pool lvl L) : lvl.tail = kNoOrder ∨ lvl.tail ∈ L := by
  have hmem := h.ring.tail_mem
  unfold linkPrev at hmem
  rwa [if_pos rfl] at hmem

end Queue

namespace FastBook

variable {P : HashPolicy} {W : Window} {b b' : FastBook P W} {A : Book} {slot : Ref → UInt32}
  {F : List UInt32} {i : UInt32} {e : Entry} {ref : Ref} {locate : UInt16} {buy : Bool} {price : Price}

/-! ## Sides and levels -/

/-- The buying or the selling side of a symbol. -/
def half (b : FastBook P W) (locate : UInt16) (buy : Bool) : FastSide :=
  if buy then (b.symbols locate.toNat).bid else (b.symbols locate.toNat).ask

/-- The level at a symbol, side and price. -/
def levelAt (b : FastBook P W) (locate : UInt16) (buy : Bool) (price : Price) : FastLevel :=
  (b.half locate buy).levelAt W price

theorem side_eq (b : FastBook P W) (locate : UInt16) (side : UInt8) :
    b.side locate side = b.half locate (side == kBuy) := by
  unfold FastBook.side FastSymbol.side half
  by_cases h : side = kBuy
  · rw [if_pos h, if_pos (by simpa using h)]
  · rw [if_neg h, if_neg (by simpa using h)]

theorem half_setSide (b : FastBook P W) (locate l : UInt16) (side : UInt8) (s : FastSide) (buy : Bool) :
    (b.setSide locate side s).half l buy =
      if l = locate ∧ buy = (side == kBuy) then s else b.half l buy := by
  unfold half setSide
  dsimp only
  by_cases hl : l = locate
  · rw [hl, Function.update_self]
    unfold FastSymbol.setSide
    by_cases hs : side = kBuy
    · subst hs; cases buy <;> simp
    · have hf : (side == kBuy) = false := by simpa using hs
      rw [if_neg hs, hf]
      cases buy <;> simp
  · have hne : ¬ (l = locate ∧ buy = (side == kBuy)) := fun hc => hl hc.1
    rw [if_neg hne, Function.update_of_ne fun hc => hl (UInt16.toNat_inj.mp hc)]

/-- The level totals are those of the abstract book. -/
def Exact (b : FastBook P W) (A : Book) : Prop :=
  ∀ locate buy price, (b.levelAt locate buy price).shares = Book.sumShares (A.level locate buy price)

/-! ## The invariant -/

/-- Slot `i` holds the order `e`. -/
structure Stores (b : FastBook P W) (i : UInt32) (e : Entry) : Prop where
  ref_eq : b.refs i.toNat = e.ref
  locate_eq : (b.order i).locate = e.locate
  side_eq : (b.order i).side = e.side
  price_eq : (b.order i).price = e.price
  shares_eq : (b.order i).shares = e.shares

theorem Stores.congr {i : UInt32} (h : b.Stores i e) (hr : b'.refs i.toNat = b.refs i.toNat)
    (hl : (b'.order i).locate = (b.order i).locate) (hs : (b'.order i).side = (b.order i).side)
    (hp : (b'.order i).price = (b.order i).price) (hn : (b'.order i).shares = (b.order i).shares) :
    b'.Stores i e :=
  ⟨hr.trans h.ref_eq, hl.trans h.locate_eq, hs.trans h.side_eq, hp.trans h.price_eq,
    hn.trans h.shares_eq⟩

structure Core (b : FastBook P W) (A : Book) (slot : Ref → UInt32) (F : List UInt32) : Prop where
  stores : ∀ e ∈ A.orders, b.Stores (slot e.ref) e
  locate_lt : ∀ e ∈ A.orders, e.locate.toNat < b.cfg.maxSymbols
  valid : ∀ locate buy, (b.half locate buy).Valid W
  queue : ∀ locate buy price,
    Queue b.pool (b.levelAt locate buy price) ((A.level locate buy price).map fun e => slot e.ref)
  free : Stack (fun i => (b.order i).next) kNoOrder b.freeHead F
  nodup : F.Nodup
  slots : ∀ i, (i ∈ F ∨ ∃ e ∈ A.orders, slot e.ref = i) ↔ i ≠ kNoOrder ∧ i.toNat < b.cfg.maxOrders
  disjoint : ∀ e ∈ A.orders, slot e.ref ∉ F
  beyond : ∀ n, 2 ^ 16 ≤ n → b.symbols n = {}

namespace Core

/-- Slots of distinct orders differ. -/
theorem slot_inj (h : Core b A slot F) {f : Entry} (he : e ∈ A.orders) (hf : f ∈ A.orders)
    (hs : slot e.ref = slot f.ref) : e = f := by
  refine Book.eq_of_ref_eq he hf ?_
  rw [← (h.stores e he).ref_eq, ← (h.stores f hf).ref_eq, hs]

theorem slot_ne (h : Core b A slot F) (he : e ∈ A.orders) : slot e.ref ≠ kNoOrder :=
  ((h.slots _).mp (.inr ⟨e, he, rfl⟩)).1

/-- A slot of a queue holds an order of the level. -/
theorem of_mem_queue (h : Core b A slot F) {i : UInt32}
    (hi : i ∈ (A.level locate buy price).map fun e => slot e.ref) :
    (∃ e ∈ A.orders, slot e.ref = i) ∧ (b.order i).locate = locate ∧
      ((b.order i).side == kBuy) = buy ∧ (b.order i).price = price := by
  obtain ⟨e, he, rfl⟩ := List.mem_map.mp hi
  obtain ⟨hmem, hrest⟩ := Book.mem_level.mp he
  obtain ⟨h1, h2, h3⟩ := Entry.restsAt_iff.mp hrest
  have hst := h.stores e hmem
  refine ⟨⟨e, hmem, rfl⟩, by rw [hst.locate_eq, h1], ?_, by rw [hst.price_eq, h3]⟩
  rw [hst.side_eq]
  exact h2

/-- A slot of another level is not in the queue of the level. -/
theorem notMem_queue (h : Core b A slot F) {i : UInt32}
    (hi : i ∈ (A.level locate buy price).map fun f => slot f.ref) (hr : ¬ e.restsAt locate buy price = true) :
    i ∉ (A.level e.locate e.buy e.price).map fun f => slot f.ref := fun hmem => by
  obtain ⟨-, h1, h2, h3⟩ := h.of_mem_queue hi
  obtain ⟨-, h1', h2', h3'⟩ := h.of_mem_queue hmem
  exact hr (Entry.restsAt_iff.mpr ⟨h1'.symm.trans h1, h2'.symm.trans h2, h3'.symm.trans h3⟩)

/-- A free slot is in no queue. -/
theorem free_notMem_queue (h : Core b A slot F) {i : UInt32} (hi : i ∈ F) :
    i ∉ (A.level locate buy price).map fun f => slot f.ref := fun hmem => by
  obtain ⟨⟨f, hf, hfi⟩, -⟩ := h.of_mem_queue hmem
  exact h.disjoint f hf (hfi ▸ hi)

theorem orders_eq_zero (h : Core b A slot F) :
    (b.levelAt locate buy price).orders = 0 ↔ A.level locate buy price = [] := by
  rw [(h.queue locate buy price).orders_eq_zero, List.map_eq_nil_iff]

/-- Only some of the fields matter. -/
theorem congr (h : Core b A slot F) (hcfg : b'.cfg = b.cfg) (hpool : b'.pool = b.pool)
    (hrefs : b'.refs = b.refs) (hsym : b'.symbols = b.symbols) (hfree : b'.freeHead = b.freeHead) :
    Core b' A slot F := by
  have horder : ∀ i, b'.order i = b.order i := fun i => by unfold order; rw [hpool]
  have hhalf : ∀ l s, b'.half l s = b.half l s := fun l s => by unfold half; rw [hsym]
  refine ⟨fun e he => ?_, ?_, fun l s => ?_, fun l s p => ?_, ?_, h.nodup, ?_, h.disjoint, ?_⟩
  · refine (h.stores e he).congr (by rw [hrefs]) ?_ ?_ ?_ ?_ <;> rw [horder]
  · rw [hcfg]; exact h.locate_lt
  · rw [hhalf]; exact h.valid l s
  · unfold levelAt; rw [hpool, hhalf]; exact h.queue l s p
  · simp only [horder, hfree]; exact h.free
  · rw [hcfg]; exact h.slots
  · rw [hsym]; exact h.beyond

/-- The slots of orders that are live. -/
theorem congr_slot (h : Core b A slot F) {slot' : Ref → UInt32}
    (hs : ∀ e ∈ A.orders, slot' e.ref = slot e.ref) : Core b A slot' F := by
  refine ⟨fun e he => ?_, h.locate_lt, h.valid, fun l s p => ?_, h.free, h.nodup, fun i => ?_,
    fun e he => ?_, h.beyond⟩
  · rw [hs e he]; exact h.stores e he
  · rw [List.map_congr_left fun e he => hs e (Book.mem_level.mp he).1]
    exact h.queue l s p
  · rw [← h.slots i]
    refine or_congr_right ⟨?_, ?_⟩
    · rintro ⟨e, he, hi⟩; exact ⟨e, he, by rw [← hs e he, hi]⟩
    · rintro ⟨e, he, hi⟩; exact ⟨e, he, by rw [hs e he, hi]⟩
  · rw [hs e he]; exact h.disjoint e he

theorem valid_setSide (h : Core b A slot F) {side : UInt8} {s : FastSide} (hv : s.Valid W) (l : UInt16)
    (d : Bool) : ((b.setSide locate side s).half l d).Valid W := by
  rw [half_setSide]
  split
  · exact hv
  · exact h.valid l d

theorem beyond_setSide (h : Core b A slot F) (locate : UInt16) (side : UInt8) (s : FastSide) (n : ℕ)
    (hn : 2 ^ 16 ≤ n) : (b.setSide locate side s).symbols n = {} := by
  have hne : n ≠ locate.toNat := by have := locate.toNat_lt; omega
  exact (Function.update_of_ne hne _ _).trans (h.beyond n hn)

/-- One side is replaced by another with the same queues. -/
theorem setSide (h : Core b A slot F) {side : UInt8} {s : FastSide} (hv : s.Valid W)
    (hq : ∀ p, Queue b.pool (s.levelAt W p)
      ((A.level locate (side == kBuy) p).map fun e => slot e.ref)) :
    Core (b.setSide locate side s) A slot F := by
  refine ⟨fun e he => (h.stores e he).congr rfl rfl rfl rfl rfl, h.locate_lt, h.valid_setSide hv,
    fun l d p => ?_, h.free, h.nodup, h.slots, h.disjoint, h.beyond_setSide locate side s⟩
  unfold levelAt
  rw [half_setSide]
  split
  · rename_i hc; obtain ⟨rfl, rfl⟩ := hc; exact hq p
  · exact h.queue l d p

/-! ## Writing a level -/

/-- Taking shares from a level touches nothing else. -/
theorem subShares_frame (b : FastBook P W) (o : FastOrder) (n : Shares) :
    (b.subShares o n).cfg = b.cfg ∧ (b.subShares o n).index = b.index ∧
      (b.subShares o n).counters = b.counters ∧ (b.subShares o n).pool = b.pool := by
  unfold FastBook.subShares
  split <;> exact ⟨rfl, rfl, rfl, rfl⟩

/-- The level of a live order is found where it belongs. -/
theorem mutableLevel_eq (h : Core b A slot F) (he : e ∈ A.orders) {o : FastOrder}
    (hl : o.locate = e.locate) (hs : o.side = e.side) (hp : o.price = e.price) :
    b.mutableLevel o = some ((b.half e.locate e.buy).home W e.price) := by
  have hne : ((b.half e.locate e.buy).levelAt W e.price).orders ≠ 0 := fun hc =>
    List.ne_nil_of_mem (Book.mem_own_level he) (h.orders_eq_zero.mp hc)
  unfold mutableLevel
  rw [hl, hs, hp, if_neg (not_le.mpr (h.locate_lt e he)), side_eq]
  exact (h.valid _ _).findHome_eq hne

/-- The level of an order is replaced. -/
theorem levelAt_setSide {s : FastSide} {lvl : FastLevel}
    (hs : ∀ q, s.levelAt W q = if q = e.price then lvl else (b.half e.locate e.buy).levelAt W q)
    (l : UInt16) (d : Bool) (q : Price) :
    (b.setSide e.locate e.side s).levelAt l d q =
      if e.restsAt l d q = true then lvl else b.levelAt l d q := by
  unfold levelAt
  rw [half_setSide]
  by_cases hc : l = e.locate ∧ d = e.buy
  · obtain ⟨rfl, rfl⟩ := hc
    have hiff : e.restsAt e.locate e.buy q = true ↔ q = e.price := by
      rw [Entry.restsAt_iff]; simp [eq_comm]
    rw [if_pos ⟨rfl, rfl⟩, hs]
    exact if_congr hiff.symm rfl rfl
  · have hnot : ¬ e.restsAt l d q = true := fun hr =>
      hc ⟨(Entry.restsAt_iff.mp hr).1.symm, (Entry.restsAt_iff.mp hr).2.1.symm⟩
    rw [if_neg hnot]
    exact congrArg (FastSide.levelAt W · q) (if_neg hc)

/-- Shares are taken from the level of a live order. -/
theorem subShares (h : Core b A slot F) (he : e ∈ A.orders) {o : FastOrder}
    (hl : o.locate = e.locate) (hs : o.side = e.side) (hp : o.price = e.price) (n : Shares) :
    Core (b.subShares o n) A slot F ∧ ∀ l d q, ((b.subShares o n).levelAt l d q).shares =
      if e.restsAt l d q = true then (b.levelAt l d q).shares - n.toUInt64
      else (b.levelAt l d q).shares := by
  have hne : ((b.half e.locate e.buy).levelAt W e.price).orders ≠ 0 := fun hc =>
    List.ne_nil_of_mem (Book.mem_own_level he) (h.orders_eq_zero.mp hc)
  have hwrite : b.subShares o n = b.setSide e.locate e.side ((b.half e.locate e.buy).write
      { (b.half e.locate e.buy).levelAt W e.price with
        shares := ((b.half e.locate e.buy).levelAt W e.price).shares - n.toUInt64 }
      ((b.half e.locate e.buy).home W e.price)) := by
    unfold FastBook.subShares
    rw [h.mutableLevel_eq he hl hs hp]
    dsimp only
    rw [hl, hs, side_eq]
    rfl
  obtain ⟨hvalid, hlev⟩ := (h.valid e.locate e.buy).write
    { (b.half e.locate e.buy).levelAt W e.price with
      shares := ((b.half e.locate e.buy).levelAt W e.price).shares - n.toUInt64 } hne hne
  rw [hwrite]
  refine ⟨h.setSide hvalid fun q => ?_, fun l d q => ?_⟩
  · rw [hlev]
    split
    · rename_i hq
      subst hq
      exact (h.queue e.locate e.buy e.price).congr (fun _ _ => ⟨rfl, rfl⟩) rfl rfl rfl
    · exact h.queue e.locate e.buy q
  · rw [levelAt_setSide hlev]
    split
    · rename_i hc
      obtain ⟨rfl, rfl, rfl⟩ := Entry.restsAt_iff.mp hc
      rfl
    · rfl

/-- The shares of a live order are overwritten in its slot. -/
theorem setShares (h : Core b A slot F) (he : e ∈ A.orders) (n : Shares) :
    Core (b.setOrder (slot e.ref) { b.order (slot e.ref) with shares := n })
      (A.setShares e.ref n) slot F := by
  set b' := b.setOrder (slot e.ref) { b.order (slot e.ref) with shares := n } with hb'
  have horder : ∀ i, b'.order i =
      if i = slot e.ref then { b.order (slot e.ref) with shares := n } else b.order i := by
    intro i
    unfold order
    by_cases hi : i = slot e.ref
    · rw [if_pos hi, hi]; exact Function.update_self ..
    · rw [if_neg hi]; exact Function.update_of_ne (fun hc => hi (UInt32.toNat_inj.mp hc)) ..
  have hlinks : ∀ i : UInt32, (b'.pool i.toNat).next = (b.pool i.toNat).next ∧
      (b'.pool i.toNat).prev = (b.pool i.toNat).prev := by
    intro i
    have := horder i
    unfold order at this
    rw [this]
    split
    · rename_i hi; rw [hi]; exact ⟨rfl, rfl⟩
    · exact ⟨rfl, rfl⟩
  -- every order of the new book is an old one, with its reference
  have hmem : ∀ f, f ∈ (A.setShares e.ref n).orders ↔
      ∃ g ∈ A.orders, f = if g.ref = e.ref then { g with shares := n } else g := by
    intro f
    unfold Book.setShares
    dsimp only
    rw [List.mem_map]
    simp only [eq_comm]
  have href : ∀ g : Entry, (if g.ref = e.ref then { g with shares := n } else g).ref = g.ref := by
    intro g; split <;> rfl
  refine ⟨fun f hf => ?_, fun f hf => ?_, h.valid, fun l d p => ?_, ?_, h.nodup, fun i => ?_,
    fun f hf => ?_, h.beyond⟩
  · obtain ⟨g, hg, rfl⟩ := (hmem f).mp hf
    have hst := h.stores g hg
    rw [href]
    by_cases hge : g.ref = e.ref
    · obtain rfl := Book.eq_of_ref_eq hg he hge
      rw [if_pos rfl]
      refine ⟨hst.ref_eq, ?_, ?_, ?_, ?_⟩ <;> rw [horder, if_pos rfl]
      · exact hst.locate_eq
      · exact hst.side_eq
      · exact hst.price_eq
    · rw [if_neg hge]
      have hne : slot g.ref ≠ slot e.ref := fun hc => hge (congrArg Entry.ref (h.slot_inj hg he hc))
      refine hst.congr rfl ?_ ?_ ?_ ?_ <;> rw [horder, if_neg hne]
  · obtain ⟨g, hg, rfl⟩ := (hmem f).mp hf
    have hl : (if g.ref = e.ref then { g with shares := n } else g).locate = g.locate := by
      split <;> rfl
    rw [hl]
    exact h.locate_lt g hg
  · rw [Book.level_setShares, List.map_map]
    have hmap : ((A.level l d p).map ((fun f => slot f.ref) ∘ fun f =>
        if f.ref = e.ref then { f with shares := n } else f)) =
        (A.level l d p).map fun f => slot f.ref :=
      List.map_congr_left fun f _ => by rw [Function.comp_apply, href]
    rw [hmap]
    exact (h.queue l d p).congr (fun i _ => hlinks i) rfl rfl rfl
  · exact h.free.congr fun i _ => (hlinks i).1
  · refine (or_congr_right ?_).trans (h.slots i)
    constructor
    · rintro ⟨f, hf, hi⟩
      obtain ⟨g, hg, rfl⟩ := (hmem f).mp hf
      exact ⟨g, hg, by rw [href] at hi; exact hi⟩
    · rintro ⟨g, hg, hi⟩
      exact ⟨_, (hmem _).mpr ⟨g, hg, rfl⟩, by rw [href]; exact hi⟩
  · obtain ⟨g, hg, rfl⟩ := (hmem f).mp hf
    rw [href]
    exact h.disjoint g hg

/-! ## The pool -/

end Core

theorem order_setOrder (b : FastBook P W) (i j : UInt32) (o : FastOrder) :
    (b.setOrder i o).order j = if j = i then o else b.order j := by
  unfold order setOrder
  by_cases hi : j = i
  · rw [if_pos hi, hi]; exact Function.update_self ..
  · rw [if_neg hi]; exact Function.update_of_ne (fun hc => hi (UInt32.toNat_inj.mp hc)) ..

theorem enqueue_eq (b : FastBook P W) (idx : UInt32) (o : FastOrder) :
    b.enqueue idx o = { b with pool := (b.enqueue idx o).pool } := by
  unfold enqueue
  dsimp only
  split <;> rfl

theorem order_enqueue (b : FastBook P W) {idx j : UInt32} (o : FastOrder) (hj : j ≠ kNoOrder)
    (hne : j ≠ idx) :
    (b.enqueue idx o).order j =
      { b.order j with next := if j = o.prev then idx else (b.order j).next } := by
  unfold enqueue
  dsimp only
  by_cases hp : o.prev = kNoOrder
  · rw [if_neg (not_not.mpr hp), order_setOrder, if_neg hne, if_neg fun hc => hj (hc.trans hp)]
  · rw [if_pos hp, order_setOrder, order_setOrder, order_setOrder, if_neg hne]
    by_cases hjp : j = o.prev
    · rw [if_pos hjp, if_pos hjp, ← hjp, if_neg hne]
    · rw [if_neg hjp, if_neg hjp]

theorem order_enqueue_self (b : FastBook P W) {idx : UInt32} {o : FastOrder} (hne : idx ≠ o.prev) :
    (b.enqueue idx o).order idx = o := by
  unfold enqueue
  dsimp only
  split
  · rw [order_setOrder, if_neg hne, order_setOrder, if_pos rfl]
  · rw [order_setOrder, if_pos rfl]

theorem dequeue_eq (b : FastBook P W) (idx : UInt32) (o : FastOrder) :
    b.dequeue idx o = { b with pool := (b.dequeue idx o).pool } := by
  unfold dequeue
  dsimp only
  split_ifs <;> rfl

theorem order_dequeue (b : FastBook P W) {idx j : UInt32} (o : FastOrder) (hj : j ≠ kNoOrder)
    (hne : j ≠ idx) :
    (b.dequeue idx o).order j =
      { b.order j with
        next := if j = o.prev then o.next else (b.order j).next
        prev := if j = o.next then o.prev else (b.order j).prev } := by
  -- what the first of the two writes leaves
  obtain ⟨c, hc, hcj⟩ : ∃ c : FastBook P W,
      (if o.prev ≠ kNoOrder then b.setOrder o.prev { b.order o.prev with next := o.next } else b) = c ∧
        c.order j = { b.order j with next := if j = o.prev then o.next else (b.order j).next } := by
    refine ⟨_, rfl, ?_⟩
    by_cases hp : o.prev = kNoOrder
    · rw [if_neg (not_not.mpr hp), if_neg fun hc => hj (hc.trans hp)]
    · rw [if_pos hp, order_setOrder]
      by_cases hjp : j = o.prev
      · rw [if_pos hjp, if_pos hjp, hjp]
      · rw [if_neg hjp, if_neg hjp]
  unfold dequeue
  dsimp only
  rw [hc, order_setOrder, if_neg hne]
  by_cases hn : o.next = kNoOrder
  · have hjn : j ≠ o.next := fun hc => hj (hc.trans hn)
    rw [if_neg (not_not.mpr hn), hcj]
    simp only [if_neg hjn]
  · rw [if_pos hn, order_setOrder]
    by_cases hjn : j = o.next
    · have hcn : c.order o.next = c.order j := by rw [hjn]
      rw [if_pos hjn, hcn, hcj]
      simp only [if_pos hjn]
    · rw [if_neg hjn, hcj]
      simp only [if_neg hjn]

namespace Core

/-! ## A slot leaves its queue -/

theorem unlink_eq (h : Core b A slot F) (he : e ∈ A.orders) :
    b.unlink (slot e.ref) = (b.dequeue (slot e.ref) (b.order (slot e.ref))).setSide e.locate e.side
      (((b.half e.locate e.buy).write
          (removed ((b.half e.locate e.buy).levelAt W e.price) (b.order (slot e.ref)))
          ((b.half e.locate e.buy).home W e.price)).dropIfEmpty W e.price
        (removed ((b.half e.locate e.buy).levelAt W e.price) (b.order (slot e.ref)))) := by
  have hst := h.stores e he
  unfold unlink
  dsimp only
  rw [h.mutableLevel_eq he hst.locate_eq hst.side_eq hst.price_eq]
  dsimp only
  rw [hst.locate_eq, hst.side_eq, hst.price_eq, side_eq]
  rfl

/-- What `unlink` and `release` leave: one side written, the slot in front of the free list, and the
neighbours of the slot linked to each other. -/
theorem release_unlink (h : Core b A slot F) (he : e ∈ A.orders) {x : UInt32} (hx : slot e.ref = x) :
    ∃ pool', (b.unlink x).release x =
      { b.setSide e.locate e.side
          (((b.half e.locate e.buy).write
              (removed ((b.half e.locate e.buy).levelAt W e.price) (b.order x))
              ((b.half e.locate e.buy).home W e.price)).dropIfEmpty W e.price
            (removed ((b.half e.locate e.buy).levelAt W e.price) (b.order x))) with
        pool := pool', freeHead := x } ∧
      (∀ i, i ≠ kNoOrder → i ≠ x → pool' i.toNat =
        { b.order i with
          next := if i = (b.order x).prev then (b.order x).next else (b.order i).next
          prev := if i = (b.order x).next then (b.order x).prev else (b.order i).prev }) ∧
      (pool' x.toNat).next = b.freeHead := by
  subst hx
  have hunlink := h.unlink_eq he
  rw [dequeue_eq] at hunlink
  refine ⟨((b.unlink (slot e.ref)).release (slot e.ref)).pool, ?_, fun i hi0 hix => ?_, ?_⟩
  · rw [hunlink]; rfl
  · have hrel : ((b.unlink (slot e.ref)).release (slot e.ref)).order i =
        (b.unlink (slot e.ref)).order i := by
      refine (order_setOrder _ (slot e.ref) i _).trans ?_
      rw [if_neg hix]
    have hdeq : (b.unlink (slot e.ref)).order i =
        (b.dequeue (slot e.ref) (b.order (slot e.ref))).order i := by rw [hunlink]; rfl
    exact hrel.trans (hdeq.trans (order_dequeue b _ hi0 hix))
  · have hrel : (((b.unlink (slot e.ref)).release (slot e.ref)).order (slot e.ref)).next =
        (b.unlink (slot e.ref)).freeHead := by
      refine (congrArg FastOrder.next (order_setOrder _ (slot e.ref) (slot e.ref) _)).trans ?_
      rw [if_pos rfl]
    exact hrel.trans (by rw [hunlink]; rfl)

/-- A live order leaves its queue and its slot goes to the free list. -/
theorem retire (h : Core b A slot F) (he : e ∈ A.orders) :
    let b' := (b.unlink (slot e.ref)).release (slot e.ref)
    Core b' (A.drop e.ref) slot (slot e.ref :: F) ∧
      (∀ l d q, (b'.levelAt l d q).shares =
        if e.restsAt l d q = true ∧ (A.drop e.ref).level l d q = [] ∧ (b.half l d).inWindow W q = none
        then 0 else (b.levelAt l d q).shares) ∧
      b'.index = b.index ∧ b'.cfg = b.cfg ∧ b'.counters = b.counters := by
  set x := slot e.ref with hx
  set t := b.half e.locate e.buy with ht
  set lvl := removed (t.levelAt W e.price) (b.order x) with hlvl
  set s := (t.write lvl (t.home W e.price)).dropIfEmpty W e.price lvl with hs
  have hx0 : x ≠ kNoOrder := h.slot_ne he
  obtain ⟨pool', hb', hpool, hfree⟩ := h.release_unlink he hx.symm
  obtain ⟨pre, post, hsplit⟩ := List.append_of_mem (Book.mem_own_level he)
  have hunique : ((pre ++ e :: post).map Entry.ref).Nodup := by
    rw [← hsplit]; exact Book.unique_sublist A.unique List.filter_sublist
  have hown : (A.drop e.ref).level e.locate e.buy e.price = pre ++ post := by
    rw [Book.level_drop, hsplit, Book.filter_drop_append hunique]
  have hq := h.queue e.locate e.buy e.price
  have hne : (t.levelAt W e.price).orders ≠ 0 := fun hc =>
    List.ne_nil_of_mem (Book.mem_own_level he) (h.orders_eq_zero.mp hc)
  obtain ⟨hvalid, hlev⟩ := (h.valid e.locate e.buy).dropIfEmpty hne lvl
  change FastSide.Valid W s at hvalid
  -- the neighbours are in the queue that the slot leaves
  have hnb := hq.neighbours (x := x) (List.mem_map.mpr ⟨e, Book.mem_own_level he, rfl⟩)
  have houter : ∀ i, i ≠ kNoOrder → i ≠ x →
      (i ∉ (A.level e.locate e.buy e.price).map fun f => slot f.ref) → pool' i.toNat = b.order i := by
    intro i hi0 hix hout
    rw [hpool i hi0 hix, if_neg, if_neg]
    · rintro rfl; exact hout (hnb.1.resolve_left hi0)
    · rintro rfl; exact hout (hnb.2.resolve_left hi0)
  -- the queue that the slot leaves
  have hqueue : Queue pool' lvl (((A.drop e.ref).level e.locate e.buy e.price).map fun f => slot f.ref) := by
    rw [hown, List.map_append]
    rw [hsplit, List.map_append, List.map_cons] at hq
    refine hq.remove (fun i hi0 hix => ?_) _
    rw [hpool i hi0 hix]
    exact ⟨rfl, rfl⟩
  have hempty : lvl.orders = 0 ↔ (A.drop e.ref).level e.locate e.buy e.price = [] := by
    rw [hqueue.orders_eq_zero, List.map_eq_nil_iff]
  have hat : ∀ l d q, (b.setSide e.locate e.side s).levelAt l d q =
      if e.restsAt l d q = true then
        if lvl.orders = 0 ∧ t.inWindow W e.price = none then {} else lvl
      else b.levelAt l d q := levelAt_setSide hlev
  dsimp only
  rw [hb']
  refine ⟨⟨fun f hf => ?_, fun f hf => ?_, fun l d => ?_, fun l d p => ?_, ⟨rfl, hx0, ?_⟩, ?_,
    fun i => ?_, fun f hf => ?_, fun n hn => ?_⟩, fun l d q => ?_, rfl, rfl, rfl⟩
  · obtain ⟨hfA, hfr⟩ := Book.mem_drop.mp hf
    have hfx : slot f.ref ≠ x := fun hc => hfr (congrArg Entry.ref (h.slot_inj hfA he hc))
    have hpf := hpool _ (h.slot_ne hfA) hfx
    refine (h.stores f hfA).congr rfl ?_ ?_ ?_ ?_
    all_goals unfold order; dsimp only; rw [hpf]; rfl
  · exact h.locate_lt f (Book.mem_drop.mp hf).1
  · exact h.valid_setSide hvalid l d
  · change Queue pool' ((b.setSide e.locate e.side s).levelAt l d p) _
    rw [hat]
    by_cases hr : e.restsAt l d p = true
    · obtain ⟨rfl, rfl, rfl⟩ := Entry.restsAt_iff.mp hr
      rw [if_pos hr]
      split
      · rename_i hc
        rw [hempty.mp hc.1]
        exact Queue.default pool'
      · exact hqueue
    · rw [if_neg hr, Book.level_drop_of_not_restsAt (Book.find_eq_some.mpr ⟨he, rfl⟩) hr]
      refine (h.queue l d p).congr (fun i hi => ?_) rfl rfl rfl
      obtain ⟨⟨f, hf, hfi⟩, -⟩ := h.of_mem_queue hi
      have hother := h.notMem_queue hi hr
      have hix : i ≠ x := fun hc => hother (hc ▸ List.mem_map.mpr ⟨e, Book.mem_own_level he, rfl⟩)
      rw [houter i (hfi ▸ h.slot_ne hf) hix hother]
      exact ⟨rfl, rfl⟩
  · change Stack (fun i => (pool' i.toNat).next) kNoOrder (pool' x.toNat).next F
    rw [hfree]
    refine h.free.congr fun i hi => ?_
    have hi0 : i ≠ kNoOrder := ((h.slots i).mp (.inl hi)).1
    have hix : i ≠ x := by rintro rfl; exact h.disjoint e he hi
    rw [houter i hi0 hix (h.free_notMem_queue hi)]
  · exact List.nodup_cons.mpr ⟨h.disjoint e he, h.nodup⟩
  · refine Iff.trans ?_ (h.slots i)
    rw [List.mem_cons]
    constructor
    · rintro ((rfl | hi) | ⟨f, hf, hi⟩)
      · exact .inr ⟨e, he, rfl⟩
      · exact .inl hi
      · exact .inr ⟨f, (Book.mem_drop.mp hf).1, hi⟩
    · rintro (hi | ⟨f, hf, hi⟩)
      · exact .inl (.inr hi)
      · by_cases hfe : f.ref = e.ref
        · exact .inl (.inl (by rw [← hi, hfe]))
        · exact .inr ⟨f, Book.mem_drop.mpr ⟨hf, hfe⟩, hi⟩
  · obtain ⟨hfA, hfr⟩ := Book.mem_drop.mp hf
    rw [List.mem_cons, not_or]
    exact ⟨fun hc => hfr (congrArg Entry.ref (h.slot_inj hfA he hc)), h.disjoint f hfA⟩
  · exact h.beyond_setSide e.locate e.side s n hn
  · change ((b.setSide e.locate e.side s).levelAt l d q).shares = _
    rw [hat]
    by_cases hr : e.restsAt l d q = true
    · obtain ⟨rfl, rfl, rfl⟩ := Entry.restsAt_iff.mp hr
      rw [if_pos hr]
      simp only [hr, true_and, hempty, ← ht]
      split <;> rfl
    · rw [if_neg hr, if_neg fun hc => hr hc.1]

/-! ## A slot enters a queue -/

/-- What `link` leaves: one side written, the order in its slot, and the old tail of the level linked to
it. -/
theorem link_eq (b : FastBook P W) (e : Entry) {r : FastSide × Home} {o : FastOrder} {lvl : FastLevel}
    (hr : (b.half e.locate e.buy).levelFor W (if e.side = kBuy then kBuy else kSell) e.price = r)
    (hlvl : r.1.read r.2 = lvl)
    (ho : o = ⟨kNoOrder, lvl.tail, e.shares, e.price, e.locate, e.side⟩) (hit : i ≠ o.prev) :
    ∃ pool' c,
      ({ b with freeHead := (b.order i).next } : FastBook P W).link i e.locate e.ref e.side e.price
          e.shares =
        { b.setSide e.locate e.side
            ((r.1.write (pushed lvl i e.shares) r.2).markOccupied (lvl.orders == 0) r.2) with
          pool := pool', freeHead := (b.order i).next, counters := c,
          refs := Function.update b.refs i.toNat e.ref } ∧
      pool' i.toNat = o ∧
      (∀ j, j ≠ kNoOrder → j ≠ i → pool' j.toNat =
        { b.order j with next := if j = o.prev then i else (b.order j).next }) ∧
      c.indexFailures = b.counters.indexFailures ∧ c.poolExhausted = b.counters.poolExhausted ∧
      c.symbolOverflow = b.counters.symbolOverflow := by
  subst hr hlvl ho
  have hside : ({ b with freeHead := (b.order i).next } : FastBook P W).side e.locate e.side =
      b.half e.locate e.buy := side_eq ..
  unfold FastBook.link
  dsimp only
  rw [hside, enqueue_eq]
  refine ⟨_, _, rfl, ?_, fun j hj0 hji => ?_, ?_⟩
  · exact order_enqueue_self _ hit
  · exact order_enqueue _ _ hj0 hji
  · exact ⟨rfl, rfl, rfl⟩

/-- A slot of the free list is taken for a new order, which goes to the back of its level. -/
theorem link (h : Core b A slot (i :: F)) (hnew : ∀ f ∈ A.orders, f.ref ≠ e.ref)
    (hl : e.locate.toNat < b.cfg.maxSymbols) :
    let b₁ : FastBook P W := { b with freeHead := (b.order i).next }
    let b' := b₁.link i e.locate e.ref e.side e.price e.shares
    let r := (b.half e.locate e.buy).levelFor W (if e.side = kBuy then kBuy else kSell) e.price
    Core b' (A.place e) (Function.update slot e.ref i) F ∧
      (∀ l d q, (b'.levelAt l d q).shares =
        if e.restsAt l d q = true then (b.levelAt l d q).shares + e.shares.toUInt64
        else (b.levelAt l d q).shares) ∧
      (b'.half e.locate e.buy).home W e.price = r.2 ∧
      b'.index = b.index ∧ b'.cfg = b.cfg ∧ b'.counters.indexFailures = b.counters.indexFailures ∧
      b'.counters.poolExhausted = b.counters.poolExhausted ∧
      b'.counters.symbolOverflow = b.counters.symbolOverflow := by
  set t := b.half e.locate e.buy with ht
  set r := t.levelFor W (if e.side = kBuy then kBuy else kSell) e.price with hr
  have hi0 : i ≠ kNoOrder := ((h.slots i).mp (.inl (by simp))).1
  have hiF : i ∉ F := (List.nodup_cons.mp h.nodup).1
  have hfreeA : ∀ f ∈ A.orders, slot f.ref ≠ i := fun f hf hc => h.disjoint f hf (by simp [hc])
  have hq := h.queue e.locate e.buy e.price
  have hdrop : A.drop e.ref = A := Book.drop_of_absent hnew
  have hiL : i ∉ (A.level e.locate e.buy e.price).map fun f => slot f.ref :=
    h.free_notMem_queue List.mem_cons_self
  have hroom : (t.levelAt W e.price).orders + 1 ≠ 0 := hq.orders_succ_ne_zero hi0 hiL
  obtain ⟨hread, hfor⟩ := (h.valid e.locate e.buy).levelFor
    (pushed (t.levelAt W e.price) i e.shares) (if e.side = kBuy then kBuy else kSell) e.price hroom
  rw [← ht, ← hr] at hread hfor
  rw [hread] at hfor
  obtain ⟨hhome, hvalid, hlev⟩ := hfor
  set s := (r.1.write (pushed (t.levelAt W e.price) i e.shares) r.2).markOccupied
    ((t.levelAt W e.price).orders == 0) r.2 with hs
  change s.home W e.price = r.2 at hhome
  change s.Valid W at hvalid
  set o : FastOrder :=
    ⟨kNoOrder, (t.levelAt W e.price).tail, e.shares, e.price, e.locate, e.side⟩ with ho
  have htail := hq.tail_mem
  have hit : i ≠ o.prev := by
    rintro hc
    rcases htail with ht0 | htm
    · exact hi0 (hc.trans ht0)
    · exact hiL (hc ▸ htm)
  obtain ⟨pool', c, hb', hself, hpool, hc1, hc2, hc3⟩ :=
    link_eq b e rfl hread ho hit
  have hat : ∀ l d q, (b.setSide e.locate e.side s).levelAt l d q =
      if e.restsAt l d q = true then pushed (t.levelAt W e.price) i e.shares
      else b.levelAt l d q := levelAt_setSide hlev
  have hslot : ∀ f ∈ A.orders, Function.update slot e.ref i f.ref = slot f.ref :=
    fun f hf => Function.update_of_ne (hnew f hf) ..
  have hmem : ∀ f, f ∈ (A.place e).orders ↔ f ∈ A.orders ∨ f = e := fun f => Book.mem_place hnew
  dsimp only
  rw [hb']
  refine ⟨⟨fun f hf => ?_, fun f hf => ?_, fun l d => ?_, fun l d p => ?_, ?_,
    (List.nodup_cons.mp h.nodup).2, fun j => ?_, fun f hf => ?_, fun n hn => ?_⟩, fun l d q => ?_, ?_,
    rfl, rfl, hc1, hc2, hc3⟩
  · rcases (hmem f).mp hf with hfA | rfl
    · rw [hslot f hfA]
      have hne := hfreeA f hfA
      have hpf := hpool _ (h.slot_ne hfA) hne
      refine (h.stores f hfA).congr ?_ ?_ ?_ ?_ ?_
      · exact Function.update_of_ne (fun hc => hne (UInt32.toNat_inj.mp hc)) ..
      all_goals unfold order; dsimp only; rw [hpf]; rfl
    · rw [Function.update_self]
      refine ⟨Function.update_self .., ?_, ?_, ?_, ?_⟩
      all_goals unfold order; dsimp only; rw [hself]
  · rcases (hmem f).mp hf with hfA | rfl
    · exact h.locate_lt f hfA
    · exact hl
  · exact h.valid_setSide hvalid l d
  · change Queue pool' ((b.setSide e.locate e.side s).levelAt l d p) _
    rw [hat, Book.level_place, hdrop, List.map_append,
      List.map_congr_left fun f hf => hslot f (Book.mem_level.mp hf).1]
    by_cases hrest : e.restsAt l d p = true
    · obtain ⟨rfl, rfl, rfl⟩ := Entry.restsAt_iff.mp hrest
      rw [if_pos hrest, if_pos hrest, List.map_singleton, Function.update_self]
      refine hq.push hi0 hiL ?_ ?_ (fun j hj0 hji => ?_) _
      · rw [hself]
      · rw [hself]; rfl
      · rw [hpool j hj0 hji]; exact ⟨rfl, rfl⟩
    · rw [if_neg hrest, if_neg hrest, List.map_nil, List.append_nil]
      refine (h.queue l d p).congr (fun j hj => ?_) rfl rfl rfl
      obtain ⟨⟨f, hf, hfj⟩, -⟩ := h.of_mem_queue hj
      have hj0 : j ≠ kNoOrder := hfj ▸ h.slot_ne hf
      -- the old tail is a slot of another level
      have hjt : j ≠ o.prev := by
        rintro rfl
        exact h.notMem_queue hj hrest (htail.resolve_left hj0)
      rw [hpool j hj0 (hfj ▸ hfreeA f hf), if_neg hjt]
      exact ⟨rfl, rfl⟩
  · obtain ⟨-, -, hrest⟩ := h.free
    change Stack (fun j => (pool' j.toNat).next) kNoOrder (b.order i).next F
    refine hrest.congr fun j hj => ?_
    have hj0 : j ≠ kNoOrder := ((h.slots j).mp (.inl (by simp [hj]))).1
    have hji : j ≠ i := by rintro rfl; exact hiF hj
    have hjt : j ≠ o.prev := by
      rintro rfl
      exact h.free_notMem_queue (List.mem_cons_of_mem _ hj) (htail.resolve_left hj0)
    rw [hpool j hj0 hji, if_neg hjt]
  · refine Iff.trans ?_ (h.slots j)
    rw [List.mem_cons]
    constructor
    · rintro (hj | ⟨f, hf, hj⟩)
      · exact .inl (.inr hj)
      · rcases (hmem f).mp hf with hfA | rfl
        · exact .inr ⟨f, hfA, by rw [← hj, hslot f hfA]⟩
        · rw [Function.update_self] at hj
          exact .inl (.inl hj.symm)
    · rintro ((rfl | hj) | ⟨f, hf, hj⟩)
      · exact .inr ⟨e, (hmem e).mpr (.inr rfl), Function.update_self ..⟩
      · exact .inl hj
      · exact .inr ⟨f, (hmem f).mpr (.inl hf), by rw [hslot f hf, hj]⟩
  · rcases (hmem f).mp hf with hfA | rfl
    · rw [hslot f hfA]
      exact fun hc => h.disjoint f hfA (List.mem_cons_of_mem _ hc)
    · rw [Function.update_self]; exact hiF
  · exact h.beyond_setSide e.locate e.side s n hn
  · change ((b.setSide e.locate e.side s).levelAt l d q).shares = _
    rw [hat]
    split
    · rename_i hrest
      obtain ⟨rfl, rfl, rfl⟩ := Entry.restsAt_iff.mp hrest
      rfl
    · rfl
  · change ((b.setSide e.locate e.side s).half e.locate e.buy).home W e.price = r.2
    rw [half_setSide, if_pos ⟨rfl, rfl⟩, hhome]

/-! ## Moving windows -/

theorem recenterSide (h : Core b A slot F) (locate : UInt16) (side : UInt8) :
    Core (b.recenterSide locate side) A slot F ∧
      (Exact b A → Exact (b.recenterSide locate side) A) := by
  unfold FastBook.recenterSide
  rw [side_eq]
  cases hm : (b.half locate (side == kBuy)).maybeRecenter W side with
  | none => exact ⟨h, fun hx => hx⟩
  | some r =>
    obtain ⟨s, n⟩ := r
    obtain ⟨hvalid, hlev⟩ := (h.valid locate (side == kBuy)).maybeRecenter hm
    have hempty : ∀ q, (s.levelAt W q) = if A.level locate (side == kBuy) q = [] then {}
        else b.levelAt locate (side == kBuy) q := fun q => by
      rw [hlev]
      exact if_congr h.orders_eq_zero rfl rfl
    refine ⟨(h.setSide hvalid fun q => ?_).congr rfl rfl rfl rfl rfl, fun hx l d q => ?_⟩
    · rw [hempty]
      split
      · rename_i hnil; rw [hnil]; exact Queue.default b.pool
      · exact h.queue locate (side == kBuy) q
    · change ((b.setSide locate side s).levelAt l d q).shares = _
      unfold levelAt
      rw [half_setSide]
      split
      · rename_i hc
        obtain ⟨rfl, rfl⟩ := hc
        rw [hempty]
        split
        · rename_i hnil; rw [hnil]; rfl
        · exact hx _ _ _
      · exact hx l d q

theorem checkBbo (h : Core b A slot F) (locate : UInt16) :
    Core (b.checkBbo locate) A slot F ∧ (Exact b A → Exact (b.checkBbo locate) A) := by
  have hm : Core (b.maybeRecenter locate) A slot F ∧
      (Exact b A → Exact (b.maybeRecenter locate) A) := by
    unfold FastBook.maybeRecenter
    split
    · exact ⟨h, fun hx => hx⟩
    · have h₁ := h.recenterSide locate kBuy
      have h₂ := h₁.1.recenterSide locate kSell
      exact ⟨h₂.1, fun hx => h₂.2 (h₁.2 hx)⟩
  unfold FastBook.checkBbo
  dsimp only
  split
  · split_ifs
    · exact ⟨hm.1.congr rfl rfl rfl rfl rfl, hm.2⟩
    · exact ⟨hm.1.congr rfl rfl rfl rfl rfl, hm.2⟩
    · exact hm
  · exact hm

end Core

end FastBook

end Carteret
