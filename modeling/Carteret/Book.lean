import Carteret.Wire

/-!
# What a book is for

A book holds the live orders in arrival order. `Book.step` is the effect of a message; the two books of the
source are compared with it and, through it, with each other.

1. Messages carry the fields that the books and the simulator read.
2. `Book` keeps references unique by construction.
3. A level is what rests at one symbol, side and price, in arrival order; a side byte other than `'B'`
   is the selling side.
-/

namespace Carteret

abbrev Ref := UInt64

abbrev Price := UInt32

abbrev Shares := UInt32

/-- `'B'`. -/
def kBuy : UInt8 := 66

/-- `'S'`. -/
def kSell : UInt8 := 83

/-! ## Messages -/

/-- The fields that every message starts with. -/
structure Header where
  locate : UInt16
  ts : BitVec 48
  deriving DecidableEq

structure SystemEvent extends Header where
  eventCode : UInt8
  deriving DecidableEq

structure StockTradingAction extends Header where
  tradingState : UInt8
  deriving DecidableEq

structure OperationalHalt extends Header where
  marketCode : UInt8
  haltAction : UInt8
  deriving DecidableEq

/-- `stock` and `attribution` are without the padding. -/
structure AddOrder extends Header where
  orderRef : Ref
  side : UInt8
  shares : Shares
  stock : Bytes
  price : Price
  deriving DecidableEq

structure AddOrderMpid extends AddOrder where
  attribution : Bytes
  deriving DecidableEq

structure OrderExecuted extends Header where
  orderRef : Ref
  executedShares : Shares
  deriving DecidableEq

structure OrderExecutedPrice extends Header where
  orderRef : Ref
  executedShares : Shares
  deriving DecidableEq

structure OrderCancel extends Header where
  orderRef : Ref
  cancelledShares : Shares
  deriving DecidableEq

structure OrderDelete extends Header where
  orderRef : Ref
  deriving DecidableEq

structure OrderReplace extends Header where
  oldOrderRef : Ref
  newOrderRef : Ref
  shares : Shares
  price : Price
  deriving DecidableEq

structure StockDirectory extends Header where
  marketCategory : UInt8
  deriving DecidableEq

structure Trade extends Header where
  price : Price
  deriving DecidableEq

structure CrossTrade extends Header where
  shares : UInt64
  deriving DecidableEq

inductive Message
  | systemEvent (v : SystemEvent)
  | stockTradingAction (v : StockTradingAction)
  | operationalHalt (v : OperationalHalt)
  | stockDirectory (v : StockDirectory)
  | addOrder (v : AddOrder)
  | addOrderMpid (v : AddOrderMpid)
  | orderExecuted (v : OrderExecuted)
  | orderExecutedPrice (v : OrderExecutedPrice)
  | orderCancel (v : OrderCancel)
  | orderDelete (v : OrderDelete)
  | orderReplace (v : OrderReplace)
  | trade (v : Trade)
  | brokenTrade (v : Header)
  | crossTrade (v : CrossTrade)
  deriving DecidableEq

/-- The answer of `level()` in either book. -/
structure LevelSnapshot where
  present : Bool := false
  shares : UInt64 := 0
  orders : UInt32 := 0
  fifo : List Ref := []
  deriving DecidableEq

/-- The answer of `depth_at()` in either book. -/
structure Depth where
  present : Bool := false
  shares : UInt64 := 0
  orders : UInt32 := 0
  deriving DecidableEq

/-! ## Orders -/

/-- A live order. -/
structure Entry where
  ref : Ref
  locate : UInt16
  side : UInt8
  price : Price
  shares : Shares
  stock : Bytes
  attribution : Bytes
  deriving DecidableEq

/-- What a removal of `qty` shares takes. -/
def taken (qty shares : Shares) : Shares := if qty > shares then shares else qty

theorem taken_le (qty shares : Shares) : taken qty shares ≤ shares := by
  unfold taken
  split
  · exact UInt32.le_refl shares
  · rename_i hle; exact UInt32.not_lt.mp hle

theorem toNat_sub_taken (qty shares : Shares) :
    (shares - taken qty shares).toNat = shares.toNat - qty.toNat := by
  rw [UInt32.toNat_sub_of_le _ _ (taken_le qty shares)]
  unfold taken
  split
  · rename_i hgt
    have hgt' : shares.toNat < qty.toNat := hgt
    omega
  · rfl

namespace Entry

/-- The order rests on the buying side. -/
def buy (e : Entry) : Bool := e.side == kBuy

/-- The order rests at this symbol, side and price. -/
def restsAt (locate : UInt16) (buy : Bool) (price : Price) (e : Entry) : Bool :=
  e.locate == locate && e.buy == buy && e.price == price

theorem restsAt_iff {locate : UInt16} {buy : Bool} {price : Price} {e : Entry} :
    e.restsAt locate buy price = true ↔ e.locate = locate ∧ e.buy = buy ∧ e.price = price := by
  simp [restsAt, and_assoc]

/-- The order after `qty` shares are taken from the order `ref`; `none` when nothing is left of it. -/
def reduce (ref : Ref) (qty : Shares) (e : Entry) : Option Entry :=
  if e.ref = ref then
    if e.shares - taken qty e.shares = 0 then none
    else some { e with shares := e.shares - taken qty e.shares }
  else some e

theorem ref_of_reduce {ref : Ref} {qty : Shares} {e e' : Entry} (h : e.reduce ref qty = some e') :
    e'.ref = e.ref := by
  unfold reduce at h
  split at h
  · split at h
    · cases h
    · obtain rfl := Option.some.inj h; rfl
  · obtain rfl := Option.some.inj h; rfl

theorem reduce_of_ne {ref : Ref} {qty : Shares} {e : Entry} (h : e.ref ≠ ref) :
    e.reduce ref qty = some e := if_neg h

end Entry

/-! ## The book -/

/-- The live orders in arrival order. -/
structure Book where
  orders : List Entry
  unique : (orders.map Entry.ref).Nodup

namespace Book

/-- No orders. -/
def empty : Book := ⟨[], List.nodup_nil⟩

/-- The live order with this reference. -/
def find (b : Book) (ref : Ref) : Option Entry := b.orders.find? fun e => e.ref == ref

theorem unique_sublist {es fs : List Entry} (h : (es.map Entry.ref).Nodup) (hs : fs.Sublist es) :
    (fs.map Entry.ref).Nodup := h.sublist (hs.map _)

/-- A live order with this reference is dropped. -/
def drop (b : Book) (ref : Ref) : Book :=
  ⟨b.orders.filter fun e => e.ref != ref, unique_sublist b.unique List.filter_sublist⟩

/-- The order goes to the back; a live order with its reference is dropped first. -/
def place (b : Book) (e : Entry) : Book where
  orders := (b.drop e.ref).orders ++ [e]
  unique := by
    rw [List.map_append, List.nodup_append]
    refine ⟨(b.drop e.ref).unique, by simp, ?_⟩
    intro r hr r' hr'
    obtain ⟨f, hf, rfl⟩ := List.mem_map.mp hr
    obtain rfl : r' = e.ref := by simpa using hr'
    simpa using (List.mem_filter.mp hf).2

theorem map_ref_filterMap_reduce (ref : Ref) (qty : Shares) (es : List Entry) :
    ((es.filterMap (Entry.reduce ref qty)).map Entry.ref).Sublist (es.map Entry.ref) := by
  induction es with
  | nil => exact List.Sublist.refl _
  | cons e es ih =>
    rw [List.filterMap_cons, List.map_cons]
    cases h : e.reduce ref qty with
    | none => exact ih.cons _
    | some e' => rw [List.map_cons, Entry.ref_of_reduce h]; exact ih.cons_cons _

/-- Shares are taken from the order, which goes when none are left. -/
def reduce (b : Book) (ref : Ref) (qty : Shares) : Book :=
  ⟨b.orders.filterMap (Entry.reduce ref qty),
    b.unique.sublist (map_ref_filterMap_reduce ref qty b.orders)⟩

/-- The order that an add message brings. -/
def added (v : AddOrder) (attribution : Bytes) : Entry where
  ref := v.orderRef
  locate := v.locate
  side := v.side
  price := v.price
  shares := v.shares
  stock := fillAlpha 8 v.stock
  attribution := fillAlpha 4 attribution

/-- The order that replaces `e`. -/
def replacement (v : OrderReplace) (e : Entry) : Entry :=
  { e with ref := v.newOrderRef, price := v.price, shares := v.shares }

/-- The effect of a message on the live orders. -/
def step (b : Book) : Message → Book
  | .addOrder v => b.place (added v [])
  | .addOrderMpid v => b.place (added v.toAddOrder v.attribution)
  | .orderExecuted v => b.reduce v.orderRef v.executedShares
  | .orderExecutedPrice v => b.reduce v.orderRef v.executedShares
  | .orderCancel v => b.reduce v.orderRef v.cancelledShares
  | .orderDelete v => b.drop v.orderRef
  | .orderReplace v =>
    match b.find v.oldOrderRef with
    | none => b
    | some e => (b.drop v.oldOrderRef).place (replacement v e)
  | _ => b

/-- What rests at one symbol, side and price, in arrival order. -/
def level (b : Book) (locate : UInt16) (buy : Bool) (price : Price) : List Entry :=
  b.orders.filter (Entry.restsAt locate buy price)

/-- The shares of some orders, unbounded. -/
def total (es : List Entry) : ℕ := (es.map fun e => e.shares.toNat).sum

/-- The answer of `level()` for the orders `es` of a level, with the widths of the source. -/
def snapshotOf (es : List Entry) : LevelSnapshot where
  present := !es.isEmpty
  shares := UInt64.ofNat (total es)
  orders := UInt32.ofNat es.length
  fifo := es.map Entry.ref

/-- `price` is the best of the symbol's side: the highest bid or the lowest offer. -/
def IsBest (b : Book) (locate : UInt16) (buy : Bool) (price : Price) : Prop :=
  (∃ e ∈ b.orders, e.locate = locate ∧ e.buy = buy ∧ e.price = price) ∧
    ∀ e ∈ b.orders, e.locate = locate → e.buy = buy →
      if buy then e.price ≤ price else price ≤ e.price

/-! ## Lemmas on the book -/

variable {b : Book} {e f : Entry} {ref : Ref} {qty : Shares} {locate : UInt16} {buy : Bool}
  {price : Price}

theorem eq_of_ref_eq (he : e ∈ b.orders) (hf : f ∈ b.orders) (h : e.ref = f.ref) : e = f :=
  List.inj_on_of_nodup_map b.unique he hf h

theorem find_eq_some : b.find ref = some e ↔ e ∈ b.orders ∧ e.ref = ref := by
  constructor
  · intro h
    exact ⟨List.mem_of_find?_eq_some h, by simpa using List.find?_some h⟩
  · rintro ⟨he, rfl⟩
    cases h : b.find e.ref with
    | none =>
      have := List.find?_eq_none.mp h e he
      simp at this
    | some f =>
      have hf : f ∈ b.orders ∧ f.ref = e.ref :=
        ⟨List.mem_of_find?_eq_some h, by simpa using List.find?_some h⟩
      rw [eq_of_ref_eq hf.1 he hf.2]

theorem find_eq_none : b.find ref = none ↔ ∀ e ∈ b.orders, e.ref ≠ ref := by
  simp [find, List.find?_eq_none]

theorem mem_drop : e ∈ (b.drop ref).orders ↔ e ∈ b.orders ∧ e.ref ≠ ref := by
  simp [drop, List.mem_filter]

theorem drop_of_absent (h : ∀ e ∈ b.orders, e.ref ≠ ref) : b.drop ref = b := by
  have hall : b.orders.filter (fun e => e.ref != ref) = b.orders :=
    List.filter_eq_self.mpr fun e he => by simpa using h e he
  cases b
  simp only [drop, Book.mk.injEq]
  exact hall

theorem orders_place (b : Book) (e : Entry) :
    (b.place e).orders = (b.drop e.ref).orders ++ [e] := rfl

theorem reduce_of_absent (h : ∀ e ∈ b.orders, e.ref ≠ ref) : b.reduce ref qty = b := by
  have hall : b.orders.filterMap (Entry.reduce ref qty) = b.orders := by
    rw [List.filterMap_congr (g := some) fun e he => Entry.reduce_of_ne (h e he)]
    exact List.filterMap_some
  cases b
  simp only [reduce, Book.mk.injEq]
  exact hall

theorem ext_orders {c : Book} (h : b.orders = c.orders) : b = c := by
  cases b; cases c; simpa using h

/-- Placing an order drops what had its reference, so dropping it before makes no difference. -/
theorem place_drop (b : Book) (e : Entry) : (b.drop e.ref).place e = b.place e := by
  have hdd : (b.drop e.ref).drop e.ref = b.drop e.ref :=
    drop_of_absent fun f hf => (mem_drop.mp hf).2
  refine ext_orders ?_
  rw [orders_place, orders_place, hdd]

theorem mem_place (hnew : ∀ f ∈ b.orders, f.ref ≠ e.ref) :
    f ∈ (b.place e).orders ↔ f ∈ b.orders ∨ f = e := by
  rw [orders_place, drop_of_absent hnew]; simp

/-- A new order that is dropped again leaves nothing. -/
theorem drop_place (hnew : ∀ f ∈ b.orders, f.ref ≠ e.ref) : (b.place e).drop e.ref = b := by
  refine ext_orders ?_
  have hall : b.orders.filter (fun f => f.ref != e.ref) = b.orders :=
    List.filter_eq_self.mpr fun f hf => by simpa using hnew f hf
  unfold drop place
  dsimp only
  rw [List.filter_append, drop_of_absent hnew, hall]
  simp

/-! ## Levels under the operations -/

/-- The order's shares are overwritten. -/
def setShares (b : Book) (ref : Ref) (n : Shares) : Book where
  orders := b.orders.map fun e => if e.ref = ref then { e with shares := n } else e
  unique := by
    have h : (b.orders.map fun e => if e.ref = ref then { e with shares := n } else e).map Entry.ref =
        b.orders.map Entry.ref := by
      rw [List.map_map]
      refine List.map_congr_left fun e _ => ?_
      simp only [Function.comp_apply]
      split <;> rfl
    rw [h]
    exact b.unique

/-- Taking shares from a live order drops it or overwrites its shares. -/
theorem reduce_eq (h : b.find ref = some e) :
    b.reduce ref qty = if e.shares - taken qty e.shares = 0 then b.drop ref
      else b.setShares ref (e.shares - taken qty e.shares) := by
  obtain ⟨hmem, href⟩ := find_eq_some.mp h
  have hsame : ∀ f ∈ b.orders, f.ref = ref → f = e := fun f hf hr =>
    eq_of_ref_eq hf hmem (hr.trans href.symm)
  by_cases hz : e.shares - taken qty e.shares = 0
  · rw [if_pos hz]
    refine ext_orders ?_
    unfold reduce drop
    dsimp only
    rw [← List.filterMap_eq_filter]
    refine List.filterMap_congr fun f hf => ?_
    by_cases hr : f.ref = ref
    · obtain rfl := hsame f hf hr
      simp [Entry.reduce, hr, hz, Option.guard]
    · simp [Entry.reduce, hr, Option.guard]
  · rw [if_neg hz]
    refine ext_orders ?_
    unfold reduce setShares
    dsimp only
    rw [← List.filterMap_eq_map]
    refine List.filterMap_congr fun f hf => ?_
    by_cases hr : f.ref = ref
    · obtain rfl := hsame f hf hr
      simp [Entry.reduce, hr, hz]
    · simp [Entry.reduce, hr]

theorem drop_setShares (b : Book) (ref : Ref) (n : Shares) :
    (b.setShares ref n).drop ref = b.drop ref := by
  refine ext_orders ?_
  unfold drop setShares
  dsimp only
  rw [List.filter_map]
  have h : ∀ e : Entry, (((fun e : Entry => e.ref != ref) ∘ fun e : Entry =>
      if e.ref = ref then { e with shares := n } else e) e) = (e.ref != ref) := by
    intro e
    simp only [Function.comp_apply]
    split <;> rfl
  rw [List.filter_congr fun e _ => h e]
  conv_rhs => rw [← List.map_id (b.orders.filter _)]
  refine List.map_congr_left fun e he => ?_
  have hne : e.ref ≠ ref := by simpa using (List.mem_filter.mp he).2
  rw [if_neg hne]
  rfl

theorem find_drop (b : Book) (ref r : Ref) :
    (b.drop ref).find r = if r = ref then none else b.find r := by
  split
  · rename_i h
    exact find_eq_none.mpr fun e he => h ▸ (mem_drop.mp he).2
  · rename_i h
    cases hf : b.find r with
    | none =>
      exact find_eq_none.mpr fun e he => find_eq_none.mp hf e (mem_drop.mp he).1
    | some e =>
      obtain ⟨he, hr⟩ := find_eq_some.mp hf
      exact find_eq_some.mpr ⟨mem_drop.mpr ⟨he, hr ▸ h⟩, hr⟩

theorem find_place (b : Book) (e : Entry) (r : Ref) :
    (b.place e).find r = if r = e.ref then some e else b.find r := by
  have hmem : ∀ f, f ∈ (b.place e).orders ↔ f ∈ (b.drop e.ref).orders ∨ f = e := by
    intro f; simp [place]
  split
  · rename_i h
    exact find_eq_some.mpr ⟨(hmem e).mpr (.inr rfl), h.symm⟩
  · rename_i h
    have hdrop := find_drop b e.ref r
    rw [if_neg h] at hdrop
    rw [← hdrop]
    cases hf : (b.drop e.ref).find r with
    | none =>
      refine find_eq_none.mpr fun f hfm => ?_
      rcases (hmem f).mp hfm with hfm | rfl
      · exact find_eq_none.mp hf f hfm
      · exact fun hc => h hc.symm
    | some f =>
      obtain ⟨hfm, hr⟩ := find_eq_some.mp hf
      exact find_eq_some.mpr ⟨(hmem f).mpr (.inl hfm), hr⟩

theorem find_setShares (b : Book) (ref : Ref) (n : Shares) (r : Ref) :
    (b.setShares ref n).find r =
      (b.find r).map fun e => if e.ref = ref then { e with shares := n } else e := by
  unfold find setShares
  dsimp only
  rw [List.find?_map]
  congr 1
  refine List.find?_congr fun e _ => ?_
  simp only [Function.comp_apply]
  split <;> rfl

theorem level_drop (b : Book) (ref : Ref) (locate : UInt16) (buy : Bool) (price : Price) :
    (b.drop ref).level locate buy price =
      (b.level locate buy price).filter fun e => e.ref != ref :=
  List.filter_comm _ _ _

/-- A level that the dropped order does not rest in stays as it is. -/
theorem level_drop_of_not_restsAt (h : b.find ref = some e)
    (hr : ¬ e.restsAt locate buy price = true) :
    (b.drop ref).level locate buy price = b.level locate buy price := by
  rw [level_drop]
  refine List.filter_eq_self.mpr fun f hf => ?_
  obtain ⟨hfm, hfr⟩ := List.mem_filter.mp hf
  obtain ⟨hem, href⟩ := find_eq_some.mp h
  by_contra hc
  have hfe : f = e := eq_of_ref_eq hfm hem ((by simpa using hc : f.ref = ref).trans href.symm)
  exact hr (hfe ▸ hfr)

theorem level_place (b : Book) (e : Entry) (locate : UInt16) (buy : Bool) (price : Price) :
    (b.place e).level locate buy price = (b.drop e.ref).level locate buy price ++
      if e.restsAt locate buy price then [e] else [] := by
  unfold level place
  dsimp only
  rw [List.filter_append, List.filter_singleton]
  cases e.restsAt locate buy price <;> rfl

theorem level_setShares (b : Book) (ref : Ref) (n : Shares) (locate : UInt16) (buy : Bool)
    (price : Price) :
    (b.setShares ref n).level locate buy price = (b.level locate buy price).map fun e =>
      if e.ref = ref then { e with shares := n } else e := by
  unfold level setShares
  dsimp only
  rw [List.filter_map]
  congr 1
  refine List.filter_congr fun e _ => ?_
  simp only [Function.comp_apply]
  split <;> rfl

/-! ## Totals -/

/-- The shares of some orders, on 64 bits. -/
def sumShares (es : List Entry) : UInt64 := (es.map fun e => e.shares.toUInt64).sum

theorem ofNat_total (es : List Entry) : UInt64.ofNat (total es) = sumShares es := by
  induction es with
  | nil => rfl
  | cons e es ih =>
    have h : total (e :: es) = e.shares.toNat + total es := by simp [total]
    have h' : sumShares (e :: es) = e.shares.toUInt64 + sumShares es := by simp [sumShares]
    have hcast : UInt64.ofNat e.shares.toNat = e.shares.toUInt64 := by
      refine UInt64.toNat_inj.mp ?_
      have := e.shares.toNat_lt
      rw [UInt64.toNat_ofNat_of_lt' (by change _ < 2 ^ 64; omega), UInt32.toNat_toUInt64]
    rw [h, h', UInt64.ofNat_add, ih, hcast]

theorem sumShares_append (es fs : List Entry) :
    sumShares (es ++ fs) = sumShares es + sumShares fs := by
  simp [sumShares, List.sum_append]

theorem ref_ne_of_nodup {pre post : List Entry} (hu : ((pre ++ e :: post).map Entry.ref).Nodup) :
    ∀ f ∈ pre ++ post, f.ref ≠ e.ref := by
  intro f hf hc
  rw [List.map_append, List.map_cons, List.nodup_middle, List.nodup_cons] at hu
  exact hu.1 (by rw [← hc, ← List.map_append]; exact List.mem_map_of_mem hf)

/-- Dropping one order of a list, split at it. -/
theorem filter_drop_append {pre post : List Entry} (hu : ((pre ++ e :: post).map Entry.ref).Nodup) :
    (pre ++ e :: post).filter (fun f => f.ref != e.ref) = pre ++ post := by
  have hne := ref_ne_of_nodup hu
  rw [List.filter_append, List.filter_cons_of_neg (by simp), ← List.filter_append]
  exact List.filter_eq_self.mpr fun f hf => by simpa using hne f hf

theorem length_drop {es : List Entry} (hu : (es.map Entry.ref).Nodup) (he : e ∈ es) :
    (es.filter fun f => f.ref != e.ref).length + 1 = es.length := by
  obtain ⟨pre, post, rfl⟩ := List.append_of_mem he
  rw [filter_drop_append hu]
  simp only [List.length_append, List.length_cons]
  omega

/-- Dropping one order of a list takes its shares off the sum. -/
theorem sumShares_drop {es : List Entry} (hu : (es.map Entry.ref).Nodup) (he : e ∈ es) :
    sumShares (es.filter fun f => f.ref != e.ref) = sumShares es - e.shares.toUInt64 := by
  obtain ⟨pre, post, rfl⟩ := List.append_of_mem he
  have hcons : sumShares (e :: post) = e.shares.toUInt64 + sumShares post := by simp [sumShares]
  rw [filter_drop_append hu, sumShares_append, sumShares_append, hcons]
  grind

/-- Overwriting the shares of one order of a list. -/
theorem sumShares_setShares {es : List Entry} (hu : (es.map Entry.ref).Nodup) (he : e ∈ es)
    (n : Shares) :
    sumShares (es.map fun f => if f.ref = e.ref then { f with shares := n } else f) =
      sumShares es - e.shares.toUInt64 + n.toUInt64 := by
  obtain ⟨pre, post, rfl⟩ := List.append_of_mem he
  have hne := ref_ne_of_nodup hu
  have hkeep : ∀ fs : List Entry, (∀ f ∈ fs, f.ref ≠ e.ref) →
      (fs.map fun f => if f.ref = e.ref then { f with shares := n } else f) = fs := by
    intro fs hfs
    conv_rhs => rw [← List.map_id fs]
    exact List.map_congr_left fun f hf => if_neg (hfs f hf)
  rw [List.map_append, List.map_cons, if_pos rfl,
    hkeep pre fun f hf => hne f (List.mem_append_left _ hf),
    hkeep post fun f hf => hne f (List.mem_append_right _ hf)]
  have hcons : ∀ x : Entry, sumShares (x :: post) = x.shares.toUInt64 + sumShares post := by
    intro x; simp [sumShares]
  rw [sumShares_append, sumShares_append, hcons, hcons]
  grind

/-! ## Level totals under the operations -/

theorem mem_level : e ∈ b.level locate buy price ↔
    e ∈ b.orders ∧ e.restsAt locate buy price = true := List.mem_filter

theorem level_ne_nil_iff : b.level locate buy price ≠ [] ↔
    ∃ e ∈ b.orders, e.locate = locate ∧ e.buy = buy ∧ e.price = price := by
  rw [ne_eq, List.eq_nil_iff_forall_not_mem, not_forall]
  refine exists_congr fun e => ?_
  rw [not_not, mem_level, Entry.restsAt_iff]

theorem mem_own_level (he : e ∈ b.orders) : e ∈ b.level e.locate e.buy e.price :=
  mem_level.mpr ⟨he, Entry.restsAt_iff.mpr ⟨rfl, rfl, rfl⟩⟩

theorem level_unique : ((b.level locate buy price).map Entry.ref).Nodup :=
  unique_sublist b.unique List.filter_sublist

/-- A level that the order does not rest in keeps its orders as they are. -/
theorem level_setShares_of_not_restsAt (h : b.find ref = some e)
    (hr : ¬ e.restsAt locate buy price = true) (n : Shares) :
    (b.setShares ref n).level locate buy price = b.level locate buy price := by
  rw [level_setShares]
  conv_rhs => rw [← List.map_id (b.level locate buy price)]
  refine List.map_congr_left fun f hf => if_neg fun hfr => hr ?_
  obtain ⟨hem, href⟩ := find_eq_some.mp h
  obtain ⟨hfm, hfrest⟩ := mem_level.mp hf
  rwa [eq_of_ref_eq hem hfm (href.trans hfr.symm)]

theorem sumShares_level_drop (h : b.find ref = some e) :
    sumShares ((b.drop ref).level locate buy price) =
      if e.restsAt locate buy price = true then
        sumShares (b.level locate buy price) - e.shares.toUInt64
      else sumShares (b.level locate buy price) := by
  split
  · rename_i hr
    obtain ⟨hmem, rfl⟩ := find_eq_some.mp h
    rw [level_drop]
    exact sumShares_drop level_unique (mem_level.mpr ⟨hmem, hr⟩)
  · rename_i hr
    rw [level_drop_of_not_restsAt h hr]

theorem sumShares_level_setShares (h : b.find ref = some e) (n : Shares) :
    sumShares ((b.setShares ref n).level locate buy price) =
      if e.restsAt locate buy price = true then
        sumShares (b.level locate buy price) - e.shares.toUInt64 + n.toUInt64
      else sumShares (b.level locate buy price) := by
  split
  · rename_i hr
    obtain ⟨hmem, rfl⟩ := find_eq_some.mp h
    rw [level_setShares]
    exact sumShares_setShares level_unique (mem_level.mpr ⟨hmem, hr⟩) n
  · rename_i hr
    rw [level_setShares_of_not_restsAt h hr]

theorem sumShares_level_place (hnew : ∀ f ∈ b.orders, f.ref ≠ e.ref) :
    sumShares ((b.place e).level locate buy price) =
      if e.restsAt locate buy price = true then
        sumShares (b.level locate buy price) + e.shares.toUInt64
      else sumShares (b.level locate buy price) := by
  rw [level_place, drop_of_absent hnew]
  split
  · rw [sumShares_append]; simp [sumShares]
  · rw [List.append_nil]

end Book

end Carteret
