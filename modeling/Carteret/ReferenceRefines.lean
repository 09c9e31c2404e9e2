import Carteret.Lib.OrderedMap
import Carteret.ReferenceBook

/-!
# The reference book refines the abstract book

1. `Represents b A`: the order map and the price levels of `b` are those of the abstract book `A`. The level
   counters are `A`'s, on 32 and 64 bits.
2. One lemma for each operation of the book: `Represents.erase`, `Represents.setShares`, `Represents.push`.
3. `represents_on` is the step, `represents_run` the run, `reference_refines` what the queries then answer.
-/

namespace Carteret

namespace RefSymbol

variable (s : RefSymbol)

/-- The levels of the buying or the selling side. -/
def levels (buy : Bool) : Std.TreeMap Price RefLevel := if buy then s.bids else s.asks

theorem side_eq (side : UInt8) : s.side side = s.levels (side == kBuy) := by
  unfold RefSymbol.side levels
  by_cases h : side = kBuy
  · rw [if_pos h, if_pos (by simpa using h)]
  · rw [if_neg h, if_neg (by simpa using h)]

theorem levels_setSide (side : UInt8) (m : Std.TreeMap Price RefLevel) (buy : Bool) :
    (s.setSide side m).levels buy = if buy = (side == kBuy) then m else s.levels buy := by
  unfold setSide levels
  by_cases h : side = kBuy
  · subst h
    cases buy <;> rfl
  · have hf : (side == kBuy) = false := by simpa using h
    rw [if_neg h, hf]
    cases buy <;> rfl

end RefSymbol

/-- The order, as the abstract book holds it. -/
def RefOrder.entry (ref : Ref) (o : RefOrder) : Entry where
  ref := ref
  locate := o.locate
  side := o.side
  price := o.price
  shares := o.shares
  stock := o.stock
  attribution := o.attribution

namespace ReferenceBook

variable {b b' : ReferenceBook} {A : Book} {ref : Ref} {o : RefOrder} {locate : UInt16} {buy : Bool}
  {price : Price}

/-- The level at a symbol, side and price. -/
def levelAt (b : ReferenceBook) (locate : UInt16) (buy : Bool) (price : Price) : Option RefLevel :=
  ((b.symbolOf locate).levels buy)[price]?

/-- The node of a live order. -/
def slotOf (b : ReferenceBook) (ref : Ref) : ℕ := (b.orders[ref]?.map RefOrder.slot).getD 0

/-- The level that holds the orders `es`, whose nodes are `slot`. -/
def levelFor (slot : Ref → ℕ) (es : List Entry) : Option RefLevel :=
  if es = [] then none
  else
    some
      { shares := Book.sumShares es
        orders := UInt32.ofNat es.length
        fifo := es.map fun e => ⟨slot e.ref, e.ref⟩ }

structure Represents (b : ReferenceBook) (A : Book) : Prop where
  find_eq : ∀ ref, b.orders[ref]?.map (RefOrder.entry ref) = A.find ref
  size_eq : b.orders.size = A.orders.length
  slot_lt : ∀ (ref : Ref) (o : RefOrder), b.orders[ref]? = some o → o.slot < b.nextNode
  slot_inj : ∀ (ref ref' : Ref) (o o' : RefOrder), b.orders[ref]? = some o → b.orders[ref']? = some o' →
    o.slot = o'.slot → ref = ref'
  level_eq : ∀ locate buy price,
    b.levelAt locate buy price = levelFor b.slotOf (A.level locate buy price)

theorem represents_empty : Represents {} Book.empty where
  find_eq ref := by rw [Std.TreeMap.getElem?_emptyc]; rfl
  size_eq := rfl
  slot_lt ref o h := by rw [Std.TreeMap.getElem?_emptyc] at h; cases h
  slot_inj ref _ o _ h := by rw [Std.TreeMap.getElem?_emptyc] at h; cases h
  level_eq locate buy price := by cases buy <;> rfl

/-- Only the symbols, the orders and the node counter matter. -/
theorem Represents.congr (h : Represents b A) (hs : ∀ l, b'.symbolOf l = b.symbolOf l)
    (ho : b'.orders = b.orders) (hn : b'.nextNode = b.nextNode) : Represents b' A where
  find_eq := by rw [ho]; exact h.find_eq
  size_eq := by rw [ho]; exact h.size_eq
  slot_lt := by rw [ho, hn]; exact h.slot_lt
  slot_inj := by rw [ho]; exact h.slot_inj
  level_eq l s p := by
    have hslot : b'.slotOf = b.slotOf := by unfold slotOf; rw [ho]
    unfold levelAt
    rw [hs, hslot]
    exact h.level_eq l s p

theorem Represents.count (h : Represents b A) (f : RefCounters → RefCounters) :
    Represents (b.count f) A := h.congr (fun _ => rfl) rfl rfl

/-- What an observation of the inside leaves alone. -/
structure OnlyLooks (b b' : ReferenceBook) : Prop where
  symbols : b'.symbols = b.symbols
  orders : b'.orders = b.orders
  nextNode : b'.nextNode = b.nextNode
  afterHours : b'.afterHours = b.afterHours
  duplicateAdd : b'.counters.duplicateAdd = b.counters.duplicateAdd
  overExecute : b'.counters.overExecute = b.counters.overExecute

theorem checkBbo_frame (b : ReferenceBook) (locate : UInt16) (ts : ℕ) :
    OnlyLooks b (b.checkBbo locate ts) := by
  have hcrossed : ∀ (c : ReferenceBook) (depth : ℕ) (why : Excuse), OnlyLooks b c →
      OnlyLooks b (c.count fun k => crossed k locate ts depth why) := by
    rintro c depth why ⟨h₁, h₂, h₃, h₄, h₅, h₆⟩
    cases why <;> exact ⟨h₁, h₂, h₃, h₄, h₅, h₆⟩
  have hlocked : ∀ (c : ReferenceBook) (why : Excuse), OnlyLooks b c →
      OnlyLooks b (c.count fun k => locked k locate ts why) := by
    rintro c why ⟨h₁, h₂, h₃, h₄, h₅, h₆⟩
    cases why <;> exact ⟨h₁, h₂, h₃, h₄, h₅, h₆⟩
  have hself : OnlyLooks b b := ⟨rfl, rfl, rfl, rfl, rfl, rfl⟩
  unfold ReferenceBook.checkBbo
  split
  · exact hself
  · split
    · dsimp only
      -- the cap is counted first
      have hcapped : OnlyLooks b ((b.closeWindow locate (b.tradingState[locate]?.getD {})).count fun k =>
          { k with reopenWindowsCapped := k.reopenWindowsCapped + 1 }) := ⟨rfl, rfl, rfl, rfl, rfl, rfl⟩
      split_ifs
      · exact hcrossed _ _ _ hcapped
      · exact hcrossed _ _ _ hself
      · exact hlocked _ _ hcapped
      · exact hlocked _ _ hself
      all_goals exact ⟨rfl, rfl, rfl, rfl, rfl, rfl⟩
    · exact hself

theorem Represents.checkBbo (h : Represents b A) (locate : UInt16) (ts : ℕ) :
    Represents (b.checkBbo locate ts) A := by
  have hlooks := checkBbo_frame b locate ts
  exact h.congr (fun l => by unfold symbolOf; rw [hlooks.symbols]) hlooks.orders hlooks.nextNode

/-- Erasing an order writes its level and the map of orders. -/
theorem erase_frame (b : ReferenceBook) (ref : Ref) (o : RefOrder) :
    ∃ symbols, b.erase ref o = { b with symbols := symbols, orders := b.orders.erase ref } := by
  unfold ReferenceBook.erase
  dsimp only
  split <;> exact ⟨_, rfl⟩

theorem counters_erase (b : ReferenceBook) (ref : Ref) (o : RefOrder) :
    (b.erase ref o).counters = b.counters ∧ (b.erase ref o).afterHours = b.afterHours := by
  obtain ⟨symbols, h⟩ := erase_frame b ref o
  rw [h]
  exact ⟨rfl, rfl⟩

theorem counters_remove (b : ReferenceBook) (ref : Ref) :
    (b.remove ref).2.counters = b.counters ∧ (b.remove ref).2.afterHours = b.afterHours := by
  unfold ReferenceBook.remove
  split
  · exact ⟨rfl, rfl⟩
  · exact counters_erase b ref _

/-! ## Reading and writing levels -/

theorem symbolOf_insert (b : ReferenceBook) (locate l : UInt16) (s : RefSymbol) :
    symbolOf { b with symbols := b.symbols.insert locate s } l =
      if l = locate then s else b.symbolOf l := by
  unfold symbolOf
  rw [Std.TreeMap.getD_eq_getD_getElem?, OrderedMap.getElem?_insert_eq]
  split
  · rfl
  · rw [Std.TreeMap.getD_eq_getD_getElem?]

theorem levelAt_setSide (b : ReferenceBook) (locate l : UInt16) (side : UInt8)
    (m : Std.TreeMap Price RefLevel) (buy : Bool) (price : Price) :
    (b.setSide locate side m).levelAt l buy price =
      if l = locate ∧ buy = (side == kBuy) then m[price]? else b.levelAt l buy price := by
  unfold levelAt setSide
  rw [symbolOf_insert]
  by_cases hl : l = locate
  · rw [if_pos hl, RefSymbol.levels_setSide, hl]
    by_cases hb : buy = (side == kBuy)
    · rw [if_pos hb, if_pos ⟨rfl, hb⟩]
    · rw [if_neg hb, if_neg fun hc => hb hc.2]
  · rw [if_neg hl, if_neg fun hc => hl hc.1]

/-- One level of a side is written. -/
theorem levelAt_insert (b : ReferenceBook) (locate l : UInt16) (side : UInt8) (p : Price) (lvl : RefLevel)
    (buy : Bool) (price : Price) :
    (b.setSide locate side (((b.symbolOf locate).side side).insert p lvl)).levelAt l buy price =
      if l = locate ∧ buy = (side == kBuy) ∧ price = p then some lvl else b.levelAt l buy price := by
  rw [levelAt_setSide]
  by_cases hls : l = locate ∧ buy = (side == kBuy)
  · obtain ⟨rfl, rfl⟩ := hls
    rw [if_pos ⟨rfl, rfl⟩, OrderedMap.getElem?_insert_eq, RefSymbol.side_eq]
    by_cases hp : price = p
    · rw [if_pos hp, if_pos ⟨rfl, rfl, hp⟩]
    · rw [if_neg hp, if_neg fun hc => hp hc.2.2]
      rfl
  · rw [if_neg hls, if_neg fun hc => hls ⟨hc.1, hc.2.1⟩]

/-- `find` on the symbols, then on the levels. -/
theorem getElem?_side (b : ReferenceBook) (locate : UInt16) (side : UInt8) (price : Price) :
    (b.symbols[locate]?.bind fun s => (s.side side)[price]?) =
      b.levelAt locate (side == kBuy) price := by
  unfold levelAt symbolOf
  rw [Std.TreeMap.getD_eq_getD_getElem?]
  cases b.symbols[locate]? with
  | none => cases side == kBuy <;> rfl
  | some s => rw [Option.bind_some, RefSymbol.side_eq]; rfl

/-! ## A live order -/

theorem Represents.find (h : Represents b A) (ho : b.orders[ref]? = some o) :
    A.find ref = some (o.entry ref) := by
  rw [← h.find_eq, ho]; rfl

theorem Represents.orders_isSome (h : Represents b A) :
    (∃ o, b.orders[ref]? = some o) ↔ ∃ e ∈ A.orders, e.ref = ref := by
  constructor
  · rintro ⟨o, ho⟩
    exact ⟨_, (Book.find_eq_some.mp (h.find ho)).1, rfl⟩
  · rintro ⟨e, he, hr⟩
    have hfind := Book.find_eq_some.mpr ⟨he, hr⟩
    rw [← h.find_eq] at hfind
    obtain ⟨o, ho, -⟩ := Option.map_eq_some_iff.mp hfind
    exact ⟨o, ho⟩

/-- The orders of a level. -/
theorem mem_level {e : Entry} : e ∈ A.level locate buy price ↔
    e ∈ A.orders ∧ e.restsAt locate buy price = true := List.mem_filter

theorem entry_mem_level (h : Represents b A) (ho : b.orders[ref]? = some o) :
    o.entry ref ∈ A.level o.locate (o.side == kBuy) o.price :=
  mem_level.mpr ⟨(Book.find_eq_some.mp (h.find ho)).1, Entry.restsAt_iff.mpr ⟨rfl, rfl, rfl⟩⟩

/-- The level that a live order rests in. -/
theorem Represents.levelAt_order (h : Represents b A) (ho : b.orders[ref]? = some o) :
    b.levelAt o.locate (o.side == kBuy) o.price = some
      { shares := Book.sumShares (A.level o.locate (o.side == kBuy) o.price)
        orders := UInt32.ofNat (A.level o.locate (o.side == kBuy) o.price).length
        fifo := (A.level o.locate (o.side == kBuy) o.price).map fun e => ⟨b.slotOf e.ref, e.ref⟩ } := by
  rw [h.level_eq, levelFor, if_neg (List.ne_nil_of_mem (entry_mem_level h ho))]

theorem slotOf_eq (ho : b.orders[ref]? = some o) : b.slotOf ref = o.slot := by
  unfold slotOf; rw [ho]; rfl

/-- Nodes of distinct live orders differ. -/
theorem Represents.slotOf_eq_iff (h : Represents b A) (ho : b.orders[ref]? = some o) {e : Entry}
    (he : e ∈ A.orders) : b.slotOf e.ref = o.slot ↔ e.ref = ref := by
  obtain ⟨o', ho'⟩ := h.orders_isSome.mpr ⟨e, he, rfl⟩
  constructor
  · intro hs
    exact h.slot_inj _ _ _ _ ho' ho (by rw [← slotOf_eq ho', hs])
  · rintro rfl
    rw [slotOf_eq ho]

/-- The level counters of a level with one order less. -/
theorem levelFor_drop (h : Represents b A) (ho : b.orders[ref]? = some o) {es : List Entry}
    (hes : es = A.level o.locate (o.side == kBuy) o.price) (slot : Ref → ℕ)
    (hslot : ∀ r ≠ ref, slot r = b.slotOf r) :
    levelFor slot (es.filter fun e => e.ref != ref) =
      let fifo := (es.map fun e => (⟨b.slotOf e.ref, e.ref⟩ : RefNode)).filter fun n => n.id != o.slot
      if fifo.isEmpty then none
      else some
        { shares := Book.sumShares es - o.shares.toUInt64
          orders := UInt32.ofNat es.length - 1
          fifo := fifo } := by
  have hmem : o.entry ref ∈ es := hes ▸ entry_mem_level h ho
  have hsub : ∀ e ∈ es, e ∈ A.orders := fun e he => (mem_level.mp (hes ▸ he)).1
  have hunique : (es.map Entry.ref).Nodup :=
    Book.unique_sublist A.unique (by rw [hes]; exact List.filter_sublist)
  have hfifo : (es.map fun e => (⟨b.slotOf e.ref, e.ref⟩ : RefNode)).filter
        (fun n => n.id != o.slot) =
      (es.filter fun e => e.ref != ref).map fun e => ⟨slot e.ref, e.ref⟩ := by
    rw [List.filter_map]
    have hcongr : ∀ e ∈ es, ((fun n : RefNode => n.id != o.slot) ∘
        fun e : Entry => (⟨b.slotOf e.ref, e.ref⟩ : RefNode)) e = (e.ref != ref) := by
      intro e he
      rw [Bool.eq_iff_iff]
      simp only [Function.comp_apply, bne_iff_ne, ne_eq, h.slotOf_eq_iff ho (hsub e he)]
    rw [List.filter_congr hcongr]
    refine List.map_congr_left fun e he => ?_
    rw [hslot e.ref (by simpa using (List.mem_filter.mp he).2)]
  have hsum : Book.sumShares (es.filter fun e => e.ref != ref) =
      Book.sumShares es - o.shares.toUInt64 := Book.sumShares_drop hunique hmem
  have hlen : UInt32.ofNat (es.filter fun e => e.ref != ref).length = UInt32.ofNat es.length - 1 := by
    have hcount : (es.filter fun e => e.ref != ref).length + 1 = es.length :=
      Book.length_drop hunique hmem
    rw [← hcount, UInt32.ofNat_add]
    simp
  dsimp only
  rw [hfifo, levelFor, hsum, hlen]
  by_cases hnil : es.filter (fun e => e.ref != ref) = []
  · rw [if_pos hnil, hnil]; rfl
  · rw [if_neg hnil, if_neg (by simpa using hnil)]

/-- The level when shares of its orders are overwritten. -/
theorem levelFor_setShares (slot : Ref → ℕ) (ref : Ref) (n : Shares) (es : List Entry) :
    levelFor slot (es.map fun e => if e.ref = ref then { e with shares := n } else e) =
      (levelFor slot es).map fun lvl => { lvl with
        shares := Book.sumShares (es.map fun e => if e.ref = ref then { e with shares := n } else e) } := by
  unfold levelFor
  by_cases hnil : es = []
  · rw [hnil]; rfl
  · rw [if_neg hnil, if_neg (by simpa using hnil), Option.map_some, List.length_map, List.map_map]
    congr 2
    refine List.map_congr_left fun e _ => ?_
    simp only [Function.comp_apply]
    split <;> rfl

/-- A level that the order is not in keeps its orders as they are. -/
theorem level_setShares_elsewhere (h : Represents b A) (ho : b.orders[ref]? = some o) {l : UInt16} {s : Bool}
    {p : Price} (hat : ¬ (l = o.locate ∧ s = (o.side == kBuy) ∧ p = o.price)) (n : Shares) :
    ((A.level l s p).map fun e => if e.ref = ref then { e with shares := n } else e) = A.level l s p := by
  conv_rhs => rw [← List.map_id (A.level l s p)]
  refine List.map_congr_left fun e he => if_neg fun hr => hat ?_
  obtain ⟨hmem, hrest⟩ := mem_level.mp he
  have hfind := Book.find_eq_some.mpr ⟨hmem, hr⟩
  rw [h.find ho] at hfind
  obtain rfl := Option.some.inj hfind
  obtain ⟨h1, h2, h3⟩ := Entry.restsAt_iff.mp hrest
  exact ⟨h1.symm, h2.symm, h3.symm⟩

/-! ## The operations -/

/-- The state that `erase` reaches, when the order is live. -/
theorem erase_eq (h : Represents b A) (ho : b.orders[ref]? = some o) :
    ∃ m, (∀ p, m[p]? =
        if p = o.price then
          levelFor b.slotOf ((A.level o.locate (o.side == kBuy) o.price).filter fun e => e.ref != ref)
        else b.levelAt o.locate (o.side == kBuy) p) ∧
      b.erase ref o = { b.setSide o.locate o.side m with orders := b.orders.erase ref } := by
  have hat := h.levelAt_order ho
  have hdrop := levelFor_drop h ho rfl b.slotOf fun _ _ => rfl
  have hside : ∀ p : Price, ((b.symbolOf o.locate).side o.side)[p]? =
      b.levelAt o.locate (o.side == kBuy) p := by
    intro p; rw [RefSymbol.side_eq]; rfl
  have hread := (hside o.price).trans hat
  unfold erase
  simp only [hread]
  dsimp only at hdrop
  refine ⟨_, fun p => ?_, rfl⟩
  rw [hdrop]
  have hother := hside p
  split
  · rw [OrderedMap.getElem?_erase_eq, hother]
  · rw [OrderedMap.getElem?_insert_eq, hother]

theorem Represents.erase (h : Represents b A) (ho : b.orders[ref]? = some o) :
    Represents (b.erase ref o) (A.drop ref) := by
  obtain ⟨m, hm, heq⟩ := erase_eq h ho
  have hget : ∀ r, (b.erase ref o).orders[r]? = if r = ref then none else b.orders[r]? := by
    intro r; rw [heq]; exact OrderedMap.getElem?_erase_eq
  have hslot : ∀ r ≠ ref, (b.erase ref o).slotOf r = b.slotOf r := by
    intro r hr; unfold slotOf; rw [hget, if_neg hr]
  have hnext : (b.erase ref o).nextNode = b.nextNode := by rw [heq]; rfl
  refine ⟨fun r => ?_, ?_, fun r q hq => ?_, fun r r' q q' hq hq' => ?_, fun l s p => ?_⟩
  · rw [hget, Book.find_drop]
    split
    · rfl
    · exact h.find_eq r
  · have hsize : (b.erase ref o).orders.size = b.orders.size - 1 := by
      have hmem : ref ∈ b.orders := OrderedMap.mem_iff_getElem?.mpr ⟨o, ho⟩
      rw [heq]
      exact (Std.TreeMap.size_erase).trans (if_pos hmem)
    have hcount : (A.drop ref).orders.length + 1 = A.orders.length :=
      Book.length_drop A.unique (Book.find_eq_some.mp (h.find ho)).1
    rw [hsize, h.size_eq]
    omega
  · rw [hget] at hq
    split at hq
    · cases hq
    · rw [hnext]; exact h.slot_lt r q hq
  · rw [hget] at hq hq'
    split at hq
    · cases hq
    · split at hq'
      · cases hq'
      · exact h.slot_inj r r' q q' hq hq'
  · have hlevel : (b.erase ref o).levelAt l s p =
        if l = o.locate ∧ s = (o.side == kBuy) then m[p]? else b.levelAt l s p := by
      rw [heq]; exact levelAt_setSide b o.locate l o.side m s p
    -- what is left rests on the same nodes as before
    have hkeep : ∀ es : List Entry, (∀ e ∈ es, e.ref ≠ ref) →
        levelFor (b.erase ref o).slotOf es = levelFor b.slotOf es := by
      intro es hes
      unfold levelFor
      rw [List.map_congr_left fun e he => by rw [hslot e.ref (hes e he)]]
    rw [hkeep _ fun e he => (Book.mem_drop.mp (mem_level.mp he).1).2, hlevel]
    have hoff : ¬ (o.entry ref).restsAt l s p = true →
        b.levelAt l s p = levelFor b.slotOf ((A.drop ref).level l s p) := by
      intro hr
      rw [Book.level_drop_of_not_restsAt (h.find ho) hr]
      exact h.level_eq l s p
    by_cases hls : l = o.locate ∧ s = (o.side == kBuy)
    · obtain ⟨rfl, rfl⟩ := hls
      rw [if_pos ⟨rfl, rfl⟩, hm]
      by_cases hp : p = o.price
      · rw [if_pos hp, hp, Book.level_drop]
      · rw [if_neg hp]
        exact hoff fun hc => hp (Entry.restsAt_iff.mp hc).2.2.symm
    · rw [if_neg hls]
      exact hoff fun hc => hls ⟨(Entry.restsAt_iff.mp hc).1.symm, (Entry.restsAt_iff.mp hc).2.1.symm⟩

/-- The shares of a live order and of its level are overwritten. -/
theorem Represents.setShares (h : Represents b A) (ho : b.orders[ref]? = some o) {lvl : RefLevel}
    (hl : b.levelAt o.locate (o.side == kBuy) o.price = some lvl) {n t : Shares}
    (ht : n.toUInt64 = o.shares.toUInt64 - t.toUInt64) :
    Represents
      { b.setSide o.locate o.side (((b.symbolOf o.locate).side o.side).insert o.price
          { lvl with shares := lvl.shares - t.toUInt64 }) with
        orders := b.orders.insert ref { o with shares := n } } (A.setShares ref n) := by
  set b' : ReferenceBook :=
    { b.setSide o.locate o.side (((b.symbolOf o.locate).side o.side).insert o.price
        { lvl with shares := lvl.shares - t.toUInt64 }) with
      orders := b.orders.insert ref { o with shares := n } } with hb'
  have hget : ∀ r, b'.orders[r]? = if r = ref then some { o with shares := n } else b.orders[r]? :=
    fun r => OrderedMap.getElem?_insert_eq
  have hslot : b'.slotOf = b.slotOf := by
    funext r
    unfold slotOf
    rw [hget]
    split
    · rename_i hr; rw [hr, ho]; rfl
    · rfl
  -- an entry of `b'` stands on the node of the same entry of `b`
  have hold : ∀ (r : Ref) (q : RefOrder), b'.orders[r]? = some q →
      ∃ q' : RefOrder, b.orders[r]? = some q' ∧ q'.slot = q.slot := by
    intro r q hq
    rw [hget] at hq
    split at hq
    · rename_i hr
      obtain rfl := Option.some.inj hq
      exact ⟨o, hr ▸ ho, rfl⟩
    · exact ⟨q, hq, rfl⟩
  refine ⟨fun r => ?_, ?_, fun r q hq => ?_, fun r r' q q' hq hq' hs => ?_, fun l s p => ?_⟩
  · rw [hget, Book.find_setShares, ← h.find_eq]
    by_cases hr : r = ref
    · rw [if_pos hr, hr, ho]
      simp [RefOrder.entry]
    · rw [if_neg hr]
      cases hor : b.orders[r]? with
      | none => rfl
      | some q => simp [RefOrder.entry, hr]
  · have hmem : ref ∈ b.orders := OrderedMap.mem_iff_getElem?.mpr ⟨o, ho⟩
    have hsize : b'.orders.size = b.orders.size := (Std.TreeMap.size_insert).trans (if_pos hmem)
    rw [hsize, h.size_eq]
    simp [Book.setShares]
  · obtain ⟨q', hq', hqs⟩ := hold r q hq
    rw [← hqs]
    exact h.slot_lt r q' hq'
  · obtain ⟨p, hp, hps⟩ := hold r q hq
    obtain ⟨p', hp', hps'⟩ := hold r' q' hq'
    exact h.slot_inj r r' p p' hp hp' (by rw [hps, hps', hs])
  · rw [hslot, Book.level_setShares]
    have hlevel : b'.levelAt l s p =
        if l = o.locate ∧ s = (o.side == kBuy) ∧ p = o.price then
          some { lvl with shares := lvl.shares - t.toUInt64 } else b.levelAt l s p :=
      levelAt_insert b o.locate l o.side o.price _ s p
    rw [hlevel, levelFor_setShares, ← h.level_eq]
    by_cases hat : l = o.locate ∧ s = (o.side == kBuy) ∧ p = o.price
    · obtain ⟨rfl, rfl, rfl⟩ := hat
      have hshares : lvl.shares = Book.sumShares (A.level o.locate (o.side == kBuy) o.price) := by
        rw [h.levelAt_order ho] at hl
        rw [← Option.some.inj hl]
      have hunique : ((A.level o.locate (o.side == kBuy) o.price).map Entry.ref).Nodup :=
        Book.unique_sublist A.unique List.filter_sublist
      have hsum : Book.sumShares ((A.level o.locate (o.side == kBuy) o.price).map fun e =>
            if e.ref = ref then { e with shares := n } else e) =
          lvl.shares - o.shares.toUInt64 + n.toUInt64 := by
        rw [hshares]
        exact Book.sumShares_setShares hunique (entry_mem_level h ho) n
      rw [if_pos ⟨rfl, rfl, rfl⟩, hl, Option.map_some, hsum, ht]
      congr 2
      grind
    · rw [if_neg hat, level_setShares_elsewhere h ho hat, h.level_eq]
      unfold levelFor
      split <;> rfl

/-- A new order at the back of its level. -/
theorem Represents.push (h : Represents b A) {e : Entry} (hnew : b.orders[e.ref]? = none) (ts : ℕ) :
    Represents
      { b.setSide e.locate e.side (((b.symbolOf e.locate).side e.side).insert e.price
          { shares := (((b.symbolOf e.locate).side e.side).getD e.price {}).shares + e.shares.toUInt64
            orders := (((b.symbolOf e.locate).side e.side).getD e.price {}).orders + 1
            fifo := (((b.symbolOf e.locate).side e.side).getD e.price {}).fifo ++
              [⟨b.nextNode, e.ref⟩] }) with
        orders := b.orders.insertIfNew e.ref
          { locate := e.locate, side := e.side, price := e.price, shares := e.shares,
            stock := e.stock, attribution := e.attribution, slot := b.nextNode, addedTs := ts }
        nextNode := b.nextNode + 1 } (A.place e) := by
  set lvl := ((b.symbolOf e.locate).side e.side).getD e.price {} with hlvl
  set o : RefOrder :=
    { locate := e.locate, side := e.side, price := e.price, shares := e.shares, stock := e.stock,
      attribution := e.attribution, slot := b.nextNode, addedTs := ts }
  set m := ((b.symbolOf e.locate).side e.side).insert e.price
    { shares := lvl.shares + e.shares.toUInt64, orders := lvl.orders + 1,
      fifo := lvl.fifo ++ [⟨b.nextNode, e.ref⟩] }
  set b' : ReferenceBook :=
    { b.setSide e.locate e.side m with
      orders := b.orders.insertIfNew e.ref o, nextNode := b.nextNode + 1 }
  have hget : ∀ r, b'.orders[r]? = if r = e.ref then some o else b.orders[r]? :=
    fun r => OrderedMap.getElem?_insertIfNew_eq hnew
  have habsent : ∀ f ∈ A.orders, f.ref ≠ e.ref := by
    intro f hf hr
    obtain ⟨q, hq⟩ := h.orders_isSome.mpr ⟨f, hf, hr⟩
    rw [hnew] at hq
    cases hq
  have hdrop : A.drop e.ref = A := Book.drop_of_absent habsent
  have hslot : ∀ r ≠ e.ref, b'.slotOf r = b.slotOf r := by
    intro r hr; unfold slotOf; rw [hget, if_neg hr]
  have hslot_e : b'.slotOf e.ref = b.nextNode := by
    unfold slotOf; rw [hget, if_pos rfl]; rfl
  refine ⟨fun r => ?_, ?_, fun r q hq => ?_, fun r r' q q' hq hq' hs => ?_, fun l s p => ?_⟩
  · rw [hget, Book.find_place]
    split
    · rename_i hr; rw [hr]; rfl
    · exact h.find_eq r
  · have hmem : ¬ e.ref ∈ b.orders := fun hc => by
      obtain ⟨q, hq⟩ := OrderedMap.mem_iff_getElem?.mp hc
      rw [hnew] at hq
      cases hq
    have hsize : b'.orders.size = b.orders.size + 1 :=
      (Std.TreeMap.size_insertIfNew).trans (if_neg hmem)
    have hlen : (A.place e).orders.length = A.orders.length + 1 := by
      rw [Book.orders_place, hdrop]; simp
    rw [hsize, hlen, h.size_eq]
  · change q.slot < b.nextNode + 1
    rw [hget] at hq
    split at hq
    · obtain rfl := Option.some.inj hq; exact Nat.lt_succ_self _
    · exact Nat.lt_succ_of_lt (h.slot_lt r q hq)
  · rw [hget] at hq hq'
    split at hq <;> split at hq'
    · rename_i h1 h2; rw [h1, h2]
    · obtain rfl := Option.some.inj hq
      exact absurd (h.slot_lt r' q' hq') (by rw [← hs]; exact lt_irrefl _)
    · obtain rfl := Option.some.inj hq'
      exact absurd (h.slot_lt r q hq) (by rw [hs]; exact lt_irrefl _)
    · exact h.slot_inj r r' q q' hq hq' hs
  · have hlevel : b'.levelAt l s p =
        if l = e.locate ∧ s = (e.side == kBuy) ∧ p = e.price then
          some ⟨lvl.shares + e.shares.toUInt64, lvl.orders + 1, lvl.fifo ++ [⟨b.nextNode, e.ref⟩]⟩
        else b.levelAt l s p :=
      levelAt_insert b e.locate l e.side e.price _ s p
    -- the orders that were there keep their nodes
    have hkeep : (A.level l s p).map (fun f => (⟨b'.slotOf f.ref, f.ref⟩ : RefNode)) =
        (A.level l s p).map fun f => ⟨b.slotOf f.ref, f.ref⟩ :=
      List.map_congr_left fun f hf => by rw [hslot f.ref (habsent f (mem_level.mp hf).1)]
    rw [hlevel, Book.level_place, hdrop]
    by_cases hat : e.restsAt l s p = true
    · obtain ⟨rfl, rfl, rfl⟩ := Entry.restsAt_iff.mp hat
      have hread : ((b.symbolOf e.locate).side e.side)[e.price]? =
          levelFor b.slotOf (A.level e.locate e.buy e.price) := by
        rw [RefSymbol.side_eq]; exact h.level_eq _ _ _
      have hlvl' : lvl = { shares := Book.sumShares (A.level e.locate e.buy e.price)
                           orders := UInt32.ofNat (A.level e.locate e.buy e.price).length
                           fifo := (A.level e.locate e.buy e.price).map fun f =>
                            ⟨b.slotOf f.ref, f.ref⟩ } := by
        rw [hlvl, Std.TreeMap.getD_eq_getD_getElem?, hread]
        unfold levelFor
        split
        · rename_i hnil; rw [hnil]; rfl
        · rfl
      rw [if_pos ⟨rfl, rfl, rfl⟩, if_pos hat, levelFor, if_neg (by simp), hlvl']
      have hone : Book.sumShares [e] = e.shares.toUInt64 := by simp [Book.sumShares]
      rw [Book.sumShares_append, hone, List.length_append, List.length_singleton, UInt32.ofNat_add,
        List.map_append, hkeep, List.map_singleton, hslot_e]
      rfl
    · rw [if_neg hat, List.append_nil]
      have hsame : levelFor b'.slotOf (A.level l s p) = b.levelAt l s p := by
        rw [h.level_eq]
        unfold levelFor
        rw [hkeep]
      rw [hsame, if_neg fun hc => hat (Entry.restsAt_iff.mpr ⟨hc.1.symm, hc.2.1.symm, hc.2.2.symm⟩)]

/-! ## The handler -/

theorem Represents.remove (h : Represents b A) (ref : Ref) :
    Represents (b.remove ref).2 (A.drop ref) := by
  unfold ReferenceBook.remove
  cases ho : b.orders[ref]? with
  | none =>
    have hnone : A.find ref = none := by rw [← h.find_eq, ho]; rfl
    rw [Book.drop_of_absent (Book.find_eq_none.mp hnone)]
    exact h
  | some o => exact h.erase ho

theorem toUInt64_sub_taken (qty shares : Shares) :
    (shares - taken qty shares).toUInt64 = shares.toUInt64 - (taken qty shares).toUInt64 := by
  have hle : (taken qty shares).toNat ≤ shares.toNat := taken_le qty shares
  have hlt := shares.toNat_lt
  refine UInt64.toNat_inj.mp ?_
  rw [UInt32.toNat_toUInt64, UInt32.toNat_sub_of_le _ _ (taken_le qty shares),
    UInt64.toNat_sub_of_le, UInt32.toNat_toUInt64, UInt32.toNat_toUInt64]
  rw [UInt64.le_iff_toNat_le, UInt32.toNat_toUInt64, UInt32.toNat_toUInt64]
  exact hle

theorem Represents.execute (h : Represents b A) (ref : Ref) (qty : Shares) :
    Represents (b.execute ref qty).2 (A.reduce ref qty) := by
  unfold ReferenceBook.execute
  cases ho : b.orders[ref]? with
  | none =>
    have hnone : A.find ref = none := by rw [← h.find_eq, ho]; rfl
    rw [Book.reduce_of_absent (Book.find_eq_none.mp hnone)]
    exact h
  | some o =>
    rw [Book.reduce_eq (h.find ho)]
    dsimp only
    -- counting does not matter to what follows
    generalize hb₁ : (if qty > o.shares then
      b.count fun c => { c with overExecute := c.overExecute + 1 } else b) = b₁
    have h₁ : Represents b₁ A := by
      rw [← hb₁]; split
      · exact h.count _
      · exact h
    have ho₁ : b₁.orders[ref]? = some o := by
      rw [← hb₁]; split <;> exact ho
    have hl := h₁.levelAt_order ho₁
    have hread : b₁.levelOf o = _ := (getElem?_side b₁ o.locate o.side o.price).trans hl
    rw [hread]
    dsimp only
    have hset := h₁.setShares ho₁ hl (toUInt64_sub_taken qty o.shares)
    by_cases hz : o.shares - taken qty o.shares = 0
    · have hz' : (o.entry ref).shares - taken qty (o.entry ref).shares = 0 := hz
      rw [if_pos hz, if_pos hz', ← Book.drop_setShares A ref (o.shares - taken qty o.shares)]
      refine (hset.count _).erase ?_
      exact OrderedMap.getElem?_insert_eq.trans (if_pos rfl)
    · have hz' : ¬ (o.entry ref).shares - taken qty (o.entry ref).shares = 0 := hz
      rw [if_neg hz, if_neg hz']
      exact hset

theorem Represents.addRetained (h : Represents b A) (e : Entry) (ts : ℕ) :
    Represents (b.addRetained e.locate e.ref e.side e.price e.shares e.stock e.attribution ts)
      (A.place e) := by
  unfold ReferenceBook.addRetained
  obtain ⟨b₁, hb₁, h₁⟩ : ∃ b₁, (if b.orders.contains e.ref then
      ((b.count fun c => { c with duplicateAdd := c.duplicateAdd + 1 }).remove e.ref).2 else b) = b₁ ∧
        Represents b₁ (A.drop e.ref) := by
    refine ⟨_, rfl, ?_⟩
    split
    · exact (h.count _).remove e.ref
    · rename_i hc
      have hnone : b.orders[e.ref]? = none := by
        rw [← Option.not_isSome_iff_eq_none, ← Std.TreeMap.contains_eq_isSome_getElem?]
        exact hc
      have hfind : A.find e.ref = none := by rw [← h.find_eq, hnone]; rfl
      rw [Book.drop_of_absent (Book.find_eq_none.mp hfind)]
      exact h
  have hnew : b₁.orders[e.ref]? = none := by
    by_contra hne
    obtain ⟨q, hq⟩ := Option.ne_none_iff_exists'.mp hne
    obtain ⟨f, hf, hr⟩ := h₁.orders_isSome.mp ⟨q, hq⟩
    exact (Book.mem_drop.mp hf).2 hr
  simp only [hb₁]
  rw [← Book.place_drop]
  exact (h₁.push hnew ts).checkBbo _ _

theorem Represents.countUnless {r : Bool × ReferenceBook} (h : Represents r.2 A)
    (f : RefCounters → RefCounters) : Represents (countUnless r f) A := by
  unfold ReferenceBook.countUnless
  split
  · exact h
  · exact h.count f

/-- **One message.** The reference book follows the abstract book. -/
theorem represents_on (h : Represents b A) (msg : Message) : Represents (b.on msg) (A.step msg) := by
  have htick : Represents b.tick A := h.count _
  cases msg with
  | systemEvent v =>
    unfold on
    dsimp only
    split
    · exact h.congr (fun _ => rfl) rfl rfl
    · exact h
  | stockTradingAction v => exact h.congr (fun _ => rfl) rfl rfl
  | operationalHalt v =>
    unfold on onOperationalHalt
    dsimp only
    split_ifs <;> exact h.congr (fun _ => rfl) rfl rfl
  | stockDirectory v =>
    refine h.congr (fun l => ?_) rfl rfl
    refine (symbolOf_insert b v.locate l _).trans ?_
    split
    · rename_i hl; rw [hl]
    · rfl
  | addOrder v => exact htick.addRetained (Book.added v []) v.ts.toNat
  | addOrderMpid v => exact htick.addRetained (Book.added v.toAddOrder v.attribution) v.ts.toNat
  | orderExecuted v => exact ((htick.execute _ _).countUnless _).checkBbo _ _
  | orderExecutedPrice v => exact ((htick.execute _ _).countUnless _).checkBbo _ _
  | orderCancel v => exact ((htick.execute _ _).countUnless _).checkBbo _ _
  | orderDelete v => exact ((htick.remove _).countUnless _).checkBbo _ _
  | orderReplace v =>
    unfold on onOrderReplace
    dsimp only [Book.step]
    cases ho : b.tick.orders[v.oldOrderRef]? with
    | none =>
      have hnone : A.find v.oldOrderRef = none := by rw [← htick.find_eq, ho]; rfl
      rw [hnone]
      exact htick.count _
    | some o =>
      rw [htick.find ho]
      exact ((htick.remove _).addRetained (Book.replacement v (o.entry v.oldOrderRef))
        v.ts.toNat).checkBbo _ _
  | trade v => exact htick
  | brokenTrade v => exact htick
  | crossTrade v =>
    unfold on onCrossTrade
    dsimp only [Book.step]
    split_ifs <;> split <;> try split_ifs
    all_goals exact htick.congr (fun _ => rfl) rfl rfl

/-- The abstract book after some messages, at any venue. -/
theorem represents_venue (code : UInt8) (ms : List Message) :
    (run { venueMarketCode := code } ms).Represents (Runs.run Book.step Book.empty ms) :=
  Runs.run_simulation (R := Represents) (fun _ _ m h => represents_on h m) ms _ _
    (represents_empty.congr (fun _ => rfl) rfl rfl)

theorem represents_run (ms : List Message) :
    (run {} ms).Represents (Runs.run Book.step Book.empty ms) := represents_venue 81 ms

/-! ## What the queries answer -/

/-- The answer about a level, by the level. -/
theorem level_eq_elim (b : ReferenceBook) (locate : UInt16) (side : UInt8) (price : Price) :
    b.level locate side price = (b.levelAt locate (side == kBuy) price).elim {} fun lvl =>
      { present := true, shares := lvl.shares, orders := lvl.orders, fifo := lvl.fifo.map RefNode.ref } := by
  rw [← getElem?_side]
  unfold level symbol
  cases b.symbols[locate]? with
  | none => rfl
  | some s =>
    dsimp only [Option.bind_some]
    cases (s.side side)[price]? <;> rfl

theorem Represents.level_query (h : Represents b A) (locate : UInt16) (side : UInt8)
    (price : Price) :
    b.level locate side price = Book.snapshotOf (A.level locate (side == kBuy) price) := by
  rw [level_eq_elim, h.level_eq, levelFor, Book.snapshotOf, Book.ofNat_total]
  by_cases hnil : A.level locate (side == kBuy) price = []
  · rw [if_pos hnil, hnil]; rfl
  · rw [if_neg hnil]
    simp [hnil, Function.comp_def]

/-- A level exists exactly for the prices at which an order rests. -/
theorem Represents.levels_isSome (h : Represents b A) (buy : Bool) :
    (∃ lvl, ((b.symbolOf locate).levels buy)[price]? = some lvl) ↔
      ∃ e ∈ A.orders, e.locate = locate ∧ e.buy = buy ∧ e.price = price := by
  have hat : ((b.symbolOf locate).levels buy)[price]? = _ := h.level_eq locate buy price
  rw [hat, levelFor, ← Book.level_ne_nil_iff]
  split
  · rename_i hnil
    exact iff_of_false (fun ⟨lvl, hl⟩ => by cases hl) (not_not.mpr hnil)
  · rename_i hne
    exact iff_of_true ⟨_, rfl⟩ hne

theorem compare_isLE {a c : Price} : (compare a c).isLE ↔ a ≤ c := by
  rw [Std.isLE_compare]

/-- The best bid is the highest price of a buying order, the best offer the lowest of a selling one. -/
theorem Represents.best_query (h : Represents b A) (locate : UInt16) (price : Price) :
    ((b.symbol locate).bind RefSymbol.bestBid = some price ↔ A.IsBest locate true price) ∧
      ((b.symbol locate).bind RefSymbol.bestAsk = some price ↔ A.IsBest locate false price) := by
  have hsym : (b.symbol locate).bind RefSymbol.bestBid = (b.symbolOf locate).bestBid ∧
      (b.symbol locate).bind RefSymbol.bestAsk = (b.symbolOf locate).bestAsk := by
    unfold symbol symbolOf
    rw [Std.TreeMap.getD_eq_getD_getElem?]
    cases b.symbols[locate]? with
    | none => exact ⟨rfl, rfl⟩
    | some s => exact ⟨rfl, rfl⟩
  rw [hsym.1, hsym.2]
  constructor
  · refine OrderedMap.getLast?_keys_eq_some.trans
      (and_congr (h.levels_isSome true) ⟨fun hall e he hl hb => ?_, fun hall p lvl hp => ?_⟩)
    · obtain ⟨lvl, hlvl⟩ := (h.levels_isSome _).mpr ⟨e, he, hl, hb, rfl⟩
      exact compare_isLE.mp (hall e.price lvl hlvl)
    · obtain ⟨e, he, hl, hb, rfl⟩ := (h.levels_isSome true).mp ⟨lvl, hp⟩
      exact compare_isLE.mpr (hall e he hl hb)
  · refine OrderedMap.head?_keys_eq_some.trans
      (and_congr (h.levels_isSome false) ⟨fun hall e he hl hb => ?_, fun hall p lvl hp => ?_⟩)
    · obtain ⟨lvl, hlvl⟩ := (h.levels_isSome _).mpr ⟨e, he, hl, hb, rfl⟩
      exact compare_isLE.mp (hall e.price lvl hlvl)
    · obtain ⟨e, he, hl, hb, rfl⟩ := (h.levels_isSome false).mp ⟨lvl, hp⟩
      exact compare_isLE.mpr (hall e he hl hb)

/-- **The reference book refines the abstract book.** After any messages, every level, the inside, every
order and the number of live orders are the abstract book's, the level counters on their widths. -/
theorem reference_refines (ms : List Message) :
    (∀ locate side price, (run {} ms).level locate side price =
      Book.snapshotOf ((Runs.run Book.step Book.empty ms).level locate (side == kBuy) price)) ∧
    (∀ locate price,
      (((run {} ms).symbol locate).bind RefSymbol.bestBid = some price ↔
        (Runs.run Book.step Book.empty ms).IsBest locate true price) ∧
      (((run {} ms).symbol locate).bind RefSymbol.bestAsk = some price ↔
        (Runs.run Book.step Book.empty ms).IsBest locate false price)) ∧
    (∀ ref, ((run {} ms).order ref).map (RefOrder.entry ref) =
      (Runs.run Book.step Book.empty ms).find ref) ∧
    (run {} ms).liveOrders = (Runs.run Book.step Book.empty ms).orders.length := by
  have h := represents_run ms
  exact ⟨h.level_query, h.best_query, h.find_eq, h.size_eq⟩

/-! ## Where the widths and the side byte show -/

/-- One order of a side that is neither `'B'` nor `'S'`. -/
def oddSide : List Message :=
  [.addOrder { locate := 1, ts := 0, orderRef := 1, side := 88, shares := 1, stock := [], price := 100 }]

/-- `n` orders of one share at one price. -/
def crowd (n : ℕ) : List Message :=
  (List.range n).map fun i => .addOrder
    { locate := 1, ts := 0, orderRef := UInt64.ofNat i, side := kBuy, shares := 1, stock := [],
      price := 100 }

theorem length_crowd {n : ℕ} (hn : n ≤ 2 ^ 64) :
    ((Runs.run Book.step Book.empty (crowd n)).level 1 true 100).length = n ∧
      ∀ e ∈ (Runs.run Book.step Book.empty (crowd n)).orders, e.ref.toNat < n := by
  induction n with
  | zero => exact ⟨rfl, by intro e he; cases he⟩
  | succ n ih =>
    obtain ⟨hlen, href⟩ := ih (by omega)
    have hsnoc : crowd (n + 1) = crowd n ++ [.addOrder
        { locate := 1, ts := 0, orderRef := UInt64.ofNat n, side := kBuy, shares := 1, stock := [],
          price := 100 }] := by
      unfold crowd; rw [List.range_succ, List.map_append]; rfl
    rw [hsnoc, Runs.run_snoc]
    set A := Runs.run Book.step Book.empty (crowd n)
    have hnat : (UInt64.ofNat n).toNat = n := UInt64.toNat_ofNat_of_lt' (by change n < 2 ^ 64; omega)
    have hdrop : A.drop (UInt64.ofNat n) = A := by
      refine Book.drop_of_absent fun e he hr => ?_
      have := href e he
      rw [hr, hnat] at this
      exact absurd this (lt_irrefl _)
    refine ⟨?_, fun e he => ?_⟩
    · refine (congrArg List.length (Book.level_place A _ 1 true 100)).trans ?_
      rw [List.length_append]
      refine (congrArg₂ (· + ·) ((congrArg (fun B => (Book.level B 1 true 100).length) hdrop).trans hlen)
        (?_ : _ = 1))
      rfl
    · have he' : e ∈ (A.drop (UInt64.ofNat n)).orders ++ [_] := he
      rcases List.mem_append.mp he' with he' | he'
      · rw [hdrop] at he'
        have := href e he'
        omega
      · rw [List.mem_singleton.mp he']
        change (UInt64.ofNat n).toNat < n + 1
        omega

/-- A level of the selling side is present without an order of that side byte, and a level of `2 ^ 32`
orders reports none. -/
theorem not_exact :
    (((run {} oddSide).level 1 kSell 100).present = true ∧
      ∀ e ∈ (Runs.run Book.step Book.empty oddSide).orders, e.side ≠ kSell) ∧
    ((run {} (crowd (2 ^ 32))).level 1 kBuy 100).orders.toNat ≠
      ((Runs.run Book.step Book.empty (crowd (2 ^ 32))).level 1 true 100).length := by
  refine ⟨⟨by decide +kernel, by decide +kernel⟩, ?_⟩
  have hlen := (length_crowd (n := 2 ^ 32) (by decide)).1
  rw [(represents_run (crowd (2 ^ 32))).level_query, Book.snapshotOf]
  change (UInt32.ofNat ((Runs.run Book.step Book.empty (crowd (2 ^ 32))).level 1 true 100).length).toNat ≠ _
  rw [hlen]
  decide

end ReferenceBook

end Carteret
