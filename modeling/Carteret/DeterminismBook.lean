import Carteret.Determinism
import Carteret.ReferenceRefines

/-!
# The book's stream

The octets that `hashBook` feeds to the hash, read back.

1. A `Row` is what the walk says of a level. Rows, sides and symbols of a book are read off its live orders
   (`Represents.bookUpdates`).
2. A row whose counter has not wrapped tells itself and what follows it (`Row.selfDelimiting`).
3. The octets of the symbols tell the symbols (`symbols_of_octets`): the locates and the prices ascend.
-/

namespace Carteret

open Sha256 (Update fed)

/-! ## Rows -/

structure Row where
  price : Price
  shares : UInt64
  orders : UInt32
  queue : List (Ref × Shares)

/-- The updates of a level. -/
def Row.updates (r : Row) : List Update :=
  [.u32 r.price, .u64 r.shares, .u32 r.orders] ++ r.queue.flatMap fun x => [.u64 x.1, .u32 x.2]

/-- The updates of a side. -/
def Row.sideUpdates (side : UInt8) (rs : List Row) : List Update :=
  [.u8 side, .u32 (UInt32.ofNat rs.length)] ++ rs.flatMap Row.updates

structure SymbolRows where
  locate : ℕ
  bids : List Row
  asks : List Row

/-- The updates of a symbol. -/
def SymbolRows.updates (s : SymbolRows) : List Update :=
  .u32 (UInt32.ofNat s.locate) :: (Row.sideUpdates kBuy s.bids ++ Row.sideUpdates kSell s.asks)

namespace Book

variable (A : Book) (locate : UInt16) (buy : Bool)

/-- The prices of a side, ascending. -/
def prices : List Price :=
  (((A.orders.filter fun e => e.locate == locate && e.buy == buy).map fun e => e.price.toNat).toFinset.sort).map
    UInt32.ofNat

def row (price : Price) : Row where
  price := price
  shares := sumShares (A.level locate buy price)
  orders := UInt32.ofNat (A.level locate buy price).length
  queue := (A.level locate buy price).map fun e => (e.ref, e.shares)

def rows : List Row := (A.prices locate buy).map (A.row locate buy)

/-- What the walk finds at a locate. -/
def symbolRows (locate : ℕ) : Option SymbolRows :=
  let bids := A.rows (UInt16.ofNat locate) true
  let asks := A.rows (UInt16.ofNat locate) false
  if bids = [] ∧ asks = [] then none else some { locate := locate, bids := bids, asks := asks }

/-- The symbols that the walk finds. -/
def symbols : List SymbolRows := (List.range 0x10000).filterMap A.symbolRows

variable {A locate buy}

theorem mem_prices {price : Price} :
    price ∈ A.prices locate buy ↔ ∃ e ∈ A.orders, e.locate = locate ∧ e.buy = buy ∧ e.price = price := by
  unfold prices
  simp only [List.mem_map, Finset.mem_sort, List.mem_toFinset, List.mem_filter, Bool.and_eq_true, beq_iff_eq]
  constructor
  · rintro ⟨n, ⟨e, ⟨he, hl, hb⟩, rfl⟩, rfl⟩
    exact ⟨e, he, hl, hb, UInt32.ofNat_toNat.symm⟩
  · rintro ⟨e, he, hl, hb, rfl⟩
    exact ⟨_, ⟨e, ⟨he, hl, hb⟩, rfl⟩, UInt32.ofNat_toNat⟩

theorem level_ne_nil_iff_mem_prices {price : Price} : A.level locate buy price ≠ [] ↔ price ∈ A.prices locate buy :=
  level_ne_nil_iff.trans mem_prices.symm

theorem pairwise_prices : (A.prices locate buy).Pairwise (· < ·) := by
  unfold prices
  rw [List.pairwise_map]
  refine (Finset.sortedLT_sort _).pairwise.imp_of_mem fun {m n} hm hn hlt => ?_
  have hbound : ∀ k ∈ ((A.orders.filter fun e => e.locate == locate && e.buy == buy).map
      fun e => e.price.toNat).toFinset.sort, k < 2 ^ 32 := by
    intro k hk
    obtain ⟨e, -, rfl⟩ := List.mem_map.mp (List.mem_toFinset.mp ((Finset.mem_sort _).mp hk))
    exact e.price.toNat_lt
  rw [UInt32.lt_iff_toNat_lt, UInt32.toNat_ofNat_of_lt' (hbound m hm), UInt32.toNat_ofNat_of_lt' (hbound n hn)]
  exact hlt

end Book

/-- Ascending prices are told by which they are. -/
theorem eq_of_ascending {ps qs : List Price} (h : ps.Pairwise (· < ·)) (h' : qs.Pairwise (· < ·))
    (hmem : ∀ p, p ∈ ps ↔ p ∈ qs) : ps = qs := by
  have : Std.Antisymm (α := Price) (· < ·) := ⟨fun a c h h' => absurd h' (UInt32.lt_asymm h)⟩
  have : Std.Irrefl (α := Price) (· < ·) := ⟨fun a => UInt32.lt_irrefl a⟩
  exact h.eq_of_mem_iff h' hmem

namespace ReferenceBook

variable {b : ReferenceBook} {A : Book}

theorem Represents.keys_levels (h : Represents b A) (locate : UInt16) (buy : Bool) :
    ((b.symbolOf locate).levels buy).keys = A.prices locate buy := by
  have hsorted : ((b.symbolOf locate).levels buy).keys.Pairwise (· < ·) :=
    Std.TreeMap.ordered_keys.imp fun hlt => Std.compare_eq_lt.mp hlt
  refine eq_of_ascending hsorted Book.pairwise_prices fun price => ?_
  rw [Std.TreeMap.mem_keys, OrderedMap.mem_iff_getElem?, h.levels_isSome, Book.mem_prices]

/-- What remains of an order. -/
theorem Represents.shares_order (h : Represents b A) {e : Entry} (he : e ∈ A.orders) :
    (b.order e.ref).map RefOrder.shares = some e.shares := by
  have hfind := h.find_eq e.ref
  rw [Book.find_eq_some.mpr ⟨he, rfl⟩] at hfind
  obtain ⟨o, ho, hentry⟩ := Option.map_eq_some_iff.mp hfind
  unfold order
  rw [ho, ← hentry]
  rfl

/-- A level of the map, as the walk says it. -/
theorem Represents.levelUpdates (h : Represents b A) {locate : UInt16} {buy : Bool} {price : Price} {lvl : RefLevel}
    (hlvl : ((b.symbolOf locate).levels buy)[price]? = some lvl) :
    b.levelUpdates price lvl = (A.row locate buy price).updates := by
  have hat : b.levelAt locate buy price = some lvl := hlvl
  rw [h.level_eq, levelFor] at hat
  split_ifs at hat with hnil
  obtain rfl := Option.some.inj hat
  unfold ReferenceBook.levelUpdates Row.updates queueUpdates Book.row
  rw [List.flatMap_map, List.flatMap_map]
  refine congrArg _ (List.flatMap_congr fun e he => ?_)
  have hmem : e ∈ A.orders := (List.mem_filter.mp he).1
  obtain ⟨o, ho, hshares⟩ := Option.map_eq_some_iff.mp (h.shares_order hmem)
  show [Update.u64 e.ref, Update.u32 ((b.order e.ref).elim 0 RefOrder.shares)] = _
  rw [ho, ← hshares]
  rfl

theorem Represents.sideUpdates (h : Represents b A) (locate : UInt16) (buy : Bool) (side : UInt8) :
    b.sideUpdates side ((b.symbolOf locate).levels buy) = Row.sideUpdates side (A.rows locate buy) := by
  unfold ReferenceBook.sideUpdates Row.sideUpdates Book.rows
  rw [← h.keys_levels, List.length_map, Std.TreeMap.length_keys, List.flatMap_map, ← Std.TreeMap.map_fst_toList_eq_keys,
    List.flatMap_map]
  refine congrArg _ (List.flatMap_congr fun x hx => ?_)
  exact h.levelUpdates (Std.TreeMap.mem_toList_iff_getElem?_eq_some.mp hx)

theorem Represents.symbolUpdates (h : Represents b A) (locate : ℕ) :
    b.symbolUpdates locate = (A.symbolRows locate).elim [] SymbolRows.updates := by
  have hempty : ∀ buy, ((b.symbolOf (UInt16.ofNat locate)).levels buy).isEmpty = true ↔
      A.rows (UInt16.ofNat locate) buy = [] := by
    intro buy
    unfold Book.rows
    rw [List.map_eq_nil_iff, ← h.keys_levels, ← List.isEmpty_iff, Std.TreeMap.isEmpty_keys]
  have hbids := h.sideUpdates (UInt16.ofNat locate) true kBuy
  have hasks := h.sideUpdates (UInt16.ofNat locate) false kSell
  unfold ReferenceBook.symbolUpdates Book.symbolRows
  cases hs : b.symbol (UInt16.ofNat locate) with
  | none =>
    have hnone : b.symbolOf (UInt16.ofNat locate) = {} := by
      unfold symbolOf
      rw [Std.TreeMap.getD_eq_getD_getElem?]
      exact congrArg (fun s => s.getD {}) hs
    rw [hnone] at hempty
    rw [if_pos ⟨(hempty true).mp rfl, (hempty false).mp rfl⟩]
    rfl
  | some sym =>
    have hsome : b.symbolOf (UInt16.ofNat locate) = sym := by
      unfold symbolOf
      rw [Std.TreeMap.getD_eq_getD_getElem?]
      exact congrArg (fun s => s.getD {}) hs
    rw [hsome] at hempty hbids hasks
    have hboth : (sym.bids.isEmpty && sym.asks.isEmpty) = true ↔
        A.rows (UInt16.ofNat locate) true = [] ∧ A.rows (UInt16.ofNat locate) false = [] := by
      rw [Bool.and_eq_true, ← hempty true, ← hempty false]
      rfl
    dsimp only
    by_cases hnil : A.rows (UInt16.ofNat locate) true = [] ∧ A.rows (UInt16.ofNat locate) false = []
    · rw [if_pos hnil, if_pos (hboth.mpr hnil)]
      rfl
    · rw [if_neg hnil, if_neg (hboth.not.mpr hnil)]
      exact congrArg (Update.u32 _ :: ·) (congrArg₂ (· ++ ·) hbids hasks)

/-- **The walk.** -/
theorem Represents.bookUpdates (h : Represents b A) : b.bookUpdates = A.symbols.flatMap SymbolRows.updates := by
  have hwalk : ∀ ns : List ℕ, ns.flatMap b.symbolUpdates = (ns.filterMap A.symbolRows).flatMap SymbolRows.updates := by
    intro ns
    induction ns with
    | nil => rfl
    | cons n ns ih =>
      rw [List.flatMap_cons, ih, h.symbolUpdates]
      cases hn : A.symbolRows n with
      | none => rw [List.filterMap_cons_none hn]; rfl
      | some s => rw [List.filterMap_cons_some hn]; rfl
  exact hwalk _

end ReferenceBook

/-! ## Reading rows back -/

namespace Row

/-- The level's counter has not wrapped. -/
def Counted (r : Row) : Prop := r.orders.toNat = r.queue.length

/-- A row tells itself and what follows it. -/
theorem selfDelimiting : SelfDelimiting Counted fun r => fed r.updates := by
  have hqueue : SelfDelimiting (fun _ : Ref × Shares => True) fun x => fed [.u64 x.1, .u32 x.2] := by
    intro x x' y y' _ _ h
    simp only [Sha256.fed_u64_inj, Sha256.fed_u32_inj] at h
    exact ⟨Prod.ext h.1 h.2.1, h.2.2⟩
  intro r r' x x' hr hr' h
  obtain ⟨price, shares, orders, queue⟩ := r
  obtain ⟨price', shares', orders', queue'⟩ := r'
  simp only [updates, List.cons_append, List.nil_append, Sha256.fed_u32_inj, Sha256.fed_u64_inj, Sha256.fed_flatMap] at h
  obtain ⟨rfl, rfl, rfl, hrest⟩ := h
  obtain ⟨rfl, hx⟩ := hqueue.flatMap_append (hr.symm.trans hr') (fun _ _ => trivial) (fun _ _ => trivial) hrest
  exact ⟨rfl, hx⟩

/-- The rows of a side, as a book has them. -/
structure Side (rs : List Row) : Prop where
  ascending : (rs.map Row.price).Pairwise (· < ·)
  counted : ∀ r ∈ rs, r.Counted

/-- Ascending prices leave room above the first for all of them. -/
theorem length_le {p : Price} {ps : List Price} (h : (p :: ps).Pairwise (· < ·)) :
    ps.length + 1 + p.toNat ≤ 2 ^ 32 := by
  induction ps generalizing p with
  | nil =>
    have hp := p.toNat_lt
    rw [List.length_nil]
    omega
  | cons q qs ih =>
    obtain ⟨hall, hrest⟩ := List.pairwise_cons.mp h
    have hlt := UInt32.lt_iff_toNat_lt.mp (hall q List.mem_cons_self)
    have hqs := ih hrest
    rw [List.length_cons]
    omega

/-- The octets begin with the price zero. -/
def AtZero (x : List UInt8) : Prop := ∃ y, x = fed [.u32 0] ++ y

/-- A side of as many levels as there are prices begins at the price zero. -/
theorem Side.atZero {rs : List Row} (h : Side rs) (hlen : rs.length = 2 ^ 32) (x : List UInt8) :
    AtZero (fed (rs.flatMap Row.updates) ++ x) := by
  cases rs with
  | nil => cases hlen
  | cons r rs =>
    have hle := length_le h.ascending
    have hzero : r.price = 0 := by
      refine UInt32.toNat_inj.mp ?_
      rw [List.length_map] at hle
      rw [List.length_cons] at hlen
      show r.price.toNat = 0
      omega
    refine ⟨fed ([.u64 r.shares, .u32 r.orders] ++ r.queue.flatMap fun x => [.u64 x.1, .u32 x.2]) ++
      fed (rs.flatMap Row.updates) ++ x, ?_⟩
    rw [List.flatMap_cons, Sha256.fed_append, List.append_assoc, List.append_assoc, ← hzero]
    rfl

theorem Side.length_le {rs : List Row} (h : Side rs) : rs.length ≤ 2 ^ 32 := by
  cases rs with
  | nil => exact Nat.zero_le _
  | cons r rs =>
    have hle := Row.length_le h.ascending
    rw [List.length_map] at hle
    rw [List.length_cons]
    omega

/-- **A side.** It tells itself, and what follows it if that does not begin with the price zero. -/
theorem side_append_inj {rs rs' : List Row} {side : UInt8} {x x' : List UInt8} (hrs : Side rs) (hrs' : Side rs')
    (hx : ¬AtZero x) (hx' : ¬AtZero x') (h : fed (sideUpdates side rs) ++ x = fed (sideUpdates side rs') ++ x') :
    rs = rs' ∧ x = x' := by
  unfold sideUpdates at h
  simp only [List.cons_append, List.nil_append, Sha256.fed_u8_inj, Sha256.fed_u32_inj, true_and] at h
  obtain ⟨hcount, hrest⟩ := h
  have hmod : rs.length % 2 ^ 32 = rs'.length % 2 ^ 32 := by
    have htoNat := congrArg UInt32.toNat hcount
    rwa [UInt32.toNat_ofNat', UInt32.toNat_ofNat'] at htoNat
  have hle := hrs.length_le
  have hle' := hrs'.length_le
  rcases eq_or_ne rs.length rs'.length with hlen | hlen
  · rw [Sha256.fed_flatMap, Sha256.fed_flatMap] at hrest
    exact selfDelimiting.flatMap_append hlen hrs.counted hrs'.counted hrest
  · -- one side is empty, and the other has a level at each price
    rcases Nat.eq_zero_or_pos rs.length with hnil | hpos
    · obtain rfl := List.length_eq_zero_iff.mp hnil
      refine absurd ?_ hx
      rw [show x = fed (rs'.flatMap Row.updates) ++ x' from hrest]
      exact hrs'.atZero (by omega) x'
    · obtain rfl := List.length_eq_zero_iff.mp (show rs'.length = 0 by omega)
      refine absurd ?_ hx'
      rw [show x' = fed (rs.flatMap Row.updates) ++ x from hrest.symm]
      exact hrs.atZero (by omega) x

end Row

namespace SymbolRows

/-- A symbol, as a book has it. -/
structure Valid (s : SymbolRows) : Prop where
  locate_lt : s.locate < 2 ^ 16
  bids : Row.Side s.bids
  asks : Row.Side s.asks

theorem updates_ne_nil (s : SymbolRows) (x : List UInt8) : fed s.updates ++ x ≠ [] := by
  intro h
  have hlen := congrArg List.length h
  unfold updates at hlen
  rw [Sha256.fed_cons, List.length_append, List.length_append, Update.octets, BigEndian.length_bytes] at hlen
  exact absurd hlen (by rw [List.length_nil]; omega)

theorem not_atZero_side (rs : List Row) (x : List UInt8) : ¬Row.AtZero (fed (Row.sideUpdates kSell rs) ++ x) := by
  rintro ⟨y, hy⟩
  have hhead := congrArg List.head? hy
  exact absurd hhead (by decide : some (83 : UInt8) ≠ some 0)

theorem not_atZero_symbols {ss : List SymbolRows} (hpos : ∀ s ∈ ss, 0 < s.locate ∧ s.locate < 2 ^ 16) :
    ¬Row.AtZero (fed (ss.flatMap updates)) := by
  rintro ⟨y, hy⟩
  cases ss with
  | nil => exact absurd hy.symm (List.append_ne_nil_of_left_ne_nil (by decide) y)
  | cons s ss =>
    obtain ⟨hlow, hhigh⟩ := hpos s List.mem_cons_self
    rw [List.flatMap_cons, Sha256.fed_append] at hy
    unfold updates at hy
    rw [Sha256.fed_u32_inj] at hy
    have hzero := congrArg UInt32.toNat hy.1
    rw [UInt32.toNat_ofNat_of_lt' (by change s.locate < 2 ^ 32; omega)] at hzero
    exact absurd hzero hlow.ne'

/-- **The symbols.** Ascending locates and prices leave one way to read the octets. -/
theorem symbols_of_octets {ss ss' : List SymbolRows} (hss : ss.Pairwise fun s t => s.locate < t.locate)
    (hss' : ss'.Pairwise fun s t => s.locate < t.locate) (hv : ∀ s ∈ ss, s.Valid) (hv' : ∀ s ∈ ss', s.Valid)
    (h : fed (ss.flatMap updates) = fed (ss'.flatMap updates)) : ss = ss' := by
  induction ss generalizing ss' with
  | nil =>
    cases ss' with
    | nil => rfl
    | cons s' ss' =>
      rw [List.flatMap_cons, Sha256.fed_append] at h
      exact absurd h.symm (updates_ne_nil s' _)
  | cons s ss ih =>
    cases ss' with
    | nil =>
      rw [List.flatMap_cons, Sha256.fed_append] at h
      exact absurd h (updates_ne_nil s _)
    | cons s' ss' =>
      obtain ⟨hlt, htail⟩ := List.pairwise_cons.mp hss
      obtain ⟨hlt', htail'⟩ := List.pairwise_cons.mp hss'
      have hs := hv s List.mem_cons_self
      have hs' := hv' s' List.mem_cons_self
      obtain ⟨locate, bids, asks⟩ := s
      obtain ⟨locate', bids', asks'⟩ := s'
      rw [List.flatMap_cons, List.flatMap_cons, Sha256.fed_append, Sha256.fed_append] at h
      unfold updates at h
      rw [Sha256.fed_u32_inj, Sha256.fed_append, Sha256.fed_append, List.append_assoc, List.append_assoc] at h
      obtain ⟨hlocate, hrest⟩ := h
      obtain rfl : locate = locate' := by
        have htoNat := congrArg UInt32.toNat hlocate
        have hl := hs.locate_lt
        have hl' := hs'.locate_lt
        rwa [UInt32.toNat_ofNat_of_lt' (by change locate < 2 ^ 32; dsimp only at hl; omega),
          UInt32.toNat_ofNat_of_lt' (by change locate' < 2 ^ 32; dsimp only at hl'; omega)] at htoNat
      obtain ⟨rfl, hasks⟩ := Row.side_append_inj hs.bids hs'.bids (not_atZero_side _ _) (not_atZero_side _ _) hrest
      obtain ⟨rfl, hsymbols⟩ := Row.side_append_inj hs.asks hs'.asks
        (not_atZero_symbols fun t ht => ⟨Nat.zero_lt_of_lt (hlt t ht), (hv t (List.mem_cons_of_mem _ ht)).locate_lt⟩)
        (not_atZero_symbols fun t ht => ⟨Nat.zero_lt_of_lt (hlt' t ht), (hv' t (List.mem_cons_of_mem _ ht)).locate_lt⟩)
        hasks
      rw [ih htail htail' (fun t ht => hv t (List.mem_cons_of_mem _ ht)) (fun t ht => hv' t (List.mem_cons_of_mem _ ht))
        hsymbols]

end SymbolRows

/-! ## The displayed book -/

namespace Book

variable {A A' : Book} {locate : UInt16} {buy : Bool}

theorem map_price_rows : (A.rows locate buy).map Row.price = A.prices locate buy := by
  unfold rows
  rw [List.map_map]
  exact List.map_id _

/-- A book's rows, when no level's counter has wrapped. -/
theorem side_rows (h : ∀ price, (A.level locate buy price).length < 2 ^ 32) : Row.Side (A.rows locate buy) where
  ascending := by
    rw [map_price_rows]
    exact pairwise_prices
  counted r hr := by
    obtain ⟨price, -, rfl⟩ := List.mem_map.mp hr
    unfold Row.Counted row
    rw [List.length_map]
    exact UInt32.toNat_ofNat_of_lt' (h price)

theorem symbolRows_eq_some {n : ℕ} {s : SymbolRows} (h : A.symbolRows n = some s) :
    s = { locate := n, bids := A.rows (UInt16.ofNat n) true, asks := A.rows (UInt16.ofNat n) false } := by
  unfold symbolRows at h
  dsimp only at h
  split_ifs at h
  exact (Option.some.inj h).symm

theorem mem_symbols {s : SymbolRows} : s ∈ A.symbols ↔ s.locate < 2 ^ 16 ∧ A.symbolRows s.locate = some s := by
  unfold symbols
  rw [List.mem_filterMap]
  constructor
  · rintro ⟨n, hn, hs⟩
    have hlocate : s.locate = n := by rw [symbolRows_eq_some hs]
    rw [hlocate]
    exact ⟨List.mem_range.mp hn, hs⟩
  · rintro ⟨hlt, hs⟩
    exact ⟨s.locate, List.mem_range.mpr hlt, hs⟩

theorem pairwise_symbols (A : Book) : A.symbols.Pairwise fun s t => s.locate < t.locate := by
  unfold symbols
  refine List.pairwise_filterMap.mpr (List.pairwise_lt_range.imp fun hlt s hs t ht => ?_)
  rw [symbolRows_eq_some hs, symbolRows_eq_some ht]
  exact hlt

theorem symbols_valid (h : ∀ locate buy price, (A.level locate buy price).length < 2 ^ 32) :
    ∀ s ∈ A.symbols, s.Valid := by
  intro s hs
  obtain ⟨hlt, heq⟩ := mem_symbols.mp hs
  refine ⟨hlt, ?_, ?_⟩ <;> rw [symbolRows_eq_some heq]
  · exact side_rows (h _ true)
  · exact side_rows (h _ false)

/-- The symbols that the walk finds tell the rows at every locate. -/
theorem rows_eq_of_symbols (h : A.symbols = A'.symbols) (locate : UInt16) (buy : Bool) :
    A.rows locate buy = A'.rows locate buy := by
  have hlt : locate.toNat < 2 ^ 16 := locate.toNat_lt
  have hget : ∀ {B B' : Book} {s : SymbolRows}, B.symbols = B'.symbols → B.symbolRows locate.toNat = some s →
      B'.symbolRows locate.toNat = some s := by
    intro B B' s hsymbols hs
    have hlocate : s.locate = locate.toNat := by rw [symbolRows_eq_some hs]
    have hmem : s ∈ B.symbols := mem_symbols.mpr ⟨hlocate ▸ hlt, hlocate ▸ hs⟩
    rw [hsymbols] at hmem
    exact hlocate ▸ (mem_symbols.mp hmem).2
  have hrows : A.symbolRows locate.toNat = A'.symbolRows locate.toNat := by
    cases hs : A.symbolRows locate.toNat with
    | some s => exact (hget h hs).symm
    | none =>
      cases hs' : A'.symbolRows locate.toNat with
      | none => rfl
      | some s => exact absurd (hget h.symm hs') (by rw [hs]; exact Option.some_ne_none s |>.symm)
  unfold symbolRows at hrows
  rw [UInt16.ofNat_toNat] at hrows
  dsimp only at hrows
  split_ifs at hrows with hnil hnil' hnil'
  · cases buy
    · exact hnil.2.trans hnil'.2.symm
    · exact hnil.1.trans hnil'.1.symm
  · obtain ⟨-, hbids, hasks⟩ := SymbolRows.mk.inj (Option.some.inj hrows)
    cases buy
    · exact hasks
    · exact hbids

/-- Equal rows tell every level. -/
theorem row_eq_of_rows (h : A.rows locate buy = A'.rows locate buy) (price : Price) :
    A.row locate buy price = A'.row locate buy price := by
  have hprices : A.prices locate buy = A'.prices locate buy := by
    rw [← map_price_rows, ← map_price_rows, h]
  by_cases hmem : price ∈ A.prices locate buy
  · have hrow : A.row locate buy price ∈ A'.rows locate buy := h ▸ List.mem_map_of_mem hmem
    obtain ⟨price', -, heq⟩ := List.mem_map.mp hrow
    obtain rfl : price' = price := congrArg Row.price heq
    exact heq.symm
  · have hnil : A.level locate buy price = [] := not_not.mp fun hne => hmem (level_ne_nil_iff_mem_prices.mp hne)
    have hnil' : A'.level locate buy price = [] := not_not.mp fun hne =>
      hmem (hprices ▸ level_ne_nil_iff_mem_prices.mp hne)
    unfold row
    rw [hnil, hnil']

end Book

namespace ReferenceBook

/-- Every level holds fewer than `2 ^ 32` orders. -/
def Uncrowded (b : ReferenceBook) : Prop := ∀ locate side price, (b.level locate side price).fifo.length < 2 ^ 32

/-- The same levels, and the same shares of each order in them. -/
def SameDisplay (b b' : ReferenceBook) : Prop :=
  ∀ locate side price, b.level locate side price = b'.level locate side price ∧
    ∀ ref ∈ (b.level locate side price).fifo,
      (b.order ref).map RefOrder.shares = (b'.order ref).map RefOrder.shares

variable {b b' : ReferenceBook} {A A' : Book}

theorem Represents.uncrowded (h : Represents b A) (hb : b.Uncrowded) (locate : UInt16) (buy : Bool) (price : Price) :
    (A.level locate buy price).length < 2 ^ 32 := by
  have hlen : ∀ side, (A.level locate (side == kBuy) price).length < 2 ^ 32 := by
    intro side
    have hfifo := hb locate side price
    rw [h.level_query] at hfifo
    unfold Book.snapshotOf at hfifo
    rwa [List.length_map] at hfifo
  cases buy
  · exact hlen kSell
  · exact hlen kBuy

theorem sameDisplay_of_rows (h : Represents b A) (h' : Represents b' A')
    (hrows : ∀ locate buy, A.rows locate buy = A'.rows locate buy) : b.SameDisplay b' := by
  intro locate side price
  have hrow := Book.row_eq_of_rows (hrows locate (side == kBuy)) price
  unfold Book.row at hrow
  obtain ⟨-, hshares, horders, hqueue⟩ := Row.mk.inj hrow
  have hfifo : (A.level locate (side == kBuy) price).map Entry.ref =
      (A'.level locate (side == kBuy) price).map Entry.ref := by
    have hfst := congrArg (List.map Prod.fst) hqueue
    rwa [List.map_map, List.map_map] at hfst
  rw [h.level_query, h'.level_query]
  unfold Book.snapshotOf
  refine ⟨?_, fun ref href => ?_⟩
  · have hempty : (A.level locate (side == kBuy) price).isEmpty = (A'.level locate (side == kBuy) price).isEmpty := by
      rw [← List.isEmpty_map (f := Entry.ref), hfifo, List.isEmpty_map]
    rw [hempty, Book.ofNat_total, Book.ofNat_total, hshares, horders, hfifo]
  · obtain ⟨e, he, rfl⟩ := List.mem_map.mp href
    have hpair : (e.ref, e.shares) ∈ (A'.level locate (side == kBuy) price).map fun e => (e.ref, e.shares) :=
      hqueue ▸ List.mem_map_of_mem he
    obtain ⟨e', he', heq⟩ := List.mem_map.mp hpair
    obtain ⟨href', hshares'⟩ := Prod.mk.inj heq
    rw [h.shares_order (Book.mem_level.mp he).1, ← href', h'.shares_order (Book.mem_level.mp he').1, hshares']

/-- **The book's stream.** -/
theorem sameDisplay_of_octets (h : Represents b A) (h' : Represents b' A') (hb : b.Uncrowded) (hb' : b'.Uncrowded)
    (hoctets : b.bookOctets = b'.bookOctets) : b.SameDisplay b' := by
  refine sameDisplay_of_rows h h' (Book.rows_eq_of_symbols ?_)
  refine SymbolRows.symbols_of_octets A.pairwise_symbols A'.pairwise_symbols (Book.symbols_valid (h.uncrowded hb))
    (Book.symbols_valid (h'.uncrowded hb')) ?_
  rw [← h.bookUpdates, ← h'.bookUpdates]
  exact hoctets

end ReferenceBook

end Carteret
