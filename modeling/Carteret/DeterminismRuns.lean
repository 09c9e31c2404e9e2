import Carteret.DeterminismBook

/-!
# Two replays

What equal digests say of two replays.

1. The effects of a replay tell the live orders but for stock and attribution (`bare_run`), so equal effects leave
   books with equal streams.
2. A level of `2 ^ 32` orders reports none, and the octets of its orders can be read as other levels.
-/

namespace Carteret

open Sha256 (Update fed)

/-! ## The effects tell the book -/

/-- The order without what no effect carries. -/
def Entry.bare (e : Entry) : Entry := { e with stock := [], attribution := [] }

namespace Book

variable {A A' : Book}

def bare (A : Book) : Book where
  orders := A.orders.map Entry.bare
  unique := by
    rw [List.map_map]
    exact A.unique

/-- What an effect says of the live orders. -/
def apply (A : Book) : Event → Book
  | .add _ locate ref side price shares =>
    A.place { ref := ref, locate := locate, side := side, price := price, shares := shares, stock := [],
              attribution := [] }
  | .reduce _ _ _ ref qty => A.reduce ref qty
  | .remove _ _ ref => A.drop ref
  | .replace _ _ oldRef newRef price shares =>
    match A.find oldRef with
    | none => A
    | some e => (A.drop oldRef).place { e with ref := newRef, price := price, shares := shares }
  | .print .. => A
  | .systemEvent .. => A

theorem bare_drop (A : Book) (ref : Ref) : (A.drop ref).bare = A.bare.drop ref := by
  refine ext_orders ?_
  show (A.orders.filter _).map Entry.bare = (A.orders.map Entry.bare).filter _
  rw [List.filter_map]
  rfl

theorem bare_place (A : Book) (e : Entry) : (A.place e).bare = A.bare.place e.bare := by
  refine ext_orders ?_
  show ((A.drop e.ref).orders ++ [e]).map Entry.bare = (A.bare.drop e.ref).orders ++ [e.bare]
  rw [List.map_append, ← bare_drop]
  rfl

theorem bare_reduce (A : Book) (ref : Ref) (qty : Shares) : (A.reduce ref qty).bare = A.bare.reduce ref qty := by
  refine ext_orders ?_
  show (A.orders.filterMap (Entry.reduce ref qty)).map Entry.bare =
    (A.orders.map Entry.bare).filterMap (Entry.reduce ref qty)
  rw [List.map_filterMap, List.filterMap_map]
  refine List.filterMap_congr fun e _ => ?_
  by_cases href : e.ref = ref
  · by_cases hzero : e.shares - taken qty e.shares = 0 <;> simp [Entry.reduce, Entry.bare, href, hzero]
  · simp [Entry.reduce, Entry.bare, href]

theorem find_bare (A : Book) (ref : Ref) : A.bare.find ref = (A.find ref).map Entry.bare := by
  unfold find bare
  rw [List.find?_map]
  rfl

theorem bare_step (A : Book) (v : ReplayMessage) :
    (v.message.elim A A.step).bare = v.event.elim A.bare A.bare.apply := by
  cases v with
  | systemEvent v => rfl
  | stockDirectory v => rfl
  | addOrder v => exact bare_place A _
  | addOrderMpid v => exact bare_place A _
  | orderExecuted v => exact bare_reduce A _ _
  | orderExecutedPrice v => exact bare_reduce A _ _
  | orderCancel v => exact bare_reduce A _ _
  | orderDelete v => exact bare_drop A _
  | orderReplace v =>
    show (A.step (.orderReplace v)).bare = A.bare.apply
      (.replace v.ts64 v.locate v.oldOrderRef v.newOrderRef v.price v.shares)
    unfold step apply
    dsimp only
    rw [find_bare]
    cases A.find v.oldOrderRef with
    | none => rfl
    | some e =>
      dsimp only [Option.map_some]
      rw [bare_place, bare_drop]
      rfl
  | trade v => rfl
  | crossTrade v => rfl
  | brokenTrade v => rfl
  | other => rfl

theorem bare_run (vs : List ReplayMessage) :
    (Runs.run step empty (DeterministicReplay.messagesOf vs)).bare =
      Runs.run apply empty (DeterministicReplay.eventsOf vs) := by
  induction vs using List.reverseRecOn with
  | nil => rfl
  | append_singleton vs v ih =>
    have hmessages : Runs.run step empty (DeterministicReplay.messagesOf (vs ++ [v])) =
        v.message.elim (Runs.run step empty (DeterministicReplay.messagesOf vs))
          (Runs.run step empty (DeterministicReplay.messagesOf vs)).step := by
      unfold DeterministicReplay.messagesOf
      rw [List.filterMap_append, Runs.run_append]
      cases h : v.message with
      | none => rw [List.filterMap_cons_none h]; rfl
      | some m => rw [List.filterMap_cons_some h]; rfl
    have hevents : Runs.run apply empty (DeterministicReplay.eventsOf (vs ++ [v])) =
        v.event.elim (Runs.run apply empty (DeterministicReplay.eventsOf vs))
          (Runs.run apply empty (DeterministicReplay.eventsOf vs)).apply := by
      unfold DeterministicReplay.eventsOf
      rw [List.filterMap_append, Runs.run_append]
      cases h : v.event with
      | none => rw [List.filterMap_cons_none h]; rfl
      | some e => rw [List.filterMap_cons_some h]; rfl
    rw [hmessages, hevents, bare_step, ih]

theorem level_bare (A : Book) (locate : UInt16) (buy : Bool) (price : Price) :
    A.bare.level locate buy price = (A.level locate buy price).map Entry.bare := by
  unfold level bare
  rw [List.filter_map]
  rfl

theorem rows_bare (A : Book) (locate : UInt16) (buy : Bool) : A.bare.rows locate buy = A.rows locate buy := by
  have hprices : A.bare.prices locate buy = A.prices locate buy := by
    unfold prices bare
    rw [List.filter_map, List.map_map]
    rfl
  unfold rows
  rw [hprices]
  refine List.map_congr_left fun price _ => ?_
  unfold row sumShares
  rw [level_bare, List.length_map, List.map_map, List.map_map]
  rfl

theorem symbols_eq_of_rows (h : ∀ locate buy, A.rows locate buy = A'.rows locate buy) : A.symbols = A'.symbols := by
  unfold symbols
  refine List.filterMap_congr fun n _ => ?_
  unfold symbolRows
  rw [h, h]

end Book

namespace DeterministicReplay

/-- **Equal effects, equal books.** -/
theorem bookOctets_of_events {vs vs' : List ReplayMessage} (h : eventsOf vs = eventsOf vs') :
    (run vs).book.bookOctets = (run vs').book.bookOctets := by
  have hbare : (Runs.run Book.step Book.empty (messagesOf vs)).bare =
      (Runs.run Book.step Book.empty (messagesOf vs')).bare := by
    rw [Book.bare_run, Book.bare_run, h]
  have hsymbols : (Runs.run Book.step Book.empty (messagesOf vs)).symbols =
      (Runs.run Book.step Book.empty (messagesOf vs')).symbols := by
    refine Book.symbols_eq_of_rows fun locate buy => ?_
    rw [← Book.rows_bare, hbare, Book.rows_bare]
  rw [(run_spec vs).1, (run_spec vs').1]
  unfold ReferenceBook.bookOctets
  rw [(ReferenceBook.represents_run _).bookUpdates, (ReferenceBook.represents_run _).bookUpdates, hsymbols]

end DeterministicReplay

/-! ## Crowded levels -/

/-- An order of no shares at the price zero. -/
def zeroAdd (side : UInt8) (ref : ℕ) : Message :=
  .addOrder { locate := 1, ts := 0, orderRef := UInt64.ofNat ref, side := side, shares := 0, stock := [], price := 0 }

/-- Such orders at both sides. -/
def zeroAdds (bids asks : List ℕ) : List Message := bids.map (zeroAdd kBuy) ++ asks.map (zeroAdd kSell)

/-- The references of one side. -/
def refsOf (bids asks : List ℕ) (buy : Bool) : List ℕ := if buy then bids else asks

/-- The row of such orders. -/
def zeroRow (refs : List ℕ) : Row where
  price := 0
  shares := 0
  orders := UInt32.ofNat refs.length
  queue := refs.map fun ref => (UInt64.ofNat ref, 0)

namespace Book

/-- The order of such a message. -/
def zeroEntry (side : UInt8) (ref : ℕ) : Entry where
  ref := UInt64.ofNat ref
  locate := 1
  side := side
  price := 0
  shares := 0
  stock := fillAlpha 8 []
  attribution := fillAlpha 4 []

variable {bids asks : List ℕ}

theorem orders_run_adds {f : α → Message} {g : α → Entry}
    (hstep : ∀ (A : Book) (a : α), A.step (f a) = A.place (g a)) {as : List α} (hnew : (as.map fun a => (g a).ref).Nodup) : (Runs.run step empty (as.map f)).orders = as.map g := by
  induction as using List.reverseRecOn with
  | nil => rfl
  | append_singleton as a ih =>
    rw [List.map_append, List.nodup_append] at hnew
    obtain ⟨has, -, hdisjoint⟩ := hnew
    have hall := ih has
    rw [List.map_append, List.map_append, List.map_singleton, List.map_singleton, Runs.run_snoc, hstep, orders_place,
      drop_of_absent, hall]
    intro e he
    rw [hall] at he
    obtain ⟨a', ha', rfl⟩ := List.mem_map.mp he
    exact hdisjoint _ (List.mem_map_of_mem ha') _ (List.mem_singleton.mpr rfl)

section

variable (hnodup : (bids ++ asks).Nodup) (hlt : ∀ ref ∈ bids ++ asks, ref < 2 ^ 64)

include hnodup hlt

theorem orders_zeroAdds :
    (Runs.run step empty (zeroAdds bids asks)).orders = bids.map (zeroEntry kBuy) ++ asks.map (zeroEntry kSell) := by
  have hrefs : ((bids.map (Prod.mk kBuy) ++ asks.map (Prod.mk kSell)).map fun x => (zeroEntry x.1 x.2).ref).Nodup := by
    rw [List.map_append, List.map_map, List.map_map]
    have hmap : ((bids ++ asks).map UInt64.ofNat).Nodup := hnodup.map_on fun m hm n hn heq => ?_
    · rwa [List.map_append] at hmap
    have htoNat := congrArg UInt64.toNat heq
    rwa [UInt64.toNat_ofNat_of_lt' (hlt m hm), UInt64.toNat_ofNat_of_lt' (hlt n hn)] at htoNat
  have hrun := orders_run_adds (f := fun x : UInt8 × ℕ => zeroAdd x.1 x.2) (g := fun x => zeroEntry x.1 x.2)
    (fun A x => rfl) hrefs
  rw [List.map_append, List.map_append, List.map_map, List.map_map, List.map_map, List.map_map] at hrun
  exact hrun

theorem level_zeroAdds (buy : Bool) : (Runs.run step empty (zeroAdds bids asks)).level 1 buy 0 =
    if buy then bids.map (zeroEntry kBuy) else asks.map (zeroEntry kSell) := by
  unfold level
  rw [orders_zeroAdds hnodup hlt, List.filter_append, List.filter_map, List.filter_map]
  have hrests : ∀ side ref, (zeroEntry side ref).restsAt 1 buy 0 = ((side == kBuy) == buy) := by
    intro side ref
    simp [Entry.restsAt, Entry.buy, zeroEntry]
  simp only [Function.comp_def, hrests]
  cases buy <;> simp [kBuy, kSell]

theorem prices_zeroAdds (locate : UInt16) (buy : Bool) :
    (Runs.run step empty (zeroAdds bids asks)).prices locate buy =
      if locate = 1 ∧ refsOf bids asks buy ≠ [] then [0] else [] := by
  refine eq_of_ascending pairwise_prices (by split_ifs <;> simp) fun price => ?_
  rw [mem_prices, orders_zeroAdds hnodup hlt]
  constructor
  · rintro ⟨e, he, rfl, rfl, rfl⟩
    rcases List.mem_append.mp he with he | he
    · obtain ⟨ref, href, rfl⟩ := List.mem_map.mp he
      rw [if_pos ⟨rfl, List.ne_nil_of_mem (a := ref) href⟩]
      exact List.mem_singleton.mpr rfl
    · obtain ⟨ref, href, rfl⟩ := List.mem_map.mp he
      rw [if_pos ⟨rfl, List.ne_nil_of_mem (a := ref) href⟩]
      exact List.mem_singleton.mpr rfl
  · intro hprice
    by_cases hside : locate = 1 ∧ refsOf bids asks buy ≠ []
    · rw [if_pos hside] at hprice
      obtain rfl := List.mem_singleton.mp hprice
      obtain ⟨rfl, hne⟩ := hside
      obtain ⟨ref, href⟩ := List.exists_mem_of_ne_nil _ hne
      cases buy
      · exact ⟨zeroEntry kSell ref, List.mem_append_right _ (List.mem_map_of_mem href), rfl, rfl, rfl⟩
      · exact ⟨zeroEntry kBuy ref, List.mem_append_left _ (List.mem_map_of_mem href), rfl, rfl, rfl⟩
    · rw [if_neg hside] at hprice
      cases hprice

theorem row_zeroAdds (buy : Bool) :
    (Runs.run step empty (zeroAdds bids asks)).row 1 buy 0 = zeroRow (refsOf bids asks buy) := by
  have hsum : ∀ side, ∀ refs : List ℕ, sumShares (refs.map (zeroEntry side)) = 0 := by
    intro side refs
    unfold sumShares
    rw [List.map_map]
    refine List.sum_eq_zero fun n hn => ?_
    obtain ⟨ref, -, rfl⟩ := List.mem_map.mp hn
    rfl
  unfold row zeroRow refsOf
  rw [level_zeroAdds hnodup hlt]
  cases buy <;> simp [hsum, zeroEntry]

theorem rows_zeroAdds (locate : UInt16) (buy : Bool) : (Runs.run step empty (zeroAdds bids asks)).rows locate buy =
    if locate = 1 ∧ refsOf bids asks buy ≠ [] then [zeroRow (refsOf bids asks buy)] else [] := by
  unfold rows
  rw [prices_zeroAdds hnodup hlt]
  by_cases hside : locate = 1 ∧ refsOf bids asks buy ≠ []
  · rw [if_pos hside, if_pos hside, hside.1, List.map_singleton, row_zeroAdds hnodup hlt]
  · rw [if_neg hside, if_neg hside, List.map_nil]

theorem symbols_zeroAdds (hbids : bids ≠ []) (hasks : asks ≠ []) :
    (Runs.run step empty (zeroAdds bids asks)).symbols =
      [{ locate := 1, bids := [zeroRow bids], asks := [zeroRow asks] }] := by
  have : Std.Antisymm (α := SymbolRows) (fun s t => s.locate < t.locate) := ⟨fun s t h h' => absurd h' h.asymm⟩
  have : Std.Irrefl (α := SymbolRows) (fun s t => s.locate < t.locate) := ⟨fun s => lt_irrefl _⟩
  have hone : (Runs.run step empty (zeroAdds bids asks)).symbolRows 1 =
      some { locate := 1, bids := [zeroRow bids], asks := [zeroRow asks] } := by
    have hrows : ∀ buy, refsOf bids asks buy ≠ [] → (Runs.run step empty (zeroAdds bids asks)).rows 1 buy =
        [zeroRow (refsOf bids asks buy)] := fun buy hne => (rows_zeroAdds hnodup hlt 1 buy).trans (if_pos ⟨rfl, hne⟩)
    unfold symbolRows
    dsimp only
    rw [show UInt16.ofNat 1 = 1 from rfl, hrows true hbids, hrows false hasks]
    rfl
  have hother : ∀ n < 2 ^ 16, n ≠ 1 → (Runs.run step empty (zeroAdds bids asks)).symbolRows n = none := by
    intro n hn hne
    have hlocate : UInt16.ofNat n ≠ 1 := fun h => hne (by
      have htoNat := congrArg UInt16.toNat h
      rwa [UInt16.toNat_ofNat_of_lt' hn] at htoNat)
    have hrows : ∀ buy, (Runs.run step empty (zeroAdds bids asks)).rows (UInt16.ofNat n) buy = [] := fun buy =>
      (rows_zeroAdds hnodup hlt _ buy).trans (if_neg fun h => hlocate h.1)
    unfold symbolRows
    dsimp only
    rw [hrows, hrows]
    rfl
  refine (pairwise_symbols _).eq_of_mem_iff (List.pairwise_singleton _ _) fun s => ?_
  rw [mem_symbols, List.mem_singleton]
  constructor
  · rintro ⟨hs, hsome⟩
    by_cases hlocate : s.locate = 1
    · rw [hlocate, hone] at hsome
      exact (Option.some.inj hsome).symm
    · rw [hother _ hs hlocate] at hsome
      cases hsome
  · rintro rfl
    exact ⟨(by norm_num : 1 < 2 ^ 16), hone⟩

end

end Book

/-- The octets of such a book. -/
theorem ReferenceBook.bookOctets_zeroAdds {bids asks : List ℕ} (hnodup : (bids ++ asks).Nodup)
    (hlt : ∀ ref ∈ bids ++ asks, ref < 2 ^ 64) (hbids : bids ≠ []) (hasks : asks ≠ []) :
    (run {} (zeroAdds bids asks)).bookOctets =
      fed (SymbolRows.updates { locate := 1, bids := [zeroRow bids], asks := [zeroRow asks] }) := by
  unfold bookOctets
  rw [(represents_run _).bookUpdates, Book.symbols_zeroAdds hnodup hlt hbids hasks, List.flatMap_singleton]

/-- The octets of an order of no shares. -/
def orderOctets (ref : ℕ) : List UInt8 := BigEndian.bytes 8 ref ++ BigEndian.bytes 4 0

theorem fed_zeroRow {refs : List ℕ} (hlt : ∀ ref ∈ refs, ref < 2 ^ 64) : fed (zeroRow refs).updates =
    fed [.u32 0, .u64 0, .u32 (UInt32.ofNat refs.length)] ++ refs.flatMap orderOctets := by
  unfold Row.updates zeroRow
  rw [Sha256.fed_append, Sha256.fed_flatMap, List.flatMap_map]
  refine congrArg _ (List.flatMap_congr fun ref href => ?_)
  show BigEndian.bytes 8 (UInt64.ofNat ref).toNat ++ BigEndian.bytes 4 0 = _
  rw [UInt64.toNat_ofNat_of_lt' (hlt ref href)]
  rfl

/-- What stands between the bids and the asks. -/
def between : List UInt8 := fed [.u8 kSell, .u32 1, .u32 0, .u64 0, .u32 0]

/-- The octets of such a book, with one bid and no ask by the counters. -/
theorem ReferenceBook.octets_zeroAdds {bids asks : List ℕ} (hnodup : (bids ++ asks).Nodup)
    (hlt : ∀ ref ∈ bids ++ asks, ref < 2 ^ 64) (hbids : bids.length % 2 ^ 32 = 1) (hasks : asks.length % 2 ^ 32 = 0)
    (hne : asks ≠ []) : (run {} (zeroAdds bids asks)).bookOctets =
      fed [.u32 1, .u8 kBuy, .u32 1, .u32 0, .u64 0, .u32 1] ++ bids.flatMap orderOctets ++
        (between ++ asks.flatMap orderOctets) := by
  have hbids' : UInt32.ofNat bids.length = 1 := by
    rw [← UInt32.toNat_inj, UInt32.toNat_ofNat', hbids]
    rfl
  have hasks' : UInt32.ofNat asks.length = 0 := by
    rw [← UInt32.toNat_inj, UInt32.toNat_ofNat', hasks]
    rfl
  have hnil : bids ≠ [] := by
    rintro rfl
    cases hbids
  rw [bookOctets_zeroAdds hnodup hlt hnil hne]
  unfold SymbolRows.updates Row.sideUpdates
  rw [Sha256.fed_cons, Sha256.fed_append, Sha256.fed_append, Sha256.fed_append, List.flatMap_singleton,
    List.flatMap_singleton, fed_zeroRow fun ref href => hlt ref (List.mem_append_left _ href),
    fed_zeroRow fun ref href => hlt ref (List.mem_append_right _ href), hbids', hasks']
  simp only [List.append_assoc]
  rfl

/-- A small reference, and the same behind three octets. -/
theorem orderOctets_small {v : ℕ} (hv : v < 256 ^ 5) :
    orderOctets v = [0, 0, 0] ++ (BigEndian.bytes 5 v ++ BigEndian.bytes 4 0) := by
  unfold orderOctets
  rw [show 8 = 3 + 5 from rfl, BigEndian.bytes_add, Nat.div_eq_of_lt hv, List.append_assoc]
  rfl

theorem orderOctets_shifted (v : ℕ) :
    orderOctets (v * 256 ^ 3) = (BigEndian.bytes 5 v ++ BigEndian.bytes 4 0) ++ [0, 0, 0] := by
  unfold orderOctets
  rw [show 8 = 5 + 3 from rfl, BigEndian.bytes_add, BigEndian.bytes_mul, Nat.mul_div_cancel _ (by decide), List.append_assoc,
    List.append_assoc]
  rfl

/-- What leads each word can trail it. -/
theorem flatMap_rotate {α β : Type*} (u : List β) (w : α → List β) (as : List α) :
    (as.flatMap fun a => u ++ w a) ++ u = u ++ as.flatMap fun a => w a ++ u := by
  induction as with
  | nil => rw [List.flatMap_nil, List.flatMap_nil, List.append_nil, List.nil_append]
  | cons a as ih => rw [List.flatMap_cons, List.flatMap_cons, List.append_assoc, ih, List.append_assoc, List.append_assoc]

/-- **Two ways to read the same octets.** The asks `vs` of one book are bids of the other, three octets on. -/
theorem flatMap_orderOctets {vs : List ℕ} (hvs : ∀ v ∈ vs, v < 256 ^ 5) (ts : List ℕ) :
    between ++ (vs ++ [83 * 256 ^ 4 + 1, 0] ++ ts).flatMap orderOctets =
      ([83 * 256 ^ 7 + 256 ^ 3, 0] ++ vs.map (· * 256 ^ 3)).flatMap orderOctets ++ (between ++ ts.flatMap orderOctets) := by
  have htail : [83 * 256 ^ 4 + 1, 0].flatMap orderOctets = [0, 0, 0] ++ between := by decide +kernel
  have hlead : [83 * 256 ^ 7 + 256 ^ 3, 0].flatMap orderOctets = between ++ [0, 0, 0] := by decide +kernel
  have hrotate : vs.flatMap orderOctets ++ [0, 0, 0] = [0, 0, 0] ++ (vs.map (· * 256 ^ 3)).flatMap orderOctets := by
    rw [List.flatMap_map, List.flatMap_congr fun v hv => orderOctets_small (hvs v hv),
      List.flatMap_congr fun v _ => orderOctets_shifted v]
    exact flatMap_rotate _ _ vs
  calc between ++ (vs ++ [83 * 256 ^ 4 + 1, 0] ++ ts).flatMap orderOctets
      = between ++ (vs.flatMap orderOctets ++ [0, 0, 0]) ++ (between ++ ts.flatMap orderOctets) := by
        rw [List.flatMap_append, List.flatMap_append, htail]
        simp only [List.append_assoc]
    _ = between ++ [0, 0, 0] ++ (vs.map (· * 256 ^ 3)).flatMap orderOctets ++ (between ++ ts.flatMap orderOctets) := by
        rw [hrotate]
        simp only [List.append_assoc]
    _ = _ := by rw [List.flatMap_append, hlead]

def lowRefs (n : ℕ) : List ℕ := (List.range n).map (· + 1)

def highRefs (n : ℕ) : List ℕ := (List.range n).map (2 ^ 63 + ·)

/-- The asks of a book with one bid. -/
def someAsks (n m : ℕ) : List ℕ := lowRefs n ++ [83 * 256 ^ 4 + 1, 0] ++ highRefs m

/-- The bids of a book with `m` asks. -/
def someBids (n : ℕ) : List ℕ := 2 ^ 62 :: ([83 * 256 ^ 7 + 256 ^ 3, 0] ++ (lowRefs n).map (· * 256 ^ 3))

theorem mem_lowRefs {n v : ℕ} : v ∈ lowRefs n ↔ 0 < v ∧ v ≤ n := by
  unfold lowRefs
  rw [List.mem_map]
  constructor
  · rintro ⟨i, hi, rfl⟩
    exact ⟨i.succ_pos, List.mem_range.mp hi⟩
  · rintro ⟨hpos, hle⟩
    exact ⟨v - 1, List.mem_range.mpr (by omega), by omega⟩

theorem mem_highRefs {m v : ℕ} : v ∈ highRefs m ↔ 2 ^ 63 ≤ v ∧ v < 2 ^ 63 + m := by
  unfold highRefs
  rw [List.mem_map]
  constructor
  · rintro ⟨i, hi, rfl⟩
    have := List.mem_range.mp hi
    omega
  · rintro ⟨hle, hlt⟩
    exact ⟨v - 2 ^ 63, List.mem_range.mpr (by omega), by omega⟩

theorem nodup_lowRefs (n : ℕ) : (lowRefs n).Nodup := List.nodup_range.map fun _ _ h => Nat.succ.inj h

theorem nodup_highRefs (m : ℕ) : (highRefs m).Nodup := List.nodup_range.map fun _ _ h => Nat.add_left_cancel h

theorem nodup_asks {n m : ℕ} (hn : n < 2 ^ 32) (hm : m ≤ 2 ^ 32) :
    ([2 ^ 62] ++ someAsks n m).Nodup ∧ ∀ ref ∈ [2 ^ 62] ++ someAsks n m, ref < 2 ^ 64 := by
  unfold someAsks
  simp only [List.nodup_append, List.mem_append, List.mem_cons, List.not_mem_nil, or_false, mem_lowRefs, mem_highRefs]
  refine ⟨⟨List.nodup_singleton _, ⟨⟨nodup_lowRefs n, by decide, ?_⟩, nodup_highRefs m, ?_⟩, ?_⟩, ?_⟩
  · intro a ha b hb
    omega
  · intro a ha b hb
    omega
  · intro a ha b hb
    omega
  · intro a ha
    omega

theorem nodup_bids {n m : ℕ} (hn : n < 2 ^ 32) (hm : m ≤ 2 ^ 32) :
    (someBids n ++ highRefs m).Nodup ∧ ∀ ref ∈ someBids n ++ highRefs m, ref < 2 ^ 64 := by
  have hmem : ∀ a, a ∈ (lowRefs n).map (· * 256 ^ 3) ↔ ∃ v, (0 < v ∧ v ≤ n) ∧ v * 256 ^ 3 = a := by
    intro a
    simp only [List.mem_map, mem_lowRefs]
  have hmap : ((lowRefs n).map (· * 256 ^ 3)).Nodup :=
    (nodup_lowRefs n).map fun _ _ h => Nat.eq_of_mul_eq_mul_right (by decide) h
  unfold someBids
  simp only [List.cons_append, List.nil_append, List.nodup_cons, List.nodup_append, List.mem_append, List.mem_cons, hmem,
    mem_highRefs]
  refine ⟨⟨?_, ?_, ?_, hmap, nodup_highRefs m, ?_⟩, ?_⟩
  · rintro (h | h | ⟨v, hv, h⟩ | h) <;> omega
  · rintro (h | ⟨v, hv, h⟩ | h) <;> omega
  · rintro (⟨v, hv, h⟩ | h) <;> omega
  · rintro a ⟨v, hv, rfl⟩ b hb
    omega
  · rintro a (h | h | h | ⟨v, hv, rfl⟩ | h) <;> omega

/-- `2 ^ 33` asks, and one bid. -/
def manyAsks : List Message := zeroAdds [2 ^ 62] (someAsks (2 ^ 32 - 2) (2 ^ 32))

/-- `2 ^ 32` asks, and as many bids and one. -/
def manyBids : List Message := zeroAdds (someBids (2 ^ 32 - 2)) (highRefs (2 ^ 32))

theorem length_someAsks (n m : ℕ) : (someAsks n m).length = n + 2 + m := by
  simp only [someAsks, lowRefs, highRefs, List.length_append, List.length_map, List.length_range]
  rfl

theorem length_someBids (n : ℕ) : (someBids n).length = n + 3 := by
  simp [someBids, lowRefs]

theorem length_highRefs (m : ℕ) : (highRefs m).length = m := by
  simp [highRefs]

namespace ReferenceBook

theorem octets_eq : (run {} manyAsks).bookOctets = (run {} manyBids).bookOctets := by
  obtain ⟨hnodup, hlt⟩ := nodup_asks (n := 2 ^ 32 - 2) (m := 2 ^ 32) (by decide) (le_refl _)
  obtain ⟨hnodup', hlt'⟩ := nodup_bids (n := 2 ^ 32 - 2) (m := 2 ^ 32) (by decide) (le_refl _)
  have hasks : (someAsks (2 ^ 32 - 2) (2 ^ 32)).length % 2 ^ 32 = 0 := by
    rw [length_someAsks]
    rfl
  have hbids : (someBids (2 ^ 32 - 2)).length % 2 ^ 32 = 1 := by
    rw [length_someBids]
    rfl
  have hhigh : (highRefs (2 ^ 32)).length % 2 ^ 32 = 0 := by
    rw [length_highRefs]
    rfl
  have hne : ∀ {l : List ℕ}, 0 < l.length → l ≠ [] := List.ne_nil_of_length_pos
  unfold manyAsks manyBids
  rw [octets_zeroAdds hnodup hlt rfl hasks (hne (by rw [length_someAsks]; decide)),
    octets_zeroAdds hnodup' hlt' hbids hhigh (hne (by rw [length_highRefs]; decide))]
  unfold someAsks someBids
  rw [flatMap_orderOctets fun v hv => ?_]
  · rw [List.flatMap_singleton, List.flatMap_cons]
    simp only [List.append_assoc]
  · have := (mem_lowRefs.mp hv).2
    omega

theorem level_zeroAdds_fifo {bids asks : List ℕ} (hnodup : (bids ++ asks).Nodup)
    (hlt : ∀ ref ∈ bids ++ asks, ref < 2 ^ 64) :
    ((run {} (zeroAdds bids asks)).level 1 kBuy 0).fifo.length = bids.length := by
  rw [(represents_run _).level_query]
  unfold Book.snapshotOf
  rw [List.length_map, show (kBuy == kBuy) = true from rfl, Book.level_zeroAdds hnodup hlt, if_pos rfl, List.length_map]

/-- **Crowded levels.** Two books with the same octets, and levels of `1` and of `2 ^ 32 + 1` orders. -/
theorem octets_not_injective : (run {} manyAsks).bookOctets = (run {} manyBids).bookOctets ∧
    ((run {} manyAsks).level 1 kBuy 0).fifo.length = 1 ∧
    ((run {} manyBids).level 1 kBuy 0).fifo.length = 2 ^ 32 + 1 := by
  obtain ⟨hnodup, hlt⟩ := nodup_asks (n := 2 ^ 32 - 2) (m := 2 ^ 32) (by decide) (le_refl _)
  obtain ⟨hnodup', hlt'⟩ := nodup_bids (n := 2 ^ 32 - 2) (m := 2 ^ 32) (by decide) (le_refl _)
  refine ⟨octets_eq, level_zeroAdds_fifo hnodup hlt, ?_⟩
  unfold manyBids
  rw [level_zeroAdds_fifo hnodup' hlt', length_someBids]
  rfl

end ReferenceBook

/-! ## What the digests encode -/

theorem Book.length_step (A : Book) (msg : Message) : (A.step msg).orders.length ≤ A.orders.length + 1 := by
  have hdrop : ∀ (A : Book) ref, (A.drop ref).orders.length ≤ A.orders.length := fun A ref => List.length_filter_le _ _
  have hplace : ∀ (A : Book) e, (A.place e).orders.length ≤ A.orders.length + 1 := by
    intro A e
    rw [orders_place, List.length_append]
    exact Nat.succ_le_succ (hdrop A e.ref)
  have hreduce : ∀ (A : Book) ref qty, (A.reduce ref qty).orders.length ≤ A.orders.length + 1 := fun A ref qty =>
    (List.length_filterMap_le _ _).trans (Nat.le_succ _)
  cases msg with
  | addOrder v => exact hplace A _
  | addOrderMpid v => exact hplace A _
  | orderExecuted v => exact hreduce A _ _
  | orderExecutedPrice v => exact hreduce A _ _
  | orderCancel v => exact hreduce A _ _
  | orderDelete v => exact (hdrop A _).trans (Nat.le_succ _)
  | orderReplace v =>
    unfold step
    dsimp only
    cases A.find v.oldOrderRef with
    | none => exact Nat.le_succ _
    | some e => exact (hplace _ _).trans (Nat.succ_le_succ (hdrop A _))
  | _ => exact Nat.le_succ _

namespace ReferenceBook

/-- Fewer than `2 ^ 32` messages crowd no level. -/
theorem uncrowded_of_length (code : UInt8) {ms : List Message} (h : ms.length < 2 ^ 32) :
    (run { venueMarketCode := code } ms).Uncrowded := by
  have hlen : ∀ ms : List Message, (Runs.run Book.step Book.empty ms).orders.length ≤ ms.length := by
    intro ms
    induction ms using List.reverseRecOn with
    | nil => exact le_refl _
    | append_singleton ms msg ih =>
      rw [Runs.run_snoc, List.length_append]
      exact (Book.length_step _ msg).trans (Nat.succ_le_succ ih)
  intro locate side price
  rw [(represents_venue code ms).level_query]
  unfold Book.snapshotOf
  rw [List.length_map]
  exact lt_of_le_of_lt ((List.length_filter_le _ _).trans (hlen ms)) h

end ReferenceBook

/-- **What the digests encode.** The octets of the event stream tell the effects; those of the book's hash tell the
displayed book while every level holds fewer than `2 ^ 32` orders, whatever the venues; and equal event streams leave
equal book streams. These octets are what the two hashes have taken in. -/
theorem digests_encode :
    (∀ es es' : List Event, (∀ e ∈ es, e.Emitted) → (∀ e ∈ es', e.Emitted) →
      EventStreamHash.octets es = EventStreamHash.octets es' → es = es') ∧
    (∀ (code code' : UInt8) (ms ms' : List Message),
      (ReferenceBook.run { venueMarketCode := code } ms).Uncrowded →
      (ReferenceBook.run { venueMarketCode := code' } ms').Uncrowded →
      (ReferenceBook.run { venueMarketCode := code } ms).bookOctets =
        (ReferenceBook.run { venueMarketCode := code' } ms').bookOctets →
      (ReferenceBook.run { venueMarketCode := code } ms).SameDisplay
        (ReferenceBook.run { venueMarketCode := code' } ms')) ∧
    (∀ vs vs' : List ReplayMessage,
      EventStreamHash.octets (DeterministicReplay.eventsOf vs) =
        EventStreamHash.octets (DeterministicReplay.eventsOf vs') →
      (DeterministicReplay.run vs).book.bookOctets = (DeterministicReplay.run vs').book.bookOctets) ∧
    (∀ vs : List ReplayMessage, (DeterministicReplay.run vs).events.h.Absorbed
      (EventStreamHash.octets (DeterministicReplay.eventsOf vs))) ∧
    ∀ b : ReferenceBook, b.hashBook.Absorbed b.bookOctets := by
  refine ⟨fun es es' hes hes' h => EventStreamHash.events_of_octets hes hes' h, fun code code' ms ms' hms hms' h => ?_,
    fun vs vs' h => ?_, fun vs => (DeterministicReplay.run_spec vs).2, ReferenceBook.absorbed_hashBook⟩
  · exact ReferenceBook.sameDisplay_of_octets (ReferenceBook.represents_venue code ms)
      (ReferenceBook.represents_venue code' ms') hms hms' h
  · exact DeterministicReplay.bookOctets_of_events (EventStreamHash.events_of_octets
      (DeterministicReplay.eventsOf_emitted vs) (DeterministicReplay.eventsOf_emitted vs') h)

/-- An order with an attribution is displayed as one without. -/
theorem digests_encode_mpid :
    let v : AddOrder :=
      { locate := 1, ts := 0, orderRef := 1, side := kBuy, shares := 5, stock := [], price := 10000 }
    (ReferenceBook.run {} [.addOrder v]).SameDisplay (ReferenceBook.run {} [.addOrderMpid ⟨v, [78]⟩]) ∧
      DeterministicReplay.eventsOf [.addOrder v] = DeterministicReplay.eventsOf [.addOrderMpid ⟨v, [78]⟩] := by
  intro v
  refine ⟨digests_encode.2.1 81 81 [.addOrder v] [.addOrderMpid ⟨v, [78]⟩] ?_ ?_ ?_, ?_⟩
  · exact ReferenceBook.uncrowded_of_length 81 (by decide)
  · exact ReferenceBook.uncrowded_of_length 81 (by decide)
  · exact digests_encode.2.2.1 [.addOrder v] [.addOrderMpid ⟨v, [78]⟩] rfl
  · exact digests_encode.1 _ _ (DeterministicReplay.eventsOf_emitted _) (DeterministicReplay.eventsOf_emitted _) rfl

end Carteret
