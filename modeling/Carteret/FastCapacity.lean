import Carteret.FastInvariants

/-!
# Failed adds

What an add that fails for lack of capacity leaves behind.

1. `check_invariants()` on a book with exact totals counts the live orders without shares: every level is
   walked once, and every live order is in one level.
2. `observe` is all that a caller sees, counters apart. With exact totals it depends on the live orders only.
3. `failed_add_unseen`: where no add leaves shares behind, a failed add is seen neither at once nor later.
4. `failed_add_seen`: an add that does.
-/

namespace Carteret

open IntrusiveList

/-! ## Counting by key -/

section Counting

variable {α κ : Type*}

theorem mapM_eq_some {g : α → Option ℕ} {c : α → ℕ} :
    ∀ {xs : List α}, (∀ x ∈ xs, g x = some (c x)) → xs.mapM g = some (xs.map c)
  | [], _ => rfl
  | x :: xs, h => by
    rw [List.mapM_cons, h x (by simp), mapM_eq_some fun y hy => h y (List.mem_cons_of_mem _ hy)]
    rfl

/-- Elements that differ in their keys, counted together. -/
theorem countP_add_of_disjoint {p q r : α → Bool} (es : List α)
    (h : ∀ e ∈ es, (r e = (p e || q e)) ∧ (p e && q e) = false) :
    es.countP p + es.countP q = es.countP r := by
  induction es with
  | nil => rfl
  | cons e es ih =>
    have hrest := ih fun f hf => h f (List.mem_cons_of_mem _ hf)
    obtain ⟨hr, hpq⟩ := h e (by simp)
    rw [List.countP_cons, List.countP_cons, List.countP_cons, hr, ← hrest]
    cases hp : p e <;> cases hq : q e
    · simp
    · simp; omega
    · simp; omega
    · rw [hp, hq] at hpq; cases hpq

/-- Elements counted key by key. -/
theorem sum_countP_key [DecidableEq κ] (q : α → Bool) (key : α → κ) (es : List α) :
    ∀ {ks : List κ}, ks.Nodup →
      (ks.map fun k => es.countP fun e => q e && decide (key e = k)).sum =
        es.countP fun e => q e && decide (key e ∈ ks)
  | [], _ => by simp
  | k :: ks, h => by
    obtain ⟨hk, hks⟩ := List.nodup_cons.mp h
    rw [List.map_cons, List.sum_cons, sum_countP_key q key es hks]
    refine countP_add_of_disjoint es fun e _ => ⟨?_, ?_⟩
    · simp only [List.mem_cons, Bool.decide_or, Bool.and_or_distrib_left]
    · by_contra hc
      simp only [Bool.not_eq_false, Bool.and_eq_true, decide_eq_true_eq] at hc
      exact hk (hc.1.2 ▸ hc.2.2)

end Counting

namespace FastBook

variable {P : HashPolicy} {W : Window} {b b' : FastBook P W} {A : Book} {slot : Ref → UInt32}
  {F : List UInt32} {locate : UInt16} {buy : Bool} {price : Price} {x : Bool}

/-! ## The walk of one level -/

/-- An order without shares, which `check_invariants()` reports. -/
def spent (e : Entry) : Bool := e.shares == 0

/-- The loop, from the slot after `w.prev` to the end of the queue. -/
theorem walkLoop_eq (b : FastBook P W) (slot : Ref → UInt32) (lvl : FastLevel) (orders : UInt32) :
    ∀ (es : List Entry) (fuel : ℕ) (w : Walk), es.length < fuel →
      w.n.toNat + es.length ≤ orders.toNat →
      (∀ e ∈ es, b.Stores (slot e.ref) e ∧ slot e.ref ≠ kNoOrder) →
      (w.prev :: (es.map (fun e => slot e.ref) ++ [kNoOrder])).IsChain
        (Linked (linkNext b.pool lvl) (linkPrev b.pool lvl)) →
      b.walkLoop orders fuel (linkNext b.pool lvl w.prev) w =
        some ⟨w.bad + es.countP spent, w.sum + Book.sumShares es, w.n + UInt32.ofNat es.length, lvl.tail⟩
  | _, 0, _, hf, _, _, _ => absurd hf (Nat.not_lt_zero _)
  | [], fuel + 1, w, _, _, _, hchain => by
    obtain ⟨hnext, hprev⟩ := (List.isChain_cons_cons.mp hchain).1
    have htail : lvl.tail = w.prev := by rw [← hprev]; exact (if_pos rfl).symm
    unfold walkLoop
    rw [if_pos hnext, htail]
    simp [Book.sumShares]
  | e :: es, fuel + 1, w, hf, hn, hst, hchain => by
    obtain ⟨⟨hnext, hprev⟩, hrest⟩ := List.isChain_cons_cons.mp hchain
    obtain ⟨hstore, hne⟩ := hst e (by simp)
    rw [List.length_cons] at hf hn
    have hback : (b.order (slot e.ref)).prev = w.prev := by rw [← hprev]; exact (if_neg hne).symm
    have hforth : (b.order (slot e.ref)).next = linkNext b.pool lvl (slot e.ref) := (if_neg hne).symm
    have hn1 : (w.n + 1).toNat = w.n.toNat + 1 := by
      have := orders.toNat_lt
      rw [UInt32.toNat_add]
      exact Nat.mod_eq_of_lt (by change w.n.toNat + 1 < 2 ^ 32; omega)
    have hle : ¬ w.n + 1 > orders := by
      change ¬ orders < w.n + 1
      rw [UInt32.lt_iff_toNat_lt, hn1]
      omega
    unfold walkLoop
    rw [hnext, if_neg hne]
    dsimp only
    rw [if_neg hle, hforth, hback, hstore.shares_eq, if_neg (not_not.mpr rfl)]
    set w' : Walk := ⟨w.bad + 0 + (if e.shares = 0 then 1 else 0), w.sum + e.shares.toUInt64, w.n + 1,
      slot e.ref⟩
    refine (walkLoop_eq b slot lvl orders es fuel w' (by omega) ?_
      (fun f hf => hst f (List.mem_cons_of_mem _ hf)) hrest).trans ?_
    · change (w.n + 1).toNat + es.length ≤ orders.toNat
      omega
    · have hsum : Book.sumShares (e :: es) = e.shares.toUInt64 + Book.sumShares es := by
        simp [Book.sumShares]
      have hcount : (e :: es).countP spent = (if e.shares = 0 then 1 else 0) + es.countP spent := by
        rw [List.countP_cons, Nat.add_comm]
        simp [spent]
      rw [hsum, hcount, List.length_cons, UInt32.ofNat_add]
      congr 2
      · change w.bad + 0 + _ + _ = _
        omega
      · change w.sum + _ + _ = _
        grind
      · change w.n + 1 + UInt32.ofNat es.length = w.n + (UInt32.ofNat es.length + 1)
        grind

/-- A level with exact totals has no violations but its spent orders. -/
theorem Holds.walkLevel_eq (h : Holds true b A slot F) (locate : UInt16) (buy : Bool) (price : Price) :
    b.walkLevel (b.levelAt locate buy price) = some ((A.level locate buy price).countP spent) := by
  have hq := h.core.queue locate buy price
  have hlen := hq.length_lt
  rw [List.length_map] at hlen
  have hloop := walkLoop_eq b slot (b.levelAt locate buy price)
    (b.levelAt locate buy price).orders (A.level locate buy price) (2 ^ 32) {} hlen
    (by rw [hq.orders_toNat, List.length_map]; exact (Nat.zero_add _).le)
    (fun e he => ⟨h.core.stores e (Book.mem_level.mp he).1, h.core.slot_ne (Book.mem_level.mp he).1⟩)
    hq.ring.chain
  have hhead : linkNext b.pool (b.levelAt locate buy price) kNoOrder =
      (b.levelAt locate buy price).head := if_pos rfl
  have horders := hq.orders_eq
  rw [List.length_map] at horders
  have hshares := h.exact_of rfl locate buy price
  change b.walkLoop _ _ (linkNext b.pool _ kNoOrder) _ = _ at hloop
  unfold walkLevel
  rw [← hhead, hloop, Option.map_some]
  simp [hshares, horders]

theorem walkLevel_default (b : FastBook P W) : b.walkLevel {} = some 0 := by
  unfold walkLevel
  rfl

/-! ## The violations of the book -/

/-- A spent order on one side of a symbol. -/
def spentOn (locate : UInt16) (buy : Bool) (e : Entry) : Bool :=
  spent e && decide (e.locate = locate) && decide (e.buy = buy)

theorem countP_level (A : Book) (locate : UInt16) (buy : Bool) (price : Price) :
    (A.level locate buy price).countP spent =
      A.orders.countP fun e => spentOn locate buy e && decide (e.price = price) := by
  unfold Book.level
  rw [List.countP_filter]
  refine List.countP_congr fun e _ => ?_
  simp only [Bool.and_eq_true, Entry.restsAt_iff, spentOn, decide_eq_true_eq]
  tauto

/-- A slot of the window: the spent orders whose price it holds. -/
theorem Holds.walkSlot_eq (h : Holds true b A slot F) (locate : UInt16) (buy : Bool) {i : ℕ}
    (hi : i < W.ticks) :
    b.walkLevel ((b.half locate buy).levels i) = some (A.orders.countP fun e =>
      spentOn locate buy e && decide ((b.half locate buy).inWindow W e.price = some i)) := by
  set s := b.half locate buy with hs
  by_cases hprice : 0 ≤ s.baseCents ∧ (s.baseCents + i) * 100 < 2 ^ 32
  · have hwin := FastSide.inWindow_ofCents hprice.1 hi hprice.2
    have hlev : s.levels i = b.levelAt locate buy (ofCents (s.baseCents + i)) :=
      (FastSide.levelAt_of_inWindow hwin).symm
    rw [hlev, h.walkLevel_eq, countP_level]
    congr 1
    refine List.countP_congr fun e _ => ?_
    simp only [Bool.and_eq_true, decide_eq_true_eq]
    refine and_congr_right fun _ => ⟨?_, fun hc => FastSide.inWindow_inj hc hwin⟩
    rintro hc
    rw [hc, hwin]
  · have hdefault : s.levels i = {} := by
      by_contra hne
      have hv := h.core.valid locate buy
      have h0 : 0 ≤ s.baseCents := hv.base_nonneg hne
      exact hne (hv.unpriced i (not_lt.mp fun hlt => hprice ⟨h0, hlt⟩))
    rw [hdefault, walkLevel_default]
    symm
    congr 1
    refine List.countP_eq_zero.mpr fun e _ hc => hprice ?_
    simp only [Bool.and_eq_true, decide_eq_true_eq] at hc
    obtain ⟨h0, -, heq⟩ := FastSide.inWindow_eq_some.mp hc.2
    have := e.price.toNat_lt
    exact ⟨h0, by omega⟩

/-- One side: its spent orders. -/
theorem Holds.checkSide_eq (h : Holds true b A slot F) (locate : UInt16) (buy : Bool) :
    b.checkSide (b.half locate buy) = some (A.orders.countP (spentOn locate buy)) := by
  have hv := h.core.valid locate buy
  set s := b.half locate buy with hs
  -- the window
  have hflat : ((List.range (if s.allocated then W.ticks else 0)).mapM fun i =>
      (b.walkLevel (s.levels i)).map fun bad =>
        (if s.occupied.mem i ≠ decide ((s.levels i).orders ≠ 0) then 1 else 0) + bad) =
      some ((List.range (if s.allocated then W.ticks else 0)).map fun i => A.orders.countP fun e =>
        spentOn locate buy e && decide (s.inWindow W e.price = some i)) := by
    refine mapM_eq_some fun i hi => ?_
    have hlt : i < W.ticks := by
      rw [List.mem_range] at hi
      split at hi
      · exact hi
      · exact absurd hi (Nat.not_lt_zero i)
    have hbit : s.occupied.mem i = decide ((s.levels i).orders ≠ 0) := by
      rw [Bool.eq_iff_iff, decide_eq_true_eq]
      exact hv.occupied_iff i hlt
    rw [h.walkSlot_eq locate buy hlt, Option.map_some, if_neg (not_not.mpr hbit), Nat.zero_add]
  -- the map
  have hmap : (s.overflow.toList.mapM fun y =>
      (b.walkLevel y.2).map fun bad => (if y.2.orders = 0 then 1 else 0) + bad) =
      some (s.overflow.toList.map fun y => A.orders.countP fun e =>
        spentOn locate buy e && decide (e.price = y.1)) := by
    refine mapM_eq_some fun y hy => ?_
    have hget : s.overflow[y.1]? = some y.2 := Std.TreeMap.mem_toList_iff_getElem?_eq_some.mp hy
    have hlev : y.2 = b.levelAt locate buy y.1 := by
      unfold levelAt
      rw [← hs, FastSide.levelAt_of_outside (hv.overflow_outside y.1 y.2 hget).1, hget]
      rfl
    rw [if_neg (hv.overflow_orders y.1 y.2 hget), hlev, h.walkLevel_eq, countP_level]
    simp
  have hkeys : (s.overflow.toList.map fun y => A.orders.countP fun e =>
      spentOn locate buy e && decide (e.price = y.1)) = s.overflow.keys.map fun p =>
        A.orders.countP fun e => spentOn locate buy e && decide (e.price = p) := by
    rw [← Std.TreeMap.map_fst_toList_eq_keys, List.map_map]
    rfl
  have hslots : ((List.range (if s.allocated then W.ticks else 0)).map fun i =>
      A.orders.countP fun e => spentOn locate buy e && decide (s.inWindow W e.price = some i)) =
      ((List.range (if s.allocated then W.ticks else 0)).map some).map fun k =>
        A.orders.countP fun e => spentOn locate buy e && decide (s.inWindow W e.price = k) := by
    rw [List.map_map]
    rfl
  unfold checkSide
  rw [hflat, hmap, hkeys, hslots]
  simp only [Option.map_some, Option.bind_some]
  rw [sum_countP_key _ _ _ (List.nodup_range.map (Option.some_injective _)),
    sum_countP_key _ _ _ Std.TreeMap.nodup_keys]
  congr 1
  -- an order of the side is in the window or in the map
  refine countP_add_of_disjoint A.orders fun e he => ?_
  have hslot : s.inWindow W e.price ∈ (List.range (if s.allocated then W.ticks else 0)).map some → 
      s.inWindow W e.price ≠ none := by
    intro hm hc
    obtain ⟨i, -, hi⟩ := List.mem_map.mp hm
    rw [hc] at hi
    cases hi
  have hdisjoint : e.price ∈ s.overflow.keys → s.inWindow W e.price = none := by
    intro hk
    obtain ⟨lvl, hlvl⟩ := OrderedMap.mem_iff_getElem?.mp (Std.TreeMap.mem_keys.mp hk)
    exact (hv.overflow_outside e.price lvl hlvl).1
  have hall : spentOn locate buy e = true →
      s.inWindow W e.price ∈ (List.range (if s.allocated then W.ticks else 0)).map some ∨
        e.price ∈ s.overflow.keys := by
    intro hon
    simp only [spentOn, Bool.and_eq_true, decide_eq_true_eq] at hon
    obtain ⟨⟨-, rfl⟩, rfl⟩ := hon
    have hne : (s.levelAt W e.price).orders ≠ 0 := fun hc =>
      List.ne_nil_of_mem (Book.mem_own_level he) (h.core.orders_eq_zero.mp hc)
    cases hw : s.inWindow W e.price with
    | some i =>
      rw [FastSide.levelAt_of_inWindow hw] at hne
      have ha : s.allocated = true := by
        by_contra hf
        rw [hv.unallocated (by simpa using hf)] at hne
        exact hne rfl
      rw [ha]
      exact .inl (List.mem_map.mpr ⟨i, List.mem_range.mpr (FastSide.inWindow_eq_some.mp hw).2.1, rfl⟩)
    | none =>
      rw [FastSide.levelAt_of_outside hw] at hne
      refine .inr (Std.TreeMap.mem_keys.mpr (OrderedMap.mem_iff_getElem?.mpr ?_))
      cases hp : s.overflow[e.price]? with
      | some lvl => exact ⟨lvl, rfl⟩
      | none => rw [hp] at hne; exact absurd rfl hne
  constructor
  · rw [Bool.eq_iff_iff]
    simp only [Bool.or_eq_true, Bool.and_eq_true, decide_eq_true_eq]
    exact ⟨fun hon => (hall hon).imp (⟨hon, ·⟩) (⟨hon, ·⟩), fun hc => hc.elim And.left And.left⟩
  · by_contra hc
    simp only [Bool.not_eq_false, Bool.and_eq_true, decide_eq_true_eq] at hc
    exact hslot hc.1.2 (hdisjoint hc.2.2)

/-- `check_invariants()` on a book with exact totals counts the live orders without shares. -/
theorem Rep.checkInvariants_eq (h : Rep true b A) :
    b.checkInvariants = some (A.orders.countP spent) := by
  obtain ⟨slot, F, h⟩ := h
  have hsymbol : ∀ n, ((b.checkSide (b.symbols n).bid).bind fun bid =>
      (b.checkSide (b.symbols n).ask).map fun ask => bid + ask) =
        some (A.orders.countP fun e => spent e && decide (e.locate.toNat = n)) := by
    intro n
    by_cases hn : n < 2 ^ 16
    · have hnat : (UInt16.ofNat n).toNat = n := UInt16.toNat_ofNat_of_lt' hn
      have hbid := h.checkSide_eq (UInt16.ofNat n) true
      have hask := h.checkSide_eq (UInt16.ofNat n) false
      unfold half at hbid hask
      rw [hnat] at hbid hask
      rw [if_pos rfl] at hbid
      rw [if_neg Bool.false_ne_true] at hask
      rw [hbid, hask, Option.bind_some, Option.map_some]
      congr 1
      refine countP_add_of_disjoint A.orders fun e _ => ?_
      have hloc : decide (e.locate = UInt16.ofNat n) = decide (e.locate.toNat = n) := by
        rw [decide_eq_decide, ← UInt16.toNat_inj, hnat]
      unfold spentOn
      rw [hloc]
      cases spent e <;> cases decide (e.locate.toNat = n) <;> cases e.buy <;> exact ⟨rfl, rfl⟩
    · rw [h.core.beyond n (not_lt.mp hn)]
      change some 0 = _
      congr 1
      symm
      refine List.countP_eq_zero.mpr fun e _ hc => ?_
      simp only [Bool.and_eq_true, decide_eq_true_eq] at hc
      have := e.locate.toNat_lt
      omega
  unfold checkInvariants
  rw [mapM_eq_some fun n _ => hsymbol n, Option.map_some,
    sum_countP_key spent (fun e => e.locate.toNat) A.orders List.nodup_range]
  congr 1
  refine List.countP_congr fun e he => ?_
  rw [Bool.and_eq_true, decide_eq_true_eq, List.mem_range]
  exact and_iff_left (h.core.locate_lt e he)

/-! ## What a caller sees -/

structure Observation where
  level : UInt16 → UInt8 → Price → Option LevelSnapshot
  depthAt : UInt16 → UInt8 → Price → Depth
  best : UInt16 → UInt8 → Option Price
  liveOrders : ℕ
  freeSlots : Option ℕ
  violations : Option ℕ

/-- All that a caller sees of a book, counters apart, with the number of free slots. -/
def observe (b : FastBook P W) : Observation where
  level := b.level
  depthAt := b.depthAt
  best := b.best
  liveOrders := b.liveOrders
  freeSlots := (b.walkFrom b.freeHead).map List.length
  violations := b.checkInvariants

/-- What `depth_at()` answers, from the orders of the level. -/
def depthOf (es : List Entry) : Depth where
  present := !es.isEmpty
  shares := Book.sumShares es
  orders := UInt32.ofNat es.length

theorem Rep.depth_query (h : Rep true b A) (locate : UInt16) (side : UInt8) (price : Price) :
    b.depthAt locate side price = depthOf (A.level locate (side == kBuy) price) := by
  refine h.query locate side price depthOf rfl fun hne => ?_
  obtain ⟨slot, F, h⟩ := h
  have hq := h.core.queue locate (side == kBuy) price
  rw [h.exact_of rfl, hq.orders_eq, List.length_map]
  unfold depthOf
  congr 1
  simp [hne]

theorem Rep.free_query (h : Rep x b A) :
    (b.walkFrom b.freeHead).map List.length = some (b.limits.slots - A.orders.length) := by
  obtain ⟨slot, F, h⟩ := h
  have hfree := h.free_length
  have hslots : b.limits.slots ≤ 2 ^ 32 - 1 := min_le_right _ _
  have hwalk : b.walkFrom b.freeHead = some F := h.core.free.walk_eq (by omega)
  rw [hwalk, Option.map_some]
  congr 1
  omega

/-- With exact totals a caller sees the live orders and nothing else. -/
theorem observe_eq (h : Rep true b A) (h' : Rep true b' A) (hlim : b'.limits = b.limits) :
    observe b' = observe b := by
  have hbest : b'.best = b.best := by
    funext locate side
    refine Option.ext fun p => ?_
    rw [h'.best_query, h.best_query]
  unfold observe
  congr 1
  · funext locate side price
    rw [h'.level_query, h.level_query]
  · funext locate side price
    rw [h'.depth_query, h.depth_query]
  · rw [h'.live_query, h.live_query]
  · rw [h'.free_query, h.free_query, hlim]
  · rw [h'.checkInvariants_eq, h.checkInvariants_eq]

/-! ## Failed adds -/

/-- A message that makes a capacity counter go up is refused by the abstract book. -/
theorem Follows.refused_of_failures {m : Message} (h : Follows x b b' A m)
    (hf : b'.failures ≠ b.failures) : A.refused b.limits m ≠ none := by
  intro hc
  refine hf ?_
  rw [h.failures_eq, hc]
  rfl

/-- **A failed add is not seen.** Where no add of the run with the failed message and of the run without it
leaves shares behind, a message that makes a capacity counter go up changes nothing that a caller sees,
neither at once nor after any later messages. -/
theorem failed_add_unseen (P : HashPolicy) (W : Window) (cfg : FastBookConfig)
    (pre post : List Message) (m : Message) (hnew : (new P W cfg).isSome = true)
    (hfail : ∀ b b', run P W cfg pre = some b → b.on m = some b' → b'.failures ≠ b.failures)
    (hwith : LeakFree P W cfg (pre ++ m :: post)) (hwithout : LeakFree P W cfg (pre ++ post)) :
    ∃ b b' c c', run P W cfg pre = some b ∧ run P W cfg (pre ++ [m]) = some b' ∧
      run P W cfg (pre ++ post) = some c ∧ run P W cfg (pre ++ m :: post) = some c' ∧
      observe b' = observe b ∧ observe c' = observe c := by
  obtain ⟨b₀, h₀⟩ := Option.isSome_iff_exists.mp hnew
  have hsplit : pre ++ m :: post = (pre ++ [m]) ++ post := by simp
  have hpre : LeakFree P W cfg pre := (Runs.along_append.mp hwithout).1
  have hpre' : LeakFree P W cfg (pre ++ [m]) := by
    unfold LeakFree at hwith
    rw [hsplit] at hwith
    exact (Runs.along_append.mp hwith).1
  obtain ⟨b, hb, hlim, -, hrep⟩ := rep_run h₀ pre
  obtain ⟨b', hb', hlim', -, hrep'⟩ := rep_run h₀ (pre ++ [m])
  obtain ⟨c, hc, hlimc, -, hrepc⟩ := rep_run h₀ (pre ++ post)
  obtain ⟨c', hc', hlimc', -, hrepc'⟩ := rep_run h₀ (pre ++ m :: post)
  -- the abstract book refuses the message
  have hon : b.on m = some b' := (run_snoc hb m).symm.trans hb'
  obtain ⟨d, hond, hfol⟩ := (hrep hpre).on m
  obtain rfl := Option.some.inj (hond.symm.trans hon)
  have hrefused := hfol.refused_of_failures (hfail b d hb hon)
  rw [hlim] at hrefused
  have hsame : bounded b₀.limits (pre ++ [m]) = bounded b₀.limits pre := by
    unfold bounded
    rw [Runs.run_snoc]
    exact if_neg hrefused
  have hlater : bounded b₀.limits (pre ++ m :: post) = bounded b₀.limits (pre ++ post) := by
    rw [hsplit]
    unfold bounded at hsame ⊢
    rw [Runs.run_append, hsame, Runs.run_append]
  have h' := hrep' hpre'
  have hcc := hrepc' hwith
  rw [hsame] at h'
  rw [hlater] at hcc
  exact ⟨b, d, c, c', hb, hb', hc, hc', observe_eq (hrep hpre) h' (hlim'.trans hlim.symm),
    observe_eq (hrepc hwithout) hcc (hlimc'.trans hlimc.symm)⟩

/-- An order to buy at one dollar in symbol 1. -/
def bidAtOne (ref : Ref) (shares : Shares) : Message :=
  .addOrder { locate := 1, ts := 0, orderRef := ref, side := kBuy, shares := shares, stock := [], price := 10000 }

theorem failed_add_unseen_one :
    ∃ b b' c c' : FastBook multiplyShiftHash defaultWindow,
      run multiplyShiftHash defaultWindow ⟨1, 2, 8⟩ [bidAtOne 1 5] = some b ∧
      run multiplyShiftHash defaultWindow ⟨1, 2, 8⟩ ([bidAtOne 1 5] ++ [bidAtOne 2 7]) = some b' ∧
      run multiplyShiftHash defaultWindow ⟨1, 2, 8⟩ ([bidAtOne 1 5] ++ [bidAtOne 1 6]) = some c ∧
      run multiplyShiftHash defaultWindow ⟨1, 2, 8⟩ ([bidAtOne 1 5] ++ bidAtOne 2 7 :: [bidAtOne 1 6]) =
        some c' ∧
      observe b' = observe b ∧ observe c' = observe c := by
  have hnew : (new multiplyShiftHash defaultWindow ⟨1, 2, 8⟩).isSome = true :=
    (new_isSome _).mpr (by decide)
  have hquiet : ∀ ms, (run multiplyShiftHash defaultWindow ⟨1, 2, 8⟩ ms).map
      (fun b => b.counters.indexFailures) = some 0 → LeakFree multiplyShiftHash defaultWindow ⟨1, 2, 8⟩ ms := by
    intro ms hms
    obtain ⟨b, hb, hzero⟩ := Option.map_eq_some_iff.mp hms
    exact leakFree_of_indexFailures hnew hb hzero
  refine failed_add_unseen multiplyShiftHash defaultWindow ⟨1, 2, 8⟩ [bidAtOne 1 5] [bidAtOne 1 6]
    (bidAtOne 2 7) hnew (fun b b' hb hon hc => ?_) (hquiet _ (by decide +kernel)) (hquiet _ (by decide +kernel))
  have hpool : (run multiplyShiftHash defaultWindow ⟨1, 2, 8⟩ [bidAtOne 1 5]).bind (fun b =>
      (b.on (bidAtOne 2 7)).map fun b' => decide (b'.failures .pool = b.failures .pool)) = some false := by
    decide +kernel
  rw [hb, Option.bind_some, hon, Option.map_some, hc, decide_eq_true rfl] at hpool
  cases hpool

/-- Eight orders fill the index of a book with an index hint of 1. -/
def eightBids : List Message := (List.range 8).map fun n => bidAtOne (UInt64.ofNat (n + 1)) 1

/-- The index refuses the ninth order, and its shares stay on the level. -/
theorem failed_add_seen :
    ∃ b b' : FastBook multiplyShiftHash defaultWindow,
      run multiplyShiftHash defaultWindow ⟨16, 2, 1⟩ eightBids = some b ∧ b.on (bidAtOne 9 5) = some b' ∧
      b.counters.indexFailures = 0 ∧ b'.counters.indexFailures = 1 ∧
      ((observe b).depthAt 1 kBuy 10000).shares = 8 ∧ ((observe b').depthAt 1 kBuy 10000).shares = 13 ∧
      (observe b).violations = some 0 ∧ (observe b').violations = some 1 := by
  have hrun : (run multiplyShiftHash defaultWindow ⟨16, 2, 1⟩ eightBids).bind (fun b =>
      (b.on (bidAtOne 9 5)).map fun b' => decide (
        b.counters.indexFailures = 0 ∧ b'.counters.indexFailures = 1 ∧
        (b.depthAt 1 kBuy 10000).shares = 8 ∧ (b'.depthAt 1 kBuy 10000).shares = 13 ∧
        b.checkInvariants = some 0 ∧ b'.checkInvariants = some 1)) = some true := by
    decide +kernel
  obtain ⟨b, hb, hrun⟩ := Option.bind_eq_some_iff.mp hrun
  obtain ⟨b', hb', hrun⟩ := Option.map_eq_some_iff.mp hrun
  exact ⟨b, b', hb, hb', of_decide_eq_true hrun⟩

end FastBook

end Carteret
