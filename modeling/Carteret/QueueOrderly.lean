import Carteret.QueueAhead
import Carteret.QueueDenominator

/-!
# Orderly messages

1. `Orderly`: a regular message that adds orders of one of the sides. Such messages keep every live order of a
   proper side and with shares (`Kept.bookAfter`).
2. Streams of adds with references of their own are orderly, and the book is their list (`bookOf_adds`,
   `orderly_adds`); an order enters behind it (`exists_entry`).
-/

namespace Carteret

/-! ## Orderly messages -/

/-- The side of the order that a message adds. -/
def sideAdded : Message → Option UInt8
  | .addOrder v => some v.side
  | .addOrderMpid v => some v.side
  | _ => none

/-- The message is regular and adds orders of one of the sides only. -/
structure Orderly (b : ReferenceBook) (msg : Message) : Prop extends Regular b msg where
  side : ∀ side ∈ sideAdded msg, ProperSide side

instance (side : UInt8) : Decidable (ProperSide side) := inferInstanceAs (Decidable (_ ∨ _))

theorem orderly_iff {b : ReferenceBook} {msg : Message} : Orderly b msg ↔
    ((bookAfter b msg).counters.duplicateAdd = 0 ∧ (bookAfter b msg).counters.overExecute = 0) ∧
      (∀ n ∈ sharesAdded msg, 1 ≤ n.toNat) ∧ ∀ side ∈ sideAdded msg, ProperSide side :=
  ⟨fun h => ⟨⟨h.duplicateAdd, h.overExecute⟩, h.shares, h.side⟩, fun ⟨⟨hdup, hover⟩, hshares, hside⟩ =>
    ⟨⟨hdup, hover, hshares⟩, hside⟩⟩

instance (b : ReferenceBook) (msg : Message) : Decidable (Orderly b msg) :=
  have : Decidable (∀ n ∈ sharesAdded msg, 1 ≤ n.toNat) := Option.decidableForallMem _
  have : Decidable (∀ side ∈ sideAdded msg, ProperSide side) := Option.decidableForallMem _
  decidable_of_iff' _ orderly_iff

/-- Every level has less than `2 ^ 64` shares. -/
def Shallow (b : ReferenceBook) : Prop := ∀ locate side price, b.depthOf locate side price < 2 ^ 64

/-- Every level has a number of shares up to which all are doubles. -/
def Light (b : ReferenceBook) : Prop := ∀ locate side price, b.depthOf locate side price ≤ 2 ^ 53

theorem Light.shallow {b : ReferenceBook} (h : Light b) : Shallow b := fun locate side price =>
  (h locate side price).trans_lt (by norm_num)

/-- Every live order is of one of the sides and has shares. -/
structure Tidy (A : Book) : Prop where
  side : ∀ e ∈ A.orders, ProperSide e.side
  shares : ∀ e ∈ A.orders, 1 ≤ e.shares.toNat

/-- What orderly messages keep of the book. -/
def Kept (b : ReferenceBook) : Prop := ∃ A, ReferenceBook.Represents b A ∧ Tidy A

section

variable {A : Book} {b : ReferenceBook} {msg : Message}

theorem Tidy.drop (h : Tidy A) (ref : Ref) : Tidy (A.drop ref) where
  side := fun e he => h.side e (Book.mem_drop.mp he).1
  shares := fun e he => h.shares e (Book.mem_drop.mp he).1

theorem Tidy.place (h : Tidy A) {e : Entry} (hside : ProperSide e.side) (hshares : 1 ≤ e.shares.toNat) :
    Tidy (A.place e) := by
  have hmem : ∀ f ∈ (A.place e).orders, f ∈ A.orders ∨ f = e := by
    intro f hf
    rw [Book.orders_place] at hf
    rcases List.mem_append.mp hf with hf | hf
    · exact .inl (Book.mem_drop.mp hf).1
    · exact .inr (List.mem_singleton.mp hf)
  constructor
  · intro f hf
    rcases hmem f hf with hf | rfl
    · exact h.side f hf
    · exact hside
  · intro f hf
    rcases hmem f hf with hf | rfl
    · exact h.shares f hf
    · exact hshares

theorem Tidy.reduce (h : Tidy A) (ref : Ref) (qty : Shares) : Tidy (A.reduce ref qty) := by
  have hmem : ∀ f ∈ (A.reduce ref qty).orders, ∃ e ∈ A.orders, e.side = f.side ∧ 1 ≤ f.shares.toNat := by
    intro f hf
    obtain ⟨e, he, hr⟩ := List.mem_filterMap.mp hf
    unfold Entry.reduce at hr
    split at hr
    · split at hr
      · cases hr
      · rename_i hz
        obtain rfl := Option.some.inj hr
        refine ⟨e, he, rfl, ?_⟩
        rw [← UInt32.toNat_inj] at hz
        exact Nat.one_le_iff_ne_zero.mpr hz
    · obtain rfl := Option.some.inj hr
      exact ⟨e, he, rfl, h.shares e he⟩
  constructor
  · intro f hf
    obtain ⟨e, he, hside, -⟩ := hmem f hf
    exact hside ▸ h.side e he
  · intro f hf
    obtain ⟨e, -, -, hshares⟩ := hmem f hf
    exact hshares

theorem Tidy.step (h : Tidy A) (hreg : ∀ n ∈ sharesAdded msg, 1 ≤ n.toNat)
    (hside : ∀ side ∈ sideAdded msg, ProperSide side) : Tidy (A.step msg) := by
  cases msg with
  | addOrder v => exact h.place (hside v.side rfl) (hreg v.shares rfl)
  | addOrderMpid v => exact h.place (hside v.side rfl) (hreg v.shares rfl)
  | orderExecuted v => exact h.reduce _ _
  | orderExecutedPrice v => exact h.reduce _ _
  | orderCancel v => exact h.reduce _ _
  | orderDelete v => exact h.drop _
  | orderReplace v =>
    cases hf : A.find v.oldOrderRef with
    | none =>
      have hstep : A.step (.orderReplace v) = A := by simp only [Book.step, hf]
      rw [hstep]
      exact h
    | some e =>
      rw [step_orderReplace hf]
      exact (h.drop _).place (e := Book.replacement v e) (h.side e (Book.find_eq_some.mp hf).1)
        (hreg v.shares rfl)
  | _ => exact h

theorem Kept.bookAfter (h : Kept b) (hmsg : Orderly b msg) : Kept (bookAfter b msg) := by
  obtain ⟨A, hA, htidy⟩ := h
  exact ⟨A.step msg, QueueSim.represents_bookAfter hA msg, htidy.step hmsg.shares hmsg.side⟩

theorem kept_empty : Kept {} := by
  refine ⟨Book.empty, ReferenceBook.represents_empty, ?_, ?_⟩
  · intro e he
    cases he
  · intro e he
    cases he

theorem light_empty : Light {} := by
  intro locate side price
  unfold ReferenceBook.depthOf
  rw [ReferenceBook.represents_empty.restingAt_eq]
  exact Nat.zero_le _

theorem shallow_empty : Shallow {} := light_empty.shallow

/-- What is taken from is live, so of one of the sides. -/
theorem Kept.named (h : Kept b) (cfg : QueueSimConfig) (msg : Message) :
    ∀ t ∈ (eventOf cfg b msg).taking, ProperSide t.1.side := by
  obtain ⟨A, hA, htidy⟩ := h
  have hside : ∀ {ref : Ref} {r : Resolved}, resolve b ref = some r → ProperSide r.side := by
    intro ref r hr
    obtain ⟨-, e, hf, hres⟩ := hA.resolve hr
    exact hres.side ▸ htidy.side e (Book.find_eq_some.mp hf).1
  rintro ⟨r, qty⟩ ht
  cases hev : eventOf cfg b msg with
  | execution r' qty' ts =>
    rw [hev] at ht
    obtain ⟨rfl, rfl⟩ : r' = r ∧ qty' = qty := by simpa [BookEvent.taking] using ht
    rcases eventOf_execution hev with ⟨v, -, hr, -⟩ | ⟨v, -, hr, -⟩ <;> exact hside hr
  | cancel r' qty' =>
    rw [hev] at ht
    obtain ⟨rfl, rfl⟩ : r' = r ∧ qty' = qty := by simpa [BookEvent.taking] using ht
    rcases eventOf_cancel hev with ⟨v, -, hr, -⟩ | ⟨v, -, hr, -⟩ | ⟨v, -, hr, -⟩ <;> exact hside hr
  | print locate price ts => rw [hev] at ht; cases ht
  | quiet => rw [hev] at ht; cases ht

end

namespace QueueSim
variable {s : QueueSim}

/-- The message is orderly at the simulator's book. -/
def orderly (s : QueueSim) (msg : Message) : Prop := Orderly s.book msg

/-- The message is orderly and leaves no level with `2 ^ 64` shares. -/
def shallow (s : QueueSim) (msg : Message) : Prop := Orderly s.book msg ∧ Shallow (bookAfter s.book msg)

/-- The message is orderly and leaves no level with more than `2 ^ 53` shares. -/
def light (s : QueueSim) (msg : Message) : Prop := Orderly s.book msg ∧ Light (bookAfter s.book msg)

instance : ∀ s msg, Decidable (orderly s msg) := fun s msg => inferInstanceAs (Decidable (Orderly s.book msg))

/-- Few live shares in all leave every level light. -/
theorem light_of_total {b : ReferenceBook} {A : Book} (h : ReferenceBook.Represents b A)
    (ht : Book.total A.orders ≤ 2 ^ 53) : Light b := by
  intro locate side price
  have hdepth : b.depthOf locate side price = Book.total (A.level locate (side == kBuy) price) := by
    unfold ReferenceBook.depthOf
    rw [h.restingAt_eq, List.map_map]
    rfl
  rw [hdepth]
  exact ((List.filter_sublist.map _).sum_le_sum fun _ _ => Nat.zero_le _).trans ht

theorem light_along {P : Platform} {cfg : QueueSimConfig} {es : List SimStep}
    (h : Runs.Along step (meets orderly) (init P cfg) es)
    (ht : ∀ pre ∈ es.inits, Book.total (bookOf pre).orders ≤ 2 ^ 53) :
    Runs.Along step (meets light) (init P cfg) es := by
  rw [Runs.along_iff] at h ⊢
  rintro pre e post rfl msg rfl
  refine ⟨h pre _ post rfl msg rfl, ?_⟩
  have hrep := represents_sim P cfg (pre ++ [.message msg])
  rw [run, Runs.run_snoc, step, on_book] at hrep
  refine light_of_total hrep (ht _ (List.mem_inits _ _ |>.mpr ⟨post, ?_⟩))
  rw [List.append_assoc]
  rfl

/-! ## Books built by hand -/

/-- The simulator has not been started and places nothing. -/
structure Still (s : QueueSim) : Prop where
  lastTs : s.lastTs = 0
  lastSweep : s.lastSweep = 0
  pending : s.pending = []
  timer : s.cfg.timerPlacement = false

theorem Still.tick (h : Still s) : s.tick 0 = s := by
  obtain ⟨hlast, hsweep, hpending, htimer⟩ := h
  have hsettle : s.toLedger.settle s.book 0 = s.toLedger := by
    unfold Ledger.settle
    rw [hpending, List.foldl_nil, ← hpending]
  have hsame : { s with lastTs := 0, toLedger := s.toLedger.settle s.book 0 } = s := by
    rw [hsettle, ← hlast]
  unfold QueueSim.tick
  rw [hlast, if_neg (by decide)]
  dsimp only
  rw [hsame, if_neg (by rw [QueueSim.sweep]; split <;> simp [visitAll, compact, htimer])]
  unfold QueueSim.sweep
  rw [hsweep, if_neg (by decide)]

/-- A simulator that has only seen messages that place and take nothing. -/
def built (b : ReferenceBook) : QueueSim := { init silent directed with book := b }

theorem still_built (b : ReferenceBook) : Still (built b) := ⟨rfl, rfl, rfl, rfl⟩

/-- Orders that are added before anything is placed. -/
theorem run_adds (vs : List AddOrder) (hts : ∀ v ∈ vs, v.ts = 0) :
    run silent directed (vs.map fun v => .message (.addOrder v)) =
      built (ReferenceBook.run {} (vs.map .addOrder)) := by
  induction vs using List.reverseRecOn with
  | nil => rfl
  | append_singleton vs v ih =>
    have hv : tsOf v.toHeader = 0 := by
      unfold tsOf
      rw [hts v (by simp)]
      rfl
    rw [List.map_append, List.map_append, List.map_singleton, List.map_singleton]
    unfold run ReferenceBook.run at ih ⊢
    rw [Runs.run_snoc, Runs.run_snoc, ih fun w hw => hts w (by simp [hw])]
    show ((built _).onBook (.addOrder v)).tick (tsOf v.toHeader) = _
    rw [hv]
    exact (still_built _).tick

/-- The book of orders with references of their own. -/
theorem bookOf_adds (vs : List AddOrder) (hrefs : (vs.map AddOrder.orderRef).Nodup) :
    (Runs.run Book.step Book.empty (vs.map .addOrder)).orders = vs.map fun v => Book.added v [] := by
  induction vs using List.reverseRecOn with
  | nil => rfl
  | append_singleton vs v ih =>
    rw [List.map_append, List.nodup_append] at hrefs
    have hold := ih hrefs.1
    rw [List.map_append, List.map_append, List.map_singleton, List.map_singleton, Runs.run_snoc]
    have hplace := Book.orders_place (Runs.run Book.step Book.empty (vs.map .addOrder)) (Book.added v [])
    refine hplace.trans ?_
    rw [Book.drop_of_absent fun e he => ?_, hold]
    rw [hold] at he
    obtain ⟨w, hw, rfl⟩ := List.mem_map.mp he
    exact hrefs.2.2 _ (List.mem_map_of_mem hw) _ (List.mem_singleton.mpr rfl)

/-- Such orders are regular. -/
theorem regular_add {b : ReferenceBook} {A : Book} (h : ReferenceBook.Represents b A) {v : AddOrder}
    (hdup : b.counters.duplicateAdd = 0) (hover : b.counters.overExecute = 0)
    (hnew : ∀ e ∈ A.orders, e.ref ≠ v.orderRef) (hshares : 1 ≤ v.shares.toNat) :
    Regular b (.addOrder v) := by
  have hfind := Book.find_eq_none.mpr hnew
  rw [← h.find_eq, Option.map_eq_none_iff] at hfind
  have hcontains : ¬ b.tick.orders.contains v.orderRef = true := by
    rw [Std.TreeMap.contains_eq_isSome_getElem?]
    show ¬ (b.orders[v.orderRef]?).isSome = true
    rw [hfind]
    exact Bool.false_ne_true
  have hcounters := ReferenceBook.addRetained_counters b.tick v.locate v.orderRef v.side v.price v.shares
    (fillAlpha 8 v.stock) (fillAlpha 4 []) v.ts.toNat
  rw [if_neg hcontains] at hcounters
  refine ⟨hcounters.1.trans hdup, hcounters.2.trans hover, fun n hn => ?_⟩
  obtain rfl := Option.some.inj hn
  exact hshares

theorem orderly_adds (vs : List AddOrder) (hrefs : (vs.map AddOrder.orderRef).Nodup)
    (hts : ∀ v ∈ vs, v.ts = 0) (hshares : ∀ v ∈ vs, 1 ≤ v.shares.toNat)
    (hside : ∀ v ∈ vs, ProperSide v.side) :
    Runs.Along step (meets orderly) (init silent directed) (vs.map fun v => .message (.addOrder v)) ∧
      (ReferenceBook.run {} (vs.map .addOrder)).counters.duplicateAdd = 0 ∧
      (ReferenceBook.run {} (vs.map .addOrder)).counters.overExecute = 0 := by
  induction vs using List.reverseRecOn with
  | nil => exact ⟨trivial, rfl, rfl⟩
  | append_singleton vs v ih =>
    have hall : ((vs ++ [v]).map AddOrder.orderRef).Nodup := hrefs
    rw [List.map_append, List.nodup_append] at hrefs
    obtain ⟨halong, hdup, hover⟩ := ih hrefs.1 (fun w hw => hts w (by simp [hw]))
      (fun w hw => hshares w (by simp [hw])) (fun w hw => hside w (by simp [hw]))
    have hrun := run_adds vs fun w hw => hts w (by simp [hw])
    have hnew : ∀ e ∈ (Runs.run Book.step Book.empty (vs.map .addOrder)).orders, e.ref ≠ v.orderRef := by
      rw [bookOf_adds vs hrefs.1]
      intro e he
      obtain ⟨w, hw, rfl⟩ := List.mem_map.mp he
      exact hrefs.2.2 _ (List.mem_map_of_mem hw) _ (by simp)
    have hreg := regular_add (ReferenceBook.represents_run (vs.map .addOrder)) hdup hover hnew
      (hshares v (by simp))
    have horderly : Orderly (ReferenceBook.run {} (vs.map .addOrder)) (.addOrder v) :=
      ⟨hreg, fun side hs => by obtain rfl := Option.some.inj hs; exact hside v (by simp)⟩
    rw [List.map_append, List.map_append, List.map_singleton, List.map_singleton]
    refine ⟨Runs.along_append.mpr ⟨halong, ?_, trivial⟩, ?_, ?_⟩
    · rintro msg ⟨⟩
      unfold run at hrun
      unfold orderly
      rw [hrun]
      exact horderly
    · unfold ReferenceBook.run
      rw [Runs.run_snoc]
      exact hreg.duplicateAdd
    · unfold ReferenceBook.run
      rw [Runs.run_snoc]
      exact hreg.overExecute

/-! ## A level of `2 ^ 64` shares -/

/-- One share offered at 20. -/
def offer : AddOrder :=
  { locate := 1, ts := 0, orderRef := 0, side := kSell, shares := 1, stock := [], price := 20 }

/-- A bid at 10 of as many shares as an order can have. -/
def fullBid (i : ℕ) : AddOrder :=
  { locate := 1, ts := 0, orderRef := UInt64.ofNat (i + 1), side := kBuy, shares := 0xFFFFFFFF, stock := [],
    price := 10 }

/-- An offer and `n` full bids. -/
def packed (n : ℕ) : List AddOrder := offer :: (List.range n).map fullBid

theorem mem_packed {n : ℕ} {v : AddOrder} (hv : v ∈ packed n) :
    v.ts = 0 ∧ 1 ≤ v.shares.toNat ∧ ProperSide v.side := by
  rcases List.mem_cons.mp hv with rfl | hv
  · exact ⟨rfl, le_rfl, .inr rfl⟩
  · obtain ⟨i, -, rfl⟩ := List.mem_map.mp hv
    exact ⟨rfl, by show 1 ≤ 4294967295; omega, .inl rfl⟩

theorem nodup_packed {n : ℕ} (hn : n < 2 ^ 64) : ((packed n).map AddOrder.orderRef).Nodup := by
  have hnat : ∀ i < n, (UInt64.ofNat (i + 1)).toNat = i + 1 := fun i hi =>
    UInt64.toNat_ofNat_of_lt' (by change i + 1 < 2 ^ 64; omega)
  unfold packed
  rw [List.map_cons, List.map_map, List.nodup_cons]
  constructor
  · intro hc
    obtain ⟨i, hi, h0⟩ := List.mem_map.mp hc
    have := hnat i (List.mem_range.mp hi)
    have h0' : UInt64.ofNat (i + 1) = 0 := h0
    rw [h0'] at this
    exact absurd this (Nat.succ_ne_zero i).symm
  · refine List.Nodup.map_on (fun i hi j hj hij => ?_) List.nodup_range
    have hij' : UInt64.ofNat (i + 1) = UInt64.ofNat (j + 1) := hij
    have := congrArg UInt64.toNat hij'
    rw [hnat i (List.mem_range.mp hi), hnat j (List.mem_range.mp hj)] at this
    omega

theorem total_packed {n : ℕ} (hn : n < 2 ^ 64) :
    Book.total ((Runs.run Book.step Book.empty ((packed n).map .addOrder)).level 1 true 10) =
      n * (2 ^ 32 - 1) := by
  have hsum : ∀ is : List ℕ, Book.total ((is.map fullBid).map fun v => Book.added v []) =
      is.length * (2 ^ 32 - 1) := by
    intro is
    unfold Book.total
    rw [List.map_map, List.map_map]
    have hconst : ∀ i ∈ is, (((fun e : Entry => e.shares.toNat) ∘ fun v => Book.added v []) ∘ fullBid) i =
        2 ^ 32 - 1 := fun i _ => rfl
    rw [List.map_congr_left hconst, List.map_const', List.sum_replicate, smul_eq_mul]
  have hlevel : (Runs.run Book.step Book.empty ((packed n).map .addOrder)).level 1 true 10 =
      ((List.range n).map fullBid).map fun v => Book.added v [] := by
    unfold Book.level
    rw [bookOf_adds _ (nodup_packed hn)]
    unfold packed
    rw [List.map_cons, List.filter_cons_of_neg (by decide)]
    apply List.filter_eq_self.mpr
    intro e he
    obtain ⟨v, hv, rfl⟩ := List.mem_map.mp he
    obtain ⟨i, -, rfl⟩ := List.mem_map.mp hv
    rfl
  rw [hlevel, hsum, List.length_range]

/-- At a symbol with both sides an order enters at the best price. -/
theorem exists_entry {A : Book} (h : ReferenceBook.Represents s.book A) {locate : UInt16} {bid ask : Price}
    (hbid : A.IsBest locate true bid) (hask : A.IsBest locate false ask) (ts : UInt64) :
    ∃ o, s.entry locate kBuy ts = some o ∧ o.price = bid := by
  have hb := (h.best_query locate bid).1.mpr hbid
  have ha := (h.best_query locate ask).2.mpr hask
  obtain ⟨sym, hsym, hbest⟩ := Option.bind_eq_some_iff.mp hb
  rw [hsym, Option.bind_some] at ha
  have hhas : sym.hasBid = true ∧ sym.hasAsk = true := by
    constructor
    · unfold RefSymbol.hasBid
      rw [← Std.TreeMap.isEmpty_keys, Bool.not_eq_true', List.isEmpty_eq_false_iff]
      intro hnil
      rw [RefSymbol.bestBid, hnil] at hbest
      cases hbest
    · unfold RefSymbol.hasAsk
      rw [← Std.TreeMap.isEmpty_keys, Bool.not_eq_true', List.isEmpty_eq_false_iff]
      intro hnil
      rw [RefSymbol.bestAsk, hnil] at ha
      cases ha
  have hpresent : (s.book.level locate kBuy bid).present = true := by
    obtain ⟨e, he, hloc, hbuy, hprice⟩ := hbid.1
    have hmem : e ∈ A.level locate (kBuy == kBuy) bid :=
      Book.mem_level.mpr ⟨he, Entry.restsAt_iff.mpr ⟨hloc, hbuy, hprice⟩⟩
    rw [h.level_query]
    unfold Book.snapshotOf
    simp only [Bool.not_eq_true', List.isEmpty_eq_false_iff]
    exact List.ne_nil_of_mem hmem
  unfold QueueSim.entry
  rw [hsym]
  simp only [hhas, Bool.not_true, Bool.or_self, Bool.false_eq_true, if_false, if_true, hbest,
    Option.getD_some, hpresent]
  exact ⟨_, rfl, rfl⟩

theorem best_packed {n : ℕ} (hn : n < 2 ^ 64) (hpos : 0 < n) :
    (Runs.run Book.step Book.empty ((packed n).map .addOrder)).IsBest 1 true 10 ∧
      (Runs.run Book.step Book.empty ((packed n).map .addOrder)).IsBest 1 false 20 := by
  have hmem : ∀ e, e ∈ (Runs.run Book.step Book.empty ((packed n).map .addOrder)).orders ↔
      e = Book.added offer [] ∨ ∃ i < n, e = Book.added (fullBid i) [] := by
    intro e
    rw [bookOf_adds _ (nodup_packed hn)]
    unfold packed
    simp [eq_comm]
  refine ⟨⟨⟨_, (hmem _).mpr (.inr ⟨0, hpos, rfl⟩), rfl, rfl, rfl⟩, fun e he _ hbuy => ?_⟩,
    ⟨⟨_, (hmem _).mpr (.inl rfl), rfl, rfl, rfl⟩, fun e he _ hbuy => ?_⟩⟩
  · rcases (hmem e).mp he with rfl | ⟨i, -, rfl⟩
    · cases hbuy
    · exact UInt32.le_refl _
  · rcases (hmem e).mp he with rfl | ⟨i, -, rfl⟩
    · exact UInt32.le_refl _
    · cases hbuy

/-- An order enters behind the full bids. -/
theorem placed_packed {n : ℕ} (hn : n < 2 ^ 64) (hpos : 0 < n) :
    ∃ o, run silent directed ((packed n).map (fun v => .message (.addOrder v)) ++ [.placeDirected 1 kBuy 0]) =
        (built (ReferenceBook.run {} ((packed n).map .addOrder))).push o ∧
      Entered (ReferenceBook.run {} ((packed n).map .addOrder)) o ∧ o.locate = 1 ∧ o.side = kBuy ∧
        o.price = 10 := by
  have hbook := ReferenceBook.represents_run ((packed n).map .addOrder)
  obtain ⟨hbid, hask⟩ := best_packed hn hpos
  obtain ⟨o, he, hprice⟩ := exists_entry (s := built (ReferenceBook.run {} ((packed n).map .addOrder))) hbook
    hbid hask 0
  obtain ⟨hent, -, hloc, hside, -⟩ := entry_spec he
  refine ⟨o, ?_, hent, hloc, hside, hprice⟩
  have hrun := run_adds (packed n) fun v hv => (mem_packed hv).1
  unfold run at hrun ⊢
  rw [Runs.run_snoc, hrun]
  show placeAt _ 1 kBuy 0 = _
  unfold placeAt
  rw [he]

theorem orderly_packed {n : ℕ} (hn : n < 2 ^ 64) :
    Runs.Along step (meets orderly) (init silent directed)
      ((packed n).map (fun v => .message (.addOrder v)) ++ [.placeDirected 1 kBuy 0]) := by
  obtain ⟨halong, -⟩ := orderly_adds (packed n) (nodup_packed hn) (fun v hv => (mem_packed hv).1)
    (fun v hv => (mem_packed hv).2.1) fun v hv => (mem_packed hv).2.2
  refine Runs.along_append.mpr ⟨halong, ?_, trivial⟩
  intro msg hc
  cases hc

end QueueSim

end Carteret
