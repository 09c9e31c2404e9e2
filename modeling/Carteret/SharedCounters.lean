import Carteret.FastRefines

/-!
# The counters that both books keep

Thirteen conditions are counted in either book. What a message counts is stated once, over the abstract
book: `Book.counted` without the inside, `Book.observed` for the symbols whose inside is looked at.

1. `SharedCounters`, and how the inside of a symbol is observed.
2. What a message counts and observes.
3. The reference book counts so.
4. The fast book counts so while nothing is refused.
5. A replacement is observed at its own symbol by one book and at the symbol of its order by the other.
-/

namespace Carteret

/-! ## The counters -/

@[ext] structure SharedCounters where
  orphanExecute : ℕ := 0
  orphanExecutePrice : ℕ := 0
  orphanCancel : ℕ := 0
  orphanDelete : ℕ := 0
  orphanReplace : ℕ := 0
  duplicateAdd : ℕ := 0
  zeroShareCross : ℕ := 0
  removedAtZero : ℕ := 0
  overExecute : ℕ := 0
  crossedObservations : ℕ := 0
  lockedObservations : ℕ := 0
  afterEndOfSystemHours : ℕ := 0
  bookMessages : ℕ := 0
  deriving DecidableEq

def RefCounters.shared (c : RefCounters) : SharedCounters where
  orphanExecute := c.orphanExecute
  orphanExecutePrice := c.orphanExecutePrice
  orphanCancel := c.orphanCancel
  orphanDelete := c.orphanDelete
  orphanReplace := c.orphanReplace
  duplicateAdd := c.duplicateAdd
  zeroShareCross := c.zeroShareCross
  removedAtZero := c.removedAtZero
  overExecute := c.overExecute
  crossedObservations := c.crossedObservations
  lockedObservations := c.lockedObservations
  afterEndOfSystemHours := c.afterEndOfSystemHours
  bookMessages := c.bookMessages

def FastCounters.shared (c : FastCounters) : SharedCounters where
  orphanExecute := c.orphanExecute
  orphanExecutePrice := c.orphanExecutePrice
  orphanCancel := c.orphanCancel
  orphanDelete := c.orphanDelete
  orphanReplace := c.orphanReplace
  duplicateAdd := c.duplicateAdd
  zeroShareCross := c.zeroShareCross
  removedAtZero := c.removedAtZero
  overExecute := c.overExecute
  crossedObservations := c.crossedObservations
  lockedObservations := c.lockedObservations
  afterEndOfSystemHours := c.afterEndOfSystemHours
  bookMessages := c.bookMessages

/-- What an observation of a symbol finds. -/
inductive InsideKind
  | apart
  | crossed
  | locked
  deriving DecidableEq

/-- The inside with these best prices; a side without orders has none. -/
def InsideKind.of : Option Price → Option Price → InsideKind
  | some bid, some ask => if bid > ask then .crossed else if bid = ask then .locked else .apart
  | _, _ => .apart

namespace SharedCounters

variable {c : SharedCounters} {i j : InsideKind}

def observe (c : SharedCounters) : InsideKind → SharedCounters
  | .apart => c
  | .crossed => { c with crossedObservations := c.crossedObservations + 1 }
  | .locked => { c with lockedObservations := c.lockedObservations + 1 }

/-- The counters show what was observed. -/
theorem observe_inj : c.observe i = c.observe j ↔ i = j := by
  constructor
  · intro h
    have hcrossed := congrArg crossedObservations h
    have hlocked := congrArg lockedObservations h
    cases i <;> cases j <;> simp [observe] at hcrossed hlocked ⊢
  · rintro rfl
    rfl

end SharedCounters

/-! ## What a message counts -/

namespace Book

/-- A removal of `qty` shares from the order `ref`. -/
def countReduce (A : Book) (ref : Ref) (qty : Shares) (orphan : SharedCounters → SharedCounters)
    (c : SharedCounters) : SharedCounters :=
  match A.find ref with
  | none => orphan c
  | some e =>
    let c := if qty > e.shares then { c with overExecute := c.overExecute + 1 } else c
    if e.shares - taken qty e.shares = 0 then { c with removedAtZero := c.removedAtZero + 1 } else c

/-- An add of the order `ref`. -/
def countAdd (A : Book) (ref : Ref) (c : SharedCounters) : SharedCounters :=
  if (A.find ref).isSome then { c with duplicateAdd := c.duplicateAdd + 1 } else c

/-- A book message. -/
def countTick (afterHours : Bool) (c : SharedCounters) : SharedCounters :=
  { c with
    bookMessages := c.bookMessages + 1
    afterEndOfSystemHours := if afterHours then c.afterEndOfSystemHours + 1 else c.afterEndOfSystemHours }

/-- What a message counts before the inside is observed. -/
def counted (A : Book) (afterHours : Bool) (c : SharedCounters) : Message → SharedCounters
  | .systemEvent _ => c
  | .stockTradingAction _ => c
  | .operationalHalt _ => c
  | .stockDirectory _ => c
  | .addOrder v => A.countAdd v.orderRef (countTick afterHours c)
  | .addOrderMpid v => A.countAdd v.orderRef (countTick afterHours c)
  | .orderExecuted v =>
    A.countReduce v.orderRef v.executedShares (fun c => { c with orphanExecute := c.orphanExecute + 1 })
      (countTick afterHours c)
  | .orderExecutedPrice v =>
    A.countReduce v.orderRef v.executedShares
      (fun c => { c with orphanExecutePrice := c.orphanExecutePrice + 1 }) (countTick afterHours c)
  | .orderCancel v =>
    A.countReduce v.orderRef v.cancelledShares (fun c => { c with orphanCancel := c.orphanCancel + 1 })
      (countTick afterHours c)
  | .orderDelete v =>
    if (A.find v.orderRef).isSome then countTick afterHours c
    else
      let c := countTick afterHours c
      { c with orphanDelete := c.orphanDelete + 1 }
  | .orderReplace v =>
    let c := countTick afterHours c
    if (A.find v.oldOrderRef).isSome then (A.drop v.oldOrderRef).countAdd v.newOrderRef c
    else { c with orphanReplace := c.orphanReplace + 1 }
  | .trade _ => countTick afterHours c
  | .brokenTrade _ => countTick afterHours c
  | .crossTrade v =>
    let c := countTick afterHours c
    if v.shares = 0 then { c with zeroShareCross := c.zeroShareCross + 1 } else c

/-- The symbols that are observed, in order. A replacement is observed when it is added, and then at the
symbol `last`. -/
def observed (A : Book) (last : OrderReplace → Entry → UInt16) : Message → List UInt16
  | .addOrder v => [v.locate]
  | .addOrderMpid v => [v.locate]
  | .orderExecuted v => [v.locate]
  | .orderExecutedPrice v => [v.locate]
  | .orderCancel v => [v.locate]
  | .orderDelete v => [v.locate]
  | .orderReplace v => ((A.find v.oldOrderRef).map fun e => [e.locate, last v e]).getD []
  | _ => []

/-- The highest bid is above the lowest offer. -/
def Crossed (A : Book) (locate : UInt16) : Prop :=
  ∃ bid ask, A.IsBest locate true bid ∧ A.IsBest locate false ask ∧ ask < bid

/-- The highest bid is the lowest offer. -/
def Locked (A : Book) (locate : UInt16) : Prop :=
  ∃ price, A.IsBest locate true price ∧ A.IsBest locate false price

/-- Observations of the two symbols count the same. -/
def SameKind (A : Book) (locate locate' : UInt16) : Prop :=
  (A.Crossed locate ↔ A.Crossed locate') ∧ (A.Locked locate ↔ A.Locked locate')

end Book

/-- The flag that the end of system hours sets. -/
def hoursAfter (afterHours : Bool) : Message → Bool
  | .systemEvent v => if v.eventCode = 69 then true else afterHours
  | _ => afterHours

/-! ## The reference book -/

namespace ReferenceBook

variable {b b' : ReferenceBook} {A : Book} {ref : Ref} {o : RefOrder} {locate : UInt16} {ts : ℕ}

/-- The inside of a symbol. -/
def inside (b : ReferenceBook) (locate : UInt16) : InsideKind :=
  InsideKind.of ((b.symbol locate).bind RefSymbol.bestBid) ((b.symbol locate).bind RefSymbol.bestAsk)

@[simp] theorem shared_crossed (c : RefCounters) (locate : UInt16) (ts depth : ℕ) (why : Excuse) :
    (crossed c locate ts depth why).shared = c.shared.observe .crossed := by
  cases why <;> rfl

@[simp] theorem shared_locked (c : RefCounters) (locate : UInt16) (ts : ℕ) (why : Excuse) :
    (locked c locate ts why).shared = c.shared.observe .locked := by
  cases why <;> rfl

@[simp] theorem inside_checkBbo (b : ReferenceBook) (locate l : UInt16) (ts : ℕ) :
    (b.checkBbo locate ts).inside l = b.inside l := by
  unfold inside symbol
  rw [(checkBbo_frame b locate ts).symbols]

theorem shared_checkBbo (b : ReferenceBook) (locate : UInt16) (ts : ℕ) :
    (b.checkBbo locate ts).counters.shared = b.counters.shared.observe (b.inside locate) := by
  unfold checkBbo inside symbol
  cases b.symbols[locate]? with
  | none => rfl
  | some s =>
    cases hbid : s.bestBid with
    | none => simp [InsideKind.of, hbid, SharedCounters.observe]
    | some bid =>
      cases hask : s.bestAsk with
      | none => simp [InsideKind.of, hbid, hask, SharedCounters.observe]
      | some ask =>
        simp only [Option.bind_some, hbid, hask, InsideKind.of]
        split_ifs
        all_goals first
          | exact shared_crossed _ _ _ _ _
          | exact shared_locked _ _ _ _
          | rfl

theorem Represents.contains (h : Represents b A) (ref : Ref) :
    b.orders.contains ref = (A.find ref).isSome := by
  rw [Std.TreeMap.contains_eq_isSome_getElem?, ← h.find_eq, Option.isSome_map]

theorem Represents.remove_fst (h : Represents b A) (ref : Ref) :
    (b.remove ref).1 = (A.find ref).isSome := by
  rw [← h.find_eq]
  unfold ReferenceBook.remove
  cases b.orders[ref]? <;> rfl

/-- A removal of shares counts what the abstract book counts. -/
theorem Represents.shared_execute (h : Represents b A) (ref : Ref) (qty : Shares)
    (f : RefCounters → RefCounters) (g : SharedCounters → SharedCounters)
    (hf : ∀ c : RefCounters, (f c).shared = g c.shared) :
    (ReferenceBook.countUnless (b.execute ref qty) f).counters.shared =
        A.countReduce ref qty g b.counters.shared ∧
      (ReferenceBook.countUnless (b.execute ref qty) f).afterHours = b.afterHours := by
  unfold ReferenceBook.execute Book.countReduce
  rw [← h.find_eq]
  cases ho : b.orders[ref]? with
  | none => exact ⟨hf b.counters, rfl⟩
  | some o =>
    dsimp only [Option.map_some]
    -- the level of a live order is there
    obtain ⟨b₁, hb₁, hread, hcount, hhours⟩ : ∃ b₁, (if qty > o.shares then
        b.count fun c => { c with overExecute := c.overExecute + 1 } else b) = b₁ ∧
          b₁.levelOf o = levelFor b.slotOf (A.level o.locate (o.side == kBuy) o.price) ∧
          b₁.counters.shared = (if qty > o.shares then
            { b.counters.shared with overExecute := b.counters.shared.overExecute + 1 }
            else b.counters.shared) ∧ b₁.afterHours = b.afterHours := by
      have hlevel := (getElem?_side b o.locate o.side o.price).trans (h.level_eq _ _ _)
      refine ⟨_, rfl, ?_⟩
      split <;> exact ⟨hlevel, rfl, rfl⟩
    have hne : A.level o.locate (o.side == kBuy) o.price ≠ [] :=
      List.ne_nil_of_mem (entry_mem_level h ho)
    rw [hb₁, hread, levelFor, if_neg hne, ← hhours]
    dsimp only
    by_cases hz : o.shares - taken qty o.shares = 0
    · have hz' : (o.entry ref).shares - taken qty (o.entry ref).shares = 0 := hz
      rw [if_pos hz, if_pos hz']
      obtain ⟨hc, hh⟩ := counters_erase (ReferenceBook.count _ fun c =>
        { c with removedAtZero := c.removedAtZero + 1 }) ref { o with shares := o.shares - taken qty o.shares }
      refine ⟨?_, hh⟩
      refine (congrArg RefCounters.shared hc).trans ?_
      change { b₁.counters.shared with removedAtZero := b₁.counters.shared.removedAtZero + 1 } = _
      rw [hcount]
      rfl
    · have hz' : ¬ (o.entry ref).shares - taken qty (o.entry ref).shares = 0 := hz
      rw [if_neg hz, if_neg hz']
      exact ⟨hcount, rfl⟩

/-- An add counts a live order with its reference, and what it observes. -/
theorem Represents.shared_add (h : Represents b A) (e : Entry) (ts : ℕ) :
    let b' := b.addRetained e.locate e.ref e.side e.price e.shares e.stock e.attribution ts
    b'.counters.shared = (A.countAdd e.ref b.counters.shared).observe (b'.inside e.locate) ∧
      b'.afterHours = b.afterHours := by
  dsimp only
  unfold ReferenceBook.addRetained Book.countAdd
  rw [← h.contains]
  dsimp only
  rw [shared_checkBbo, inside_checkBbo]
  refine ⟨congrArg (SharedCounters.observe · _) ?_, (checkBbo_frame _ _ _).afterHours.trans ?_⟩
  · split
    · exact congrArg RefCounters.shared (counters_remove (b.count _) e.ref).1
    · rfl
  · split
    · exact (counters_remove (b.count _) e.ref).2
    · rfl

/-- What `b'` counts after `b` counted as in `A`. -/
def Counts (b b' : ReferenceBook) (A : Book) (m : Message) : Prop :=
  b'.counters.shared =
      ((A.observed (fun v _ => v.locate) m).map b'.inside).foldl SharedCounters.observe
        (A.counted b.afterHours b.counters.shared m) ∧
    b'.afterHours = hoursAfter b.afterHours m

/-- **One message**, in the reference book. -/
theorem counts_on (h : Represents b A) (m : Message) : Counts b (b.on m) A m := by
  have htick : Represents b.tick A := h.count _
  have hobserve : ∀ (c : ReferenceBook) (locate : UInt16) (ts : ℕ),
      (c.checkBbo locate ts).counters.shared =
        c.counters.shared.observe ((c.checkBbo locate ts).inside locate) := fun c locate ts => by
    rw [shared_checkBbo, inside_checkBbo]
  have hmodify : ∀ (ref : Ref) (qty : Shares) (locate : UInt16) (ts : ℕ) (f : RefCounters → RefCounters)
      (g : SharedCounters → SharedCounters), (∀ c : RefCounters, (f c).shared = g c.shared) →
      let b' := (ReferenceBook.countUnless (b.tick.execute ref qty) f).checkBbo locate ts
      b'.counters.shared =
          (A.countReduce ref qty g (Book.countTick b.afterHours b.counters.shared)).observe
            (b'.inside locate) ∧ b'.afterHours = b.afterHours := by
    intro ref qty locate ts f g hfg
    obtain ⟨hshared, hhours⟩ := htick.shared_execute ref qty f g hfg
    refine ⟨?_, (checkBbo_frame _ _ _).afterHours.trans hhours⟩
    rw [hobserve, hshared]
    rfl
  cases m with
  | systemEvent v =>
    unfold on Counts hoursAfter
    dsimp only
    split <;> exact ⟨rfl, rfl⟩
  | stockTradingAction v => exact ⟨rfl, rfl⟩
  | operationalHalt v =>
    unfold on onOperationalHalt Counts
    dsimp only
    split_ifs <;> exact ⟨rfl, rfl⟩
  | stockDirectory v => exact ⟨rfl, rfl⟩
  | addOrder v => exact htick.shared_add (Book.added v []) v.ts.toNat
  | addOrderMpid v => exact htick.shared_add (Book.added v.toAddOrder v.attribution) v.ts.toNat
  | orderExecuted v =>
    exact hmodify v.orderRef v.executedShares v.locate v.ts.toNat
      (fun c => { c with orphanExecute := c.orphanExecute + 1 })
      (fun c => { c with orphanExecute := c.orphanExecute + 1 }) fun _ => rfl
  | orderExecutedPrice v =>
    exact hmodify v.orderRef v.executedShares v.locate v.ts.toNat
      (fun c => { c with orphanExecutePrice := c.orphanExecutePrice + 1 })
      (fun c => { c with orphanExecutePrice := c.orphanExecutePrice + 1 }) fun _ => rfl
  | orderCancel v =>
    exact hmodify v.orderRef v.cancelledShares v.locate v.ts.toNat
      (fun c => { c with orphanCancel := c.orphanCancel + 1 })
      (fun c => { c with orphanCancel := c.orphanCancel + 1 }) fun _ => rfl
  | orderDelete v =>
    obtain ⟨hc, hh⟩ := counters_remove b.tick v.orderRef
    have hfst := htick.remove_fst v.orderRef
    refine ⟨(hobserve _ _ _).trans ?_, (checkBbo_frame _ _ _).afterHours.trans ?_⟩
    · refine congrArg (SharedCounters.observe · _) ?_
      unfold ReferenceBook.countUnless Book.counted
      rw [hfst]
      dsimp only
      split
      · exact congrArg RefCounters.shared hc
      · change RefCounters.shared { (b.tick.remove v.orderRef).2.counters with
          orphanDelete := (b.tick.remove v.orderRef).2.counters.orphanDelete + 1 } = _
        rw [hc]
        rfl
    · unfold ReferenceBook.countUnless
      split <;> exact hh
  | orderReplace v =>
    unfold Counts Book.observed Book.counted on onOrderReplace hoursAfter
    dsimp only
    rw [← h.find_eq]
    have horders : b.tick.orders[v.oldOrderRef]? = b.orders[v.oldOrderRef]? := rfl
    rw [horders]
    cases ho : b.orders[v.oldOrderRef]? with
    | none => exact ⟨rfl, rfl⟩
    | some o =>
      obtain ⟨hc, hh⟩ := counters_remove b.tick v.oldOrderRef
      obtain ⟨hshared, hhours⟩ := (htick.remove v.oldOrderRef).shared_add
        (Book.replacement v (o.entry v.oldOrderRef)) v.ts.toNat
      refine ⟨?_, (checkBbo_frame _ _ _).afterHours.trans (hhours.trans hh)⟩
      refine (hobserve _ _ _).trans (congrArg (SharedCounters.observe · _) (hshared.trans ?_))
      refine congrArg₂ SharedCounters.observe ?_ (inside_checkBbo _ _ _ _).symm
      rw [hc]
      rfl
  | trade v => exact ⟨rfl, rfl⟩
  | brokenTrade v => exact ⟨rfl, rfl⟩
  | crossTrade v =>
    unfold on onCrossTrade Counts Book.counted
    dsimp only
    split_ifs <;> split <;> try split_ifs
    all_goals exact ⟨rfl, rfl⟩

end ReferenceBook

/-! ## The fast book -/

namespace FastBook

variable {P : HashPolicy} {W : Window} {b b' : FastBook P W} {A : Book} {slot : Ref → UInt32}
  {F : List UInt32} {x : Bool} {ref : Ref} {locate : UInt16}

/-- The inside of a symbol. -/
def inside (b : FastBook P W) (locate : UInt16) : InsideKind :=
  InsideKind.of (b.best locate kBuy) (b.best locate kSell)

/-- What both books count, the capacity counters and the hours stay. -/
structure Silent (b b' : FastBook P W) : Prop where
  shared_eq : b'.counters.shared = b.counters.shared
  failures_eq : b'.failures = b.failures
  afterHours_eq : b'.afterHours = b.afterHours

namespace Silent

theorem refl (b : FastBook P W) : Silent b b := ⟨rfl, rfl, rfl⟩

theorem trans {b'' : FastBook P W} (h : Silent b b') (h' : Silent b' b'') : Silent b b'' :=
  ⟨h'.shared_eq.trans h.shared_eq, h'.failures_eq.trans h.failures_eq,
    h'.afterHours_eq.trans h.afterHours_eq⟩

theorem of_counters (hc : b'.counters = b.counters) (hh : b'.afterHours = b.afterHours) : Silent b b' :=
  ⟨congrArg FastCounters.shared hc, by unfold failures; rw [hc], hh⟩

theorem maybeRecenter (b : FastBook P W) (locate : UInt16) : Silent b (b.maybeRecenter locate) := by
  have hside : ∀ (c : FastBook P W) (side : UInt8), Silent c (c.recenterSide locate side) := by
    intro c side
    unfold recenterSide
    split
    · exact refl c
    · exact ⟨rfl, by funext r; cases r <;> rfl, rfl⟩
  unfold FastBook.maybeRecenter
  split
  · exact refl b
  · exact (hside b kBuy).trans (hside _ kSell)

theorem unlink (b : FastBook P W) (i : UInt32) : Silent b (b.unlink i) := by
  unfold FastBook.unlink
  dsimp only
  split
  · exact refl b
  · unfold dequeue
    dsimp only
    split_ifs <;> exact of_counters rfl rfl

/-- A slot leaves its queue and goes to the free list. -/
theorem retire (b : FastBook P W) (i : UInt32) : Silent b ((b.unlink i).release i) :=
  (unlink b i).trans (of_counters rfl rfl)

theorem subShares (b : FastBook P W) (o : FastOrder) (n : Shares) : Silent b (b.subShares o n) := by
  unfold FastBook.subShares
  split <;> exact of_counters rfl rfl

theorem link (b : FastBook P W) (i : UInt32) (locate : UInt16) (ref : Ref) (side : UInt8) (price : Price)
    (shares : Shares) : Silent b (b.link i locate ref side price shares) := by
  have hqueue : ∀ (c : FastBook P W) (o : FastOrder), Silent c (c.enqueue i o) := by
    intro c o
    unfold enqueue
    dsimp only
    split <;> exact of_counters rfl rfl
  have hcount : ∀ subCent overflow : ℕ,
      Silent b (b.count fun c => { c with subCentPrices := subCent, overflowHits := overflow }) :=
    fun _ _ => ⟨rfl, by funext r; cases r <;> rfl, rfl⟩
  exact (hcount _ _).trans ((hqueue _ _).trans (of_counters rfl rfl))

theorem eraseRef {r : Bool × FastBook P W} (h : b.eraseRef ref = some r) : Silent b r.2 := by
  unfold FastBook.eraseRef at h
  obtain ⟨⟨i, index⟩, -, rfl⟩ := Option.map_eq_some_iff.mp h
  dsimp only
  split
  · exact of_counters rfl rfl
  · have hstart : Silent b { b with index := index } := of_counters rfl rfl
    exact hstart.trans ((subShares _ _ _).trans (retire _ _))

end Silent

/-- An observation counts what it finds, and nothing else of what both books count. -/
theorem observes_checkBbo (b : FastBook P W) (locate : UInt16) :
    (b.checkBbo locate).counters.shared =
        b.counters.shared.observe ((b.checkBbo locate).inside locate) ∧
      (b.checkBbo locate).failures = b.failures ∧ (b.checkBbo locate).afterHours = b.afterHours := by
  have hs := Silent.maybeRecenter b locate
  rw [← hs.shared_eq, ← hs.failures_eq, ← hs.afterHours_eq]
  unfold FastBook.checkBbo inside
  dsimp only
  generalize b.maybeRecenter locate = c
  have hbest : ∀ (f : FastCounters → FastCounters) (side : UInt8),
      (c.count f).best locate side = c.best locate side := fun _ _ => rfl
  cases hbid : c.best locate kBuy with
  | none => exact ⟨by rw [hbid]; rfl, rfl, rfl⟩
  | some bid =>
    cases hask : c.best locate kSell with
    | none => exact ⟨by rw [hbid, hask]; rfl, rfl, rfl⟩
    | some ask =>
      dsimp only
      split_ifs with hgt heq
      · refine ⟨?_, by funext r; cases r <;> rfl, rfl⟩
        rw [hbest, hbest, hbid, hask, InsideKind.of, if_pos hgt]
        rfl
      · refine ⟨?_, by funext r; cases r <;> rfl, rfl⟩
        rw [hbest, hbest, hbid, hask, InsideKind.of, if_neg hgt, if_pos heq]
        rfl
      · refine ⟨?_, rfl, rfl⟩
        rw [hbid, hask, InsideKind.of, if_neg hgt, if_neg heq]
        rfl

/-- A removal of shares counts what the abstract book counts. -/
theorem Rep.shared_reduce (h : Rep x b A) {qty : Shares} {r : Bool × FastBook P W}
    (hr : b.reduce ref qty = some r) (f : FastCounters → FastCounters)
    (g : SharedCounters → SharedCounters) (hf : ∀ c : FastCounters, (f c).shared = g c.shared) :
    (countUnless r f).counters.shared = A.countReduce ref qty g b.counters.shared ∧
      (countUnless r f).afterHours = b.afterHours := by
  obtain ⟨slot, F, h⟩ := h
  unfold FastBook.reduce at hr
  rw [h.index.find_eq, Option.bind_some] at hr
  unfold Book.countReduce
  cases he : A.find ref with
  | none =>
    rw [if_pos (h.slot_eq he)] at hr
    obtain rfl := Option.some.inj hr
    exact ⟨hf b.counters, rfl⟩
  | some e =>
    have hshares : (b.order (slot ref)).shares = e.shares := by
      obtain ⟨hmem, rfl⟩ := Book.find_eq_some.mp he
      exact (h.core.stores e hmem).shares_eq
    rw [if_neg (h.slot_ne he)] at hr
    dsimp only at hr ⊢
    rw [hshares] at hr
    obtain ⟨b₁, hb₁, hcount, hhours⟩ : ∃ b₁, (if qty > e.shares then
        b.count fun c => { c with overExecute := c.overExecute + 1 } else b) = b₁ ∧
          b₁.counters.shared = (if qty > e.shares then
            { b.counters.shared with overExecute := b.counters.shared.overExecute + 1 }
            else b.counters.shared) ∧ b₁.afterHours = b.afterHours := by
      refine ⟨_, rfl, ?_⟩
      split <;> exact ⟨rfl, rfl⟩
    rw [hb₁] at hr
    rw [← hcount, ← hhours]
    have hsub := Silent.subShares b₁ (b.order (slot ref)) (taken qty e.shares)
    by_cases hz : e.shares - taken qty e.shares = 0
    · rw [if_pos hz] at hr ⊢
      obtain ⟨⟨j, index⟩, -, rfl⟩ := Option.map_eq_some_iff.mp hr
      refine ⟨(Silent.retire _ _).shared_eq.trans ?_, (Silent.retire _ _).afterHours_eq.trans hsub.afterHours_eq⟩
      exact congrArg (fun c : SharedCounters => { c with removedAtZero := c.removedAtZero + 1 })
        hsub.shared_eq
    · rw [if_neg hz] at hr ⊢
      obtain rfl := Option.some.inj hr
      exact ⟨hsub.shared_eq, hsub.afterHours_eq⟩

/-- An add that is not refused counts a live order with its reference, and what it observes. -/
theorem Rep.shared_add (h : Rep x b A) {locate : UInt16} {side : UInt8} {price : Price} {shares : Shares}
    (hadd : b.add locate ref side price shares = some b') (hfail : b'.failures = b.failures) :
    b'.counters.shared = (A.countAdd ref b.counters.shared).observe (b'.inside locate) ∧
      b'.afterHours = b.afterHours := by
  obtain ⟨slot, F, h⟩ := h
  unfold FastBook.add at hadd
  split at hadd
  · obtain rfl := Option.some.inj hadd
    exact absurd (congrFun hfail .symbol) (Nat.succ_ne_self _)
  · obtain ⟨b₁, hsup, hnew⟩ := Option.bind_eq_some_iff.mp hadd
    -- the live order with the reference is counted
    have hcount : b₁.counters.shared = A.countAdd ref b.counters.shared ∧ b₁.failures = b.failures ∧
        b₁.afterHours = b.afterHours := by
      unfold FastBook.supersede at hsup
      rw [h.index.find_eq, Option.bind_some] at hsup
      unfold Book.countAdd
      cases he : A.find ref with
      | none =>
        rw [if_pos (h.slot_eq he)] at hsup
        obtain rfl := Option.some.inj hsup
        exact ⟨rfl, rfl, rfl⟩
      | some e =>
        rw [if_neg (h.slot_ne he)] at hsup
        obtain ⟨r, her, rfl⟩ := Option.map_eq_some_iff.mp hsup
        have hs := Silent.eraseRef her
        refine ⟨hs.shared_eq, hs.failures_eq.trans ?_, hs.afterHours_eq⟩
        funext why
        cases why <;> rfl
    rw [← hcount.1, ← hcount.2.2]
    rw [← hcount.2.1] at hfail
    unfold FastBook.addNew alloc at hnew
    split at hnew
    · dsimp only at hnew
      rw [if_pos rfl] at hnew
      obtain rfl := Option.some.inj hnew
      exact absurd (congrFun hfail .pool) (Nat.succ_ne_self _)
    · rename_i hhead
      dsimp only at hnew
      rw [if_neg hhead] at hnew
      obtain ⟨⟨ok, index⟩, hins, hb'⟩ := Option.map_eq_some_iff.mp hnew
      have hstart : Silent b₁ { b₁ with freeHead := (b₁.order b₁.freeHead).next } := .of_counters rfl rfl
      have hlink := hstart.trans (Silent.link _ b₁.freeHead locate ref side price shares)
      cases ok with
      | true =>
        dsimp only at hb'
        rw [if_pos rfl] at hb'
        obtain ⟨hshared, -, hhours⟩ := observes_checkBbo ({ ({ b₁ with
          freeHead := (b₁.order b₁.freeHead).next } : FastBook P W).link b₁.freeHead locate ref side price
            shares with index := index } : FastBook P W) locate
        rw [hb'] at hshared hhours
        refine ⟨hshared.trans ?_, hhours.trans hlink.afterHours_eq⟩
        exact congrArg (SharedCounters.observe · _) hlink.shared_eq
      | false =>
        dsimp only at hb'
        rw [if_neg Bool.false_ne_true] at hb'
        subst hb'
        have hindex := congrFun ((Silent.retire _ _).failures_eq.symm.trans hfail) .index
        have hkept := congrFun hlink.failures_eq .index
        refine absurd hindex ?_
        change (_ : ℕ) + 1 ≠ _
        rw [← hkept]
        exact Nat.succ_ne_self _

/-- Books that stand for the same orders show the same inside. -/
theorem Rep.inside_eq (h : Rep x b A) (h' : Rep x b' A) (locate : UInt16) :
    b.inside locate = b'.inside locate := by
  have hbest : ∀ side, b.best locate side = b'.best locate side := fun side =>
    Option.ext fun price => (h.best_query locate side price).trans (h'.best_query locate side price).symm
  unfold inside
  rw [hbest, hbest]

/-- **One message**, in a fast book that refuses nothing. -/
theorem Rep.counts_on (h : Rep x b A) {m : Message} (hon : b.on m = some b')
    (hfail : b'.failures = b.failures) :
    b'.counters.shared =
        ((A.observed (fun _ e => e.locate) m).map b'.inside).foldl SharedCounters.observe
          (A.counted b.afterHours b.counters.shared m) ∧
      b'.afterHours = hoursAfter b.afterHours m := by
  have htick : Rep x b.tick A := h.count _
  have hmodify : ∀ (r : Bool × FastBook P W) (locate : UInt16) (c : SharedCounters)
      (f : FastCounters → FastCounters), (FastBook.countUnless r f).counters.shared = c →
        (FastBook.countUnless r f).afterHours = b.afterHours →
      let b' := (FastBook.countUnless r f).checkBbo locate
      b'.counters.shared = c.observe (b'.inside locate) ∧ b'.afterHours = b.afterHours := by
    intro r locate c f hshared hhours
    obtain ⟨hc, -, hh⟩ := observes_checkBbo (FastBook.countUnless r f) locate
    exact ⟨hshared ▸ hc, hh.trans hhours⟩
  have hself : ∀ c : FastBook P W, some c = some b' → c = b' := fun c hc => Option.some.inj hc
  cases m with
  | systemEvent v =>
    obtain rfl := hself _ hon
    unfold hoursAfter
    dsimp only
    split <;> exact ⟨rfl, rfl⟩
  | stockTradingAction v => obtain rfl := hself _ hon; exact ⟨rfl, rfl⟩
  | operationalHalt v => obtain rfl := hself _ hon; exact ⟨rfl, rfl⟩
  | stockDirectory v => obtain rfl := hself _ hon; exact ⟨rfl, rfl⟩
  | addOrder v => exact htick.shared_add hon hfail
  | addOrderMpid v => exact htick.shared_add hon hfail
  | orderExecuted v =>
    obtain ⟨r, hr, rfl⟩ := Option.map_eq_some_iff.mp hon
    obtain ⟨hshared, hhours⟩ := htick.shared_reduce hr
      (fun c => { c with orphanExecute := c.orphanExecute + 1 })
      (fun c => { c with orphanExecute := c.orphanExecute + 1 }) fun _ => rfl
    exact hmodify r v.locate _ _ hshared hhours
  | orderExecutedPrice v =>
    obtain ⟨r, hr, rfl⟩ := Option.map_eq_some_iff.mp hon
    obtain ⟨hshared, hhours⟩ := htick.shared_reduce hr
      (fun c => { c with orphanExecutePrice := c.orphanExecutePrice + 1 })
      (fun c => { c with orphanExecutePrice := c.orphanExecutePrice + 1 }) fun _ => rfl
    exact hmodify r v.locate _ _ hshared hhours
  | orderCancel v =>
    obtain ⟨r, hr, rfl⟩ := Option.map_eq_some_iff.mp hon
    obtain ⟨hshared, hhours⟩ := htick.shared_reduce hr
      (fun c => { c with orphanCancel := c.orphanCancel + 1 })
      (fun c => { c with orphanCancel := c.orphanCancel + 1 }) fun _ => rfl
    exact hmodify r v.locate _ _ hshared hhours
  | orderDelete v =>
    obtain ⟨r, hr, rfl⟩ := Option.map_eq_some_iff.mp hon
    obtain ⟨r', hr', hfst, -⟩ := htick.eraseRef v.orderRef
    obtain rfl := Option.some.inj (hr.symm.trans hr')
    have hs := Silent.eraseRef hr
    refine hmodify r v.locate _ _ ?_ ?_
    · unfold FastBook.countUnless Book.counted
      rw [hfst]
      dsimp only
      split
      · exact hs.shared_eq
      · exact congrArg (fun c : SharedCounters => { c with orphanDelete := c.orphanDelete + 1 }) hs.shared_eq
    · unfold FastBook.countUnless
      split <;> exact hs.afterHours_eq
  | orderReplace v =>
    obtain ⟨slot, F, hold⟩ := id h
    have hlookup : b.tick.index.find v.oldOrderRef = some (slot v.oldOrderRef) := hold.index.find_eq _
    unfold FastBook.on FastBook.onOrderReplace at hon
    dsimp only at hon
    rw [hlookup, Option.bind_some] at hon
    unfold Book.observed Book.counted hoursAfter
    dsimp only
    cases he : A.find v.oldOrderRef with
    | none =>
      rw [if_pos (hold.slot_eq he)] at hon
      obtain rfl := hself _ hon
      exact ⟨rfl, rfl⟩
    | some e =>
      rw [if_neg (hold.slot_ne he)] at hon
      obtain ⟨hmem, href⟩ := Book.find_eq_some.mp he
      have hst := hold.core.stores e hmem
      rw [href] at hst
      obtain ⟨r, her, hmap⟩ := Option.bind_eq_some_iff.mp hon
      obtain ⟨b₁, hadd, rfl⟩ := Option.map_eq_some_iff.mp hmap
      have hlocate : (b.tick.order (slot v.oldOrderRef)).locate = e.locate := hst.locate_eq
      have hside : (b.tick.order (slot v.oldOrderRef)).side = e.side := hst.side_eq
      rw [hlocate, hside] at hadd
      rw [hlocate] at hfail ⊢
      obtain ⟨hobs, hquiet, hhours⟩ := observes_checkBbo b₁ e.locate
      have hs := Silent.eraseRef her
      obtain ⟨r', her', -, hrep, hq⟩ := htick.eraseRef v.oldOrderRef
      obtain rfl := Option.some.inj (her.symm.trans her')
      have hfail' : b₁.failures = r.2.failures := hquiet.symm.trans (hfail.trans hs.failures_eq.symm)
      obtain ⟨hshared, hhours'⟩ := hrep.shared_add hadd hfail'
      -- a replacement is never refused, and looking again changes nothing
      obtain ⟨b₂, hadd₂, -, -, hnone, -⟩ := hrep.add (Book.replacement v e)
      obtain rfl := Option.some.inj (hadd₂.symm.trans hadd)
      have hrefusal : (A.drop v.oldOrderRef).refusal r.2.limits e.locate v.newOrderRef = none := by
        rw [hq.limits_eq]
        exact h.within.refusal_eq_none he (hold.core.locate_lt e hmem) _
      have hplaced := hnone hrefusal
      refine ⟨hobs.trans ?_, hhours.trans (hhours'.trans hs.afterHours_eq)⟩
      rw [hshared, hs.shared_eq, hplaced.inside_eq (hplaced.checkBbo e.locate).1]
      rfl
  | trade v => obtain rfl := hself _ hon; exact ⟨rfl, rfl⟩
  | brokenTrade v => obtain rfl := hself _ hon; exact ⟨rfl, rfl⟩
  | crossTrade v =>
    obtain rfl := hself _ hon
    unfold Book.counted
    dsimp only
    split <;> exact ⟨rfl, rfl⟩

end FastBook

/-! ## The two together -/

/-- A replacement of a live order shows the same inside at its own symbol and at the order's. -/
def Book.ObservesAlike (A : Book) : Message → Prop
  | .orderReplace v => ∀ e, A.find v.oldOrderRef = some e →
    (A.step (.orderReplace v)).SameKind e.locate v.locate
  | _ => True

namespace ReferenceBook

variable {b : ReferenceBook} {A : Book}

/-- What an observation finds, by the live orders. -/
theorem Represents.inside_iff (h : Represents b A) (locate : UInt16) :
    (b.inside locate = .crossed ↔ A.Crossed locate) ∧ (b.inside locate = .locked ↔ A.Locked locate) := by
  have hbest := h.best_query locate
  unfold inside Book.Crossed Book.Locked
  simp only [← (hbest _).1, ← (hbest _).2]
  cases (b.symbol locate).bind RefSymbol.bestBid with
  | none => simp [InsideKind.of]
  | some bid =>
    cases (b.symbol locate).bind RefSymbol.bestAsk with
    | none => simp [InsideKind.of]
    | some ask =>
      unfold InsideKind.of
      dsimp only
      split_ifs with hgt heq
      · have hne : bid ≠ ask := fun hc => absurd hgt (by rw [hc]; exact UInt32.lt_irrefl ask)
        simpa [hne.symm] using hgt
      · simp [heq]
      · have hle : bid ≤ ask := UInt32.not_lt.mp hgt
        simpa [Ne.symm heq] using hle

theorem Represents.inside_eq_iff (h : Represents b A) (locate locate' : UInt16) :
    b.inside locate = b.inside locate' ↔ A.SameKind locate locate' := by
  obtain ⟨hc, hl⟩ := h.inside_iff locate
  obtain ⟨hc', hl'⟩ := h.inside_iff locate'
  unfold Book.SameKind
  rw [← hc, ← hl, ← hc', ← hl']
  cases b.inside locate <;> cases b.inside locate' <;> simp

end ReferenceBook

namespace FastBook

variable {P : HashPolicy} {W : Window} {b b' : FastBook P W} {A : Book} {x : Bool}

/-- Both books show the same inside. -/
theorem Rep.inside_eq_reference (h : Rep x b A) {c : ReferenceBook} (h' : c.Represents A)
    (locate : UInt16) : b.inside locate = c.inside locate := by
  have hbid : b.best locate kBuy = (c.symbol locate).bind RefSymbol.bestBid :=
    Option.ext fun price => (h.best_query locate kBuy price).trans (h'.best_query locate price).1.symm
  have hask : b.best locate kSell = (c.symbol locate).bind RefSymbol.bestAsk :=
    Option.ext fun price => (h.best_query locate kSell price).trans (h'.best_query locate price).2.symm
  unfold inside ReferenceBook.inside
  rw [hbid, hask]

/-- **One message.** Counters that agree go on agreeing exactly when the message is observed alike. -/
theorem Rep.shared_on_iff (h : Rep x b A) {c : ReferenceBook} (href : c.Represents A)
    (hhours : b.afterHours = c.afterHours) {m : Message} (hon : b.on m = some b')
    (hfail : b'.failures = b.failures) (hrep' : Rep x b' (A.step m)) :
    b'.afterHours = (c.on m).afterHours ∧
      (b.counters.shared = c.counters.shared →
        (b'.counters.shared = (c.on m).counters.shared ↔ A.ObservesAlike m)) := by
  obtain ⟨hfast, hfasth⟩ := h.counts_on hon hfail
  obtain ⟨hslow, hslowh⟩ := ReferenceBook.counts_on href m
  have href' := ReferenceBook.represents_on href m
  have hinside : b'.inside = (c.on m).inside := funext fun l => hrep'.inside_eq_reference href' l
  refine ⟨by rw [hfasth, hslowh, hhours], fun hshared => ?_⟩
  rw [hinside, hshared, hhours] at hfast
  rw [hfast, hslow]
  cases m with
  | orderReplace v =>
    unfold Book.observed Book.ObservesAlike
    dsimp only
    cases he : A.find v.oldOrderRef with
    | none => exact iff_of_true rfl fun e hc => by cases hc
    | some e =>
      -- both observe the order's symbol first
      refine SharedCounters.observe_inj.trans ((href'.inside_eq_iff _ _).trans ?_)
      exact ⟨fun hk f hf => (Option.some.inj hf) ▸ hk, fun hk => hk e rfl⟩
  | _ => exact iff_of_true rfl trivial

theorem Fits.failures_eq (h : b.Fits) : b.failures = fun _ => 0 := by
  obtain ⟨hp, hi, hs⟩ := h
  funext why
  cases why
  · exact hs
  · exact hp
  · exact hi

/-- **The shared counters.** While the fast book refuses nothing, the thirteen counters agree after every
message exactly when every replacement is observed alike. -/
theorem counters_agree_iff (P : HashPolicy) (W : Window) (cfg : FastBookConfig) (ms : List Message)
    (hnew : (new P W cfg).isSome = true)
    (hfits : ∀ pre, pre <+: ms → ∀ b, run P W cfg pre = some b → b.Fits) :
    (∀ pre, pre <+: ms → ∃ b, run P W cfg pre = some b ∧
        b.counters.shared = (ReferenceBook.run {} pre).counters.shared) ↔
      Runs.Along Book.step Book.ObservesAlike Book.empty ms := by
  suffices hall : (∃ b, run P W cfg ms = some b ∧ b.afterHours = (ReferenceBook.run {} ms).afterHours) ∧
      ((∀ pre, pre <+: ms → ∃ b, run P W cfg pre = some b ∧
        b.counters.shared = (ReferenceBook.run {} pre).counters.shared) ↔
          Runs.Along Book.step Book.ObservesAlike Book.empty ms) from hall.2
  induction ms using List.reverseRecOn with
  | nil =>
    obtain ⟨b₀, h₀⟩ := Option.isSome_iff_exists.mp hnew
    obtain ⟨index, -, rfl⟩ := Option.map_eq_some_iff.mp h₀
    refine ⟨⟨_, h₀, rfl⟩, iff_of_true (fun pre hpre => ?_) trivial⟩
    obtain rfl := List.prefix_nil.mp hpre
    exact ⟨_, h₀, rfl⟩
  | append_singleton ms m ih =>
    have hpre : ∀ pre, pre <+: ms → pre <+: ms ++ [m] := fun pre hp => hp.trans (List.prefix_append ms [m])
    obtain ⟨⟨b, hb, hhours⟩, hiff⟩ := ih fun pre hp => hfits pre (hpre pre hp)
    obtain ⟨c, hc, -, hrep⟩ := rep_of_fits hnew fun pre hp => hfits pre (hpre pre hp)
    obtain rfl := Option.some.inj (hb.symm.trans hc)
    obtain ⟨b', hb', -, hrep'⟩ := rep_of_fits hnew hfits
    have hon : b.on m = some b' := (run_snoc hb m).symm.trans hb'
    have hfail : b'.failures = b.failures := by
      rw [(hfits _ (List.prefix_refl _) b' hb').failures_eq, (hfits _ (List.prefix_append ms [m]) b hb).failures_eq]
    rw [Runs.run_snoc] at hrep'
    have href : (ReferenceBook.run {} (ms ++ [m])) = (ReferenceBook.run {} ms).on m := Runs.run_snoc _ _ _
    obtain ⟨hhours', hstep⟩ := hrep.shared_on_iff (ReferenceBook.represents_run ms) hhours hon hfail hrep'
    refine ⟨⟨b', hb', href ▸ hhours'⟩, ?_⟩
    rw [Runs.along_append, ← hiff]
    constructor
    · intro hall
      have hms : ∀ pre, pre <+: ms → _ := fun pre hp => hall pre (hpre pre hp)
      obtain ⟨d, hd, hshared⟩ := hms ms (List.prefix_refl ms)
      obtain rfl := Option.some.inj (hb.symm.trans hd)
      obtain ⟨d', hd', hshared'⟩ := hall _ (List.prefix_refl _)
      obtain rfl := Option.some.inj (hb'.symm.trans hd')
      rw [href] at hshared'
      exact ⟨hms, (hstep hshared).mp hshared', trivial⟩
    · rintro ⟨hms, hm, -⟩ pre hp
      rcases List.prefix_concat_iff.mp hp with rfl | hp
      · obtain ⟨d, hd, hshared⟩ := hms ms (List.prefix_refl ms)
        obtain rfl := Option.some.inj (hb.symm.trans hd)
        refine ⟨b', hb', ?_⟩
        rw [href]
        exact (hstep hshared).mpr hm
      · exact hms pre hp

/-- Whether nothing is refused can be computed. -/
theorem fits_of_inits {cfg : FastBookConfig} {ms : List Message}
    (h : ∀ pre ∈ ms.inits, (run P W cfg pre).all (fun b => decide b.Fits) = true) :
    ∀ pre, pre <+: ms → ∀ b, run P W cfg pre = some b → b.Fits := by
  intro pre hpre b hb
  have hfit := h pre ((List.mem_inits _ _).mpr hpre)
  rw [hb] at hfit
  exact of_decide_eq_true hfit

theorem counters_agree_iff_three :
    (∀ pre, pre <+: threeMessages → ∃ b, run multiplyShiftHash defaultWindow ⟨8, 4, 8⟩ pre = some b ∧
        b.counters.shared = (ReferenceBook.run {} pre).counters.shared) ↔
      Runs.Along Book.step Book.ObservesAlike Book.empty threeMessages :=
  counters_agree_iff multiplyShiftHash defaultWindow ⟨8, 4, 8⟩ threeMessages
    ((new_isSome _).mpr (by decide)) (fits_of_inits (by decide +kernel))

/-- An offer and a bid of one symbol, and a replacement of the bid above the offer that names another
symbol. -/
def foreignReplace : List Message :=
  [.addOrder
      { locate := 1, ts := 0, orderRef := 1, side := kSell, shares := 5, stock := [], price := 20000 },
    .addOrder
      { locate := 1, ts := 0, orderRef := 2, side := kBuy, shares := 5, stock := [], price := 10000 },
    .orderReplace
      { locate := 2, ts := 0, oldOrderRef := 2, newOrderRef := 3, shares := 5, price := 30000 }]

/-- One book counts the crossed book twice, the other once. -/
theorem not_counters_agree :
    (∀ pre, pre <+: foreignReplace → ∀ b,
      run multiplyShiftHash defaultWindow ⟨8, 4, 8⟩ pre = some b → b.Fits) ∧
    (run multiplyShiftHash defaultWindow ⟨8, 4, 8⟩ foreignReplace).map
        (fun b => b.counters.crossedObservations) = some 2 ∧
      (ReferenceBook.run {} foreignReplace).counters.crossedObservations = 1 :=
  ⟨fits_of_inits (by decide +kernel), by decide +kernel, by decide +kernel⟩

end FastBook

end Carteret
