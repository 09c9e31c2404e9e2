import Carteret.DifferentialComplete

/-!
# What a message touches

After a message the harness compares the levels that it takes the message to have touched. They are named by
the symbol of the message, and by the side and the price of the order that the message names.

1. `Notes`: a comparison records nothing exactly when something holds.
2. `compared`: the levels that are compared after a message.
3. What it takes for a message to record no divergence.
4. When that is enough: every level that the message changes is one of those compared.
-/

namespace Carteret

namespace Differential

open ComparedBook (level hasBid hasAsk bestBid bestAsk)

variable {β : Type} {b : ReferenceBook} {d : Differential β} {m : Message}

/-! ## When nothing is recorded -/

/-- The comparison records nothing exactly when nothing was recorded before and `P` holds. -/
structure Notes (d : Differential β) (P : Prop) (d' : Differential β) : Prop where
  found : d'.div.found = false ↔ d.div.found = false ∧ P
  same : Same d d'

theorem Notes.trans {d' d'' : Differential β} {P Q : Prop} (h : Notes d P d') (h' : Notes d' Q d'') :
    Notes d (P ∧ Q) d'' :=
  ⟨h'.found.trans (by rw [h.found, and_assoc]), h.same.trans h'.same⟩

theorem Notes.congr {d' : Differential β} {P Q : Prop} (h : Notes d P d') (hPQ : P ↔ Q) : Notes d Q d' :=
  ⟨h.found.trans (and_congr_right fun _ => hPQ), h.same⟩

/-- A comparison that returns at once after a divergence. -/
theorem Decides.notes {P : Prop} {r : Bool × Differential β} (h : d.div.found = false → Decides d P r)
    (hdone : d.div.found = true → r = (false, d)) : Notes d P r.2 := by
  cases hd : d.div.found with
  | true =>
    rw [hdone hd]
    exact ⟨by simp [hd], Same.refl d⟩
  | false =>
    obtain ⟨hresult, hfound, hsame⟩ := h hd
    refine ⟨?_, hsame⟩
    rw [hfound, ← hresult, hd]
    simp

variable [ComparedBook β]

/-! ## What is compared -/

/-- The levels that are compared after a message. -/
def compared (b : ReferenceBook) : Message → List LevelKey
  | .addOrder v => [(v.locate, v.side == kBuy, v.price)]
  | .addOrderMpid v => [(v.locate, v.side == kBuy, v.price)]
  | .orderExecuted v => ((b.order v.orderRef).map fun o => (v.locate, o.side == kBuy, o.price)).toList
  | .orderExecutedPrice v => ((b.order v.orderRef).map fun o => (v.locate, o.side == kBuy, o.price)).toList
  | .orderCancel v => ((b.order v.orderRef).map fun o => (v.locate, o.side == kBuy, o.price)).toList
  | .orderDelete v => ((b.order v.orderRef).map fun o => (v.locate, o.side == kBuy, o.price)).toList
  | .orderReplace v =>
    match b.order v.oldOrderRef with
    | none => [(v.locate, false, v.price)]
    | some o => [(v.locate, o.side == kBuy, o.price), (v.locate, o.side == kBuy, v.price)]
  | _ => []

/-- The symbol whose inside is compared after a message. -/
def comparedInside : Message → Option UInt16
  | .addOrder v => some v.locate
  | .addOrderMpid v => some v.locate
  | .orderExecuted v => some v.locate
  | .orderExecutedPrice v => some v.locate
  | .orderCancel v => some v.locate
  | .orderDelete v => some v.locate
  | .orderReplace v => some v.locate
  | .trade v => some v.locate
  | _ => none

/-- A message after which the interval checks are made. -/
def Periodic : Message → Prop
  | .systemEvent _ => False
  | .stockDirectory _ => False
  | .stockTradingAction _ => False
  | .operationalHalt _ => False
  | _ => True

/-- The structural checks are due at the `n`-th message. -/
def InvariantsDue (every n : ℕ) : Prop := every ≠ 0 ∧ n % every = 0

/-- The comparison of everything is due at the `n`-th message. -/
def FullDue (every n : ℕ) : Prop := every ≠ 0 ∧ n % every = 0

/-- The books, once both have the message, pass every comparison that is made after it. -/
structure Passes (b b' : ReferenceBook) (fast : β) (m : Message) (fullEvery invariantEvery n : ℕ) : Prop where
  levels : ∀ k ∈ compared b m, LevelAgrees (b'.levelOn k) (shown fast k)
  inside : ∀ locate, comparedInside m = some locate → BboAgrees b' fast locate
  invariants : Periodic m → InvariantsDue invariantEvery n →
    b'.checkInvariants = 0 ∧ ComparedBook.checkInvariants fast = 0
  everything : Periodic m → FullDue fullEvery n → Looked b' fast

/-! ## Comparing after a message -/

theorem notes_level (d : Differential β) (type : UInt8) (locate : UInt16) (side : UInt8) (price : Price) :
    Notes d (LevelAgrees (d.ref.level locate side price) (level d.fast locate side price))
      (d.compareLevel type locate side price) :=
  Decides.notes (fun hd => decides_level hd type locate side price) fun hd => by
    unfold compareLevelNow
    rw [hd, if_pos rfl]

theorem notes_bbo (d : Differential β) (type : UInt8) (locate : UInt16) :
    Notes d (BboAgrees d.ref d.fast locate) (d.compareBbo type locate) :=
  Decides.notes (fun hd => decides_bbo hd type locate) fun hd => by
    unfold compareBboNow
    rw [hd, if_pos rfl]

theorem notes_everything (d : Differential β) : Notes d (Looked d.ref d.fast) d.compareEverything.2 :=
  Decides.notes decides_everything fun hd => by
    unfold compareEverything
    rw [hd, if_pos rfl]

theorem notes_invariants (d : Differential β) :
    Notes d (d.ref.checkInvariants = 0 ∧ ComparedBook.checkInvariants d.fast = 0) d.checkInvariantsNow := by
  unfold checkInvariantsNow
  cases hd : d.div.found with
  | true =>
    rw [if_pos rfl]
    exact ⟨by simp [hd], Same.refl d⟩
  | false =>
    rw [if_neg Bool.false_ne_true]
    dsimp only
    split_ifs with hbad
    · refine ⟨iff_of_false (fun hc => by cases hc) fun hc => ?_, ⟨rfl, rfl, rfl, rfl, rfl⟩⟩
      exact hbad.elim (fun h => h hc.2.1) fun h => h hc.2.2
    · push Not at hbad
      exact ⟨iff_of_true hd ⟨hd, hbad⟩, ⟨rfl, rfl, rfl, rfl, rfl⟩⟩

theorem notes_periodic (d : Differential β) :
    Notes d ((InvariantsDue d.invariantEvery d.stats.messages →
        d.ref.checkInvariants = 0 ∧ ComparedBook.checkInvariants d.fast = 0) ∧
      (FullDue d.fullEvery d.stats.messages → Looked d.ref d.fast)) d.periodic := by
  obtain ⟨c, hc, hinv⟩ : ∃ c, (if d.invariantEvery ≠ 0 ∧ d.stats.messages % d.invariantEvery = 0 then
      d.checkInvariantsNow else d) = c ∧ Notes d (InvariantsDue d.invariantEvery d.stats.messages →
        d.ref.checkInvariants = 0 ∧ ComparedBook.checkInvariants d.fast = 0) c := by
    refine ⟨_, rfl, ?_⟩
    split_ifs with hdue
    · exact (notes_invariants d).congr ⟨fun h _ => h, fun h => h hdue⟩
    · exact ⟨(and_iff_left fun h => absurd h hdue).symm, Same.refl d⟩
  unfold periodic
  rw [hc]
  refine hinv.trans ?_
  rw [← hinv.same.ref, ← hinv.same.fast, ← hinv.same.messages, ← hinv.same.fullEvery]
  dsimp only
  split_ifs with hzero hdue
  · exact ⟨(and_iff_left fun h : FullDue _ _ => absurd hzero h.1).symm, Same.refl c⟩
  · exact ⟨(and_iff_left fun h : FullDue _ _ => absurd h.2 hdue).symm, Same.refl c⟩
  · have hfull := notes_everything (c.tally fun s => { s with fullComparisons := s.fullComparisons + 1 })
    have htally : Same c (c.tally fun s => { s with fullComparisons := s.fullComparisons + 1 }) :=
      ⟨rfl, rfl, rfl, rfl, rfl⟩
    exact ⟨hfull.found.trans (and_congr_right fun _ => ⟨fun h _ => h, fun h => h ⟨hzero, not_not.mp hdue⟩⟩),
      htally.trans hfull.same⟩

/-! ## When a message records nothing -/

/-- Only whether the side is the buying one matters. -/
theorem levelAgrees_iff (b : ReferenceBook) (fast : β) (locate : UInt16) (side : UInt8) (price : Price) :
    LevelAgrees (b.level locate side price) (level fast locate side price) ↔
      LevelAgrees (b.levelOn (locate, side == kBuy, price)) (shown fast (locate, side == kBuy, price)) := by
  have hb : b.level locate side price = b.level locate (sideCode (side == kBuy)) price := by
    have hside : ∀ s : RefSymbol, s.side side = s.side (sideCode (side == kBuy)) := fun s => by
      unfold RefSymbol.side sideCode
      by_cases h : side = kBuy
      · rw [h]; rfl
      · rw [if_neg h, beq_eq_false_iff_ne.mpr h]; rfl
    unfold ReferenceBook.level
    simp only [hside]
  rw [hb, ComparedBook.level_side]
  exact Iff.rfl

/-- The parts of `Passes`, for a message that has all of them. -/
theorem passes_iff {b' : ReferenceBook} {fast : β} {fullEvery invariantEvery n : ℕ} {locate : UInt16}
    (hinside : comparedInside m = some locate) (hperiodic : Periodic m) :
    Passes b b' fast m fullEvery invariantEvery n ↔
      ((∀ k ∈ compared b m, LevelAgrees (b'.levelOn k) (shown fast k)) ∧ BboAgrees b' fast locate) ∧
        (InvariantsDue invariantEvery n → b'.checkInvariants = 0 ∧ ComparedBook.checkInvariants fast = 0) ∧
        (FullDue fullEvery n → Looked b' fast) := by
  constructor
  · exact fun h => ⟨⟨h.levels, h.inside locate hinside⟩, h.invariants hperiodic, h.everything hperiodic⟩
  · rintro ⟨⟨hlevels, hbbo⟩, hinv, hfull⟩
    refine ⟨hlevels, fun l hl => ?_, fun _ => hinv, fun _ => hfull⟩
    obtain rfl := Option.some.inj (hinside.symm.trans hl)
    exact hbbo

/-- The levels, then the inside, then the interval checks. -/
theorem notes_touched {e d' : Differential β} {locate : UInt16} {type : UInt8} (hd : d.div.found = false)
    (happly : e = d.apply m) (hinside : comparedInside m = some locate) (hperiodic : Periodic m)
    (hlevels : Notes e (∀ k ∈ compared d.ref m, LevelAgrees (e.ref.levelOn k) (shown e.fast k)) d') :
    ((d'.compareBbo type locate).periodic.div.found = false ↔
        Passes d.ref (d.ref.on m) (ComparedBook.on d.fast m) m d.fullEvery d.invariantEvery
          (d.stats.messages + 1)) ∧
      (d'.compareBbo type locate).periodic.ref = d.ref.on m ∧
      (d'.compareBbo type locate).periodic.fast = ComparedBook.on d.fast m := by
  have hbbo := hlevels.trans (notes_bbo d' type locate)
  have hall := hbbo.trans (notes_periodic _)
  rw [hlevels.same.ref, hlevels.same.fast, hbbo.same.ref, hbbo.same.fast, hbbo.same.messages,
    hbbo.same.fullEvery, hbbo.same.invariantEvery] at hall
  subst happly
  refine ⟨hall.found.trans ?_, hall.same.ref, hall.same.fast⟩
  rw [passes_iff hinside hperiodic]
  exact and_iff_right hd

/-- What the book under test is after a message. -/
def fastAfter (fast : β) (m : Message) : β :=
  match m with
  | .stockDirectory _ => fast
  | .stockTradingAction _ => fast
  | .operationalHalt _ => fast
  | _ => ComparedBook.on fast m

/-- **One message.** Nothing is recorded exactly when the two books pass. -/
theorem on_found_iff (hd : d.div.found = false) (m : Message) :
    ((d.on m).div.found = false ↔
        Passes d.ref (d.ref.on m) (fastAfter d.fast m) m d.fullEvery d.invariantEvery
          (d.stats.messages + 1)) ∧
      (d.on m).ref = d.ref.on m ∧ (d.on m).fast = fastAfter d.fast m := by
  have hquiet : ∀ (m : Message) (b' : ReferenceBook) (fast : β), compared d.ref m = [] →
      comparedInside m = none → ¬ Periodic m →
        Passes d.ref b' fast m d.fullEvery d.invariantEvery (d.stats.messages + 1) := by
    intro m b' fast hnil hnone hnot
    refine ⟨fun k hk => ?_, fun l hl => ?_, fun h => absurd h hnot, fun h => absurd h hnot⟩
    · rw [hnil] at hk
      cases hk
    · rw [hnone] at hl
      cases hl
  have hlevel : ∀ (e : Differential β) (type : UInt8) (locate : UInt16) (side : UInt8) (price : Price),
      Notes e (∀ k ∈ [((locate, side == kBuy, price) : LevelKey)],
        LevelAgrees (e.ref.levelOn k) (shown e.fast k)) (e.compareLevel type locate side price) := by
    intro e type locate side price
    refine (notes_level e type locate side price).congr ?_
    rw [levelAgrees_iff, List.forall_mem_singleton]
  have hmodify : ∀ (m : Message) (type : UInt8) (locate : UInt16) (ref : Ref),
      compared d.ref m = ((d.ref.order ref).map fun o => ((locate, o.side == kBuy, o.price) : LevelKey)).toList →
      comparedInside m = some locate → Periodic m → fastAfter d.fast m = ComparedBook.on d.fast m →
      ((d.modify m type locate ref).div.found = false ↔
          Passes d.ref (d.ref.on m) (fastAfter d.fast m) m d.fullEvery d.invariantEvery
            (d.stats.messages + 1)) ∧
        (d.modify m type locate ref).ref = d.ref.on m ∧
          (d.modify m type locate ref).fast = fastAfter d.fast m := by
    intro m type locate ref hcompared hinside hperiodic hafter
    unfold modify locateOf
    rw [hd, if_neg Bool.false_ne_true, hafter]
    refine notes_touched hd rfl hinside hperiodic ?_
    rw [hcompared]
    cases d.ref.order ref with
    | none => exact ⟨(and_iff_left fun k hk => by cases hk).symm, Same.refl _⟩
    | some o => exact hlevel _ type locate o.side o.price
  have hadd : ∀ (m : Message) (type : UInt8) (v : AddOrder),
      compared d.ref m = [(v.locate, v.side == kBuy, v.price)] →
      comparedInside m = some v.locate → Periodic m → fastAfter d.fast m = ComparedBook.on d.fast m →
      ((d.add m type v).div.found = false ↔
          Passes d.ref (d.ref.on m) (fastAfter d.fast m) m d.fullEvery d.invariantEvery
            (d.stats.messages + 1)) ∧
        (d.add m type v).ref = d.ref.on m ∧ (d.add m type v).fast = fastAfter d.fast m := by
    intro m type v hcompared hinside hperiodic hafter
    unfold add
    rw [hd, if_neg Bool.false_ne_true, hafter]
    refine notes_touched hd rfl hinside hperiodic ?_
    rw [hcompared]
    exact hlevel _ type v.locate v.side v.price
  have hinterval : ∀ m : Message, compared d.ref m = [] → comparedInside m = none → Periodic m →
      fastAfter d.fast m = ComparedBook.on d.fast m →
      ((d.apply m).periodic.div.found = false ↔
          Passes d.ref (d.ref.on m) (fastAfter d.fast m) m d.fullEvery d.invariantEvery
            (d.stats.messages + 1)) ∧
        (d.apply m).periodic.ref = d.ref.on m ∧ (d.apply m).periodic.fast = fastAfter d.fast m := by
    intro m hnil hnone hperiodic hafter
    have hall := notes_periodic (d.apply m)
    rw [hafter]
    refine ⟨hall.found.trans ⟨fun h => ⟨fun k hk => ?_, fun l hl => ?_, fun _ => h.2.1, fun _ => h.2.2⟩,
      fun h => ⟨hd, h.invariants hperiodic, h.everything hperiodic⟩⟩, hall.same.ref, hall.same.fast⟩
    · rw [hnil] at hk
      cases hk
    · rw [hnone] at hl
      cases hl
  cases m with
  | systemEvent v => exact ⟨iff_of_true hd (hquiet _ _ _ rfl rfl id), rfl, rfl⟩
  | stockDirectory v => exact ⟨iff_of_true hd (hquiet _ _ _ rfl rfl id), rfl, rfl⟩
  | stockTradingAction v => exact ⟨iff_of_true hd (hquiet _ _ _ rfl rfl id), rfl, rfl⟩
  | operationalHalt v => exact ⟨iff_of_true hd (hquiet _ _ _ rfl rfl id), rfl, rfl⟩
  | addOrder v => exact hadd _ 65 v rfl rfl trivial rfl
  | addOrderMpid v => exact hadd _ 70 v.toAddOrder rfl rfl trivial rfl
  | orderExecuted v => exact hmodify _ 69 v.locate v.orderRef rfl rfl trivial rfl
  | orderExecutedPrice v => exact hmodify _ 67 v.locate v.orderRef rfl rfl trivial rfl
  | orderCancel v => exact hmodify _ 88 v.locate v.orderRef rfl rfl trivial rfl
  | orderDelete v => exact hmodify _ 68 v.locate v.orderRef rfl rfl trivial rfl
  | orderReplace v =>
    unfold on onOrderReplace locateOf
    dsimp only
    rw [hd, if_neg Bool.false_ne_true]
    refine notes_touched hd rfl rfl trivial ?_
    unfold compared
    dsimp only
    cases d.ref.order v.oldOrderRef with
    | none => exact hlevel _ 85 v.locate 0 v.price
    | some o =>
      have hold := hlevel (d.apply (.orderReplace v)) 85 v.locate o.side o.price
      refine (hold.trans (hlevel _ 85 v.locate o.side v.price)).congr ?_
      rw [hold.same.ref, hold.same.fast]
      simp
  | trade v =>
    unfold on
    dsimp only
    rw [hd, if_neg Bool.false_ne_true]
    refine notes_touched hd rfl rfl trivial ?_
    exact ⟨(and_iff_left fun k hk => by cases hk).symm, Same.refl _⟩
  | crossTrade v =>
    unfold on
    dsimp only
    rw [hd, if_neg Bool.false_ne_true]
    exact hinterval _ rfl rfl trivial rfl
  | brokenTrade v =>
    unfold on
    dsimp only
    rw [hd, if_neg Bool.false_ne_true]
    exact hinterval _ rfl rfl trivial rfl

/-! ## When that is enough -/

/-- The message changes what the reference book shows of the level. -/
def Changed (b : ReferenceBook) (m : Message) (k : LevelKey) : Prop := (b.on m).levelOn k ≠ b.levelOn k

/-- Every level that the message changes is compared after it: it is among `compared`, or the comparison of
everything is due and visits it, unless a structural check is due that reports the reference book. -/
def Touches (b : ReferenceBook) (m : Message) (fullEvery invariantEvery n : ℕ) : Prop :=
  (∀ k, Changed b m k → k ∈ compared b m ∨
      Periodic m ∧ FullDue fullEvery n ∧ k.1 ≠ 0xFFFF ∧ ((b.on m).levelOn k).present = true) ∨
    Periodic m ∧ InvariantsDue invariantEvery n ∧ (b.on m).checkInvariants ≠ 0

/-- A message that records nothing is enough: whatever the book under test, if it agreed with the reference
book at every level, it agrees at the levels that the message changed. -/
def Enough (b : ReferenceBook) (m : Message) (fullEvery invariantEvery messages : ℕ) : Prop :=
  ∀ (β : Type) [ComparedBook β] (d : Differential β), d.ref = b → d.fullEvery = fullEvery →
    d.invariantEvery = invariantEvery → d.stats.messages = messages → d.div.found = false →
      (∀ k, LevelAgrees (b.levelOn k) (shown d.fast k)) → (d.on m).div.found = false →
        ∀ k, Changed b m k → LevelAgrees ((d.on m).ref.levelOn k) (shown (d.on m).fast k)

/-- A book that follows the reference book and, once it has failed, is wrong about one level. -/
structure FaultyBook where
  book : ReferenceBook
  fault : LevelKey
  failed : Bool

namespace FaultyBook

instance faultyComparedBook : ComparedBook FaultyBook where
  on f m := { f with book := f.book.on m, failed := true }
  level f locate side price :=
    let r := f.book.levelOn (locate, side == kBuy, price)
    if f.failed ∧ (locate, side == kBuy, price) = f.fault then { r with present := !r.present } else r
  hasBid f locate := (f.book.symbol locate).any RefSymbol.hasBid
  hasAsk f locate := (f.book.symbol locate).any RefSymbol.hasAsk
  bestBid f locate := ((f.book.symbol locate).bind RefSymbol.bestBid).getD 0
  bestAsk f locate := ((f.book.symbol locate).bind RefSymbol.bestAsk).getD 0
  liveOrders f := f.book.liveOrders
  checkInvariants _ := 0
  level_side f locate side price := by rw [sideCode_beq]

theorem shown_eq (f : FaultyBook) (k : LevelKey) :
    shown f k = if f.failed ∧ k = f.fault then
      { f.book.levelOn k with present := !(f.book.levelOn k).present } else f.book.levelOn k := by
  unfold shown
  show (if f.failed ∧ (k.1, sideCode k.2.1 == kBuy, k.2.2) = f.fault then _ else _) = _
  rw [sideCode_beq]

theorem agrees_iff (f : FaultyBook) (k : LevelKey) :
    LevelAgrees (f.book.levelOn k) (shown f k) ↔ ¬ (f.failed ∧ k = f.fault) := by
  rw [shown_eq]
  split_ifs with h
  · refine iff_of_false (fun hc => ?_) (not_not.mpr h)
    have hpresent := hc.1
    simp at hpresent
  · exact iff_of_true ⟨rfl, fun _ => ⟨rfl, rfl, rfl⟩⟩ h

theorem bboAgrees (f : FaultyBook) (locate : UInt16) : BboAgrees f.book f locate :=
  ⟨rfl, rfl, fun h => (bind_eq_some_iff_getD FastBook.isSome_bestBid h _).mpr rfl,
    fun h => (bind_eq_some_iff_getD FastBook.isSome_bestAsk h _).mpr rfl⟩

end FaultyBook

/-- Both books hear a message that changes a level. -/
theorem fastAfter_of_changed {k : LevelKey} {fast : β} (h : Changed b m k) :
    fastAfter fast m = ComparedBook.on fast m := by
  have hsame : (b.on m).symbols = b.symbols → False := fun hs => by
    refine h ?_
    unfold ReferenceBook.levelOn ReferenceBook.level ReferenceBook.symbol
    rw [hs]
  cases m with
  | stockDirectory v =>
    refine absurd ?_ h
    unfold ReferenceBook.levelOn
    rw [ReferenceBook.level_eq_elim, ReferenceBook.level_eq_elim]
    refine congrArg (Option.elim · _ _) ?_
    unfold ReferenceBook.levelAt
    have hsym : (b.on (.stockDirectory v)).symbolOf k.1 = b.symbolOf k.1 := by
      refine (ReferenceBook.symbolOf_insert b v.locate k.1 (b.symbolOf v.locate)).trans ?_
      split
      · rename_i hk
        rw [hk]
      · rfl
    rw [hsym]
  | stockTradingAction v => exact absurd rfl hsame
  | operationalHalt v =>
    refine absurd ?_ hsame
    unfold ReferenceBook.on ReferenceBook.onOperationalHalt
    dsimp only
    split_ifs <;> rfl
  | _ => rfl

/-- A message that records nothing is enough exactly when every level that it changes is compared. -/
theorem enough_iff_touches (b : ReferenceBook) (m : Message) (fullEvery invariantEvery messages : ℕ) :
    Enough b m fullEvery invariantEvery messages ↔
      Touches b m fullEvery invariantEvery (messages + 1) := by
  constructor
  · intro h
    by_contra hnot
    unfold Touches at hnot
    push Not at hnot
    obtain ⟨⟨k, hchanged, hcompared, hvisited⟩, hinv⟩ := hnot
    let d : Differential FaultyBook :=
      { ref := b, fast := ⟨b, k, false⟩, stats := { messages := messages }, fullEvery := fullEvery,
        invariantEvery := invariantEvery }
    have hbefore : ∀ k', LevelAgrees (b.levelOn k') (shown d.fast k') := fun k' =>
      (FaultyBook.agrees_iff ⟨b, k, false⟩ k').mpr fun hc => Bool.false_ne_true hc.1
    obtain ⟨hiff, href, hfast⟩ := on_found_iff (d := d) rfl m
    have hafter := h FaultyBook d rfl rfl rfl rfl rfl hbefore
    rw [href, hfast, hiff, fastAfter_of_changed hchanged] at hafter
    -- the book is wrong about the level that nobody looks at
    have hagrees := FaultyBook.agrees_iff ⟨b.on m, k, true⟩
    refine (hagrees k).mp (hafter ?_ k hchanged) ⟨rfl, rfl⟩
    refine ⟨fun k' hk' => (hagrees k').mpr fun hc => ?_, fun l _ => FaultyBook.bboAgrees ⟨b.on m, k, true⟩ l,
      fun hp hdue => ⟨hinv hp hdue, rfl⟩, fun hp hdue => ⟨fun k' hne hpresent => ?_, fun l _ _ => ?_, rfl⟩⟩
    · obtain rfl : k' = k := hc.2
      exact hcompared hk'
    · refine (hagrees k').mpr fun hc => ?_
      obtain rfl : k' = k := hc.2
      exact hvisited hp hdue hne hpresent
    · exact FaultyBook.bboAgrees ⟨b.on m, k, true⟩ l
  · rintro htouches β hβ d rfl rfl rfl rfl hd - hnone k hchanged
    obtain ⟨hiff, href, hfast⟩ := on_found_iff hd m
    have hpass := hiff.mp hnone
    rw [href, hfast]
    rcases htouches with hall | ⟨hperiodic, hdue, hbad⟩
    · rcases hall k hchanged with hmem | ⟨hperiodic, hdue, hne, hpresent⟩
      · exact hpass.levels k hmem
      · exact (hpass.everything hperiodic hdue).levels k hne hpresent
    · exact absurd (hpass.invariants hperiodic hdue).1 hbad

/-- A bid of one symbol, and its delete under another symbol. -/
def bidOne : List Message :=
  [.addOrder
    { locate := 1, ts := 0, orderRef := 1, side := kBuy, shares := 5, stock := [], price := 10000 }]

def deleteElsewhere : Message := .orderDelete { locate := 2, ts := 1, orderRef := 1 }

/-- The level of the bid changes, the book under test is wrong about it, and nothing is recorded. -/
theorem not_enough :
    let b := ReferenceBook.run {} bidOne
    let d : Differential FaultyBook :=
      { ref := b, fast := ⟨b, (1, true, 10000), false⟩, stats := { messages := 1 } }
    (∀ k, LevelAgrees (b.levelOn k) (shown d.fast k)) ∧ (d.on deleteElsewhere).div.found = false ∧
      Changed b deleteElsewhere (1, true, 10000) ∧
        ¬ LevelAgrees ((d.on deleteElsewhere).ref.levelOn (1, true, 10000))
          (shown (d.on deleteElsewhere).fast (1, true, 10000)) := by
  intro b d
  refine ⟨fun k => (FaultyBook.agrees_iff d.fast k).mpr fun hc => Bool.false_ne_true hc.1, by decide +kernel,
    ?_, fun h => ?_⟩
  · show _ ≠ _
    decide +kernel
  · exact absurd h.1 (by decide +kernel)

end Differential

end Carteret
