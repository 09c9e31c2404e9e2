import Carteret.Differential
import Carteret.SharedCounters

/-!
# Comparing everything

The comparison at the end of a session visits the levels of the reference book and relies on the number of
live orders for the levels that it does not visit.

1. What `compareEverything` looks at.
2. The orders of a book are those of its levels, and its inside is that of its levels.
3. When looking there is enough: a counting argument, and the one symbol that the loop leaves out.
-/

namespace Carteret

/-- The references that a level shows. -/
def LevelSnapshot.held (s : LevelSnapshot) : List Ref := if s.present then s.fifo else []

def ReferenceBook.levelOn (b : ReferenceBook) (k : LevelKey) : LevelSnapshot :=
  b.level k.1 (sideCode k.2.1) k.2.2

namespace Differential

open ComparedBook (level hasBid hasAsk bestBid bestAsk)

variable {β : Type} [ComparedBook β] {b : ReferenceBook} {A : Book} {fast : β} {d : Differential β}

/-- What the book under test shows of a level. -/
def shown (fast : β) (k : LevelKey) : LevelSnapshot := level fast k.1 (sideCode k.2.1) k.2.2

/-! ## What is looked at -/

/-- The two books say the same wherever the comparison looks: at the levels of the reference book, at the
symbols that it knows, each below the last locate, and at the number of live orders. -/
structure Looked (b : ReferenceBook) (fast : β) : Prop where
  levels : ∀ k : LevelKey, k.1 ≠ 0xFFFF → (b.levelOn k).present = true →
    LevelAgrees (b.levelOn k) (shown fast k)
  bbo : ∀ locate, locate ≠ 0xFFFF → (b.symbol locate).isSome = true → BboAgrees b fast locate
  live : b.liveOrders = ComparedBook.liveOrders fast

/-- The two books say the same everywhere. -/
structure Agrees (b : ReferenceBook) (fast : β) : Prop where
  levels : ∀ k : LevelKey, LevelAgrees (b.levelOn k) (shown fast k)
  bbo : ∀ locate, BboAgrees b fast locate
  live : b.liveOrders = ComparedBook.liveOrders fast

/-- The keys of a side are the prices at which the book shows a level. -/
theorem mem_keys {s : RefSymbol} {locate : UInt16} (hs : b.symbol locate = some s) (buy : Bool)
    (price : Price) :
    price ∈ (s.side (sideCode buy)).keys ↔ (b.levelOn (locate, buy, price)).present = true := by
  unfold ReferenceBook.levelOn ReferenceBook.level
  rw [hs, Std.TreeMap.mem_keys, Std.TreeMap.mem_iff_isSome_getElem?]
  dsimp only
  cases (s.side (sideCode buy))[price]? with
  | none => exact iff_of_false Bool.false_ne_true Bool.false_ne_true
  | some lvl => exact iff_of_true rfl rfl

/-- One symbol. -/
theorem decides_symbol (hd : d.div.found = false) (locate : UInt16) :
    Decides d (∀ s, d.ref.symbol locate = some s →
      (∀ price ∈ s.bids.keys, LevelAgrees (d.ref.level locate kBuy price) (level d.fast locate kBuy price)) ∧
        (∀ price ∈ s.asks.keys,
          LevelAgrees (d.ref.level locate kSell price) (level d.fast locate kSell price)) ∧
        BboAgrees d.ref d.fast locate) (compareSymbol locate d) := by
  have hside : ∀ (side : UInt8) (prices : List Price) (d' : Differential β), Same d d' →
      d'.div.found = false → Decides d' (∀ price ∈ prices,
        LevelAgrees (d.ref.level locate side price) (level d.fast locate side price))
          (compareSide locate side prices d') := by
    intro side prices d' hsame hd'
    refine decides_each prices d' hd' fun price _ d'' hsame' hd'' => ?_
    have hlevel := decides_level hd'' 0 locate side price
    rwa [(hsame.trans hsame').ref, (hsame.trans hsame').fast] at hlevel
  unfold compareSymbol
  cases hs : d.ref.symbol locate with
  | none => exact .pass (fun s hc => by cases hc) hd (Same.refl d)
  | some s =>
    have hbbo : ∀ d', Same d d' → d'.div.found = false →
        Decides d' (BboAgrees d.ref d.fast locate) (d'.compareBboNow 0 locate) := by
      intro d' hsame hd'
      have hbbo := decides_bbo hd' 0 locate
      rwa [hsame.ref, hsame.fast] at hbbo
    have hboth := (hside kBuy s.bids.keys d (Same.refl d) hd).both fun d' hsame hd' =>
      (hside kSell s.asks.keys d' hsame hd').both fun d'' hsame' => hbbo d'' (hsame.trans hsame')
    refine Decides.congr hboth ⟨fun h s' hs' => ?_, fun h => h s rfl⟩
    obtain rfl := Option.some.inj hs'
    exact h

theorem looked_iff : Looked b fast ↔
    (∀ locate ∈ (List.range 0xFFFF).map UInt16.ofNat, ∀ s, b.symbol locate = some s →
      (∀ price ∈ s.bids.keys, LevelAgrees (b.level locate kBuy price) (level fast locate kBuy price)) ∧
        (∀ price ∈ s.asks.keys, LevelAgrees (b.level locate kSell price) (level fast locate kSell price)) ∧
        BboAgrees b fast locate) ∧ b.liveOrders = ComparedBook.liveOrders fast := by
  have hlocate : ∀ locate : UInt16, locate ∈ (List.range 0xFFFF).map UInt16.ofNat ↔ locate ≠ 0xFFFF := by
    intro locate
    rw [List.mem_map]
    constructor
    · rintro ⟨n, hn, rfl⟩ hc
      have hlt := List.mem_range.mp hn
      have htoNat := congrArg UInt16.toNat hc
      rw [UInt16.toNat_ofNat', Nat.mod_eq_of_lt (by omega)] at htoNat
      exact absurd htoNat (Nat.ne_of_lt hlt)
    · intro hne
      refine ⟨locate.toNat, List.mem_range.mpr ?_, UInt16.ofNat_toNat⟩
      have hlt := locate.toNat_lt
      have hne' : locate.toNat ≠ 0xFFFF := fun hc => hne (UInt16.toNat_inj.mp hc)
      omega
  simp only [hlocate]
  constructor
  · intro h
    refine ⟨fun locate hne s hs => ⟨fun price hp => ?_, fun price hp => ?_, ?_⟩, h.live⟩
    · exact h.levels (locate, true, price) hne ((mem_keys hs true price).mp hp)
    · exact h.levels (locate, false, price) hne ((mem_keys hs false price).mp hp)
    · exact h.bbo locate hne (by rw [hs]; rfl)
  · rintro ⟨hall, hlive⟩
    refine ⟨fun k hne hp => ?_, fun locate hne hs => ?_, hlive⟩
    · obtain ⟨locate, buy, price⟩ := k
      cases hs : b.symbol locate with
      | none =>
        unfold ReferenceBook.levelOn ReferenceBook.level at hp
        rw [hs] at hp
        cases hp
      | some s =>
        have hmem := (mem_keys hs buy price).mpr hp
        cases buy
        · exact (hall locate hne s hs).2.1 price hmem
        · exact (hall locate hne s hs).1 price hmem
    · obtain ⟨s, hs⟩ := Option.isSome_iff_exists.mp hs
      exact (hall locate hne s hs).2.2

/-- **The comparison succeeds exactly when the books say the same wherever it looks.** -/
theorem decides_everything (hd : d.div.found = false) :
    Decides d (Looked d.ref d.fast) d.compareEverything := by
  unfold compareEverything
  rw [hd, if_neg Bool.false_ne_true]
  have hsame : Same d (d.tally fun s => { s with fullComparisons := s.fullComparisons + 1 }) :=
    ⟨rfl, rfl, rfl, rfl, rfl⟩
  have hsymbols : ∀ locate ∈ (List.range 0xFFFF).map UInt16.ofNat, ∀ d', Same (d.tally _) d' →
      d'.div.found = false → Decides d' _ (compareSymbol locate d') := fun locate _ d' hsame' hd' => by
    have hsymbol := decides_symbol hd' locate
    rwa [(hsame.trans hsame').ref, (hsame.trans hsame').fast] at hsymbol
  have hloop := decides_each ((List.range 0xFFFF).map UInt16.ofNat) _
    (show (d.tally _).div.found = false from hd) hsymbols
  have hlive : ∀ d', Same d d' → d'.div.found = false →
      Decides d' (d.ref.liveOrders = ComparedBook.liveOrders d.fast)
        (if d'.ref.liveOrders ≠ ComparedBook.liveOrders d'.fast then
          (false, d'.record 0 0 0 0 "live order count" (toString d'.ref.liveOrders)
            (toString (ComparedBook.liveOrders d'.fast)))
        else (true, d')) := by
    intro d' hsame' hd'
    rw [hsame'.ref, hsame'.fast]
    split_ifs with hne
    · exact .fail hne (Same.refl d')
    · exact .pass (not_not.mp hne) hd' (Same.refl d')
  have hboth := (Decides.of_same hsame hloop).both hlive
  exact hboth.congr looked_iff.symm

/-! ## The levels of a book -/

/-- The live orders of the book under test are those of its levels, and its inside is that of its levels. -/
structure Coherent (fast : β) : Prop where
  live : ComparedBook.liveOrders fast = ∑ k : LevelKey, (shown fast k).held.length
  hasBid : ∀ locate, hasBid fast locate = true ↔ ∃ price, (shown fast (locate, true, price)).present = true
  hasAsk : ∀ locate, hasAsk fast locate = true ↔ ∃ price, (shown fast (locate, false, price)).present = true
  bestBid : ∀ locate, ComparedBook.hasBid fast locate = true →
    (shown fast (locate, true, bestBid fast locate)).present = true ∧
      ∀ price, (shown fast (locate, true, price)).present = true → price ≤ bestBid fast locate
  bestAsk : ∀ locate, ComparedBook.hasAsk fast locate = true →
    (shown fast (locate, false, bestAsk fast locate)).present = true ∧
      ∀ price, (shown fast (locate, false, price)).present = true → bestAsk fast locate ≤ price

end Differential

/-! The same of the abstract book. -/

namespace Book

variable {A : Book}

def atKey (A : Book) (k : LevelKey) : List Entry := A.level k.1 k.2.1 k.2.2

theorem held_snapshotOf (es : List Entry) : (snapshotOf es).held = es.map Entry.ref := by
  cases es with
  | nil => rfl
  | cons e es => rfl

/-- Every order rests at one level. -/
theorem sum_levels (A : Book) : ∑ k : LevelKey, (A.atKey k).length = A.orders.length := by
  have hrests : ∀ (e : Entry) (k : LevelKey),
      e.restsAt k.1 k.2.1 k.2.2 = true ↔ (e.locate, e.buy, e.price) = k := by
    rintro e ⟨locate, buy, price⟩
    rw [Entry.restsAt_iff, Prod.mk.injEq, Prod.mk.injEq]
  unfold atKey level
  induction A.orders with
  | nil => simp
  | cons e es ih =>
    have hcons : ∀ k : LevelKey, ((e :: es).filter (Entry.restsAt k.1 k.2.1 k.2.2)).length =
        (es.filter (Entry.restsAt k.1 k.2.1 k.2.2)).length +
          if (e.locate, e.buy, e.price) = k then 1 else 0 := by
      intro k
      rw [List.filter_cons]
      by_cases hk : (e.locate, e.buy, e.price) = k
      · rw [if_pos ((hrests e k).mpr hk), if_pos hk, List.length_cons]
      · rw [if_neg fun hc => hk ((hrests e k).mp hc), if_neg hk, add_zero]
    rw [Finset.sum_congr rfl fun k _ => hcons k, Finset.sum_add_distrib, ih, Finset.sum_ite_eq,
      if_pos (Finset.mem_univ _), List.length_cons]

theorem present_snapshotOf (es : List Entry) : (snapshotOf es).present = true ↔ es ≠ [] := by
  show (!es.isEmpty) = true ↔ _
  simp

/-- The best price, by the levels. -/
theorem isBest_iff {locate : UInt16} {buy : Bool} {price : Price} : A.IsBest locate buy price ↔
    A.level locate buy price ≠ [] ∧
      ∀ q, A.level locate buy q ≠ [] → if buy then q ≤ price else price ≤ q := by
  unfold IsBest
  rw [level_ne_nil_iff]
  refine and_congr_right fun _ => ⟨fun h q hq => ?_, fun h e he hl hb => ?_⟩
  · obtain ⟨e, he, hl, hb, rfl⟩ := level_ne_nil_iff.mp hq
    exact h e he hl hb
  · exact h e.price (level_ne_nil_iff.mpr ⟨e, he, hl, hb, rfl⟩)

/-- A side with orders has a best price. -/
theorem exists_isBest {locate : UInt16} {buy : Bool} {price : Price} (h : A.level locate buy price ≠ []) :
    ∃ best, A.IsBest locate buy best := by
  obtain ⟨e₀, he₀, hl₀, hb₀, -⟩ := level_ne_nil_iff.mp h
  have hne : (A.orders.toFinset.filter fun e => e.locate = locate ∧ e.buy = buy).Nonempty :=
    ⟨e₀, by simp [he₀, hl₀, hb₀]⟩
  cases buy with
  | true =>
    obtain ⟨e, he, hmax⟩ := Finset.exists_max_image _ (fun e => e.price.toNat) hne
    simp only [Finset.mem_filter, List.mem_toFinset] at he hmax
    exact ⟨e.price, ⟨e, he.1, he.2.1, he.2.2, rfl⟩, fun e' he' hl hb => hmax e' ⟨he', hl, hb⟩⟩
  | false =>
    obtain ⟨e, he, hmin⟩ := Finset.exists_min_image _ (fun e => e.price.toNat) hne
    simp only [Finset.mem_filter, List.mem_toFinset] at he hmin
    exact ⟨e.price, ⟨e, he.1, he.2.1, he.2.2, rfl⟩, fun e' he' hl hb => hmin e' ⟨he', hl, hb⟩⟩

end Book

namespace Differential

open ComparedBook (level hasBid hasAsk bestBid bestAsk)

variable {β : Type} [ComparedBook β] {b : ReferenceBook} {A : Book} {fast : β} {d : Differential β}

theorem levelOn_eq (h : b.Represents A) (k : LevelKey) : b.levelOn k = Book.snapshotOf (A.atKey k) := by
  unfold ReferenceBook.levelOn Book.atKey
  rw [h.level_query, sideCode_beq]

/-- One side of the inside: the book under test has the best price `o` of the side. -/
theorem side_agrees {locate : UInt16} {buy : Bool} {o : Option Price} {has : Bool} {best : Price}
    (ho : ∀ price, o = some price ↔ A.IsBest locate buy price)
    (hhas : has = true ↔ ∃ price, A.level locate buy price ≠ [])
    (hbest : has = true → A.level locate buy best ≠ [] ∧
      ∀ price, A.level locate buy price ≠ [] → if buy then price ≤ best else best ≤ price) :
    has = o.isSome ∧ (has = true → o = some best) := by
  have hsome : has = true → o = some best := fun h => (ho best).mpr (Book.isBest_iff.mpr (hbest h))
  refine ⟨Bool.eq_iff_iff.mpr ⟨fun h => ?_, fun h => ?_⟩, hsome⟩
  · rw [hsome h]
    rfl
  · obtain ⟨price, hprice⟩ := Option.isSome_iff_exists.mp h
    exact hhas.mpr ⟨price, (Book.isBest_iff.mp ((ho price).mp hprice)).1⟩

/-- A book whose inside is that of its levels, and which shows the levels of the reference book, shows its
inside. -/
theorem bboAgrees (h : b.Represents A) (hc : Coherent fast)
    (hlevels : ∀ k, LevelAgrees (b.levelOn k) (shown fast k)) (locate : UInt16) : BboAgrees b fast locate := by
  have hpresent : ∀ k, (shown fast k).present = true ↔ A.atKey k ≠ [] := fun k => by
    rw [← (hlevels k).1, levelOn_eq h, Book.present_snapshotOf]
  have hbid := side_agrees (fun price => (h.best_query locate price).1)
    ((hc.hasBid locate).trans (exists_congr fun price => hpresent (locate, true, price))) fun hhas =>
      ⟨(hpresent _).mp (hc.bestBid locate hhas).1, fun price hp =>
        (hc.bestBid locate hhas).2 price ((hpresent (locate, true, price)).mpr hp)⟩
  have hask := side_agrees (fun price => (h.best_query locate price).2)
    ((hc.hasAsk locate).trans (exists_congr fun price => hpresent (locate, false, price))) fun hhas =>
      ⟨(hpresent _).mp (hc.bestAsk locate hhas).1, fun price hp =>
        (hc.bestAsk locate hhas).2 price ((hpresent (locate, false, price)).mpr hp)⟩
  refine ⟨hbid.1.trans ?_, hask.1.trans ?_, hbid.2, hask.2⟩
  · cases b.symbol locate with
    | none => rfl
    | some s => exact (FastBook.isSome_bestBid s).symm
  · cases b.symbol locate with
    | none => rfl
    | some s => exact (FastBook.isSome_bestAsk s).symm

/-- Terms that are nowhere larger and have the same sum are equal. -/
theorem eq_of_sum_eq {κ : Type} [Fintype κ] {f g : κ → ℕ} (hle : ∀ k, f k ≤ g k)
    (hsum : ∑ k, f k = ∑ k, g k) (k : κ) : f k = g k :=
  (Finset.sum_eq_sum_iff_of_le fun k _ => hle k).mp hsum k (Finset.mem_univ k)

/-- **Counting.** Where every level of the reference book is shown, and as many orders are live, no other
level shows an order. -/
theorem held_eq_nil (h : b.Represents A) (hc : Coherent fast)
    (hlive : b.liveOrders = ComparedBook.liveOrders fast)
    (hlevels : ∀ k, (b.levelOn k).present = true → LevelAgrees (b.levelOn k) (shown fast k)) {k : LevelKey}
    (hk : (b.levelOn k).present = false) : (shown fast k).held = [] := by
  have hheld : ∀ k, (b.levelOn k).held.length ≤ (shown fast k).held.length := by
    intro k
    cases hp : (b.levelOn k).present with
    | false =>
      unfold LevelSnapshot.held
      rw [hp]
      exact Nat.zero_le _
    | true =>
      obtain ⟨hpres, hsame⟩ := hlevels k hp
      unfold LevelSnapshot.held
      rw [← hpres, (hsame hp).2.2]
  have hsum : ∑ k, (b.levelOn k).held.length = ∑ k, (shown fast k).held.length := by
    rw [← hc.live, ← hlive]
    refine Eq.trans ?_ ((Book.sum_levels A).trans h.size_eq.symm)
    refine Finset.sum_congr rfl fun k _ => ?_
    rw [levelOn_eq h, Book.held_snapshotOf, List.length_map]
  have heq := eq_of_sum_eq hheld hsum k
  refine List.length_eq_zero_iff.mp (heq.symm.trans ?_)
  unfold LevelSnapshot.held
  rw [hk]
  rfl

/-! ## When looking there is enough -/

/-- The books say the same of the last locate, and the book under test shows no level without orders. -/
structure Covered (b : ReferenceBook) (fast : β) : Prop where
  last : ∀ k : LevelKey, k.1 = 0xFFFF → LevelAgrees (b.levelOn k) (shown fast k)
  filled : ∀ k : LevelKey, (shown fast k).present = true → (shown fast k).fifo ≠ []

theorem Agrees.looked (h : Agrees b fast) : Looked b fast :=
  ⟨fun k _ _ => h.levels k, fun locate _ _ => h.bbo locate, h.live⟩

theorem Agrees.covered (hb : b.Represents A) (h : Agrees b fast) : Covered b fast := by
  refine ⟨fun k _ => h.levels k, fun k hk => ?_⟩
  obtain ⟨hp, hsame⟩ := h.levels k
  rw [← (hsame (hp.trans hk)).2.2, levelOn_eq hb]
  have hne := (Book.present_snapshotOf (A.atKey k)).mp (by rw [← levelOn_eq hb, hp, hk])
  simpa [Book.snapshotOf] using hne

/-- Looking below the last locate is enough where the last locate is covered. -/
theorem Looked.agrees (hb : b.Represents A) (hc : Coherent fast) (h : Looked b fast)
    (hcovered : Covered b fast) : Agrees b fast := by
  have hshown : ∀ k, (b.levelOn k).present = true → LevelAgrees (b.levelOn k) (shown fast k) := by
    intro k hk
    by_cases hlast : k.1 = 0xFFFF
    · exact hcovered.last k hlast
    · exact h.levels k hlast hk
  have hlevels : ∀ k, LevelAgrees (b.levelOn k) (shown fast k) := by
    intro k
    cases hk : (b.levelOn k).present with
    | true => exact hshown k hk
    | false =>
      have hnil := held_eq_nil hb hc h.live hshown hk
      cases hf : (shown fast k).present with
      | false => exact ⟨hk.trans hf.symm, fun hp => absurd (hk.symm.trans hp) Bool.false_ne_true⟩
      | true =>
        unfold LevelSnapshot.held at hnil
        rw [hf] at hnil
        exact absurd hnil (hcovered.filled k hf)
  exact ⟨hlevels, bboAgrees hb hc hlevels, h.live⟩

/-- **The comparison of everything.** It succeeds exactly when the books agree everywhere, unless the books
differ at the last locate, or the book under test shows a level without orders, and they agree wherever the
comparison looks. -/
theorem compareEverything_iff (code : UInt8) (ms : List Message) (hfound : d.div.found = false)
    (hreach : d.ref = ReferenceBook.run { venueMarketCode := code } ms) (hc : Coherent d.fast) :
    ((d.compareEverything.1 = true ↔ Agrees d.ref d.fast) ↔
      (Looked d.ref d.fast → Covered d.ref d.fast)) := by
  have hb : d.ref.Represents (Runs.run Book.step Book.empty ms) := hreach ▸ ReferenceBook.represents_venue code ms
  rw [(decides_everything hfound).result]
  constructor
  · exact fun h hlooked => (h.mp hlooked).covered hb
  · exact fun h => ⟨fun hlooked => hlooked.agrees hb hc (h hlooked), Agrees.looked⟩

/-! ## The fast book -/

section Fast

variable {P : HashPolicy} {W : Window} {f : FastBook P W} {x : Bool}

theorem shown_eq (h : f.Rep true A) (k : LevelKey) : shown f k = Book.snapshotOf (A.atKey k) := by
  show (f.level k.1 (sideCode k.2.1) k.2.2).getD {} = _
  rw [h.level_query, sideCode_beq]
  rfl

/-- A fast book that is within its capacity shows what its levels hold. -/
theorem coherent_of_rep (h : f.Rep true A) : Coherent f := by
  have hpresent : ∀ k, (shown f k).present = true ↔ A.atKey k ≠ [] := fun k => by
    rw [shown_eq h, Book.present_snapshotOf]
  have hsome : ∀ locate buy, (f.best locate (sideCode buy)).isSome = true →
      A.IsBest locate buy ((f.best locate (sideCode buy)).getD 0) := by
    intro locate buy hs
    obtain ⟨price, hprice⟩ := Option.isSome_iff_exists.mp hs
    have hbest := (h.best_query locate (sideCode buy) price).mp hprice
    rw [hprice, Option.getD_some]
    rwa [sideCode_beq] at hbest
  have hhas : ∀ locate buy, (f.best locate (sideCode buy)).isSome = true ↔
      ∃ price, (shown f (locate, buy, price)).present = true := by
    intro locate buy
    refine ⟨fun hs => ⟨_, (hpresent (locate, buy, _)).mpr (Book.isBest_iff.mp (hsome locate buy hs)).1⟩, ?_⟩
    rintro ⟨price, hp⟩
    obtain ⟨best, hbest⟩ := Book.exists_isBest ((hpresent (locate, buy, price)).mp hp)
    rw [(h.best_query locate (sideCode buy) best).mpr ((sideCode_beq buy).symm ▸ hbest)]
    rfl
  refine ⟨?_, fun locate => hhas locate true, fun locate => hhas locate false, fun locate hs => ?_,
    fun locate hs => ?_⟩
  · show f.liveOrders = _
    rw [h.live_query, ← Book.sum_levels A]
    refine Finset.sum_congr rfl fun k _ => ?_
    rw [shown_eq h, Book.held_snapshotOf, List.length_map]
  · obtain ⟨hne, hall⟩ := Book.isBest_iff.mp (hsome locate true hs)
    exact ⟨(hpresent (locate, true, _)).mpr hne, fun price hp => hall price ((hpresent (locate, true, price)).mp hp)⟩
  · obtain ⟨hne, hall⟩ := Book.isBest_iff.mp (hsome locate false hs)
    exact ⟨(hpresent (locate, false, _)).mpr hne, fun price hp => hall price ((hpresent (locate, false, price)).mp hp)⟩

/-- A fast book that is within its capacity agrees with the reference book everywhere. -/
theorem agrees_of_rep (h : f.Rep true A) (hb : b.Represents A) : Agrees b f := by
  have hlevels : ∀ k, LevelAgrees (b.levelOn k) (shown f k) := fun k => by
    rw [levelOn_eq hb, shown_eq h]
    exact ⟨rfl, fun _ => ⟨rfl, rfl, rfl⟩⟩
  exact ⟨hlevels, bboAgrees hb (coherent_of_rep h) hlevels, hb.size_eq.trans h.live_query.symm⟩

end Fast

theorem compareEverything_iff_three :
    ∃ f, FastBook.run multiplyShiftHash defaultWindow ⟨8, 4, 8⟩ FastBook.threeMessages = some f ∧
      let d : Differential (FastBook multiplyShiftHash defaultWindow) :=
        { ref := ReferenceBook.run {} FastBook.threeMessages, fast := f }
      ((d.compareEverything.1 = true ↔ Agrees d.ref d.fast) ↔ (Looked d.ref d.fast → Covered d.ref d.fast)) := by
  have hnew : (FastBook.new multiplyShiftHash defaultWindow ⟨8, 4, 8⟩).isSome = true :=
    (FastBook.new_isSome _).mpr (by decide)
  obtain ⟨f, hf, -, hrep⟩ := FastBook.rep_of_fits hnew
    (FastBook.fits_of_inits (show ∀ pre ∈ FastBook.threeMessages.inits, _ by decide +kernel))
  exact ⟨f, hf, compareEverything_iff 81 FastBook.threeMessages rfl rfl (coherent_of_rep hrep)⟩

/-- A bid of the last locate. -/
def lastBid (ref : Ref) : List Message :=
  [.addOrder
    { locate := 0xFFFF, ts := 0, orderRef := ref, side := kBuy, shares := 5, stock := [], price := 10000 }]

/-- The books hold different orders at the last locate, and the comparison succeeds. -/
theorem not_compareEverything :
    ∃ f, FastBook.run multiplyShiftHash defaultWindow ⟨8, 0x10000, 8⟩ (lastBid 2) = some f ∧ Coherent f ∧
      let d : Differential (FastBook multiplyShiftHash defaultWindow) :=
        { ref := ReferenceBook.run {} (lastBid 1), fast := f }
      d.compareEverything.1 = true ∧ ¬ Agrees d.ref d.fast := by
  have hnew : (FastBook.new multiplyShiftHash defaultWindow ⟨8, 0x10000, 8⟩).isSome = true :=
    (FastBook.new_isSome _).mpr (by decide)
  obtain ⟨f, hf, -, hrep⟩ := FastBook.rep_of_fits hnew
    (FastBook.fits_of_inits (show ∀ pre ∈ (lastBid 2).inits, _ by decide +kernel))
  have hb := ReferenceBook.represents_venue 81 (lastBid 1)
  refine ⟨f, hf, coherent_of_rep hrep, (decides_everything rfl).result.mpr ⟨?_, ?_, ?_⟩, fun h => ?_⟩
  · intro k hk hp
    rw [levelOn_eq hb, Book.present_snapshotOf] at hp
    obtain ⟨e, he, hl, -⟩ := Book.level_ne_nil_iff.mp hp
    obtain rfl := List.mem_singleton.mp (show e ∈ [Book.added _ []] from he)
    exact absurd hl.symm hk
  · intro locate hne hs
    obtain ⟨s, hsymbols⟩ : ∃ s, (ReferenceBook.run { venueMarketCode := 81 } (lastBid 1)).symbols =
        (∅ : Std.TreeMap UInt16 RefSymbol).insert 0xFFFF s := by
      have hrun : ReferenceBook.run { venueMarketCode := 81 } (lastBid 1) =
          (ReferenceBook.tick { venueMarketCode := 81 }).addRetained 0xFFFF 1 kBuy 10000 5 (fillAlpha 8 [])
            (fillAlpha 4 []) 0 := rfl
      rw [hrun]
      unfold ReferenceBook.addRetained
      exact ⟨_, (ReferenceBook.checkBbo_frame _ _ _).symbols⟩
    change ((ReferenceBook.run { venueMarketCode := 81 } (lastBid 1)).symbols[locate]?).isSome = true at hs
    rw [hsymbols, OrderedMap.getElem?_insert_eq, if_neg hne] at hs
    cases hs
  · exact hb.size_eq.trans hrep.live_query.symm
  · have hlevel := h.levels (0xFFFF, true, 10000)
    unfold LevelAgrees at hlevel
    rw [show (ReferenceBook.run {} (lastBid 1)).levelOn _ = _ from levelOn_eq hb _, shown_eq hrep] at hlevel
    exact absurd (hlevel.2 rfl).2.2 (by decide)

end Differential

end Carteret
