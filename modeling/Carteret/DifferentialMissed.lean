import Carteret.BookEffects
import Carteret.DifferentialTouched
import Carteret.ZeroShares

/-!
# What the comparison after a message misses

The harness compares at the symbol of the message. An order keeps the symbol that it was added under, and an add or a
replacement under the reference of a live order displaces that order from wherever it rests.

1. The levels that each operation changes (`shows_drop`, `shows_reduce`, `shows_place`).
2. `missed`: the levels that a message changes and after which nobody looks, from the message and the orders before it.
3. When a message that records nothing is enough (`on_enough_iff`).
-/

namespace Carteret

namespace Entry

/-- Where the order rests. -/
def key (e : Entry) : LevelKey := (e.locate, e.buy, e.price)

theorem restsAt_key {e : Entry} {k : LevelKey} : e.restsAt k.1 k.2.1 k.2.2 = true ↔ e.key = k := by
  rw [restsAt_iff, key, Prod.ext_iff, Prod.ext_iff]

end Entry

namespace Book

variable {A : Book} {e f : Entry} {ref : Ref} {qty : Shares} {k : LevelKey}

/-! ## The levels that an operation changes -/

/-- What a book shows of the level. -/
def shows (A : Book) (k : LevelKey) : LevelSnapshot := snapshotOf (A.atKey k)

theorem mem_atKey : e ∈ A.atKey k ↔ e ∈ A.orders ∧ e.key = k :=
  mem_level.trans (and_congr_right fun _ => Entry.restsAt_key)

theorem fifo_shows (A : Book) (k : LevelKey) : (A.shows k).fifo = (A.atKey k).map Entry.ref := rfl

theorem mem_fifo_shows {r : Ref} : r ∈ (A.shows k).fifo ↔ ∃ e ∈ A.orders, e.key = k ∧ e.ref = r := by
  rw [fifo_shows, List.mem_map]
  refine exists_congr fun e => ?_
  rw [mem_atKey, and_assoc]

theorem shares_shows (A : Book) (k : LevelKey) : (A.shows k).shares = sumShares (A.atKey k) := ofNat_total _

/-- An order that goes changes its level. -/
theorem shows_drop (h : A.find ref = some e) : (A.drop ref).shows k ≠ A.shows k ↔ e.key = k := by
  constructor
  · intro hne
    by_contra hkey
    refine hne (congrArg snapshotOf ?_)
    exact level_drop_of_not_restsAt h (mt Entry.restsAt_key.mp hkey)
  · intro hkey hsame
    obtain ⟨hmem, href⟩ := find_eq_some.mp h
    have hfifo : ref ∈ (A.shows k).fifo := mem_fifo_shows.mpr ⟨e, hmem, hkey, href⟩
    rw [← hsame] at hfifo
    obtain ⟨f, hf, -, hfref⟩ := mem_fifo_shows.mp hfifo
    exact (mem_drop.mp hf).2 hfref

theorem shows_setShares (h : A.find ref = some e) {n : Shares} :
    (A.setShares ref n).shows k ≠ A.shows k ↔ e.key = k ∧ n ≠ e.shares := by
  constructor
  · intro hne
    refine ⟨?_, ?_⟩
    · by_contra hkey
      refine hne (congrArg snapshotOf ?_)
      exact level_setShares_of_not_restsAt h (mt Entry.restsAt_key.mp hkey) n
    · rintro rfl
      refine hne (congrArg snapshotOf ?_)
      unfold atKey
      rw [level_setShares]
      refine (List.map_congr_left fun f hf => ?_).trans (List.map_id _)
      split
      · rename_i href
        obtain ⟨hmem, heref⟩ := find_eq_some.mp h
        rw [eq_of_ref_eq (mem_level.mp hf).1 hmem (href.trans heref.symm)]
        rfl
      · rfl
  · rintro ⟨hkey, hn⟩ hsame
    have hsum := congrArg LevelSnapshot.shares hsame
    rw [shares_shows, shares_shows, atKey, atKey, sumShares_level_setShares h, if_pos (Entry.restsAt_key.mpr hkey)] at hsum
    have hshares : n.toUInt64 = e.shares.toUInt64 := by grind
    exact hn (UInt32.toUInt64_inj.mp hshares)

/-- Taking shares from an order changes its level, unless none are taken from an order that has some. -/
theorem shows_reduce (h : A.find ref = some e) :
    (A.reduce ref qty).shows k ≠ A.shows k ↔ e.key = k ∧ (qty ≠ 0 ∨ e.shares = 0) := by
  have htaken : taken qty e.shares = 0 ↔ qty = 0 ∨ e.shares = 0 := by
    unfold taken
    split_ifs with hgt
    · refine ⟨.inr, fun h => h.resolve_left ?_⟩
      rintro rfl
      exact absurd hgt (by simp)
    · refine ⟨.inl, fun h => h.elim id fun hz => ?_⟩
      rw [hz] at hgt
      simpa using hgt
  rw [reduce_eq h]
  split_ifs with hz
  · rw [shows_drop h]
    refine (and_iff_left_of_imp fun _ => ?_).symm
    by_contra hnot
    push Not at hnot
    have hnone : taken qty e.shares = 0 := htaken.mpr (.inl hnot.1)
    rw [hnone, sub_zero] at hz
    exact hnot.2 hz
  · rw [shows_setShares h]
    refine and_congr_right fun _ => ?_
    rw [ne_eq, sub_eq_self, htaken]
    have hsome : e.shares ≠ 0 := by
      intro h0
      refine hz ?_
      rw [htaken.mpr (.inr h0), h0, sub_zero]
    simp [hsome]

/-- The order is the last of its level already, with the same shares. -/
def restated (A : Book) (e : Entry) : Bool :=
  (A.atKey e.key).getLast?.any fun f => f.ref == e.ref && f.shares == e.shares

theorem restated_iff : A.restated e = true ↔
    ∃ es f, A.atKey e.key = es ++ [f] ∧ f.ref = e.ref ∧ f.shares = e.shares := by
  unfold restated
  rw [Option.any_eq_true]
  simp only [List.getLast?_eq_some_iff, Bool.and_eq_true, beq_iff_eq]
  constructor
  · rintro ⟨f, ⟨es, hes⟩, hf⟩
    exact ⟨es, f, hes, hf⟩
  · rintro ⟨es, f, hes, hf⟩
    exact ⟨f, ⟨es, hes⟩, hf⟩

theorem atKey_place (A : Book) (e : Entry) (k : LevelKey) :
    (A.place e).atKey k = (A.drop e.ref).atKey k ++ if e.key = k then [e] else [] := by
  unfold atKey
  rw [level_place]
  simp only [Entry.restsAt_key]

/-- An order that comes changes its level, unless it is restated; one that it displaces changes its own. -/
theorem shows_place : (A.place e).shows k ≠ A.shows k ↔
    (e.key = k ∧ A.restated e = false) ∨ e.key ≠ k ∧ ∃ f, A.find e.ref = some f ∧ f.key = k := by
  by_cases hkey : e.key = k
  · simp only [hkey, true_and, ne_eq, not_true_eq_false, false_and, or_false]
    rw [← not_iff_not, not_not, Bool.not_eq_false, restated_iff, hkey]
    unfold shows
    rw [atKey_place, if_pos hkey]
    have hdrop : (A.drop e.ref).atKey k = (A.atKey k).filter fun f => f.ref != e.ref := level_drop _ _ _ _ _
    rw [hdrop]
    have hunique : ((A.atKey k).map Entry.ref).Nodup := level_unique
    constructor
    · intro hsame
      have hfifo := congrArg LevelSnapshot.fifo hsame
      have hshares := congrArg LevelSnapshot.shares hsame
      rcases List.eq_nil_or_concat (A.atKey k) with hnil | ⟨es, f, hes⟩
      · rw [hnil] at hfifo
        cases hfifo
      · rw [List.concat_eq_append] at hes
        rw [hes] at hunique
        have hrefs : ((A.atKey k).filter fun f => f.ref != e.ref).map Entry.ref ++ [e.ref] =
            es.map Entry.ref ++ [f.ref] := by
          rw [hes] at hfifo ⊢
          simpa [snapshotOf] using hfifo
        have href : f.ref = e.ref := (List.singleton_inj.mp (List.append_inj' hrefs rfl).2).symm
        have hfilter : (es ++ [f]).filter (fun g => g.ref != f.ref) = es := by
          have h := @filter_drop_append f es [] hunique
          rwa [List.append_nil] at h
        refine ⟨es, f, hes, href, ?_⟩
        change UInt64.ofNat (total _) = UInt64.ofNat (total _) at hshares
        rw [ofNat_total, ofNat_total, hes, ← href, hfilter, sumShares_append, sumShares_append] at hshares
        have hone : ∀ g : Entry, sumShares [g] = g.shares.toUInt64 := fun g => by simp [sumShares]
        rw [hone, hone] at hshares
        exact (UInt32.toUInt64_inj.mp (add_left_cancel hshares)).symm
    · rintro ⟨es, f, hes, href, hshares⟩
      rw [hes] at hunique ⊢
      have hfilter : (es ++ [f]).filter (fun g => g.ref != e.ref) = es := by
        have h := @filter_drop_append f es [] hunique
        rwa [List.append_nil, href] at h
      rw [hfilter]
      unfold snapshotOf total
      simp only [List.map_append, List.map_cons, List.map_nil, List.length_append, List.length_singleton, href, hshares]
      cases es <;> rfl
  · have hplace : (A.place e).shows k = (A.drop e.ref).shows k := by
      unfold shows
      rw [atKey_place, if_neg hkey, List.append_nil]
    simp only [hkey, false_and, false_or, ne_eq, not_false_eq_true, true_and]
    rw [hplace]
    cases hf : A.find e.ref with
    | none =>
      rw [drop_of_absent (find_eq_none.mp hf)]
      refine iff_of_false (not_not.mpr rfl) ?_
      rintro ⟨f, hc, -⟩
      cases hc
    | some f =>
      refine (shows_drop hf).trans ?_
      constructor
      · exact fun h => ⟨f, rfl, h⟩
      · rintro ⟨g, hg, h⟩
        exact Option.some.inj hg ▸ h

/-- A replacement changes the level that the old order leaves, the level of the new one unless that is restated, and the level
of a live order with the new reference. -/
theorem shows_replace {v : OrderReplace} (h : A.find v.oldOrderRef = some e) :
    (A.step (.orderReplace v)).shows k ≠ A.shows k ↔
      (e.key = k ∧ (v.newOrderRef ≠ v.oldOrderRef ∨ v.price ≠ e.price)) ∨
        ((replacement v e).key = k ∧ A.restated (replacement v e) = false) ∨
          (replacement v e).key ≠ k ∧ ∃ f, A.find v.newOrderRef = some f ∧ f.key = k := by
  have hstep : A.step (.orderReplace v) = (A.drop v.oldOrderRef).place (replacement v e) := by
    simp only [step, h]
  have href : (replacement v e).ref = v.newOrderRef := rfl
  have hkeys : e.key = (replacement v e).key ↔ v.price = e.price := by
    unfold replacement Entry.key Entry.buy
    simp [eq_comm]
  rw [hstep]
  by_cases hnew : v.newOrderRef = v.oldOrderRef
  · have hplace : (A.drop v.oldOrderRef).place (replacement v e) = A.place (replacement v e) := by
      rw [← hnew]
      exact place_drop A (replacement v e)
    rw [hplace, shows_place, href, hnew, h]
    simp only [ne_eq, not_true_eq_false, false_or, Option.some.injEq, exists_eq_left']
    refine ⟨.inr, fun hc => hc.elim (fun hc => .inr ⟨fun hr => ?_, hc.1⟩) id⟩
    exact hc.2 (hkeys.mp (hc.1.trans hr.symm))
  · by_cases hkey : e.key = k
    · refine iff_of_true (fun hsame => ?_) (.inl ⟨hkey, .inl hnew⟩)
      obtain ⟨hmem, heref⟩ := find_eq_some.mp h
      have hfifo : v.oldOrderRef ∈ (A.shows k).fifo := mem_fifo_shows.mpr ⟨e, hmem, hkey, heref⟩
      rw [← hsame] at hfifo
      obtain ⟨f, hf, -, hfref⟩ := mem_fifo_shows.mp hfifo
      rw [orders_place, List.mem_append, List.mem_singleton] at hf
      rcases hf with hf | rfl
      · exact (mem_drop.mp (mem_drop.mp hf).1).2 hfref
      · exact hnew hfref
    · have hlevel : (A.drop v.oldOrderRef).atKey k = A.atKey k :=
        level_drop_of_not_restsAt h (mt Entry.restsAt_key.mp hkey)
      have hshows : (A.drop v.oldOrderRef).shows k = A.shows k := congrArg snapshotOf hlevel
      have hrestated : (replacement v e).key = k →
          (A.drop v.oldOrderRef).restated (replacement v e) = A.restated (replacement v e) := by
        rintro rfl
        unfold restated
        rw [hlevel]
      rw [← hshows, shows_place, href, find_drop, if_neg hnew]
      simp only [hkey, false_and, false_or]
      exact or_congr_left (and_congr_right fun hk => by rw [hrestated hk])

/-! ## The levels that are missed -/

/-- The level of the live order with the reference, unless it is one of `ks`. -/
def elsewhere (A : Book) (ref : Ref) (ks : List LevelKey) : List LevelKey :=
  ((A.find ref).map Entry.key).toList.filter fun k => decide (k ∉ ks)

/-- The level of the live order with the reference, if that is of another symbol and one that changes. -/
def foreign (A : Book) (locate : UInt16) (ref : Ref) (changes : Entry → Bool) : List LevelKey :=
  match A.find ref with
  | none => []
  | some e => if e.locate ≠ locate ∧ changes e then [e.key] else []

/-- The levels that the message changes and that are not among those compared after it. -/
def missed (A : Book) : Message → List LevelKey
  | .addOrder v => A.elsewhere v.orderRef [(added v []).key]
  | .addOrderMpid v => A.elsewhere v.orderRef [(added v.toAddOrder v.attribution).key]
  | .orderExecuted v => A.foreign v.locate v.orderRef fun e => v.executedShares ≠ 0 ∨ e.shares = 0
  | .orderExecutedPrice v => A.foreign v.locate v.orderRef fun e => v.executedShares ≠ 0 ∨ e.shares = 0
  | .orderCancel v => A.foreign v.locate v.orderRef fun e => v.cancelledShares ≠ 0 ∨ e.shares = 0
  | .orderDelete v => A.foreign v.locate v.orderRef fun _ => true
  | .orderReplace v =>
    match A.find v.oldOrderRef with
    | none => []
    | some e =>
      A.foreign v.locate v.oldOrderRef (fun e => v.newOrderRef ≠ v.oldOrderRef ∨ v.price ≠ e.price) ++
        (if e.locate ≠ v.locate ∧ A.restated (replacement v e) = false then [(replacement v e).key] else []) ++
        A.elsewhere v.newOrderRef
          [(replacement v e).key, (v.locate, e.buy, e.price), (v.locate, e.buy, v.price)]
  | _ => []

theorem mem_elsewhere {ks : List LevelKey} :
    k ∈ A.elsewhere ref ks ↔ (∃ f, A.find ref = some f ∧ f.key = k) ∧ k ∉ ks := by
  unfold elsewhere
  rw [List.mem_filter, Option.mem_toList, Option.map_eq_some_iff, decide_eq_true_eq]

theorem mem_foreign {locate : UInt16} {changes : Entry → Bool} : k ∈ A.foreign locate ref changes ↔
    ∃ e, A.find ref = some e ∧ e.key = k ∧ changes e = true ∧ e.locate ≠ locate := by
  unfold foreign
  cases A.find ref with
  | none =>
    refine iff_of_false List.not_mem_nil ?_
    rintro ⟨e, hc, -⟩
    cases hc
  | some e =>
    simp only [Option.some.injEq, exists_eq_left']
    split_ifs with h
    · rw [List.mem_singleton]
      exact ⟨fun hk => ⟨hk.symm, h.2, h.1⟩, fun hk => hk.1.symm⟩
    · exact iff_of_false List.not_mem_nil fun hc => h ⟨hc.2.2, hc.2.1⟩

end Book

namespace Differential

variable {b : ReferenceBook} {A : Book} {m : Message} {k : LevelKey}

theorem changed_iff (h : b.Represents A) : Changed b m k ↔ (A.step m).shows k ≠ A.shows k := by
  unfold Changed
  rw [levelOn_eq h, levelOn_eq (ReferenceBook.represents_on h m)]
  exact Iff.rfl

/-- The level that is compared for the order that a message names. -/
theorem mem_compared_named (h : b.Represents A) {locate : UInt16} {ref : Ref} :
    k ∈ ((b.order ref).map fun o => ((locate, o.side == kBuy, o.price) : LevelKey)).toList ↔
      ∃ e, A.find ref = some e ∧ (locate, e.buy, e.price) = k := by
  rw [← h.find_eq, Option.mem_toList, Option.map_eq_some_iff]
  simp only [Option.map_eq_some_iff]
  constructor
  · rintro ⟨o, ho, hk⟩
    exact ⟨_, ⟨o, ho, rfl⟩, hk⟩
  · rintro ⟨_, ⟨o, ho, rfl⟩, hk⟩
    exact ⟨o, ho, hk⟩

/-- A message that names an order and changes its level only. -/
theorem mem_foreign_iff (h : b.Represents A) {locate : UInt16} {ref : Ref} {changes : Entry → Bool}
    (hchanged : Changed b m k ↔ ∃ e, A.find ref = some e ∧ e.key = k ∧ changes e = true)
    (hcompared : compared b m = ((b.order ref).map fun o => ((locate, o.side == kBuy, o.price) : LevelKey)).toList) :
    k ∈ A.foreign locate ref changes ↔ Changed b m k ∧ k ∉ compared b m := by
  rw [Book.mem_foreign, hchanged, hcompared, mem_compared_named h]
  constructor
  · rintro ⟨e, he, rfl, hc, hne⟩
    refine ⟨⟨e, he, rfl, hc⟩, ?_⟩
    rintro ⟨f, hf, hk⟩
    obtain rfl := Option.some.inj (he.symm.trans hf)
    exact hne (congrArg Prod.fst hk).symm
  · rintro ⟨⟨e, he, rfl, hc⟩, hnot⟩
    refine ⟨e, he, rfl, hc, fun hlocate => hnot ⟨e, he, ?_⟩⟩
    rw [← hlocate]
    rfl

theorem shows_reduce_iff {ref : Ref} {qty : Shares} : (A.reduce ref qty).shows k ≠ A.shows k ↔
    ∃ e, A.find ref = some e ∧ e.key = k ∧ decide (qty ≠ 0 ∨ e.shares = 0) = true := by
  simp only [decide_eq_true_eq]
  cases hf : A.find ref with
  | none =>
    rw [Book.reduce_of_absent (Book.find_eq_none.mp hf)]
    refine iff_of_false (not_not.mpr rfl) ?_
    rintro ⟨e, hc, -⟩
    cases hc
  | some e =>
    rw [Book.shows_reduce hf]
    simp only [Option.some.injEq, exists_eq_left']

theorem shows_drop_iff {ref : Ref} : (A.drop ref).shows k ≠ A.shows k ↔
    ∃ e, A.find ref = some e ∧ e.key = k ∧ true = true := by
  cases hf : A.find ref with
  | none =>
    rw [Book.drop_of_absent (Book.find_eq_none.mp hf)]
    refine iff_of_false (not_not.mpr rfl) ?_
    rintro ⟨e, hc, -⟩
    cases hc
  | some e =>
    rw [Book.shows_drop hf]
    simp only [Option.some.injEq, exists_eq_left', and_true]

/-- An add changes the level that is compared, and the level of a live order with its reference. -/
theorem mem_elsewhere_iff (h : b.Represents A) {e : Entry} (hstep : A.step m = A.place e)
    (hcompared : compared b m = [e.key]) :
    k ∈ A.elsewhere e.ref [e.key] ↔ Changed b m k ∧ k ∉ compared b m := by
  rw [Book.mem_elsewhere, changed_iff h, hstep, Book.shows_place, hcompared, List.mem_singleton]
  constructor
  · rintro ⟨hf, hne⟩
    exact ⟨.inr ⟨fun hc => hne hc.symm, hf⟩, hne⟩
  · rintro ⟨hc | hc, hne⟩
    · exact absurd hc.1.symm hne
    · exact ⟨hc.2, hne⟩

/-- **What is missed.** The levels that the message changes and that are not compared after it. -/
theorem mem_missed (h : b.Represents A) (m : Message) (k : LevelKey) :
    k ∈ A.missed m ↔ Changed b m k ∧ k ∉ compared b m := by
  have hquiet : A.step m = A → A.missed m = [] → (k ∈ A.missed m ↔ Changed b m k ∧ k ∉ compared b m) := by
    intro hstep hnil
    rw [hnil, changed_iff h, hstep]
    exact iff_of_false List.not_mem_nil fun hc => hc.1 rfl
  cases m with
  | addOrder v => exact mem_elsewhere_iff h (e := Book.added v []) rfl rfl
  | addOrderMpid v => exact mem_elsewhere_iff h (e := Book.added v.toAddOrder v.attribution) rfl rfl
  | orderExecuted v => exact mem_foreign_iff h ((changed_iff h).trans shows_reduce_iff) rfl
  | orderExecutedPrice v => exact mem_foreign_iff h ((changed_iff h).trans shows_reduce_iff) rfl
  | orderCancel v => exact mem_foreign_iff h ((changed_iff h).trans shows_reduce_iff) rfl
  | orderDelete v => exact mem_foreign_iff h ((changed_iff h).trans shows_drop_iff) rfl
  | orderReplace v =>
    cases hf : A.find v.oldOrderRef with
    | none =>
      refine hquiet ?_ ?_
      · simp only [Book.step, hf]
      · simp only [Book.missed, hf]
    | some e =>
      have hmissed : A.missed (.orderReplace v) =
          A.foreign v.locate v.oldOrderRef (fun e => v.newOrderRef ≠ v.oldOrderRef ∨ v.price ≠ e.price) ++
            (if e.locate ≠ v.locate ∧ A.restated (Book.replacement v e) = false then
              [(Book.replacement v e).key] else []) ++
            A.elsewhere v.newOrderRef
              [(Book.replacement v e).key, (v.locate, e.buy, e.price), (v.locate, e.buy, v.price)] := by
        simp only [Book.missed, hf]
      have hcompared : compared b (.orderReplace v) = [(v.locate, e.buy, e.price), (v.locate, e.buy, v.price)] := by
        have hfind := hf
        rw [← h.find_eq] at hfind
        obtain ⟨o, ho, rfl⟩ := Option.map_eq_some_iff.mp hfind
        have ho' : b.order v.oldOrderRef = some o := ho
        simp only [compared, ho']
        rfl
      have hkey : e.key = (e.locate, e.buy, e.price) := rfl
      have hnew : (Book.replacement v e).key = (e.locate, e.buy, v.price) := rfl
      have hif : k ∈ (if e.locate ≠ v.locate ∧ A.restated (Book.replacement v e) = false then
          [(Book.replacement v e).key] else []) ↔
            (Book.replacement v e).key = k ∧ A.restated (Book.replacement v e) = false ∧ e.locate ≠ v.locate := by
        split_ifs with hc
        · rw [List.mem_singleton]
          exact ⟨fun hk => ⟨hk.symm, hc.2, hc.1⟩, fun hk => hk.1.symm⟩
        · exact iff_of_false List.not_mem_nil fun hk => hc ⟨hk.2.2, hk.2.1⟩
      rw [hmissed, changed_iff h, Book.shows_replace hf, hcompared, List.mem_append, List.mem_append, Book.mem_foreign,
        Book.mem_elsewhere, hf, hif, hkey, hnew]
      simp only [Option.some.injEq, exists_eq_left', decide_eq_true_eq, List.mem_cons, List.not_mem_nil, or_false,
        hkey]
      by_cases hlocate : e.locate = v.locate
      · -- both levels of the replacement are compared
        simp only [hlocate, ne_eq, not_true_eq_false, and_false, false_or]
        constructor
        · rintro ⟨hdisplaced, hk⟩
          exact ⟨.inr (.inr ⟨fun hc => hk (.inl hc.symm), hdisplaced⟩), fun hc => hk (.inr hc)⟩
        · rintro ⟨⟨hk, -⟩ | ⟨hk, -⟩ | ⟨-, hdisplaced⟩, hnot⟩
          · exact absurd (.inl hk.symm) hnot
          · exact absurd (.inr hk.symm) hnot
          · exact ⟨hdisplaced, fun hc => hc.elim (fun hk => hnot (.inr hk)) hnot⟩
      · -- neither is
        have hother : ∀ {p q : Price}, (e.locate, e.buy, p) ≠ (v.locate, e.buy, q) := fun hc =>
          hlocate (congrArg Prod.fst hc)
        constructor
        · rintro ((⟨rfl, hc, -⟩ | ⟨rfl, hc, -⟩) | ⟨hdisplaced, hk⟩)
          · exact ⟨.inl ⟨rfl, hc⟩, not_or.mpr ⟨hother, hother⟩⟩
          · exact ⟨.inr (.inl ⟨rfl, hc⟩), not_or.mpr ⟨hother, hother⟩⟩
          · exact ⟨.inr (.inr ⟨fun hc => hk (.inl hc.symm), hdisplaced⟩), fun hc => hk (.inr hc)⟩
        · rintro ⟨⟨rfl, hc⟩ | ⟨rfl, hc⟩ | ⟨hne, hdisplaced⟩, hnot⟩
          · exact .inl (.inl ⟨rfl, hc, hlocate⟩)
          · exact .inl (.inr ⟨rfl, hc, hlocate⟩)
          · exact .inr ⟨hdisplaced, fun hk => hk.elim (fun hk => hne hk.symm) hnot⟩
  | _ => exact hquiet rfl rfl

end Differential

/-! ## When a message that records nothing is enough -/

namespace Differential

variable {b : ReferenceBook} {A : Book} {m : Message} {k : LevelKey}

theorem present_iff (h : b.Represents A) :
    ((b.on m).levelOn k).present = true ↔ A.leaves m k.1 k.2.1 k.2.2 ≠ [] := by
  rw [levelOn_eq (ReferenceBook.represents_on h m), Book.present_snapshotOf]
  exact Book.level_step_ne_nil_iff

/-- The structural check after the message reports an order without shares, or a level of too many orders. -/
theorem checkInvariants_ne_zero_iff (h : b.Represents A) : (b.on m).checkInvariants ≠ 0 ↔
    ∃ locate buy price, 0 ∈ A.leaves m locate buy price ∨ 2 ^ 32 ≤ (A.leaves m locate buy price).length := by
  rw [ne_eq, (ReferenceBook.represents_on h m).checkInvariants_iff, not_and_or]
  simp only [exists_or, ← Book.length_level_step]
  refine or_congr ?_ ?_
  · unfold Book.Stocked
    push Not
    simp only [← Book.map_shares_step, List.mem_map]
    constructor
    · rintro ⟨e, he, hz⟩
      exact ⟨e.locate, e.buy, e.price, e, Book.mem_own_level he, hz⟩
    · rintro ⟨locate, buy, price, e, he, hz⟩
      exact ⟨e, (Book.mem_level.mp he).1, hz⟩
  · unfold Book.Narrow
    push Not
    exact Iff.rfl

/-- **What the comparison after a message covers.** For every reference book that messages reach and for every next
message: a message that records nothing is enough exactly when it changes no level that is missed, or the comparison
of everything is due and visits each of those, or a structural check is due that reports the reference book. -/
theorem on_enough_iff (code : UInt8) (ms : List Message) (m : Message) (fullEvery invariantEvery messages : ℕ) :
    Enough (ReferenceBook.run { venueMarketCode := code } ms) m fullEvery invariantEvery messages ↔
      (∀ k ∈ (Runs.run Book.step Book.empty ms).missed m, FullDue fullEvery (messages + 1) ∧ k.1 ≠ 0xFFFF ∧
        (Runs.run Book.step Book.empty ms).leaves m k.1 k.2.1 k.2.2 ≠ []) ∨
      InvariantsDue invariantEvery (messages + 1) ∧
        ∃ locate buy price, 0 ∈ (Runs.run Book.step Book.empty ms).leaves m locate buy price ∨
          2 ^ 32 ≤ ((Runs.run Book.step Book.empty ms).leaves m locate buy price).length := by
  have h := ReferenceBook.represents_venue code ms
  generalize ReferenceBook.run { venueMarketCode := code } ms = b at h ⊢
  generalize Runs.run Book.step Book.empty ms = A at h ⊢
  rw [enough_iff_touches]
  unfold Touches
  have hperiodic : ∀ {k}, k ∈ A.missed m → Periodic m := by
    intro k hk
    cases m with
    | systemEvent v => cases hk
    | stockDirectory v => cases hk
    | stockTradingAction v => cases hk
    | operationalHalt v => cases hk
    | _ => trivial
  rw [checkInvariants_ne_zero_iff h]
  constructor
  · rintro (hall | ⟨-, hdue, hbad⟩)
    · refine .inl fun k hk => ?_
      obtain ⟨hchanged, hnot⟩ := (mem_missed h m k).mp hk
      obtain ⟨-, hdue, hne, hpresent⟩ := (hall k hchanged).resolve_left hnot
      exact ⟨hdue, hne, (present_iff h).mp hpresent⟩
    · exact .inr ⟨hdue, hbad⟩
  · rintro (hall | ⟨hdue, hbad⟩)
    · refine .inl fun k hchanged => or_iff_not_imp_left.mpr fun hnot => ?_
      have hk := (mem_missed h m k).mpr ⟨hchanged, hnot⟩
      obtain ⟨hdue, hne, hleft⟩ := hall k hk
      exact ⟨hperiodic hk, hdue, hne, (present_iff h).mpr hleft⟩
    · by_cases hnil : A.missed m = []
      · refine .inl fun k hchanged => .inl ?_
        by_contra hnot
        exact List.not_mem_nil (hnil ▸ (mem_missed h m k).mpr ⟨hchanged, hnot⟩)
      · obtain ⟨k, hk⟩ := List.exists_mem_of_ne_nil _ hnil
        exact .inr ⟨hperiodic hk, hdue, hbad⟩

end Differential

end Carteret
