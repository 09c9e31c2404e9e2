import Carteret.FastCapacity
import Carteret.SharedCounters

/-!
# Orders without shares

1. The live orders all have shares as long as no message brings an order without.
2. `check_invariants()` of the reference book reports the live orders without shares and the levels whose
   counter has wrapped, and nothing else.
3. The runs in which neither book ever holds an order without shares.
-/

namespace Carteret

/-! ## The abstract book -/

namespace Book

variable {A : Book} {e : Entry} {ref : Ref} {qty : Shares}

/-- Every live order has at least one share. -/
def Stocked (A : Book) : Prop := ∀ e ∈ A.orders, e.shares ≠ 0

/-- Every level has fewer orders than its counter can hold. -/
def Narrow (A : Book) : Prop := ∀ locate buy price, (A.level locate buy price).length < 2 ^ 32

/-- A message that puts an order into the book brings it with shares. -/
def BringsShares (A : Book) : Message → Prop
  | .addOrder v => v.shares ≠ 0
  | .addOrderMpid v => v.shares ≠ 0
  | .orderReplace v => (A.find v.oldOrderRef).isSome = true → v.shares ≠ 0
  | _ => True

theorem Stocked.drop (h : A.Stocked) (ref : Ref) : (A.drop ref).Stocked :=
  fun e he => h e (mem_drop.mp he).1

theorem stocked_place (h : A.Stocked) : (A.place e).Stocked ↔ e.shares ≠ 0 := by
  have hnew : ∀ f ∈ (A.drop e.ref).orders, f.ref ≠ e.ref := fun f hf => (mem_drop.mp hf).2
  unfold Stocked
  simp only [← place_drop A e, mem_place hnew]
  constructor
  · exact fun hall => hall e (.inr rfl)
  · rintro he f (hf | rfl)
    · exact h.drop e.ref f hf
    · exact he

/-- A removal of shares leaves no order without: such an order goes. -/
theorem Stocked.reduce (h : A.Stocked) (ref : Ref) (qty : Shares) : (A.reduce ref qty).Stocked := by
  intro f hf
  obtain ⟨e, he, hred⟩ := List.mem_filterMap.mp hf
  unfold Entry.reduce at hred
  split at hred
  · split at hred
    · cases hred
    · rename_i hne
      obtain rfl := Option.some.inj hred
      exact hne
  · obtain rfl := Option.some.inj hred
    exact h e he

/-- **One message.** Exactly the orders that arrive without shares break it. -/
theorem stocked_step (h : A.Stocked) (m : Message) : (A.step m).Stocked ↔ A.BringsShares m := by
  cases m with
  | addOrder v => exact stocked_place h
  | addOrderMpid v => exact stocked_place h
  | orderExecuted v => exact iff_of_true (h.reduce _ _) trivial
  | orderExecutedPrice v => exact iff_of_true (h.reduce _ _) trivial
  | orderCancel v => exact iff_of_true (h.reduce _ _) trivial
  | orderDelete v => exact iff_of_true (h.drop _) trivial
  | orderReplace v =>
    unfold step BringsShares
    dsimp only
    cases hf : A.find v.oldOrderRef with
    | none => exact iff_of_true h fun hc => absurd hc Bool.false_ne_true
    | some e =>
      refine (stocked_place (h.drop v.oldOrderRef)).trans ?_
      exact ⟨fun hs _ => hs, fun hs => hs rfl⟩
  | _ => exact iff_of_true h trivial

end Book

/-! ## The reference book -/

namespace ReferenceBook

variable {b : ReferenceBook} {A : Book} {locate : UInt16} {buy : Bool} {price : Price}

/-- Every live order has shares, and the structural check reports nothing. -/
def Stocked (b : ReferenceBook) : Prop :=
  (∀ ref o, b.order ref = some o → o.shares ≠ 0) ∧ b.checkInvariants = 0

theorem Represents.orders_iff (h : Represents b A) :
    (∀ ref o, b.order ref = some o → o.shares ≠ 0) ↔ A.Stocked := by
  constructor
  · intro hall e he
    have hf : A.find e.ref = some e := Book.find_eq_some.mpr ⟨he, rfl⟩
    rw [← h.find_eq] at hf
    obtain ⟨o, ho, hoe⟩ := Option.map_eq_some_iff.mp hf
    rw [← congrArg Entry.shares hoe]
    exact hall _ o ho
  · intro hall ref o ho
    exact hall _ (Book.find_eq_some.mp (h.find ho)).1

/-- The walk over a level meets its orders, where they should be. -/
theorem Represents.walk_eq (h : Represents b A) (es : List Entry)
    (hes : ∀ e ∈ es, e ∈ A.orders ∧ e.locate = locate ∧ e.price = price) (w : LevelWalk) :
    (es.map fun e => (⟨b.slotOf e.ref, e.ref⟩ : RefNode)).foldl (b.walkNode locate price) w =
      { bad := w.bad + es.countP FastBook.spent, sum := w.sum + Book.sumShares es } := by
  induction es generalizing w with
  | nil => simp [Book.sumShares]
  | cons e es ih =>
    obtain ⟨hmem, hl, hp⟩ := hes e (by simp)
    have hf : A.find e.ref = some e := Book.find_eq_some.mpr ⟨hmem, rfl⟩
    rw [← h.find_eq] at hf
    obtain ⟨o, ho, he⟩ := Option.map_eq_some_iff.mp hf
    have hshares : o.shares = e.shares := congrArg Entry.shares he
    have hprice : o.price = price := (congrArg Entry.price he).trans hp
    have hlocate : o.locate = locate := (congrArg Entry.locate he).trans hl
    rw [List.map_cons, List.foldl_cons, ih fun f hf => hes f (List.mem_cons_of_mem e hf)]
    unfold walkNode
    dsimp only
    rw [ho]
    dsimp only
    rw [hshares, hprice, hlocate, if_neg (not_not.mpr rfl), if_neg (not_not.mpr rfl), List.countP_cons]
    have hspent : (if e.shares = 0 then 1 else 0) = if FastBook.spent e = true then 1 else 0 := by
      unfold FastBook.spent
      simp
    have hsum : Book.sumShares (e :: es) = e.shares.toUInt64 + Book.sumShares es := List.sum_cons
    rw [hspent, hsum, ← add_assoc]
    congr 1
    · omega
    · exact UInt64.add_assoc _ _ _

/-- One level: its orders without shares, and whether its counter has wrapped. -/
theorem Represents.checkLevel_eq (h : Represents b A) {lvl : RefLevel}
    (hl : b.levelAt locate buy price = some lvl) :
    b.checkLevel locate price lvl = (A.level locate buy price).countP FastBook.spent +
      if (A.level locate buy price).length < 2 ^ 32 then 0 else 1 := by
  rw [h.level_eq] at hl
  unfold levelFor at hl
  split at hl
  · cases hl
  · rename_i hne
    obtain rfl := Option.some.inj hl
    have hes : ∀ e ∈ A.level locate buy price, e ∈ A.orders ∧ e.locate = locate ∧ e.price = price := by
      intro e he
      obtain ⟨hmem, hr⟩ := mem_level.mp he
      obtain ⟨hloc, -, hprice⟩ := Entry.restsAt_iff.mp hr
      exact ⟨hmem, hloc, hprice⟩
    unfold checkLevel
    dsimp only
    rw [h.walk_eq _ hes, if_neg (by simpa using hne), List.length_map, UInt32.toNat_ofNat']
    dsimp only
    rw [UInt64.zero_add, if_neg (not_not.mpr rfl)]
    split_ifs with hmod hlt
    · exact absurd (Nat.mod_eq_of_lt hlt) hmod
    · omega
    · omega
    · exact absurd (Nat.mod_lt (A.level locate buy price).length (show 0 < 2 ^ 32 by decide)) (by omega)

theorem levelAt_eq_some {lvl : RefLevel} : b.levelAt locate buy price = some lvl ↔
    ∃ s, b.symbols[locate]? = some s ∧ (s.levels buy)[price]? = some lvl := by
  unfold levelAt symbolOf
  rw [Std.TreeMap.getD_eq_getD_getElem?]
  cases b.symbols[locate]? with
  | none =>
    refine iff_of_false (fun hc => ?_) fun ⟨s, hs, _⟩ => by cases hs
    cases buy <;> cases hc
  | some s => simp

/-- The check visits the levels of the book. -/
theorem checkInvariants_eq_zero (b : ReferenceBook) : b.checkInvariants = 0 ↔
    ∀ locate buy price lvl, b.levelAt locate buy price = some lvl → b.checkLevel locate price lvl = 0 := by
  have hsum : ∀ (α : Type) (f : α → ℕ) (xs : List α), (xs.map f).sum = 0 ↔ ∀ x ∈ xs, f x = 0 :=
    fun α f xs => List.sum_eq_zero_iff_forall_eq_nat.trans List.forall_mem_map
  unfold checkInvariants checkSymbol
  rw [hsum]
  simp only [hsum, List.mem_append, Prod.forall, Std.TreeMap.mem_toList_iff_getElem?_eq_some]
  constructor
  · intro hall locate buy price lvl hl
    obtain ⟨s, hs, hlvl⟩ := levelAt_eq_some.mp hl
    refine hall locate s hs price lvl ?_
    cases buy
    · exact .inr hlvl
    · exact .inl hlvl
  · rintro hall locate s hs price lvl (hlvl | hlvl)
    · exact hall locate true price lvl (levelAt_eq_some.mpr ⟨s, hs, hlvl⟩)
    · exact hall locate false price lvl (levelAt_eq_some.mpr ⟨s, hs, hlvl⟩)

/-- The structural check reports nothing exactly when every live order has shares and no level has more
orders than its counter can hold. -/
theorem Represents.checkInvariants_iff (h : Represents b A) : b.checkInvariants = 0 ↔ A.Stocked ∧ A.Narrow := by
  rw [checkInvariants_eq_zero]
  constructor
  · intro hall
    have hlevel : ∀ locate buy price, (A.level locate buy price).countP FastBook.spent = 0 ∧
        (A.level locate buy price).length < 2 ^ 32 := by
      intro locate buy price
      cases hl : b.levelAt locate buy price with
      | none =>
        rw [h.level_eq] at hl
        unfold levelFor at hl
        split at hl
        · rename_i hnil
          rw [hnil]
          decide
        · cases hl
      | some lvl =>
        have hzero := hall locate buy price lvl hl
        rw [h.checkLevel_eq hl] at hzero
        split_ifs at hzero with hlt
        exact ⟨hzero, hlt⟩
    refine ⟨fun e he hz => ?_, fun locate buy price => (hlevel locate buy price).2⟩
    have hnot := List.countP_eq_zero.mp (hlevel e.locate e.buy e.price).1 e (Book.mem_own_level he)
    exact hnot (beq_iff_eq.mpr hz)
  · rintro ⟨hstocked, hnarrow⟩ locate buy price lvl hl
    have hspent : (A.level locate buy price).countP FastBook.spent = 0 := by
      refine List.countP_eq_zero.mpr fun e he => ?_
      have hne := hstocked e (mem_level.mp he).1
      simpa [FastBook.spent] using hne
    rw [h.checkLevel_eq hl, hspent, if_pos (hnarrow locate buy price)]

theorem Represents.stocked (h : Represents b A) : b.Stocked ↔ A.Stocked ∧ A.Narrow := by
  unfold Stocked
  rw [h.orders_iff, h.checkInvariants_iff]
  exact and_iff_right_of_imp And.left

end ReferenceBook

/-! ## The fast book -/

namespace FastBook

variable {P : HashPolicy} {W : Window} {b : FastBook P W} {A : Book} {x : Bool}

/-- Every order that the index finds has shares, and the structural check reports nothing. -/
def Stocked (b : FastBook P W) : Prop :=
  (∀ ref i, b.index.find ref = some i → i ≠ kNoOrder → (b.order i).shares ≠ 0) ∧
    b.checkInvariants = some 0

theorem Rep.stocked (h : Rep true b A) : b.Stocked ↔ A.Stocked := by
  unfold Stocked
  rw [h.checkInvariants_eq, Option.some.injEq, List.countP_eq_zero]
  constructor
  · rintro ⟨-, hall⟩ e he hzero
    exact hall e he (by unfold spent; rw [hzero]; rfl)
  · intro hall
    refine ⟨fun ref i hi hne => ?_, fun e he hs => hall e he (by simpa [spent] using hs)⟩
    obtain ⟨slot, F, h⟩ := h
    obtain rfl := Option.some.inj ((h.index.find_eq ref).symm.trans hi)
    obtain ⟨e, he, rfl⟩ := (h.live_iff ref).mp hne
    rw [(h.core.stores e he).shares_eq]
    exact hall e he

/-- The pool names its slots with 32 bits, so no level outgrows its counter. -/
theorem Rep.narrow (h : Rep x b A) : A.Narrow := by
  intro locate buy price
  obtain ⟨slot, F, h⟩ := h
  have hlt := (h.core.queue locate buy price).length_lt
  rwa [List.length_map] at hlt

/-- **Orders without shares.** In the reference book every live order has shares and the structural check
reports nothing, after every message, exactly when no message brings an order without shares and no level
outgrows its counter. In a fast book that refuses nothing only the former is needed. -/
theorem stocked_iff (ms : List Message) :
    ((∀ pre, pre <+: ms → (ReferenceBook.run {} pre).Stocked) ↔
      Runs.Along Book.step (fun A m => A.BringsShares m ∧ (A.step m).Narrow) Book.empty ms) ∧
    ∀ (P : HashPolicy) (W : Window) (cfg : FastBookConfig), (new P W cfg).isSome = true →
      (∀ pre, pre <+: ms → ∀ b, run P W cfg pre = some b → b.Fits) →
        ((∀ pre, pre <+: ms → ∃ b, run P W cfg pre = some b ∧ b.Stocked) ↔
          Runs.Along Book.step Book.BringsShares Book.empty ms) := by
  have hempty : Book.empty.Stocked ∧ Book.empty.Narrow := by
    refine ⟨fun e he => ?_, fun _ _ _ => ?_⟩
    · cases he
    · show 0 < 2 ^ 32
      decide
  constructor
  · have hboth : _ ↔ Runs.Along Book.step _ Book.empty ms :=
      Runs.prefixes_iff_along (P := fun A : Book => A.Stocked ∧ A.Narrow)
        (C := fun A m => A.BringsShares m ∧ (A.step m).Narrow)
        (fun A m hA => and_congr_left' (Book.stocked_step hA.1 m)) hempty
    rw [← hboth]
    exact forall₂_congr fun pre _ => (ReferenceBook.represents_run pre).stocked
  · intro P W cfg hnew hfits
    have hone : _ ↔ Runs.Along Book.step _ Book.empty ms :=
      Runs.prefixes_iff_along (P := Book.Stocked) (fun A m hA => Book.stocked_step hA m) hempty.1
    rw [← hone]
    refine forall₂_congr fun pre hpre => ?_
    obtain ⟨b, hb, -, hrep⟩ := rep_of_fits hnew fun pre' hp => hfits pre' (hp.trans hpre)
    rw [← hrep.stocked]
    constructor
    · rintro ⟨c, hc, hstocked⟩
      obtain rfl := Option.some.inj (hb.symm.trans hc)
      exact hstocked
    · exact fun hstocked => ⟨b, hb, hstocked⟩

theorem stocked_iff_foreignReplace :
    ∀ pre, pre <+: foreignReplace →
      ∃ b, run multiplyShiftHash defaultWindow ⟨8, 4, 8⟩ pre = some b ∧ b.Stocked := by
  refine ((stocked_iff foreignReplace).2 multiplyShiftHash defaultWindow ⟨8, 4, 8⟩
    ((new_isSome _).mpr (by decide)) (fits_of_inits (by decide +kernel))).mpr ?_
  have hshares : (5 : Shares) ≠ 0 := by decide
  exact ⟨hshares, hshares, fun _ => hshares, trivial⟩

/-- An add without shares stays in both books, and both checks report it. -/
theorem not_stocked :
    let ms : List Message := [.addOrder
      { locate := 1, ts := 0, orderRef := 1, side := kBuy, shares := 0, stock := [], price := 100 }]
    ((ReferenceBook.run {} ms).order 1).map RefOrder.shares = some 0 ∧
      (ReferenceBook.run {} ms).checkInvariants = 1 ∧
      (run multiplyShiftHash defaultWindow ⟨8, 4, 8⟩ ms).bind checkInvariants = some 1 := by
  decide +kernel

end FastBook

end Carteret
