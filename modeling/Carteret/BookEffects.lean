import Carteret.Book

/-!
# What a message leaves of a level

The orders that rest at a symbol, side and price after a message, told by the message and the orders before it.

1. A message takes orders out of the book (`removes`), takes shares from those that it leaves (`remaining`), and puts one in
   (`brings`).
2. `leaves` is what that makes of a level, and what the level then has (`map_shares_step`).
-/

namespace Carteret

namespace Book

variable {A : Book} {m : Message} {locate : UInt16} {buy : Bool} {price : Price}

/-- The live orders that the message takes out of the book, or out of their place. -/
def removes (A : Book) (m : Message) (e : Entry) : Bool :=
  match m with
  | .addOrder v => e.ref = v.orderRef
  | .addOrderMpid v => e.ref = v.orderRef
  | .orderExecuted v => e.ref = v.orderRef ∧ e.shares ≤ v.executedShares
  | .orderExecutedPrice v => e.ref = v.orderRef ∧ e.shares ≤ v.executedShares
  | .orderCancel v => e.ref = v.orderRef ∧ e.shares ≤ v.cancelledShares
  | .orderDelete v => e.ref = v.orderRef
  | .orderReplace v => (A.find v.oldOrderRef).isSome ∧ (e.ref = v.oldOrderRef ∨ e.ref = v.newOrderRef)
  | _ => false

/-- What the message leaves of the shares of an order that stays. -/
def remaining (m : Message) (e : Entry) : Shares :=
  match m with
  | .orderExecuted v => if e.ref = v.orderRef then e.shares - v.executedShares else e.shares
  | .orderExecutedPrice v => if e.ref = v.orderRef then e.shares - v.executedShares else e.shares
  | .orderCancel v => if e.ref = v.orderRef then e.shares - v.cancelledShares else e.shares
  | _ => e.shares

/-- The order that the message puts into the book. -/
def brings (A : Book) : Message → Option Entry
  | .addOrder v => some (added v [])
  | .addOrderMpid v => some (added v.toAddOrder v.attribution)
  | .orderReplace v => (A.find v.oldOrderRef).map (replacement v)
  | _ => none

/-- The shares of the orders at a level once the message has done its work, in the order of their arrival. -/
def leaves (A : Book) (m : Message) (locate : UInt16) (buy : Bool) (price : Price) : List Shares :=
  ((A.level locate buy price).filter fun e => !A.removes m e).map (remaining m) ++
    ((A.brings m).toList.filter (Entry.restsAt locate buy price)).map Entry.shares

/-! ## One operation -/

theorem map_shares_reduce (A : Book) (ref : Ref) (qty : Shares) (locate : UInt16) (buy : Bool) (price : Price) :
    ((A.reduce ref qty).level locate buy price).map Entry.shares =
      ((A.level locate buy price).filter fun e => !decide (e.ref = ref ∧ e.shares ≤ qty)).map
        fun e => if e.ref = ref then e.shares - qty else e.shares := by
  have hrests : ∀ {e e' : Entry}, e.reduce ref qty = some e' →
      e'.restsAt locate buy price = e.restsAt locate buy price := by
    intro e e' h
    unfold Entry.reduce at h
    split at h
    · split at h
      · cases h
      · obtain rfl := Option.some.inj h
        rfl
    · obtain rfl := Option.some.inj h
      rfl
  have hreduce : ∀ e : Entry, (e.reduce ref qty).map Entry.shares =
      if e.ref = ref ∧ e.shares ≤ qty then none else some (if e.ref = ref then e.shares - qty else e.shares) := by
    intro e
    have hzero : e.shares - taken qty e.shares = 0 ↔ e.shares ≤ qty := by
      rw [← UInt32.toNat_inj, toNat_sub_taken, UInt32.le_iff_toNat_le]
      exact Nat.sub_eq_zero_iff_le
    unfold Entry.reduce
    by_cases href : e.ref = ref
    · by_cases hle : e.shares ≤ qty
      · rw [if_pos href, if_pos (hzero.mpr hle), if_pos ⟨href, hle⟩]
        rfl
      · have htaken : taken qty e.shares = qty := if_neg fun hgt => hle (UInt32.le_of_lt hgt)
        rw [if_pos href, if_neg (mt hzero.mp hle), if_neg fun hc => hle hc.2, if_pos href, htaken]
        rfl
    · rw [if_neg href, if_neg fun hc => href hc.1, if_neg href]
      rfl
  unfold level reduce
  dsimp only
  induction A.orders with
  | nil => rfl
  | cons e es ih =>
    have hone := hreduce e
    cases hred : e.reduce ref qty with
    | none =>
      rw [hred, Option.map_none] at hone
      have hgone : e.ref = ref ∧ e.shares ≤ qty := by
        by_contra hc
        rw [if_neg hc] at hone
        cases hone
      rw [List.filterMap_cons_none hred, ih, List.filter_cons (x := e)]
      split
      · rw [List.filter_cons_of_neg]
        simpa using hgone
      · rfl
    | some e' =>
      rw [hred, Option.map_some] at hone
      have hstays : ¬ (e.ref = ref ∧ e.shares ≤ qty) := fun hc => by
        rw [if_pos hc] at hone
        cases hone
      rw [if_neg hstays] at hone
      rw [List.filterMap_cons_some hred, List.filter_cons, List.filter_cons (x := e), hrests hred]
      split
      · rw [List.map_cons, Option.some.inj hone, ih, List.filter_cons_of_pos, List.map_cons]
        exact congrArg not (decide_eq_false hstays)
      · exact ih

theorem level_drop_eq (A : Book) (ref : Ref) (locate : UInt16) (buy : Bool) (price : Price) :
    (A.drop ref).level locate buy price = (A.level locate buy price).filter fun e => !decide (e.ref = ref) := by
  rw [level_drop]
  refine List.filter_congr fun e _ => ?_
  rw [bne, beq_eq_decide]

/-- **The level after a message.** -/
theorem map_shares_step (A : Book) (m : Message) (locate : UInt16) (buy : Bool) (price : Price) :
    ((A.step m).level locate buy price).map Entry.shares = A.leaves m locate buy price := by
  have hkeep : ∀ es : List Entry, A.brings m = none →
      (es.map (remaining m) = ((A.level locate buy price).filter fun e => !A.removes m e).map (remaining m)) →
        es.map (remaining m) = A.leaves m locate buy price := by
    intro es hbrings hes
    unfold leaves
    rw [hbrings, hes]
    exact (List.append_nil _).symm
  have hplace : ∀ (B : Book) (e : Entry), A.step m = B.place e → remaining m = Entry.shares → A.brings m = some e →
      (B.drop e.ref).level locate buy price = (A.level locate buy price).filter (fun f => !A.removes m f) →
        ((A.step m).level locate buy price).map Entry.shares = A.leaves m locate buy price := by
    intro B e hstep hremaining hbrings hlevel
    unfold leaves
    rw [hstep, level_place, hlevel, hremaining, hbrings, Option.toList_some, List.filter_singleton, List.map_append]
    cases e.restsAt locate buy price <;> rfl
  have hquiet : A.step m = A → remaining m = Entry.shares → A.brings m = none → (∀ e, A.removes m e = false) →
      ((A.step m).level locate buy price).map Entry.shares = A.leaves m locate buy price := by
    intro hstep hremaining hbrings hremoves
    rw [hstep, ← hremaining]
    refine hkeep _ hbrings (congrArg _ (List.filter_eq_self.mpr fun e _ => ?_).symm)
    rw [hremoves]
    rfl
  cases m with
  | addOrder v => exact hplace A _ rfl rfl rfl (level_drop_eq A v.orderRef _ _ _)
  | addOrderMpid v => exact hplace A _ rfl rfl rfl (level_drop_eq A v.orderRef _ _ _)
  | orderExecuted v =>
    exact (map_shares_reduce A v.orderRef v.executedShares _ _ _).trans (List.append_nil _).symm
  | orderExecutedPrice v =>
    exact (map_shares_reduce A v.orderRef v.executedShares _ _ _).trans (List.append_nil _).symm
  | orderCancel v =>
    exact (map_shares_reduce A v.orderRef v.cancelledShares _ _ _).trans (List.append_nil _).symm
  | orderDelete v =>
    refine hkeep ((A.drop v.orderRef).level locate buy price) rfl ?_
    rw [level_drop_eq]
    rfl
  | orderReplace v =>
    cases hf : A.find v.oldOrderRef with
    | none =>
      refine hquiet ?_ rfl ?_ fun e => ?_
      · simp only [step, hf]
      · simp only [brings, hf, Option.map_none]
      · simp [removes, hf]
    | some e =>
      refine hplace (A.drop v.oldOrderRef) (replacement v e) ?_ rfl ?_ ?_
      · simp only [step, hf]
      · simp only [brings, hf, Option.map_some]
      · rw [level_drop_eq, level_drop_eq, List.filter_filter]
        refine List.filter_congr fun f _ => ?_
        have href : (replacement v e).ref = v.newOrderRef := rfl
        simp [removes, hf, href, Bool.and_comm]
  | _ => exact hquiet rfl rfl rfl fun _ => rfl

/-! ## What shows -/

theorem level_step_ne_nil_iff : (A.step m).level locate buy price ≠ [] ↔ A.leaves m locate buy price ≠ [] := by
  rw [← map_shares_step, ne_eq, ne_eq, List.map_eq_nil_iff]

theorem length_level_step (A : Book) (m : Message) (locate : UInt16) (buy : Bool) (price : Price) :
    ((A.step m).level locate buy price).length = (A.leaves m locate buy price).length := by
  rw [← map_shares_step, List.length_map]

/-- The best price of a side that the message leaves. -/
def BestLeft (A : Book) (m : Message) (locate : UInt16) (buy : Bool) (price : Price) : Prop :=
  A.leaves m locate buy price ≠ [] ∧
    ∀ q, A.leaves m locate buy q ≠ [] → if buy then q ≤ price else price ≤ q

theorem BestLeft.unique {p q : Price} (hp : A.BestLeft m locate buy p) (hq : A.BestLeft m locate buy q) : p = q := by
  have hpq := hp.2 q hq.1
  have hqp := hq.2 p hp.1
  cases buy
  · exact UInt32.le_antisymm hpq hqp
  · exact UInt32.le_antisymm hqp hpq

end Book

end Carteret
