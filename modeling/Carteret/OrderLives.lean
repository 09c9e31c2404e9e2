import Carteret.Lib.Runs
import Carteret.Book

/-!
# How long the orders of a book live

An order lives from the message that brings it to the message that ends it. `Lives` is a book with the time at
which each live order came, and the lifetimes of the orders that have left.

1. What a message brings and what it ends (`Book.brought`, `Book.ended`).
2. The orders that each operation of the book ends.
3. A message is `Distinct` when no order of it takes the place of another.
-/

namespace Carteret

/-- The time of a message, in nanoseconds after midnight. -/
def Message.ts : Message → ℕ
  | .systemEvent v => v.ts.toNat
  | .stockTradingAction v => v.ts.toNat
  | .operationalHalt v => v.ts.toNat
  | .stockDirectory v => v.ts.toNat
  | .addOrder v => v.ts.toNat
  | .addOrderMpid v => v.ts.toNat
  | .orderExecuted v => v.ts.toNat
  | .orderExecutedPrice v => v.ts.toNat
  | .orderCancel v => v.ts.toNat
  | .orderDelete v => v.ts.toNat
  | .orderReplace v => v.ts.toNat
  | .trade v => v.ts.toNat
  | .brokenTrade v => v.ts.toNat
  | .crossTrade v => v.ts.toNat

namespace Book

/-- The order that a message brings. -/
def brought (b : Book) : Message → Option Entry
  | .addOrder v => some (added v [])
  | .addOrderMpid v => some (added v.toAddOrder v.attribution)
  | .orderReplace v => (b.find v.oldOrderRef).map (replacement v)
  | _ => none

/-- The live orders that a message ends: those that are not live after it, and the one whose reference goes to
the order that it brings. -/
def ended (b : Book) (m : Message) : List Entry :=
  b.orders.filter fun e => ((b.step m).find e.ref).isNone || (b.brought m).any fun f => f.ref == e.ref

/-- No order of the message takes the place of another: an add has a reference that is not live, and a replace
names a live order and keeps its reference or takes one that is not live. -/
def Distinct (b : Book) : Message → Prop
  | .addOrder v => b.find v.orderRef = none
  | .addOrderMpid v => b.find v.orderRef = none
  | .orderReplace v =>
    (b.find v.oldOrderRef).isSome = true ∧ (b.drop v.oldOrderRef).find v.newOrderRef = none
  | _ => True

instance (b : Book) (m : Message) : Decidable (b.Distinct m) := by
  cases m <;> unfold Distinct <;> infer_instance

variable {b : Book} {e : Entry} {ref : Ref} {qty : Shares} {m : Message}

/-! ## What the operations end -/

theorem filter_eq_nil_of_ref {p : Entry → Bool} (h : b.find ref = none)
    (hp : ∀ f ∈ b.orders, p f = true → f.ref = ref) : b.orders.filter p = [] :=
  List.filter_eq_nil_iff.mpr fun f hf hpf => find_eq_none.mp h f hf (hp f hf hpf)

theorem filter_eq_singleton_of_ref {p : Entry → Bool} (h : b.find ref = some e)
    (hp : ∀ f ∈ b.orders, p f = true ↔ f.ref = ref) : b.orders.filter p = [e] := by
  obtain ⟨he, href⟩ := find_eq_some.mp h
  have hone : ∀ f ∈ b.orders, p f = (f == e) := fun f hf => by
    refine (Bool.eq_iff_iff.mpr ?_)
    rw [beq_iff_eq, hp f hf]
    exact ⟨fun hr => eq_of_ref_eq hf he (hr.trans href.symm), fun hfe => hfe ▸ href⟩
  rw [List.filter_congr hone, List.filter_beq, List.count_eq_one_of_mem b.unique.of_map he]
  rfl

/-- A message that changes nothing ends nothing. -/
theorem ended_of_step_eq (hb : b.brought m = none) (hs : b.step m = b) : b.ended m = [] := by
  refine List.filter_eq_nil_iff.mpr fun e he hc => ?_
  rw [hb, hs, find_eq_some.mpr ⟨he, rfl⟩] at hc
  cases hc

/-- An order is not there behind a drop exactly when it is the one. -/
theorem isNone_find_drop {f : Entry} (hf : f ∈ b.orders) :
    (if f.ref = ref then none else b.find f.ref).isNone = true ↔ f.ref = ref := by
  split
  · rename_i hr
    exact iff_of_true rfl hr
  · rename_i hr
    rw [find_eq_some.mpr ⟨hf, rfl⟩]
    exact iff_of_false Bool.false_ne_true hr

/-- The order that a drop ends. -/
theorem ended_drop (hb : b.brought m = none) (hs : b.step m = b.drop ref) :
    b.ended m = (b.find ref).toList := by
  have hp : ∀ f ∈ b.orders, (((b.step m).find f.ref).isNone ||
      (b.brought m).any fun g => g.ref == f.ref) = true ↔ f.ref = ref := fun f hf => by
    rw [hb, hs, find_drop, Option.any_none, Bool.or_false]
    exact isNone_find_drop hf
  cases h : b.find ref with
  | none => exact filter_eq_nil_of_ref h fun f hf => (hp f hf).mp
  | some e => exact filter_eq_singleton_of_ref h hp

/-- The order that a reduction ends. -/
theorem ended_reduce (hb : b.brought m = none) (hs : b.step m = b.reduce ref qty) :
    b.ended m = (b.find ref).toList.filter fun e => e.shares - taken qty e.shares == 0 := by
  cases h : b.find ref with
  | none => exact ended_of_step_eq hb (hs.trans (reduce_of_absent (find_eq_none.mp h)))
  | some e =>
    rw [reduce_eq h] at hs
    rw [Option.toList_some, List.filter_singleton]
    by_cases hz : e.shares - taken qty e.shares = 0
    · rw [if_pos hz] at hs
      rw [ended_drop hb hs, h, hz]
      rfl
    · rw [if_neg hz] at hs
      rw [beq_eq_false_iff_ne.mpr hz]
      refine List.filter_eq_nil_iff.mpr fun f hf hc => ?_
      rw [hb, hs, find_setShares, find_eq_some.mpr ⟨hf, rfl⟩] at hc
      cases hc

/-- The order that an add ends. -/
theorem ended_place (hb : b.brought m = some e) (hs : b.step m = b.place e) :
    b.ended m = (b.find e.ref).toList := by
  have hp : ∀ f ∈ b.orders, (((b.step m).find f.ref).isNone ||
      (b.brought m).any fun g => g.ref == f.ref) = true ↔ f.ref = e.ref := fun f hf => by
    rw [hb, hs, find_place, Option.any_some]
    split
    · rename_i hr
      exact iff_of_true (by simp [hr]) hr
    · rename_i hr
      rw [find_eq_some.mpr ⟨hf, rfl⟩]
      exact iff_of_false (by simpa using fun hc => hr hc.symm) hr
  cases h : b.find e.ref with
  | none => exact filter_eq_nil_of_ref h fun f hf => (hp f hf).mp
  | some e' => exact filter_eq_singleton_of_ref h hp

/-- The order that a replace ends, when its new order takes the place of no other. -/
theorem ended_replace {v : OrderReplace} (h : b.find v.oldOrderRef = some e)
    (hnew : (b.drop v.oldOrderRef).find v.newOrderRef = none) : b.ended (.orderReplace v) = [e] := by
  have hs : b.step (.orderReplace v) = (b.drop v.oldOrderRef).place (replacement v e) := by
    simp only [step, h]
  have hb : b.brought (.orderReplace v) = some (replacement v e) := by
    simp only [brought, h, Option.map_some]
  refine filter_eq_singleton_of_ref h fun f hf => ?_
  rw [hb, hs, find_place, Option.any_some]
  by_cases hn : f.ref = (replacement v e).ref
  · rw [if_pos hn]
    refine iff_of_true (by simp [hn]) ?_
    by_contra hne
    exact find_eq_none.mp hnew f (mem_drop.mpr ⟨hf, hne⟩) hn
  · rw [if_neg hn, find_drop]
    have hbeq : ((replacement v e).ref == f.ref) = false := by simpa using fun hc => hn hc.symm
    rw [hbeq, Bool.or_false]
    exact isNone_find_drop hf

end Book

/-! ## Lives -/

/-- A book, when each live order came, and the lifetimes of the orders that have left. -/
structure Lives where
  book : Book
  since : Ref → ℕ
  lifetimes : List ℕ

namespace Lives

def empty : Lives := ⟨Book.empty, fun _ => 0, []⟩

/-- The effect of a message. A clock that goes back makes a lifetime of zero. -/
def step (L : Lives) (m : Message) : Lives where
  book := L.book.step m
  since :=
    match L.book.brought m with
    | some e => Function.update L.since e.ref m.ts
    | none => L.since
  lifetimes := L.lifetimes ++ (L.book.ended m).map fun e => m.ts - L.since e.ref

def run (ms : List Message) : Lives := Runs.run step empty ms

theorem book_run (ms : List Message) : (run ms).book = Runs.run Book.step Book.empty ms := by
  induction ms using List.reverseRecOn with
  | nil => rfl
  | append_singleton ms m ih =>
    rw [run, Runs.run_snoc, Runs.run_snoc, ← ih]
    rfl

end Lives

end Carteret
