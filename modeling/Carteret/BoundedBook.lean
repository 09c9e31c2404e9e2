import Carteret.Book

/-!
# A book with limits

What a book of fixed capacity is for: it does what `Book.step` says, but an add that finds no room is
refused and changes nothing.
-/

namespace Carteret

/-- What a book has room for: symbols, orders in its pool, references in its index. -/
structure Limits where
  symbols : ℕ
  slots : ℕ
  entries : ℕ

/-- Why an add is refused. -/
inductive Refusal
  | symbol
  | pool
  | index
  deriving DecidableEq

namespace Book

/-- What the add of an order fails for; a live order with its reference gives way first. -/
def refusal (L : Limits) (A : Book) (locate : UInt16) (ref : Ref) : Option Refusal :=
  if locate.toNat ≥ L.symbols then some .symbol
  else if (A.drop ref).orders.length ≥ L.slots then some .pool
  else if (A.drop ref).orders.length ≥ L.entries then some .index
  else none

/-- What a message fails for. Only adds do. -/
def refused (L : Limits) (A : Book) : Message → Option Refusal
  | .addOrder v => A.refusal L v.locate v.orderRef
  | .addOrderMpid v => A.refusal L v.locate v.orderRef
  | _ => none

/-- The effect of a message on the live orders, within the limits. -/
def stepWithin (L : Limits) (A : Book) (m : Message) : Book :=
  if A.refused L m = none then A.step m else A

/-- The orders are within the limits. -/
structure Within (L : Limits) (A : Book) : Prop where
  slots : A.orders.length ≤ L.slots
  entries : A.orders.length ≤ L.entries
  symbols : ∀ e ∈ A.orders, e.locate.toNat < L.symbols

variable {L : Limits} {A : Book} {e : Entry} {ref : Ref} {locate : UInt16}

theorem length_drop_of_find (h : A.find ref = some e) :
    (A.drop ref).orders.length + 1 = A.orders.length := by
  obtain ⟨he, rfl⟩ := find_eq_some.mp h
  exact length_drop A.unique he

/-- An order that gives way makes room for the one that replaces it. -/
theorem Within.refusal_eq_none (h : Within L A) (hfind : A.find ref = some e)
    (hl : locate.toNat < L.symbols) (r : Ref) : (A.drop ref).refusal L locate r = none := by
  have hlen := length_drop_of_find hfind
  have hle : ((A.drop ref).drop r).orders.length ≤ (A.drop ref).orders.length :=
    List.length_filter_le _ _
  have hs := h.slots
  have he := h.entries
  unfold refusal
  rw [if_neg (by omega), if_neg (by omega), if_neg (by omega)]

/-- An order whose reference is live is refused for its symbol only. -/
theorem Within.refusal_of_live (h : Within L A) (hfind : A.find ref = some e)
    (hl : locate.toNat < L.symbols) : A.refusal L locate ref = none := by
  have hdd : (A.drop ref).drop ref = A.drop ref := drop_of_absent fun f hf => (mem_drop.mp hf).2
  have hnone := h.refusal_eq_none hfind hl ref
  unfold refusal at hnone ⊢
  rwa [hdd] at hnone

end Book

end Carteret
