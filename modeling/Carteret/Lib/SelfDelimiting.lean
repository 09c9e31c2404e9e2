import Mathlib

/-!
# Self-delimiting codes

Words are lists of letters. A code is self-delimiting on some values when a code word, followed by anything, tells its
value and what follows it.

1. Codes of one length.
2. Sequences: of as many values (`SelfDelimiting.flatMap_append`), and to the end of the input
   (`SelfDelimiting.flatMap_injective`).
-/

variable {α β : Type*}

/-- A code word tells its value and what follows, among the values with `P`. -/
def SelfDelimiting (P : α → Prop) (code : α → List β) : Prop :=
  ∀ ⦃a a' : α⦄ ⦃x x' : List β⦄, P a → P a' → code a ++ x = code a' ++ x' → a = a' ∧ x = x'

namespace SelfDelimiting

variable {P : α → Prop} {code : α → List β}

/-- As many values, one behind the other, and what follows them. -/
theorem flatMap_append (h : SelfDelimiting P code) {as as' : List α} {x x' : List β} (hlen : as.length = as'.length)
    (has : ∀ a ∈ as, P a) (has' : ∀ a ∈ as', P a) (heq : as.flatMap code ++ x = as'.flatMap code ++ x') :
    as = as' ∧ x = x' := by
  induction as generalizing as' with
  | nil =>
    obtain rfl : as' = [] := List.length_eq_zero_iff.mp hlen.symm
    exact ⟨rfl, heq⟩
  | cons a as ih =>
    obtain ⟨a', as', rfl⟩ : ∃ a' bs, as' = a' :: bs := List.exists_cons_of_length_eq_add_one hlen.symm
    rw [List.flatMap_cons, List.flatMap_cons, List.append_assoc, List.append_assoc] at heq
    obtain ⟨rfl, hrest⟩ := h (has a List.mem_cons_self) (has' a' List.mem_cons_self) heq
    obtain ⟨rfl, hx⟩ := ih (Nat.succ.inj hlen) (fun b hb => has b (List.mem_cons_of_mem a hb))
      (fun b hb => has' b (List.mem_cons_of_mem a hb)) hrest
    exact ⟨rfl, hx⟩

/-- Values up to the end of the input, no word being empty. -/
theorem flatMap_injective (h : SelfDelimiting P code) (hne : ∀ a, P a → code a ≠ []) {as as' : List α}
    (has : ∀ a ∈ as, P a) (has' : ∀ a ∈ as', P a) (heq : as.flatMap code = as'.flatMap code) : as = as' := by
  induction as generalizing as' with
  | nil =>
    cases as' with
    | nil => rfl
    | cons a' as' =>
      have hnil := List.flatMap_eq_nil_iff.mp heq.symm a' List.mem_cons_self
      exact absurd hnil (hne a' (has' a' List.mem_cons_self))
  | cons a as ih =>
    cases as' with
    | nil =>
      have hnil := List.flatMap_eq_nil_iff.mp heq a List.mem_cons_self
      exact absurd hnil (hne a (has a List.mem_cons_self))
    | cons a' as' =>
      rw [List.flatMap_cons, List.flatMap_cons] at heq
      obtain ⟨rfl, hrest⟩ := h (has a List.mem_cons_self) (has' a' List.mem_cons_self) heq
      rw [ih (fun b hb => has b (List.mem_cons_of_mem a hb)) (fun b hb => has' b (List.mem_cons_of_mem a hb)) hrest]

end SelfDelimiting
