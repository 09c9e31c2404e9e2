import Mathlib

/-!
# Prefix sums

1. `cumsum`: the sums of the leading elements.
2. `reach`: the first position at which they have reached a bound.
3. `extended`: the sums of a list that is run through twice. A block of it is read as the difference of two entries;
   it runs through the list circularly.
-/

namespace PrefixSums

section Sums

variable {M : Type*} [AddMonoid M]

def cumsumFrom : M → List M → List M
  | _, [] => []
  | acc, x :: xs => (acc + x) :: cumsumFrom (acc + x) xs

/-- The sums of the first, the first two, … elements. -/
def cumsum (xs : List M) : List M := cumsumFrom 0 xs

theorem length_cumsumFrom : ∀ (acc : M) (xs : List M), (cumsumFrom acc xs).length = xs.length
  | _, [] => rfl
  | acc, x :: xs => congrArg Nat.succ (length_cumsumFrom (acc + x) xs)

@[simp] theorem length_cumsum (xs : List M) : (cumsum xs).length = xs.length := length_cumsumFrom 0 xs

theorem getElem?_cumsumFrom : ∀ {xs : List M} {i : ℕ} (acc : M), i < xs.length →
    (cumsumFrom acc xs)[i]? = some (acc + (xs.take (i + 1)).sum)
  | x :: xs, 0, acc, _ => by
    rw [List.take_succ_cons, List.take_zero, List.sum_singleton]
    rfl
  | x :: xs, i + 1, acc, h => by
    rw [List.take_succ_cons, List.sum_cons, ← add_assoc]
    exact getElem?_cumsumFrom (acc + x) (Nat.lt_of_succ_lt_succ h)

theorem getElem?_cumsum {xs : List M} {i : ℕ} (h : i < xs.length) :
    (cumsum xs)[i]? = some (xs.take (i + 1)).sum := by
  unfold cumsum
  rw [getElem?_cumsumFrom 0 h, zero_add]

/-- The sums with the empty one before them. -/
theorem getElem?_zero_cons_cumsum {xs : List M} {i : ℕ} (h : i ≤ xs.length) :
    (0 :: cumsum xs)[i]? = some (xs.take i).sum := by
  cases i with
  | zero => rfl
  | succ i => exact getElem?_cumsum h

end Sums

/-! ## Reaching a bound -/

section Reach

variable {M : Type*} [AddCommMonoid M] [LinearOrder M]

/-- The first position at which the sums have reached `n`, the length when none has. -/
def reach (xs : List M) (n : M) : ℕ := (cumsum xs).findIdx fun c => decide (n ≤ c)

/-- The sums stay below the bound before the position that reaches it. -/
theorem sum_take_reach_lt {xs : List M} {n : M} (hn : 0 < n) : (xs.take (reach xs n)).sum < n := by
  cases hr : reach xs n with
  | zero => exact hn
  | succ i =>
    have hlt : i < (cumsum xs).findIdx fun c => decide (n ≤ c) := by
      change i < reach xs n
      omega
    have hlen : i < xs.length := by
      have hle : ((cumsum xs).findIdx fun c => decide (n ≤ c)) ≤ (cumsum xs).length := List.findIdx_le_length
      rw [length_cumsum] at hle
      omega
    have hnot := List.not_of_lt_findIdx hlt
    rw [decide_eq_false_iff_not, not_le] at hnot
    have hget := getElem?_cumsum hlen
    obtain ⟨_, heq⟩ := List.getElem?_eq_some_iff.mp hget
    rwa [heq] at hnot

/-- The position that reaches the bound. -/
theorem le_sum_take_reach {xs : List M} {n : M} (h : reach xs n < xs.length) :
    n ≤ (xs.take (reach xs n + 1)).sum := by
  have hlen : (cumsum xs).findIdx (fun c => decide (n ≤ c)) < (cumsum xs).length := by rwa [length_cumsum]
  have hfound := @List.findIdx_getElem M (fun c => decide (n ≤ c)) (cumsum xs) hlen
  rw [decide_eq_true_eq] at hfound
  obtain ⟨_, heq⟩ := List.getElem?_eq_some_iff.mp (getElem?_cumsum h)
  exact hfound.trans_eq heq

/-- The sums of a list without a negative element are in order. -/
theorem pairwise_cumsum [IsOrderedAddMonoid M] {xs : List M} (hxs : ∀ x ∈ xs, 0 ≤ x) :
    (cumsum xs).Pairwise (· ≤ ·) := by
  rw [List.pairwise_iff_getElem]
  intro i j hi hj hij
  rw [length_cumsum] at hi hj
  obtain ⟨_, hfirst⟩ := List.getElem?_eq_some_iff.mp (getElem?_cumsum hi)
  obtain ⟨_, hsecond⟩ := List.getElem?_eq_some_iff.mp (getElem?_cumsum hj)
  have htake : xs.take (i + 1) = (xs.take (j + 1)).take (i + 1) := by
    rw [List.take_take, min_eq_left (Nat.succ_le_succ hij.le)]
  rw [hfirst, hsecond, ← List.sum_take_add_sum_drop (xs.take (j + 1)) (i + 1), htake]
  exact le_add_of_nonneg_right (List.sum_nonneg fun x hx =>
    hxs x (List.mem_of_mem_take (List.mem_of_mem_drop hx)))

/-- None of the sums of a list without a negative element is above the whole. -/
theorem le_sum_of_mem_cumsum [IsOrderedAddMonoid M] {xs : List M} (hxs : ∀ x ∈ xs, 0 ≤ x) {c : M}
    (hc : c ∈ cumsum xs) : c ≤ xs.sum := by
  obtain ⟨i, hi, hget⟩ := List.mem_iff_getElem.mp hc
  rw [length_cumsum] at hi
  obtain ⟨_, heq⟩ := List.getElem?_eq_some_iff.mp (getElem?_cumsum hi)
  rw [← hget, heq, ← List.sum_take_add_sum_drop xs (i + 1)]
  exact le_add_of_nonneg_right (List.sum_nonneg fun x hx => hxs x (List.mem_of_mem_drop hx))

/-- A position that divides the sums at the bound is the one that reaches it. -/
theorem eq_reach {xs : List M} {n : M} {i : ℕ} (hi : i ≤ xs.length) (hbelow : ∀ c ∈ (cumsum xs).take i, c < n)
    (habove : ∀ c ∈ (cumsum xs).drop i, n ≤ c) : i = reach xs n := by
  have hlen := length_cumsum xs
  rcases hi.lt_or_eq with hlt | heq
  · have hlt' : i < (cumsum xs).length := hlt.trans_eq hlen.symm
    refine ((List.findIdx_eq hlt').mpr ⟨decide_eq_true (habove _ ?_), fun j hj => decide_eq_false ?_⟩).symm
    · rw [List.drop_eq_getElem_cons hlt']
      exact List.mem_cons_self
    · refine not_le.mpr (hbelow _ (List.mem_take_iff_getElem.mpr ⟨j, ?_, rfl⟩))
      rw [lt_min_iff]
      exact ⟨hj, hj.trans hlt'⟩
  · unfold reach
    rw [heq, ← hlen, eq_comm, List.findIdx_eq_length]
    intro c hc
    rw [heq, ← hlen, List.take_length] at hbelow
    exact decide_eq_false (not_le.mpr (hbelow c hc))

/-- The bound is reached exactly when the whole sum reaches it, where no element is negative. -/
theorem reach_lt_iff [IsOrderedAddMonoid M] {xs : List M} {n : M} (hn : 0 < n) (hxs : ∀ x ∈ xs, 0 ≤ x) :
    reach xs n < xs.length ↔ n ≤ xs.sum := by
  constructor
  · intro h
    refine (le_sum_take_reach h).trans ?_
    rw [← List.sum_take_add_sum_drop xs (reach xs n + 1)]
    exact le_add_of_nonneg_right (List.sum_nonneg fun x hx => hxs x (List.mem_of_mem_drop hx))
  · intro h
    by_contra hge
    have hlt : (xs.take (reach xs n)).sum < n := sum_take_reach_lt hn
    rw [List.take_of_length_le (not_lt.mp hge)] at hlt
    exact absurd h (not_le.mpr hlt)

end Reach

/-! ## Blocks of a list that is run through twice -/

section Blocks

variable {α M : Type*}

/-- The elements from position `s` on, circularly. -/
def circular (xs : List α) (s l : ℕ) : List α := ((xs ++ xs).drop s).take l

theorem length_circular {xs : List α} {s l : ℕ} (hs : s ≤ xs.length) (hl : l ≤ xs.length) :
    (circular xs s l).length = l := by
  rw [circular, List.length_take, List.length_drop, List.length_append]
  omega

variable [AddCommGroup M]

/-- The sums of the list followed by itself, with the empty one before them. -/
def extended (xs : List M) : List M := 0 :: cumsum (xs ++ xs)

@[simp] theorem length_extended (xs : List M) : (extended xs).length = 2 * xs.length + 1 := by
  rw [extended, List.length_cons, length_cumsum, List.length_append, two_mul]

/-- A block's sum is the difference of the entries at its ends. -/
theorem sum_circular {xs : List M} {s l : ℕ} (h : s + l ≤ 2 * xs.length) :
    ∃ a b, (extended xs)[s]? = some a ∧ (extended xs)[s + l]? = some b ∧ b - a = (circular xs s l).sum := by
  have hlen : (xs ++ xs).length = 2 * xs.length := by rw [List.length_append, two_mul]
  refine ⟨_, _, getElem?_zero_cons_cumsum (by omega), getElem?_zero_cons_cumsum (by omega), ?_⟩
  rw [List.take_add, List.sum_append, add_sub_cancel_left, circular]

end Blocks

end PrefixSums
