import Mathlib.Algebra.BigOperators.Group.Finset.Piecewise

/-!
# Tables of totals

Each record is filed under a key and adds its value to the total of that key.

1. `table key val rs`: the totals. One more record touches one key (`table_snoc`).
2. The totals of all keys add up to the total of the records (`sum_table`), and so they do within the records that
   agree on something else (`table_pair`).
-/

namespace Tally

variable {ρ κ ι M : Type*} [DecidableEq κ] [DecidableEq ι] [AddCommMonoid M] {key : ρ → κ} {val : ρ → M}

/-- What the records with the key `k` add up to. -/
def table (key : ρ → κ) (val : ρ → M) (rs : List ρ) (k : κ) : M := ((rs.filter (key · = k)).map val).sum

@[simp] theorem table_nil : table key val [] = fun _ => 0 := rfl

theorem table_cons (r : ρ) (rs : List ρ) (k : κ) :
    table key val (r :: rs) k = (if key r = k then val r else 0) + table key val rs k := by
  unfold table
  rw [List.filter_cons]
  by_cases h : key r = k
  · rw [if_pos (by simpa using h), if_pos h, List.map_cons, List.sum_cons]
  · rw [if_neg (by simpa using h), if_neg h, zero_add]

/-- **One more record.** -/
theorem table_snoc (rs : List ρ) (r : ρ) : table key val (rs ++ [r]) =
    Function.update (table key val rs) (key r) (table key val rs (key r) + val r) := by
  funext k
  unfold table
  rw [List.filter_append, List.map_append, List.sum_append]
  by_cases h : k = key r
  · rw [h, Function.update_self]
    simp
  · rw [Function.update_of_ne h]
    simp [Ne.symm h]

/-- A record that is filed or not. -/
theorem table_filter_snoc (p : ρ → Bool) (rs : List ρ) (r : ρ) : table key val ((rs ++ [r]).filter p) =
    if p r then Function.update (table key val (rs.filter p)) (key r) (table key val (rs.filter p) (key r) + val r)
    else table key val (rs.filter p) := by
  rw [List.filter_append, List.filter_singleton]
  cases p r with
  | false => simp
  | true => exact table_snoc _ r

/-- The keys together hold every record. -/
theorem sum_table {S : Finset κ} : ∀ {rs : List ρ}, (∀ r ∈ rs, key r ∈ S) →
    ∑ k ∈ S, table key val rs k = (rs.map val).sum
  | [], _ => Finset.sum_const_zero
  | r :: rs, h => by
    have hr : key r ∈ S := h r List.mem_cons_self
    simp only [table_cons, Finset.sum_add_distrib, Finset.sum_ite_eq, if_pos hr, List.map_cons, List.sum_cons]
    rw [sum_table fun r' hr' => h r' (List.mem_cons_of_mem _ hr')]

theorem table_pair {key' : ρ → ι} (rs : List ρ) (k : κ) (i : ι) :
    table (fun r => (key r, key' r)) val rs (k, i) = table key' val (rs.filter (key · = k)) i := by
  unfold table
  rw [List.filter_filter]
  congr 2
  refine List.filter_congr fun r _ => ?_
  rw [Bool.eq_iff_iff]
  simp [and_comm]

/-- The keys together hold the records that agree on another key. -/
theorem sum_pair {key' : ρ → ι} {S : Finset ι} {rs : List ρ} {k : κ} (h : ∀ r ∈ rs, key r = k → key' r ∈ S) :
    ∑ i ∈ S, table (fun r => (key r, key' r)) val rs (k, i) = table key val rs k := by
  simp only [table_pair]
  refine sum_table fun r hr => ?_
  obtain ⟨hmem, hk⟩ := List.mem_filter.mp hr
  exact h r hmem (by simpa using hk)

theorem table_eq_zero {rs : List ρ} {k : κ} (h : ∀ r ∈ rs, key r ≠ k) : table key val rs k = 0 := by
  have hnone : rs.filter (key · = k) = [] := List.filter_eq_nil_iff.mpr fun r hr => by simpa using h r hr
  unfold table
  rw [hnone]
  rfl

/-- Records that are left out of the table do not matter where there are none. -/
theorem table_filter {p : ρ → Bool} {rs : List ρ} {k : κ} (h : ∀ r ∈ rs, key r = k → p r = true) :
    table key val (rs.filter p) k = table key val rs k := by
  unfold table
  rw [List.filter_filter]
  congr 2
  refine List.filter_congr fun r hr => ?_
  by_cases hk : key r = k
  · simp [hk, h r hr hk]
  · simp [hk]

/-- What every record has and sums keep, the totals have. -/
theorem table_induction {P : M → Prop} (h0 : P 0) (hadd : ∀ a b, P a → P b → P (a + b)) {rs : List ρ}
    (h : ∀ r ∈ rs, P (val r)) (k : κ) : P (table key val rs k) := by
  induction rs with
  | nil => exact h0
  | cons r rs ih =>
    rw [table_cons]
    refine hadd _ _ ?_ (ih fun r' hr' => h r' (List.mem_cons_of_mem _ hr'))
    split_ifs
    · exact h r List.mem_cons_self
    · exact h0

end Tally
