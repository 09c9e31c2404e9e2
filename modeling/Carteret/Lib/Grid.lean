import Mathlib

/-!
# One look in each interval

Times come in any order. The first one opens a grid of intervals of a fixed length, and a time is picked when none
before it has come as far as its interval (`Fresh`). A machine for that keeps the boundary behind the last interval
reached (`Reached`). Whatever the order of the times, each interval is picked once at most (`pairwise_picks`), so few
times are picked in a window (`length_picks_window`).
-/

namespace Grid

/-- The interval of a time, counted from the first one. -/
def cell (step first t : ℕ) : ℕ := (t - first) / step

/-- No time before has come as far as the interval of `t`. -/
def Fresh (step : ℕ) (us : List ℕ) (t : ℕ) : Prop :=
  ∀ first, us.head? = some first → first ≤ t ∧ ∀ u ∈ us, first ≤ u → cell step first u < cell step first t

instance (step : ℕ) (us : List ℕ) (t : ℕ) : Decidable (Fresh step us t) :=
  match us with
  | [] => isTrue fun _ h => by cases h
  | u :: us => decidable_of_iff (u ≤ t ∧ ∀ v ∈ u :: us, u ≤ v → cell step u v < cell step u t)
      ⟨fun h _ hf => Option.some.inj hf ▸ h, fun h => h u rfl⟩

/-- The boundary behind the last interval that the times have reached. -/
structure Reached (step : ℕ) (us : List ℕ) (first next : ℕ) : Prop where
  head : us.head? = some first
  boundary : ∃ u ∈ us, first ≤ u ∧ next = first + step * (cell step first u + 1)
  below : ∀ u ∈ us, first ≤ u → u < next

/-- The picked times. -/
def picks (step : ℕ) : List ℕ → List ℕ → List ℕ
  | _, [] => []
  | us, t :: ts => (if Fresh step us t then [t] else []) ++ picks step (us ++ [t]) ts

section

variable {step first next t u : ℕ} {us ts : List ℕ}

theorem fresh_nil : Fresh step [] t := fun _ h => by cases h

theorem cell_lt_iff (hstep : 0 < step) (c : ℕ) (hle : first ≤ t) : cell step first t < c ↔ t < first + step * c := by
  unfold cell
  rw [Nat.div_lt_iff_lt_mul hstep, Nat.mul_comm]
  omega

theorem reached_first (hstep : 0 < step) (t : ℕ) : Reached step [t] t (t + step) where
  head := rfl
  boundary := by
    refine ⟨t, List.mem_singleton_self t, le_rfl, ?_⟩
    rw [cell, Nat.sub_self, Nat.zero_div, Nat.zero_add, Nat.mul_one]
  below := fun u hu _ => by
    rw [List.mem_singleton.mp hu]
    omega

/-- **A time is picked at or behind the boundary.** -/
theorem Reached.fresh_iff (h : Reached step us first next) (hstep : 0 < step) : Fresh step us t ↔ next ≤ t := by
  obtain ⟨v, hv, hle, hnext⟩ := h.boundary
  constructor
  · intro hf
    obtain ⟨hft, hall⟩ := hf first h.head
    have hlt := hall v hv hle
    rw [hnext, ← Nat.not_lt, ← cell_lt_iff hstep _ hft]
    omega
  · rintro hge _ hhead
    obtain rfl := Option.some.inj (h.head.symm.trans hhead)
    have hft : first ≤ t := by
      have hv' := h.below v hv hle
      omega
    refine ⟨hft, fun u hu hfu => ?_⟩
    have hu' := h.below u hu hfu
    rw [hnext, ← cell_lt_iff hstep _ hfu] at hu'
    rw [hnext, ← Nat.not_lt, ← cell_lt_iff hstep _ hft] at hge
    omega

/-- A time before the boundary leaves it. -/
theorem Reached.stay (h : Reached step us first next) (hlt : t < next) : Reached step (us ++ [t]) first next where
  head := by rw [List.head?_append, h.head, Option.some_or]
  boundary := by
    obtain ⟨v, hv, hle, hnext⟩ := h.boundary
    exact ⟨v, List.mem_append_left _ hv, hle, hnext⟩
  below := fun u hu hfu => by
    rcases List.mem_append.mp hu with hold | hnew
    · exact h.below u hold hfu
    · rw [List.mem_singleton.mp hnew]
      exact hlt

/-- **A picked time moves the boundary** by whole intervals, behind itself. -/
theorem Reached.move (h : Reached step us first next) (hstep : 0 < step) (hge : next ≤ t) :
    Reached step (us ++ [t]) first (next + step * ((t - next) / step + 1)) := by
  obtain ⟨v, hv, hle, hnext⟩ := h.boundary
  have hfn : first ≤ next := by omega
  have hcell : cell step first t = cell step first v + 1 + (t - next) / step := by
    unfold cell
    have hsplit : t - first = (t - next) + step * ((v - first) / step + 1) := by
      unfold cell at hnext
      omega
    rw [hsplit, Nat.add_mul_div_left _ _ hstep, Nat.add_comm]
  refine ⟨by rw [List.head?_append, h.head, Option.some_or], ⟨t, by simp, hfn.trans hge, ?_⟩, fun u hu hfu => ?_⟩
  · rw [hcell, hnext]
    ring
  · rcases List.mem_append.mp hu with hold | hnew
    · exact (h.below u hold hfu).trans_le (Nat.le_add_right _ _)
    · rw [List.mem_singleton.mp hnew]
      have hmod := Nat.lt_mul_div_succ (t - next) hstep
      omega

theorem picks_snoc (t : ℕ) : ∀ us ts, picks step us (ts ++ [t]) =
    picks step us ts ++ if Fresh step (us ++ ts) t then [t] else []
  | us, [] => by simp [picks]
  | us, u :: ts => by
    rw [List.cons_append, picks, picks, picks_snoc t (us ++ [u]) ts, List.append_assoc, List.append_assoc,
      List.singleton_append]

theorem picks_subset (ts : List ℕ) : picks step [] ts ⊆ ts := by
  induction ts using List.reverseRecOn with
  | nil => exact List.Subset.refl _
  | append_singleton ts t ih =>
    rw [picks_snoc, List.nil_append]
    refine List.append_subset.mpr ⟨fun x hx => List.mem_append_left _ (ih hx), ?_⟩
    split_ifs
    · exact List.subset_append_right _ _
    · exact List.nil_subset _

/-- No picked time lies before the first one. -/
theorem first_le_of_mem_picks (hfirst : ts.head? = some first) : ∀ t ∈ picks step [] ts, first ≤ t := by
  induction ts using List.reverseRecOn with
  | nil => cases hfirst
  | append_singleton ts t ih =>
    intro x hx
    rw [picks_snoc, List.nil_append] at hx
    cases ts with
    | nil =>
      obtain rfl : t = first := Option.some.inj hfirst
      rw [if_pos fresh_nil] at hx
      exact (List.mem_singleton.mp hx).ge
    | cons u ts =>
      rcases List.mem_append.mp hx with hold | hnew
      · exact ih hfirst x hold
      · split_ifs at hnew with hf
        · rw [List.mem_singleton.mp hnew]
          exact (hf first hfirst).1
        · cases hnew

/-- **Each interval is picked once at most**, in the order of the intervals. -/
theorem pairwise_picks (hfirst : ts.head? = some first) :
    (picks step [] ts).Pairwise fun t u => cell step first t < cell step first u := by
  induction ts using List.reverseRecOn with
  | nil => exact List.Pairwise.nil
  | append_singleton ts t ih =>
    rw [picks_snoc, List.nil_append]
    cases ts with
    | nil =>
      rw [if_pos fresh_nil]
      exact List.pairwise_singleton _ _
    | cons u ts =>
      have hhead : (u :: ts).head? = some first := hfirst
      refine List.pairwise_append.mpr ⟨ih hhead, ?_, fun x hx y hy => ?_⟩
      · split_ifs
        · exact List.pairwise_singleton _ _
        · exact List.Pairwise.nil
      · split_ifs at hy with hf
        · rw [List.mem_singleton.mp hy]
          exact (hf first hhead).2 x (picks_subset _ hx) (first_le_of_mem_picks hhead x hx)
        · cases hy

/-- Numbers that increase have room between their bounds. -/
theorem length_le_of_increasing {a b : ℕ} : ∀ {cs : List ℕ}, cs.Pairwise (· < ·) → (∀ c ∈ cs, a ≤ c ∧ c ≤ b) →
    cs.length ≤ b + 1 - a := fun {cs} hpair hbound => by
  have hnodup : cs.Nodup := hpair.imp fun h => Nat.ne_of_lt h
  have hsub : cs.toFinset ⊆ Finset.Icc a b := fun c hc =>
    Finset.mem_Icc.mpr (hbound c (List.mem_toFinset.mp hc))
  calc cs.length = cs.toFinset.card := (List.toFinset_card_of_nodup hnodup).symm
    _ ≤ (Finset.Icc a b).card := Finset.card_le_card hsub
    _ = b + 1 - a := Nat.card_Icc a b

/-- **Few times are picked in a window.** -/
theorem length_picks_window (hstep : 0 < step) (ts : List ℕ) (lo width : ℕ) :
    ((picks step [] ts).filter fun t => lo ≤ t ∧ t < lo + width).length ≤ (width - 1) / step + 2 := by
  cases hfirst : ts.head? with
  | none =>
    rw [List.head?_eq_none_iff.mp hfirst]
    exact Nat.zero_le _
  | some first =>
    have hall : (picks step [] ts).Pairwise fun t u => cell step first t < cell step first u := pairwise_picks hfirst
    have hpair := hall.sublist (List.filter_sublist (p := fun t => decide (lo ≤ t ∧ t < lo + width)))
    have hmap := List.pairwise_map.mpr hpair
    have hlen := length_le_of_increasing (a := cell step first lo) (b := cell step first lo + (width - 1) / step + 1)
      hmap fun c hc => ?_
    · rw [List.length_map] at hlen
      generalize (width - 1) / step = q at hlen ⊢
      omega
    · obtain ⟨t, ht, rfl⟩ := List.mem_map.mp hc
      obtain ⟨-, hwin⟩ := List.mem_filter.mp ht
      obtain ⟨hge, hlt⟩ := of_decide_eq_true hwin
      refine ⟨Nat.div_le_div_right (by omega), ?_⟩
      calc cell step first t ≤ ((lo - first) + (width - 1)) / step := Nat.div_le_div_right (by omega)
        _ ≤ (lo - first) / step + (width - 1) / step + 1 := by
          rw [Nat.add_div hstep]
          split_ifs
          · exact le_rfl
          · exact Nat.le_succ _

end

end Grid
