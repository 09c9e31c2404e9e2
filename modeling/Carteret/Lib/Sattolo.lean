import Mathlib.GroupTheory.Perm.Cycle.Concrete

/-!
# Single cycles

1. `Laps f l`: a step takes each element of `l` to the next one, and the last to the first. Going round visits every
   element once (`Laps.perm`) and starts over (`Laps.iterate_mod`).
2. `shuffle j n`: each position from `n` down is swapped with an earlier one. The product of these swaps is one cycle
   through all positions (`shuffle_eq_formPerm`, `laps_shuffle`).
-/

namespace Sattolo

/-! ## Going round -/

section

variable {α : Type*} {f : α → α} {l : List α}

/-- A step from any element of the list leads to the next, and from the last to the first. -/
def Laps (f : α → α) (l : List α) : Prop :=
  ∀ (i : ℕ) (_ : i < l.length) (_ : (i + 1) % l.length < l.length), f l[i] = l[(i + 1) % l.length]

namespace Laps

theorem mod_lt {i : ℕ} (hi : i < l.length) (k : ℕ) : (i + k) % l.length < l.length :=
  Nat.mod_lt _ (Nat.zero_lt_of_lt hi)

theorem iterate (h : Laps f l) {i : ℕ} (hi : i < l.length) : ∀ (k : ℕ) (_ : (i + k) % l.length < l.length),
    f^[k] l[i] = l[(i + k) % l.length]
  | 0, _ => by simp [Nat.mod_eq_of_lt hi]
  | k + 1, _ => by
    rw [Function.iterate_succ_apply', h.iterate hi k (mod_lt hi k), h _ (mod_lt hi k) (mod_lt (mod_lt hi k) 1)]
    congr 1
    rw [Nat.mod_add_mod, Nat.add_assoc]

theorem iterate_mod (h : Laps f l) {x : α} (hx : x ∈ l) (k : ℕ) : f^[k] x = f^[k % l.length] x := by
  obtain ⟨i, hi, rfl⟩ := List.mem_iff_getElem.mp hx
  rw [h.iterate hi _ (mod_lt hi _), h.iterate hi _ (mod_lt hi _)]
  congr 1
  rw [Nat.add_mod_mod]

/-- A lap from any element visits the whole list, each element once. -/
theorem perm (h : Laps f l) {x : α} (hx : x ∈ l) : ((List.range l.length).map fun k => f^[k] x).Perm l := by
  obtain ⟨i, hi, rfl⟩ := List.mem_iff_getElem.mp hx
  have hrotate : ((List.range l.length).map fun k => f^[k] l[i]) = l.rotate i := by
    refine List.ext_getElem (by simp) fun k hk _ => ?_
    rw [List.getElem_map, List.getElem_range, h.iterate hi _ (mod_lt hi _), List.getElem_rotate]
    simp only [Nat.add_comm]
  rw [hrotate]
  exact List.rotate_perm l i

end Laps

/-- A list without repetitions, as a permutation. -/
theorem laps_formPerm [DecidableEq α] (h : l.Nodup) : Laps l.formPerm l :=
  fun i hi _ => List.formPerm_apply_getElem l h i hi

end

/-! ## The shuffle -/

variable {j : ℕ → ℕ}

/-- Each position from `n` down to `1` swapped with another one. -/
def shuffle (j : ℕ → ℕ) : ℕ → Equiv.Perm ℕ
  | 0 => 1
  | n + 1 => Equiv.swap (n + 1) (j (n + 1)) * shuffle j n

/-- Swaps with earlier positions only make one cycle through all positions. -/
theorem shuffle_eq_formPerm (hj : ∀ i, 0 < i → j i < i) : ∀ n : ℕ,
    ∃ l : List ℕ, l.Nodup ∧ l.Perm (List.range (n + 1)) ∧ shuffle j n = l.formPerm
  | 0 => ⟨[0], List.nodup_singleton 0, List.Perm.refl _, (List.formPerm_singleton 0).symm⟩
  | n + 1 => by
    obtain ⟨l, hnodup, hperm, heq⟩ := shuffle_eq_formPerm hj n
    have hlt : j (n + 1) < n + 1 := hj (n + 1) (Nat.succ_pos n)
    have hmem : j (n + 1) ∈ l := hperm.mem_iff.mpr (List.mem_range.mpr hlt)
    -- the cycle so far, read from the position that is swapped
    obtain ⟨pre, post, rfl⟩ := List.append_of_mem hmem
    have hrotated : (pre ++ j (n + 1) :: post) ~r (j (n + 1) :: (post ++ pre)) :=
      ⟨pre.length, List.rotate_append_length_eq _ _⟩
    have hnew : n + 1 ∉ pre ++ j (n + 1) :: post := fun hc => by
      have := List.mem_range.mp (hperm.mem_iff.mp hc)
      omega
    refine ⟨(n + 1) :: j (n + 1) :: (post ++ pre), ?_, ?_, ?_⟩
    · refine List.nodup_cons.mpr ⟨fun hc => hnew (hrotated.perm.mem_iff.mpr hc), ?_⟩
      exact hrotated.nodup_iff.mp hnodup
    · rw [List.range_succ]
      exact ((hrotated.perm.symm.trans hperm).cons (n + 1)).trans (List.perm_append_singleton _ _).symm
    · rw [shuffle, heq, List.formPerm_eq_of_isRotated hnodup hrotated, List.formPerm_cons_cons]

/-- The shuffle goes round all positions. -/
theorem laps_shuffle (hj : ∀ i, 0 < i → j i < i) (n : ℕ) :
    ∃ l : List ℕ, l.Perm (List.range (n + 1)) ∧ Laps (shuffle j n) l := by
  obtain ⟨l, hnodup, hperm, heq⟩ := shuffle_eq_formPerm hj n
  exact ⟨l, hperm, heq ▸ laps_formPerm hnodup⟩

/-- It stays within the positions. -/
theorem shuffle_lt (hj : ∀ i, 0 < i → j i < i) {n i : ℕ} : shuffle j n i < n + 1 ↔ i < n + 1 := by
  obtain ⟨l, -, hperm, heq⟩ := shuffle_eq_formPerm hj n
  rw [heq, ← List.mem_range, ← hperm.mem_iff, List.formPerm_mem_iff_mem, hperm.mem_iff, List.mem_range]

end Sattolo
