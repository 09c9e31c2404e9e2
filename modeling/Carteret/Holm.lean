import Mathlib

/-!
# The Holm step-down procedure

`holm` of the held-out study, over any ordered field: the dictionary is the list of its items in insertion order,
and `sorted` is a stable sort by value.

1. The loop.
2. The adjusted value at a rank is the greatest capped multiple up to that rank (`holmAt_iff`).
3. It grows with the p-value and not with the rank (`le_of_isGreatest`), so ties do not matter.
-/

namespace Carteret

section Holm

variable {ν K : Type*} [Field K] [LinearOrder K]

/-- The dictionary of p-values. -/
structure PValues (ν K : Type*) [Field K] [LinearOrder K] where
  entries : List (ν × K)
  nodup : (entries.map Prod.fst).Nodup
  mem_unit : ∀ e ∈ entries, 0 ≤ e.2 ∧ e.2 ≤ 1

/-- `sorted(pvals.items(), key=lambda kv: kv[1])`. -/
def PValues.ordered (pvals : PValues ν K) : List (ν × K) := pvals.entries.mergeSort fun a b => decide (a.2 ≤ b.2)

/-- `p * (family - i)`. -/
def scaled (family i : ℕ) (p : K) : K := p * ((family : K) - (i : K))

/-- The loop, from rank `i` with the adjusted value `prev` before it: the items of `out`. -/
def holmLoop (family : ℕ) : ℕ → K → List (ν × K) → List (ν × K × K × Bool)
  | _, _, [] => []
  | i, prev, (name, p) :: rest =>
    let adj := min 1 (max prev (scaled family i p))
    (name, p, adj, decide (adj < 1 / 20)) :: holmLoop family (i + 1) adj rest

def holm (pvals : PValues ν K) (family : ℕ) : List (ν × K × K × Bool) := holmLoop family 0 0 pvals.ordered

/-- `holm(pvals, family)[name]`. -/
def holmAt [DecidableEq ν] (pvals : PValues ν K) (family : ℕ) (name : ν) : Option (K × K × Bool) :=
  (holm pvals family).lookup name

/-- The capped multiples of the p-values up to rank `i`, with the ranks counted from `start`. -/
def cappedUpTo (family start : ℕ) (ps : List K) (i : ℕ) : Set K :=
  {x | ∃ j ≤ i, ∃ q, ps[j]? = some q ∧ x = min 1 (scaled family (start + j) q)}

/-! ## The loop -/

theorem cappedUpTo_cons_zero (family start : ℕ) (p : K) (ps : List K) :
    cappedUpTo family start (p :: ps) 0 = {min 1 (scaled family start p)} := by
  ext x
  constructor
  · rintro ⟨j, hj, q, hq, rfl⟩
    obtain rfl := Nat.le_zero.mp hj
    obtain rfl := Option.some.inj hq
    rfl
  · rintro rfl
    exact ⟨0, le_rfl, p, rfl, rfl⟩

theorem cappedUpTo_cons_succ (family start : ℕ) (p : K) (ps : List K) (i : ℕ) :
    cappedUpTo family start (p :: ps) (i + 1) =
      insert (min 1 (scaled family start p)) (cappedUpTo family (start + 1) ps i) := by
  ext x
  constructor
  · rintro ⟨j, hj, q, hq, rfl⟩
    cases j with
    | zero =>
      obtain rfl := Option.some.inj hq
      exact Or.inl rfl
    | succ j => exact Or.inr ⟨j, Nat.le_of_succ_le_succ hj, q, hq, by rw [Nat.add_right_comm, Nat.add_assoc]⟩
  · rintro (rfl | ⟨j, hj, q, hq, rfl⟩)
    · exact ⟨0, Nat.zero_le _, p, rfl, rfl⟩
    · exact ⟨j + 1, Nat.succ_le_succ hj, q, hq, by rw [Nat.add_right_comm, Nat.add_assoc]⟩

/-- The entry at a rank: its adjusted value is the greatest of `prev` and the capped multiples up to the rank. -/
theorem holmLoop_spec (family : ℕ) : ∀ (l : List (ν × K)) (start : ℕ) {prev : K}, prev ≤ 1 →
    ∀ {i : ℕ} {name : ν} {p : K}, l[i]? = some (name, p) →
      ∃ adj, (holmLoop family start prev l)[i]? = some (name, p, adj, decide (adj < 1 / 20)) ∧
        IsGreatest (insert prev (cappedUpTo family start (l.map Prod.snd) i)) adj
  | [], _, _, _, _, _, _, h => nomatch h
  | (name', p') :: rest, start, prev, hprev, i, name, p, h => by
    have hadj : min 1 (max prev (scaled family start p')) = max prev (min 1 (scaled family start p')) := by
      rw [min_max_distrib_left, min_eq_right hprev]
    rw [List.map_cons]
    cases i with
    | zero =>
      obtain ⟨rfl, rfl⟩ := Prod.mk.inj (Option.some.inj h)
      refine ⟨_, rfl, ?_⟩
      rw [cappedUpTo_cons_zero, hadj]
      exact isGreatest_pair
    | succ i =>
      have hle : min 1 (max prev (scaled family start p')) ≤ 1 := min_le_left _ _
      obtain ⟨adj, hget, hmem, hub⟩ := holmLoop_spec family rest (start + 1) hle h
      refine ⟨adj, hget, ?_⟩
      rw [cappedUpTo_cons_succ]
      rw [hadj] at hmem hub
      have hmax := hub (Set.mem_insert _ _)
      constructor
      · rcases hmem with rfl | hmem
        · rcases max_choice prev (min 1 (scaled family start p')) with hc | hc
          · exact Or.inl hc
          · exact Or.inr (Or.inl hc)
        · exact Or.inr (Or.inr hmem)
      · rintro x (rfl | rfl | hx)
        · exact (le_max_left _ _).trans hmax
        · exact (le_max_right _ _).trans hmax
        · exact hub (Set.mem_insert_of_mem _ hx)

theorem map_fst_holmLoop (family : ℕ) : ∀ (l : List (ν × K)) (i : ℕ) (prev : K),
    (holmLoop family i prev l).map Prod.fst = l.map Prod.fst
  | [], _, _ => rfl
  | _ :: rest, i, _ => congrArg (_ :: ·) (map_fst_holmLoop family rest (i + 1) _)

/-! ## The dictionary -/

namespace PValues

variable (pvals : PValues ν K)

theorem ordered_perm : pvals.ordered.Perm pvals.entries := List.mergeSort_perm _ _

theorem mem_ordered {e : ν × K} : e ∈ pvals.ordered ↔ e ∈ pvals.entries := pvals.ordered_perm.mem_iff

theorem nodup_ordered : (pvals.ordered.map Prod.fst).Nodup :=
  ((pvals.ordered_perm.map Prod.fst).nodup_iff).mpr pvals.nodup

/-- The p-values in ascending order. -/
def sortedValues : List K := pvals.ordered.map Prod.snd

theorem pairwise_sortedValues : pvals.sortedValues.Pairwise (· ≤ ·) := by
  have h : pvals.ordered.Pairwise fun a b => decide (a.2 ≤ b.2) = true := List.pairwise_mergeSort
    (fun a b c hab hbc => by simpa using (of_decide_eq_true hab).trans (of_decide_eq_true hbc))
    (fun a b => by simpa using le_total a.2 b.2) pvals.entries
  exact List.pairwise_map.mpr (h.imp fun hab => of_decide_eq_true hab)

theorem sortedValues_of_ordered {i : ℕ} {name : ν} {p : K} (h : pvals.ordered[i]? = some (name, p)) :
    pvals.sortedValues[i]? = some p := by
  rw [sortedValues, List.getElem?_map, h, Option.map_some]

/-- The values at two ranks are in order. -/
theorem sortedValues_le {i j : ℕ} {p q : K} (hij : i ≤ j) (hp : pvals.sortedValues[i]? = some p)
    (hq : pvals.sortedValues[j]? = some q) : p ≤ q := by
  obtain ⟨hi, rfl⟩ := List.getElem?_eq_some_iff.mp hp
  obtain ⟨hj, rfl⟩ := List.getElem?_eq_some_iff.mp hq
  rcases hij.lt_or_eq with hlt | rfl
  · exact List.pairwise_iff_getElem.mp pvals.pairwise_sortedValues i j hi hj hlt
  · exact le_rfl

/-- The order of insertion does not show in the sorted values. -/
theorem sortedValues_congr {pvals' : PValues ν K} (h : pvals'.entries.Perm pvals.entries) :
    pvals'.sortedValues = pvals.sortedValues := by
  refine List.Perm.eq_of_pairwise (fun a b _ _ hab hba => le_antisymm hab hba) pvals'.pairwise_sortedValues
    pvals.pairwise_sortedValues ?_
  exact ((pvals'.ordered_perm.trans h).trans pvals.ordered_perm.symm).map Prod.snd

theorem mem_unit_of_rank {i : ℕ} {p : K} (h : pvals.sortedValues[i]? = some p) :
    i < pvals.entries.length ∧ 0 ≤ p ∧ p ≤ 1 := by
  obtain ⟨hi, heq⟩ := List.getElem?_eq_some_iff.mp h
  obtain ⟨e, he, rfl⟩ := List.mem_map.mp (heq ▸ List.getElem_mem hi)
  rw [sortedValues, List.length_map, pvals.ordered_perm.length_eq] at hi
  exact ⟨hi, pvals.mem_unit e (pvals.mem_ordered.mp he)⟩

end PValues

/-! ## The adjusted values -/

section Adjusted

variable [IsStrictOrderedRing K] {pvals : PValues ν K} {family : ℕ} (hfamily : pvals.entries.length ≤ family)

include hfamily

/-- The multiplier of a rank is at least one. -/
theorem one_le_multiplier {i : ℕ} {p : K} (h : pvals.sortedValues[i]? = some p) :
    1 ≤ (family : K) - (i : K) := by
  have hi : i + 1 ≤ family := (pvals.mem_unit_of_rank h).1.trans_le hfamily
  rw [le_sub_iff_add_le']
  exact_mod_cast hi

theorem le_scaled {i : ℕ} {p : K} (h : pvals.sortedValues[i]? = some p) : p ≤ scaled family i p :=
  le_mul_of_one_le_right (pvals.mem_unit_of_rank h).2.1 (one_le_multiplier hfamily h)

theorem cappedUpTo_nonneg {i : ℕ} {x : K} (h : x ∈ cappedUpTo family 0 pvals.sortedValues i) : 0 ≤ x := by
  obtain ⟨j, -, q, hq, rfl⟩ := h
  rw [Nat.zero_add]
  exact le_min zero_le_one ((pvals.mem_unit_of_rank hq).2.1.trans (le_scaled hfamily hq))

/-- The loop starts from zero, which is no greater than any capped multiple. -/
theorem isGreatest_of_insert {i : ℕ} {p adj : K} (hp : pvals.sortedValues[i]? = some p)
    (h : IsGreatest (insert 0 (cappedUpTo family 0 pvals.sortedValues i)) adj) :
    IsGreatest (cappedUpTo family 0 pvals.sortedValues i) adj := by
  obtain ⟨hmem, hub⟩ := h
  have hown : min 1 (scaled family (0 + i) p) ∈ cappedUpTo family 0 pvals.sortedValues i :=
    ⟨i, le_rfl, p, hp, rfl⟩
  refine ⟨?_, fun x hx => hub (Set.mem_insert_of_mem _ hx)⟩
  rcases hmem with rfl | hmem
  · rw [le_antisymm (hub (Set.mem_insert_of_mem _ hown)) (cappedUpTo_nonneg hfamily hown)] at hown
    exact hown
  · exact hmem

/-- A greater p-value has no smaller adjusted value, whatever the two ranks. -/
theorem le_of_isGreatest {i j : ℕ} {p q x y : K} (hp : pvals.sortedValues[i]? = some p)
    (hq : pvals.sortedValues[j]? = some q) (hpq : p ≤ q)
    (hx : IsGreatest (cappedUpTo family 0 pvals.sortedValues i) x)
    (hy : IsGreatest (cappedUpTo family 0 pvals.sortedValues j) y) : x ≤ y := by
  obtain ⟨k, hk, r, hr, rfl⟩ := hx.1
  rcases Nat.lt_or_ge j k with hjk | hkj
  rotate_left
  · exact hy.2 ⟨k, hkj, r, hr, rfl⟩
  · -- beyond rank `j` the values up to `p` are ties of `q`, with smaller multipliers
    refine le_trans ?_ (hy.2 ⟨j, le_rfl, q, hq, rfl⟩)
    have hrq : r ≤ q := (pvals.sortedValues_le hk hr hp).trans hpq
    have hjk' : (j : K) ≤ (k : K) := by exact_mod_cast hjk.le
    rw [Nat.zero_add, Nat.zero_add]
    refine min_le_min le_rfl (mul_le_mul hrq (by linarith) ?_ (pvals.mem_unit_of_rank hq).2.1)
    linarith [one_le_multiplier hfamily hr]

/-- The adjusted value is below the level exactly when each p-value up to the rank is below its own bound. -/
theorem lt_level_iff {i : ℕ} {adj : K} (h : IsGreatest (cappedUpTo family 0 pvals.sortedValues i) adj) :
    adj < 1 / 20 ↔ ∀ j ≤ i, ∀ q, pvals.sortedValues[j]? = some q → q < 1 / 20 / ((family : K) - (j : K)) := by
  have hlevel : ¬ (1 : K) < 1 / 20 := by norm_num
  rw [h.lt_iff]
  constructor
  · intro hall j hj q hq
    have hlt := hall _ ⟨j, hj, q, hq, rfl⟩
    rw [Nat.zero_add, min_lt_iff, or_iff_right hlevel] at hlt
    rw [lt_div_iff₀ (zero_lt_one.trans_le (one_le_multiplier hfamily hq))]
    exact hlt
  · rintro hall x ⟨j, hj, q, hq, rfl⟩
    have hlt := hall j hj q hq
    rw [lt_div_iff₀ (zero_lt_one.trans_le (one_le_multiplier hfamily hq))] at hlt
    rw [Nat.zero_add]
    exact min_lt_of_right_lt hlt

/-- The entry at a rank. -/
theorem exists_adjusted {i : ℕ} {name : ν} {p : K}
    (h : pvals.ordered[i]? = some (name, p)) :
    ∃ adj, (holm pvals family)[i]? = some (name, p, adj, decide (adj < 1 / 20)) ∧
      IsGreatest (cappedUpTo family 0 pvals.sortedValues i) adj := by
  obtain ⟨adj, hadj, hgreatest⟩ := holmLoop_spec family pvals.ordered 0 zero_le_one h
  exact ⟨adj, hadj, isGreatest_of_insert hfamily (pvals.sortedValues_of_ordered h) hgreatest⟩

end Adjusted

/-! ## The result -/

section Result

variable [IsStrictOrderedRing K] [DecidableEq ν] {pvals : PValues ν K} {family : ℕ}

theorem lookup_eq_some_iff_mem {β : Type*} {l : List (ν × β)} (h : (l.map Prod.fst).Nodup) {name : ν} {b : β} :
    l.lookup name = some b ↔ (name, b) ∈ l := by
  constructor
  · intro hl
    obtain ⟨l₁, l₂, rfl, -⟩ := List.lookup_eq_some_iff.mp hl
    simp
  · intro hl
    obtain ⟨l₁, l₂, rfl⟩ := List.append_of_mem hl
    refine List.lookup_eq_some_iff.mpr ⟨l₁, l₂, rfl, fun e he => bne_iff_ne.mpr ?_⟩
    rw [List.map_append, List.map_cons, List.nodup_append] at h
    exact Ne.symm (h.2.2 e.1 (List.mem_map_of_mem he) name List.mem_cons_self)

/-- What the result has for a name, by the rank of its item. -/
theorem holmAt_iff (hfamily : pvals.entries.length ≤ family) {name : ν} {r : K × K × Bool} :
    holmAt pvals family name = some r ↔ ∃ i, pvals.ordered[i]? = some (name, r.1) ∧
      IsGreatest (cappedUpTo family 0 pvals.sortedValues i) r.2.1 ∧ r.2.2 = decide (r.2.1 < 1 / 20) := by
  have hnames := map_fst_holmLoop family pvals.ordered 0 0
  have hnodup : ((holm pvals family).map Prod.fst).Nodup := hnames ▸ pvals.nodup_ordered
  unfold holmAt
  rw [lookup_eq_some_iff_mem hnodup]
  constructor
  · intro hmem
    obtain ⟨i, hi⟩ := List.mem_iff_getElem?.mp hmem
    have hlen : i < pvals.ordered.length := by
      have hlt := (List.getElem?_eq_some_iff.mp hi).1
      have heq := congrArg List.length hnames
      rw [List.length_map, List.length_map] at heq
      exact hlt.trans_eq heq
    obtain ⟨name', p, hget⟩ : ∃ name' p, pvals.ordered[i]? = some (name', p) :=
      ⟨_, _, List.getElem?_eq_getElem hlen⟩
    obtain ⟨adj, hadj, hgreatest⟩ := exists_adjusted hfamily hget
    obtain ⟨rfl, rfl⟩ := Prod.mk.inj (Option.some.inj (hi.symm.trans hadj))
    exact ⟨i, hget, hgreatest, rfl⟩
  · rintro ⟨i, hi, hgreatest, hrejected⟩
    obtain ⟨adj, hadj, hgreatest'⟩ := exists_adjusted hfamily hi
    obtain rfl := hgreatest.unique hgreatest'
    rw [← hrejected] at hadj
    exact List.mem_of_getElem? hadj

/-- A name's item has the same p-value at its ranks in both orders, so the same adjusted value. -/
theorem holmAt_of_perm {pvals' : PValues ν K} (hperm : pvals'.entries.Perm pvals.entries)
    (hfamily : pvals.entries.length ≤ family) {name : ν} {r : K × K × Bool}
    (h : holmAt pvals family name = some r) : holmAt pvals' family name = some r := by
  have hfamily' : pvals'.entries.length ≤ family := hperm.length_eq.trans_le hfamily
  have hvalues := pvals.sortedValues_congr hperm
  obtain ⟨i, hi, hgreatest, hrejected⟩ := (holmAt_iff hfamily).mp h
  have hmem : (name, r.1) ∈ pvals'.ordered :=
    pvals'.mem_ordered.mpr (hperm.mem_iff.mpr (pvals.mem_ordered.mp (List.mem_of_getElem? hi)))
  obtain ⟨j, hj⟩ := List.mem_iff_getElem?.mp hmem
  obtain ⟨adj, -, hgreatest'⟩ := exists_adjusted hfamily' hj
  have hri := pvals.sortedValues_of_ordered hi
  have hrj := pvals'.sortedValues_of_ordered hj
  rw [hvalues] at hgreatest' hrj
  obtain rfl : adj = r.2.1 := le_antisymm (le_of_isGreatest hfamily hrj hri le_rfl hgreatest' hgreatest)
    (le_of_isGreatest hfamily hri hrj le_rfl hgreatest hgreatest')
  refine (holmAt_iff hfamily').mpr ⟨j, hj, ?_, hrejected⟩
  rw [hvalues]
  exact hgreatest'

/-- **The step-down procedure.** The p-values are sorted; the adjusted value of the item at rank `i` is the greatest
of `min 1 (p * (family - rank))` up to that rank and no smaller than its p-value, and the item is rejected exactly
when every p-value up to its rank is below `0.05 / (family - rank)`. The adjusted value is monotone in the p-value,
and the result does not depend on the order of insertion. -/
theorem holm_stepDown (hfamily : pvals.entries.length ≤ family) :
    (pvals.ordered.Perm pvals.entries ∧ pvals.sortedValues.Pairwise (· ≤ ·)) ∧
      (∀ (i : ℕ) (name : ν) (p : K), pvals.ordered[i]? = some (name, p) →
        ∃ adj rejected, holmAt pvals family name = some (p, adj, rejected) ∧
          IsGreatest (cappedUpTo family 0 pvals.sortedValues i) adj ∧ p ≤ adj ∧
          (rejected = true ↔ ∀ j ≤ i, ∀ q, pvals.sortedValues[j]? = some q →
            q < 1 / 20 / ((family : K) - (j : K)))) ∧
      (∀ (name name' : ν) (r r' : K × K × Bool), holmAt pvals family name = some r →
        holmAt pvals family name' = some r' → r.1 ≤ r'.1 → r.2.1 ≤ r'.2.1) ∧
      ∀ pvals' : PValues ν K, pvals'.entries.Perm pvals.entries →
        ∀ name, holmAt pvals' family name = holmAt pvals family name := by
  refine ⟨⟨pvals.ordered_perm, pvals.pairwise_sortedValues⟩, fun i name p hget => ?_, ?_, ?_⟩
  · obtain ⟨adj, -, hadj⟩ := exists_adjusted hfamily hget
    have hp := pvals.sortedValues_of_ordered hget
    refine ⟨adj, decide (adj < 1 / 20), (holmAt_iff hfamily).mpr ⟨i, hget, hadj, rfl⟩, hadj, ?_, ?_⟩
    · have hle : p ≤ min 1 (scaled family i p) :=
        le_min (pvals.mem_unit_of_rank hp).2.2 (le_scaled hfamily hp)
      exact hle.trans (hadj.2 ⟨i, le_rfl, p, hp, by rw [Nat.zero_add]⟩)
    · rw [decide_eq_true_eq]
      exact lt_level_iff hfamily hadj
  · intro name name' r r' hr hr' hle
    obtain ⟨i, hi, hgreatest, -⟩ := (holmAt_iff hfamily).mp hr
    obtain ⟨j, hj, hgreatest', -⟩ := (holmAt_iff hfamily).mp hr'
    exact le_of_isGreatest hfamily (pvals.sortedValues_of_ordered hi) (pvals.sortedValues_of_ordered hj) hle hgreatest
      hgreatest'
  · intro pvals' hperm name
    refine Option.ext fun r => ⟨fun h => ?_, fun h => holmAt_of_perm hperm hfamily h⟩
    exact holmAt_of_perm hperm.symm (hperm.length_eq.trans_le hfamily) h

/-- Two names with the same p-value. -/
def tiedValues : PValues (Fin 3) ℚ where
  entries := [(1, 1 / 100), (0, 1 / 50), (2, 1 / 50)]
  nodup := by decide
  mem_unit := by decide +kernel

/-- In a family of four the second of them has the multiple of the first. -/
theorem holm_stepDown_tied : ∃ adj rejected, holmAt tiedValues 4 2 = some (1 / 50, adj, rejected) ∧
    (3 / 50 : ℚ) ≤ adj := by
  have hordered : tiedValues.ordered = tiedValues.entries := List.mergeSort_of_pairwise (by decide +kernel)
  obtain ⟨adj, rejected, hat, hgreatest, -, -⟩ :=
    (holm_stepDown (show tiedValues.entries.length ≤ 4 by decide)).2.1 2 2 (1 / 50) (by rw [hordered]; rfl)
  refine ⟨adj, rejected, hat, hgreatest.2 ⟨1, by decide, 1 / 50, ?_, by decide +kernel⟩⟩
  rw [PValues.sortedValues, hordered]
  rfl

end Result

end Holm

end Carteret
