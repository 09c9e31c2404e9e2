import Mathlib

/-!
# Words as sets of bit positions

A `BitVec w` is read as the set of positions of its set bits.

1. Setting and clearing one bit with shifted masks.
2. `ctz` is the least element, `w - 1 - clz` the greatest.
3. `x &&& (x - 1)` drops the least element; `members` lists the set by dropping it until nothing is left.
-/

namespace WordSet

variable {w : ℕ} {x : BitVec w} {i j : ℕ}

/-! ## One bit -/

theorem getLsbD_one_shiftLeft (hj : j < w) :
    (1#w <<< j).getLsbD i = decide (i = j) := by
  rw [BitVec.getLsbD_shiftLeft, BitVec.getLsbD_one]
  rw [Bool.eq_iff_iff]
  simp
  omega

theorem getLsbD_set (hj : j < w) :
    (x ||| 1#w <<< j).getLsbD i = (x.getLsbD i || decide (i = j)) := by
  rw [BitVec.getLsbD_or, getLsbD_one_shiftLeft hj]

theorem getLsbD_clear (hj : j < w) :
    (x &&& ~~~(1#w <<< j)).getLsbD i = (x.getLsbD i && decide (i ≠ j)) := by
  rw [BitVec.getLsbD_and, BitVec.getLsbD_not, getLsbD_one_shiftLeft hj]
  by_cases hi : i < w
  · simp [hi]
  · rw [BitVec.getLsbD_of_ge x i (Nat.le_of_not_lt hi)]
    rfl

theorem eq_zero_iff : x = 0#w ↔ ∀ i, x.getLsbD i = false := by
  constructor
  · rintro rfl i; simp
  · intro h
    refine BitVec.eq_of_getLsbD_eq fun i _ => ?_
    rw [h i]
    simp

/-! ## Least and greatest element -/

/-- The position of the lowest set bit. -/
def first (x : BitVec w) : ℕ := x.ctz.toNat

/-- The position of the highest set bit. -/
def last (x : BitVec w) : ℕ := w - 1 - x.clz.toNat

theorem first_mem (hx : x ≠ 0#w) : x.getLsbD (first x) = true := BitVec.getLsbD_true_ctz_of_ne_zero hx

theorem first_le (hi : x.getLsbD i = true) : first x ≤ i := by
  by_contra hlt
  rw [BitVec.getLsbD_false_of_lt_ctz (Nat.lt_of_not_le hlt)] at hi
  cases hi

theorem lt_of_mem (hi : x.getLsbD i = true) : i < w := by
  by_contra hge
  rw [BitVec.getLsbD_of_ge x i (Nat.le_of_not_lt hge)] at hi
  cases hi

theorem last_mem (hx : x ≠ 0#w) : x.getLsbD (last x) = true := by
  have hw : 0 < w := by
    obtain ⟨i, hi⟩ : ∃ i, x.getLsbD i ≠ false := by
      by_contra h
      push Not at h
      exact hx (eq_zero_iff.mpr h)
    exact Nat.zero_lt_of_lt (lt_of_mem (by simpa using hi))
  exact BitVec.getLsbD_true_clz_of_ne_zero hw hx

theorem le_last (hi : x.getLsbD i = true) : i ≤ last x := by
  have hlt : x.toNat < 2 ^ (w - x.clz.toNat) := BitVec.toNat_lt_two_pow_sub_clz
  have hge : 2 ^ i ≤ x.toNat := Nat.ge_two_pow_of_testBit hi
  have hpow : 2 ^ i < 2 ^ (w - x.clz.toNat) := lt_of_le_of_lt hge hlt
  have := (Nat.pow_lt_pow_iff_right (by decide : 1 < 2)).mp hpow
  unfold last
  omega

/-! ## Listing the set -/

/-- `x & (x - 1)` has the bits of `x` but for the lowest. -/
theorem getLsbD_and_sub_one (hx : x ≠ 0#w) :
    (x &&& (x - 1#w)).getLsbD i = (x.getLsbD i && decide (i ≠ first x)) := by
  set k := first x with hk
  have hkw : k < w := lt_of_mem (first_mem hx)
  -- below and at the lowest bit the word is `2 ^ k`
  have hlow : x.toNat % 2 ^ (k + 1) = 2 ^ k := by
    refine Nat.eq_of_testBit_eq fun j => ?_
    rw [Nat.testBit_mod_two_pow, Nat.testBit_two_pow]
    by_cases hj : j < k + 1
    · rw [decide_eq_true hj, Bool.true_and]
      by_cases hjk : j = k
      · rw [hjk, decide_eq_true rfl]
        exact first_mem hx
      · rw [decide_eq_false (Ne.symm hjk)]
        exact BitVec.getLsbD_false_of_lt_ctz (by change j < k; omega)
    · rw [decide_eq_false hj, Bool.false_and, decide_eq_false (by omega)]
  obtain ⟨m, hm⟩ : ∃ m, x.toNat = 2 ^ (k + 1) * m + 2 ^ k :=
    ⟨x.toNat / 2 ^ (k + 1), by rw [← hlow, Nat.div_add_mod]⟩
  have hpos : 0 < 2 ^ k := by positivity
  have hpow : 2 ^ k < 2 ^ (k + 1) := Nat.pow_lt_pow_right (by decide) (Nat.lt_succ_self k)
  have hsub : (x - 1#w).toNat = 2 ^ (k + 1) * m + (2 ^ k - 1) := by
    have hle : 1#w ≤ x := by
      rw [BitVec.le_def, BitVec.toNat_ofNat]
      exact (Nat.mod_le _ _).trans (by omega)
    have hone : (1#w).toNat = 1 := by
      rw [BitVec.toNat_ofNat, Nat.mod_eq_of_lt (Nat.one_lt_two_pow (by omega))]
    rw [BitVec.toNat_sub_of_le hle, hone, hm]
    omega
  rw [BitVec.getLsbD_and]
  change (x.toNat.testBit i && (x - 1#w).toNat.testBit i) = (x.toNat.testBit i && _)
  rw [hsub, hm, Nat.testBit_two_pow_mul_add m hpow,
    Nat.testBit_two_pow_mul_add m (by omega : 2 ^ k - 1 < 2 ^ (k + 1))]
  by_cases hi : i < k + 1
  · rw [if_pos hi, if_pos hi, Nat.testBit_two_pow, Nat.testBit_two_pow_sub_one]
    by_cases hik : i = k
    · rw [hik]; simp
    · simp [hik, Ne.symm hik]
  · rw [if_neg hi, if_neg hi]
    have hik : i ≠ k := by omega
    simp [hik]

/-- The set bits from the lowest on, by the loop that clears the lowest one until the word is zero. -/
def members : ℕ → BitVec w → List ℕ
  | 0, _ => []
  | fuel + 1, x => if x = 0#w then [] else first x :: members fuel (x &&& (x - 1#w))

/-- The loop ends, and it meets every set bit once, in order. -/
theorem members_spec : ∀ {fuel j : ℕ} {x : BitVec w}, (∀ i < j, x.getLsbD i = false) → w ≤ j + fuel →
    (∀ i, i ∈ members fuel x ↔ x.getLsbD i = true) ∧ (members fuel x).Pairwise (· < ·)
  | 0, j, x, hlow, hfuel => by
    refine ⟨fun i => ?_, List.Pairwise.nil⟩
    constructor
    · intro h; cases h
    · intro h
      have := lt_of_mem h
      rw [hlow i (by omega)] at h
      cases h
  | fuel + 1, j, x, hlow, hfuel => by
    unfold members
    by_cases hx : x = 0#w
    · rw [if_pos hx]
      refine ⟨fun i => ?_, List.Pairwise.nil⟩
      rw [eq_zero_iff.mp hx i]
      simp
    · rw [if_neg hx]
      have hj : j ≤ first x := by
        by_contra hlt
        have := hlow _ (Nat.lt_of_not_le hlt)
        rw [first_mem hx] at this
        cases this
      have hrest : ∀ i < first x + 1, (x &&& (x - 1#w)).getLsbD i = false := by
        intro i hi
        rw [getLsbD_and_sub_one hx]
        by_cases hik : i = first x
        · simp [hik]
        · rw [BitVec.getLsbD_false_of_lt_ctz (by change i < first x; omega)]; rfl
      obtain ⟨hmem, hpair⟩ := members_spec hrest (by omega : w ≤ first x + 1 + fuel)
      refine ⟨fun i => ?_, List.pairwise_cons.mpr ⟨fun i hi => ?_, hpair⟩⟩
      · rw [List.mem_cons, hmem, getLsbD_and_sub_one hx]
        by_cases hik : i = first x
        · simp [hik, first_mem hx]
        · simp [hik]
      · by_contra hle
        have := (hmem i).mp hi
        rw [hrest i (by omega)] at this
        cases this

end WordSet
