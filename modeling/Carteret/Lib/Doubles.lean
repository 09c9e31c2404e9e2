import Mathlib

/-!
# Whole numbers as doubles

A double has 53 significant bits. A number that needs more is rounded, to one of the two doubles next to it; which of the
two is the platform's choice, and `Rounding` leaves it open.

1. The whole numbers that are doubles; all up to `2 ^ 53` are, and no odd one above.
2. Roundings; there are one up and one down.
3. A sum of two rounded numbers that is the same for every rounding was not rounded (`forall_round_add_iff`).
-/

namespace Doubles

/-- The number has at most 53 significant bits. -/
def IsDouble (n : ℕ) : Prop := ∃ m e, m < 2 ^ 53 ∧ n = m * 2 ^ e

variable {n : ℕ}

theorem isDouble_of_le (h : n ≤ 2 ^ 53) : IsDouble n := by
  rcases h.lt_or_eq with hlt | heq
  · exact ⟨n, 0, hlt, (mul_one n).symm⟩
  · exact ⟨1, 53, by norm_num, by rw [heq, one_mul]⟩

theorem isDouble_pow (e : ℕ) : IsDouble (2 ^ e) := ⟨1, e, by norm_num, (one_mul _).symm⟩

/-- An odd number uses its last bit. -/
theorem not_isDouble (hodd : Odd n) (hbig : 2 ^ 53 ≤ n) : ¬ IsDouble n := by
  rintro ⟨m, e, hm, rfl⟩
  cases e with
  | zero =>
    rw [pow_zero, mul_one] at hbig
    exact absurd hbig (not_le.mpr hm)
  | succ e =>
    rw [pow_succ, ← mul_assoc, Nat.odd_mul] at hodd
    exact absurd hodd.2 (by decide)

/-! ## Roundings -/

/-- Order is kept and a double is not moved. -/
structure Rounding (round : ℕ → ℕ) : Prop where
  isDouble : ∀ n, IsDouble (round n)
  mono : Monotone round
  eq_self : ∀ {n}, IsDouble n → round n = n

theorem exists_isDouble_ge (n : ℕ) : ∃ m, IsDouble m ∧ n ≤ m := ⟨2 ^ n, isDouble_pow n, Nat.lt_two_pow_self.le⟩

open Classical in
/-- The least double that is not below. -/
noncomputable def up (n : ℕ) : ℕ := Nat.find (exists_isDouble_ge n)

open Classical in
/-- The greatest double that is not above. -/
noncomputable def down (n : ℕ) : ℕ := Nat.findGreatest IsDouble n

theorem le_up (n : ℕ) : n ≤ up n := by
  classical
  exact (Nat.find_spec (exists_isDouble_ge n)).2

theorem up_le {m : ℕ} (hm : IsDouble m) (h : n ≤ m) : up n ≤ m := by
  classical
  exact Nat.find_min' (exists_isDouble_ge n) ⟨hm, h⟩

theorem isDouble_up (n : ℕ) : IsDouble (up n) := by
  classical
  exact (Nat.find_spec (exists_isDouble_ge n)).1

theorem down_le (n : ℕ) : down n ≤ n := by
  classical
  exact Nat.findGreatest_le n

theorem le_down {m : ℕ} (hm : IsDouble m) (h : m ≤ n) : m ≤ down n := by
  classical
  exact Nat.le_findGreatest h hm

theorem isDouble_down (n : ℕ) : IsDouble (down n) := by
  classical
  exact Nat.findGreatest_spec (P := IsDouble) n.zero_le (isDouble_of_le (Nat.zero_le _))

theorem rounding_up : Rounding up where
  isDouble := isDouble_up
  mono _ n h := up_le (isDouble_up n) (h.trans (le_up n))
  eq_self h := (up_le h le_rfl).antisymm (le_up _)

theorem rounding_down : Rounding down where
  isDouble := isDouble_down
  mono m _ h := le_down (isDouble_down m) ((down_le m).trans h)
  eq_self h := (down_le _).antisymm (le_down h le_rfl)

/-! ## Sums -/

variable {a b c : ℕ}

theorem Rounding.add_eq {round : ℕ → ℕ} (h : Rounding round) (ha : IsDouble a) (hb : IsDouble b)
    (hab : IsDouble (a + b)) : round (round a + round b) = a + b := by
  rw [h.eq_self ha, h.eq_self hb, h.eq_self hab]

/-- A sum comes out as `c` however it is rounded, exactly when it is `c` and nothing is rounded. -/
theorem forall_round_add_iff : (∀ round, Rounding round → round (round a + round b) = c) ↔
    a + b = c ∧ IsDouble a ∧ IsDouble b ∧ IsDouble c := by
  constructor
  · intro h
    have hup : up a + up b ≤ c := (le_up _).trans_eq (h up rounding_up)
    have hdown : c ≤ down a + down b := (h down rounding_down).symm.trans_le (down_le _)
    have ha := le_up a
    have hb := le_up b
    have ha' := down_le a
    have hb' := down_le b
    have haa : up a = a := by omega
    have hbb : up b = b := by omega
    have hc : c = a + b := by omega
    refine ⟨hc.symm, haa ▸ isDouble_up a, hbb ▸ isDouble_up b, ?_⟩
    rw [← h up rounding_up]
    exact isDouble_up _
  · rintro ⟨rfl, ha, hb, hc⟩ round hround
    exact hround.add_eq ha hb hc

end Doubles
