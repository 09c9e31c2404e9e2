import Mathlib

/-!
# Lagged generators

The next word of a lagged generator is a function `f` of the last `n` words, the oldest first. It is a machine on a
window of `n` words (`advance`), and in practice a sweep of an array in place, each cell from the cells behind it with
the indices wrapped round. A sweep is `n` steps of the window (`sweep_eq`), so that a reader that sweeps whenever it
has used up its array reads the words of the window (`outputs_eq`).
-/

namespace Lagged

variable {α : Type*} [Inhabited α] {n : ℕ}

/-- The window moves on by one word. -/
def advance (f : (Fin n → α) → α) (w : List α) : List α := w.tail ++ [f fun k => w.getD k default]

def window (f : (Fin n → α) → α) (w : List α) (k : ℕ) : List α := (advance f)^[k] w

/-- The words from those of `w` on. -/
def word (f : (Fin n → α) → α) (w : List α) (k : ℕ) : α := (window f w k).getD 0 default

/-- All cells in place, in order. -/
def sweep (f : (Fin n → α) → α) (mt : List α) : List α :=
  (List.range n).foldl (fun mt i => mt.set i (f fun k => mt.getD ((i + k) % n) default)) mt

/-- The next word of an array of which `s.2` words have been read. -/
def pull (f : (Fin n → α) → α) (s : List α × ℕ) : α × List α × ℕ :=
  let s := if s.2 ≥ n then (sweep f s.1, 0) else s
  (s.1.getD s.2 default, s.1, s.2 + 1)

/-- The next `k` words. -/
def outputs (f : (Fin n → α) → α) : ℕ → List α × ℕ → List α
  | 0, _ => []
  | k + 1, s => (pull f s).1 :: outputs f k (pull f s).2

variable {f : (Fin n → α) → α} {w : List α}

theorem window_succ (f : (Fin n → α) → α) (w : List α) (k : ℕ) : window f w (k + 1) = advance f (window f w k) :=
  Function.iterate_succ_apply' ..

theorem window_add (f : (Fin n → α) → α) (w : List α) (j k : ℕ) :
    window f w (j + k) = window f (window f w j) k := by
  unfold window
  rw [Nat.add_comm, Function.iterate_add_apply]

theorem length_advance (hn : 0 < n) (h : w.length = n) : (advance f w).length = n := by
  unfold advance
  rw [List.length_append, List.length_tail, h, List.length_singleton]
  omega

theorem length_window (hn : 0 < n) (h : w.length = n) (k : ℕ) : (window f w k).length = n := by
  induction k with
  | zero => exact h
  | succ k ih =>
    rw [window_succ]
    exact length_advance hn ih

theorem getD_advance (h : w.length = n) {j : ℕ} (hj : j + 1 < n) :
    (advance f w).getD j default = w.getD (j + 1) default := by
  unfold advance
  rw [List.getD_append _ _ _ _ (by rw [List.length_tail]; omega), List.getD_eq_getElem?_getD,
    List.getD_eq_getElem?_getD, List.getElem?_tail]

/-- A window shows the words from its first one on. -/
theorem getD_window (hn : 0 < n) (h : w.length = n) : ∀ {j : ℕ} (k : ℕ), j < n →
    (window f w k).getD j default = word f w (k + j)
  | 0, _, _ => rfl
  | j + 1, k, hj => by
    have hnext := getD_window hn h (k + 1) (Nat.lt_of_succ_lt hj)
    rw [window_succ, getD_advance (length_window hn h k) hj] at hnext
    rw [hnext, Nat.add_right_comm, Nat.add_assoc]

/-- **The recurrence.** -/
theorem word_add (hn : 0 < n) (h : w.length = n) (k : ℕ) : word f w (k + n) = f fun j => word f w (k + j) := by
  obtain ⟨m, rfl⟩ := Nat.exists_eq_succ_of_ne_zero hn.ne'
  have hlen := length_window (f := f) hn h k
  have hlast := getD_window (f := f) hn h (k + 1) (Nat.lt_succ_self m)
  have hnew : (window f w (k + 1)).getD m default = f fun j => (window f w k).getD j default := by
    rw [window_succ]
    unfold advance
    rw [List.getD_append_right _ _ _ _ (by rw [List.length_tail, hlen]; omega), List.length_tail, hlen]
    simp
  rw [Nat.add_succ, ← Nat.succ_add, ← hlast, hnew]
  exact congrArg f (funext fun j => getD_window hn h k j.isLt)

/-! ## The sweep -/

/-- The cells behind `i` rounds hold the words a block further on. -/
theorem getD_rounds (hn : 0 < n) (h : w.length = n) : ∀ {i : ℕ}, i ≤ n → ∀ {j : ℕ}, j < n →
    ((List.range i).foldl (fun mt i => mt.set i (f fun k => mt.getD ((i + k) % n) default)) w).length = n ∧
      ((List.range i).foldl (fun mt i => mt.set i (f fun k => mt.getD ((i + k) % n) default)) w).getD j default =
        word f w (j + if j < i then n else 0)
  | 0, _, j, hj => ⟨h, by
    rw [if_neg (Nat.not_lt_zero j), Nat.add_zero]
    exact (getD_window (f := f) hn h 0 hj).trans (by rw [Nat.zero_add])⟩
  | i + 1, hi, j, hj => by
    have ih := fun {j : ℕ} => getD_rounds hn h (Nat.le_of_succ_le hi) (j := j)
    rw [List.range_succ, List.foldl_concat]
    set mt := (List.range i).foldl (fun mt i => mt.set i (f fun k => mt.getD ((i + k) % n) default)) w with hmt
    have hlen : mt.length = n := (ih hn).1
    -- the cells that the round reads hold the words from `i` on, whether or not the index has wrapped round
    have hread : ∀ k : Fin n, mt.getD ((i + k) % n) default = word f w (i + k) := by
      intro k
      rw [(ih (Nat.mod_lt _ hn)).2]
      congr 1
      by_cases hwrap : i + k < n
      · rw [Nat.mod_eq_of_lt hwrap, if_neg (by omega), Nat.add_zero]
      · have hmod : (i + k) % n = i + k - n := by
          rw [Nat.mod_eq_sub_mod (Nat.le_of_not_lt hwrap), Nat.mod_eq_of_lt (by omega)]
        rw [hmod, if_pos (by omega)]
        omega
    refine ⟨by rw [List.length_set, hlen], ?_⟩
    rw [List.getD_eq_getElem?_getD, List.getElem?_set]
    by_cases hij : i = j
    · subst hij
      rw [if_pos rfl, if_pos (by omega), Option.getD_some, if_pos (Nat.lt_succ_self i), word_add hn h]
      exact congrArg f (funext hread)
    · have hbefore : j < i + 1 ↔ j < i := by omega
      rw [if_neg hij, ← List.getD_eq_getElem?_getD, (ih hj).2]
      simp only [hbefore]

/-- **A sweep** is `n` steps of the window. -/
theorem sweep_eq (hn : 0 < n) (h : w.length = n) : sweep f w = window f w n := by
  have hlen : (sweep f w).length = n := (getD_rounds hn h le_rfl hn).1
  refine List.ext_getElem (hlen.trans (length_window hn h n).symm) fun j hj hj' => ?_
  have hjn : j < n := hlen ▸ hj
  have hsweep := (getD_rounds (f := f) hn h le_rfl hjn).2
  rw [if_pos hjn] at hsweep
  have hwindow := getD_window (f := f) hn h n hjn
  rw [List.getD_eq_getElem _ _ hj'] at hwindow
  rw [hwindow, Nat.add_comm n j, ← hsweep]
  exact (List.getD_eq_getElem _ _ hj).symm

theorem outputs_window (hn : 0 < n) (h : w.length = n) : ∀ (k c i : ℕ), i ≤ n →
    outputs f k (window f w c, i) = (List.range k).map fun j => word f w (c + i + j)
  | 0, _, _, _ => rfl
  | k + 1, c, i, hi => by
    have hrest : ∀ c i, i < n → (window f w c).getD i default :: outputs f k (window f w c, i + 1) =
        (List.range (k + 1)).map fun j => word f w (c + i + j) := by
      intro c i hi
      rw [outputs_window hn h k c (i + 1) hi, getD_window hn h c hi, List.range_succ_eq_map, List.map_cons,
        List.map_map]
      refine congrArg₂ List.cons rfl (List.map_congr_left fun j _ => congrArg (word f w) ?_)
      omega
    by_cases hfull : i = n
    · have hpull : pull f (window f w c, i) = ((window f w (c + n)).getD 0 default, window f w (c + n), 1) := by
        unfold pull
        rw [if_pos (by rw [hfull]), sweep_eq hn (length_window hn h c), ← window_add]
      rw [outputs, hpull, hrest (c + n) 0 hn, hfull]
      rfl
    · have hpull : pull f (window f w c, i) = ((window f w c).getD i default, window f w c, i + 1) := by
        unfold pull
        rw [if_neg (by dsimp only; omega)]
      rw [outputs, hpull, hrest c i (by omega)]

/-- **The words that are read**, from an array that is used up. -/
theorem outputs_eq (hn : 0 < n) (h : w.length = n) (k : ℕ) :
    outputs f k (w, n) = (List.range k).map fun j => word f w (n + j) := by
  have hout := outputs_window (f := f) hn h k 0 n le_rfl
  rw [Nat.zero_add] at hout
  exact hout

end Lagged
