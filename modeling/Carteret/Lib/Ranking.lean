import Mathlib.Data.List.Sort

/-!
# The best of a list

A list without duplicates in a linear order, best first, cut after `n`: who is in the cut (`mem_take_iff`), and when
a filter before the ranking changes nothing (`top_filter_eq_iff`).
-/

namespace Ranking

variable {α : Type*}

/-- A filter before a cut. -/
theorem take_filter_eq_iff (p : α → Bool) : ∀ (n : ℕ) (s : List α),
    (s.filter p).take n = s.take n ↔ ∀ x ∈ s.take n, p x = true
  | 0, s => by simp
  | n + 1, [] => by simp
  | n + 1, a :: s => by
    rw [List.take_succ_cons, List.forall_mem_cons]
    cases ha : p a with
    | true =>
      rw [List.filter_cons_of_pos ha, List.take_succ_cons, List.cons_inj_right, take_filter_eq_iff p n s]
      exact (and_iff_right rfl).symm
    | false =>
      rw [List.filter_cons_of_neg (by rw [ha]; exact Bool.false_ne_true)]
      refine iff_of_false (fun heq => ?_) fun h => Bool.false_ne_true h.1
      have hmem : a ∈ s.filter p := List.mem_of_mem_take (heq ▸ List.mem_cons_self)
      rw [List.mem_filter, ha] at hmem
      exact Bool.false_ne_true hmem.2

variable [LinearOrder α]

/-- The list, best first. -/
def ranked (l : List α) : List α := l.insertionSort (· ≥ ·)

def top (n : ℕ) (l : List α) : List α := (ranked l).take n

variable {l l' : List α}

theorem ranked_perm (l : List α) : (ranked l).Perm l := List.perm_insertionSort _ l

theorem pairwise_ranked (l : List α) : (ranked l).Pairwise (· ≥ ·) := List.pairwise_insertionSort _ l

/-- The order in which the list comes makes no difference. -/
theorem ranked_congr (h : l.Perm l') : ranked l = ranked l' :=
  ((ranked_perm l).trans (h.trans (ranked_perm l').symm)).eq_of_pairwise'
    (pairwise_ranked l) (pairwise_ranked l')

theorem ranked_filter (p : α → Bool) (l : List α) : ranked (l.filter p) = (ranked l).filter p :=
  ((ranked_perm _).trans ((ranked_perm l).filter p).symm).eq_of_pairwise'
    (pairwise_ranked _) ((pairwise_ranked l).filter p)

theorem pairwise_gt_ranked (h : l.Nodup) : (ranked l).Pairwise (· > ·) :=
  ((pairwise_ranked l).sortedGE.sortedGT_of_nodup ((ranked_perm l).nodup_iff.mpr h)).pairwise

/-- Among the first `n` are those that fewer than `n` beat. -/
theorem mem_take_iff : ∀ {s : List α} (_ : s.Pairwise (· > ·)) (n : ℕ) (x : α),
    x ∈ s.take n ↔ x ∈ s ∧ s.countP (fun y => decide (x < y)) < n
  | [], _, n, x => by simp
  | a :: s, _, 0, x => by simp
  | a :: s, h, n + 1, x => by
    obtain ⟨ha, hs⟩ := List.pairwise_cons.mp h
    rw [List.take_succ_cons, List.mem_cons, List.mem_cons, mem_take_iff hs n x]
    rcases lt_trichotomy x a with hx | rfl | hx
    · rw [List.countP_cons_of_pos (by exact decide_eq_true hx), or_iff_right hx.ne, or_iff_right hx.ne,
        Nat.add_lt_add_iff_right]
    · have hnone : (x :: s).countP (fun y => decide (x < y)) = 0 := by
        rw [List.countP_eq_zero]
        intro y hy
        rcases List.mem_cons.mp hy with rfl | hy
        · simp
        · simpa using (ha y hy).le
      rw [hnone]
      simp
    · have hout : x ∉ s := fun hxs => lt_asymm hx (ha x hxs)
      simp [hout, hx.ne']

/-- **A filter changes the best `n` exactly when it drops one of them.** -/
theorem top_filter_eq_iff (h : l.Nodup) (p : α → Bool) (n : ℕ) :
    top n (l.filter p) = top n l ↔ ∀ x ∈ l, l.countP (fun y => decide (x < y)) < n → p x = true := by
  unfold top
  rw [ranked_filter, take_filter_eq_iff]
  refine forall_congr' fun x => ?_
  rw [mem_take_iff (pairwise_gt_ranked h), (ranked_perm l).mem_iff, (ranked_perm l).countP_eq, and_imp]

/-- The same for a filter on a part of the entries, read after the cut. -/
theorem map_top_filter_eq_iff {β : Type*} (h : l.Nodup) (f : α → β) (q : β → Bool) (n : ℕ) :
    (top n (l.filter fun x => q (f x))).map f = (top n l).map f ↔
      ∀ x ∈ l, l.countP (fun y => decide (x < y)) < n → q (f x) = true := by
  constructor
  · intro heq x hx hcount
    have hmem : x ∈ top n l :=
      (mem_take_iff (pairwise_gt_ranked h) n x).mpr ⟨(ranked_perm l).mem_iff.mpr hx, by rwa [(ranked_perm l).countP_eq]⟩
    obtain ⟨y, hy, hyx⟩ := List.mem_map.mp (heq ▸ List.mem_map_of_mem hmem)
    rw [← hyx]
    exact (List.mem_filter.mp ((ranked_perm _).mem_iff.mp (List.mem_of_mem_take hy))).2
  · intro hall
    rw [(top_filter_eq_iff h (fun x => q (f x)) n).mpr hall]

end Ranking
