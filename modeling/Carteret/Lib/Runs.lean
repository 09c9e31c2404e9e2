import Mathlib

/-!
# Runs of a deterministic machine

A machine is a step function `σ → ι → σ`. `run` feeds it a list of inputs. An invariant is proved for
one step and carried over the whole run here, once: plainly (`run_invariant`), for runs whose steps all
meet a condition (`Along.invariant`), and together with the history (`run_history`). `run_simulation`
carries a relation between two machines along a pair of runs; `both` runs them side by side, for conditions that
speak of the two. `prefixes_iff_along_of` is for a property that some steps break: it holds all along a run exactly
when every step meets the condition that keeps it.
`fixed_of_rounds` is for machines whose steps lower a rank or do nothing.
-/

namespace Runs

variable {σ τ ι : Type*}

/-- The state after the inputs `is`. -/
def run (step : σ → ι → σ) (s : σ) (is : List ι) : σ := is.foldl step s

variable {step : σ → ι → σ}

@[simp] theorem run_nil (s : σ) : run step s [] = s := rfl

@[simp] theorem run_cons (s : σ) (i : ι) (is : List ι) :
    run step s (i :: is) = run step (step s i) is := rfl

theorem run_append (s : σ) (is js : List ι) :
    run step s (is ++ js) = run step (run step s is) js := List.foldl_append

theorem run_snoc (s : σ) (is : List ι) (i : ι) :
    run step s (is ++ [i]) = step (run step s is) i := by
  rw [run_append]; rfl

/-- What one step preserves, a run preserves. -/
theorem run_invariant {Inv : σ → Prop} (hstep : ∀ s i, Inv s → Inv (step s i)) :
    ∀ (is : List ι) (s : σ), Inv s → Inv (run step s is)
  | [], _, h => h
  | i :: is, s, h => run_invariant hstep is (step s i) (hstep s i h)

/-- An invariant that speaks of the inputs fed so far. -/
theorem run_history {P : List ι → σ → Prop} {s : σ} (h0 : P [] s)
    (hstep : ∀ is i, P is (run step s is) → P (is ++ [i]) (step (run step s is) i)) (is : List ι) :
    P is (run step s is) := by
  induction is using List.reverseRecOn with
  | nil => exact h0
  | append_singleton is i ih => rw [run_snoc]; exact hstep is i ih

/-- A relation that paired steps preserve holds after paired runs. -/
theorem run_simulation {step' : τ → ι → τ} {R : σ → τ → Prop}
    (hstep : ∀ s t i, R s t → R (step s i) (step' t i)) :
    ∀ (is : List ι) (s : σ) (t : τ), R s t → R (run step s is) (run step' t is)
  | [], _, _, h => h
  | i :: is, s, t, h => run_simulation hstep is _ _ (hstep s t i h)

/-- Two machines side by side. -/
def both (step : σ → ι → σ) (step' : τ → ι → τ) (p : σ × τ) (i : ι) : σ × τ := (step p.1 i, step' p.2 i)

theorem run_both {step' : τ → ι → τ} (p : σ × τ) (is : List ι) :
    run (both step step') p is = (run step p.1 is, run step' p.2 is) := by
  induction is generalizing p with
  | nil => rfl
  | cons i is ih => rw [run_cons, ih]; rfl

/-! ## Runs whose steps all meet a condition -/

/-- `C` holds of every step of the run, at the state the step starts from. -/
def Along (step : σ → ι → σ) (C : σ → ι → Prop) : σ → List ι → Prop
  | _, [] => True
  | s, i :: is => C s i ∧ Along step C (step s i) is

variable {C : σ → ι → Prop}

@[simp] theorem along_nil (s : σ) : Along step C s [] := trivial

@[simp] theorem along_cons {s : σ} {i : ι} {is : List ι} :
    Along step C s (i :: is) ↔ C s i ∧ Along step C (step s i) is := Iff.rfl

theorem along_append {s : σ} {is js : List ι} :
    Along step C s (is ++ js) ↔ Along step C s is ∧ Along step C (run step s is) js := by
  induction is generalizing s with
  | nil => simp
  | cons i is ih => simp only [List.cons_append, along_cons, run_cons, ih, and_assoc]

/-- The condition, read at a split of the inputs. -/
theorem along_iff {s : σ} {is : List ι} :
    Along step C s is ↔ ∀ pre i post, is = pre ++ i :: post → C (run step s pre) i := by
  constructor
  · rintro h pre i post rfl
    exact (along_append.mp h).2.1
  · intro h
    induction is generalizing s with
    | nil => trivial
    | cons i is ih =>
      refine ⟨h [] i is rfl, ih fun pre j post hs => ?_⟩
      exact h (i :: pre) j post (by rw [hs]; rfl)

instance decidableAlong [∀ s i, Decidable (C s i)] : ∀ (s : σ) (is : List ι), Decidable (Along step C s is)
  | _, [] => isTrue trivial
  | s, i :: is => @instDecidableAnd _ _ _ (decidableAlong (step s i) is)

theorem Along.of_isPrefix {s : σ} {is js : List ι} (h : Along step C s js) (hp : is <+: js) :
    Along step C s is := by
  obtain ⟨ks, rfl⟩ := hp
  exact (along_append.mp h).1

/-- What one step that meets `C` preserves, a run whose steps all meet `C` preserves. -/
theorem Along.invariant {Inv : σ → Prop} (hstep : ∀ s i, C s i → Inv s → Inv (step s i))
    {is : List ι} {s : σ} (hc : Along step C s is) (h : Inv s) : Inv (run step s is) := by
  induction is generalizing s with
  | nil => exact h
  | cons i is ih => exact ih hc.2 (hstep s i hc.1 h)

/-- Where, under an invariant that the run keeps, `C` says exactly which steps keep `P`, it says exactly which
runs do. -/
theorem prefixes_iff_along_of {D : σ → ι → Prop} {I P : σ → Prop} (hkeep : ∀ s i, D s i → I s → I (step s i))
    (hstep : ∀ s i, D s i → I s → P s → (P (step s i) ↔ C s i)) {is : List ι} {s : σ}
    (hd : Along step D s is) (hi : I s) (h : P s) :
    (∀ pre, pre <+: is → P (run step s pre)) ↔ Along step C s is := by
  induction is generalizing s with
  | nil =>
    refine iff_of_true (fun pre hpre => ?_) trivial
    rw [List.prefix_nil.mp hpre]
    exact h
  | cons i is ih =>
    have hi' : I (step s i) := hkeep s i hd.1 hi
    rw [along_cons]
    constructor
    · intro hall
      have hs : P (step s i) := hall [i] ⟨is, rfl⟩
      exact ⟨(hstep s i hd.1 hi h).mp hs,
        (ih hd.2 hi' hs).mp fun pre hpre => hall (i :: pre) (List.cons_prefix_cons.mpr ⟨rfl, hpre⟩)⟩
    · rintro ⟨hc, hrest⟩ pre hpre
      rcases List.prefix_cons_iff.mp hpre with rfl | ⟨pre, rfl, hp⟩
      · exact h
      · exact (ih hd.2 hi' ((hstep s i hd.1 hi h).mpr hc)).mpr hrest pre hp

theorem along_true (s : σ) : ∀ is : List ι, Along step (fun _ _ => True) s is
  | [] => trivial
  | i :: is => ⟨trivial, along_true (step s i) is⟩

theorem prefixes_iff_along {P : σ → Prop} (hstep : ∀ s i, P s → (P (step s i) ↔ C s i)) {is : List ι}
    {s : σ} (h : P s) : (∀ pre, pre <+: is → P (run step s pre)) ↔ Along step C s is :=
  prefixes_iff_along_of (I := fun _ => True) (fun _ _ _ _ => trivial) (fun s i _ _ => hstep s i)
    (along_true s is) trivial h

theorem Along.mono {C' : σ → ι → Prop} (h : ∀ s i, C s i → C' s i) {is : List ι} {s : σ}
    (hc : Along step C s is) : Along step C' s is := by
  induction is generalizing s with
  | nil => trivial
  | cons i is ih => exact ⟨h s i hc.1, ih hc.2⟩

/-! ## Machines that come to rest -/

theorem run_fixed {s : σ} (h : ∀ i, step s i = s) (is : List ι) : run step s is = s := by
  induction is with
  | nil => rfl
  | cons i is ih => rw [run_cons, h i, ih]

section Rank

variable {Inv : σ → Prop} {rank : σ → ℕ} (hstep : ∀ s i, Inv s → Inv (step s i))
  (hrank : ∀ s i, Inv s → step s i = s ∨ rank (step s i) < rank s)

include hstep hrank

theorem run_rank_le {s : σ} (is : List ι) (h : Inv s) : rank (run step s is) ≤ rank s := by
  induction is generalizing s with
  | nil => exact le_rfl
  | cons i is ih =>
    refine (ih (hstep s i h)).trans ?_
    rcases hrank s i h with heq | hlt
    · rw [heq]
    · exact hlt.le

/-- A run in which an input moves the state lowers the rank. -/
theorem run_rank_lt {s : σ} {is : List ι} {i : ι} (hi : i ∈ is) (hmove : step s i ≠ s) (h : Inv s) :
    rank (run step s is) < rank s := by
  induction is with
  | nil => exact absurd hi List.not_mem_nil
  | cons j is ih =>
    rcases hrank s j h with heq | hlt
    · rw [run_cons, heq]
      refine ih ((List.mem_cons.mp hi).resolve_left ?_)
      rintro rfl
      exact hmove heq
    · exact (run_rank_le hstep hrank is (hstep s j h)).trans_lt hlt

/-- Where every step leaves the state or lowers its rank, as many rounds as the rank end where no input moves the
state; a round has every input at least once. -/
theorem fixed_of_rounds {rounds : List (List ι)} {s : σ} (hall : ∀ r ∈ rounds, ∀ i, i ∈ r) (h : Inv s)
    (hlen : rank s ≤ rounds.length) (i : ι) : step (run step s rounds.flatten) i = run step s rounds.flatten := by
  induction rounds generalizing s with
  | nil => exact (hrank s i h).resolve_right (by rw [Nat.le_zero.mp hlen]; exact Nat.not_lt_zero _)
  | cons r rounds ih =>
    by_cases hfixed : ∀ i, step s i = s
    · rw [run_fixed hfixed]
      exact hfixed i
    · obtain ⟨j, hj⟩ := not_forall.mp hfixed
      have hlt := run_rank_lt hstep hrank (hall r List.mem_cons_self j) hj h
      rw [List.flatten_cons, run_append]
      exact ih (fun r' hr' => hall r' (List.mem_cons_of_mem r hr')) (run_invariant hstep r s h)
        (by rw [List.length_cons] at hlen; omega)

end Rank

end Runs
