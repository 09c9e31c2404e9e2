import Mathlib

/-!
# Scans with an accumulator

A scan visits the elements of a list in order; each visit may change the element and a state shared by all
visits. What one visit does to every element, the scan does (`forall₂_scan`); what each visit conserves, the
scan conserves (`scan_sum`). `met` is each element with the state that its visit meets; scans of related elements
meet the same states (`forall₂_met`). A loop over the positions of the elements that meet a condition is the scan
that leaves the others alone (`visit_findIdxs`).
-/

namespace Scan

variable {σ α : Type*}

def scan (f : σ → α → σ × α) : σ → List α → σ × List α
  | s, [] => (s, [])
  | s, a :: as =>
    let r := f s a
    let rs := scan f r.1 as
    (rs.1, r.2 :: rs.2)

variable {f : σ → α → σ × α} {s : σ} {as : List α}

@[simp] theorem scan_nil : scan f s [] = (s, []) := rfl

@[simp] theorem scan_cons {a : α} :
    scan f s (a :: as) = ((scan f (f s a).1 as).1, (f s a).2 :: (scan f (f s a).1 as).2) := rfl

/-- Each element is what a visit makes of the element in its place. -/
theorem forall₂_scan (f : σ → α → σ × α) (s : σ) (as : List α) :
    List.Forall₂ (fun a a' => ∃ s', a' = (f s' a).2) as (scan f s as).2 := by
  induction as generalizing s with
  | nil => exact .nil
  | cons a as ih => exact .cons ⟨s, rfl⟩ (ih _)

@[simp] theorem length_scan : (scan f s as).2.length = as.length :=
  (forall₂_scan f s as).length_eq.symm

/-- What a visit does to the state and what it does to the element are both preserved. -/
theorem scan_invariant {I : σ → Prop} {P Q : α → Prop}
    (h : ∀ s a, I s → P a → I (f s a).1 ∧ Q (f s a).2) (hs : I s) (has : ∀ a ∈ as, P a) :
    I (scan f s as).1 ∧ ∀ a ∈ (scan f s as).2, Q a := by
  induction as generalizing s with
  | nil => exact ⟨hs, by simp⟩
  | cons a as ih =>
    obtain ⟨h1, h2⟩ := h s a hs (has a (List.mem_cons_self ..))
    obtain ⟨h3, h4⟩ := ih h1 fun b hb => has b (List.mem_cons_of_mem _ hb)
    exact ⟨h3, by simpa using ⟨h2, h4⟩⟩

/-- A quantity that each visit moves between the state and the element is conserved. -/
theorem scan_sum {M : Type*} [AddCommMonoid M] (f : σ → α → σ × α) (s : σ) (as : List α) {q : σ → M} {w : α → M}
    (h : ∀ s, ∀ a ∈ as, q (f s a).1 + w a = q s + w (f s a).2) :
    q (scan f s as).1 + (as.map w).sum = q s + ((scan f s as).2.map w).sum := by
  induction as generalizing s with
  | nil => rfl
  | cons a as ih =>
    have ha := h s a (List.mem_cons_self ..)
    have has := ih (f s a).1 fun s b hb => h s b (List.mem_cons_of_mem _ hb)
    rw [scan_cons, List.map_cons, List.map_cons, List.sum_cons, List.sum_cons]
    calc q (scan f (f s a).1 as).1 + (w a + (as.map w).sum)
        = q (scan f (f s a).1 as).1 + (as.map w).sum + w a := by rw [add_comm (w a), ← add_assoc]
      _ = q (f s a).1 + ((scan f (f s a).1 as).2.map w).sum + w a := by rw [has]
      _ = q (f s a).1 + w a + ((scan f (f s a).1 as).2.map w).sum := add_right_comm _ _ _
      _ = q s + (w (f s a).2 + ((scan f (f s a).1 as).2.map w).sum) := by rw [ha, add_assoc]

/-- A scan that reads and writes a part of the state only is a scan with that part. -/
theorem scan_part {τ : Type*} (r : σ → τ) {k : τ → α → τ × α}
    (h : ∀ s, ∀ a ∈ as, k (r s) a = (r (f s a).1, (f s a).2)) :
    scan k (r s) as = (r (scan f s as).1, (scan f s as).2) := by
  induction as generalizing s with
  | nil => rfl
  | cons a as ih =>
    have ha := h s a (List.mem_cons_self ..)
    have has := ih (s := (f s a).1) fun s b hb => h s b (List.mem_cons_of_mem _ hb)
    rw [scan_cons, scan_cons, ha, has]

/-! ## What an element meets -/

/-- Each element with the state that its visit meets. -/
def met (f : σ → α → σ × α) : σ → List α → List (σ × α)
  | _, [] => []
  | s, a :: as => (s, a) :: met f (f s a).1 as

@[simp] theorem met_cons {a : α} : met f s (a :: as) = (s, a) :: met f (f s a).1 as := rfl

theorem map_met : ∀ (s : σ) (as : List α), (met f s as).map Prod.snd = as
  | _, [] => rfl
  | s, a :: as => congrArg (a :: ·) (map_met (f s a).1 as)

/-- Visits make of each element what they make of it in the state that they meet. -/
theorem scan_met : ∀ (s : σ) (as : List α), (scan f s as).2 = (met f s as).map fun x => (f x.1 x.2).2
  | _, [] => rfl
  | s, a :: as => congrArg ((f s a).2 :: ·) (scan_met (f s a).1 as)

section Quiet

variable {p : α → Bool} (hquiet : ∀ s a, p a = false → (f s a).1 = s)

include hquiet

/-- Elements that leave the state alone do not matter to the others. -/
theorem scan_filter : (scan f s (as.filter p)).1 = (scan f s as).1 := by
  induction as generalizing s with
  | nil => rfl
  | cons a as ih =>
    cases hp : p a with
    | true => rw [List.filter_cons_of_pos hp, scan_cons, scan_cons, ih]
    | false => rw [List.filter_cons_of_neg (by simp [hp]), scan_cons, hquiet s a hp, ih]

theorem met_filter : (met f s as).filter (p ∘ Prod.snd) = met f s (as.filter p) := by
  induction as generalizing s with
  | nil => rfl
  | cons a as ih =>
    cases hp : p a with
    | true =>
      have hhead : (p ∘ Prod.snd) (s, a) = true := hp
      rw [met_cons, List.filter_cons_of_pos hhead, List.filter_cons_of_pos hp, met_cons, ih]
    | false =>
      have hhead : ¬ (p ∘ Prod.snd) (s, a) = true := by simp [hp]
      rw [met_cons, List.filter_cons_of_neg hhead, List.filter_cons_of_neg (by simp [hp]), hquiet s a hp, ih]

end Quiet

/-! ## Related lists -/

variable {β : Type*} {R : α → β → Prop} {cs : List β}

theorem exists_left (h : List.Forall₂ R as cs) {c : β} (hc : c ∈ cs) : ∃ a ∈ as, R a c := by
  induction h with
  | nil => cases hc
  | cons hac _ ih =>
    rcases List.mem_cons.mp hc with rfl | hc
    · exact ⟨_, List.mem_cons_self .., hac⟩
    · obtain ⟨a, ha, hR⟩ := ih hc
      exact ⟨a, List.mem_cons_of_mem _ ha, hR⟩

theorem exists_right (h : List.Forall₂ R as cs) {a : α} (ha : a ∈ as) : ∃ c ∈ cs, R a c := by
  obtain ⟨c, hc, hR⟩ := exists_left h.flip ha
  exact ⟨c, hc, hR⟩

/-- A reading that the relation respects. -/
theorem map_eq_map {γ : Type*} {u : α → γ} {v : β → γ} (h : List.Forall₂ R as cs)
    (huv : ∀ a c, R a c → u a = v c) : as.map u = cs.map v := by
  induction h with
  | nil => rfl
  | cons hac _ ih => rw [List.map_cons, List.map_cons, huv _ _ hac, ih]

theorem forall₂_of_map_eq_map {γ : Type*} {u : α → γ} {v : β → γ} (h : as.map u = cs.map v) :
    List.Forall₂ (fun a c => u a = v c) as cs := by
  have heq : List.Forall₂ Eq (as.map u) (cs.map v) := by
    rw [h]
    exact List.forall₂_same.mpr fun _ _ => rfl
  rwa [List.forall₂_map_left_iff, List.forall₂_map_right_iff] at heq

/-- Scans of related elements keep one state. -/
theorem forall₂_met {k : σ → β → σ × β} (h : List.Forall₂ R as cs)
    (hR : ∀ s a c, R a c → (k s c).1 = (f s a).1) (s : σ) :
    (scan k s cs).1 = (scan f s as).1 ∧
      List.Forall₂ (fun x y => y.1 = x.1 ∧ R x.2 y.2) (met f s as) (met k s cs) := by
  induction h generalizing s with
  | nil => exact ⟨rfl, .nil⟩
  | @cons a c as cs hac _ ih =>
    rw [scan_cons, scan_cons, met_cons, met_cons, hR s a c hac]
    exact ⟨(ih _).1, .cons ⟨rfl, hac⟩ (ih _).2⟩

/-! ## Loops over positions -/

/-- The visit at position `i`. -/
def touch (f : σ → α → σ × α) (r : σ × List α) (i : ℕ) : σ × List α :=
  match r.2[i]? with
  | none => r
  | some a => ((f r.1 a).1, r.2.set i (f r.1 a).2)

/-- A loop over positions. -/
def visit (f : σ → α → σ × α) (s : σ) (as : List α) (is : List ℕ) : σ × List α :=
  is.foldl (touch f) (s, as)

theorem visit_append_left (pre : List α) : ∀ {is : List ℕ} {s : σ} {as : List α},
    visit f s (pre ++ as) (is.map (· + pre.length)) =
      ((visit f s as is).1, pre ++ (visit f s as is).2)
  | [], _, _ => rfl
  | i :: is, s, as => by
    have hget : (pre ++ as)[i + pre.length]? = as[i]? := by
      rw [List.getElem?_append_right (by omega), Nat.add_sub_cancel]
    have htouch : touch f (s, pre ++ as) (i + pre.length) =
        ((touch f (s, as) i).1, pre ++ (touch f (s, as) i).2) := by
      unfold touch
      simp only [hget]
      cases as[i]? with
      | none => rfl
      | some a =>
        simp only
        rw [List.set_append_right _ _ (by omega), Nat.add_sub_cancel]
    show List.foldl _ (touch f (s, pre ++ as) (i + pre.length)) _ = _
    rw [htouch]
    exact visit_append_left pre

/-- The loop over the positions of the elements that meet a condition is a scan. -/
theorem visit_findIdxs (p : α → Bool) : ∀ {as : List α} {s : σ},
    visit f s as (as.findIdxs p) = scan (fun s a => if p a then f s a else (s, a)) s as
  | [], _ => rfl
  | a :: as, s => by
    have hshift : as.findIdxs p 1 = (as.findIdxs p).map (· + 1) := List.findIdxs_start
    have htail (b : α) (s : σ) : visit f s (b :: as) (as.findIdxs p 1) =
        ((visit f s as (as.findIdxs p)).1, b :: (visit f s as (as.findIdxs p)).2) := by
      rw [hshift]
      exact visit_append_left [b]
    rw [List.findIdxs_cons, scan_cons]
    cases hp : p a with
    | true =>
      simp only [if_true]
      rw [← visit_findIdxs p]
      exact htail (f s a).2 (f s a).1
    | false =>
      simp only [Bool.false_eq_true, if_false]
      rw [← visit_findIdxs p]
      exact htail a s

end Scan
