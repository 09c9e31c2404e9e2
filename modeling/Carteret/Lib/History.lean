import Carteret.Lib.Runs

/-!
# Histories

What can be said of a list of events by looking back from its end.

1. `Since P Q`: an event with `P`, and none with `Q` after it. Both may look at what came before the event.
2. `tally P`: how many events have `P`.
3. `outputs`: what a machine emits along a run.
-/

namespace History

variable {ε : Type*} {P Q : List ε → ε → Prop} {es : List ε} {e : ε}

/-! ## Since -/

/-- Some event has `P`, and no later one has `Q`. -/
def Since (P Q : List ε → ε → Prop) (es : List ε) : Prop :=
  ∃ pre e post, es = pre ++ e :: post ∧ P pre e ∧
    ∀ mid f rest, post = mid ++ f :: rest → ¬ Q (pre ++ e :: mid) f

theorem not_since_nil : ¬ Since P Q [] := by
  rintro ⟨pre, e, post, h, -⟩
  simp at h

/-- One more event. -/
theorem since_snoc : Since P Q (es ++ [e]) ↔ P es e ∨ Since P Q es ∧ ¬ Q es e := by
  constructor
  · rintro ⟨pre, f, post, h, hf, hlater⟩
    rcases List.eq_nil_or_concat post with rfl | ⟨mid, g, rfl⟩
    · obtain ⟨rfl, hfe⟩ := List.append_inj' h rfl
      obtain rfl : e = f := by simpa using hfe
      exact .inl hf
    · have hsplit : es ++ [e] = (pre ++ f :: mid) ++ [g] := by rw [h]; simp
      obtain ⟨rfl, hge⟩ := List.append_inj' hsplit rfl
      obtain rfl : e = g := by simpa using hge
      refine .inr ⟨⟨pre, f, mid, rfl, hf, fun mid' g rest hm => ?_⟩, hlater mid e [] (by simp)⟩
      exact hlater mid' g (rest ++ [e]) (by rw [hm]; simp)
  · rintro (h | ⟨⟨pre, f, post, rfl, hf, hlater⟩, hq⟩)
    · refine ⟨es, e, [], rfl, h, fun mid f rest hc => ?_⟩
      simp at hc
    · refine ⟨pre, f, post ++ [e], by simp, hf, fun mid g rest hm => ?_⟩
      rcases List.eq_nil_or_concat rest with rfl | ⟨rest, g', rfl⟩
      · obtain ⟨rfl, hge⟩ := List.append_inj' hm rfl
        obtain rfl : e = g := by simpa using hge
        exact hq
      · have hsplit : post ++ [e] = (mid ++ g :: rest) ++ [g'] := by rw [hm]; simp
        exact hlater mid g rest (List.append_inj' hsplit rfl).1

/-- An event that is neither changes nothing. -/
theorem since_snoc_of_not (hp : ¬ P es e) (hq : ¬ Q es e) : Since P Q (es ++ [e]) ↔ Since P Q es :=
  since_snoc.trans ⟨fun h => h.elim (fun h => absurd h hp) And.left, fun h => .inr ⟨h, hq⟩⟩

/-- Something with `P` is among the events. -/
theorem Since.exists_mem (h : Since P Q es) : ∃ pre, ∃ e ∈ es, P pre e := by
  obtain ⟨pre, e, post, rfl, hp, -⟩ := h
  exact ⟨pre, e, by simp, hp⟩

/-! ## Counting -/

open Classical in
/-- The events of `post` with `P`, after `pre`. -/
noncomputable def tallyFrom (P : List ε → ε → Prop) : List ε → List ε → ℕ
  | _, [] => 0
  | pre, e :: post => (if P pre e then 1 else 0) + tallyFrom P (pre ++ [e]) post

/-- The number of events with `P`. -/
noncomputable def tally (P : List ε → ε → Prop) (es : List ε) : ℕ := tallyFrom P [] es

@[simp] theorem tally_nil (P : List ε → ε → Prop) : tally P [] = 0 := rfl

open Classical in
theorem tallyFrom_snoc (P : List ε → ε → Prop) (e : ε) : ∀ es pre : List ε,
    tallyFrom P pre (es ++ [e]) = tallyFrom P pre es + if P (pre ++ es) e then 1 else 0
  | [], pre => by simp [tallyFrom]
  | f :: es, pre => by
    rw [List.cons_append, tallyFrom, tallyFrom, tallyFrom_snoc P e es, List.append_assoc,
      List.singleton_append, add_assoc]

open Classical in
/-- One more event. -/
theorem tally_snoc (P : List ε → ε → Prop) (es : List ε) (e : ε) :
    tally P (es ++ [e]) = tally P es + if P es e then 1 else 0 := tallyFrom_snoc P e es []

theorem tally_snoc_of_not (h : ¬ P es e) : tally P (es ++ [e]) = tally P es := by
  rw [tally_snoc, if_neg h, Nat.add_zero]

/-- What no event has is not counted. -/
theorem tally_eq_zero : ∀ {es : List ε}, (∀ pre, pre <+: es → ∀ e ∈ es, ¬ P pre e) → tally P es = 0 := by
  intro es
  induction es using List.reverseRecOn with
  | nil => exact fun _ => rfl
  | append_singleton es e ih =>
    intro h
    rw [tally_snoc_of_not (h es (List.prefix_append es [e]) e (by simp))]
    exact ih fun pre hpre f hf => h pre (hpre.trans (List.prefix_append es [e])) f (List.mem_append_left [e] hf)

/-- Every event with `P` has `Q` exactly when no event is lost by asking for `Q` too. -/
theorem tally_and_eq_iff : tally (fun pre e => P pre e ∧ Q pre e) es = tally P es ↔
    ∀ pre e post, es = pre ++ e :: post → P pre e → Q pre e := by
  classical
  suffices hall : tally (fun pre e => P pre e ∧ Q pre e) es ≤ tally P es ∧
      (tally (fun pre e => P pre e ∧ Q pre e) es = tally P es ↔
        ∀ pre e post, es = pre ++ e :: post → P pre e → Q pre e) from hall.2
  induction es using List.reverseRecOn with
  | nil => exact ⟨le_refl _, iff_of_true rfl fun pre e post h => by simp at h⟩
  | append_singleton es e ih =>
    obtain ⟨hle, hiff⟩ := ih
    rw [tally_snoc, tally_snoc]
    have hsplit : (∀ pre f post, es ++ [e] = pre ++ f :: post → P pre f → Q pre f) ↔
        (∀ pre f post, es = pre ++ f :: post → P pre f → Q pre f) ∧ (P es e → Q es e) := by
      constructor
      · intro hall
        exact ⟨fun pre f post h => hall pre f (post ++ [e]) (by rw [h]; simp), hall es e [] rfl⟩
      · rintro ⟨hes, he⟩ pre f post h
        rcases List.eq_nil_or_concat post with rfl | ⟨post, g, rfl⟩
        · obtain ⟨rfl, hef⟩ := List.append_inj' h rfl
          obtain rfl : e = f := by simpa using hef
          exact he
        · have hcons : es ++ [e] = (pre ++ f :: post) ++ [g] := by rw [h]; simp
          exact hes pre f post (List.append_inj' hcons rfl).1
    rw [hsplit, ← hiff]
    by_cases hp : P es e
    · by_cases hq : Q es e
      · rw [if_pos ⟨hp, hq⟩, if_pos hp]
        exact ⟨by omega, ⟨fun h => ⟨by omega, fun _ => hq⟩, fun h => by omega⟩⟩
      · rw [if_neg fun h => hq h.2, if_pos hp]
        exact ⟨by omega, iff_of_false (by omega) fun h => hq (h.2 hp)⟩
    · rw [if_neg fun h => hp h.1, if_neg hp]
      exact ⟨by omega, ⟨fun h => ⟨by omega, fun h => absurd h hp⟩, fun h => by omega⟩⟩

/-! ## What a run emits -/

variable {σ ι : Type*} {step : σ → ι → σ} {out : σ → ι → List ε}

/-- What a machine emits, input by input. -/
def outputs (step : σ → ι → σ) (out : σ → ι → List ε) : σ → List ι → List ε
  | _, [] => []
  | s, i :: is => out s i ++ outputs step out (step s i) is

theorem outputs_snoc (i : ι) : ∀ (is : List ι) (s : σ),
    outputs step out s (is ++ [i]) = outputs step out s is ++ out (Runs.run step s is) i
  | [], s => by simp [outputs]
  | j :: is, s => by
    rw [List.cons_append, outputs, outputs, outputs_snoc i is, List.append_assoc]
    rfl

/-- What ties a state to what was emitted so far, when every step keeps it. -/
theorem outputs_invariant {R : σ → List ε → Prop}
    (hstep : ∀ s es i, R s es → R (step s i) (es ++ out s i)) {s : σ} (h : R s []) (is : List ι) :
    R (Runs.run step s is) (outputs step out s is) := by
  induction is using List.reverseRecOn with
  | nil => exact h
  | append_singleton is i ih =>
    rw [Runs.run_snoc, outputs_snoc]
    exact hstep _ _ i ih

end History
