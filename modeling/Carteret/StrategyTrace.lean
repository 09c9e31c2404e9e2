import Carteret.Strategy

/-!
# The life of a quote

The quotes of a symbol follow each other: one is posted at a close, is settled at the next close of the symbol, and
then another one may be posted. `Lifecycle` says so of a trace, event by event; what a reader wants to know is
then read off the whole trace.
-/

namespace Carteret

open QuoteEvent

/-- The trace, and the number of the open quote of each symbol behind it. -/
inductive Lifecycle : List QuoteEvent → (UInt16 → Option ℕ) → Prop
  | start : Lifecycle [] fun _ => none
  | close {es : List QuoteEvent} {cur : UInt16 → Option ℕ} {l : UInt16} (w : Closing) (h : Lifecycle es cur)
      (hcur : cur l = none) : Lifecycle (es ++ [closed l w]) cur
  | settle {es : List QuoteEvent} {cur : UInt16 → Option ℕ} {l : UInt16} {n : ℕ} (w : Closing) (filled : Bool)
      (h : Lifecycle es cur) (hcur : cur l = some n) :
      Lifecycle (es ++ [closed l w, settled l n filled]) (Function.update cur l none)
  | post {es : List QuoteEvent} {cur : UInt16 → Option ℕ} {l : UInt16} {n : ℕ} (side : UInt8)
      (h : Lifecycle es cur) (hcur : cur l = none) (hfresh : ∀ l' k sd, posted l' k sd ∈ es → k ≠ n) :
      Lifecycle (es ++ [posted l n side]) (Function.update cur l (some n))

/-- Where an element of a longer list stands. -/
theorem split_append {α : Type} {es fs xs ys : List α} {a : α} (h : es ++ fs = xs ++ a :: ys) :
    (∃ zs, es = xs ++ a :: zs ∧ ys = zs ++ fs) ∨ ∃ zs, fs = zs ++ a :: ys ∧ xs = es ++ zs := by
  rcases List.append_eq_append_iff.mp h with ⟨zs, hxs, hfs⟩ | ⟨zs, hes, hys⟩
  · exact .inr ⟨zs, hfs, hxs⟩
  · cases zs with
    | nil =>
      rw [List.append_nil] at hes
      exact .inr ⟨[], by simpa using hys.symm, by simp [hes]⟩
    | cons z zs =>
      obtain ⟨rfl, rfl⟩ := List.cons.inj hys
      exact .inl ⟨zs, hes, rfl⟩

namespace Lifecycle

variable {es : List QuoteEvent} {cur : UInt16 → Option ℕ} {l : UInt16} {n : ℕ}

theorem open_of_update {k : Option ℕ} {l₀ : UInt16} (h : Function.update cur l₀ k l = some n) :
    l = l₀ ∧ k = some n ∨ l ≠ l₀ ∧ cur l = some n := by
  rw [Function.update_apply] at h
  split at h
  · rename_i hl
    exact .inl ⟨hl, h⟩
  · rename_i hl
    exact .inr ⟨hl, h⟩

/-- The open quote has been posted. -/
theorem mem_posted (h : Lifecycle es cur) (hcur : cur l = some n) : ∃ side, posted l n side ∈ es := by
  induction h with
  | start => cases hcur
  | close w _ _ ih =>
    obtain ⟨side, hmem⟩ := ih hcur
    exact ⟨side, List.mem_append_left _ hmem⟩
  | settle w filled _ _ ih =>
    obtain ⟨-, hnone⟩ | ⟨-, hcur⟩ := open_of_update hcur
    · cases hnone
    · obtain ⟨side, hmem⟩ := ih hcur
      exact ⟨side, List.mem_append_left _ hmem⟩
  | post side _ _ _ ih =>
    obtain ⟨rfl, hk⟩ | ⟨-, hcur⟩ := open_of_update hcur
    · obtain rfl := Option.some.inj hk
      exact ⟨side, List.mem_append_right _ (List.mem_singleton_self _)⟩
    · obtain ⟨side, hmem⟩ := ih hcur
      exact ⟨side, List.mem_append_left _ hmem⟩

/-- What is settled has been posted. -/
theorem posted_of_settled (h : Lifecycle es cur) {f : Bool} (hmem : settled l n f ∈ es) :
    ∃ side, posted l n side ∈ es := by
  induction h with
  | start => cases hmem
  | close w _ _ ih =>
    obtain ⟨side, hmem⟩ := ih (by simpa using hmem)
    exact ⟨side, List.mem_append_left _ hmem⟩
  | settle w filled h hcur ih =>
    rcases List.mem_append.mp hmem with hmem | hmem
    · obtain ⟨side, hmem⟩ := ih hmem
      exact ⟨side, List.mem_append_left _ hmem⟩
    · simp only [List.mem_cons, reduceCtorEq, settled.injEq, List.not_mem_nil, or_false, false_or] at hmem
      obtain ⟨rfl, rfl, -⟩ := hmem
      obtain ⟨side, hmem⟩ := h.mem_posted hcur
      exact ⟨side, List.mem_append_left _ hmem⟩
  | post side h hcur hfresh ih =>
    obtain ⟨side, hmem⟩ := ih (by simpa using hmem)
    exact ⟨side, List.mem_append_left _ hmem⟩

/-- The open quote is not settled. -/
theorem not_settled (h : Lifecycle es cur) (hcur : cur l = some n) (f : Bool) : settled l n f ∉ es := by
  induction h with
  | start => exact List.not_mem_nil
  | close w _ _ ih => simpa using ih hcur
  | settle w filled _ _ ih =>
    obtain ⟨-, hnone⟩ | ⟨hl, hcur⟩ := open_of_update hcur
    · cases hnone
    · simpa [hl] using ih hcur
  | @post es cur l₀ k side h _ hfresh ih =>
    obtain ⟨rfl, hk⟩ | ⟨-, hcur⟩ := open_of_update hcur
    · obtain rfl := Option.some.inj hk
      intro hmem
      obtain ⟨sd, hposted⟩ := h.posted_of_settled (by simpa using hmem : settled l k f ∈ es)
      exact hfresh l k sd hposted rfl
    · simpa using ih hcur

/-- A posted quote is open, or settled. -/
theorem settled_of_posted (h : Lifecycle es cur) {side : UInt8} (hmem : posted l n side ∈ es) :
    cur l = some n ∨ ∃ f, settled l n f ∈ es := by
  induction h with
  | start => cases hmem
  | close w _ _ ih =>
    rcases ih (by simpa using hmem) with hcur | ⟨f, hf⟩
    · exact .inl hcur
    · exact .inr ⟨f, List.mem_append_left _ hf⟩
  | @settle _ cur l₀ k w filled _ hcur₀ ih =>
    rcases ih (by simpa using hmem) with hcur | ⟨f, hf⟩
    · by_cases hl : l = l₀
      · subst hl
        obtain rfl := Option.some.inj (hcur.symm.trans hcur₀)
        exact .inr ⟨filled, by simp⟩
      · rw [Function.update_of_ne hl]
        exact .inl hcur
    · exact .inr ⟨f, List.mem_append_left _ hf⟩
  | @post _ cur l₀ k sd _ hcur₀ _ ih =>
    rcases List.mem_append.mp hmem with hmem | hmem
    · rcases ih hmem with hcur | ⟨f, hf⟩
      · by_cases hl : l = l₀
        · subst hl
          rw [hcur] at hcur₀
          cases hcur₀
        · rw [Function.update_of_ne hl]
          exact .inl hcur
      · exact .inr ⟨f, List.mem_append_left _ hf⟩
    · obtain ⟨rfl, rfl, -⟩ := posted.inj (List.mem_singleton.mp hmem)
      exact .inl (Function.update_self ..)

/-- **When a quote is posted, the quotes of the symbol before it are settled.** -/
theorem posted_after (h : Lifecycle es cur) {xs ys : List QuoteEvent} {side : UInt8}
    (hsplit : es = xs ++ posted l n side :: ys) {k : ℕ} {sd : UInt8} (hmem : posted l k sd ∈ xs) :
    ∃ f, settled l k f ∈ xs := by
  induction h generalizing ys with
  | start => simp at hsplit
  | close w _ _ ih =>
    rcases split_append hsplit with ⟨zs, hes, -⟩ | ⟨zs, hfs, -⟩
    · exact ih hes
    · cases zs <;> simp at hfs
  | settle w filled _ _ ih =>
    rcases split_append hsplit with ⟨zs, hes, -⟩ | ⟨zs, hfs, -⟩
    · exact ih hes
    · rcases zs with _ | ⟨z, _ | ⟨z', zs⟩⟩ <;> simp at hfs
  | post sd' h hcur hfresh ih =>
    rcases split_append hsplit with ⟨zs, hes, -⟩ | ⟨zs, hfs, hxs⟩
    · exact ih hes
    · cases zs with
      | cons z zs => simp at hfs
      | nil =>
        obtain ⟨hpost, -⟩ := List.cons.inj hfs
        obtain ⟨rfl, -, -⟩ := posted.inj hpost
        rw [List.append_nil] at hxs
        subst hxs
        rcases h.settled_of_posted hmem with hopen | hf
        · rw [hcur] at hopen
          cases hopen
        · exact hf

/-- **A quote is settled at the next close of its symbol.** -/
theorem settled_iff_closed (h : Lifecycle es cur) {xs ys : List QuoteEvent} {side : UInt8}
    (hsplit : es = xs ++ posted l n side :: ys) :
    if cur l = some n then (∀ f, settled l n f ∉ ys) ∧ ∀ w, closed l w ∉ ys
    else (∃ f, settled l n f ∈ ys) ∧ ∃ w, closed l w ∈ ys := by
  induction h generalizing ys with
  | start => simp at hsplit
  | @close es cur l₀ w h hcur ih =>
    rcases split_append hsplit with ⟨zs, hes, rfl⟩ | ⟨zs, hfs, -⟩
    · have hold := ih hes
      split_ifs at hold ⊢ with hopen
      · have hl : l ≠ l₀ := by
          rintro rfl
          rw [hcur] at hopen
          cases hopen
        simpa [hl] using hold
      · obtain ⟨⟨f, hf⟩, w', hw'⟩ := hold
        exact ⟨⟨f, List.mem_append_left _ hf⟩, w', List.mem_append_left _ hw'⟩
    · cases zs <;> simp at hfs
  | @settle es cur l₀ k w filled h hcur ih =>
    rcases split_append hsplit with ⟨zs, hes, rfl⟩ | ⟨zs, hfs, -⟩
    · have hold := ih hes
      by_cases hl : l = l₀
      · subst hl
        rw [Function.update_self, if_neg (by simp)]
        split_ifs at hold with hopen
        · obtain rfl := Option.some.inj (hopen.symm.trans hcur)
          exact ⟨⟨filled, by simp⟩, w, by simp⟩
        · obtain ⟨⟨f, hf⟩, w', hw'⟩ := hold
          exact ⟨⟨f, List.mem_append_left _ hf⟩, w', List.mem_append_left _ hw'⟩
      · rw [Function.update_of_ne hl]
        split_ifs at hold ⊢ with hopen
        · simpa [hl] using hold
        · obtain ⟨⟨f, hf⟩, w', hw'⟩ := hold
          exact ⟨⟨f, List.mem_append_left _ hf⟩, w', List.mem_append_left _ hw'⟩
    · rcases zs with _ | ⟨z, _ | ⟨z', zs⟩⟩ <;> simp at hfs
  | @post es cur l₀ k sd h hcur hfresh ih =>
    rcases split_append hsplit with ⟨zs, hes, rfl⟩ | ⟨zs, hfs, -⟩
    · have hold := ih hes
      have hne : n ≠ k := hfresh l n side (by rw [hes]; simp)
      have hopen : Function.update cur l₀ (some k) l = some n ↔ cur l = some n := by
        by_cases hl : l = l₀
        · subst hl
          rw [Function.update_self, hcur]
          simp [Ne.symm hne]
        · rw [Function.update_of_ne hl]
      simp only [hopen]
      split_ifs at hold ⊢
      · simpa using hold
      · simpa using hold
    · cases zs with
      | cons z zs => simp at hfs
      | nil =>
        obtain ⟨hpost, rfl⟩ := List.cons.inj hfs
        obtain ⟨rfl, rfl, -⟩ := posted.inj hpost
        rw [Function.update_self, if_pos rfl]
        exact ⟨fun _ => List.not_mem_nil, fun _ => List.not_mem_nil⟩

end Lifecycle

end Carteret
