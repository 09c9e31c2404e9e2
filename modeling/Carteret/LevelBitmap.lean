import Carteret.Lib.History
import Carteret.Lib.WordSet

/-!
# Level bitmap

Two levels of 64-bit words over the slots of a window: a bit for each slot, and a summary bit for each word.

1. `Wf`: a summary bit is set exactly when its word is not zero, and no slot beyond the window is set.
2. `set` and `clear` change one slot and keep `Wf`.
3. `lowest` and `highest` are the least and the greatest slot that is set.
4. After any calls, a slot is set exactly when it was set and not cleared since (`after_isSet`).
-/

namespace Carteret

/-- `kWindowTicks`, as the static assertions of the source allow it. -/
structure Window where
  ticks : ℕ
  pos : 0 < ticks
  dvd : 64 ∣ ticks
  le : ticks ≤ 4096

/-- The default of `CARTERET_WINDOW_TICKS`. -/
def defaultWindow : Window := ⟨256, by decide, by decide, by decide⟩

/-- Words beyond `kBitmapWords` stay zero. -/
structure LevelBitmap where
  words : ℕ → BitVec 64 := fun _ => 0#64
  summary : BitVec 64 := 0#64

namespace LevelBitmap

def set (b : LevelBitmap) (i : ℕ) : LevelBitmap where
  words := Function.update b.words (i >>> 6) (b.words (i >>> 6) ||| 1#64 <<< (i &&& 63))
  summary := b.summary ||| 1#64 <<< (i >>> 6)

def clear (b : LevelBitmap) (i : ℕ) : LevelBitmap :=
  let w := i >>> 6
  let word := b.words w &&& ~~~(1#64 <<< (i &&& 63))
  { words := Function.update b.words w word
    summary := if word = 0#64 then b.summary &&& ~~~(1#64 <<< w) else b.summary }

def empty (b : LevelBitmap) : Bool := b.summary == 0#64

/-- Lowest occupied index, or `kWindowTicks` if none. -/
def lowest (W : Window) (b : LevelBitmap) : ℕ :=
  if b.summary = 0#64 then W.ticks
  else
    let w := WordSet.first b.summary
    (w <<< 6) + WordSet.first (b.words w)

/-- Highest occupied index, or `kWindowTicks` if none. -/
def highest (W : Window) (b : LevelBitmap) : ℕ :=
  if b.summary = 0#64 then W.ticks
  else
    let w := WordSet.last b.summary
    (w <<< 6) + WordSet.last (b.words w)

/-- The bit of slot `i`. -/
def mem (b : LevelBitmap) (i : ℕ) : Bool := (b.words (i >>> 6)).getLsbD (i &&& 63)

structure Wf (W : Window) (b : LevelBitmap) : Prop where
  summary_iff : ∀ w, b.summary.getLsbD w = true ↔ b.words w ≠ 0#64
  mem_lt : ∀ i, b.mem i = true → i < W.ticks

variable {W : Window} {b : LevelBitmap} {i j : ℕ}

theorem wf_empty (W : Window) : Wf W {} := by
  refine ⟨fun w => by simp, fun i h => ?_⟩
  simp [mem] at h

theorem shiftRight_six (i : ℕ) : i >>> 6 = i / 64 := Nat.shiftRight_eq_div_pow i 6

theorem and_mask (i : ℕ) : i &&& 63 = i % 64 := Nat.and_two_pow_sub_one_eq_mod i 6

/-- A slot by its word and the position in it. -/
theorem mem_word (b : LevelBitmap) (w k : ℕ) (hk : k < 64) :
    b.mem (w * 64 + k) = (b.words w).getLsbD k := by
  unfold mem
  rw [shiftRight_six, and_mask, show (w * 64 + k) / 64 = w by omega,
    show (w * 64 + k) % 64 = k by omega]

theorem words_ne_zero_iff (b : LevelBitmap) (w : ℕ) :
    b.words w ≠ 0#64 ↔ ∃ k < 64, b.mem (w * 64 + k) = true := by
  constructor
  · intro h
    have hk := WordSet.first_mem h
    have hlt := WordSet.lt_of_mem hk
    exact ⟨_, hlt, by rw [mem_word b w _ hlt]; exact hk⟩
  · rintro ⟨k, hk, hmem⟩ h0
    rw [mem_word b w k hk, h0] at hmem
    simp at hmem

theorem mem_set (i j : ℕ) : (b.set i).mem j = (b.mem j || decide (j = i)) := by
  have hi : i &&& 63 < 64 := by rw [and_mask]; omega
  unfold mem set
  dsimp only
  by_cases hw : j >>> 6 = i >>> 6
  · rw [hw, Function.update_self, WordSet.getLsbD_set hi]
    congr 1
    rw [decide_eq_decide]
    rw [shiftRight_six, shiftRight_six] at hw
    rw [and_mask, and_mask]
    omega
  · rw [Function.update_of_ne hw, decide_eq_false (by rintro rfl; exact hw rfl), Bool.or_false]

theorem mem_clear (i j : ℕ) : (b.clear i).mem j = (b.mem j && decide (j ≠ i)) := by
  have hi : i &&& 63 < 64 := by rw [and_mask]; omega
  unfold mem clear
  dsimp only
  by_cases hw : j >>> 6 = i >>> 6
  · rw [hw, Function.update_self, WordSet.getLsbD_clear hi]
    congr 1
    rw [decide_eq_decide]
    rw [shiftRight_six, shiftRight_six] at hw
    rw [and_mask, and_mask]
    omega
  · rw [Function.update_of_ne hw, decide_eq_true (by rintro rfl; exact hw rfl), Bool.and_true]

theorem Wf.set (h : Wf W b) (hi : i < W.ticks) : Wf W (b.set i) := by
  have hw : i >>> 6 < 64 := by have := W.le; rw [shiftRight_six]; omega
  refine ⟨fun w => ?_, fun j hj => ?_⟩
  · rw [words_ne_zero_iff]
    simp only [mem_set, Bool.or_eq_true, decide_eq_true_eq]
    change (b.summary ||| 1#64 <<< (i >>> 6)).getLsbD w = true ↔ _
    rw [WordSet.getLsbD_set hw, Bool.or_eq_true, h.summary_iff, words_ne_zero_iff, decide_eq_true_eq,
      shiftRight_six]
    constructor
    · rintro (⟨k, hk, hm⟩ | rfl)
      · exact ⟨k, hk, .inl hm⟩
      · exact ⟨i % 64, by omega, .inr (by omega)⟩
    · rintro ⟨k, hk, hm | hm⟩
      · exact .inl ⟨k, hk, hm⟩
      · exact .inr (by omega)
  · rw [mem_set] at hj
    rcases Bool.or_eq_true _ _ ▸ hj with hj | hj
    · exact h.mem_lt j hj
    · rw [of_decide_eq_true hj]; exact hi

theorem Wf.clear (h : Wf W b) (hi : i < W.ticks) : Wf W (b.clear i) := by
  have hw : i >>> 6 < 64 := by have := W.le; rw [shiftRight_six]; omega
  refine ⟨fun w => ?_, fun j hj => ?_⟩
  · have hsum : (b.clear i).summary.getLsbD w =
        (b.summary.getLsbD w && decide ((b.clear i).words w ≠ 0#64 ∨ w ≠ i >>> 6)) := by
      unfold LevelBitmap.clear
      dsimp only
      by_cases hz : b.words (i >>> 6) &&& ~~~(1#64 <<< (i &&& 63)) = 0#64
      · rw [if_pos hz, WordSet.getLsbD_clear hw]
        congr 1
        rw [decide_eq_decide]
        by_cases hwi : w = i >>> 6
        · rw [hwi, Function.update_self, hz]; simp
        · simp [hwi]
      · rw [if_neg hz]
        by_cases hwi : w = i >>> 6
        · have hword : Function.update b.words (i >>> 6)
              (b.words (i >>> 6) &&& ~~~(1#64 <<< (i &&& 63))) w ≠ 0#64 := by
            rw [hwi, Function.update_self]; exact hz
          rw [decide_eq_true (.inl hword), Bool.and_true]
        · rw [decide_eq_true (.inr hwi), Bool.and_true]
    have hother : w ≠ i >>> 6 → (b.clear i).words w = b.words w :=
      fun hne => Function.update_of_ne hne _ _
    have hsub : (b.clear i).words w ≠ 0#64 → b.words w ≠ 0#64 := by
      rw [words_ne_zero_iff, words_ne_zero_iff]
      rintro ⟨k, hk, hm⟩
      rw [mem_clear] at hm
      exact ⟨k, hk, (Bool.and_eq_true _ _ ▸ hm).1⟩
    rw [hsum, Bool.and_eq_true, h.summary_iff, decide_eq_true_eq]
    constructor
    · rintro ⟨hb, hne | hne⟩
      · exact hne
      · rw [hother hne]; exact hb
    · exact fun hne => ⟨hsub hne, .inl hne⟩
  · rw [mem_clear] at hj
    exact h.mem_lt j (Bool.and_eq_true _ _ ▸ hj).1

/-- The set is empty exactly when the summary is zero. -/
theorem Wf.empty_iff (h : Wf W b) : b.empty = true ↔ ∀ i, b.mem i = false := by
  unfold empty
  rw [beq_iff_eq, WordSet.eq_zero_iff]
  constructor
  · intro hz i
    by_contra hm
    have hne := (words_ne_zero_iff b (i / 64)).mpr ⟨i % 64, by omega, by
      rw [show i / 64 * 64 + i % 64 = i by omega]; simpa using hm⟩
    have hs := (h.summary_iff (i / 64)).mpr hne
    rw [hz] at hs
    cases hs
  · intro hz w
    by_contra hm
    obtain ⟨k, -, hk⟩ := (words_ne_zero_iff b w).mp ((h.summary_iff w).mp (by simpa using hm))
    rw [hz] at hk
    cases hk

theorem shiftLeft_six (w : ℕ) : w <<< 6 = w * 64 := Nat.shiftLeft_eq w 6

/-- A slot of the set is in its word, and the word is in the summary. -/
theorem Wf.word_of_mem (h : Wf W b) {i : ℕ} (hi : b.mem i = true) :
    (b.words (i / 64)).getLsbD (i % 64) = true ∧ b.summary.getLsbD (i / 64) = true := by
  have hword : (b.words (i / 64)).getLsbD (i % 64) = true := by
    rw [← mem_word b _ _ (by omega), show i / 64 * 64 + i % 64 = i by omega]; exact hi
  refine ⟨hword, (h.summary_iff _).mpr ?_⟩
  intro h0
  rw [h0] at hword
  simp at hword

/-- The lowest slot of a set that is not empty. -/
theorem Wf.lowest_spec (h : Wf W b) (hne : b.empty = false) :
    b.mem (b.lowest W) = true ∧ ∀ i, b.mem i = true → b.lowest W ≤ i := by
  have hs : b.summary ≠ 0#64 := by simpa [empty] using hne
  have hw := (h.summary_iff _).mp (WordSet.first_mem hs)
  have hk := WordSet.lt_of_mem (WordSet.first_mem hw)
  unfold lowest
  rw [if_neg hs]
  dsimp only
  rw [shiftLeft_six, mem_word b _ _ hk]
  refine ⟨WordSet.first_mem hw, fun i hi => ?_⟩
  obtain ⟨hi', hsummary⟩ := h.word_of_mem hi
  have hle := WordSet.first_le hsummary
  rcases Nat.lt_or_eq_of_le hle with hlt | heq
  · omega
  · rw [heq] at hk ⊢
    have := WordSet.first_le hi'
    omega

/-- The highest slot of a set that is not empty. -/
theorem Wf.highest_spec (h : Wf W b) (hne : b.empty = false) :
    b.mem (b.highest W) = true ∧ ∀ i, b.mem i = true → i ≤ b.highest W := by
  have hs : b.summary ≠ 0#64 := by simpa [empty] using hne
  have hw := (h.summary_iff _).mp (WordSet.last_mem hs)
  have hk := WordSet.lt_of_mem (WordSet.last_mem hw)
  unfold highest
  rw [if_neg hs]
  dsimp only
  rw [shiftLeft_six, mem_word b _ _ hk]
  refine ⟨WordSet.last_mem hw, fun i hi => ?_⟩
  obtain ⟨hi', hsummary⟩ := h.word_of_mem hi
  have hle := WordSet.le_last hsummary
  rcases Nat.lt_or_eq_of_le hle with hlt | heq
  · omega
  · rw [← heq]
    have := WordSet.le_last hi'
    omega

/-! ## Runs -/

/-- A call that changes the bitmap. -/
inductive Call
  | set (i : ℕ)
  | clear (i : ℕ)

def Call.index : Call → ℕ
  | .set i | .clear i => i

def step (b : LevelBitmap) : Call → LevelBitmap
  | .set i => b.set i
  | .clear i => b.clear i

/-- The bitmap after some calls. -/
def after (calls : List Call) : LevelBitmap := Runs.run step {} calls

/-- Slot `i` was set and not cleared since. -/
def IsSet (i : ℕ) (calls : List Call) : Prop := History.Since (fun _ c => c = .set i) (fun _ c => c = .clear i) calls

theorem mem_after (i : ℕ) (calls : List Call) : (after calls).mem i = true ↔ IsSet i calls := by
  unfold after IsSet
  induction calls using List.reverseRecOn with
  | nil => exact iff_of_false (by simp [mem]) History.not_since_nil
  | append_singleton calls c ih =>
    rw [Runs.run_snoc, History.since_snoc, ← ih]
    cases c with
    | set j =>
      change ((Runs.run step {} calls).set j).mem i = true ↔ _
      rw [mem_set, Bool.or_eq_true, decide_eq_true_eq]
      rw [eq_comm (a := i), or_comm]
      simp
    | clear j =>
      change ((Runs.run step {} calls).clear j).mem i = true ↔ _
      rw [mem_clear, Bool.and_eq_true, decide_eq_true_eq]
      rw [ne_comm]
      simp

theorem wf_after {calls : List Call} (hcalls : ∀ c ∈ calls, c.index < W.ticks) : Wf W (after calls) := by
  unfold after
  induction calls using List.reverseRecOn with
  | nil => exact wf_empty W
  | append_singleton calls c ih =>
    have hwf := ih fun d hd => hcalls d (List.mem_append_left _ hd)
    have hc := hcalls c (List.mem_append_right _ (List.mem_singleton_self c))
    rw [Runs.run_snoc]
    cases c with
    | set i => exact hwf.set hc
    | clear i => exact hwf.clear hc

/-- **The bitmap is the set of the slots that were set and not cleared since.** -/
theorem after_isSet (W : Window) (calls : List Call) (hcalls : ∀ c ∈ calls, c.index < W.ticks) :
    (∀ i, (after calls).mem i = true ↔ IsSet i calls) ∧
      (∀ w, (after calls).summary.getLsbD w = true ↔ (after calls).words w ≠ 0#64) ∧
      ((after calls).empty = true ↔ ∀ i, ¬ IsSet i calls) ∧
      (if (after calls).empty then (after calls).lowest W = W.ticks ∧ (after calls).highest W = W.ticks
        else IsLeast {i | IsSet i calls} ((after calls).lowest W) ∧
          IsGreatest {i | IsSet i calls} ((after calls).highest W)) := by
  have hwf := wf_after hcalls
  have hmem := fun i => mem_after i calls
  have hempty : (after calls).empty = true ↔ ∀ i, ¬ IsSet i calls := by
    rw [hwf.empty_iff]
    exact forall_congr' fun i => by rw [← hmem, Bool.not_eq_true]
  refine ⟨hmem, hwf.summary_iff, hempty, ?_⟩
  split
  · next h =>
    have hsummary : (after calls).summary = 0#64 := by simpa [empty] using h
    exact ⟨if_pos hsummary, if_pos hsummary⟩
  · next h =>
    obtain ⟨hlow, hleast⟩ := hwf.lowest_spec (Bool.eq_false_iff.mpr h)
    obtain ⟨hhigh, hgreatest⟩ := hwf.highest_spec (Bool.eq_false_iff.mpr h)
    exact ⟨⟨(hmem _).mp hlow, fun i hi => hleast i ((hmem i).mpr hi)⟩,
      ⟨(hmem _).mp hhigh, fun i hi => hgreatest i ((hmem i).mpr hi)⟩⟩

/-- The last slot of the widest window, behind a slot that is cleared again. -/
theorem after_isSet_last :
    (after [.set 0, .set 4095, .clear 0]).lowest ⟨4096, by decide, by decide, by decide⟩ = 4095 := by
  have hcalls : ∀ c ∈ [Call.set 0, .set 4095, .clear 0], c.index < 4096 := by decide
  obtain ⟨hmem, -, hempty, hends⟩ := after_isSet ⟨4096, by decide, by decide, by decide⟩ _ hcalls
  have hlast : IsSet 4095 [.set 0, .set 4095, .clear 0] := (hmem 4095).mp (by decide)
  rw [if_neg fun h => hempty.mp h 4095 hlast] at hends
  exact le_antisymm (hends.1.2 hlast) (by decide +kernel)

end LevelBitmap

end Carteret
