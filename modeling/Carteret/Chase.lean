import Carteret.Lib.Sattolo
import Mathlib.Logic.Function.Iterate

/-!
# The pointer chase

The buffer whose misses are known: one pointer in each cache line, linked by a shuffled order. `rng k` is draw `k` of
the generator.

1. The shuffle of the source, position by position, is the product of its swaps (`shuffleFrom_eq`).
2. The links go round the order (`link_spec`).
3. `one_cycle`: the chase visits every line once before it returns, from every line and for all draws.
-/

namespace Carteret

namespace Chase

open Sattolo

def kLine : ℕ := 64

/-- Pointers to a line. -/
def kStride : ℕ := kLine / 8

/-- `std::swap` of two elements. -/
def swapped (order : ℕ → ℕ) (i j : ℕ) : ℕ → ℕ := Function.update (Function.update order i (order j)) j (order i)

/-- The loop of the shuffle from position `i` down, at draw `pos`. -/
def shuffleFrom (rng : ℕ → UInt64) : ℕ → ℕ → (ℕ → ℕ) → ℕ → ℕ
  | 0, _, order => order
  | i + 1, pos, order => shuffleFrom rng i (pos + 1) (swapped order (i + 1) ((rng pos).toNat % (i + 1)))

/-- The order of the lines; there is at least one. -/
def order (rng : ℕ → UInt64) (lines : ℕ) : ℕ → ℕ := shuffleFrom rng (lines - 1) 0 id

/-- The loop that links each line to the next of the order, in memory that was zero. -/
def link (order : ℕ → ℕ) (lines : ℕ) : ℕ → ℕ :=
  (List.range lines).foldl
    (fun base i => Function.update base (order i * kStride) (order ((i + 1) % lines) * kStride)) fun _ => 0

/-- The memory of a buffer. -/
def base (rng : ℕ → UInt64) (bytes : ℕ) : ℕ → ℕ :=
  let lines := bytes / kLine
  link (order rng lines) lines

/-- `steps` dependent loads from `start`. -/
def chase (base : ℕ → ℕ) (start : ℕ) : ℕ → ℕ
  | 0 => start
  | steps + 1 => base (chase base start steps)

theorem chase_eq (base : ℕ → ℕ) (start : ℕ) : ∀ steps, chase base start steps = base^[steps] start
  | 0 => rfl
  | steps + 1 => by rw [chase, chase_eq base start steps, Function.iterate_succ_apply']

/-! ## The order -/

theorem swapped_eq (order : ℕ → ℕ) (i j : ℕ) : swapped order i j = order ∘ Equiv.swap i j := by
  funext k
  unfold swapped
  rw [Function.comp_apply, Equiv.swap_apply_def]
  split_ifs with hi hj
  · subst hi
    by_cases hij : k = j
    · rw [hij, Function.update_self]
    · rw [Function.update_of_ne hij, Function.update_self]
  · rw [hj, Function.update_self]
  · rw [Function.update_of_ne hj, Function.update_of_ne hi]

/-- The loop is the product of its swaps. -/
theorem shuffleFrom_eq (rng : ℕ → UInt64) : ∀ (i pos : ℕ) (order : ℕ → ℕ),
    shuffleFrom rng i pos order = order ∘ shuffle (fun k => (rng (pos + i - k)).toNat % k) i
  | 0, _, order => rfl
  | i + 1, pos, order => by
    have hpos : pos + 1 + i = pos + (i + 1) := by omega
    rw [shuffleFrom, shuffleFrom_eq rng i (pos + 1), swapped_eq, hpos, shuffle, Nat.add_sub_cancel]
    rfl

section

variable (rng : ℕ → UInt64) {lines bytes : ℕ}

/-- The order, as one cycle. -/
theorem order_spec (hlines : 0 < lines) : ∃ e : Equiv.Perm ℕ, ⇑e = order rng lines ∧
    (∀ i, e i < lines ↔ i < lines) ∧ ∃ l : List ℕ, l.Perm (List.range lines) ∧ Laps e l := by
  have hj : ∀ i, 0 < i → (rng (0 + (lines - 1) - i)).toNat % i < i := fun i hi => Nat.mod_lt _ hi
  have hsucc : lines - 1 + 1 = lines := Nat.succ_pred_eq_of_pos hlines
  refine ⟨shuffle (fun k => (rng (0 + (lines - 1) - k)).toNat % k) (lines - 1), ?_, ?_, ?_⟩
  · exact (shuffleFrom_eq rng (lines - 1) 0 id).symm
  · intro i
    have hlt := @shuffle_lt _ hj (lines - 1) i
    rwa [hsucc] at hlt
  · have hlaps := laps_shuffle hj (lines - 1)
    rwa [hsucc] at hlaps

/-! ## The links -/

/-- The first `n` links. -/
theorem link_spec {e : Equiv.Perm ℕ} {n : ℕ} : ∀ i < n,
    ((List.range n).foldl (fun base i => Function.update base (e i * kStride) (e ((i + 1) % lines) * kStride))
      fun _ => 0) (e i * kStride) = e ((i + 1) % lines) * kStride := by
  induction n with
  | zero => exact fun i hi => absurd hi (Nat.not_lt_zero i)
  | succ n ih =>
    intro i hi
    rw [List.range_succ, List.foldl_append, List.foldl_cons, List.foldl_nil]
    by_cases hin : i = n
    · rw [hin, Function.update_self]
    · have hne : e i * kStride ≠ e n * kStride := fun hc =>
        hin (e.injective (Nat.eq_of_mul_eq_mul_right (by decide) hc))
      rw [Function.update_of_ne hne]
      exact ih i (by omega)

/-- The lines in the order of the chase, as places in memory. -/
def ring (order : ℕ → ℕ) (lines : ℕ) : List ℕ := (List.range lines).map fun i => order i * kStride

theorem laps_link {e : Equiv.Perm ℕ} : Laps (link e lines) (ring e lines) := by
  intro i hi _
  have hlen : (ring e lines).length = lines := by simp [ring]
  rw [hlen] at hi
  simp only [ring, List.getElem_map, List.getElem_range, List.length_map, List.length_range]
  exact link_spec i hi

theorem ring_perm {e : Equiv.Perm ℕ} (he : ∀ i, e i < lines ↔ i < lines) :
    (ring e lines).Perm ((List.range lines).map (· * kStride)) := by
  have hperm : ((List.range lines).map e).Perm (List.range lines) := by
    refine (List.perm_ext_iff_of_nodup (List.nodup_range.map e.injective) List.nodup_range).mpr fun k => ?_
    rw [List.mem_map, List.mem_range]
    constructor
    · rintro ⟨i, hi, rfl⟩
      exact (he i).mpr (List.mem_range.mp hi)
    · intro hk
      refine ⟨e.symm k, List.mem_range.mpr ?_, e.apply_symm_apply k⟩
      rwa [← he, e.apply_symm_apply]
  have hmap := hperm.map (· * kStride)
  rwa [List.map_map] at hmap

/-- **One cycle.** Whatever is drawn, the order is one cycle through all lines, and a chase from any line visits every
line once and then returns; a longer one only repeats it. All of it stays within the buffer. -/
theorem one_cycle (hbytes : kLine ≤ bytes) :
    (∀ i < bytes / kLine,
      ((List.range (bytes / kLine)).map fun k => (order rng (bytes / kLine))^[k] i).Perm
        (List.range (bytes / kLine))) ∧
    ∀ i < bytes / kLine,
      ((List.range (bytes / kLine)).map (chase (base rng bytes) (i * kStride))).Perm
          ((List.range (bytes / kLine)).map (· * kStride)) ∧
        ∀ steps, chase (base rng bytes) (i * kStride) steps =
            chase (base rng bytes) (i * kStride) (steps % (bytes / kLine)) ∧
          8 * chase (base rng bytes) (i * kStride) steps + 8 ≤ bytes := by
  have hlines : 0 < bytes / kLine := Nat.div_pos hbytes (by decide)
  obtain ⟨e, heq, he, l, hl, hlaps⟩ := order_spec rng hlines
  have hbase : base rng bytes = link e (bytes / kLine) := by
    unfold base
    dsimp only
    rw [← heq]
  set lines := bytes / kLine with hdef
  have hlen : (ring e lines).length = lines := by simp [ring]
  refine ⟨fun i hi => ?_, fun i hi => ?_⟩
  · have hmem : i ∈ l := hl.mem_iff.mpr (List.mem_range.mpr hi)
    have hlap := hlaps.perm hmem
    rw [hl.length_eq, List.length_range, heq] at hlap
    exact hlap.trans hl
  · have hmem : i * kStride ∈ ring e lines :=
      (ring_perm he).mem_iff.mpr (List.mem_map_of_mem (List.mem_range.mpr hi))
    have hchase : (fun k => (link e lines)^[k] (i * kStride)) = chase (base rng bytes) (i * kStride) := by
      funext k
      rw [chase_eq, hbase]
    have hlap := laps_link.perm hmem
    rw [hlen, hchase] at hlap
    have hvisits := hlap.trans (ring_perm he)
    have hrepeat : ∀ steps, chase (base rng bytes) (i * kStride) steps =
        chase (base rng bytes) (i * kStride) (steps % lines) := fun steps => by
      rw [chase_eq, chase_eq, hbase, laps_link.iterate_mod hmem, hlen]
    refine ⟨hvisits, fun steps => ⟨hrepeat steps, ?_⟩⟩
    have hvisit : chase (base rng bytes) (i * kStride) (steps % lines) ∈ (List.range lines).map (· * kStride) :=
      hvisits.mem_iff.mp (List.mem_map_of_mem (List.mem_range.mpr (Nat.mod_lt steps hlines)))
    obtain ⟨m, hm, hat⟩ := List.mem_map.mp hvisit
    have hline : (m + 1) * kLine ≤ bytes :=
      (Nat.mul_le_mul_right _ (List.mem_range.mp hm)).trans (Nat.div_mul_le_self bytes kLine)
    rw [hrepeat, ← hat]
    unfold kStride kLine at *
    omega

/-- Four lines. -/
theorem one_cycle_four :
    (∀ i < 4, ((List.range 4).map fun k => (order (fun k => 5 * UInt64.ofNat k) 4)^[k] i).Perm (List.range 4)) ∧
    ∀ i < 4, ((List.range 4).map (chase (base (fun k => 5 * UInt64.ofNat k) 256) (i * kStride))).Perm
      ((List.range 4).map (· * kStride)) := by
  have h := @one_cycle (fun k => 5 * UInt64.ofNat k) 256 (by decide)
  exact ⟨h.1, fun i hi => (h.2 i hi).1⟩

example : (List.range 5).map (chase (base (fun k => 5 * UInt64.ofNat k) 256) 0) = [0, 16, 24, 8, 0] := by decide

end

end Chase

end Carteret
