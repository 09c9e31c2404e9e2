import Carteret.Lib.Lagged
import Carteret.Sampling

/-!
# The engine

`Sampler` draws from `std::mt19937_64`, which the standard fixes by a recurrence on a window of 312 words.
`research/ulp_margin.py` has the engine again, as an array that is twisted in place a block at a time. Both give the
same draws, for every seed and as many as one likes (`mtStream_replays`).
-/

namespace Carteret

namespace MersenneTwister

abbrev kStateSize : ℕ := 312

def kMatrixA : UInt64 := 0xB5026F5AA96619E9

/-- The bits of the oldest word that enter the next one. -/
def kUpperMask : UInt64 := 0xFFFFFFFF80000000

def kLowerMask : UInt64 := 0x7FFFFFFF

/-- The words behind `x`, the first of which is number `i`. -/
def seedFrom : UInt64 → ℕ → ℕ → List UInt64
  | _, _, 0 => []
  | x, i, n + 1 =>
    let y := (6364136223846793005 : UInt64) * (x ^^^ (x >>> 62)) + UInt64.ofNat i
    y :: seedFrom y (i + 1) n

def seedWords (seed : UInt64) : List UInt64 := seed :: seedFrom seed 1 311

def temper (x : UInt64) : UInt64 :=
  let x := x ^^^ ((x >>> 29) &&& 0x5555555555555555)
  let x := x ^^^ ((x <<< 17) &&& 0x71D67FFFEDA60000)
  let x := x ^^^ ((x <<< 37) &&& 0xFFF7EEE000000000)
  x ^^^ (x >>> 43)

/-! ## The recurrence of the standard -/

/-- The next word of the engine. -/
def transition (x : Fin kStateSize → UInt64) : UInt64 :=
  let y := (x 0 &&& kUpperMask) ||| (x 1 &&& kLowerMask)
  x 156 ^^^ (y >>> 1) ^^^ (kMatrixA * (y &&& 1))

/-- Output `k` of `std::mt19937_64`. -/
def mt19937_64 (seed : UInt64) (k : ℕ) : UInt64 := temper (Lagged.word transition (seedWords seed) (kStateSize + k))

/-! ## The probe's engine -/

/-- A cell of the array, from those behind it. -/
def twist (mt : Fin kStateSize → UInt64) : UInt64 :=
  let x := (mt 0 &&& kUpperMask) ||| (mt 1 &&& kLowerMask)
  let xa := x >>> 1
  let xa := if x &&& 1 ≠ 0 then xa ^^^ kMatrixA else xa
  mt 156 ^^^ xa

/-- The first `n` values of `mt_stream`. -/
def mtStream (seed : UInt64) (n : ℕ) : List UInt64 :=
  (Lagged.outputs twist n (seedWords seed, kStateSize)).map temper

/-! ## They agree -/

theorem length_seedFrom : ∀ (n : ℕ) (x : UInt64) (i : ℕ), (seedFrom x i n).length = n
  | 0, _, _ => rfl
  | n + 1, _, _ => congrArg (· + 1) (length_seedFrom n _ _)

theorem length_seedWords (seed : UInt64) : (seedWords seed).length = kStateSize :=
  congrArg (· + 1) (length_seedFrom 311 seed 1)

theorem and_one (y : UInt64) : y &&& 1 = 0 ∨ y &&& 1 = 1 := by
  have hmod : (y &&& 1).toNat = y.toNat % 2 := by
    rw [UInt64.toNat_and]
    exact Nat.and_one_is_mod _
  rcases Nat.mod_two_eq_zero_or_one y.toNat with h | h
  · exact .inl (UInt64.toNat_inj.mp (hmod.trans h))
  · exact .inr (UInt64.toNat_inj.mp (hmod.trans h))

/-- A product with the lowest bit is a choice. -/
theorem twist_eq (x : Fin kStateSize → UInt64) : twist x = transition x := by
  unfold twist transition
  dsimp only
  rcases and_one ((x 0 &&& kUpperMask) ||| (x 1 &&& kLowerMask)) with h | h
  · rw [h, if_neg (not_not.mpr rfl), UInt64.mul_zero, UInt64.xor_zero]
  · rw [h, if_pos (by decide), UInt64.mul_one, UInt64.xor_assoc]

theorem mtStream_eq (seed : UInt64) (n : ℕ) : mtStream seed n = (List.range n).map (mt19937_64 seed) := by
  unfold mtStream
  rw [funext twist_eq, Lagged.outputs_eq (by decide) (length_seedWords seed), List.map_map]
  rfl

end MersenneTwister

namespace Sampler

/-- The first `n` raw draws. -/
def raws : ℕ → Sampler → List UInt64
  | 0, _ => []
  | n + 1, s => s.raw.1 :: raws n s.raw.2

theorem raws_eq : ∀ (n : ℕ) (s : Sampler), s.raws n = (List.range n).map fun k => s.outputs (s.drawn + k)
  | 0, _ => rfl
  | n + 1, s => by
    rw [raws, raws_eq n, List.range_succ_eq_map, List.map_cons, List.map_map]
    refine congrArg₂ List.cons rfl (List.map_congr_left fun k _ => congrArg s.outputs ?_)
    exact Nat.succ_add_eq_add_succ s.drawn k

end Sampler

namespace MersenneTwister

/-- **The probe replays the sampler**: whatever the seed, the array that is twisted in place gives the raw draws of a
sampler on the engine of the standard, however many. -/
theorem mtStream_replays (gap : UInt64 → UInt64 → UInt64) (seed : UInt64) (n : ℕ) :
    mtStream seed n = (Sampler.seeded ⟨mt19937_64, gap⟩ seed).raws n := by
  rw [mtStream_eq, Sampler.raws_eq]
  exact List.map_congr_left fun k _ => congrArg (mt19937_64 seed) (Nat.zero_add k).symm

/-- The draws that the golden test pins. -/
example : mtStream 20190130 4 =
    [20037040275179087, 2545896184327772380, 16657957222919501401, 4553885230644107868] := by decide +kernel

end MersenneTwister

end Carteret
