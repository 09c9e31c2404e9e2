import Carteret.Lib.Mixing
import Carteret.Sampling

/-!
# The checksum over the draws

`draw_checksum` folds the exponential draws of a seed into one word, to compare the math libraries of two platforms.
`research/ulp_margin.py` expects at most one of the draws to differ; the checksum shows it wherever it is
(`drawChecksum_tells`).
-/

namespace Carteret

def kFnvPrime : UInt64 := 1099511628211

/-- The FNV-1a offset basis. -/
def kFnvBasis : UInt64 := 1469598103934665603

/-- The inverse of the prime. -/
def kFnvInverse : UInt64 := 14886173955864302971

theorem fnvPrime_mul_inverse : kFnvPrime * kFnvInverse = 1 := by decide

/-- `h ^= g; h *= prime`. -/
def fnvMix (h g : UInt64) : UInt64 := (h ^^^ g) * kFnvPrime

theorem mixes_fnvMix : Mixing.Mixes fnvMix := Mixing.mixes_xor_mul fnvPrime_mul_inverse

namespace Sampler

/-- What the tool prints of its draws. -/
structure DrawReport where
  sum : UInt64 := 0
  checksum : UInt64 := kFnvBasis
  deriving DecidableEq

/-- The loop, with `n` draws left. -/
def drawLoop (meanNs : UInt64) : ℕ → Sampler → DrawReport → DrawReport
  | 0, _, r => r
  | n + 1, s, r =>
    let g := s.exponentialNs meanNs
    drawLoop meanNs n g.2 { sum := r.sum + g.1, checksum := fnvMix r.checksum g.1 }

def drawChecksum (P : Platform) (seed meanNs : UInt64) (draws : ℕ) : DrawReport :=
  drawLoop meanNs draws (seeded P seed) {}

/-- The draws from output `k` of the engine on. -/
def drawsFrom (P : Platform) (seed meanNs : UInt64) (k n : ℕ) : List UInt64 :=
  (List.range n).map fun j => P.gap meanNs (P.engine seed (k + j)) + 1

theorem drawLoop_eq (P : Platform) (seed meanNs : UInt64) : ∀ (n k : ℕ) (r : DrawReport),
    drawLoop meanNs n { seeded P seed with drawn := k } r =
      { sum := r.sum + (drawsFrom P seed meanNs k n).sum
        checksum := Runs.run fnvMix r.checksum (drawsFrom P seed meanNs k n) }
  | 0, _, r => by
    rw [drawLoop]
    unfold drawsFrom
    simp
  | n + 1, k, r => by
    have hcons : drawsFrom P seed meanNs k (n + 1) =
        (P.gap meanNs (P.engine seed k) + 1) :: drawsFrom P seed meanNs (k + 1) n := by
      unfold drawsFrom
      rw [List.range_succ_eq_map, List.map_cons, List.map_map]
      refine congrArg₂ List.cons rfl (List.map_congr_left fun j _ => ?_)
      rw [Function.comp_apply, Nat.add_succ, Nat.succ_add]
    rw [drawLoop, hcons, List.sum_cons, Runs.run_cons, ← UInt64.add_assoc]
    exact drawLoop_eq P seed meanNs n (k + 1) _

theorem drawChecksum_eq (P : Platform) (seed meanNs : UInt64) (n : ℕ) :
    (drawChecksum P seed meanNs n).checksum = Runs.run fnvMix kFnvBasis (drawsFrom P seed meanNs 0 n) :=
  congrArg DrawReport.checksum (drawLoop_eq P seed meanNs n 0 {})

theorem drawsFrom_congr {P P' : Platform} {seed meanNs : UInt64} {k n : ℕ}
    (h : ∀ j < n, P'.gap meanNs (P'.engine seed (k + j)) = P.gap meanNs (P.engine seed (k + j))) :
    drawsFrom P' seed meanNs k n = drawsFrom P seed meanNs k n :=
  List.map_congr_left fun j hj => congrArg (· + 1) (h j (List.mem_range.mp hj))

theorem drawsFrom_split (P : Platform) (seed meanNs : UInt64) {i n : ℕ} (hi : i < n) :
    drawsFrom P seed meanNs 0 n = drawsFrom P seed meanNs 0 i ++
      (P.gap meanNs (P.engine seed i) + 1) :: drawsFrom P seed meanNs (i + 1) (n - (i + 1)) := by
  obtain ⟨m, rfl⟩ := Nat.exists_eq_add_of_lt hi
  have hrest : i + m + 1 - (i + 1) = m := by omega
  unfold drawsFrom
  rw [hrest, Nat.add_assoc, List.range_add, List.map_append, List.range_succ_eq_map, List.map_cons, List.map_cons,
    List.map_map, List.map_map]
  refine congrArg₂ (· ++ ·) rfl (congrArg₂ List.cons ?_ (List.map_congr_left fun j _ => ?_))
  · rw [Nat.add_zero, Nat.zero_add]
  · simp only [Function.comp_apply]
    rw [Nat.zero_add, Nat.add_succ, Nat.succ_add]

/-- **One draw that differs shows**, wherever it is. -/
theorem drawChecksum_tells (P P' : Platform) (seed meanNs : UInt64) (n i : ℕ) (hengine : P'.engine = P.engine)
    (hi : i < n)
    (hdiffer : P.gap meanNs (P.engine seed i) ≠ P'.gap meanNs (P.engine seed i))
    (hrest : ∀ j < n, j ≠ i → P'.gap meanNs (P.engine seed j) = P.gap meanNs (P.engine seed j)) :
    (drawChecksum P seed meanNs n).checksum ≠ (drawChecksum P' seed meanNs n).checksum := by
  rw [drawChecksum_eq, drawChecksum_eq]
  refine Mixing.Once.run_ne ?_ mixes_fnvMix _
  have hbefore : drawsFrom P' seed meanNs 0 i = drawsFrom P seed meanNs 0 i := by
    apply drawsFrom_congr
    intro j hj
    rw [hengine, Nat.zero_add]
    exact hrest j (hj.trans hi) hj.ne
  have hbehind : drawsFrom P' seed meanNs (i + 1) (n - (i + 1)) = drawsFrom P seed meanNs (i + 1) (n - (i + 1)) := by
    apply drawsFrom_congr
    intro j hj
    rw [hengine]
    exact hrest _ (by omega) (by omega)
  rw [drawsFrom_split P seed meanNs hi, drawsFrom_split P' seed meanNs hi, hbefore, hbehind]
  refine (Mixing.once_cons ?_ _).append_left _
  rw [hengine]
  exact fun hc => hdiffer ((UInt64.add_left_inj 1).mp hc)

/-- A platform whose every gap is the output, and one that is off by one nanosecond in the third draw. -/
def counting (off : UInt64) : Platform where
  engine _ k := UInt64.ofNat k
  gap _ u := if u = 2 then u + off else u

theorem drawChecksum_tells_counting :
    (drawChecksum (counting 0) 1 250000000 4).checksum ≠ (drawChecksum (counting 1) 1 250000000 4).checksum :=
  drawChecksum_tells (counting 0) (counting 1) 1 250000000 4 2 rfl (by decide) (by decide) (by decide)

end Sampler

end Carteret
