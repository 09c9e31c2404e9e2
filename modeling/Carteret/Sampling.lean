import Mathlib

/-!
# Sampling

Every draw is arithmetic on raw outputs of an engine. The engine's outputs and the rounding of the one
transcendental draw come from the platform, so the rest of the development takes them as they are.
-/

namespace Carteret

/-- What the platform supplies: the outputs of the engine for each seed, and the truncation of
`-mean * log1p(-u)` for the `u` of a raw output. -/
structure Platform where
  engine : UInt64 → ℕ → UInt64
  gap : UInt64 → UInt64 → UInt64

/-- An engine of which some outputs have been drawn. -/
structure Sampler where
  outputs : ℕ → UInt64
  gap : UInt64 → UInt64 → UInt64
  drawn : ℕ := 0

namespace Sampler

def seeded (P : Platform) (seed : UInt64) : Sampler := { outputs := P.engine seed, gap := P.gap }

def next (s : Sampler) : Sampler := { s with drawn := s.drawn + 1 }

def raw (s : Sampler) : UInt64 × Sampler := (s.outputs s.drawn, s.next)

/-- At least one, so that a schedule always advances. -/
def exponentialNs (s : Sampler) (meanNs : UInt64) : UInt64 × Sampler :=
  (s.gap meanNs (s.outputs s.drawn) + 1, s.next)

def pick (s : Sampler) (n : ℕ) : ℕ × Sampler :=
  if n = 0 then (0, s) else ((s.outputs s.drawn).toNat % n, s.next)

/-- The degenerate rates return without a draw. -/
def bernoulli (s : Sampler) (num den : ℕ) : Bool × Sampler :=
  if den = 0 ∨ num = 0 then (false, s)
  else if num ≥ den then (true, s)
  else (decide ((s.outputs s.drawn).toNat % den < num), s.next)

def coin (s : Sampler) : Bool × Sampler := ((s.outputs s.drawn &&& 1) != 0, s.next)

/-- A call of `bernoulli` that consumes an output. -/
def draws (num den : ℕ) : Bool := decide (0 < num ∧ num < den)

theorem bernoulli_of_not_draws {num den : ℕ} (h : draws num den = false) (s : Sampler) :
    s.bernoulli num den = (decide (num ≠ 0 ∧ den ≠ 0), s) := by
  have h' : ¬ (0 < num ∧ num < den) := by simpa [draws] using h
  unfold bernoulli
  by_cases h0 : den = 0 ∨ num = 0
  · rw [if_pos h0]
    have hf : ¬ (num ≠ 0 ∧ den ≠ 0) := by omega
    simp [hf]
  · rw [if_neg h0, if_pos (by omega)]
    have ht : num ≠ 0 ∧ den ≠ 0 := by omega
    simp [ht]

end Sampler

end Carteret
