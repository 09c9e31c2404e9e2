import Carteret.Lib.Runs

/-!
# Checksums that mix one value at a time

A step that is injective in its state and in its value makes a checksum that tells two lists apart when they differ in
one place (`Once.run_ne`).
-/

namespace Mixing

variable {σ ι : Type*}

/-- The lists differ in one place. -/
def Once (ds ds' : List ι) : Prop := ∃ pre d d' post, ds = pre ++ d :: post ∧ ds' = pre ++ d' :: post ∧ d ≠ d'

theorem Once.ne {ds ds' : List ι} (h : Once ds ds') : ds ≠ ds' := by
  obtain ⟨pre, d, d', post, rfl, rfl, hne⟩ := h
  exact fun heq => hne (List.cons.inj (List.append_cancel_left heq)).1

theorem once_cons {d d' : ι} (h : d ≠ d') (ds : List ι) : Once (d :: ds) (d' :: ds) := ⟨[], d, d', ds, rfl, rfl, h⟩

theorem Once.append_left {ds ds' : List ι} (h : Once ds ds') (pre : List ι) : Once (pre ++ ds) (pre ++ ds') := by
  obtain ⟨p, d, d', q, rfl, rfl, hne⟩ := h
  exact ⟨pre ++ p, d, d', q, (List.append_assoc ..).symm, (List.append_assoc ..).symm, hne⟩

theorem Once.append_right {ds ds' : List ι} (h : Once ds ds') (post : List ι) : Once (ds ++ post) (ds' ++ post) := by
  obtain ⟨p, d, d', q, rfl, rfl, hne⟩ := h
  refine ⟨p, d, d', q ++ post, ?_, ?_, hne⟩
  · rw [List.append_assoc, List.cons_append]
  · rw [List.append_assoc, List.cons_append]

/-- A list of parts of which one differs in one place. -/
theorem once_flatMap {α : Type*} {f f' : α → List ι} {pre : List α} {a : α} {post : List α}
    (h : Once (f a) (f' a)) (hpre : ∀ b ∈ pre, f' b = f b) (hpost : ∀ b ∈ post, f' b = f b) :
    Once ((pre ++ a :: post).flatMap f) ((pre ++ a :: post).flatMap f') := by
  rw [List.flatMap_append, List.flatMap_append, List.flatMap_cons, List.flatMap_cons, List.flatMap_congr hpre,
    List.flatMap_congr hpost]
  exact (h.append_right _).append_left _

/-- A step of a checksum. -/
structure Mixes (mix : σ → ι → σ) : Prop where
  state : ∀ d, Function.Injective fun s => mix s d
  value : ∀ s, Function.Injective (mix s)

variable {mix : σ → ι → σ}

theorem Mixes.run_injective (h : Mixes mix) : ∀ ds : List ι, Function.Injective fun s => Runs.run mix s ds
  | [] => fun _ _ hs => hs
  | d :: ds => fun _ _ hs => h.state d (h.run_injective ds hs)

/-- **One difference shows.** -/
theorem Once.run_ne {ds ds' : List ι} (h : Once ds ds') (hmix : Mixes mix) (s : σ) :
    Runs.run mix s ds ≠ Runs.run mix s ds' := by
  obtain ⟨pre, d, d', post, rfl, rfl, hne⟩ := h
  rw [Runs.run_append, Runs.run_append, Runs.run_cons, Runs.run_cons]
  exact fun hrun => hne (hmix.value _ (hmix.run_injective post hrun))

/-! ## Multiplication and exclusive or -/

theorem mul_injective {p q : UInt64} (h : p * q = 1) : Function.Injective fun x : UInt64 => x * p := fun x y hxy => by
  have hq : x * p * q = y * p * q := congrArg (· * q) hxy
  rwa [UInt64.mul_assoc, UInt64.mul_assoc, h, UInt64.mul_one, UInt64.mul_one] at hq

/-- Exclusive or, then a product. -/
theorem mixes_xor_mul {p q : UInt64} (h : p * q = 1) : Mixes fun s d : UInt64 => (s ^^^ d) * p where
  state d _ _ hs := (UInt64.xor_left_inj d).mp (mul_injective h hs)
  value s _ _ hd := (UInt64.xor_right_inj s).mp (mul_injective h hd)

/-- A product, then exclusive or. -/
theorem mixes_mul_xor {p q : UInt64} (h : p * q = 1) : Mixes fun s d : UInt64 => s * p ^^^ d where
  state d _ _ hs := mul_injective h ((UInt64.xor_left_inj d).mp hs)
  value s _ _ hd := (UInt64.xor_right_inj (s * p)).mp hd

end Mixing
