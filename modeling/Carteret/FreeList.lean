import Carteret.Lib.IntrusiveList
import Carteret.OrderIndex

/-!
# Free lists

The pool of the book and that of the chained index start as one list through all of their nodes. The links are 32
bits wide, so that at most `2 ^ 32 - 1` nodes are ever reached.
-/

namespace Carteret

namespace FreeList

open IntrusiveList

variable {α : Type*} {setNext : α → UInt32 → α} {next : α → UInt32}

/-- The loop that links the nodes, from the last one down; the head is cut to 32 bits. -/
def seed (setNext : α → UInt32 → α) : ℕ → (ℕ → α) → UInt32 → (ℕ → α) × UInt32
  | 0, nodes, head => (nodes, head)
  | i + 1, nodes, head => seed setNext i (Function.update nodes i (setNext (nodes i) head)) (UInt32.ofNat i)

/-- Every node points to the one after it, the last one to the old head. -/
theorem seed_spec (hset : ∀ a h, next (setNext a h) = h) : ∀ (n : ℕ) (nodes : ℕ → α) (head : UInt32),
    (∀ j ≥ n, (seed setNext n nodes head).1 j = nodes j) ∧
      (∀ j < n, next ((seed setNext n nodes head).1 j) = if j + 1 = n then head else UInt32.ofNat (j + 1)) ∧
      (seed setNext n nodes head).2 = if n = 0 then head else 0
  | 0, nodes, head => ⟨fun _ _ => rfl, fun j hj => absurd hj (Nat.not_lt_zero j), rfl⟩
  | n + 1, nodes, head => by
    obtain ⟨hge, hlt, hhead⟩ :=
      seed_spec hset n (Function.update nodes n (setNext (nodes n) head)) (UInt32.ofNat n)
    unfold seed
    refine ⟨fun j hj => ?_, fun j hj => ?_, ?_⟩
    · rw [hge j (by omega), Function.update_of_ne (by omega)]
    · by_cases hjn : j = n
      · rw [hjn, hge n (le_refl n), Function.update_self, hset, if_pos rfl]
      · rw [hlt j (by omega), if_neg (by omega : ¬ j + 1 = n + 1)]
        split
        · rename_i hj'
          rw [hj']
        · rfl
    · rw [hhead, if_neg (Nat.succ_ne_zero n)]
      split
      · rename_i hn
        rw [hn]
        rfl
      · rfl

/-- The nodes that 32 bits can name beside `kNoOrder`, in order. -/
def numbers (n : ℕ) : List UInt32 := (List.range (min n (2 ^ 32 - 1))).map UInt32.ofNat

theorem toNat_ofNat {n i : ℕ} (hi : i < min n (2 ^ 32 - 1)) : (UInt32.ofNat i).toNat = i :=
  UInt32.toNat_ofNat_of_lt' (by change i < 2 ^ 32; omega)

theorem nodup_numbers (n : ℕ) : (numbers n).Nodup := by
  refine List.Nodup.map_on (fun i hi j hj hc => ?_) List.nodup_range
  rw [← toNat_ofNat (List.mem_range.mp hi), hc, toNat_ofNat (List.mem_range.mp hj)]

theorem mem_numbers {n : ℕ} {i : UInt32} : i ∈ numbers n ↔ i ≠ kNoOrder ∧ i.toNat < n := by
  have hnil : kNoOrder.toNat = 2 ^ 32 - 1 := rfl
  have hlt := i.toNat_lt
  rw [numbers, List.mem_map]
  constructor
  · rintro ⟨j, hj, rfl⟩
    have hj := List.mem_range.mp hj
    refine ⟨fun hc => ?_, ?_⟩
    · have := congrArg UInt32.toNat hc
      rw [toNat_ofNat hj, hnil] at this
      omega
    · rw [toNat_ofNat hj]
      omega
  · rintro ⟨hne, hi⟩
    have hne' : i.toNat ≠ kNoOrder.toNat := fun hc => hne (UInt32.toNat_inj.mp hc)
    exact ⟨i.toNat, List.mem_range.mpr (by omega), UInt32.ofNat_toNat⟩

theorem length_numbers (n : ℕ) : (numbers n).length = min n (2 ^ 32 - 1) := by
  rw [numbers, List.length_map, List.length_range]

/-- Every node is free or in use. -/
theorem length_add {n : ℕ} {F L : List UInt32} (hnodup : (F ++ L).Nodup)
    (hmem : ∀ i, i ∈ F ++ L ↔ i ≠ kNoOrder ∧ i.toNat < n) : F.length + L.length = min n (2 ^ 32 - 1) := by
  have hperm : (F ++ L).Perm (numbers n) :=
    (List.perm_ext_iff_of_nodup hnodup (nodup_numbers n)).mpr fun i => (hmem i).trans mem_numbers.symm
  rw [← List.length_append, hperm.length_eq, length_numbers]

/-- **The list of all nodes.** -/
theorem seed_stack (hset : ∀ a h, next (setNext a h) = h) (n : ℕ) (nodes : ℕ → α) :
    Stack (fun i : UInt32 => next ((seed setNext n nodes kNoOrder).1 i.toNat)) kNoOrder
      (seed setNext n nodes kNoOrder).2 (numbers n) := by
  obtain ⟨-, hnext, hhead⟩ := seed_spec hset n nodes kNoOrder
  set pool := (seed setNext n nodes kNoOrder).1
  -- induction on the number of nodes that are left
  have key : ∀ d a, a + d = min n (2 ^ 32 - 1) →
      Stack (fun i : UInt32 => next (pool i.toNat)) kNoOrder (if a = n then kNoOrder else UInt32.ofNat a)
        ((List.range' a d).map UInt32.ofNat) := by
    intro d
    induction d with
    | zero =>
      intro a ha
      change (if a = n then kNoOrder else UInt32.ofNat a) = kNoOrder
      split
      · rfl
      · rw [show a = 2 ^ 32 - 1 by omega]
        rfl
    | succ d ih =>
      intro a ha
      have hnat : (UInt32.ofNat a).toNat = a := toNat_ofNat (n := n) (by omega)
      rw [List.range'_succ, List.map_cons]
      refine ⟨if_neg (by omega), fun hc => ?_, ?_⟩
      · have hc' := congrArg UInt32.toNat hc
        rw [hnat, show kNoOrder.toNat = 2 ^ 32 - 1 from rfl] at hc'
        omega
      · change Stack _ _ (next (pool (UInt32.ofNat a).toNat)) _
        rw [hnat, hnext a (by omega)]
        exact ih (a + 1) (by omega)
  have hstart := key (min n (2 ^ 32 - 1)) 0 (by omega)
  rw [← List.range_eq_range'] at hstart
  rw [hhead]
  simp only [eq_comm] at hstart ⊢
  exact hstart

end FreeList

end Carteret
