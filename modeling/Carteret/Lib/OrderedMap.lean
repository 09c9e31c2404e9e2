import Mathlib

/-!
# Ordered maps

`Std.TreeMap` read through `m[k]?`, for comparators whose `.eq` is equality: how an update is read back, and
the first and last key.
-/

namespace OrderedMap

variable {α β : Type*} {cmp : α → α → Ordering} [Std.TransCmp cmp] {m : Std.TreeMap α β cmp}
  {k a : α} {v : β}

theorem mem_iff_getElem? : k ∈ m ↔ ∃ v, m[k]? = some v := by
  rw [← Std.TreeMap.contains_iff_mem, Std.TreeMap.contains_eq_isSome_getElem?, Option.isSome_iff_exists]

theorem isEmpty_iff : m.isEmpty = true ↔ ∀ a : α, m[a]? = none := by
  constructor
  · intro h a
    by_contra hne
    obtain ⟨v, hv⟩ := Option.ne_none_iff_exists'.mp hne
    have hmem := mem_iff_getElem?.mpr ⟨v, hv⟩
    have hfalse := Std.TreeMap.isEmpty_eq_false_iff_exists_mem.mpr ⟨a, hmem⟩
    rw [h] at hfalse
    cases hfalse
  · intro h
    by_contra hne
    obtain ⟨a, ha⟩ := Std.TreeMap.isEmpty_eq_false_iff_exists_mem.mp (by simpa using hne)
    obtain ⟨v, hv⟩ := mem_iff_getElem?.mp ha
    rw [h a] at hv
    cases hv

variable [Std.LawfulEqCmp cmp]

theorem getElem?_insert_eq [DecidableEq α] :
    (m.insert k v)[a]? = if a = k then some v else m[a]? := by
  rw [Std.TreeMap.getElem?_insert]
  refine if_congr ?_ rfl rfl
  rw [Std.LawfulEqCmp.compare_eq_iff_eq]
  exact eq_comm

theorem getElem?_erase_eq [DecidableEq α] :
    (m.erase k)[a]? = if a = k then none else m[a]? := by
  rw [Std.TreeMap.getElem?_erase]
  refine if_congr ?_ rfl rfl
  rw [Std.LawfulEqCmp.compare_eq_iff_eq]
  exact eq_comm

theorem getElem?_insertIfNew_eq [DecidableEq α] (h : m[k]? = none) :
    (m.insertIfNew k v)[a]? = if a = k then some v else m[a]? := by
  have hk : ¬ k ∈ m := fun hk => by
    obtain ⟨w, hw⟩ := mem_iff_getElem?.mp hk
    rw [h] at hw
    cases hw
  rw [Std.TreeMap.getElem?_insertIfNew]
  refine if_congr ?_ rfl rfl
  rw [Std.LawfulEqCmp.compare_eq_iff_eq]
  exact ⟨fun h => h.1.symm, fun h => ⟨h.symm, hk⟩⟩

/-- A map whose keys are those of a list without duplicates. -/
theorem size_eq_length {l : List α} (hl : l.Nodup) (h : ∀ a : α, (∃ v, m[a]? = some v) ↔ a ∈ l) :
    m.size = l.length := by
  have hkeys : m.keys.Perm l := (List.perm_ext_iff_of_nodup Std.TreeMap.nodup_keys hl).mpr fun a => by
    rw [Std.TreeMap.mem_keys, mem_iff_getElem?, h]
  rw [← Std.TreeMap.length_keys, hkeys.length_eq]

/-- The key that `begin()` points to. -/
theorem head?_keys_eq_some :
    m.keys.head? = some k ↔ (∃ v, m[k]? = some v) ∧ ∀ (a : α) (v : β), m[a]? = some v → (cmp k a).isLE := by
  rw [← Std.TreeMap.minKey?_eq_head?_keys, Std.TreeMap.minKey?_eq_some_iff_mem_and_forall]
  simp only [mem_iff_getElem?]
  exact and_congr_right fun _ =>
    ⟨fun h a v ha => h a ⟨v, ha⟩, fun h a ⟨v, ha⟩ => h a v ha⟩

/-- The key that `rbegin()` points to. -/
theorem getLast?_keys_eq_some :
    m.keys.getLast? = some k ↔ (∃ v, m[k]? = some v) ∧ ∀ (a : α) (v : β), m[a]? = some v → (cmp a k).isLE := by
  rw [← Std.TreeMap.maxKey?_eq_getLast?_keys, Std.TreeMap.maxKey?_eq_some_iff_mem_and_forall]
  simp only [mem_iff_getElem?]
  exact and_congr_right fun _ =>
    ⟨fun h a v ha => h a ⟨v, ha⟩, fun h a ⟨v, ha⟩ => h a v ha⟩

end OrderedMap
