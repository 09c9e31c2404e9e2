import Carteret.Lib.Occupancy
import Carteret.OrderIndex

/-!
# Probe counts

What an index costs to search, and that deletions leave no trace in it.

1. `occupied` and `findAllProbes`: the slots in use, and the probes that it takes to find every key once.
2. `inserted_run`: keys that fit are all inserted.
3. `erase_leaves_no_trace`: after any operations, both are those of a new table into which the keys that are left
   are inserted.
-/

namespace Carteret

namespace OrderIndex

variable {P : HashPolicy} {x y : OrderIndex P}

/-- What `find` adds to `probes_`. -/
def findProbes (x : OrderIndex P) (key : UInt64) : ℕ :=
  Probing.reads x.after (fun i => (x.slots i).value == kNoOrder || (x.slots i).key == key)
    x.capacity (x.home key)

/-- The slots in use. -/
def occupied (x : OrderIndex P) : Finset ℕ :=
  (Finset.range x.capacity).filter fun i => (x.slots i).value ≠ kNoOrder

/-- What it adds to `probes_` to find every key once. -/
def findAllProbes (x : OrderIndex P) : ℕ := ∑ i ∈ x.occupied, x.findProbes (x.slots i).key

theorem occupied_eq (x : OrderIndex P) : x.occupied = Probing.occupied x.capacity (table x.slots) := by
  ext i
  rw [Probing.mem_occupied, occupied, Finset.mem_filter, Finset.mem_range]
  refine and_congr_right fun _ => ⟨fun h => ⟨_, entry_eq_some.mpr ⟨h, rfl⟩⟩, ?_⟩
  rintro ⟨e, he⟩
  exact (entry_eq_some.mp he).1

/-- A key is found after as many probes as there are slots from its home up to it. -/
theorem Valid.findProbes_eq (h : Valid x) {i : ℕ} (hi : i < x.capacity) (hne : (x.slots i).value ≠ kNoOrder) :
    x.findProbes (x.slots i).key = Probing.dist x.capacity (x.home (x.slots i).key) i + 1 := by
  have he : table x.slots i = some ((x.slots i).key, (x.slots i).value) := entry_eq_some.mpr ⟨hne, rfl⟩
  refine Probing.reads_spec (fun j hj => x.after_eq hj) (x.home_lt _) hi (by simp) (fun j hj hlt => ?_)
    (Probing.dist_lt hi)
  have hused : (x.slots j).value ≠ kNoOrder := fun hfree =>
    h.probing.reach i hi _ he j hj hlt (entry_eq_none.mpr hfree)
  have hother : (x.slots j).key ≠ (x.slots i).key := by
    intro hkey
    have hij := h.probing.unique j hj i hi _ _ (entry_eq_some.mpr ⟨hused, rfl⟩) he hkey
    rw [hij] at hlt
    exact lt_irrefl _ hlt
  simp [hused, hother]

theorem Valid.findAllProbes_eq (h : Valid x) :
    x.findAllProbes = Probing.displacement x.capacity x.home Prod.fst (table x.slots) + x.occupied.card := by
  rw [findAllProbes, Probing.displacement, ← occupied_eq, Finset.card_eq_sum_ones, ← Finset.sum_add_distrib]
  refine Finset.sum_congr rfl fun i hi => ?_
  rw [occupied, Finset.mem_filter, Finset.mem_range] at hi
  rw [h.findProbes_eq hi.1 hi.2, show table x.slots i = some _ from entry_eq_some.mpr ⟨hi.2, rfl⟩]
  rfl

/-- **Slots and probes depend on the keys only.** -/
theorem Valid.same_slots (hx : Valid x) (hy : Valid y) (hcap : y.logCap = x.logCap) (hkeys : y.keys = x.keys) :
    y.occupied = x.occupied ∧ y.findAllProbes = x.findAllProbes := by
  have hcapacity : y.capacity = x.capacity := congrArg (2 ^ ·) hcap
  have hhome : y.home = x.home := by
    funext key
    unfold home mask shift capacity
    rw [hcap]
  have hy' := hy.probing
  have hkeys' : Probing.keys y.capacity Prod.fst (table y.slots) =
      Probing.keys x.capacity Prod.fst (table x.slots) := hkeys
  have hroom : x.keys.ncard < x.capacity := by
    have hsize := hx.size_eq
    have hle := hx.size_le
    have hcap := x.capacity_ge
    omega
  rw [hcapacity] at hkeys'
  rw [hcapacity, hhome] at hy'
  have hocc : y.occupied = x.occupied := by
    rw [occupied_eq, occupied_eq, hcapacity]
    exact (hx.probing.occupied_eq x.home_lt hy' hkeys'.symm hroom).symm
  refine ⟨hocc, ?_⟩
  rw [hx.findAllProbes_eq, hy.findAllProbes_eq, hocc, hcapacity, hhome,
    hx.probing.displacement_eq x.home_lt hy' hkeys'.symm hroom]

/-! ## Runs -/

/-- The insertions of these entries, in this order. -/
def insertions (entries : List (UInt64 × UInt32)) : List IndexOp := entries.map fun e => .insert e.1 e.2

/-- **New keys that fit are all inserted.** -/
theorem inserted_run : ∀ {entries : List (UInt64 × UInt32)} {x : OrderIndex P}, Valid x →
    (entries.map Prod.fst).Nodup → (∀ e ∈ entries, e.2 ≠ kNoOrder ∧ e.1 ∉ x.keys) →
    x.size + entries.length ≤ x.capacity / 2 →
      ∃ history y, x.run (insertions entries) = some (history, y) ∧ (∀ r ∈ history, r.2 = .inserted true) ∧
        Valid y ∧ ∀ key, key ∈ y.keys ↔ key ∈ x.keys ∨ key ∈ entries.map Prod.fst
  | [], x, hx, _, _, _ => ⟨[], x, rfl, by simp, hx, by simp⟩
  | (key, value) :: entries, x, hx, hnodup, hnew, hroom => by
    rw [List.map_cons, List.nodup_cons] at hnodup
    rw [List.length_cons] at hroom
    have hkey := hnew (key, value) List.mem_cons_self
    obtain ⟨b, x', hins, hx', hcap, hb, -, hok⟩ := hx.insert_spec key value
    have htrue : b = true := by
      rw [← Bool.not_eq_false, hb]
      rintro (hv | hfull)
      · exact hkey.1 hv
      · omega
    subst htrue
    have hkeys := keys_of_inserted (hok rfl)
    have hsize : x'.size = x.size + 1 := by
      rw [hx'.size_eq, hkeys, Set.ncard_insert_of_notMem hkey.2 x.keys_finite, ← hx.size_eq]
    obtain ⟨history, y, hrun, hall, hy, hmem⟩ := inserted_run hx' hnodup.2 (fun e he => by
      refine ⟨(hnew e (List.mem_cons_of_mem _ he)).1, ?_⟩
      rw [hkeys, Set.mem_insert_iff, not_or]
      refine ⟨?_, (hnew e (List.mem_cons_of_mem _ he)).2⟩
      intro heq
      have hmem := List.mem_map_of_mem (f := Prod.fst) he
      exact hnodup.1 (heq ▸ hmem)) (by unfold capacity at *; rw [hcap]; omega)
    refine ⟨(.insert key value, .inserted true) :: history, y, ?_, ?_, hy, fun k => ?_⟩
    · rw [insertions, List.map_cons, OrderIndex.run, OrderIndex.apply, hins, Option.map_some, Option.bind_some]
      show (x'.run (insertions entries)).map _ = _
      rw [hrun]
      rfl
    · rintro r hr
      rcases List.mem_cons.mp hr with rfl | hr
      · rfl
      · exact hall r hr
    · rw [hmem, hkeys, Set.mem_insert_iff, List.map_cons, List.mem_cons]
      tauto

/-- **Deletion leaves no trace.** After any operations, an empty table of the same capacity takes the keys that were
inserted and not erased since, in any order and with any values, and then uses the same slots and needs as many probes
to find every key once. -/
theorem erase_leaves_no_trace (P : HashPolicy) {capacityHint : UInt64} {empty : OrderIndex P}
    (hnew : new P capacityHint = some empty) (ops : List IndexOp) :
    ∃ history x, empty.run ops = some (history, x) ∧
      ∀ survivors : List (UInt64 × UInt32), (survivors.map Prod.fst).Nodup →
        (∀ key, key ∈ survivors.map Prod.fst ↔ latest key history ≠ kNoOrder) →
        (∀ e ∈ survivors, e.2 ≠ kNoOrder) →
          ∃ history' y, empty.run (insertions survivors) = some (history', y) ∧
            (∀ r ∈ history', r.2 = .inserted true) ∧
            y.occupied = x.occupied ∧ y.findAllProbes = x.findAllProbes := by
  obtain ⟨hvalid, hnone⟩ := valid_new hnew
  obtain ⟨history, x, hrun, -, hx⟩ := (represents_new hnew).run ops
  refine ⟨history, x, hrun, fun survivors hnodup hleft hstorable => ?_⟩
  have hcap := run_logCap hrun
  have hfound : ∀ key, latest key history ≠ kNoOrder ↔ key ∈ x.keys := by
    intro key
    obtain ⟨v, hv, habsent, -⟩ := hx.1.find_spec key
    obtain rfl := Option.some.inj ((hx.find_eq key).symm.trans hv)
    exact not_iff_comm.mp habsent.symm
  have hsurvivors : x.keys = {key | key ∈ survivors.map Prod.fst} := by
    ext key
    exact ((hleft key).trans (hfound key)).symm
  have hempty : ∀ key, key ∉ empty.keys := by
    intro key hkey
    obtain ⟨v, hv⟩ := mem_keys.mp hkey
    exact hnone key v hv
  have hlength : survivors.length = x.size := by
    rw [hx.1.size_eq, hsurvivors, ← List.length_map, ← List.toFinset_card_of_nodup hnodup,
      ← Set.ncard_coe_finset]
    congr 1
    ext key
    simp
  have hroom : empty.size + survivors.length ≤ empty.capacity / 2 := by
    have hsize := (new_eq_some hnew).2.1
    have hle := hx.1.size_le
    unfold capacity at hle ⊢
    rw [hcap] at hle
    omega
  obtain ⟨history', y, hrun', hall, hy, hkeys⟩ := inserted_run hvalid hnodup
    (fun e he => ⟨hstorable e he, hempty e.1⟩) hroom
  have hsame : y.keys = x.keys := by
    ext key
    rw [hkeys, hsurvivors]
    exact or_iff_right (hempty key)
  obtain ⟨hocc, hprobes⟩ := hx.1.same_slots hy ((run_logCap hrun').trans hcap.symm) hsame
  exact ⟨history', y, hrun', hall, hocc, hprobes⟩

/-- A table of sixteen slots. -/
def sixteen : OrderIndex stdHash := { logCap := 4, logCap_ge := by decide, logCap_lt := by decide }

/-- The references 1 and 17 have one home; when 1 is erased, 17 moves back to it. -/
theorem erase_leaves_no_trace_two : ∃ history x history' y,
    sixteen.run [.insert 1 10, .insert 17 20, .erase 1] = some (history, x) ∧
      sixteen.run (insertions [(17, 20)]) = some (history', y) ∧
      y.occupied = x.occupied ∧ y.findAllProbes = x.findAllProbes := by
  have hnew : new stdHash 4 = some sixteen := rfl
  have hresults : (sixteen.run [.insert 1 10, .insert 17 20, .erase 1]).map Prod.fst =
      some [(.insert 1 10, .inserted true), (.insert 17 20, .inserted true), (.erase 1, .found 10)] := by
    decide +kernel
  obtain ⟨history, x, hrun, hleft⟩ := erase_leaves_no_trace stdHash hnew [.insert 1 10, .insert 17 20, .erase 1]
  rw [hrun] at hresults
  obtain rfl := Option.some.inj hresults
  have hlatest : ∀ key, key ∈ [(17, (20 : UInt32))].map Prod.fst ↔
      latest key [(.insert 1 10, .inserted true), (.insert 17 20, .inserted true), (.erase 1, .found 10)] ≠
        kNoOrder := by
    intro key
    rw [List.map_singleton, List.mem_singleton]
    by_cases h1 : (1 : UInt64) = key
    · subst h1
      decide
    · by_cases h17 : (17 : UInt64) = key
      · subst h17
        decide
      · simp [latest, IndexOp.effect, h1, h17, Ne.symm h17]
  obtain ⟨history', y, hins, -, hocc, hprobes⟩ := hleft [(17, 20)] (by decide) hlatest (by simp [kNoOrder])
  exact ⟨_, x, history', y, hrun, hins, hocc, hprobes⟩

end OrderIndex

end Carteret
