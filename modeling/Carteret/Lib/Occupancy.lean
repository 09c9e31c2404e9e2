import Carteret.Lib.LinearProbing

/-!
# The slots that linear probing uses

Which slots a table uses depends on the homes of its keys only, not on how it was filled.

1. `Inv.occupied_eq`: two tables that meet `Inv` and hold the same keys use the same slots. If a slot were used in
   one and not in the other, the run of used slots that ends there would hold more keys than it has room for.
2. `Inv.displacement_eq`: the distances of the entries from their homes add up to the same in both.
3. `reads` counts the slots that a scan looks at.
-/

namespace Probing

/-! ## Distances from a third slot -/

section Cycle

variable {cap i j z : ℕ}

theorem dist_add (hz : z < cap) (hi : i < cap) (hj : j < cap) (h : dist cap z i ≤ dist cap z j) :
    dist cap z i + dist cap i j = dist cap z j := by
  unfold dist at *; split_ifs at * <;> omega

/-- Around the table, through `z`. -/
theorem dist_through (hz : z < cap) (hi : i < cap) (hj : j < cap) (h : dist cap z j < dist cap z i) :
    dist cap i z + dist cap z j = dist cap i j := by
  unfold dist at *; split_ifs at * <;> omega

/-- There and back is a whole turn. -/
theorem dist_turn (hi : i < cap) (h : 0 < dist cap z i) : dist cap z i + dist cap i z = cap := by
  unfold dist at *; split_ifs at * <;> omega

end Cycle

/-! ## Counting reads -/

/-- How many slots `scan` looks at. -/
def reads (step : ℕ → ℕ) (stop : ℕ → Bool) : ℕ → ℕ → ℕ
  | 0, _ => 0
  | fuel + 1, i => if stop i then 1 else reads step stop fuel (step i) + 1

theorem reads_spec {cap : ℕ} {step : ℕ → ℕ} {stop : ℕ → Bool} (hstep : ∀ i < cap, step i = next cap i) :
    ∀ {fuel i y : ℕ}, i < cap → y < cap → stop y →
      (∀ x < cap, dist cap i x < dist cap i y → stop x = false) → dist cap i y < fuel →
        reads step stop fuel i = dist cap i y + 1
  | 0, i, y, _, _, _, _, hfuel => absurd hfuel (Nat.not_lt_zero _)
  | fuel + 1, i, y, hi, hy, hstop, hbefore, hfuel => by
    by_cases heq : i = y
    · subst heq
      rw [reads, if_pos hstop, dist_self]
    · have hcloser := dist_next hi hy heq
      have hpos : dist cap i i < dist cap i y := by rw [dist_self]; omega
      have hhere : ¬ stop i = true := by rw [hbefore i hi hpos]; exact Bool.false_ne_true
      rw [reads, if_neg hhere, hstep i hi, reads_spec hstep (next_lt hi) hy hstop ?_ (by omega), hcloser]
      intro x hx hlt
      by_cases hix : i = x
      · exact hix ▸ hbefore i hi hpos
      · have := dist_next hi hx hix
        exact hbefore x hx (by omega)

/-! ## Occupied slots -/

section Table

variable {ε κ : Type*} {cap : ℕ} {home : κ → ℕ} {key : ε → κ} {t t' : ℕ → Option ε} {x z : ℕ} {e : ε}

def occupied (cap : ℕ) (t : ℕ → Option ε) : Finset ℕ := (Finset.range cap).filter fun x => (t x).isSome

theorem mem_occupied : x ∈ occupied cap t ↔ x < cap ∧ ∃ e, t x = some e := by
  unfold occupied
  rw [Finset.mem_filter, Finset.mem_range, Option.isSome_iff_exists]

/-- How far the entries stand from their homes, added up. -/
def displacement (cap : ℕ) (home : κ → ℕ) (key : ε → κ) (t : ℕ → Option ε) : ℕ :=
  ∑ x ∈ occupied cap t, (t x).elim 0 fun e => dist cap (home (key e)) x

/-- Only the slot itself is at distance zero. -/
theorem dist_pos (hz : z < cap) (hempty : t z = none) (he : t x = some e) : 0 < dist cap z x := by
  refine Nat.pos_of_ne_zero fun h0 => ?_
  rw [← (dist_eq_zero hz).mp h0, hempty] at he
  cases he

/-- A sum over the slots in use of what only depends on the key there is a sum over the keys. -/
theorem Inv.sum_keys (h : Inv cap home key t) (φ : κ → ℕ) :
    ∑ x ∈ occupied cap t, (t x).elim 0 (fun e => φ (key e)) = ∑ k ∈ (keys_finite cap key t).toFinset, φ k := by
  have hget : ∀ (x) (hx : x ∈ occupied cap t), ∃ e, t x = some e ∧ (t x).get (Finset.mem_filter.mp hx).2 = e := by
    intro x hx
    obtain ⟨-, e, he⟩ := mem_occupied.mp hx
    exact ⟨e, he, Option.get_of_eq_some _ he⟩
  refine Finset.sum_bij (fun x hx => key ((t x).get (Finset.mem_filter.mp hx).2)) ?_ ?_ ?_ ?_
  · intro x hx
    obtain ⟨e, he, hg⟩ := hget x hx
    rw [hg, Set.Finite.mem_toFinset]
    exact ⟨e, ⟨x, (mem_occupied.mp hx).1, he⟩, rfl⟩
  · intro x hx y hy heq
    obtain ⟨e, he, hg⟩ := hget x hx
    obtain ⟨f, hf, hg'⟩ := hget y hy
    rw [hg, hg'] at heq
    exact h.unique x (mem_occupied.mp hx).1 y (mem_occupied.mp hy).1 e f he hf heq
  · intro k hk
    obtain ⟨e, ⟨x, hx, he⟩, rfl⟩ := (Set.Finite.mem_toFinset _).mp hk
    have hmem := mem_occupied.mpr ⟨hx, e, he⟩
    obtain ⟨f, hf, hg⟩ := hget x hmem
    exact ⟨x, hmem, by rw [hg, Option.some.inj (hf.symm.trans he)]⟩
  · intro x hx
    obtain ⟨e, he, hg⟩ := hget x hx
    rw [hg, he]
    rfl

/-- Before every slot in use there is an empty one with slots in use only up to it. -/
theorem exists_run (hz : z < cap) (hempty : t z = none) (he : t x = some e) :
    ∃ s < cap, t s = none ∧ dist cap z s < dist cap z x ∧
      ∀ y < cap, dist cap z s < dist cap z y → dist cap z y < dist cap z x → ∃ f, t y = some f := by
  let before := (Finset.range cap).filter fun y => t y = none ∧ dist cap z y < dist cap z x
  have hmem : ∀ {y}, y ∈ before ↔ y < cap ∧ t y = none ∧ dist cap z y < dist cap z x := by
    intro y
    rw [Finset.mem_filter, Finset.mem_range]
  have hzmem : z ∈ before := by
    refine hmem.mpr ⟨hz, hempty, ?_⟩
    rw [dist_self]
    exact dist_pos hz hempty he
  obtain ⟨s, hs, hmax⟩ := before.exists_max_image (dist cap z) ⟨z, hzmem⟩
  obtain ⟨hs, hsempty, hsx⟩ := hmem.mp hs
  refine ⟨s, hs, hsempty, hsx, fun y hy hsy hyx => ?_⟩
  by_contra hnone
  have hynone : t y = none := Option.eq_none_iff_forall_ne_some.mpr fun f hf => hnone ⟨f, hf⟩
  exact absurd (hmax y (hmem.mpr ⟨hy, hynone, hyx⟩)) (not_le.mpr hsy)

section Home

variable (hhome : ∀ k, home k < cap)

include hhome

/-- Seen from any empty slot, an entry stands at or behind its home. -/
theorem Inv.home_le (h : Inv cap home key t) (hz : z < cap) (hempty : t z = none) (hx : x < cap)
    (he : t x = some e) : dist cap z (home (key e)) ≤ dist cap z x := by
  by_contra hlt
  have hthrough := dist_through hz (hhome (key e)) hx (not_le.mp hlt)
  have hpos := dist_pos hz hempty he
  exact h.reach x hx e he z hz (by omega) hempty

theorem Inv.dist_home (h : Inv cap home key t) (hz : z < cap) (hempty : t z = none) (hx : x < cap)
    (he : t x = some e) : dist cap z (home (key e)) + dist cap (home (key e)) x = dist cap z x :=
  dist_add hz (hhome _) hx (h.home_le hhome hz hempty hx he)

/-- No empty slot lies between the home and the entry. -/
theorem Inv.lt_home (h : Inv cap home key t) (hz : z < cap) (hempty : t z = none) (hx : x < cap)
    (he : t x = some e) {s : ℕ} (hs : s < cap) (hsempty : t s = none) (hsx : dist cap z s < dist cap z x) :
    dist cap z s < dist cap z (home (key e)) := by
  by_contra hle
  have hhx := h.dist_home hhome hz hempty hx he
  have hhs := dist_add hz (hhome (key e)) hs (not_lt.mp hle)
  exact h.reach x hx e he s hs (by omega) hsempty

/-- **A table uses no slot that another table of its keys leaves empty.** -/
theorem Inv.occupied_subset (h : Inv cap home key t) (h' : Inv cap home key t')
    (hkeys : keys cap key t = keys cap key t') (hlt : (keys cap key t).ncard < cap) :
    occupied cap t ⊆ occupied cap t' := by
  intro x hx
  obtain ⟨hx, e, he⟩ := mem_occupied.mp hx
  by_contra hnot
  have hxempty : t' x = none := by
    refine Option.eq_none_iff_forall_ne_some.mpr fun f hf => hnot (mem_occupied.mpr ⟨hx, f, hf⟩)
  obtain ⟨z, hz, hempty⟩ := h.exists_empty hlt
  obtain ⟨s, hs, hsempty, hsx, hrun⟩ := exists_run hz hempty he
  let R := (Finset.range cap).filter fun y => dist cap z s < dist cap z y ∧ dist cap z y ≤ dist cap z x
  have hR : ∀ {y}, y ∈ R ↔ y < cap ∧ dist cap z s < dist cap z y ∧ dist cap z y ≤ dist cap z x := by
    intro y
    rw [Finset.mem_filter, Finset.mem_range]
  -- the key at a slot of the run stands in the run in the other table too, and before `x`
  have hmove : ∀ y ∈ R, ∃ y' ∈ R.erase x, ∃ f f', t y = some f ∧ t' y' = some f' ∧ key f = key f' := by
    intro y hy
    obtain ⟨hy, hsy, hyx⟩ := hR.mp hy
    have hused : ∃ f, t y = some f := by
      by_cases heq : dist cap z y = dist cap z x
      · exact ⟨e, dist_inj hz hy hx heq ▸ he⟩
      · exact hrun y hy hsy (by omega)
    obtain ⟨f, hf⟩ := hused
    have hmem : key f ∈ keys cap key t' := hkeys ▸ ⟨f, ⟨y, hy, hf⟩, rfl⟩
    obtain ⟨f', ⟨y', hy', hf'⟩, hkey⟩ := hmem
    have hsh := h.lt_home hhome hz hempty hy hf hs hsempty hsy
    have hhy := h.home_le hhome hz hempty hy hf
    have hhx := dist_add hz (hhome (key f)) hx (hhy.trans hyx)
    have hne : y' ≠ x := by
      rintro rfl
      rw [hxempty] at hf'
      cases hf'
    have hbefore : dist cap (home (key f)) y' < dist cap (home (key f)) x := by
      by_contra hge
      have hstrict : dist cap (home (key f)) x ≠ dist cap (home (key f)) y' := fun heq =>
        hne (dist_inj (hhome _) hx hy' heq).symm
      exact h'.reach y' hy' f' hf' x hx (by rw [hkey]; omega) hxempty
    have hle : dist cap z (home (key f)) ≤ dist cap z y' := by
      by_contra hgt
      have hthrough := dist_through hz (hhome (key f)) hy' (not_le.mp hgt)
      have hturn := dist_turn (hhome (key f)) (Nat.zero_lt_of_lt (not_le.mp hgt))
      have hxlt := dist_lt (i := z) hx
      omega
    have hhy' := dist_add hz (hhome (key f)) hy' hle
    exact ⟨y', Finset.mem_erase.mpr ⟨hne, hR.mpr ⟨hy', by omega, by omega⟩⟩, f, f', hf, hf', hkey.symm⟩
  choose! g hg hsame using hmove
  have hinj : Set.InjOn g R := by
    intro y₁ hy₁ y₂ hy₂ hgy
    obtain ⟨f₁, f₁', hf₁, hf₁', hk₁⟩ := hsame y₁ hy₁
    obtain ⟨f₂, f₂', hf₂, hf₂', hk₂⟩ := hsame y₂ hy₂
    have hfg : f₁' = f₂' := Option.some.inj (hf₁'.symm.trans (hgy ▸ hf₂'))
    exact h.unique y₁ (hR.mp hy₁).1 y₂ (hR.mp hy₂).1 f₁ f₂ hf₁ hf₂ (by rw [hk₁, hk₂, hfg])
  have hcard := Finset.card_le_card_of_injOn g hg hinj
  rw [Finset.card_erase_of_mem (hR.mpr ⟨hx, hsx, le_rfl⟩)] at hcard
  have hpos : 0 < R.card := Finset.card_pos.mpr ⟨x, hR.mpr ⟨hx, hsx, le_rfl⟩⟩
  omega

/-- **Which slots are in use depends on the keys only.** -/
theorem Inv.occupied_eq (h : Inv cap home key t) (h' : Inv cap home key t')
    (hkeys : keys cap key t = keys cap key t') (hlt : (keys cap key t).ncard < cap) :
    occupied cap t = occupied cap t' :=
  (h.occupied_subset hhome h' hkeys hlt).antisymm
    (h'.occupied_subset hhome h hkeys.symm (hkeys ▸ hlt))

/-- **How far the entries stand from their homes depends on the keys only.** -/
theorem Inv.displacement_eq (h : Inv cap home key t) (h' : Inv cap home key t')
    (hkeys : keys cap key t = keys cap key t') (hlt : (keys cap key t).ncard < cap) :
    displacement cap home key t = displacement cap home key t' := by
  have hocc := h.occupied_eq hhome h' hkeys hlt
  obtain ⟨z, hz, hempty⟩ := h.exists_empty hlt
  have hempty' : t' z = none := by
    refine Option.eq_none_iff_forall_ne_some.mpr fun f hf => ?_
    have hmem : z ∈ occupied cap t := hocc ▸ mem_occupied.mpr ⟨hz, f, hf⟩
    obtain ⟨-, e, he⟩ := mem_occupied.mp hmem
    rw [hempty] at he
    cases he
  -- seen from an empty slot, the homes and the displacements add up to the slots in use
  have hsum : ∀ {u : ℕ → Option ε}, Inv cap home key u → u z = none →
      ∑ k ∈ (keys_finite cap key u).toFinset, dist cap z (home k) + displacement cap home key u =
        ∑ x ∈ occupied cap u, dist cap z x := by
    intro u hu huz
    rw [← hu.sum_keys fun k => dist cap z (home k), displacement, ← Finset.sum_add_distrib]
    refine Finset.sum_congr rfl fun x hx => ?_
    obtain ⟨hx, e, he⟩ := mem_occupied.mp hx
    rw [he]
    exact hu.dist_home hhome hz huz hx he
  have hthis := hsum h hempty
  have hother := hsum h' hempty'
  have hfin : (keys_finite cap key t).toFinset = (keys_finite cap key t').toFinset := by
    ext k
    rw [Set.Finite.mem_toFinset, Set.Finite.mem_toFinset, hkeys]
  rw [hfin, hocc] at hthis
  omega

end Home

end Table

end Probing
