import Mathlib

/-!
# Linear probing in a cyclic table

A table of `cap` slots is a function `ℕ → Option ε`, read below `cap`. An entry `e` with key `key e` is
looked for from its home slot on, cyclically, up to the first empty slot.

1. `dist cap i j` is the number of steps from slot `i` forward to slot `j`.
2. `scan` walks forward to the first slot that meets a test; it ends within `cap` steps when some slot
   meets it (`scan_spec`).
3. `Inv`: no empty slot lies between the home of an entry and the entry, and keys are unique. Writing a slot
   where the entry is reached keeps it (`Inv.put`), so replacing an entry does, and filling the slot where the
   scan for an absent key stopped (`Inv.fill`).
4. `Hole` is `Inv` except at one empty slot `i`, with the slots up to `j` known not to need a move.
   Deletion by backward shift starts one (`Inv.hole`), goes on by `Hole.skip` and `Hole.move`, and ends by
   `Hole.done`.
-/

namespace Probing

/-! ## Cyclic distance -/

section Cycle

variable {cap i j k : ℕ}

/-- Steps from slot `i` forward to slot `j`. -/
def dist (cap i j : ℕ) : ℕ := if i ≤ j then j - i else j + cap - i

/-- The slot after `i`. -/
def next (cap i : ℕ) : ℕ := if i + 1 = cap then 0 else i + 1

theorem next_lt (hi : i < cap) : next cap i < cap := by unfold next; split <;> omega

theorem next_eq_mod (hi : i < cap) : next cap i = (i + 1) % cap := by
  unfold next
  split
  · rename_i h; rw [h, Nat.mod_self]
  · rw [Nat.mod_eq_of_lt (by omega)]

@[simp] theorem dist_self (cap i : ℕ) : dist cap i i = 0 := by simp [dist]

theorem dist_lt (hj : j < cap) : dist cap i j < cap := by
  unfold dist; split <;> omega

theorem dist_inj (hi : i < cap) (hj : j < cap) (hk : k < cap) (h : dist cap i j = dist cap i k) :
    j = k := by
  unfold dist at h; split_ifs at h <;> omega

theorem dist_eq_zero (hi : i < cap) : dist cap i j = 0 ↔ i = j := by unfold dist; split <;> omega

theorem dist_next (hi : i < cap) (hj : j < cap) (hne : i ≠ j) :
    dist cap (next cap i) j + 1 = dist cap i j := by
  unfold dist next; split_ifs <;> omega

theorem dist_next_right (hi : i < cap) (hne : next cap j ≠ i) :
    dist cap i (next cap j) = dist cap i j + 1 := by
  unfold next at hne ⊢; unfold dist; split_ifs at hne ⊢ <;> omega

end Cycle

/-! ## Scanning -/

/-- The first slot from `i` on that meets `stop`; `none` when `fuel` steps do not reach one. -/
def scan (step : ℕ → ℕ) (stop : ℕ → Bool) : ℕ → ℕ → Option ℕ
  | 0, _ => none
  | fuel + 1, i => if stop i then some i else scan step stop fuel (step i)

theorem scan_spec {cap : ℕ} {step : ℕ → ℕ} {stop : ℕ → Bool}
    (hstep : ∀ i < cap, step i = next cap i) : ∀ {fuel i z : ℕ}, i < cap → z < cap → stop z →
      dist cap i z < fuel → ∃ y, scan step stop fuel i = some y ∧ y < cap ∧ stop y ∧
        ∀ x < cap, dist cap i x < dist cap i y → stop x = false
  | 0, i, z, _, _, _, hfuel => absurd hfuel (Nat.not_lt_zero _)
  | fuel + 1, i, z, hi, hz, hstop, hfuel => by
    by_cases hhere : stop i
    · exact ⟨i, by rw [scan, if_pos hhere], hi, hhere, fun x _ hx => by
        rw [dist_self] at hx; exact absurd hx (Nat.not_lt_zero _)⟩
    · have hne : i ≠ z := by rintro rfl; exact hhere hstop
      have hcloser := dist_next hi hz hne
      obtain ⟨y, hy, hylt, hystop, hbefore⟩ :=
        scan_spec hstep (next_lt hi) hz hstop (by omega : dist cap (next cap i) z < fuel)
      refine ⟨y, by rw [scan, if_neg hhere, hstep i hi, hy], hylt, hystop, fun x hx hlt => ?_⟩
      by_cases hix : i = x
      · rw [← hix]; simpa using hhere
      · have hiy : i ≠ y := by rintro rfl; exact hhere hystop
        have h1 := dist_next hi hx hix
        have h2 := dist_next hi hylt hiy
        exact hbefore x hx (by omega)

/-! ## The table -/

section Table

variable {ε κ : Type*} {cap : ℕ} {home : κ → ℕ} {key : ε → κ} {t : ℕ → Option ε}

/-- The table holds the entry. -/
def Contains (cap : ℕ) (t : ℕ → Option ε) (e : ε) : Prop := ∃ x < cap, t x = some e

/-- The keys of the table. -/
def keys (cap : ℕ) (key : ε → κ) (t : ℕ → Option ε) : Set κ := {k | ∃ e, Contains cap t e ∧ key e = k}

/-- Keys are unique, and each entry is reached from its home without crossing an empty slot. -/
structure Inv (cap : ℕ) (home : κ → ℕ) (key : ε → κ) (t : ℕ → Option ε) : Prop where
  reach : ∀ x < cap, ∀ e, t x = some e → ∀ y < cap,
    dist cap (home (key e)) y < dist cap (home (key e)) x → t y ≠ none
  unique : ∀ x < cap, ∀ y < cap, ∀ e f, t x = some e → t y = some f → key e = key f → x = y

theorem Inv.empty (cap : ℕ) (home : κ → ℕ) (key : ε → κ) : Inv cap home key fun _ => none := by
  refine ⟨?_, ?_⟩
  · intro x _ e he
    cases he
  · intro x _ y _ e f he
    cases he

theorem keys_finite (cap : ℕ) (key : ε → κ) (t : ℕ → Option ε) : (keys cap key t).Finite := by
  have hsub : some '' keys cap key t ⊆ (fun x => (t x).map key) '' Set.Iio cap := by
    rintro _ ⟨_, ⟨e, ⟨x, hx, he⟩, rfl⟩, rfl⟩
    exact ⟨x, hx, by simp [he]⟩
  exact (((Set.finite_Iio cap).image _).subset hsub).of_finite_image (Option.some_injective κ).injOn

/-- There is an empty slot while there are fewer keys than slots. -/
theorem Inv.exists_empty (h : Inv cap home key t) (hlt : (keys cap key t).ncard < cap) :
    ∃ x < cap, t x = none := by
  by_contra hfull
  push Not at hfull
  have hsome : ∀ x : Fin cap, ∃ e, t x = some e := fun x =>
    Option.ne_none_iff_exists'.mp (hfull x x.isLt)
  choose e he using hsome
  have hinj : Function.Injective fun x : Fin cap => key (e x) := fun x y hxy =>
    Fin.ext (h.unique x x.isLt y y.isLt _ _ (he x) (he y) hxy)
  have hsub : Set.range (fun x : Fin cap => key (e x)) ⊆ keys cap key t := by
    rintro _ ⟨x, rfl⟩
    exact ⟨e x, ⟨x, x.isLt, he x⟩, rfl⟩
  have hcard : (Set.range fun x : Fin cap => key (e x)).ncard = cap := by
    rw [← Set.image_univ, Set.ncard_image_of_injective _ hinj, Set.ncard_univ, Nat.card_fin]
  have := Set.ncard_le_ncard hsub (keys_finite cap key t)
  omega

/-- Two entries of one key are one entry. -/
theorem Inv.eq_of_key_eq (h : Inv cap home key t) {e f : ε} (he : Contains cap t e)
    (hf : Contains cap t f) (hk : key e = key f) : e = f := by
  obtain ⟨x, hx, he⟩ := he
  obtain ⟨y, hy, hf⟩ := hf
  obtain rfl := h.unique x hx y hy e f he hf hk
  exact Option.some.inj (he.symm.trans hf)

/-- Writing a slot: the entry is reached there, and its key is in no other slot. -/
theorem Inv.put (h : Inv cap home key t) {e : ε} {y : ℕ} (hy : y < cap)
    (hreach : ∀ z < cap, dist cap (home (key e)) z < dist cap (home (key e)) y → t z ≠ none)
    (hother : ∀ x < cap, x ≠ y → ∀ f, t x = some f → key f ≠ key e) :
    Inv cap home key (Function.update t y (some e)) ∧
      ∀ f, Contains cap (Function.update t y (some e)) f ↔ f = e ∨ ∃ x < cap, x ≠ y ∧ t x = some f := by
  have hold : ∀ x < cap, ∀ f, Function.update t y (some e) x = some f →
      (x = y ∧ f = e) ∨ (x ≠ y ∧ t x = some f ∧ key f ≠ key e) := by
    intro x hx f hf
    by_cases hxy : x = y
    · rw [hxy, Function.update_self] at hf
      exact .inl ⟨hxy, (Option.some.inj hf).symm⟩
    · rw [Function.update_of_ne hxy] at hf
      exact .inr ⟨hxy, hf, hother x hx hxy f hf⟩
  refine ⟨⟨?_, ?_⟩, fun f => ⟨?_, ?_⟩⟩
  · intro x hx f hf z hz hlt
    by_cases hzy : z = y
    · rw [hzy, Function.update_self]; simp
    · rw [Function.update_of_ne hzy]
      rcases hold x hx f hf with ⟨rfl, rfl⟩ | ⟨-, hf', -⟩
      · exact hreach z hz hlt
      · exact h.reach x hx f hf' z hz hlt
  · intro x hx z hz f g hf hg hk
    rcases hold x hx f hf with ⟨rfl, rfl⟩ | ⟨-, hf', hfe⟩ <;>
      rcases hold z hz g hg with ⟨rfl, rfl⟩ | ⟨-, hg', hge⟩
    · rfl
    · exact absurd hk.symm hge
    · exact absurd hk hfe
    · exact h.unique x hx z hz f g hf' hg' hk
  · rintro ⟨x, hx, hf⟩
    rcases hold x hx f hf with ⟨-, rfl⟩ | ⟨hxy, hf', -⟩
    · exact .inl rfl
    · exact .inr ⟨x, hx, hxy, hf'⟩
  · rintro (rfl | ⟨x, hx, hxy, hf⟩)
    · exact ⟨y, hy, Function.update_self ..⟩
    · exact ⟨x, hx, by rw [Function.update_of_ne hxy]; exact hf⟩

/-- Replacing an entry by one with the same key. -/
theorem Inv.replace (h : Inv cap home key t) {d e : ε} {y : ℕ} (hy : y < cap) (hd : t y = some d)
    (hk : key d = key e) :
    Inv cap home key (Function.update t y (some e)) ∧
      ∀ f, Contains cap (Function.update t y (some e)) f ↔
        f = e ∨ (Contains cap t f ∧ key f ≠ key e) := by
  have hother : ∀ x < cap, x ≠ y → ∀ f, t x = some f → key f ≠ key e := fun x hx hxy f hf hke =>
    hxy (h.unique x hx y hy f d hf hd (hke.trans hk.symm))
  obtain ⟨hinv, hcontains⟩ := h.put hy (fun z hz hlt => h.reach y hy d hd z hz (by rwa [hk])) hother
  refine ⟨hinv, fun f => (hcontains f).trans (or_congr_right ⟨?_, ?_⟩)⟩
  · rintro ⟨x, hx, hxy, hf⟩
    exact ⟨⟨x, hx, hf⟩, hother x hx hxy f hf⟩
  · rintro ⟨⟨x, hx, hf⟩, hne⟩
    refine ⟨x, hx, ?_, hf⟩
    rintro rfl
    rw [hd] at hf
    exact hne ((Option.some.inj hf) ▸ hk)

section Home

variable (hhome : ∀ k, home k < cap)

include hhome

/-- A key whose scan meets an empty slot first is not in the table. -/
theorem Inv.not_mem_keys (h : Inv cap home key t) {k : κ} {y : ℕ} (hy : y < cap)
    (hempty : t y = none)
    (hbefore : ∀ x < cap, dist cap (home k) x < dist cap (home k) y →
      ∀ e, t x = some e → key e ≠ k) : k ∉ keys cap key t := by
  rintro ⟨e, ⟨x, hx, he⟩, rfl⟩
  by_cases hlt : dist cap (home (key e)) x < dist cap (home (key e)) y
  · exact hbefore x hx hlt e he rfl
  · have hne : dist cap (home (key e)) y ≠ dist cap (home (key e)) x := by
      intro heq
      rw [← dist_inj (hhome _) hy hx heq, hempty] at he
      cases he
    exact h.reach x hx e he y hy (by omega) hempty

/-- Filling the empty slot where the scan for an absent key stopped. -/
theorem Inv.fill (h : Inv cap home key t) {e : ε} {y : ℕ} (hy : y < cap) (hempty : t y = none)
    (hbefore : ∀ x < cap, dist cap (home (key e)) x < dist cap (home (key e)) y →
      ∃ f, t x = some f ∧ key f ≠ key e) :
    Inv cap home key (Function.update t y (some e)) ∧
      ∀ f, Contains cap (Function.update t y (some e)) f ↔ f = e ∨ Contains cap t f := by
  have habsent : key e ∉ keys cap key t :=
    h.not_mem_keys hhome hy hempty fun x hx hlt f hf => by
      obtain ⟨g, hg, hne⟩ := hbefore x hx hlt
      rw [hg] at hf
      rwa [Option.some.inj hf] at hne
  obtain ⟨hinv, hcontains⟩ := h.put hy
    (fun z hz hlt => by
      obtain ⟨g, hg, -⟩ := hbefore z hz hlt
      rw [hg]
      exact Option.some_ne_none g)
    fun x hx _ f hf hk => habsent ⟨f, ⟨x, hx, hf⟩, hk⟩
  refine ⟨hinv, fun f => (hcontains f).trans (or_congr_right ⟨?_, ?_⟩)⟩
  · rintro ⟨x, hx, -, hf⟩
    exact ⟨x, hx, hf⟩
  · rintro ⟨x, hx, hf⟩
    refine ⟨x, hx, ?_, hf⟩
    rintro rfl
    rw [hempty] at hf
    cases hf

end Home

/-! ## Deletion by backward shift -/

/-- The table is in order but for the empty slot `i`, and no entry from after `i` up to `j` may be
moved back into it. -/
structure Hole (cap : ℕ) (home : κ → ℕ) (key : ε → κ) (t : ℕ → Option ε) (i j : ℕ) : Prop where
  empty : t i = none
  settled : ∀ x < cap, 0 < dist cap i x → dist cap i x ≤ dist cap i j →
    ∃ e, t x = some e ∧ dist cap (home (key e)) x < dist cap (home (key e)) i
  reach : ∀ x < cap, ∀ e, t x = some e → ∀ y < cap,
    dist cap (home (key e)) y < dist cap (home (key e)) x → y ≠ i → t y ≠ none
  unique : ∀ x < cap, ∀ y < cap, ∀ e f, t x = some e → t y = some f → key e = key f → x = y

variable {i j : ℕ}

/-- Deletion empties a slot. -/
theorem Inv.hole (h : Inv cap home key t) (i : ℕ) {d : ε} (hi : i < cap) (hd : t i = some d) :
    Hole cap home key (Function.update t i none) i i ∧
      ∀ f, Contains cap (Function.update t i none) f ↔ Contains cap t f ∧ f ≠ d := by
  have hold : ∀ x f, Function.update t i none x = some f → x ≠ i ∧ t x = some f := by
    intro x f hf
    by_cases hxi : x = i
    · rw [hxi, Function.update_self] at hf; cases hf
    · rw [Function.update_of_ne hxi] at hf; exact ⟨hxi, hf⟩
  refine ⟨⟨Function.update_self .., ?_, ?_, ?_⟩, fun f => ⟨?_, ?_⟩⟩
  · intro x _ hpos hle
    rw [dist_self] at hle
    omega
  · intro x hx e he y hy hlt hne
    rw [Function.update_of_ne hne]
    exact h.reach x hx e (hold x e he).2 y hy hlt
  · intro x hx y hy e f he hf hk
    exact h.unique x hx y hy e f (hold x e he).2 (hold y f hf).2 hk
  · rintro ⟨x, hx, hf⟩
    obtain ⟨hxi, hf⟩ := hold x f hf
    refine ⟨⟨x, hx, hf⟩, ?_⟩
    rintro rfl
    exact hxi (h.unique x hx i hi f f hf hd rfl)
  · rintro ⟨⟨x, hx, hf⟩, hne⟩
    have hxi : x ≠ i := by
      rintro rfl
      rw [hd] at hf
      exact hne (Option.some.inj hf).symm
    exact ⟨x, hx, by rw [Function.update_of_ne hxi]; exact hf⟩

section HoleHome

variable (hhome : ∀ k, home k < cap)

/-- The next slot holds an entry that stays. -/
theorem Hole.skip (h : Hole cap home key t i j) (hi : i < cap) (hj : j < cap) {e : ε}
    (he : t (next cap j) = some e)
    (hstay : dist cap (home (key e)) (next cap j) < dist cap (home (key e)) i) :
    Hole cap home key t i (next cap j) := by
  refine ⟨h.empty, fun x hx hpos hle => ?_, h.reach, h.unique⟩
  have hne : next cap j ≠ i := by
    rintro heq
    rw [heq, h.empty] at he
    cases he
  rw [dist_next_right hi hne] at hle
  by_cases hlast : dist cap i x = dist cap i (next cap j)
  · obtain rfl := dist_inj hi hx (next_lt hj) hlast
    exact ⟨e, he, hstay⟩
  · rw [dist_next_right hi hne] at hlast
    exact h.settled x hx hpos (by omega)

include hhome

/-- The next slot holds an entry that is moved back into the hole. -/
theorem Hole.move (h : Hole cap home key t i j) (hi : i < cap) (hj : j < cap) {e : ε}
    (he : t (next cap j) = some e)
    (hmove : ¬ dist cap (home (key e)) (next cap j) < dist cap (home (key e)) i) :
    Hole cap home key (Function.update (Function.update t i (some e)) (next cap j) none)
        (next cap j) (next cap j) ∧
      ∀ f, Contains cap (Function.update (Function.update t i (some e)) (next cap j) none) f ↔
        Contains cap t f := by
  have hn := next_lt hj
  have hne : next cap j ≠ i := by
    rintro heq
    rw [heq, h.empty] at he
    cases he
  have hback : dist cap (home (key e)) i < dist cap (home (key e)) (next cap j) := by
    have : dist cap (home (key e)) i ≠ dist cap (home (key e)) (next cap j) := fun heq =>
      hne (dist_inj (hhome _) hi hn heq).symm
    omega
  set t' := Function.update (Function.update t i (some e)) (next cap j) none with ht'
  have hat : t' i = some e := by
    rw [ht', Function.update_of_ne hne.symm, Function.update_self]
  have hoff : ∀ x, x ≠ i → x ≠ next cap j → t' x = t x := by
    intro x h1 h2
    rw [ht', Function.update_of_ne h2, Function.update_of_ne h1]
  have hgone : t' (next cap j) = none := by rw [ht', Function.update_self]
  -- an entry of the new table is the moved one, or it stands where it stood
  have hold : ∀ x f, t' x = some f → (x = i ∧ f = e) ∨ (x ≠ i ∧ x ≠ next cap j ∧ t x = some f) := by
    intro x f hf
    by_cases hxi : x = i
    · rw [hxi, hat] at hf
      exact .inl ⟨hxi, (Option.some.inj hf).symm⟩
    · by_cases hxn : x = next cap j
      · rw [hxn, hgone] at hf; cases hf
      · rw [hoff x hxi hxn] at hf
        exact .inr ⟨hxi, hxn, hf⟩
  refine ⟨⟨hgone, ?_, ?_, ?_⟩, fun f => ⟨?_, ?_⟩⟩
  · intro x _ hpos hle
    rw [dist_self] at hle
    omega
  · intro x hx f hf y hy hlt hyn
    by_cases hyi : y = i
    · rw [hyi, hat]; simp
    · rw [hoff y hyi hyn]
      rcases hold x f hf with ⟨rfl, rfl⟩ | ⟨-, -, hf'⟩
      · exact h.reach _ hn f he y hy (by omega) hyi
      · exact h.reach x hx f hf' y hy hlt hyi
  · intro x hx y hy f g hf hg hk
    rcases hold x f hf with ⟨rfl, rfl⟩ | ⟨-, hxn, hf'⟩ <;>
      rcases hold y g hg with ⟨rfl, rfl⟩ | ⟨-, hyn, hg'⟩
    · rfl
    · exact absurd (h.unique _ hn y hy f g he hg' hk).symm hyn
    · exact absurd (h.unique x hx _ hn f g hf' he hk) hxn
    · exact h.unique x hx y hy f g hf' hg' hk
  · rintro ⟨x, hx, hf⟩
    rcases hold x f hf with ⟨-, rfl⟩ | ⟨-, -, hf'⟩
    · exact ⟨_, hn, he⟩
    · exact ⟨x, hx, hf'⟩
  · rintro ⟨x, hx, hf⟩
    by_cases hxn : x = next cap j
    · rw [hxn, he] at hf
      exact ⟨i, hi, hat.trans hf⟩
    · have hxi : x ≠ i := by rintro rfl; rw [h.empty] at hf; cases hf
      exact ⟨x, hx, (hoff x hxi hxn).trans hf⟩

/-- The next slot is empty: nothing beyond it can have crossed the hole. -/
theorem Hole.done (h : Hole cap home key t i j) (hi : i < cap) (hj : j < cap)
    (hend : t (next cap j) = none) : Inv cap home key t := by
  refine ⟨fun x hx e he y hy hlt => ?_, h.unique⟩
  by_cases hyi : y = i
  · subst hyi
    exfalso
    have hxy : dist cap y x ≠ 0 := by
      intro h0
      have hyx := (dist_eq_zero hi).mp h0
      rw [← hyx, h.empty] at he
      cases he
    by_cases hin : dist cap y x ≤ dist cap y j
    · obtain ⟨f, hf, hstay⟩ := h.settled x hx (Nat.pos_of_ne_zero hxy) hin
      obtain rfl : e = f := Option.some.inj (he.symm.trans hf)
      omega
    · -- the empty slot lies between the hole and the entry, so on the way from its home
      have hne : next cap j ≠ x := by rintro heq; rw [heq, he] at hend; cases hend
      have hny : next cap j ≠ y := by
        intro heq
        have h1 := dist_lt (i := y) hx
        unfold dist next at *
        split_ifs at * <;> omega
      refine h.reach x hx e he (next cap j) (next_lt hj) ?_ hny hend
      have hk := hhome (key e)
      have h1 := dist_next_right hi hny
      have h2 : dist cap y (next cap j) < dist cap y x := by
        have : dist cap y (next cap j) ≠ dist cap y x := fun heq =>
          hne (dist_inj hi (next_lt hj) hx heq)
        omega
      have hn := next_lt hj
      generalize next cap j = z at *
      unfold dist at *
      split_ifs at * <;> omega
  · exact h.reach x hx e he y hy hlt hyi

end HoleHome

end Table

end Probing
