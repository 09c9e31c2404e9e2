import Carteret.Lib.PrefixSums

/-!
# A replication of the stationary bootstrap

One session of `n` rows in one replication of `stationary_bootstrap_se`: block lengths are drawn until they cover
the session, the last one is trimmed, and each block is read from the prefix sums of the session run through twice.

The draws are parameters: `lens` of the geometric lengths, which are 64-bit integers, and `start` of the positions. A
`double` is an element of any type `F`, and what numpy computes is a parameter too (`Numpy`), of which no more is assumed
than what is documented (`Documented`). `none` is an `IndexError`.

1. The replication.
2. Lengths that cover the session, with sums on 64 bits, give blocks of its length (`trim_eq`).
3. Sums that wrap are out of order, and nothing is documented of a search in them (`not_pairwise_wrapped`).
4. The rows that the blocks read, and their sum where the arithmetic is exact (`exact_total`).
5. `replication_iff`.
-/

namespace Carteret

open PrefixSums

namespace Bootstrap

variable {F : Type}

/-- The numpy functions that are called. -/
structure Numpy (F : Type) where
  /-- `np.cumsum` of 64-bit integers. -/
  cumsum : List ℤ → List ℤ
  searchsorted : List ℤ → ℤ → ℕ
  /-- `a[i]`. -/
  item : (α : Type) → List α → ℤ → Option α
  zero : F
  sub : F → F → F
  /-- `np.cumsum` of doubles. -/
  cumsumF : List F → List F
  sum : List F → F

/-- A 64-bit integer. -/
def wrap (x : ℤ) : ℤ := x.bmod (2 ^ 64)

/-- Integer sums wrap silently, a search is in an array in order, and an index within an array is read. -/
structure Numpy.Documented (np : Numpy F) : Prop where
  cumsum : ∀ xs, np.cumsum xs = (PrefixSums.cumsum xs).map wrap
  length_cumsumF : ∀ xs, (np.cumsumF xs).length = xs.length
  searchsorted : ∀ xs v, xs.Pairwise (· ≤ ·) → np.searchsorted xs v ≤ xs.length ∧
    (∀ x ∈ xs.take (np.searchsorted xs v), x < v) ∧ ∀ x ∈ xs.drop (np.searchsorted xs v), v ≤ x
  item : ∀ (α : Type) (xs : List α) (i : ℤ), 0 ≤ i → np.item α xs i = xs[i.toNat]?

/-- `k_draw`, with `int(n / max(block, 1.0))`. -/
def kDraw (quotient : ℤ) : ℕ := (max (quotient * 2 + 8) 8).toNat

/-- `rng.geometric(p, size=k_draw)`. -/
def drawn (quotient : ℤ) (lens : ℕ → ℤ) : List ℤ := (List.range (kDraw quotient)).map lens

/-- The lengths of the blocks; `excess` is the source's `over`. -/
def trim (np : Numpy F) (n : ℕ) (lens : List ℤ) : Option (List ℤ) :=
  let cum := np.cumsum lens
  let take := np.searchsorted cum n + 1
  (np.item ℤ cum ((take : ℤ) - 1)).map fun c =>
    let lens := lens.take take
    let excess := wrap (c - n)
    let lens := if excess > 0 then lens.modifyLast (· - excess) else lens
    lens.filter fun l => decide (l > 0)

/-- `a[idx]`, of an array of indices. -/
def gather (np : Numpy F) (xs : List F) : List ℤ → Option (List F)
  | [] => some []
  | i :: is => (np.item F xs i).bind fun x => (gather np xs is).map (x :: ·)

structure Replication (F : Type) where
  lens : List ℤ
  starts : List ℤ
  ends : List ℤ
  total : F
deriving DecidableEq

/-- `divide n block` is `int(n / max(block, 1.0))`. -/
def replication (divide : ℕ → F → ℤ) (np : Numpy F) (x : List F) (block : F) (lens start : ℕ → ℤ) :
    Option (Replication F) := do
  let pre := np.zero :: np.cumsumF (x ++ x)
  let lens ← trim np x.length (drawn (divide x.length block) lens)
  let starts := (List.range lens.length).map start
  let ends := List.zipWith (· + ·) starts lens
  let hi ← gather np pre ends
  let lo ← gather np pre starts
  return ⟨lens, starts, ends, np.sum (List.zipWith np.sub hi lo)⟩

/-- The blocks have the session's length, and are read within its prefix sums. -/
structure Replication.Resamples (r : Replication F) (n : ℕ) : Prop where
  lens_pos : ∀ l ∈ r.lens, 0 < l
  sum_lens : r.lens.sum = n
  length_starts : r.starts.length = r.lens.length
  starts_lt : ∀ s ∈ r.starts, 0 ≤ s ∧ s < n
  ends_eq : r.ends = List.zipWith (· + ·) r.starts r.lens
  indices : ∀ i, i ∈ r.starts ∨ i ∈ r.ends → 0 ≤ i ∧ i ≤ 2 * n

/-! ## The blocks -/

section

variable {np : Numpy F} {n : ℕ} {lens : List ℤ} (hlens : ∀ l ∈ lens, 1 ≤ l ∧ l < 2 ^ 63)

theorem wrap_eq {x : ℤ} (h : 0 ≤ x) (hlt : x < 2 ^ 63) : wrap x = x := by
  unfold wrap
  apply Int.bmod_eq_of_le_mul_two
  · norm_num
    omega
  · norm_num
    omega

include hlens

theorem lens_nonneg : ∀ l ∈ lens, 0 ≤ l := fun l hl => zero_le_one.trans (hlens l hl).1

/-- Sums that fit are in the array. -/
theorem map_wrap_cumsum (hfit : lens.sum < 2 ^ 63) : (cumsum lens).map wrap = cumsum lens := by
  refine (List.map_congr_left fun c hc => ?_).trans (List.map_id _)
  refine wrap_eq ?_ ((le_sum_of_mem_cumsum (lens_nonneg hlens) hc).trans_lt hfit)
  obtain ⟨i, hi, rfl⟩ := List.mem_iff_getElem.mp hc
  rw [length_cumsum] at hi
  obtain ⟨_, heq⟩ := List.getElem?_eq_some_iff.mp (getElem?_cumsum hi)
  rw [heq]
  exact List.sum_nonneg fun l hl => lens_nonneg hlens l (List.mem_of_mem_take hl)

/-- The search finds the length that covers the session, or none. -/
theorem searchsorted_eq (hnp : np.Documented) (hfit : lens.sum < 2 ^ 63) :
    np.cumsum lens = cumsum lens ∧ np.searchsorted (np.cumsum lens) n = reach lens n := by
  have hcum : np.cumsum lens = cumsum lens := (hnp.cumsum lens).trans (map_wrap_cumsum hlens hfit)
  obtain ⟨hle, hbelow, habove⟩ := hnp.searchsorted (cumsum lens) n (pairwise_cumsum (lens_nonneg hlens))
  rw [length_cumsum] at hle
  rw [hcum]
  exact ⟨rfl, eq_reach hle hbelow habove⟩

/-- The lengths up to the one that covers the session, which is cut to what is left. -/
theorem trim_eq (hnp : np.Documented) (hn : 0 < n) (hcover : (n : ℤ) ≤ lens.sum) (hfit : lens.sum < 2 ^ 63) :
    trim np n lens = some (lens.take (reach lens n) ++ [n - (lens.take (reach lens n)).sum]) := by
  have hpos : (0 : ℤ) < n := by exact_mod_cast hn
  have hreach : reach lens (n : ℤ) < lens.length := (reach_lt_iff hpos (lens_nonneg hlens)).mpr hcover
  have hbefore := @sum_take_reach_lt ℤ _ _ lens n hpos
  have hat := le_sum_take_reach hreach
  have hle := le_sum_of_mem_cumsum (lens_nonneg hlens) (List.mem_of_getElem? (getElem?_cumsum hreach))
  have htake : lens.take (reach lens n + 1) = lens.take (reach lens n) ++ [lens[reach lens n]] :=
    List.take_succ_eq_append_getElem hreach
  obtain ⟨hcum, hsearch⟩ := searchsorted_eq (n := n) hlens hnp hfit
  unfold trim
  dsimp only
  rw [hsearch, hcum, Nat.cast_succ, add_sub_cancel_right, hnp.item _ _ _ (Int.natCast_nonneg _), Int.toNat_natCast,
    getElem?_cumsum hreach, Option.map_some, htake, List.sum_append, List.sum_singleton, List.modifyLast_concat]
  refine congrArg some ?_
  rw [htake, List.sum_append, List.sum_singleton] at hat hle
  rw [wrap_eq (sub_nonneg.mpr hat) (by omega)]
  have hlast : (if (lens.take (reach lens n)).sum + lens[reach lens n] - n > 0 then
      lens.take (reach lens n) ++ [lens[reach lens n] - ((lens.take (reach lens n)).sum + lens[reach lens n] - n)]
      else lens.take (reach lens n) ++ [lens[reach lens n]]) =
      lens.take (reach lens n) ++ [n - (lens.take (reach lens n)).sum] := by
    split_ifs
    · exact congrArg (fun l => lens.take (reach lens n) ++ [l]) (by omega)
    · exact congrArg (fun l => lens.take (reach lens n) ++ [l]) (by omega)
  rw [hlast, List.filter_eq_self]
  intro l hl
  rw [decide_eq_true_eq]
  rcases List.mem_append.mp hl with hl | hl
  · exact zero_lt_one.trans_le (hlens l (List.mem_of_mem_take hl)).1
  · rw [List.mem_singleton.mp hl]
    omega

/-- Lengths that do not cover the session. -/
theorem trim_eq_none (hnp : np.Documented) (hn : 0 < n) (hshort : lens.sum < n) (hfit : lens.sum < 2 ^ 63) :
    trim np n lens = none := by
  have hpos : (0 : ℤ) < n := by exact_mod_cast hn
  have hreach : ¬ reach lens (n : ℤ) < lens.length := fun h =>
    absurd ((reach_lt_iff hpos (lens_nonneg hlens)).mp h) (not_le.mpr hshort)
  obtain ⟨hcum, hsearch⟩ := searchsorted_eq (n := n) hlens hnp hfit
  unfold trim
  dsimp only
  rw [hsearch, hcum, Nat.cast_succ, add_sub_cancel_right, hnp.item _ _ _ (Int.natCast_nonneg _), Int.toNat_natCast,
    List.getElem?_eq_none (by rw [length_cumsum]; exact not_lt.mp hreach)]
  rfl

/-- The first sum that wraps is below the one before it. -/
theorem not_pairwise_wrapped (hover : 2 ^ 63 ≤ lens.sum) : ¬ ((cumsum lens).map wrap).Pairwise (· ≤ ·) := by
  have hpos : (0 : ℤ) < 2 ^ 63 := by norm_num
  have hreach : reach lens (2 ^ 63) < lens.length := (reach_lt_iff hpos (lens_nonneg hlens)).mpr hover
  have hbefore := @sum_take_reach_lt ℤ _ _ lens (2 ^ 63) hpos
  have hat := le_sum_take_reach hreach
  have htake : lens.take (reach lens (2 ^ 63) + 1) = lens.take (reach lens (2 ^ 63)) ++ [lens[reach lens (2 ^ 63)]] :=
    List.take_succ_eq_append_getElem hreach
  have hlast := hlens _ (List.getElem_mem hreach)
  have hget := getElem?_cumsum hreach
  rw [htake, List.sum_append, List.sum_singleton] at hat hget
  generalize hi : reach lens (2 ^ 63) = i at *
  cases i with
  | zero =>
    rw [List.take_zero, List.sum_nil, zero_add] at hat
    exact absurd hat (not_le.mpr hlast.2)
  | succ i =>
    intro hsorted
    have hi' : i < lens.length := Nat.lt_of_succ_lt hreach
    have hget' := getElem?_cumsum hi'
    have hle := List.pairwise_iff_getElem.mp hsorted i (i + 1) (by rw [List.length_map, length_cumsum]; exact hi')
      (by rw [List.length_map, length_cumsum]; exact hreach) (Nat.lt_succ_self i)
    obtain ⟨_, heq⟩ := List.getElem?_eq_some_iff.mp hget
    obtain ⟨_, heq'⟩ := List.getElem?_eq_some_iff.mp hget'
    have hnonneg : 0 ≤ (lens.take (i + 1)).sum :=
      List.sum_nonneg fun l hl => lens_nonneg hlens l (List.mem_of_mem_take hl)
    rw [List.getElem_map, List.getElem_map, heq, heq', wrap_eq hnonneg hbefore] at hle
    unfold wrap at hle
    rw [Int.bmod_def] at hle
    norm_num at hle hbefore hat hlast
    omega

end

/-! ## Reading the blocks -/

theorem gather_eq {np : Numpy F} (hnp : np.Documented) {pre : List F} : ∀ {is : List ℤ},
    (∀ i ∈ is, 0 ≤ i ∧ i < pre.length) → ∃ xs, gather np pre is = some xs ∧
      List.Forall₂ (fun i x => pre[i.toNat]? = some x) is xs
  | [], _ => ⟨[], rfl, .nil⟩
  | i :: is, h => by
    obtain ⟨h0, hlt⟩ := h i List.mem_cons_self
    obtain ⟨xs, hxs, hall⟩ := gather_eq hnp fun j hj => h j (List.mem_cons_of_mem i hj)
    have hin : i.toNat < pre.length := by omega
    have hget : pre[i.toNat]? = some pre[i.toNat] := List.getElem?_eq_getElem hin
    refine ⟨pre[i.toNat] :: xs, ?_, .cons hget hall⟩
    rw [gather, hnp.item _ _ _ h0, hget, Option.bind_some, hxs, Option.map_some]

theorem exists_of_mem_zipWith {α β γ : Type*} {f : α → β → γ} {as : List α} {bs : List β} {c : γ}
    (h : c ∈ List.zipWith f as bs) : ∃ a ∈ as, ∃ b ∈ bs, c = f a b := by
  rw [← List.map_uncurry_zip_eq_zipWith] at h
  obtain ⟨⟨a, b⟩, hab, rfl⟩ := List.mem_map.mp h
  obtain ⟨ha, hb⟩ := List.of_mem_zip hab
  exact ⟨a, ha, b, hb, rfl⟩

/-- The rows that the blocks take, circularly. -/
def rows (x : List F) (starts lens : List ℤ) : List F :=
  (List.zipWith (fun s l => circular x s.toNat l.toNat) starts lens).flatten

theorem length_rows {x : List F} : ∀ {starts lens : List ℤ}, starts.length = lens.length →
    (∀ s ∈ starts, 0 ≤ s ∧ s < x.length) → (∀ l ∈ lens, 0 < l ∧ l ≤ x.length) →
      ((rows x starts lens).length : ℤ) = lens.sum
  | [], [], _, _, _ => rfl
  | s :: starts, l :: lens, h, hs, hl => by
    obtain ⟨hs0, hsn⟩ := hs s List.mem_cons_self
    obtain ⟨hl0, hln⟩ := hl l List.mem_cons_self
    have hlen : (circular x s.toNat l.toNat).length = l.toNat := length_circular (by omega) (by omega)
    have hrest := length_rows (Nat.succ.inj h) (fun s h => hs s (List.mem_cons_of_mem _ h))
      fun l h => hl l (List.mem_cons_of_mem _ h)
    rw [rows] at hrest
    rw [rows, List.zipWith_cons_cons, List.flatten_cons, List.length_append, hlen, List.sum_cons, ← hrest]
    push_cast
    omega

/-- The differences of the prefix sums at the ends of the blocks. -/
theorem sum_sub_eq [AddCommGroup F] {x : List F} : ∀ {starts lens : List ℤ} {hi lo : List F},
    starts.length = lens.length → (∀ s ∈ starts, 0 ≤ s ∧ s < x.length) → (∀ l ∈ lens, 0 < l ∧ l ≤ x.length) →
      List.Forall₂ (fun i v => (extended x)[i.toNat]? = some v) (List.zipWith (· + ·) starts lens) hi →
        List.Forall₂ (fun i v => (extended x)[i.toNat]? = some v) starts lo →
          (List.zipWith (· - ·) hi lo).sum = (rows x starts lens).sum
  | [], [], _, _, _, _, _, .nil, .nil => rfl
  | s :: starts, l :: lens, b :: hi, a :: lo, h, hs, hl, .cons hb hhi, .cons ha hlo => by
    obtain ⟨hs0, hsn⟩ := hs s List.mem_cons_self
    obtain ⟨hl0, hln⟩ := hl l List.mem_cons_self
    obtain ⟨a', b', ha', hb', hsum⟩ := sum_circular (show s.toNat + l.toNat ≤ 2 * x.length by omega)
    have hend : (s + l).toNat = s.toNat + l.toNat := Int.toNat_add hs0 hl0.le
    have haa := Option.some.inj (ha.symm.trans ha')
    have hbb := Option.some.inj (hb.symm.trans (hend ▸ hb'))
    have hrest := sum_sub_eq (Nat.succ.inj h) (fun s h => hs s (List.mem_cons_of_mem _ h))
      (fun l h => hl l (List.mem_cons_of_mem _ h)) hhi hlo
    rw [rows] at hrest
    rw [rows, List.zipWith_cons_cons, List.zipWith_cons_cons, List.sum_cons, List.flatten_cons, List.sum_append, hrest,
      haa, hbb, hsum]

/-! ## A replication -/

section

variable {divide : ℕ → F → ℤ} {block : F} {x : List F} {lens start : ℕ → ℤ}
  (hlens : ∀ i, 1 ≤ lens i ∧ lens i < 2 ^ 63) (hstart : ∀ i, 0 ≤ start i ∧ start i < x.length)

include hlens

theorem one_le_drawn (quotient : ℤ) : ∀ l ∈ drawn quotient lens, 1 ≤ l ∧ l < 2 ^ 63 := by
  intro l hl
  obtain ⟨i, -, rfl⟩ := List.mem_map.mp hl
  exact hlens i

include hstart

/-- Lengths that cover the session give a replication, whose total is of differences of the prefix sums. -/
theorem exists_replication {np : Numpy F} (hnp : np.Documented) (hx : x ≠ [])
    (hcover : (x.length : ℤ) ≤ (drawn (divide x.length block) lens).sum)
    (hfit : (drawn (divide x.length block) lens).sum < 2 ^ 63) :
    ∃ r, replication divide np x block lens start = some r ∧ r.Resamples x.length ∧ ∃ hi lo,
      List.Forall₂ (fun i v => (np.zero :: np.cumsumF (x ++ x))[i.toNat]? = some v) r.ends hi ∧
        List.Forall₂ (fun i v => (np.zero :: np.cumsumF (x ++ x))[i.toNat]? = some v) r.starts lo ∧
          r.total = np.sum (List.zipWith np.sub hi lo) := by
  have hn : 0 < x.length := List.length_pos_iff.mpr hx
  have hdrawn := one_le_drawn hlens (divide x.length block)
  have htrim := trim_eq hdrawn hnp hn hcover hfit
  set drawn := drawn (divide x.length block) lens
  generalize hblocks : drawn.take (reach drawn x.length) ++
    [x.length - (drawn.take (reach drawn x.length)).sum] = blocks at htrim
  have hsum : blocks.sum = x.length := by
    rw [← hblocks, List.sum_append, List.sum_singleton, add_sub_cancel]
  have hpos : ∀ l ∈ blocks, 0 < l := by
    intro l hl
    rw [← hblocks] at hl
    rcases List.mem_append.mp hl with hl | hl
    · exact zero_lt_one.trans_le (hdrawn l (List.mem_of_mem_take hl)).1
    · rw [List.mem_singleton.mp hl, sub_pos]
      exact sum_take_reach_lt (by exact_mod_cast hn)
  have hstarts : ∀ s ∈ (List.range blocks.length).map start, 0 ≤ s ∧ s < x.length := by
    intro s hs
    obtain ⟨i, -, rfl⟩ := List.mem_map.mp hs
    exact hstart i
  have hends : ∀ e : ℤ, e ∈ List.zipWith (· + ·) ((List.range blocks.length).map start) blocks →
      0 ≤ e ∧ e ≤ 2 * x.length := by
    intro e he
    obtain ⟨s, hs, l, hl, rfl⟩ := exists_of_mem_zipWith he
    obtain ⟨hs0, hsn⟩ := hstarts s hs
    have hl0 := hpos l hl
    have hln : l ≤ x.length := hsum ▸ List.single_le_sum (fun k hk => (hpos k hk).le) l hl
    omega
  set pre := np.zero :: np.cumsumF (x ++ x)
  have hlength : pre.length = 2 * x.length + 1 := by
    rw [List.length_cons, hnp.length_cumsumF, List.length_append, two_mul]
  obtain ⟨hi, hhi, hihi⟩ := @gather_eq F np hnp pre _ fun e he => by
    have hin := hends e he
    omega
  obtain ⟨lo, hlo, hilo⟩ := @gather_eq F np hnp pre _ fun s hs => by
    have hin := hstarts s hs
    omega
  refine ⟨⟨blocks, (List.range blocks.length).map start,
    List.zipWith (· + ·) ((List.range blocks.length).map start) blocks, np.sum (List.zipWith np.sub hi lo)⟩, ?_,
    ⟨hpos, hsum, ?_, hstarts, rfl, ?_⟩, hi, lo, hihi, hilo, rfl⟩
  · unfold replication
    rw [htrim, Option.bind_eq_bind, Option.bind_some]
    dsimp only
    rw [hhi, Option.bind_eq_bind, Option.bind_some, hlo, Option.bind_some]
    rfl
  · rw [List.length_map, List.length_range]
  · rintro i (hi | hi)
    · have hin := hstarts i hi
      omega
    · exact hends i hi

end

/-! ## A numpy -/

/-- A numpy with the given arithmetic of doubles, whose search in an array that is out of order finds nothing. -/
def Numpy.plain (zero : F) (sub : F → F → F) (cumsumF : List F → List F) (sum : List F → F) : Numpy F where
  cumsum xs := (PrefixSums.cumsum xs).map wrap
  searchsorted xs v := if xs.Pairwise (· ≤ ·) then xs.findIdx fun x => decide (v ≤ x) else xs.length
  item _ xs i := if 0 ≤ i then xs[i.toNat]? else if 0 ≤ xs.length + i then xs[(xs.length + i).toNat]? else none
  zero := zero
  sub := sub
  cumsumF := cumsumF
  sum := sum

theorem Numpy.documented_plain {zero : F} {sub : F → F → F} {cumsumF : List F → List F} {sum : List F → F}
    (hlength : ∀ xs, (cumsumF xs).length = xs.length) : (Numpy.plain zero sub cumsumF sum).Documented where
  cumsum _ := rfl
  length_cumsumF := hlength
  searchsorted xs v hsorted := by
    have hsearch : (Numpy.plain zero sub cumsumF sum).searchsorted xs v = xs.findIdx fun x => decide (v ≤ x) :=
      if_pos hsorted
    rw [hsearch]
    refine ⟨List.findIdx_le_length, fun x hx => ?_, fun x hx => ?_⟩
    · obtain ⟨i, hi, rfl⟩ := List.mem_take_iff_getElem.mp hx
      exact not_le.mp (of_decide_eq_false (List.not_of_lt_findIdx (lt_min_iff.mp hi).1))
    · obtain ⟨i, hi, rfl⟩ := List.mem_drop_iff_getElem.mp hx
      have hlt : (xs.findIdx fun x => decide (v ≤ x)) < xs.length := by omega
      have hfound : v ≤ xs[xs.findIdx fun x => decide (v ≤ x)] := of_decide_eq_true (List.findIdx_getElem (w := hlt))
      exact hfound.trans (hsorted.rel_get_of_le (Nat.le_add_right _ _))
  item _ _ _ h := if_pos h

/-- A search in sums that wrap finds nothing. -/
theorem trim_plain_eq_none {zero : F} {sub : F → F → F} {cumsumF : List F → List F} {sum : List F → F} {n : ℕ}
    {lens : List ℤ} (hlens : ∀ l ∈ lens, 1 ≤ l ∧ l < 2 ^ 63) (hover : 2 ^ 63 ≤ lens.sum) :
    trim (Numpy.plain zero sub cumsumF sum) n lens = none := by
  have hsearch : (Numpy.plain zero sub cumsumF sum).searchsorted ((PrefixSums.cumsum lens).map wrap) n =
      ((PrefixSums.cumsum lens).map wrap).length := if_neg (not_pairwise_wrapped hlens hover)
  refine Option.map_eq_none_iff.mpr ?_
  change (Numpy.plain zero sub cumsumF sum).item ℤ ((PrefixSums.cumsum lens).map wrap)
    (((Numpy.plain zero sub cumsumF sum).searchsorted ((PrefixSums.cumsum lens).map wrap) n + 1 : ℕ) - 1) = none
  unfold Numpy.plain at hsearch ⊢
  dsimp only at hsearch ⊢
  rw [hsearch, Nat.cast_succ, add_sub_cancel_right, if_pos (Int.natCast_nonneg _), Int.toNat_natCast,
    List.getElem?_eq_none le_rfl]

/-! ## Exact arithmetic -/

def Numpy.exact : Numpy ℚ := Numpy.plain 0 (· - ·) PrefixSums.cumsum List.sum

/-- `int(n / max(block, 1.0))`. -/
def quotient (n : ℕ) (block : ℚ) : ℤ := ⌊(n : ℚ) / max block 1⌋

theorem documented_exact : Numpy.exact.Documented := Numpy.documented_plain length_cumsum

/-- Without rounding the total is that of as many rows as the session has. -/
theorem exact_total {x : List ℚ} {block : ℚ} {lens start : ℕ → ℤ} (hlens : ∀ i, 1 ≤ lens i ∧ lens i < 2 ^ 63)
    (hstart : ∀ i, 0 ≤ start i ∧ start i < x.length) (hx : x ≠ [])
    (hcover : (x.length : ℤ) ≤ (drawn (quotient x.length block) lens).sum)
    (hfit : (drawn (quotient x.length block) lens).sum < 2 ^ 63) :
    ∃ r, replication quotient Numpy.exact x block lens start = some r ∧
      r.total = (rows x r.starts r.lens).sum ∧ (rows x r.starts r.lens).length = x.length := by
  obtain ⟨r, hr, hres, hi, lo, hhi, hlo, htotal⟩ :=
    exists_replication hlens hstart documented_exact hx hcover hfit
  have hle : ∀ l ∈ r.lens, 0 < l ∧ l ≤ x.length := fun l hl => ⟨hres.lens_pos l hl,
    hres.sum_lens ▸ List.single_le_sum (fun k hk => (hres.lens_pos k hk).le) l hl⟩
  rw [hres.ends_eq] at hhi
  refine ⟨r, hr, htotal.trans (sum_sub_eq hres.length_starts hres.starts_lt hle hhi hlo), ?_⟩
  have hlength := length_rows hres.length_starts hres.starts_lt hle
  rw [hres.sum_lens] at hlength
  exact_mod_cast hlength

/-! ## Every numpy -/

/-- **A replication resamples the session to its own length, whatever is not documented of numpy, exactly when the
drawn lengths cover it and their total is one of 64 bits.** -/
theorem replication_iff {divide : ℕ → F → ℤ} {block : F} {x : List F} {lens start : ℕ → ℤ}
    (hlens : ∀ i, 1 ≤ lens i ∧ lens i < 2 ^ 63) (hstart : ∀ i, 0 ≤ start i ∧ start i < x.length) (hx : x ≠ []) :
    (∀ np : Numpy F, np.Documented → ∃ r, replication divide np x block lens start = some r ∧
      r.Resamples x.length) ↔ (x.length : ℤ) ≤ (drawn (divide x.length block) lens).sum ∧
        (drawn (divide x.length block) lens).sum < 2 ^ 63 := by
  have hdrawn := one_le_drawn hlens (divide x.length block)
  constructor
  · intro h
    have hplain := @Numpy.documented_plain F (x.head hx) (fun a _ => a) id (fun _ => x.head hx) fun _ => rfl
    obtain ⟨r, hr, -⟩ := h _ hplain
    by_contra hnot
    refine Option.some_ne_none r (hr.symm.trans ?_)
    unfold replication
    rcases lt_or_ge (drawn (divide x.length block) lens).sum (2 ^ 63) with hfit | hover
    · have hshort : (drawn (divide x.length block) lens).sum < x.length := by
        by_contra hcover
        exact hnot ⟨not_lt.mp hcover, hfit⟩
      rw [trim_eq_none hdrawn hplain (List.length_pos_iff.mpr hx) hshort hfit]
      rfl
    · rw [trim_plain_eq_none hdrawn hover]
      rfl
  · rintro ⟨hcover, hfit⟩ np hnp
    obtain ⟨r, hr, hres, -⟩ := exists_replication hlens hstart hnp hx hcover hfit
    exact ⟨r, hr, hres⟩

/-- Blocks of length one do not cover a hundred rows at a mean length of fifty: twelve are drawn. -/
theorem not_replication : ¬ ∀ np : Numpy ℚ, np.Documented → ∃ r,
    replication quotient np (List.replicate 100 0) 50 (fun _ => 1) (fun _ => 0) = some r ∧ r.Resamples 100 := by
  have hdraw : drawn (quotient 100 50) (fun _ => 1) = List.replicate 12 1 := by decide +kernel
  have hsum : (List.replicate 12 (1 : ℤ)).sum = 12 := by decide
  intro h
  obtain ⟨r, hr, -⟩ := h Numpy.exact documented_exact
  have htrim : trim Numpy.exact 100 (List.replicate 12 1) = none := by
    refine trim_eq_none ?_ documented_exact (by norm_num) (by rw [hsum]; norm_num) (by rw [hsum]; norm_num)
    intro l hl
    rw [List.eq_of_mem_replicate hl]
    norm_num
  unfold replication at hr
  rw [List.length_replicate, hdraw, htrim] at hr
  cases hr

/-- Three rows in two blocks: the second is cut to the row that is left, and the first goes round the end. -/
theorem replication_iff_three : ∃ r, replication quotient Numpy.exact [3, 1, 4] 2 (fun _ => 2) (fun _ => 2) = some r ∧
    r.Resamples 3 ∧ r.lens = [2, 1] ∧ r.ends = [4, 3] ∧ r.total = 4 + 3 + 4 := by
  obtain ⟨r, hr, hres⟩ := (@replication_iff ℚ quotient 2 [3, 1, 4] (fun _ => 2) (fun _ => 2)
    (fun _ => by norm_num) (fun _ => by norm_num) (by decide)).mpr (by decide +kernel) Numpy.exact documented_exact
  refine ⟨r, hr, hres, ?_⟩
  have hrun : replication quotient Numpy.exact [3, 1, 4] 2 (fun _ => 2) (fun _ => 2) =
      some ⟨[2, 1], [2, 2], [4, 3], 11⟩ := by decide +kernel
  obtain rfl := Option.some.inj (hr.symm.trans hrun)
  exact ⟨rfl, rfl, by norm_num⟩

end Bootstrap

end Carteret
