import Carteret.ChainedIndex
import Carteret.OrderIndex

/-!
# The two indexes

The open-addressed index and the chained one, built with one hint and given the same calls.

1. `Agree`: they answer alike, and report the same size and the same failures, after every call.
2. `Fits`: the step condition. They part at an insertion that only one of them has room for, and at one that
   overwrites a key when the open-addressed index is full.
3. `agree_iff`: they agree along a sequence of calls exactly when each of its calls fits.
4. `limits`: where both are full at the same size.
-/

namespace Carteret

open OrderIndex (IndexOp IndexResult)

variable {x x' : OrderIndex multiplyShiftHash} {c c' : ChainedIndex} {m : UInt64 → UInt32}

/-- The same result from every call, and the same `size()` and `insert_failures()` after it. -/
def Agree (x : OrderIndex multiplyShiftHash) (c : ChainedIndex) : List IndexOp → Prop
  | [] => True
  | op :: ops => ∃ r x' c', x.apply op = some (r, x') ∧ c.apply op = some (r, c') ∧
      x'.size = c'.size ∧ x'.insertFailures = c'.insertFailures ∧ Agree x' c' ops

/-- Inserting a storable value, the open-addressed index has room if and only if the key is there or the chained
index, of this many nodes, has room. -/
def Fits (limit : ℕ) (x : OrderIndex multiplyShiftHash) : IndexOp → Prop
  | .insert key value => value ≠ kNoOrder →
      (x.size < x.capacity / 2 ↔ x.find key ≠ some kNoOrder ∨ x.size < limit)
  | _ => True

/-- Every call fits the index that it meets. -/
def FitsAlong (limit : ℕ) (x : OrderIndex multiplyShiftHash) : List IndexOp → Prop
  | [] => True
  | op :: ops => Fits limit x op ∧ ∀ r x', x.apply op = some (r, x') → FitsAlong limit x' ops

/-- Both hold `m`, and have failed as often. -/
structure Beside (m : UInt64 → UInt32) (x : OrderIndex multiplyShiftHash) (c : ChainedIndex) : Prop where
  left : x.Represents m
  right : c.Represents m
  failures : x.insertFailures = c.insertFailures

theorem Beside.size (h : Beside m x c) : x.size = c.size := h.left.size_eq.trans h.right.size_eq.symm

theorem limit_congr (h : c'.logCap = c.logCap) : c'.limit = c.limit := by
  unfold ChainedIndex.limit ChainedIndex.capacity
  rw [h]

/-- **One call.** Both answer, alike exactly when the call fits, and then they stay side by side. -/
theorem Beside.step (h : Beside m x c) (op : IndexOp) :
    ∃ r r' x' c', x.apply op = some (r, x') ∧ c.apply op = some (r', c') ∧ c'.limit = c.limit ∧
      (r = r' ↔ Fits c.limit x op) ∧ (r = r' → ∃ m', Beside m' x' c') := by
  cases op with
  | find key =>
    refine ⟨.found (m key), .found (m key), x, c, ?_, ?_, rfl, iff_of_true rfl trivial, fun _ => ⟨m, h⟩⟩
    · rw [OrderIndex.apply, h.left.find_eq]
      rfl
    · rw [ChainedIndex.apply, h.right.find_eq]
      rfl
  | insert key value =>
    obtain ⟨b, x', hx, -, hb, hfail, hok⟩ := h.left.insert key value
    obtain ⟨b', c', hc, hlog, hb', hfailures, hc'⟩ := h.right.insert_spec key value
    have hroom : b = true ↔ value ≠ kNoOrder ∧ x.size < x.capacity / 2 := by
      have hle := h.left.1.size_le
      rw [← Bool.not_eq_false, hb, not_or]
      exact and_congr_right fun _ => by omega
    have hpresent : x.find key ≠ some kNoOrder ↔ m key ≠ kNoOrder := by
      rw [h.left.find_eq, ne_eq, Option.some.injEq]
    refine ⟨.inserted b, .inserted b', x', c', ?_, ?_, limit_congr hlog, ?_, fun heq => ?_⟩
    · rw [OrderIndex.apply, hx]
      rfl
    · rw [ChainedIndex.apply, hc]
      rfl
    · rw [IndexResult.inserted.injEq, Bool.eq_iff_iff, hroom, hb', Fits, hpresent, h.size]
      exact and_congr_right_iff
    · obtain rfl := IndexResult.inserted.inj heq
      have hsame : x'.insertFailures = c'.insertFailures := by
        rw [(OrderIndex.insert_fields hx).2.2, hfailures, h.failures]
      cases b with
      | false => exact ⟨m, (hfail rfl).1, hc', hsame⟩
      | true => exact ⟨Function.update m key value, hok rfl, hc', hsame⟩
  | erase key =>
    obtain ⟨x', hx, -, hleft⟩ := h.left.erase key
    obtain ⟨c', hc, hlog, hfailures, hright⟩ := h.right.erase_spec key
    refine ⟨.found (m key), .found (m key), x', c', ?_, ?_, limit_congr hlog, iff_of_true rfl trivial,
      fun _ => ⟨_, hleft, hright, ?_⟩⟩
    · rw [OrderIndex.apply, hx]
      rfl
    · rw [ChainedIndex.apply, hc]
      rfl
    · rw [(OrderIndex.erase_fields hx).2.2, hfailures, h.failures]

theorem Beside.agree_iff : ∀ {ops : List IndexOp} {m : UInt64 → UInt32} {x : OrderIndex multiplyShiftHash}
    {c : ChainedIndex}, Beside m x c → (Agree x c ops ↔ FitsAlong c.limit x ops)
  | [], _, _, _, _ => Iff.rfl
  | op :: ops, m, x, c, h => by
    obtain ⟨r, r', x', c', hx, hc, hlimit, hfits, hnext⟩ := h.step op
    constructor
    · rintro ⟨s, y, d, hy, hd, -, -, hrest⟩
      obtain ⟨rfl, rfl⟩ := Prod.mk.inj (Option.some.inj (hx.symm.trans hy))
      obtain ⟨rfl, rfl⟩ := Prod.mk.inj (Option.some.inj (hc.symm.trans hd))
      refine ⟨hfits.mp rfl, fun s y hy => ?_⟩
      obtain ⟨rfl, rfl⟩ := Prod.mk.inj (Option.some.inj (hx.symm.trans hy))
      obtain ⟨m', h'⟩ := hnext rfl
      rw [← hlimit]
      exact h'.agree_iff.mp hrest
    · rintro ⟨hop, hrest⟩
      obtain rfl := hfits.mpr hop
      obtain ⟨m', h'⟩ := hnext rfl
      refine ⟨r, x', c', hx, hc, h'.size, h'.failures, h'.agree_iff.mpr ?_⟩
      rw [hlimit]
      exact hrest r x' hx

theorem Beside.new {hint : UInt64} (hx : OrderIndex.new multiplyShiftHash hint = some x)
    (hc : ChainedIndex.new hint = some c) : Beside (fun _ => kNoOrder) x c := by
  obtain ⟨hrep, -, hfailures⟩ := ChainedIndex.represents_new hc
  exact ⟨OrderIndex.represents_new hx, hrep, (OrderIndex.new_eq_some hx).2.2.trans hfailures.symm⟩

/-- **When the two indexes are interchangeable.** -/
theorem agree_iff_fitsAlong {hint : UInt64} (hx : OrderIndex.new multiplyShiftHash hint = some x)
    (hc : ChainedIndex.new hint = some c) (ops : List IndexOp) : Agree x c ops ↔ FitsAlong c.limit x ops :=
  (Beside.new hx hc).agree_iff

/-- Where the two are full at the same size. For smaller hints the chained index takes 16 entries and the other
one 8. -/
theorem limits {hint : UInt64} (hx : OrderIndex.new multiplyShiftHash hint = some x)
    (hc : ChainedIndex.new hint = some c) (hge : 9 ≤ hint.toNat) (hle : hint.toNat ≤ 2 ^ 31) :
    x.capacity / 2 = c.limit := by
  have hlow : 3 < Nat.clog 2 hint.toNat := (Nat.lt_clog_iff_pow_lt (by decide)).mpr (by omega)
  have hhigh : Nat.clog 2 hint.toNat ≤ 31 := (Nat.clog_le_iff_le_pow (by decide)).mpr hle
  have hround : bitCeilLog (ChainedIndex.atLeast16 hint.toNat) = Nat.clog 2 hint.toNat := by
    unfold bitCeilLog ChainedIndex.atLeast16
    split
    · have hfour : Nat.clog 2 hint.toNat ≤ 4 := (Nat.clog_le_iff_le_pow (by decide)).mpr (by omega)
      have h16 : Nat.clog 2 (2 ^ 4) = 4 := Nat.clog_pow 2 4 (by decide)
      exact h16.trans (by omega)
    · rfl
  have hpow : 2 ^ Nat.clog 2 hint.toNat ≤ 2 ^ 31 := Nat.pow_le_pow_right (by decide) hhigh
  unfold OrderIndex.capacity ChainedIndex.limit ChainedIndex.capacity
  rw [OrderIndex.new_logCap hx hlow.le (by omega), (ChainedIndex.represents_new hc).2.1, hround, pow_succ,
    Nat.mul_div_cancel _ (by decide)]
  omega

/-- Calls that cannot fill the index fit. -/
theorem fitsAlong_of_room {limit : ℕ} : ∀ {ops : List IndexOp} {x : OrderIndex multiplyShiftHash},
    x.size + ops.length ≤ x.capacity / 2 → x.capacity / 2 ≤ limit → FitsAlong limit x ops
  | [], _, _, _ => trivial
  | op :: ops, x, hroom, hlimit => by
    rw [List.length_cons] at hroom
    refine ⟨?_, fun r x' hop => ?_⟩
    · cases op with
      | insert key value => exact fun _ => iff_of_true (by omega) (.inr (by omega))
      | find key => trivial
      | erase key => trivial
    · obtain ⟨hlog, hsize⟩ := OrderIndex.apply_fields hop
      have hcap : x'.capacity = x.capacity := congrArg (2 ^ ·) hlog
      refine fitsAlong_of_room ?_ (hcap ▸ hlimit)
      rw [hcap]
      omega

/-- What agreement says of the results. -/
theorem Agree.results : ∀ {ops : List IndexOp} {x : OrderIndex multiplyShiftHash} {c : ChainedIndex},
    Agree x c ops → (x.run ops).map Prod.fst = (c.run ops).map Prod.fst
  | [], _, _, _ => rfl
  | op :: ops, x, c, ⟨r, x', c', hx, hc, _, _, h⟩ => by
    have hrest := h.results
    rw [OrderIndex.run, ChainedIndex.run, hx, hc, Option.bind_some, Option.bind_some, Option.map_map, Option.map_map]
    show (x'.run ops).map (fun s => (op, r) :: s.1) = (c'.run ops).map (fun s => (op, r) :: s.1)
    rw [← Function.comp_def (List.cons (op, r)) Prod.fst, ← Option.map_map, hrest, Option.map_map]
    rfl

/-- The references below `n`, inserted in order. -/
def inserts (n : ℕ) : List IndexOp := (List.range n).map fun k => .insert (UInt64.ofNat k) 7

theorem agree_iff_fitsAlong_twelve : ∃ x c, OrderIndex.new multiplyShiftHash 12 = some x ∧
    ChainedIndex.new 12 = some c ∧ Agree x c (inserts 12) := by
  obtain ⟨x, hx⟩ := Option.isSome_iff_exists.mp ((OrderIndex.new_isSome multiplyShiftHash 12).mpr (by decide))
  obtain ⟨c, hc⟩ : ∃ c, ChainedIndex.new 12 = some c := ⟨_, rfl⟩
  have hlimit := limits hx hc (by decide) (by decide)
  have hlog : x.logCap = Nat.clog 2 12 + 1 := OrderIndex.new_logCap hx (by decide +kernel) (by decide +kernel)
  have hclog : Nat.clog 2 12 = 4 := by decide +kernel
  have hsize := (OrderIndex.new_eq_some hx).2.1
  refine ⟨x, c, hx, hc, (agree_iff_fitsAlong hx hc (inserts 12)).mpr (fitsAlong_of_room ?_ hlimit.le)⟩
  rw [hsize, OrderIndex.capacity, hlog, hclog]
  decide

/-- The ninth reference fits the chained index only, although both were built for one; and when both hold the
sixteen references they were built for, only the chained index lets the first one be inserted again. -/
theorem not_agree : (∃ x c, OrderIndex.new multiplyShiftHash 1 = some x ∧ ChainedIndex.new 1 = some c ∧
      ¬ Agree x c (inserts 9)) ∧
    ∃ x c, OrderIndex.new multiplyShiftHash 16 = some x ∧ ChainedIndex.new 16 = some c ∧
      ¬ Agree x c (inserts 16 ++ [.insert 0 8]) := by
  have hpart : ∀ {hint : UInt64} {ops : List IndexOp}, hint.toNat ≤ 2 ^ 63 →
      ((OrderIndex.new multiplyShiftHash hint).bind fun x => (x.run ops).map Prod.fst) ≠
        ((ChainedIndex.new hint).bind fun c => (c.run ops).map Prod.fst) →
      ∃ x c, OrderIndex.new multiplyShiftHash hint = some x ∧ ChainedIndex.new hint = some c ∧ ¬ Agree x c ops := by
    intro hint ops hle hne
    obtain ⟨x, hx⟩ := Option.isSome_iff_exists.mp ((OrderIndex.new_isSome multiplyShiftHash hint).mpr hle)
    obtain ⟨c, hc⟩ : ∃ c, ChainedIndex.new hint = some c := ⟨_, dif_pos hle⟩
    refine ⟨x, c, hx, hc, fun hagree => hne ?_⟩
    rw [hx, hc]
    exact hagree.results
  exact ⟨hpart (by decide) (by decide +kernel), hpart (by decide) (by decide +kernel)⟩

end Carteret
