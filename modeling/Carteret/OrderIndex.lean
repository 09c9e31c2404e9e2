import Carteret.Lib.LinearProbing

/-!
# Order index

`OrderIndex` maps order references to pool slots by linear probing, with deletion by backward shift. The
hash policy is a parameter; a slot is free when its value is `kNoOrder`, whatever its key.

1. `probe` is the loop that `find`, `insert` and `erase` share; `shiftBack` is the loop of `erase_at`. Both
   are `none` when they do not end within a whole turn of the table, after which they never would.
2. `Valid`: the table meets `Probing.Inv` and `size` counts its keys, at most half of the slots.
3. `find_spec`, `insert_spec`, `erase_spec` say what each operation does to a valid index.
4. `isMap_run`: after any operations the index is the map that their results spell out.
-/

namespace Carteret

/-- Marks a free slot. -/
def kNoOrder : UInt32 := 0xFFFFFFFF

/-! ## Hash policies -/

/-- A policy maps a reference to a slot, given the mask and the shift of the table. -/
structure HashPolicy where
  index : UInt64 → ℕ → ℕ → ℕ
  index_lt : ∀ key k, 0 < k → k < 64 → index key (2 ^ k - 1) (64 - k) < 2 ^ k

def identityHash : HashPolicy where
  index ref mask _ := ref.toNat &&& mask
  index_lt key k _ _ := by rw [Nat.and_two_pow_sub_one_eq_mod]; exact Nat.mod_lt _ (by positivity)

def kPhi : UInt64 := 0x9E3779B97F4A7C15

def multiplyShiftHash : HashPolicy where
  index ref _ shift := (ref * kPhi).toNat >>> shift
  index_lt key k h0 hk := by
    rw [Nat.shiftRight_eq_div_pow]
    refine Nat.div_lt_of_lt_mul ?_
    rw [← pow_add, Nat.sub_add_cancel hk.le]
    exact (key * kPhi).toNat_lt

/-- `std::hash` is the identity on 64-bit integers in the standard libraries the source names. -/
def stdHash : HashPolicy where
  index ref mask _ := ref.toNat &&& mask
  index_lt := identityHash.index_lt

/-! ## The index -/

structure Slot where
  key : UInt64 := 0
  value : UInt32 := kNoOrder
  deriving DecidableEq

/-- The capacity is a power of two from 16 on. The probe statistics are left out. -/
structure OrderIndex (P : HashPolicy) where
  logCap : ℕ
  logCap_ge : 4 ≤ logCap
  logCap_lt : logCap < 64
  slots : ℕ → Slot := fun _ => {}
  size : ℕ := 0
  insertFailures : ℕ := 0

/-- `while (cap < hint) cap <<= 1`, on 64 bits. After 64 turns `cap` is zero and the loop never ends. -/
def roundUp (hint : ℕ) : ℕ → ℕ → Option ℕ
  | 0, _ => none
  | fuel + 1, cap => if cap < hint then roundUp hint fuel ((cap <<< 1) % 2 ^ 64) else some cap

namespace OrderIndex

/-- The capacity that the constructor settles on. -/
def capacityFor (hint : ℕ) : Option ℕ :=
  (roundUp hint 65 1).map fun cap =>
    let cap := (cap <<< 1) % 2 ^ 64
    if cap < 16 then 16 else cap

variable {P : HashPolicy}

def capacity (x : OrderIndex P) : ℕ := 2 ^ x.logCap

def mask (x : OrderIndex P) : ℕ := x.capacity - 1

/-- `64 - countr_one(mask)`. -/
def shift (x : OrderIndex P) : ℕ := 64 - x.logCap

def home (x : OrderIndex P) (key : UInt64) : ℕ := P.index key x.mask x.shift

/-- `(i + 1) & mask`. -/
def after (x : OrderIndex P) (i : ℕ) : ℕ := (i + 1) &&& x.mask

/-- Where the probe loop for `key` stops: at a free slot or at the key. -/
def probe (x : OrderIndex P) (key : UInt64) : Option ℕ :=
  Probing.scan x.after (fun i => (x.slots i).value == kNoOrder || (x.slots i).key == key)
    x.capacity (x.home key)

def find (x : OrderIndex P) (key : UInt64) : Option UInt32 :=
  (x.probe key).map fun i => (x.slots i).value

def insert (x : OrderIndex P) (key : UInt64) (value : UInt32) : Option (Bool × OrderIndex P) :=
  if value = kNoOrder then some (false, x)
  else if x.size + 1 > x.capacity / 2 then
    some (false, { x with insertFailures := x.insertFailures + 1 })
  else
    (x.probe key).map fun i =>
      if (x.slots i).value = kNoOrder then
        (true, { x with slots := Function.update x.slots i ⟨key, value⟩, size := x.size + 1 })
      else
        (true, { x with slots := Function.update x.slots i { x.slots i with value := value } })

/-- The entry at `j` is at or after its home `k` relative to the hole `i`. -/
def cannotMove (i j k : ℕ) : Bool := if i ≤ j then i < k && k ≤ j else i < k || k ≤ j

/-- The loops of `erase_at`, with the hole at `i` and the slots up to `j` behind. -/
def shiftBack (x : OrderIndex P) : ℕ → ℕ → ℕ → (ℕ → Slot) → Option (ℕ → Slot)
  | 0, _, _, _ => none
  | fuel + 1, i, j, slots =>
    let j := x.after j
    if (slots j).value = kNoOrder then some slots
    else if cannotMove i j (x.home (slots j).key) then shiftBack x fuel i j slots
    else
      shiftBack x fuel j j
        (Function.update (Function.update slots i (slots j)) j { slots j with value := kNoOrder })

def eraseAt (x : OrderIndex P) (i : ℕ) : Option (ℕ → Slot) :=
  x.shiftBack x.capacity i i (Function.update x.slots i { x.slots i with value := kNoOrder })

def erase (x : OrderIndex P) (key : UInt64) : Option (UInt32 × OrderIndex P) :=
  (x.probe key).bind fun i =>
    if (x.slots i).value = kNoOrder then some (kNoOrder, x)
    else
      (x.eraseAt i).map fun slots => ((x.slots i).value, { x with slots := slots, size := x.size - 1 })

/-! ## The constructor -/

theorem roundUp_zero {hint : ℕ} (h : 0 < hint) : ∀ fuel, roundUp hint fuel 0 = none
  | 0 => rfl
  | fuel + 1 => by rw [roundUp, if_pos h, Nat.zero_shiftLeft, Nat.zero_mod, roundUp_zero h fuel]

theorem shiftLeft_two_pow {k : ℕ} (hk : k < 64) :
    (2 ^ k <<< 1) % 2 ^ 64 = if k = 63 then 0 else 2 ^ (k + 1) := by
  rw [Nat.shiftLeft_eq, ← pow_add]
  split
  · rename_i h; rw [h, Nat.mod_self]
  · exact Nat.mod_eq_of_lt (Nat.pow_lt_pow_right (by decide) (by omega))

/-- The rounding loop stops at a power of two. -/
theorem roundUp_eq_some {hint c : ℕ} : ∀ {fuel k : ℕ}, k < 64 →
    roundUp hint fuel (2 ^ k) = some c → ∃ l < 64, c = 2 ^ l
  | 0, _, _, h => by cases h
  | fuel + 1, k, hk, h => by
    unfold roundUp at h
    split at h
    · rename_i hlt
      rw [shiftLeft_two_pow hk] at h
      split at h
      · rw [roundUp_zero (Nat.zero_lt_of_lt hlt)] at h; cases h
      · exact roundUp_eq_some (by omega) h
    · exact ⟨k, hk, (Option.some.inj h).symm⟩

theorem roundUp_isSome {hint : ℕ} : ∀ {fuel k : ℕ}, k < 64 → 64 ≤ k + fuel →
    ((roundUp hint fuel (2 ^ k)).isSome ↔ hint ≤ 2 ^ 63)
  | 0, k, hk, h => by omega
  | fuel + 1, k, hk, h => by
    have hle : 2 ^ k ≤ 2 ^ 63 := Nat.pow_le_pow_right (by decide) (by omega)
    unfold roundUp
    split
    · rename_i hlt
      rw [shiftLeft_two_pow hk]
      split
      · rename_i h63
        rw [h63] at hlt
        rw [roundUp_zero (by omega)]
        exact iff_of_false (by simp) (by omega)
      · exact roundUp_isSome (by omega) (by omega)
    · exact iff_of_true rfl (by omega)

/-- It stops at the least power of two that the hint does not exceed. -/
theorem roundUp_eq {hint : ℕ} (h : Nat.clog 2 hint < 64) : ∀ {fuel k : ℕ}, k ≤ Nat.clog 2 hint →
    Nat.clog 2 hint < k + fuel → roundUp hint fuel (2 ^ k) = some (2 ^ Nat.clog 2 hint)
  | 0, k, hk, hfuel => by omega
  | fuel + 1, k, hk, hfuel => by
    unfold roundUp
    by_cases hlt : 2 ^ k < hint
    · have hk' := (Nat.lt_clog_iff_pow_lt (by decide)).mpr hlt
      rw [if_pos hlt, shiftLeft_two_pow (by omega), if_neg (by omega)]
      exact roundUp_eq h (by omega) (by omega)
    · have hk' := (Nat.clog_le_iff_le_pow (by decide)).mpr (not_lt.mp hlt)
      rw [if_neg hlt, le_antisymm hk hk']

theorem capacityFor_eq_some {hint c : ℕ} (h : capacityFor hint = some c) :
    4 ≤ Nat.log2 c ∧ Nat.log2 c < 64 ∧ c = 2 ^ Nat.log2 c := by
  obtain ⟨c', hc', rfl⟩ := Option.map_eq_some_iff.mp h
  obtain ⟨l, hl, rfl⟩ := roundUp_eq_some (k := 0) (by decide) hc'
  have h16 : Nat.log2 16 = 4 := by decide
  dsimp only
  rw [shiftLeft_two_pow hl]
  by_cases h63 : l = 63
  · rw [if_pos h63, if_pos (by decide), h16]
    decide
  · rw [if_neg h63]
    by_cases hlt : 2 ^ (l + 1) < 16
    · rw [if_pos hlt, h16]; decide
    · rw [if_neg hlt, Nat.log2_two_pow]
      refine ⟨?_, by omega, rfl⟩
      by_contra hc
      have hpow : 2 ^ (l + 1) ≤ 2 ^ 3 := Nat.pow_le_pow_right (by decide) (by omega)
      omega

/-- The constructor. It never returns for hints above `2 ^ 63`. -/
def new (P : HashPolicy) (capacityHint : UInt64) : Option (OrderIndex P) :=
  match h : capacityFor capacityHint.toNat with
  | none => none
  | some cap =>
    some
      { logCap := Nat.log2 cap
        logCap_ge := (capacityFor_eq_some h).1
        logCap_lt := (capacityFor_eq_some h).2.1 }

theorem new_eq_some {hint : UInt64} {x : OrderIndex P} (h : new P hint = some x) :
    x.slots = (fun _ => {}) ∧ x.size = 0 ∧ x.insertFailures = 0 := by
  unfold new at h
  split at h
  · cases h
  · obtain rfl := Option.some.inj h
    exact ⟨rfl, rfl, rfl⟩

/-- The capacity is twice the hint, rounded up. -/
theorem new_logCap {hint : UInt64} {x : OrderIndex P} (h : new P hint = some x)
    (hge : 3 ≤ Nat.clog 2 hint.toNat) (hlt : Nat.clog 2 hint.toNat < 63) :
    x.logCap = Nat.clog 2 hint.toNat + 1 := by
  have hcap : capacityFor hint.toNat = some (2 ^ (Nat.clog 2 hint.toNat + 1)) := by
    have hround := @roundUp_eq hint.toNat (by omega) 65 0 (Nat.zero_le _) (by omega)
    have h16 : 2 ^ 4 ≤ 2 ^ (Nat.clog 2 hint.toNat + 1) := Nat.pow_le_pow_right (by decide) (by omega)
    rw [pow_zero] at hround
    rw [capacityFor, hround, Option.map_some]
    dsimp only
    rw [shiftLeft_two_pow (by omega), if_neg (show ¬ Nat.clog 2 hint.toNat = 63 by omega),
      if_neg (show ¬ 2 ^ (Nat.clog 2 hint.toNat + 1) < 16 by omega)]
  unfold new at h
  split at h
  · cases h
  · rename_i cap hc
    obtain rfl := Option.some.inj h
    show Nat.log2 cap = _
    rw [Option.some.inj (hc.symm.trans hcap), Nat.log2_two_pow]

/-- Half of the capacity is at least the hint, as long as doubling does not overflow. -/
theorem new_capacity {hint : UInt64} {x : OrderIndex P} (h : new P hint = some x) (hle : hint.toNat ≤ 2 ^ 62) :
    hint.toNat ≤ x.capacity / 2 := by
  unfold new at h
  split at h
  · cases h
  · rename_i cap hc
    obtain rfl := Option.some.inj h
    show hint.toNat ≤ 2 ^ Nat.log2 cap / 2
    rw [← (capacityFor_eq_some hc).2.2]
    have hclog : Nat.clog 2 hint.toNat ≤ 62 := (Nat.clog_le_iff_le_pow (by decide)).mpr hle
    have hround := @roundUp_eq hint.toNat (by omega) 65 0 (Nat.zero_le _) (by omega)
    have hge := Nat.le_pow_clog (b := 2) (by decide) hint.toNat
    have hpow : 2 ^ (Nat.clog 2 hint.toNat + 1) = 2 * 2 ^ Nat.clog 2 hint.toNat := by rw [pow_succ, mul_comm]
    rw [pow_zero] at hround
    rw [capacityFor, hround, Option.map_some] at hc
    have hcap := Option.some.inj hc
    dsimp only at hcap
    rw [shiftLeft_two_pow (by omega), if_neg (by omega : ¬ Nat.clog 2 hint.toNat = 63)] at hcap
    split at hcap <;> omega

theorem new_isSome (P : HashPolicy) (hint : UInt64) :
    (new P hint).isSome ↔ hint.toNat ≤ 2 ^ 63 := by
  have h : (capacityFor hint.toNat).isSome ↔ hint.toNat ≤ 2 ^ 63 := by
    unfold capacityFor
    rw [Option.isSome_map]
    exact roundUp_isSome (k := 0) (by decide) (by decide)
  rw [← h]
  unfold new
  split
  · rename_i hn; simp [hn]
  · rename_i hs; simp [hs]

/-! ## The table -/

/-- The entry of a slot. -/
def entry (s : Slot) : Option (UInt64 × UInt32) :=
  if s.value = kNoOrder then none else some (s.key, s.value)

/-- The slots as a table of entries. -/
def table (slots : ℕ → Slot) : ℕ → Option (UInt64 × UInt32) := entry ∘ slots

theorem entry_eq_none {s : Slot} : entry s = none ↔ s.value = kNoOrder := by
  unfold entry; split <;> simp_all

theorem entry_eq_some {s : Slot} {e : UInt64 × UInt32} :
    entry s = some e ↔ s.value ≠ kNoOrder ∧ e = (s.key, s.value) := by
  unfold entry; split <;> simp_all [eq_comm]

theorem table_update (slots : ℕ → Slot) (i : ℕ) (s : Slot) :
    table (Function.update slots i s) = Function.update (table slots) i (entry s) :=
  Function.comp_update entry slots i s

@[simp] theorem entry_free (key : UInt64) : entry ⟨key, kNoOrder⟩ = none := if_pos rfl

theorem home_lt (x : OrderIndex P) (key : UInt64) : x.home key < x.capacity :=
  P.index_lt key x.logCap (by have := x.logCap_ge; omega) x.logCap_lt

theorem after_eq (x : OrderIndex P) {i : ℕ} (hi : i < x.capacity) :
    x.after i = Probing.next x.capacity i := by
  rw [Probing.next_eq_mod hi]
  exact Nat.and_two_pow_sub_one_eq_mod _ _

theorem capacity_ge (x : OrderIndex P) : 16 ≤ x.capacity := by
  have h : 2 ^ 4 ≤ 2 ^ x.logCap := Nat.pow_le_pow_right (by decide) x.logCap_ge
  exact h

/-- The test of `erase_at`: going forward from the home, the entry is met before the hole. -/
theorem cannotMove_iff {cap i j k : ℕ} (hi : i < cap) (hj : j < cap) (hk : k < cap) :
    cannotMove i j k = true ↔ Probing.dist cap k j < Probing.dist cap k i := by
  unfold cannotMove Probing.dist
  by_cases h : i ≤ j
  · rw [if_pos h]
    simp only [Bool.and_eq_true, decide_eq_true_eq]
    split_ifs <;> omega
  · rw [if_neg h]
    simp only [Bool.or_eq_true, decide_eq_true_eq]
    split_ifs <;> omega

/-- The keys that the index holds. -/
def keys (x : OrderIndex P) : Set UInt64 := Probing.keys x.capacity Prod.fst (table x.slots)

/-- The index holds this value under this key. -/
def Holds (x : OrderIndex P) (key : UInt64) (value : UInt32) : Prop :=
  Probing.Contains x.capacity (table x.slots) (key, value)

structure Valid (x : OrderIndex P) : Prop where
  probing : Probing.Inv x.capacity x.home Prod.fst (table x.slots)
  size_eq : x.size = x.keys.ncard
  size_le : x.size ≤ x.capacity / 2

variable {x x' : OrderIndex P} {key : UInt64} {value : UInt32}

theorem mem_keys : key ∈ x.keys ↔ ∃ value, x.Holds key value := by
  constructor
  · rintro ⟨⟨k, v⟩, hc, rfl⟩
    exact ⟨v, hc⟩
  · rintro ⟨v, hc⟩
    exact ⟨_, hc, rfl⟩

theorem Valid.holds_unique (h : Valid x) {v w : UInt32} (hv : x.Holds key v) (hw : x.Holds key w) :
    v = w := congrArg Prod.snd (h.probing.eq_of_key_eq hv hw rfl)

theorem valid_new {hint : UInt64} (h : new P hint = some x) : Valid x ∧ ∀ k v, ¬ x.Holds k v := by
  obtain ⟨hslots, hsize, -⟩ := new_eq_some h
  have htable : table x.slots = fun _ => none := by
    rw [hslots]; funext i; exact entry_free 0
  have hnone : ∀ k v, ¬ x.Holds k v := by
    rintro k v ⟨i, -, hi⟩
    rw [htable] at hi
    cases hi
  have hkeys : x.keys = ∅ := by
    refine Set.eq_empty_of_forall_notMem fun k hk => ?_
    obtain ⟨v, hv⟩ := mem_keys.mp hk
    exact hnone k v hv
  exact ⟨⟨htable ▸ Probing.Inv.empty _ _ _, by rw [hkeys, hsize, Set.ncard_empty], by omega⟩, hnone⟩

/-! ## Probing -/

/-- The probe loop ends: at the key, or at a free slot when the key is absent. -/
theorem Valid.probe_spec (h : Valid x) (key : UInt64) :
    ∃ i, x.probe key = some i ∧ i < x.capacity ∧
      (((x.slots i).value = kNoOrder ∧ key ∉ x.keys ∧
          ∀ j < x.capacity, Probing.dist x.capacity (x.home key) j <
            Probing.dist x.capacity (x.home key) i →
              ∃ f, table x.slots j = some f ∧ f.1 ≠ key) ∨
        ((x.slots i).value ≠ kNoOrder ∧ table x.slots i = some (key, (x.slots i).value))) := by
  have hcap := x.capacity_ge
  obtain ⟨z, hz, hfree⟩ := h.probing.exists_empty (by
    change x.keys.ncard < _
    have h1 := h.size_eq
    have h2 := h.size_le
    omega)
  let stop : ℕ → Bool := fun j => (x.slots j).value == kNoOrder || (x.slots j).key == key
  have hstop : stop z = true := by
    simp only [stop]
    rw [entry_eq_none.mp hfree]
    simp
  obtain ⟨i, hi, hlt, hend, hbefore⟩ := Probing.scan_spec (fun j hj => x.after_eq hj)
    (x.home_lt key) hz hstop (Probing.dist_lt hz)
  have hskip : ∀ j < x.capacity, Probing.dist x.capacity (x.home key) j <
      Probing.dist x.capacity (x.home key) i → ∃ f, table x.slots j = some f ∧ f.1 ≠ key := by
    intro j hj hdist
    have hj' := hbefore j hj hdist
    simp only [stop, Bool.or_eq_false_iff, beq_eq_false_iff_ne] at hj'
    exact ⟨_, entry_eq_some.mpr ⟨hj'.1, rfl⟩, hj'.2⟩
  refine ⟨i, hi, hlt, ?_⟩
  by_cases hf : (x.slots i).value = kNoOrder
  · refine .inl ⟨hf, ?_, hskip⟩
    refine h.probing.not_mem_keys x.home_lt hlt (entry_eq_none.mpr hf) fun j hj hdist e he => ?_
    obtain ⟨f, hf', hne⟩ := hskip j hj hdist
    rwa [Option.some.inj (he.symm.trans hf')]
  · have hkey : (x.slots i).key = key := by simpa [stop, hf] using hend
    exact .inr ⟨hf, entry_eq_some.mpr ⟨hf, by rw [hkey]⟩⟩

theorem Valid.find_spec (h : Valid x) (key : UInt64) :
    ∃ v, x.find key = some v ∧ (v = kNoOrder ↔ key ∉ x.keys) ∧ (v ≠ kNoOrder → x.Holds key v) := by
  obtain ⟨i, hi, hlt, ⟨hf, habsent, -⟩ | ⟨hne, hat⟩⟩ := h.probe_spec key
  · exact ⟨kNoOrder, by rw [find, hi, Option.map_some, hf], iff_of_true rfl habsent,
      fun hc => absurd rfl hc⟩
  · have hholds : x.Holds key (x.slots i).value := ⟨i, hlt, hat⟩
    exact ⟨_, by rw [find, hi, Option.map_some],
      iff_of_false hne fun hc => hc (mem_keys.mpr ⟨_, hholds⟩), fun _ => hholds⟩

/-! ## Insertion -/

theorem keys_finite (x : OrderIndex P) : x.keys.Finite := Probing.keys_finite _ _ _

/-- After an insertion that succeeds. -/
theorem keys_of_inserted
    (hx : ∀ k w, x'.Holds k w ↔ (k = key ∧ w = value) ∨ (k ≠ key ∧ x.Holds k w)) :
    x'.keys = Insert.insert key x.keys := by
  ext k
  rw [Set.mem_insert_iff, mem_keys, mem_keys]
  by_cases hk : k = key
  · exact iff_of_true ⟨value, (hx k value).mpr (.inl ⟨hk, rfl⟩)⟩ (.inl hk)
  · simp [hx, hk]

theorem Valid.insert_spec (h : Valid x) (key : UInt64) (value : UInt32) :
    ∃ b x', x.insert key value = some (b, x') ∧ Valid x' ∧ x'.logCap = x.logCap ∧
      (b = false ↔ value = kNoOrder ∨ x.size = x.capacity / 2) ∧
      (b = false → x'.slots = x.slots ∧ x'.size = x.size) ∧
      (b = true → ∀ k w, x'.Holds k w ↔ (k = key ∧ w = value) ∨ (k ≠ key ∧ x.Holds k w)) := by
  have hle := h.size_le
  unfold insert
  by_cases hv : value = kNoOrder
  · rw [if_pos hv]
    exact ⟨false, x, rfl, h, rfl, iff_of_true rfl (.inl hv), fun _ => ⟨rfl, rfl⟩, fun hc => Bool.noConfusion hc⟩
  rw [if_neg hv]
  by_cases hfull : x.size + 1 > x.capacity / 2
  · rw [if_pos hfull]
    exact ⟨false, _, rfl, ⟨h.probing, h.size_eq, h.size_le⟩, rfl, iff_of_true rfl (.inr (by omega)),
      fun _ => ⟨rfl, rfl⟩, fun hc => Bool.noConfusion hc⟩
  rw [if_neg hfull]
  have hroom : true = false ↔ value = kNoOrder ∨ x.size = x.capacity / 2 :=
    iff_of_false (by simp) (by rintro (hc | hc); exacts [hv hc, hfull (by omega)])
  have hentry : entry ⟨key, value⟩ = some (key, value) := entry_eq_some.mpr ⟨hv, rfl⟩
  obtain ⟨i, hi, hlt, ⟨hf, habsent, hbefore⟩ | ⟨hne, hat⟩⟩ := h.probe_spec key
  · rw [hi, Option.map_some, if_pos hf]
    obtain ⟨hinv, hcontains⟩ := h.probing.fill x.home_lt (e := (key, value)) hlt
      (entry_eq_none.mpr hf) hbefore
    rw [← hentry, ← table_update] at hinv hcontains
    have hholds : ∀ k w, Holds (P := P) { x with
        slots := Function.update x.slots i ⟨key, value⟩, size := x.size + 1 } k w ↔
          (k = key ∧ w = value) ∨ (k ≠ key ∧ x.Holds k w) := by
      intro k w
      refine (hcontains (k, w)).trans ?_
      rw [Prod.mk.injEq]
      refine or_congr_right ⟨fun hc => ⟨?_, hc⟩, fun hc => hc.2⟩
      rintro rfl
      exact habsent (mem_keys.mpr ⟨w, hc⟩)
    refine ⟨true, _, rfl, ⟨hinv, ?_, by dsimp only [capacity] at *; omega⟩, rfl, hroom,
      fun hc => Bool.noConfusion hc, fun _ => hholds⟩
    rw [keys_of_inserted hholds, Set.ncard_insert_of_notMem habsent x.keys_finite, ← h.size_eq]
  · rw [hi, Option.map_some, if_neg hne]
    have hkey : (x.slots i).key = key := by
      have := (entry_eq_some.mp hat).2
      exact (congrArg Prod.fst this).symm
    obtain ⟨hinv, hcontains⟩ := h.probing.replace (e := (key, value)) hlt hat rfl
    rw [← hentry, ← table_update] at hinv hcontains
    have hslot : ({ x.slots i with value := value } : Slot) = ⟨key, value⟩ := by
      rw [← hkey]
    rw [← hslot] at hinv hcontains
    have hholds : ∀ k w, Holds (P := P) { x with
        slots := Function.update x.slots i { x.slots i with value := value } } k w ↔
          (k = key ∧ w = value) ∨ (k ≠ key ∧ x.Holds k w) := by
      intro k w
      refine (hcontains (k, w)).trans ?_
      rw [Prod.mk.injEq]
      exact or_congr_right and_comm
    refine ⟨true, _, rfl, ⟨hinv, ?_, h.size_le⟩, rfl, hroom, fun hc => Bool.noConfusion hc, fun _ => hholds⟩
    have hmem : key ∈ x.keys := mem_keys.mpr ⟨_, i, hlt, hat⟩
    rw [keys_of_inserted hholds, Set.insert_eq_of_mem hmem, ← h.size_eq]

/-! ## Deletion -/

/-- The backward-shift loop ends, at an index that has lost nothing more. -/
theorem shiftBack_spec (x : OrderIndex P) : ∀ (fuel : ℕ) {i j z : ℕ} {slots : ℕ → Slot},
    Probing.Hole x.capacity x.home Prod.fst (table slots) i j → i < x.capacity → j < x.capacity →
    z < x.capacity → table slots z = none → z ≠ i → z ≠ j → Probing.dist x.capacity j z ≤ fuel →
      ∃ slots', x.shiftBack fuel i j slots = some slots' ∧
        Probing.Inv x.capacity x.home Prod.fst (table slots') ∧
        ∀ e, Probing.Contains x.capacity (table slots') e ↔
          Probing.Contains x.capacity (table slots) e
  | 0, i, j, z, slots, _, _, hj, _, _, _, hzj, hfuel =>
    absurd ((Probing.dist_eq_zero hj).mp (Nat.le_zero.mp hfuel)) hzj.symm
  | fuel + 1, i, j, z, slots, h, hi, hj, hz, hfree, hzi, hzj, hfuel => by
    have hn := Probing.next_lt hj
    have hcloser := Probing.dist_next hj hz hzj.symm
    unfold shiftBack
    simp only [x.after_eq hj]
    by_cases hend : (slots (Probing.next x.capacity j)).value = kNoOrder
    · rw [if_pos hend]
      exact ⟨slots, rfl, h.done x.home_lt hi hj (entry_eq_none.mpr hend), fun _ => Iff.rfl⟩
    rw [if_neg hend]
    have he : table slots (Probing.next x.capacity j) =
        some ((slots (Probing.next x.capacity j)).key, (slots (Probing.next x.capacity j)).value) :=
      entry_eq_some.mpr ⟨hend, rfl⟩
    have hzn : z ≠ Probing.next x.capacity j := by rintro rfl; rw [he] at hfree; cases hfree
    by_cases hstay : cannotMove i (Probing.next x.capacity j)
        (x.home (slots (Probing.next x.capacity j)).key) = true
    · rw [if_pos hstay]
      exact shiftBack_spec x fuel (h.skip hi hj he ((cannotMove_iff hi hn (x.home_lt _)).mp hstay))
        hi hn hz hfree hzi hzn (by omega)
    · rw [if_neg hstay]
      obtain ⟨hhole, hsame⟩ := h.move x.home_lt hi hj he
        (fun hc => hstay ((cannotMove_iff hi hn (x.home_lt _)).mpr hc))
      have htable : table (Function.update (Function.update slots i
            (slots (Probing.next x.capacity j))) (Probing.next x.capacity j)
            { slots (Probing.next x.capacity j) with value := kNoOrder }) =
          Function.update (Function.update (table slots) i
            (some ((slots (Probing.next x.capacity j)).key,
              (slots (Probing.next x.capacity j)).value)))
            (Probing.next x.capacity j) none := by
        rw [table_update, table_update, entry_free, entry_eq_some.mpr ⟨hend, rfl⟩]
      rw [← htable] at hhole hsame
      obtain ⟨slots', hs, hinv, hc⟩ := shiftBack_spec x fuel hhole hn hn hz
        (by rw [htable, Function.update_of_ne hzn, Function.update_of_ne hzi]; exact hfree)
        hzn hzn (by omega)
      exact ⟨slots', hs, hinv, fun e => (hc e).trans (hsame e)⟩

theorem Valid.erase_spec (h : Valid x) (key : UInt64) :
    ∃ v x', x.erase key = some (v, x') ∧ x.find key = some v ∧ Valid x' ∧ x'.logCap = x.logCap ∧
      x'.insertFailures = x.insertFailures ∧
      ∀ k w, x'.Holds k w ↔ k ≠ key ∧ x.Holds k w := by
  have hcap := x.capacity_ge
  have hle := h.size_le
  unfold erase find
  obtain ⟨i, hi, hlt, ⟨hf, habsent, -⟩ | ⟨hne, hat⟩⟩ := h.probe_spec key
  · rw [hi, Option.bind_some, if_pos hf, Option.map_some, hf]
    refine ⟨kNoOrder, x, rfl, rfl, h, rfl, rfl, fun k w => ⟨fun hc => ⟨?_, hc⟩, fun hc => hc.2⟩⟩
    rintro rfl
    exact habsent (mem_keys.mpr ⟨w, hc⟩)
  rw [hi, Option.bind_some, if_neg hne, Option.map_some]
  obtain ⟨z, hz, hfree⟩ := h.probing.exists_empty (by
    change x.keys.ncard < _
    have := h.size_eq
    omega)
  have hzi : z ≠ i := by rintro rfl; rw [hat] at hfree; cases hfree
  obtain ⟨hhole, hcontains⟩ := h.probing.hole i hlt hat
  rw [← entry_free (x.slots i).key, ← table_update] at hhole hcontains
  obtain ⟨slots', hs, hinv, hc⟩ := x.shiftBack_spec _ hhole hlt hlt hz
    (by rw [table_update, Function.update_of_ne hzi]; exact hfree) hzi hzi
    (Probing.dist_lt hz).le
  have hmap : x.eraseAt i = some slots' := hs
  rw [hmap, Option.map_some]
  have hholds : ∀ k w, Holds (P := P) { x with slots := slots', size := x.size - 1 } k w ↔
      k ≠ key ∧ x.Holds k w := by
    intro k w
    refine (hc (k, w)).trans ((hcontains (k, w)).trans ?_)
    rw [and_comm]
    refine and_congr_left fun hold => not_congr ⟨fun heq => congrArg Prod.fst heq, ?_⟩
    rintro rfl
    rw [h.holds_unique hold ⟨i, hlt, hat⟩]
  have hkeys : keys (P := P) { x with slots := slots', size := x.size - 1 } = x.keys \ {key} := by
    ext k
    rw [Set.mem_sdiff, Set.mem_singleton_iff, mem_keys, mem_keys]
    simp only [hholds]
    exact ⟨fun ⟨w, hk, hw⟩ => ⟨⟨w, hw⟩, hk⟩, fun ⟨⟨w, hw⟩, hk⟩ => ⟨w, hk, hw⟩⟩
  have hmem : key ∈ x.keys := mem_keys.mpr ⟨_, i, hlt, hat⟩
  refine ⟨_, _, rfl, rfl, ⟨hinv, ?_, by dsimp only [capacity] at *; omega⟩, rfl, rfl, hholds⟩
  rw [hkeys, Set.ncard_sdiff_singleton_of_mem hmem, ← h.size_eq]

/-! ## What the operations leave alone -/

theorem insert_fields {b : Bool} (h : x.insert key value = some (b, x')) :
    x'.logCap = x.logCap ∧ x'.size ≤ x.size + 1 ∧
      x'.insertFailures = x.insertFailures + (if value ≠ kNoOrder ∧ b = false then 1 else 0) := by
  unfold insert at h
  split at h
  · rename_i hv
    obtain ⟨rfl, rfl⟩ := Prod.mk.inj (Option.some.inj h)
    exact ⟨rfl, Nat.le_succ _, by rw [if_neg fun hc => hc.1 hv, Nat.add_zero]⟩
  rename_i hv
  split at h
  · obtain ⟨rfl, rfl⟩ := Prod.mk.inj (Option.some.inj h)
    exact ⟨rfl, Nat.le_succ _, by rw [if_pos ⟨hv, rfl⟩]⟩
  obtain ⟨i, -, hi⟩ := Option.map_eq_some_iff.mp h
  split at hi
  · obtain ⟨rfl, rfl⟩ := Prod.mk.inj hi
    exact ⟨rfl, le_rfl, by simp⟩
  · obtain ⟨rfl, rfl⟩ := Prod.mk.inj hi
    exact ⟨rfl, Nat.le_succ _, by simp⟩

theorem erase_fields {v : UInt32} (h : x.erase key = some (v, x')) :
    x'.logCap = x.logCap ∧ x'.size ≤ x.size ∧ x'.insertFailures = x.insertFailures := by
  obtain ⟨i, -, hi⟩ := Option.bind_eq_some_iff.mp h
  split at hi
  · obtain ⟨rfl, rfl⟩ := Prod.mk.inj (Option.some.inj hi)
    exact ⟨rfl, le_rfl, rfl⟩
  obtain ⟨slots, -, hslots⟩ := Option.map_eq_some_iff.mp hi
  obtain ⟨rfl, rfl⟩ := Prod.mk.inj hslots
  exact ⟨rfl, Nat.sub_le _ _, rfl⟩

/-! ## Any sequence of operations -/

inductive IndexOp
  | find (key : UInt64)
  | insert (key : UInt64) (value : UInt32)
  | erase (key : UInt64)
  deriving DecidableEq

/-- `found` is the answer of `find` and `erase`, `inserted` that of `insert`. -/
inductive IndexResult
  | found (value : UInt32)
  | inserted (success : Bool)
  deriving DecidableEq

def apply (x : OrderIndex P) : IndexOp → Option (IndexResult × OrderIndex P)
  | .find key => (x.find key).map fun v => (.found v, x)
  | .insert key value => (x.insert key value).map fun r => (.inserted r.1, r.2)
  | .erase key => (x.erase key).map fun r => (.found r.1, r.2)

/-- The operations in order, with their results. -/
def run (x : OrderIndex P) : List IndexOp → Option (List (IndexOp × IndexResult) × OrderIndex P)
  | [] => some ([], x)
  | op :: ops =>
    (x.apply op).bind fun r => (run r.2 ops).map fun h => ((op, r.1) :: h.1, h.2)

theorem apply_fields {op : IndexOp} {r : IndexResult} (h : x.apply op = some (r, x')) :
    x'.logCap = x.logCap ∧ x'.size ≤ x.size + 1 := by
  cases op with
  | find key =>
    obtain ⟨v, -, hv⟩ := Option.map_eq_some_iff.mp h
    rw [← (Prod.mk.inj hv).2]
    exact ⟨rfl, Nat.le_succ _⟩
  | insert key value =>
    obtain ⟨⟨b, x'⟩, hins, hr⟩ := Option.map_eq_some_iff.mp h
    rw [← (Prod.mk.inj hr).2]
    exact ⟨(insert_fields hins).1, (insert_fields hins).2.1⟩
  | erase key =>
    obtain ⟨⟨v, x'⟩, her, hr⟩ := Option.map_eq_some_iff.mp h
    rw [← (Prod.mk.inj hr).2]
    exact ⟨(erase_fields her).1, (erase_fields her).2.1.trans (Nat.le_succ _)⟩

theorem run_logCap {ops : List IndexOp} : ∀ {x y : OrderIndex P} {history : List (IndexOp × IndexResult)},
    x.run ops = some (history, y) → y.logCap = x.logCap := by
  induction ops with
  | nil =>
    intro x y history h
    rw [← (Prod.mk.inj (Option.some.inj h)).2]
  | cons op ops ih =>
    intro x y history h
    obtain ⟨⟨r, x'⟩, hop, hrest⟩ := Option.bind_eq_some_iff.mp h
    obtain ⟨⟨hs, y'⟩, hrun, hy⟩ := Option.map_eq_some_iff.mp hrest
    rw [← (Prod.mk.inj hy).2]
    exact (ih hrun).trans (apply_fields hop).1

/-- What one operation makes of the value under `key`. -/
def IndexOp.effect (key : UInt64) (v : UInt32) : IndexOp × IndexResult → UInt32
  | (.insert k value, .inserted true) => if k = key then value else v
  | (.erase k, _) => if k = key then kNoOrder else v
  | _ => v

/-- The value of the last successful insertion of `key` that no erasure of it follows, `kNoOrder` when
there is none. -/
def latest (key : UInt64) (history : List (IndexOp × IndexResult)) : UInt32 :=
  history.foldl (IndexOp.effect key) kNoOrder

theorem latest_snoc (key : UInt64) (history : List (IndexOp × IndexResult))
    (e : IndexOp × IndexResult) :
    latest key (history ++ [e]) = IndexOp.effect key (latest key history) e := by
  unfold latest; rw [List.foldl_append]; rfl

/-- The index is the finite map that its history spells out. -/
structure IsMap (history : List (IndexOp × IndexResult)) (x : OrderIndex P) : Prop where
  find_eq : ∀ key, x.find key = some (latest key history)
  erase_eq : ∀ key, ∃ x', x.erase key = some (latest key history, x') ∧
    ∀ k, x'.find k = if k = key then some kNoOrder else x.find k
  insert_eq : ∀ key value, ∃ b x', x.insert key value = some (b, x') ∧
    (b = false ↔ value = kNoOrder ∨ x.size = x.capacity / 2) ∧
    (b = false → (∀ k, x'.find k = x.find k) ∧ x'.size = x.size)
  size_eq : x.size = {key | latest key history ≠ kNoOrder}.ncard

/-- A valid index that holds what `m` maps to a storable value. -/
def Represents (x : OrderIndex P) (m : UInt64 → UInt32) : Prop :=
  Valid x ∧ ∀ key value, x.Holds key value ↔ value ≠ kNoOrder ∧ m key = value

theorem Represents.find_eq {m : UInt64 → UInt32} (h : x.Represents m) (key : UInt64) :
    x.find key = some (m key) := by
  obtain ⟨v, hv, hnone, hsome⟩ := h.1.find_spec key
  rw [hv]
  by_cases hvn : v = kNoOrder
  · by_contra hne
    have hm : m key ≠ kNoOrder := fun hm => hne (by rw [hvn, hm])
    exact hnone.mp hvn (mem_keys.mpr ⟨m key, (h.2 key (m key)).mpr ⟨hm, rfl⟩⟩)
  · rw [((h.2 key v).mp (hsome hvn)).2]

theorem Represents.keys_eq {m : UInt64 → UInt32} (h : x.Represents m) :
    x.keys = {key | m key ≠ kNoOrder} := by
  ext key
  rw [mem_keys, Set.mem_ofPred_eq]
  constructor
  · rintro ⟨v, hv⟩
    obtain ⟨hne, hm⟩ := (h.2 key v).mp hv
    rwa [hm]
  · exact fun hm => ⟨m key, (h.2 key (m key)).mpr ⟨hm, rfl⟩⟩

theorem Represents.size_eq {m : UInt64 → UInt32} (h : x.Represents m) :
    x.size = {key | m key ≠ kNoOrder}.ncard := by rw [h.1.size_eq, h.keys_eq]

/-- The size, where the keys are those of a list without duplicates. -/
theorem Represents.size_eq_length {m : UInt64 → UInt32} (h : x.Represents m) {l : List UInt64} (hl : l.Nodup)
    (hm : ∀ key, m key ≠ kNoOrder ↔ key ∈ l) : x.size = l.length := by
  have hset : {key | m key ≠ kNoOrder} = (l.toFinset : Set UInt64) := by
    ext key
    rw [Set.mem_ofPred_eq, hm, List.coe_toFinset, Set.mem_ofPred_eq]
  rw [h.size_eq, hset, Set.ncard_coe_finset, List.toFinset_card_of_nodup hl]

theorem Represents.insert {m : UInt64 → UInt32} (h : x.Represents m) (key : UInt64)
    (value : UInt32) :
    ∃ b x', x.insert key value = some (b, x') ∧ x'.capacity = x.capacity ∧
      (b = false ↔ value = kNoOrder ∨ x.size = x.capacity / 2) ∧
      (b = false → x'.Represents m ∧ x'.size = x.size) ∧
      (b = true → x'.Represents (Function.update m key value)) := by
  obtain ⟨b, x', hins, hvalid, hcap, hb, hfail, hok⟩ := h.1.insert_spec key value
  refine ⟨b, x', hins, by unfold capacity; rw [hcap], hb, fun hbf => ⟨⟨hvalid, fun k w => ?_⟩, (hfail hbf).2⟩,
    fun hbt => ⟨hvalid, fun k w => ?_⟩⟩
  · rw [← h.2 k w]
    unfold Holds capacity
    rw [(hfail hbf).1, hcap]
  · have hvalue : value ≠ kNoOrder := fun hv => by
      rw [hb.mpr (.inl hv)] at hbt
      cases hbt
    rw [hok hbt k w]
    by_cases hk : k = key
    · subst hk
      rw [Function.update_self]
      constructor
      · rintro (⟨-, rfl⟩ | ⟨hne, -⟩)
        · exact ⟨hvalue, rfl⟩
        · exact absurd rfl hne
      · exact fun hw => .inl ⟨rfl, hw.2.symm⟩
    · rw [Function.update_of_ne hk, h.2 k w]
      simp [hk]

theorem Represents.erase {m : UInt64 → UInt32} (h : x.Represents m) (key : UInt64) :
    ∃ x', x.erase key = some (m key, x') ∧ x'.capacity = x.capacity ∧
      x'.Represents (Function.update m key kNoOrder) := by
  obtain ⟨v, x', her, hfind, hvalid, hcap, -, hholds⟩ := h.1.erase_spec key
  rw [h.find_eq] at hfind
  obtain rfl := Option.some.inj hfind
  refine ⟨x', her, by unfold capacity; rw [hcap], hvalid, fun k w => ?_⟩
  rw [hholds k w, h.2 k w]
  by_cases hk : k = key
  · subst hk
    rw [Function.update_self]
    exact iff_of_false (fun hc => hc.1 rfl) fun hc => hc.1 hc.2.symm
  · rw [Function.update_of_ne hk]
    simp [hk]

theorem Represents.isMap {history : List (IndexOp × IndexResult)}
    (h : x.Represents fun key => latest key history) : IsMap history x := by
  refine ⟨h.find_eq, fun key => ?_, fun key value => ?_, ?_⟩
  · obtain ⟨x', her, -, hrep⟩ := h.erase key
    refine ⟨x', her, fun k => ?_⟩
    rw [hrep.find_eq, h.find_eq]
    by_cases hk : k = key
    · rw [if_pos hk, hk, Function.update_self]
    · rw [if_neg hk, Function.update_of_ne hk]
  · obtain ⟨b, x', hins, -, hb, hfail, -⟩ := h.insert key value
    refine ⟨b, x', hins, hb, fun hbf => ⟨fun k => ?_, (hfail hbf).2⟩⟩
    rw [(hfail hbf).1.find_eq, h.find_eq]
  · exact h.size_eq

/-- One operation ends, and the index after it is the map after it. -/
theorem Represents.apply {history : List (IndexOp × IndexResult)}
    (h : x.Represents fun key => latest key history) (op : IndexOp) :
    ∃ r x', x.apply op = some (r, x') ∧
      x'.Represents fun key => latest key (history ++ [(op, r)]) := by
  simp only [latest_snoc]
  cases op with
  | find key => exact ⟨_, x, by rw [OrderIndex.apply, h.find_eq]; rfl, h⟩
  | insert key value =>
    obtain ⟨b, x', hins, -, -, hfail, hok⟩ := h.insert key value
    refine ⟨.inserted b, x', by rw [OrderIndex.apply, hins]; rfl, ?_⟩
    cases b with
    | false => exact (hfail rfl).1
    | true =>
      convert hok rfl using 2 with k
      simp only [IndexOp.effect, Function.update_apply, eq_comm]
  | erase key =>
    obtain ⟨x', her, -, hrep⟩ := h.erase key
    refine ⟨.found _, x', by rw [OrderIndex.apply, her]; rfl, ?_⟩
    convert hrep using 2 with k
    simp only [IndexOp.effect, Function.update_apply, eq_comm]

theorem Represents.run (ops : List IndexOp) : ∀ {history : List (IndexOp × IndexResult)}
    {x : OrderIndex P}, (x.Represents fun key => latest key history) →
      ∃ h y, x.run ops = some (h, y) ∧ h.map Prod.fst = ops ∧
        y.Represents fun key => latest key (history ++ h) := by
  induction ops with
  | nil => intro history x h; exact ⟨[], x, rfl, rfl, by rw [List.append_nil]; exact h⟩
  | cons op ops ih =>
    intro history x h
    obtain ⟨r, x', hop, h'⟩ := h.apply op
    obtain ⟨hs, y, hrun, hmap, hy⟩ := ih h'
    refine ⟨(op, r) :: hs, y, ?_, by rw [List.map_cons, hmap], ?_⟩
    · rw [OrderIndex.run, hop, Option.bind_some, hrun]; rfl
    · rw [← List.singleton_append, ← List.append_assoc]; exact hy

theorem represents_new {hint : UInt64} (h : new P hint = some x) : x.Represents fun key => latest key [] := by
  obtain ⟨hvalid, hnone⟩ := valid_new h
  exact ⟨hvalid, fun key value => iff_of_false (hnone key value) fun hc => hc.1 hc.2.symm⟩

/-- **The order index is a finite map.** Whatever the hash policy and the operations, every loop ends, and
after each operation the index is the map that the results so far spell out. -/
theorem isMap_run (P : HashPolicy) (capacityHint : UInt64) (x : OrderIndex P)
    (hnew : new P capacityHint = some x) (ops : List IndexOp) :
    ∃ history y, x.run ops = some (history, y) ∧ history.map Prod.fst = ops ∧ IsMap history y := by
  obtain ⟨history, y, hrun, hmap, hy⟩ := (represents_new hnew).run ops
  exact ⟨history, y, hrun, hmap, hy.isMap⟩

theorem isMap_run_three : ∃ x : OrderIndex multiplyShiftHash, ∃ history y,
    new multiplyShiftHash 4 = some x ∧
      x.run [.insert 7 1, .find 7, .erase 7] = some (history, y) ∧ IsMap history y := by
  obtain ⟨x, hx⟩ := Option.isSome_iff_exists.mp ((new_isSome multiplyShiftHash 4).mpr (by decide))
  obtain ⟨history, y, hrun, -, hmap⟩ :=
    isMap_run multiplyShiftHash 4 x hx [.insert 7 1, .find 7, .erase 7]
  exact ⟨x, history, y, hx, hrun, hmap⟩

end OrderIndex

end Carteret
