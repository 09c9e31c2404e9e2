import Mathlib

/-!
# Big-endian integers

`value` reads octets most significant first and `bytes n` writes the low `n` octets of a number; on `n`
octets the two are inverse to each other.
-/

namespace BigEndian

def value (bs : List UInt8) : ℕ := bs.foldl (fun v b => v * 256 + b.toNat) 0

def bytes : ℕ → ℕ → List UInt8
  | 0, _ => []
  | n + 1, v => bytes n (v / 256) ++ [UInt8.ofNat v]

@[simp] theorem length_bytes (n v : ℕ) : (bytes n v).length = n := by
  induction n generalizing v with
  | zero => rfl
  | succ n ih => rw [bytes, List.length_append, ih, List.length_singleton]

theorem value_snoc (bs : List UInt8) (b : UInt8) : value (bs ++ [b]) = value bs * 256 + b.toNat := by
  unfold value
  rw [List.foldl_append]
  rfl

theorem value_append (as bs : List UInt8) :
    value (as ++ bs) = value as * 256 ^ bs.length + value bs := by
  induction bs using List.reverseRecOn with
  | nil => simp [value]
  | append_singleton bs b ih =>
    rw [← List.append_assoc, value_snoc, ih, value_snoc, List.length_append, List.length_singleton]
    ring

theorem value_lt (bs : List UInt8) : value bs < 256 ^ bs.length := by
  induction bs using List.reverseRecOn with
  | nil => simp [value]
  | append_singleton bs b ih =>
    have hb : b.toNat < 256 := b.toNat_lt
    rw [value_snoc, List.length_append, List.length_singleton, pow_succ]
    omega

theorem value_bytes : ∀ (n v : ℕ), v < 256 ^ n → value (bytes n v) = v
  | 0, v, h => by
    obtain rfl : v = 0 := by simpa using h
    rfl
  | n + 1, v, h => by
    have hdiv : v / 256 < 256 ^ n := by
      rw [pow_succ] at h
      exact Nat.div_lt_of_lt_mul (by omega)
    have hlow : (UInt8.ofNat v).toNat = v % 256 := UInt8.toNat_ofNat'
    rw [bytes, value_snoc, value_bytes n (v / 256) hdiv, hlow]
    omega

theorem bytes_value (bs : List UInt8) : bytes bs.length (value bs) = bs := by
  induction bs using List.reverseRecOn with
  | nil => rfl
  | append_singleton bs b ih =>
    have hb : b.toNat < 256 := b.toNat_lt
    have hdiv : (value bs * 256 + b.toNat) / 256 = value bs := by omega
    have hlow : UInt8.ofNat (value bs * 256 + b.toNat) = b := by
      refine UInt8.toNat_inj.mp ?_
      rw [UInt8.toNat_ofNat']
      omega
    rw [List.length_append, List.length_singleton, bytes, value_snoc, hdiv, ih, hlow]

theorem bytes_add (m n v : ℕ) : bytes (m + n) v = bytes m (v / 256 ^ n) ++ bytes n v := by
  induction n generalizing v with
  | zero => simp [bytes]
  | succ n ih =>
    rw [← Nat.add_assoc, bytes, ih, bytes, List.append_assoc, Nat.div_div_eq_div_mul, ← pow_succ']

theorem bytes_mul (n v : ℕ) : bytes n (v * 256 ^ n) = List.replicate n 0 := by
  induction n with
  | zero => rfl
  | succ n ih =>
    have hlow : UInt8.ofNat (v * 256 ^ n * 256) = 0 := by
      rw [← UInt8.toNat_inj, UInt8.toNat_ofNat']
      exact Nat.mul_mod_left _ _
    rw [bytes, pow_succ, ← Nat.mul_assoc, Nat.mul_div_cancel _ (by decide), ih, hlow, List.replicate_succ']

theorem bytes_mod (n v : ℕ) : bytes n (v % 256 ^ n) = bytes n v := by
  induction n generalizing v with
  | zero => rfl
  | succ n ih =>
    have hdiv : v % 256 ^ (n + 1) / 256 = v / 256 % 256 ^ n := by
      rw [pow_succ', Nat.mod_mul_right_div_self]
    have hlow : UInt8.ofNat (v % 256 ^ (n + 1)) = UInt8.ofNat v := by
      rw [← UInt8.toNat_inj, UInt8.toNat_ofNat', UInt8.toNat_ofNat']
      exact Nat.mod_mod_of_dvd v (Dvd.intro_left (256 ^ n) rfl)
    rw [bytes, bytes, hdiv, hlow, ih]

theorem bytes_eq_map (n v : ℕ) :
    bytes n v = (List.range n).map fun i => UInt8.ofNat (v / 256 ^ (n - 1 - i)) := by
  induction n generalizing v with
  | zero => rfl
  | succ n ih =>
    rw [bytes, ih, List.range_succ, List.map_append]
    congr 1
    · refine List.map_congr_left fun i hi => ?_
      have hlt : i < n := List.mem_range.mp hi
      rw [Nat.div_div_eq_div_mul, ← pow_succ', show n - 1 - i + 1 = n + 1 - 1 - i by omega]
    · simp

end BigEndian
