import Carteret.Lib.BigEndian

/-!
# SHA-256

The hash function of FIPS 180-4, on strings of bits.

1. Bits: words are read from strings of bits and written to them, the most significant bit first.
2. The constants are the first bits of fractional parts of roots of primes (`constant`, `initial`); `constant_eq`
   and `initial_eq` compute them.
3. A block of sixteen words is compressed into eight chaining words (`schedule`, `round`, `compress`).
4. `pad` makes a message a sequence of blocks, and `sha256` compresses them.
5. Octets: a message of octets is padded with octets, and its blocks are read octet by octet (`sha256_octets`).
-/

namespace Sha2

open BigEndian

/-! ## Bits -/

/-- The number that a string of bits writes. -/
def bitValue (bs : List Bool) : ℕ := bs.foldl (fun v b => v * 2 + b.toNat) 0

/-- The low `n` bits of a number. -/
def bits : ℕ → ℕ → List Bool
  | 0, _ => []
  | n + 1, v => bits n (v / 2) ++ [v.testBit 0]

/-- The bits of octets. -/
def bitString (os : List UInt8) : List Bool := os.flatMap fun o => bits 8 o.toNat

@[simp] theorem length_bits (n v : ℕ) : (bits n v).length = n := by
  induction n generalizing v with
  | zero => rfl
  | succ n ih => rw [bits, List.length_append, ih, List.length_singleton]

@[simp] theorem length_bitString (os : List UInt8) : (bitString os).length = 8 * os.length := by
  induction os with
  | nil => rfl
  | cons o os ih =>
    show (bits 8 o.toNat ++ bitString os).length = _
    rw [List.length_append, length_bits, ih, List.length_cons]
    omega

theorem bitString_append (os os' : List UInt8) : bitString (os ++ os') = bitString os ++ bitString os' :=
  List.flatMap_append

theorem bitString_cons (o : UInt8) (os : List UInt8) : bitString (o :: os) = bits 8 o.toNat ++ bitString os := rfl

theorem bits_add (m n v : ℕ) : bits (m + n) v = bits m (v / 2 ^ n) ++ bits n v := by
  induction n generalizing v with
  | zero => simp [bits]
  | succ n ih =>
    rw [← Nat.add_assoc, bits, ih, bits, List.append_assoc, Nat.div_div_eq_div_mul, ← pow_succ']

theorem bits_mod (n v : ℕ) : bits n (v % 2 ^ n) = bits n v := by
  induction n generalizing v with
  | zero => rfl
  | succ n ih =>
    have hlow : (v % 2 ^ (n + 1)) % 2 = v % 2 := Nat.mod_mod_of_dvd v (dvd_pow_self 2 (Nat.succ_ne_zero n))
    have hhigh : v % 2 ^ (n + 1) / 2 = v / 2 % 2 ^ n := by
      rw [pow_succ', Nat.mod_mul_right_div_self]
    rw [bits, bits, hhigh, ih, Nat.testBit_zero, Nat.testBit_zero, hlow]

theorem bitString_bytes (n v : ℕ) : bitString (bytes n v) = bits (8 * n) v := by
  induction n generalizing v with
  | zero => rfl
  | succ n ih =>
    have hoctet : bits 8 (UInt8.ofNat v).toNat = bits 8 v := by
      rw [UInt8.toNat_ofNat']
      exact bits_mod 8 v
    rw [bytes, bitString_append, ih, bitString_cons, hoctet, Nat.mul_succ, bits_add]
    exact congrArg _ (List.append_nil _)

theorem bitValue_snoc (bs : List Bool) (b : Bool) : bitValue (bs ++ [b]) = bitValue bs * 2 + b.toNat := by
  unfold bitValue
  rw [List.foldl_append]
  rfl

theorem bitValue_append (as bs : List Bool) : bitValue (as ++ bs) = bitValue as * 2 ^ bs.length + bitValue bs := by
  induction bs using List.reverseRecOn with
  | nil => simp [bitValue]
  | append_singleton bs b ih =>
    rw [← List.append_assoc, bitValue_snoc, ih, bitValue_snoc, List.length_append, List.length_singleton]
    ring

theorem bitValue_bits (n v : ℕ) : bitValue (bits n v) = v % 2 ^ n := by
  induction n generalizing v with
  | zero => simp [bits, bitValue, Nat.mod_one]
  | succ n ih =>
    have hbit : (v.testBit 0).toNat = v % 2 := by
      rw [Nat.testBit_zero]
      rcases Nat.mod_two_eq_zero_or_one v with h | h <;> simp [h]
    rw [bits, bitValue_snoc, ih, hbit, pow_succ', Nat.mod_mul]
    omega

/-- Octets and their bits write the same number. -/
theorem bitValue_bitString (os : List UInt8) : bitValue (bitString os) = value os := by
  induction os using List.reverseRecOn with
  | nil => rfl
  | append_singleton os o ih =>
    have ho : bitValue (bitString [o]) = o.toNat := by
      rw [bitString_cons, show bitString [] = [] from rfl, List.append_nil, bitValue_bits]
      exact Nat.mod_eq_of_lt o.toNat_lt
    rw [bitString_append, bitValue_append, ih, ho, length_bitString, value_snoc]
    rfl

theorem bitString_drop (k : ℕ) (os : List UInt8) : (bitString os).drop (8 * k) = bitString (os.drop k) := by
  induction os generalizing k with
  | nil => simp [bitString]
  | cons o os ih =>
    cases k with
    | zero => rfl
    | succ k =>
      rw [bitString_cons, List.drop_append, length_bits, List.drop_of_length_le (by simp), List.nil_append,
        List.drop_succ_cons, ← ih]
      congr 1

theorem bitString_take (k : ℕ) (os : List UInt8) : (bitString os).take (8 * k) = bitString (os.take k) := by
  induction os generalizing k with
  | nil => simp [bitString]
  | cons o os ih =>
    cases k with
    | zero => rfl
    | succ k =>
      rw [bitString_cons, List.take_append, length_bits, List.take_of_length_le (by simp),
        List.take_succ_cons, bitString_cons, ← ih]
      congr 2

/-! ## The constants -/

abbrev Word := BitVec 32

/-- The first thirty-two bits of the fractional part. -/
noncomputable def fractionBits (x : ℝ) : Word := BitVec.ofNat 32 ⌊Int.fract x * 2 ^ 32⌋₊

/-- From the cube roots of the primes. -/
noncomputable def constant (t : ℕ) : Word := fractionBits ((Nat.nth Nat.Prime t : ℝ) ^ (3 : ℝ)⁻¹)

/-- From the square roots of the primes. -/
noncomputable def initial (j : ℕ) : Word := fractionBits ((Nat.nth Nat.Prime j : ℝ) ^ (2 : ℝ)⁻¹)

/-- A root between two neighbours, both scaled by `2 ^ 32`. -/
theorem fractionBits_root {k p n : ℕ} {w : Word} (hk : 0 < k) (hle : (n * 2 ^ 32 + w.toNat) ^ k ≤ p * 2 ^ (32 * k))
    (hlt : p * 2 ^ (32 * k) < (n * 2 ^ 32 + w.toNat + 1) ^ k) : fractionBits ((p : ℝ) ^ (k : ℝ)⁻¹) = w := by
  set x : ℝ := (p : ℝ) ^ (k : ℝ)⁻¹ with hx
  have hpow : x ^ k = p := Real.rpow_inv_natCast_pow (Nat.cast_nonneg p) (by omega)
  have hx0 : 0 ≤ x := Real.rpow_nonneg (Nat.cast_nonneg p) _
  have hscaled : (x * 2 ^ 32) ^ k = p * 2 ^ (32 * k) := by
    rw [mul_pow, hpow, ← pow_mul]
  have hlow : (n : ℝ) * 2 ^ 32 + w.toNat ≤ x * 2 ^ 32 := by
    refine le_of_pow_le_pow_left₀ hk.ne' (by positivity) ?_
    rw [hscaled]
    exact_mod_cast hle
  have hhigh : x * 2 ^ 32 < (n : ℝ) * 2 ^ 32 + w.toNat + 1 := by
    refine lt_of_pow_lt_pow_left₀ k (by positivity) ?_
    rw [hscaled]
    exact_mod_cast hlt
  have hw : (w.toNat : ℝ) + 1 ≤ 2 ^ 32 := by exact_mod_cast w.isLt
  have hfloor : ⌊x⌋ = n := by
    rw [Int.floor_eq_iff]
    constructor
    · push_cast
      linarith [Nat.cast_nonneg (α := ℝ) w.toNat]
    · push_cast
      linarith
  have hfract : Int.fract x * 2 ^ 32 = x * 2 ^ 32 - n * 2 ^ 32 := by
    rw [Int.fract, hfloor, sub_mul, Int.cast_natCast]
  have hbits : ⌊Int.fract x * 2 ^ 32⌋₊ = w.toNat := by
    rw [Nat.floor_eq_iff (mul_nonneg (Int.fract_nonneg x) (by positivity)), hfract]
    constructor <;> linarith
  unfold fractionBits
  rw [hbits, BitVec.ofNat_toNat, BitVec.setWidth_eq]

/-- The first sixty-four primes. -/
def primes : List ℕ := [
  2, 3, 5, 7, 11, 13, 17, 19, 23, 29, 31, 37, 41, 43, 47, 53, 59, 61, 67, 71, 73, 79, 83, 89, 97, 101, 103, 107, 109,
  113, 127, 131, 137, 139, 149, 151, 157, 163, 167, 173, 179, 181, 191, 193, 197, 199, 211, 223, 227, 229, 233, 239,
  241, 251, 257, 263, 269, 271, 277, 281, 283, 293, 307, 311]

theorem mem_primes {q : ℕ} (hq : q < 312) : q ∈ primes ↔ q.Prime := by
  have hall : ∀ q < 312, q ∈ primes ↔ 2 ≤ q ∧ ∀ m < 18, 2 ≤ m → m * m ≤ q → ¬m ∣ q := by decide +kernel
  rw [hall q hq, Nat.prime_def_le_sqrt]
  refine and_congr_right fun _ => ⟨fun h m hm hsqrt => ?_, fun h m _ hm hsq => h m hm (Nat.le_sqrt.mpr hsq)⟩
  have hsq : m * m ≤ q := Nat.le_sqrt.mp hsqrt
  exact h m (by nlinarith) hm hsq

theorem nth_prime {t : ℕ} (ht : t < 64) : Nat.nth Nat.Prime t = primes.getD t 0 := by
  have htable : ∀ t < 64, primes.getD t 0 ∈ primes ∧ primes.getD t 0 < 312 ∧
      (primes.toFinset.filter (· < primes.getD t 0)).card = t := by decide +kernel
  obtain ⟨hmem, hlt, hcard⟩ := htable t ht
  have hcount : Nat.count Nat.Prime (primes.getD t 0) = t := by
    rw [Nat.count_eq_card_filter_range]
    refine Eq.trans (congrArg Finset.card ?_) hcard
    ext q
    rw [Finset.mem_filter, Finset.mem_filter, Finset.mem_range, List.mem_toFinset, and_comm]
    exact and_congr_left fun hq => (mem_primes (hq.trans hlt)).symm
  have hnth := Nat.nth_count ((mem_primes hlt).mp hmem)
  rw [hcount] at hnth
  exact hnth

def constants : List Word := [
  0x428a2f98, 0x71374491, 0xb5c0fbcf, 0xe9b5dba5, 0x3956c25b, 0x59f111f1, 0x923f82a4, 0xab1c5ed5,
  0xd807aa98, 0x12835b01, 0x243185be, 0x550c7dc3, 0x72be5d74, 0x80deb1fe, 0x9bdc06a7, 0xc19bf174,
  0xe49b69c1, 0xefbe4786, 0x0fc19dc6, 0x240ca1cc, 0x2de92c6f, 0x4a7484aa, 0x5cb0a9dc, 0x76f988da,
  0x983e5152, 0xa831c66d, 0xb00327c8, 0xbf597fc7, 0xc6e00bf3, 0xd5a79147, 0x06ca6351, 0x14292967,
  0x27b70a85, 0x2e1b2138, 0x4d2c6dfc, 0x53380d13, 0x650a7354, 0x766a0abb, 0x81c2c92e, 0x92722c85,
  0xa2bfe8a1, 0xa81a664b, 0xc24b8b70, 0xc76c51a3, 0xd192e819, 0xd6990624, 0xf40e3585, 0x106aa070,
  0x19a4c116, 0x1e376c08, 0x2748774c, 0x34b0bcb5, 0x391c0cb3, 0x4ed8aa4a, 0x5b9cca4f, 0x682e6ff3,
  0x748f82ee, 0x78a5636f, 0x84c87814, 0x8cc70208, 0x90befffa, 0xa4506ceb, 0xbef9a3f7, 0xc67178f2]

def initials : List Word := [
  0x6a09e667, 0xbb67ae85, 0x3c6ef372, 0xa54ff53a, 0x510e527f, 0x9b05688c, 0x1f83d9ab, 0x5be0cd19]

theorem constant_eq {t : ℕ} (ht : t < 64) : constant t = constants.getD t 0 := by
  have hroot : ∀ t < 64, ∃ n < 7, (n * 2 ^ 32 + (constants.getD t 0).toNat) ^ 3 ≤ primes.getD t 0 * 2 ^ (32 * 3) ∧
      primes.getD t 0 * 2 ^ (32 * 3) < (n * 2 ^ 32 + (constants.getD t 0).toNat + 1) ^ 3 := by decide +kernel
  obtain ⟨n, -, hle, hlt⟩ := hroot t ht
  unfold constant
  rw [nth_prime ht]
  exact fractionBits_root (by norm_num) hle hlt

theorem initial_eq {j : ℕ} (hj : j < 8) : initial j = initials.getD j 0 := by
  have hroot : ∀ j < 8, ∃ n < 5, (n * 2 ^ 32 + (initials.getD j 0).toNat) ^ 2 ≤ primes.getD j 0 * 2 ^ (32 * 2) ∧
      primes.getD j 0 * 2 ^ (32 * 2) < (n * 2 ^ 32 + (initials.getD j 0).toNat + 1) ^ 2 := by decide +kernel
  obtain ⟨n, -, hle, hlt⟩ := hroot j hj
  unfold initial
  rw [nth_prime (by omega)]
  exact fractionBits_root (by norm_num) hle hlt

/-! ## The compression -/

def ch (x y z : Word) : Word := (x &&& y) ^^^ (~~~x &&& z)

def maj (x y z : Word) : Word := (x &&& y) ^^^ (x &&& z) ^^^ (y &&& z)

def bigSigma₀ (x : Word) : Word := x.rotateRight 2 ^^^ x.rotateRight 13 ^^^ x.rotateRight 22

def bigSigma₁ (x : Word) : Word := x.rotateRight 6 ^^^ x.rotateRight 11 ^^^ x.rotateRight 25

def smallSigma₀ (x : Word) : Word := x.rotateRight 7 ^^^ x.rotateRight 18 ^^^ x >>> 3

def smallSigma₁ (x : Word) : Word := x.rotateRight 17 ^^^ x.rotateRight 19 ^^^ x >>> 10

/-- The words of the rounds, from the words of the block. -/
def schedule (M : ℕ → Word) (t : ℕ) : Word :=
  if t < 16 then M t
  else smallSigma₁ (schedule M (t - 2)) + schedule M (t - 7) + smallSigma₀ (schedule M (t - 15)) + schedule M (t - 16)

/-- The working variables, and the chaining words. -/
@[ext]
structure Work where
  (a b c d e f g h : Word)

/-- One round, with its constant and its word. -/
def round (k w : Word) (v : Work) : Work :=
  let t₁ := v.h + bigSigma₁ v.e + ch v.e v.f v.g + k + w
  let t₂ := bigSigma₀ v.a + maj v.a v.b v.c
  { a := t₁ + t₂, b := v.a, c := v.b, d := v.c, e := v.d + t₁, f := v.e, g := v.f, h := v.g }

/-- The first rounds. -/
noncomputable def rounds (W : ℕ → Word) (v : Work) : ℕ → Work
  | 0 => v
  | t + 1 => round (constant t) (W t) (rounds W v t)

def Work.add (v v' : Work) : Work :=
  { a := v.a + v'.a, b := v.b + v'.b, c := v.c + v'.c, d := v.d + v'.d,
    e := v.e + v'.e, f := v.f + v'.f, g := v.g + v'.g, h := v.h + v'.h }

/-- The chaining words behind a block. -/
noncomputable def compress (H : Work) (M : ℕ → Word) : Work := H.add (rounds (schedule M) H 64)

noncomputable def start : Work :=
  { a := initial 0, b := initial 1, c := initial 2, d := initial 3,
    e := initial 4, f := initial 5, g := initial 6, h := initial 7 }

/-- The chaining words behind the first blocks. -/
noncomputable def chain (M : ℕ → ℕ → Word) : ℕ → Work
  | 0 => start
  | i + 1 => compress (chain M i) (M i)

theorem schedule_of_lt (M : ℕ → Word) {t : ℕ} (ht : t < 16) : schedule M t = M t := by
  rw [schedule, if_pos ht]

theorem schedule_add (M : ℕ → Word) (t : ℕ) : schedule M (16 + t) = smallSigma₁ (schedule M (14 + t)) +
    schedule M (9 + t) + smallSigma₀ (schedule M (1 + t)) + schedule M t := by
  rw [schedule, if_neg (by omega), show 16 + t - 2 = 14 + t by omega, show 16 + t - 7 = 9 + t by omega,
    show 16 + t - 15 = 1 + t by omega, Nat.add_sub_cancel_left]

theorem schedule_congr {M M' : ℕ → Word} (h : ∀ t < 16, M t = M' t) (t : ℕ) : schedule M t = schedule M' t := by
  induction t using Nat.strong_induction_on with
  | _ t ih =>
    rcases Nat.lt_or_ge t 16 with ht | ht
    · rw [schedule_of_lt M ht, schedule_of_lt M' ht, h t ht]
    · obtain ⟨t, rfl⟩ := Nat.exists_eq_add_of_le ht
      rw [schedule_add, schedule_add, ih (14 + t) (by omega), ih (9 + t) (by omega), ih (1 + t) (by omega),
        ih t (by omega)]

theorem compress_congr {M M' : ℕ → Word} (h : ∀ t < 16, M t = M' t) (H : Work) : compress H M = compress H M' := by
  unfold compress
  rw [show schedule M = schedule M' from funext (schedule_congr h)]

/-- The chaining words depend on the blocks before them only. -/
theorem chain_congr {M M' : ℕ → ℕ → Word} {n : ℕ} (h : ∀ i < n, ∀ t < 16, M i t = M' i t) :
    chain M n = chain M' n := by
  induction n with
  | zero => rfl
  | succ n ih =>
    show compress (chain M n) (M n) = compress (chain M' n) (M' n)
    rw [ih fun i hi => h i (by omega), compress_congr (h n n.lt_succ_self)]

/-! ## The hash -/

theorem exists_zeros (l : ℕ) : ∃ k, (l + 1 + k) % 512 = 448 := ⟨(447 + 511 * l) % 512, by omega⟩

/-- The zero bits of the padding: as few as reach 448 modulo 512. -/
def zeros (l : ℕ) : ℕ := Nat.find (exists_zeros l)

/-- The message, a one, zeros, and the length of the message. -/
def pad (m : List Bool) : List Bool := m ++ true :: (List.replicate (zeros m.length) false ++ bits 64 m.length)

/-- Word `t` of block `i`. -/
def word (m : List Bool) (i t : ℕ) : Word := BitVec.ofNat 32 (bitValue ((m.drop (512 * i + 32 * t)).take 32))

def Work.digest (v : Work) : List Bool :=
  [v.a, v.b, v.c, v.d, v.e, v.f, v.g, v.h].flatMap fun w => bits 32 w.toNat

/-- The digest of a message of fewer than `2 ^ 64` bits. -/
noncomputable def sha256 (m : List Bool) : List Bool := (chain (word (pad m)) ((pad m).length / 512)).digest

/-! ## Octets -/

theorem zeros_eq {l k : ℕ} (hk : k < 512) (h : (l + 1 + k) % 512 = 448) : zeros l = k := by
  unfold zeros
  rw [Nat.find_eq_iff]
  exact ⟨h, fun n hn hn' => by omega⟩

/-- The zero octets of the padding. -/
def zeroOctets (n : ℕ) : ℕ := (55 + 63 * n) % 64

/-- The padding of a message of `n` octets. -/
def padding (n : ℕ) : List UInt8 := 0x80 :: (List.replicate (zeroOctets n) 0 ++ bytes 8 (8 * n))

/-- Word `t` of block `i`, of a message of octets. -/
def octetWord (m : List UInt8) (i t : ℕ) : Word := BitVec.ofNat 32 (value ((m.drop (64 * i + 4 * t)).take 4))

theorem bitString_zeros (n : ℕ) : bitString (List.replicate n 0) = List.replicate (8 * n) false := by
  induction n with
  | zero => rfl
  | succ n ih =>
    rw [List.replicate_succ, bitString_cons, ih, Nat.mul_succ, Nat.add_comm, List.replicate_add]
    rfl

theorem pad_octets (m : List UInt8) : pad (bitString m) = bitString (m ++ padding m.length) := by
  have hzeros : zeros (8 * m.length) = 7 + 8 * zeroOctets m.length := by
    refine zeros_eq ?_ ?_ <;> unfold zeroOctets <;> omega
  unfold pad padding
  rw [length_bitString, hzeros, bitString_append, bitString_cons, bitString_append, bitString_zeros, bitString_bytes,
    List.replicate_add]
  simp [bits]

theorem word_octets (m : List UInt8) (i t : ℕ) : word (bitString m) i t = octetWord m i t := by
  have htake := bitString_take 4 (m.drop (64 * i + 4 * t))
  unfold word octetWord
  rw [show 512 * i + 32 * t = 8 * (64 * i + 4 * t) by ring, bitString_drop, ← bitValue_bitString, ← htake]

/-- **Octets.** A message of octets is hashed octet by octet. -/
theorem sha256_octets (m : List UInt8) : sha256 (bitString m) =
    (chain (octetWord (m ++ padding m.length)) ((m ++ padding m.length).length / 64)).digest := by
  have hword : word (pad (bitString m)) = octetWord (m ++ padding m.length) := by
    funext i t
    rw [pad_octets, word_octets]
  have hlength : (pad (bitString m)).length / 512 = (m ++ padding m.length).length / 64 := by
    rw [pad_octets, length_bitString]
    omega
  unfold sha256
  rw [hword, hlength]

end Sha2
