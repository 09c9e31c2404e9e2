import Carteret.Lib.Runs
import Carteret.Lib.Sha2

/-!
# Sha256

The hash of the determinism layer. Octets go into a buffer of one block; a full buffer is compressed and the next
octet starts a new one.

1. `block` compresses the buffer: its words, then sixty-four rounds.
2. `update`, `finish` and the updates by fixed-width values.
3. The compression is that of the standard (`work_block`).
4. After any updates the chaining words are those of the full blocks, and the buffer holds the rest (`Holds`).
5. `finish_eq`: padding and length close the last block, so the digest is that of all octets given to `update`;
   `sha256_calls` is about any calls.
-/

namespace Carteret

/-- `buf_len_` reaches 64 only inside an update. -/
structure Sha256 where
  h : Vector UInt32 8 := #v[0x6a09e667, 0xbb67ae85, 0x3c6ef372, 0xa54ff53a,
    0x510e527f, 0x9b05688c, 0x1f83d9ab, 0x5be0cd19]
  buf : Vector UInt8 64 := Vector.replicate 64 0
  bufLen : ℕ := 0
  bitLen : UInt64 := 0
  bufLen_lt : bufLen < 64 := by decide

namespace Sha256

/-- Nothing has been fed. -/
def fresh : Sha256 := {}

/-! ## A block -/

def ror (x : UInt32) (n : ℕ) : UInt32 := (x >>> UInt32.ofNat n) ||| (x <<< UInt32.ofNat (32 - n))

def k : Vector UInt32 64 := #v[
  0x428a2f98, 0x71374491, 0xb5c0fbcf, 0xe9b5dba5, 0x3956c25b, 0x59f111f1, 0x923f82a4, 0xab1c5ed5,
  0xd807aa98, 0x12835b01, 0x243185be, 0x550c7dc3, 0x72be5d74, 0x80deb1fe, 0x9bdc06a7, 0xc19bf174,
  0xe49b69c1, 0xefbe4786, 0x0fc19dc6, 0x240ca1cc, 0x2de92c6f, 0x4a7484aa, 0x5cb0a9dc, 0x76f988da,
  0x983e5152, 0xa831c66d, 0xb00327c8, 0xbf597fc7, 0xc6e00bf3, 0xd5a79147, 0x06ca6351, 0x14292967,
  0x27b70a85, 0x2e1b2138, 0x4d2c6dfc, 0x53380d13, 0x650a7354, 0x766a0abb, 0x81c2c92e, 0x92722c85,
  0xa2bfe8a1, 0xa81a664b, 0xc24b8b70, 0xc76c51a3, 0xd192e819, 0xd6990624, 0xf40e3585, 0x106aa070,
  0x19a4c116, 0x1e376c08, 0x2748774c, 0x34b0bcb5, 0x391c0cb3, 0x4ed8aa4a, 0x5b9cca4f, 0x682e6ff3,
  0x748f82ee, 0x78a5636f, 0x84c87814, 0x8cc70208, 0x90befffa, 0xa4506ceb, 0xbef9a3f7, 0xc67178f2]

/-- `w[i]` of the first sixteen. -/
def load (p : Vector UInt8 64) (i : ℕ) : UInt32 :=
  (p[i * 4]!.toUInt32 <<< 24) ||| (p[i * 4 + 1]!.toUInt32 <<< 16) ||| (p[i * 4 + 2]!.toUInt32 <<< 8) |||
    p[i * 4 + 3]!.toUInt32

/-- `w[i]` of the others. -/
def extend (w : Vector UInt32 64) (i : ℕ) : Vector UInt32 64 :=
  let s0 := ror w[i - 15]! 7 ^^^ ror w[i - 15]! 18 ^^^ (w[i - 15]! >>> 3)
  let s1 := ror w[i - 2]! 17 ^^^ ror w[i - 2]! 19 ^^^ (w[i - 2]! >>> 10)
  w.setIfInBounds i (w[i - 16]! + s0 + w[i - 7]! + s1)

def words (p : Vector UInt8 64) : Vector UInt32 64 :=
  (List.range' 16 48).foldl extend (Vector.ofFn fun i => if i.val < 16 then load p i else 0)

/-- The variables of the rounds. -/
structure Vars where
  (a b c d e f g hh : UInt32)

def round (w : Vector UInt32 64) (v : Vars) (i : ℕ) : Vars :=
  let s1 := ror v.e 6 ^^^ ror v.e 11 ^^^ ror v.e 25
  let ch := (v.e &&& v.f) ^^^ (~~~v.e &&& v.g)
  let t1 := v.hh + s1 + ch + k[i]! + w[i]!
  let s0 := ror v.a 2 ^^^ ror v.a 13 ^^^ ror v.a 22
  let maj := (v.a &&& v.b) ^^^ (v.a &&& v.c) ^^^ (v.b &&& v.c)
  let t2 := s0 + maj
  { hh := v.g, g := v.f, f := v.e, e := v.d + t1, d := v.c, c := v.b, b := v.a, a := t1 + t2 }

/-- The chaining words behind the block `p`. -/
def block (h : Vector UInt32 8) (p : Vector UInt8 64) : Vector UInt32 8 :=
  let v := (List.range 64).foldl (round (words p))
    { a := h[0], b := h[1], c := h[2], d := h[3], e := h[4], f := h[5], g := h[6], hh := h[7] }
  #v[h[0] + v.a, h[1] + v.b, h[2] + v.c, h[3] + v.d, h[4] + v.e, h[5] + v.f, h[6] + v.g, h[7] + v.hh]

/-! ## Updates -/

/-- `memcpy` of `p` to `buf + i`. -/
def copied (buf : Vector UInt8 64) (i : ℕ) (p : List UInt8) (h : i + p.length ≤ 64) : Vector UInt8 64 :=
  ⟨(buf.toList.take i ++ p ++ buf.toList.drop (i + p.length)).toArray, by
    simp
    omega⟩

/-- One pass of the loop, with the octets `p` that fit into the buffer. -/
def fill (s : Sha256) (p : List UInt8) (hp : s.bufLen + p.length ≤ 64) : Sha256 :=
  let buf := copied s.buf s.bufLen p hp
  if hfull : s.bufLen + p.length = 64 then
    { s with h := block s.h buf, buf := buf, bufLen := 0, bufLen_lt := by decide }
  else { s with buf := buf, bufLen := s.bufLen + p.length, bufLen_lt := by omega }

/-- Without the length counter. -/
def updateRaw (s : Sha256) (p : List UInt8) : Sha256 :=
  if hlen : 0 < p.length then
    let take := min (64 - s.bufLen) p.length
    have hfits : s.bufLen + (p.take take).length ≤ 64 := by
      rw [List.length_take]
      have := s.bufLen_lt
      omega
    updateRaw (s.fill (p.take take) hfits) (p.drop take)
  else s
termination_by p.length
decreasing_by
  have := s.bufLen_lt
  rw [List.length_drop]
  omega

def update (s : Sha256) (data : List UInt8) : Sha256 :=
  { s with bitLen := s.bitLen + UInt64.ofNat data.length * 8 }.updateRaw data

def updateU64 (s : Sha256) (v : UInt64) : Sha256 :=
  s.update ((List.range 8).map fun i => (v >>> UInt64.ofNat (56 - 8 * i)).toUInt8)

def updateU32 (s : Sha256) (v : UInt32) : Sha256 :=
  s.update ((List.range 4).map fun i => (v >>> UInt32.ofNat (24 - 8 * i)).toUInt8)

def updateU8 (s : Sha256) (v : UInt8) : Sha256 := s.update [v]

/-! ## The digest -/

abbrev Digest := Vector UInt8 32

def digest (h : Vector UInt32 8) : Digest :=
  ⟨(h.toList.flatMap fun w : UInt32 =>
      [(w >>> 24).toUInt8, (w >>> 16).toUInt8, (w >>> 8).toUInt8, w.toUInt8]).toArray, by
    simp [List.length_flatMap]⟩

/-- On a copy. -/
def finish (s : Sha256) : Digest :=
  let pad : List UInt8 := 0x80 :: List.replicate 71 0
  let padLen := if s.bufLen < 56 then 56 - s.bufLen else 120 - s.bufLen
  let tmp := s.updateRaw (pad.take padLen)
  let lenBe := (List.range 8).map fun i => (tmp.bitLen >>> UInt64.ofNat (56 - 8 * i)).toUInt8
  digest (tmp.updateRaw lenBe).h

/-! ## The compression is that of the standard -/

theorem toBitVec_ror (x : UInt32) {n : ℕ} (h0 : 0 < n) (hn : n < 32) :
    (ror x n).toBitVec = x.toBitVec.rotateRight n := by
  have hright : ((UInt32.ofNat n).toBitVec % 32).toNat = n := by
    rw [BitVec.toNat_umod]
    show n % 2 ^ 32 % 32 = n
    omega
  have hleft : ((UInt32.ofNat (32 - n)).toBitVec % 32).toNat = 32 - n := by
    rw [BitVec.toNat_umod]
    show (32 - n) % 2 ^ 32 % 32 = 32 - n
    omega
  unfold ror
  rw [UInt32.toBitVec_or, UInt32.toBitVec_shiftRight, UInt32.toBitVec_shiftLeft, BitVec.ushiftRight_eq',
    BitVec.shiftLeft_eq', hright, hleft, BitVec.rotateRight_eq_rotateRightAux_of_lt hn]
  rfl

/-- Four octets of a list, as one word. -/
theorem take_four (l : List UInt8) (i : ℕ) (h : i + 4 ≤ l.length) :
    (l.drop i).take 4 = [l[i]!, l[i + 1]!, l[i + 2]!, l[i + 3]!] := by
  rw [List.drop_eq_getElem_cons (by omega), List.drop_eq_getElem_cons (by omega), List.drop_eq_getElem_cons (by omega),
    List.drop_eq_getElem_cons (by omega), getElem!_pos l i, getElem!_pos l (i + 1), getElem!_pos l (i + 2),
    getElem!_pos l (i + 3)]
  rfl

theorem toNat_joined (a b c d : UInt8) :
    ((a.toUInt32 <<< 24) ||| (b.toUInt32 <<< 16) ||| (c.toUInt32 <<< 8) ||| d.toUInt32).toNat =
      BigEndian.value [a, b, c, d] := by
  have ha := a.toNat_lt
  have hb := b.toNat_lt
  have hc := c.toNat_lt
  have hd := d.toNat_lt
  have hshift : ∀ (x : UInt8) (n : ℕ), n ≤ 24 → (x.toUInt32 <<< UInt32.ofNat n).toNat = 2 ^ n * x.toNat := by
    intro x n hn
    have hx := x.toNat_lt
    have hlt : 2 ^ n * x.toNat < 2 ^ 32 :=
      calc 2 ^ n * x.toNat ≤ 2 ^ 24 * x.toNat := Nat.mul_le_mul_right _ (Nat.pow_le_pow_right (by decide) hn)
        _ < 2 ^ 32 := by omega
    have hshift : (UInt32.ofNat n).toNat % 32 = n := by
      show n % 2 ^ 32 % 32 = n
      omega
    rw [UInt32.toNat_shiftLeft, UInt8.toNat_toUInt32, hshift, Nat.shiftLeft_eq, Nat.mul_comm, Nat.mod_eq_of_lt hlt]
  have hab : 2 ^ 24 * a.toNat ||| 2 ^ 16 * b.toNat = 2 ^ 16 * (2 ^ 8 * a.toNat + b.toNat) := by
    rw [← Nat.two_pow_add_eq_or_of_lt (by omega : 2 ^ 16 * b.toNat < 2 ^ 24)]
    ring
  have habc : 2 ^ 16 * (2 ^ 8 * a.toNat + b.toNat) ||| 2 ^ 8 * c.toNat =
      2 ^ 8 * (2 ^ 8 * (2 ^ 8 * a.toNat + b.toNat) + c.toNat) := by
    rw [← Nat.two_pow_add_eq_or_of_lt (by omega : 2 ^ 8 * c.toNat < 2 ^ 16)]
    ring
  have habcd : 2 ^ 8 * (2 ^ 8 * (2 ^ 8 * a.toNat + b.toNat) + c.toNat) ||| d.toNat =
      BigEndian.value [a, b, c, d] := by
    rw [← Nat.two_pow_add_eq_or_of_lt (by omega : d.toNat < 2 ^ 8)]
    simp only [BigEndian.value, List.foldl_cons, List.foldl_nil]
    ring
  rw [UInt32.toNat_or, UInt32.toNat_or, UInt32.toNat_or, UInt8.toNat_toUInt32, ← habcd, ← habc, ← hab]
  exact congrArg₂ _ (congrArg₂ _ (congrArg₂ _ (hshift a 24 (by decide)) (hshift b 16 (by decide)))
    (hshift c 8 (by decide))) rfl

theorem toBitVec_load (p : Vector UInt8 64) {i : ℕ} (hi : i < 16) :
    (load p i).toBitVec = Sha2.octetWord p.toList 0 i := by
  have hget : ∀ j < 64, p.toList[j]! = p[j]! := by
    intro j hj
    rw [getElem!_pos p.toList j (by simpa using hj), getElem!_pos p j hj, Vector.getElem_toList]
  unfold Sha2.octetWord load
  rw [take_four _ _ (by simp; omega), show 64 * 0 + 4 * i = i * 4 by ring, hget _ (by omega), hget _ (by omega),
    hget _ (by omega), hget _ (by omega), ← toNat_joined]
  exact (BitVec.ofNat_toNat 32 _).trans (BitVec.setWidth_eq _) |>.symm

theorem getElem!_setIfInBounds (w : Vector UInt32 64) (i : ℕ) {j : ℕ} (hj : j < 64) (x : UInt32) :
    (w.setIfInBounds i x)[j]! = if i = j then x else w[j]! := by
  rw [getElem!_pos _ j hj, getElem!_pos w j hj, Vector.getElem_setIfInBounds]

theorem toBitVec_extend (w : Vector UInt32 64) {i : ℕ} (hi : i < 64) : ((extend w i)[i]!).toBitVec =
    Sha2.smallSigma₁ (w[i - 2]!).toBitVec + (w[i - 7]!).toBitVec + Sha2.smallSigma₀ (w[i - 15]!).toBitVec +
      (w[i - 16]!).toBitVec := by
  unfold extend Sha2.smallSigma₀ Sha2.smallSigma₁
  rw [getElem!_setIfInBounds w i hi, if_pos rfl]
  simp only [UInt32.toBitVec_add, UInt32.toBitVec_xor]
  rw [toBitVec_ror _ (by decide) (by decide), toBitVec_ror _ (by decide) (by decide),
    toBitVec_ror _ (by decide) (by decide), toBitVec_ror _ (by decide) (by decide)]
  show _ + (_ ^^^ (w[i - 15]!).toBitVec >>> 3) + _ + (_ ^^^ (w[i - 2]!).toBitVec >>> 10) = _
  abel

/-- The words of the block are the schedule of the standard. -/
theorem toBitVec_words (p : Vector UInt8 64) {t : ℕ} (ht : t < 64) :
    ((words p)[t]!).toBitVec = Sha2.schedule (Sha2.octetWord p.toList 0) t := by
  have hloop : ∀ n ≤ 48, ∀ t < 16 + n,
      (((List.range' 16 n).foldl extend (Vector.ofFn fun i => if i.val < 16 then load p i else 0))[t]!).toBitVec =
        Sha2.schedule (Sha2.octetWord p.toList 0) t := by
    intro n hn
    induction n with
    | zero =>
      intro t ht
      show ((Vector.ofFn fun i : Fin 64 => if i.val < 16 then load p i else 0)[t]!).toBitVec = _
      rw [getElem!_pos _ t (by omega), Vector.getElem_ofFn, if_pos (by omega), toBitVec_load p (by omega),
        Sha2.schedule_of_lt _ (by omega)]
    | succ n ih =>
      intro t ht
      rw [List.range'_concat, List.foldl_append, Nat.one_mul]
      set w := (List.range' 16 n).foldl extend (Vector.ofFn fun i => if i.val < 16 then load p i else 0)
      show ((extend w (16 + n))[t]!).toBitVec = _
      rcases eq_or_ne t (16 + n) with rfl | hne
      · rw [toBitVec_extend w (by omega), ih (by omega) _ (by omega), ih (by omega) _ (by omega),
          ih (by omega) _ (by omega), ih (by omega) _ (by omega), Sha2.schedule_add, show 16 + n - 2 = 14 + n by omega,
          show 16 + n - 7 = 9 + n by omega, show 16 + n - 15 = 1 + n by omega, Nat.add_sub_cancel_left]
      · have hkeep : (extend w (16 + n))[t]! = w[t]! := by
          unfold extend
          rw [getElem!_setIfInBounds _ _ (by omega), if_neg hne.symm]
        rw [hkeep]
        exact ih (by omega) t (by omega)
  exact hloop 48 (le_refl _) t ht

/-- The variables, as words of the standard. -/
def Vars.work (v : Vars) : Sha2.Work :=
  { a := v.a.toBitVec, b := v.b.toBitVec, c := v.c.toBitVec, d := v.d.toBitVec,
    e := v.e.toBitVec, f := v.f.toBitVec, g := v.g.toBitVec, h := v.hh.toBitVec }

/-- The chaining words, as words of the standard. -/
def work (h : Vector UInt32 8) : Sha2.Work :=
  { a := h[0].toBitVec, b := h[1].toBitVec, c := h[2].toBitVec, d := h[3].toBitVec,
    e := h[4].toBitVec, f := h[5].toBitVec, g := h[6].toBitVec, h := h[7].toBitVec }

theorem toBitVec_k {t : ℕ} (ht : t < 64) : (k[t]!).toBitVec = Sha2.constant t := by
  have htable : ∀ t < 64, (k[t]!).toBitVec = Sha2.constants.getD t 0 := by decide +kernel
  rw [Sha2.constant_eq ht, htable t ht]

theorem work_round (w : Vector UInt32 64) (v : Vars) {t : ℕ} (ht : t < 64) :
    (round w v t).work = Sha2.round (Sha2.constant t) (w[t]!).toBitVec v.work := by
  unfold round Sha2.round Sha2.bigSigma₀ Sha2.bigSigma₁ Sha2.ch Sha2.maj Vars.work
  rw [← toBitVec_k ht]
  simp only [UInt32.toBitVec_add, UInt32.toBitVec_xor, UInt32.toBitVec_and, UInt32.toBitVec_not]
  rw [toBitVec_ror _ (by decide) (by decide), toBitVec_ror _ (by decide) (by decide),
    toBitVec_ror _ (by decide) (by decide), toBitVec_ror _ (by decide) (by decide),
    toBitVec_ror _ (by decide) (by decide), toBitVec_ror _ (by decide) (by decide)]

/-- **A block.** -/
theorem work_block (h : Vector UInt32 8) (p : Vector UInt8 64) :
    work (block h p) = Sha2.compress (work h) (Sha2.octetWord p.toList 0) := by
  have hrounds : ∀ n ≤ 64, ∀ v : Vars, ((List.range n).foldl (round (words p)) v).work =
      Sha2.rounds (Sha2.schedule (Sha2.octetWord p.toList 0)) v.work n := by
    intro n hn v
    induction n with
    | zero => rfl
    | succ n ih =>
      rw [List.range_succ, List.foldl_concat, work_round _ _ (by omega), ih (by omega), toBitVec_words p (by omega)]
      rfl
  unfold block Sha2.compress
  rw [show work h = Vars.work
    { a := h[0], b := h[1], c := h[2], d := h[3], e := h[4], f := h[5], g := h[6], hh := h[7] } from rfl,
    ← hrounds 64 (le_refl _)]
  rfl

/-! ## What the hash holds -/

/-- The hash behind the octets `m`: the full blocks are compressed, and the others are in the buffer. -/
structure Holds (s : Sha256) (m : List UInt8) : Prop where
  h : work s.h = Sha2.chain (Sha2.octetWord m) (m.length / 64)
  len : s.bufLen = m.length % 64
  buf : s.buf.toList.take s.bufLen = m.drop (64 * (m.length / 64))

theorem holds_init : Holds {} [] where
  h := by
    show work _ = Sha2.start
    unfold Sha2.start
    rw [Sha2.initial_eq (by decide), Sha2.initial_eq (by decide), Sha2.initial_eq (by decide),
      Sha2.initial_eq (by decide), Sha2.initial_eq (by decide), Sha2.initial_eq (by decide),
      Sha2.initial_eq (by decide), Sha2.initial_eq (by decide)]
    rfl
  len := rfl
  buf := rfl

theorem take_copied (buf : Vector UInt8 64) {i : ℕ} {p : List UInt8} (h : i + p.length ≤ 64) :
    (copied buf i p h).toList.take (i + p.length) = buf.toList.take i ++ p := by
  have hlength : (buf.toList.take i ++ p).length = i + p.length := by
    simp
    omega
  show List.take _ (_ ++ _) = _
  rw [← hlength]
  exact List.take_left

/-- Octets behind the block do not change its words. -/
theorem octetWord_append (m x : List UInt8) {i t : ℕ} (hi : i < m.length / 64) (ht : t < 16) :
    Sha2.octetWord (m ++ x) i t = Sha2.octetWord m i t := by
  unfold Sha2.octetWord
  rw [List.drop_append_of_le_length (by omega), List.take_append_of_le_length (by rw [List.length_drop]; omega)]

theorem octetWord_drop (m : List UInt8) (i : ℕ) : Sha2.octetWord (m.drop (64 * i)) 0 = Sha2.octetWord m i := by
  funext t
  unfold Sha2.octetWord
  rw [List.drop_drop, Nat.mul_zero, Nat.zero_add]

variable {s : Sha256} {m : List UInt8}

/-- **A pass of the loop.** -/
theorem Holds.fill (h : Holds s m) {p : List UInt8} (hp : s.bufLen + p.length ≤ 64) : Holds (s.fill p hp) (m ++ p) := by
  have hlen := h.len
  have hbuf : (copied s.buf s.bufLen p hp).toList.take (s.bufLen + p.length) =
      (m ++ p).drop (64 * (m.length / 64)) := by
    rw [take_copied, h.buf, List.drop_append_of_le_length (by omega)]
  have hchain : Sha2.chain (Sha2.octetWord (m ++ p)) (m.length / 64) = work s.h := by
    rw [h.h]
    exact Sha2.chain_congr fun i hi t ht => octetWord_append m p hi ht
  unfold Sha256.fill
  dsimp only
  split_ifs with hfull
  · have hblocks : (m ++ p).length / 64 = m.length / 64 + 1 := by
      rw [List.length_append]
      omega
    refine ⟨?_, ?_, ?_⟩
    · have hblock : (copied s.buf s.bufLen p hp).toList = (m ++ p).drop (64 * (m.length / 64)) := by
        rw [← hbuf, hfull, List.take_of_length_le (by simp)]
      rw [hblocks, work_block, hblock, octetWord_drop, ← hchain]
      rfl
    · rw [List.length_append]
      show 0 = _
      omega
    · rw [hblocks, List.drop_of_length_le (by rw [List.length_append]; omega)]
      rfl
  · have hlt : s.bufLen + p.length < 64 := by omega
    have hblocks : (m ++ p).length / 64 = m.length / 64 := by
      rw [List.length_append]
      omega
    refine ⟨?_, ?_, ?_⟩
    · rw [hblocks, hchain]
    · rw [List.length_append]
      show s.bufLen + p.length = _
      omega
    · rw [hblocks]
      exact hbuf

/-- **The loop.** -/
theorem holds_updateRaw (s : Sha256) (p : List UInt8) : ∀ m, Holds s m → Holds (s.updateRaw p) (m ++ p) := by
  fun_induction Sha256.updateRaw s p with
  | case1 s p hlen take hfits ih =>
    intro m h
    have hrest := ih _ (h.fill hfits)
    rwa [List.append_assoc, List.take_append_drop] at hrest
  | case2 s p hlen =>
    intro m h
    obtain rfl : p = [] := List.length_eq_zero_iff.mp (by omega)
    rwa [List.append_nil]

theorem bitLen_updateRaw (s : Sha256) (p : List UInt8) : (s.updateRaw p).bitLen = s.bitLen := by
  fun_induction Sha256.updateRaw s p with
  | case1 s p hlen take hfits ih =>
    rw [ih]
    unfold fill
    dsimp only
    split_ifs <;> rfl
  | case2 s p hlen => rfl

/-- The counter wraps at `2 ^ 64` bits. -/
structure Absorbed (s : Sha256) (m : List UInt8) : Prop extends Holds s m where
  bits : s.bitLen = UInt64.ofNat (8 * m.length)

theorem absorbed_init : Absorbed fresh [] := ⟨holds_init, rfl⟩

theorem Absorbed.update (h : Absorbed s m) (data : List UInt8) : Absorbed (s.update data) (m ++ data) := by
  have hcounted : Holds { s with bitLen := s.bitLen + UInt64.ofNat data.length * 8 } m := ⟨h.h, h.len, h.buf⟩
  refine ⟨holds_updateRaw _ data m hcounted, ?_⟩
  unfold Sha256.update
  rw [bitLen_updateRaw]
  show s.bitLen + UInt64.ofNat data.length * 8 = _
  rw [h.bits, List.length_append, Nat.mul_add, UInt64.ofNat_add, Nat.mul_comm 8 data.length,
    UInt64.ofNat_mul data.length]
  rfl

/-! ## The digest -/

theorem octet64 (v : UInt64) {n : ℕ} (hn : n < 8) :
    (v >>> UInt64.ofNat (8 * n)).toUInt8 = UInt8.ofNat (v.toNat / 256 ^ n) := by
  have hshift : (UInt64.ofNat (8 * n)).toNat % 64 = 8 * n := by
    show 8 * n % 2 ^ 64 % 64 = 8 * n
    omega
  refine UInt8.toNat_inj.mp ?_
  rw [UInt64.toNat_toUInt8, UInt64.toNat_shiftRight, hshift, Nat.shiftRight_eq_div_pow, UInt8.toNat_ofNat', pow_mul]
  rfl

theorem octet32 (v : UInt32) {n : ℕ} (hn : n < 4) :
    (v >>> UInt32.ofNat (8 * n)).toUInt8 = UInt8.ofNat (v.toNat / 256 ^ n) := by
  have hshift : (UInt32.ofNat (8 * n)).toNat % 32 = 8 * n := by
    show 8 * n % 2 ^ 32 % 32 = 8 * n
    omega
  refine UInt8.toNat_inj.mp ?_
  rw [UInt32.toNat_toUInt8, UInt32.toNat_shiftRight, hshift, Nat.shiftRight_eq_div_pow, UInt8.toNat_ofNat', pow_mul]
  rfl

/-- Shifts from the highest octet down. -/
theorem octets_of_shifts {n d v : ℕ} {o : ℕ → UInt8} (hd : d = 8 * (n - 1))
    (h : ∀ k < n, o (8 * k) = UInt8.ofNat (v / 256 ^ k)) :
    (List.range n).map (fun i => o (d - 8 * i)) = BigEndian.bytes n v := by
  rw [BigEndian.bytes_eq_map, hd]
  refine List.map_congr_left fun i hi => ?_
  have hlt : i < n := List.mem_range.mp hi
  rw [← Nat.mul_sub, h (n - 1 - i) (by omega)]

theorem octets64 (v : UInt64) :
    (List.range 8).map (fun i => (v >>> UInt64.ofNat (56 - 8 * i)).toUInt8) = BigEndian.bytes 8 v.toNat :=
  octets_of_shifts (o := fun j => (v >>> UInt64.ofNat j).toUInt8) rfl fun _ hk => octet64 v hk

theorem octets32 (v : UInt32) :
    (List.range 4).map (fun i => (v >>> UInt32.ofNat (24 - 8 * i)).toUInt8) = BigEndian.bytes 4 v.toNat :=
  octets_of_shifts (o := fun j => (v >>> UInt32.ofNat j).toUInt8) rfl fun _ hk => octet32 v hk

theorem bitString_digest (h : Vector UInt32 8) : Sha2.bitString (digest h).toList = (work h).digest := by
  have hword : ∀ w : UInt32, [(w >>> 24).toUInt8, (w >>> 16).toUInt8, (w >>> 8).toUInt8, w.toUInt8] =
      BigEndian.bytes 4 w.toNat := by
    intro w
    rw [← octets32]
    show _ = [(w >>> 24).toUInt8, (w >>> 16).toUInt8, (w >>> 8).toUInt8, (w >>> 0).toUInt8]
    rw [UInt32.shiftRight_zero]
  have hlist : h.toList = [h[0], h[1], h[2], h[3], h[4], h[5], h[6], h[7]] := by
    refine List.ext_getElem (by simp) fun i hi hi' => ?_
    have hlt : i < 8 := by simpa using hi
    interval_cases i <;> simp
  show Sha2.bitString (h.toList.flatMap _) = _
  unfold Sha2.bitString Sha2.Work.digest
  rw [hlist, List.flatMap_assoc]
  have hbits : ∀ w : UInt32, (([(w >>> 24).toUInt8, (w >>> 16).toUInt8, (w >>> 8).toUInt8, w.toUInt8]).flatMap
      fun o => Sha2.bits 8 o.toNat) = Sha2.bits 32 w.toNat := by
    intro w
    rw [hword]
    exact Sha2.bitString_bytes 4 w.toNat
  simp only [hbits]
  rfl

theorem finish_eq (h : Absorbed s m) (hm : m.length < 2 ^ 61) :
    Sha2.bitString s.finish.toList = Sha2.sha256 (Sha2.bitString m) := by
  have hlen := h.len
  set padLen := if s.bufLen < 56 then 56 - s.bufLen else 120 - s.bufLen with hpadLen
  have hpadded : (0x80 :: List.replicate 71 0 : List UInt8).take padLen =
      0x80 :: List.replicate (Sha2.zeroOctets m.length) 0 := by
    have hzeros : padLen = Sha2.zeroOctets m.length + 1 := by
      rw [hpadLen]
      unfold Sha2.zeroOctets
      split_ifs <;> omega
    have hle : Sha2.zeroOctets m.length ≤ 71 := by
      unfold Sha2.zeroOctets
      omega
    rw [hzeros, List.take_succ_cons, List.take_replicate, min_eq_left hle]
  have hpadding : m ++ (0x80 :: List.replicate 71 0 : List UInt8).take padLen ++ BigEndian.bytes 8 (8 * m.length) =
      m ++ Sha2.padding m.length := by
    rw [hpadded, List.append_assoc]
    rfl
  have hbits : s.bitLen.toNat = 8 * m.length := by
    rw [h.bits, UInt64.toNat_ofNat']
    exact Nat.mod_eq_of_lt (by omega)
  have hholds := holds_updateRaw _ (BigEndian.bytes 8 (8 * m.length)) _
    (holds_updateRaw s ((0x80 :: List.replicate 71 0 : List UInt8).take padLen) m h.toHolds)
  rw [hpadding] at hholds
  unfold finish
  dsimp only
  rw [bitLen_updateRaw, octets64, hbits, bitString_digest, Sha2.sha256_octets, hholds.h]

/-! ## Calls -/

inductive Call
  | update (data : List UInt8)
  | finish

/-- The hash behind a call, and the digests returned so far. -/
def call (r : Sha256 × List Digest) : Call → Sha256 × List Digest
  | .update data => (r.1.update data, r.2)
  | .finish => (r.1, r.2 ++ [r.1.finish])

def Call.data : Call → List UInt8
  | .update data => data
  | .finish => []

/-- The octets given before each `finish`, behind the octets `m`. -/
def finished (m : List UInt8) : List Call → List (List UInt8)
  | [] => []
  | .update data :: cs => finished (m ++ data) cs
  | .finish :: cs => m :: finished m cs

/-- **SHA-256.** Any updates and any calls of `finish` between them: each digest is that of the octets given before it,
while there are fewer than `2 ^ 61` of them. -/
theorem sha256_calls (cs : List Call) (hlen : (cs.flatMap Call.data).length < 2 ^ 61) :
    ((Runs.run call ({}, []) cs).2.map fun d => Sha2.bitString d.toList) =
      (finished [] cs).map fun m => Sha2.sha256 (Sha2.bitString m) := by
  have hall : ∀ (cs : List Call) (s : Sha256) (m : List UInt8) (ds : List Digest), Absorbed s m →
      (m ++ cs.flatMap Call.data).length < 2 ^ 61 →
      ((Runs.run call (s, ds) cs).2.map fun d => Sha2.bitString d.toList) =
        (ds.map fun d => Sha2.bitString d.toList) ++
          (finished m cs).map fun m => Sha2.sha256 (Sha2.bitString m) := by
    intro cs
    induction cs with
    | nil => exact fun s m ds _ _ => (List.append_nil _).symm
    | cons c cs ih =>
      intro s m ds h hlen
      cases c with
      | update data =>
        refine ih (s.update data) (m ++ data) ds (h.update data) ?_
        rwa [List.append_assoc]
      | finish =>
        have hm : m.length < 2 ^ 61 := by
          rw [List.length_append] at hlen
          omega
        refine (ih s m (ds ++ [s.finish]) h hlen).trans ?_
        rw [List.map_append, List.append_assoc]
        exact congrArg (_ ++ ·) (congrArg (· :: _) (finish_eq h hm))
  exact hall cs {} [] [] absorbed_init hlen

theorem sha256_calls_abc :
    ((Runs.run call ({}, []) [.update [0x61], .finish, .update [0x62, 0x63], .finish]).2.map fun d =>
      Sha2.bitString d.toList) =
        [Sha2.sha256 (Sha2.bitString [0x61]), Sha2.sha256 (Sha2.bitString [0x61, 0x62, 0x63])] :=
  sha256_calls _ (by decide)

/-- The digest of `abc`. -/
example : (({} : Sha256).update [0x61, 0x62, 0x63]).finish.toList =
    BigEndian.bytes 32 0xba7816bf8f01cfea414140de5dae2223b00361a396177a9cb410ff61f20015ad := by
  decide +kernel

end Sha256

end Carteret
