import Carteret.Messages

/-!
# The message codec

1. Integer accessors read big-endian values of slices; the two halves of the header load are the fields
   beside each other.
2. `alpha` strips exactly the padding that `fillAlpha` adds.
3. `codec_roundTrip`: decoding and encoding a message are inverse to each other.
-/

namespace Carteret

/-! ## Slices -/

theorem slice_append (b : Bytes) (i m n : ℕ) : slice b i m ++ slice b (i + m) n = slice b i (m + n) := by
  unfold slice
  rw [List.take_add, List.drop_drop]

theorem length_slice {b : Bytes} {i n : ℕ} (h : i + n ≤ b.length) : (slice b i n).length = n := by
  unfold slice
  rw [List.length_take, List.length_drop]
  omega

theorem getD_slice (b : Bytes) (i n j : ℕ) (d : UInt8) :
    (slice b i n).getD j d = if j < n then b.getD (i + j) d else d := by
  unfold slice
  rw [List.getD_eq_getElem?_getD, List.getElem?_take]
  split
  · rw [List.getElem?_drop, List.getD_eq_getElem?_getD]
  · rfl

theorem slice_eq_map {b : Bytes} {i n : ℕ} (h : i + n ≤ b.length) :
    slice b i n = (List.range n).map fun j => b.getD (i + j) 0 := by
  refine List.ext_getElem (by rw [length_slice h, List.length_map, List.length_range]) fun j hj _ => ?_
  have hget := getD_slice b i n j 0
  rw [length_slice h] at hj
  rw [if_pos hj] at hget
  rw [List.getElem_map, List.getElem_range, ← hget, List.getD_eq_getElem]

/-- Slices of tiled fields make up the whole. -/
theorem flatten_slices (b : Bytes) : ∀ {fs : List Field} {start stop : ℕ}, tiles fs start stop = true →
    (fs.map fun f => slice b f.off f.len).flatten = slice b start (stop - start) ∧ start ≤ stop
  | [], start, stop, h => by
    obtain rfl : start = stop := by simpa [tiles] using h
    exact ⟨by simp [slice], le_rfl⟩
  | f :: fs, start, stop, h => by
    obtain ⟨hoff, hrest⟩ := (Bool.and_eq_true _ _).mp h
    obtain rfl : f.off = start := by simpa using hoff
    obtain ⟨hflat, hle⟩ := flatten_slices b hrest
    refine ⟨?_, by omega⟩
    rw [List.map_cons, List.flatten_cons, hflat, slice_append]
    congr 1
    omega

/-- Parts as long as tiled fields are found at the fields. -/
theorem forall₂_slice : ∀ {fs : List Field} {parts : List Bytes} {start stop : ℕ} (pre : Bytes),
    tiles fs start stop = true → pre.length = start →
    List.Forall₂ (fun f part => part.length = f.len) fs parts →
      List.Forall₂ (fun f part => slice (pre ++ parts.flatten) f.off f.len = part) fs parts ∧
        (pre ++ parts.flatten).length = stop
  | [], _, start, stop, pre, h, hpre, .nil => by
    obtain rfl : start = stop := by simpa [tiles] using h
    exact ⟨.nil, by simpa using hpre⟩
  | f :: fs, part :: parts, start, stop, pre, h, hpre, .cons hlen hparts => by
    obtain ⟨hoff, hrest⟩ := (Bool.and_eq_true _ _).mp h
    obtain rfl : f.off = start := by simpa using hoff
    obtain ⟨hall, hstop⟩ := forall₂_slice (pre ++ part) hrest (by rw [List.length_append, hpre, hlen]) hparts
    rw [List.append_assoc] at hall hstop
    rw [List.flatten_cons]
    refine ⟨.cons ?_ hall, hstop⟩
    unfold slice
    rw [← hpre, List.drop_left, ← hlen, List.take_left]

/-! ## Integers -/

theorem value_slice {b : Bytes} {p : ℕ} : ∀ {n : ℕ}, p + n ≤ b.length →
    (List.range n).foldl (fun v i => v * 256 + byteAt b (p + i)) 0 = BigEndian.value (slice b p n)
  | 0, _ => by simp [slice, BigEndian.value]
  | n + 1, h => by
    have hsnoc : slice b p (n + 1) = slice b p n ++ [b.getD (p + n) 0] := by
      rw [slice_eq_map h, slice_eq_map (by omega), List.range_succ, List.map_append]
      rfl
    rw [List.range_succ, List.foldl_append, value_slice (by omega), hsnoc, BigEndian.value_snoc]
    rfl

theorem byteAt_eq {b : Bytes} {p : ℕ} (h : p + 1 ≤ b.length) :
    byteAt b p = BigEndian.value (slice b p 1) := by
  rw [← value_slice h]
  simp

theorem be16_eq {b : Bytes} {p : ℕ} (h : p + 2 ≤ b.length) : be16 b p = BigEndian.value (slice b p 2) := by
  rw [← value_slice h]
  simp [be16, List.range_succ]

theorem be32_eq {b : Bytes} {p : ℕ} (h : p + 4 ≤ b.length) : be32 b p = BigEndian.value (slice b p 4) :=
  value_slice h

theorem be64_eq {b : Bytes} {p : ℕ} (h : p + 8 ≤ b.length) : be64 b p = BigEndian.value (slice b p 8) :=
  value_slice h

/-- The header load is the tracking number above the timestamp. -/
theorem headerTail_eq {b : Bytes} {p : ℕ} (h : p + 11 ≤ b.length) :
    headerTail b p =
      BigEndian.value (slice b (p + 3) 2) * 256 ^ 6 + BigEndian.value (slice b (p + 5) 6) := by
  have hlen : (slice b (p + 5) 6).length = 6 := length_slice (by omega)
  unfold headerTail
  rw [be64_eq (by omega), ← slice_append b (p + 3) 2 6, BigEndian.value_append, hlen]

theorem timestamp_eq {b : Bytes} {p : ℕ} (h : p + 11 ≤ b.length) :
    timestamp b p = BigEndian.value (slice b (p + 5) 6) := by
  have hlt := BigEndian.value_lt (slice b (p + 5) 6)
  rw [length_slice (by omega)] at hlt
  have hmask : (0x0000FFFFFFFFFFFF : ℕ) = 2 ^ 48 - 1 := by norm_num
  unfold timestamp
  rw [hmask, Nat.and_two_pow_sub_one_eq_mod, headerTail_eq h]
  omega

theorem tracking_eq {b : Bytes} {p : ℕ} (h : p + 11 ≤ b.length) :
    tracking b p = BigEndian.value (slice b (p + 3) 2) := by
  have hlt := BigEndian.value_lt (slice b (p + 5) 6)
  rw [length_slice (by omega)] at hlt
  unfold tracking
  rw [Nat.shiftRight_eq_div_pow, headerTail_eq h]
  omega

/-! ## Text -/

/-- The loop of `alpha` stops behind the last octet that is not a space. -/
theorem alphaLen_spec (b : Bytes) (p : ℕ) : ∀ n : ℕ, alphaLen b p n ≤ n ∧
    (∀ i, alphaLen b p n ≤ i → i < n → b.getD (p + i) 0 = 32) ∧
    (alphaLen b p n ≠ 0 → b.getD (p + (alphaLen b p n - 1)) 0 ≠ 32)
  | 0 => ⟨le_rfl, fun i _ hi => absurd hi (Nat.not_lt_zero i), fun h => absurd rfl h⟩
  | n + 1 => by
    obtain ⟨hle, hpad, hlast⟩ := alphaLen_spec b p n
    unfold alphaLen
    by_cases h : b.getD (p + n) 0 = 32
    · rw [if_pos h]
      refine ⟨by omega, fun i hi hin => ?_, hlast⟩
      by_cases hin' : i = n
      · rw [hin', h]
      · exact hpad i hi (by omega)
    · rw [if_neg h]
      exact ⟨le_rfl, fun i hi hin => by omega, fun _ => h⟩

theorem fillAlpha_alpha {b : Bytes} {p n : ℕ} (h : p + n ≤ b.length) :
    fillAlpha n (alpha b p n) = slice b p n := by
  obtain ⟨-, hpad, -⟩ := alphaLen_spec b p n
  rw [slice_eq_map h]
  unfold fillAlpha
  refine List.map_congr_left fun i hi => ?_
  have hin := List.mem_range.mp hi
  unfold alpha
  rw [getD_slice]
  split
  · rw [List.getD_eq_getElem _ _ (by omega), List.getD_eq_getElem _ _ (by omega)]
  · rename_i hge
    exact (hpad i (not_lt.mp hge) hin).symm

theorem alpha_of_slice {b s : Bytes} {p n : ℕ} (h : p + n ≤ b.length) (hs : slice b p n = fillAlpha n s)
    (hlen : s.length ≤ n) (hlast : s.getLast? ≠ some 32) : alpha b p n = s := by
  have hchar : ∀ i < n, b.getD (p + i) 0 = s.getD i 32 := by
    intro i hi
    have hget := congrArg (fun l : Bytes => l.getD i 0) hs
    rw [getD_slice, if_pos hi] at hget
    rw [hget]
    simp [fillAlpha, hi]
  obtain ⟨hle, hpad, hend⟩ := alphaLen_spec b p n
  -- the last character of the text is where the loop stops
  have hk : alphaLen b p n = s.length := by
    rcases Nat.lt_trichotomy (alphaLen b p n) s.length with hlt | heq | hgt
    · have hc := hpad (s.length - 1) (by omega) (by omega)
      rw [hchar _ (by omega), List.getD_eq_getElem _ _ (by omega)] at hc
      refine absurd ?_ hlast
      rw [List.getLast?_eq_getElem?, List.getElem?_eq_getElem (by omega), hc]
    · exact heq
    · have hc := hend (by omega)
      rw [hchar _ (by omega), List.getD_eq_default _ _ (by omega)] at hc
      exact absurd rfl hc
  unfold alpha
  rw [hk, slice_eq_map (by omega)]
  refine List.ext_getElem (by simp) fun i hi hi' => ?_
  rw [List.getElem_map, List.getElem_range, hchar i (by omega), List.getD_eq_getElem]

/-! ## Accessors -/

/-- An integer accessor reads the big-endian value of its field. -/
theorem Read.value_int {b : Bytes} {p : ℕ} {r : Read} (h : p + (r.touched.off + r.touched.len) ≤ b.length)
    (hr : ∀ off n, r ≠ .alpha off n) :
    r.value b p = .int (BigEndian.value (slice b (p + r.field.off) r.field.len)) := by
  cases r with
  | byte off => exact congrArg FieldValue.int (byteAt_eq (by rw [Nat.add_assoc]; exact h))
  | be16 off => exact congrArg FieldValue.int (be16_eq (by rw [Nat.add_assoc]; exact h))
  | be32 off => exact congrArg FieldValue.int (be32_eq (by rw [Nat.add_assoc]; exact h))
  | be64 off => exact congrArg FieldValue.int (be64_eq (by rw [Nat.add_assoc]; exact h))
  | alpha off n => exact absurd rfl (hr off n)
  | tracking => exact congrArg FieldValue.int (tracking_eq h)
  | timestamp => exact congrArg FieldValue.int (timestamp_eq h)

/-- What is read from memory covers the field. -/
theorem Read.field_le_touched (r : Read) :
    r.touched.off ≤ r.field.off ∧ r.field.off + r.field.len ≤ r.touched.off + r.touched.len := by
  cases r <;> simp [Read.field, Read.touched]

/-- Encoding what was read gives the field's octets back. -/
theorem Read.encode_value {b : Bytes} {p : ℕ} {r : Read}
    (h : p + (r.touched.off + r.touched.len) ≤ b.length) :
    r.encode (r.value b p) = slice b (p + r.field.off) r.field.len := by
  have hfield := r.field_le_touched
  by_cases hr : ∃ off n, r = .alpha off n
  · obtain ⟨off, n, rfl⟩ := hr
    exact fillAlpha_alpha (by simpa [Nat.add_assoc, Read.touched] using h)
  · have hlen : (slice b (p + r.field.off) r.field.len).length = r.field.len :=
      length_slice (by omega)
    rw [Read.value_int h fun off n hc => hr ⟨off, n, hc⟩]
    change BigEndian.bytes r.field.len _ = _
    conv_rhs => rw [← BigEndian.bytes_value (slice b (p + r.field.off) r.field.len), hlen]

theorem Read.length_encode {r : Read} {v : FieldValue} : (r.encode v).length = r.field.len := by
  cases v with
  | int v => exact BigEndian.length_bytes _ _
  | text s => exact fillAlpha_length _ _

/-- Reading a field that holds an encoded value gives the value back. -/
theorem Read.value_of_slice {b : Bytes} {r : Read} {v : FieldValue} (hfits : r.Fits v)
    (h : r.touched.off + r.touched.len ≤ b.length) (hs : slice b r.field.off r.field.len = r.encode v) :
    r.value b 0 = v := by
  cases v with
  | int v =>
    rw [Read.value_int (by omega) hfits.1, Nat.zero_add, hs]
    exact congrArg FieldValue.int (BigEndian.value_bytes _ _ hfits.2)
  | text s =>
    obtain ⟨⟨off, n, rfl⟩, hlen, hlast⟩ := hfits
    refine congrArg FieldValue.text ?_
    rw [Nat.zero_add]
    exact alpha_of_slice h hs hlen hlast

/-! ## The round trips -/

theorem tiles_append {gs : List Field} {mid stop : ℕ} (hg : tiles gs mid stop = true) :
    ∀ {fs : List Field} {start : ℕ}, tiles fs start mid = true → tiles (fs ++ gs) start stop = true
  | [], start, hf => by
    obtain rfl : start = mid := by simpa [tiles] using hf
    exact hg
  | f :: fs, start, hf => by
    obtain ⟨hoff, hrest⟩ := (Bool.and_eq_true _ _).mp hf
    exact (Bool.and_eq_true _ _).mpr ⟨hoff, tiles_append hg hrest⟩

theorem fields_tile (t : MsgType) : tiles ((View.accessors t).map Read.field) 0 t.len = true := by
  rw [accessors_field]
  exact tiles_append (Layout.body_tiles t) Layout.kHeader_tiles

theorem encodeMessage_decodeMessage (t : MsgType) {b : Bytes} (h : b.length = t.len) :
    encodeMessage t (decodeMessage t b 0) = b := by
  have hparts : (View.accessors t).zipWith Read.encode (decodeMessage t b 0) =
      ((View.accessors t).map Read.field).map fun f => slice b f.off f.len := by
    unfold decodeMessage
    rw [List.zipWith_map_right, List.zipWith_self, List.map_map]
    refine List.map_congr_left fun r hr => ?_
    rw [Read.encode_value (by rw [h, Nat.zero_add]; exact accessors_touched t r hr), Nat.zero_add]
    rfl
  unfold encodeMessage
  rw [hparts, (flatten_slices b (fields_tile t)).1]
  unfold slice
  rw [List.drop_zero, Nat.sub_zero, ← h, List.take_length]

/-- The encoded fields are found at the fields of the layout. -/
theorem encodeMessage_slice (t : MsgType) {vs : List FieldValue} (h : vs.length = (View.accessors t).length) :
    List.Forall₂ (fun r v => slice (encodeMessage t vs) r.field.off r.field.len = Read.encode r v)
        (View.accessors t) vs ∧
      (encodeMessage t vs).length = t.len := by
  have hlens : List.Forall₂ (fun f (part : Bytes) => part.length = f.len)
      ((View.accessors t).map Read.field) ((View.accessors t).zipWith Read.encode vs) := by
    rw [List.forall₂_map_left_iff]
    refine List.forall₂_iff_get.mpr ⟨by simp [h], fun i h₁ h₂ => ?_⟩
    simp [Read.length_encode]
  obtain ⟨hslices, hlen⟩ := forall₂_slice [] (fields_tile t) rfl hlens
  rw [List.nil_append, List.forall₂_map_left_iff] at hslices
  refine ⟨List.forall₂_iff_get.mpr ⟨h.symm, fun i h₁ h₂ => ?_⟩, hlen⟩
  have hslice := (List.forall₂_iff_get.mp hslices).2 i h₁ (by simp; omega)
  rw [List.get_eq_getElem, List.get_eq_getElem, List.getElem_zipWith] at hslice
  exact hslice

theorem decodeMessage_encodeMessage (t : MsgType) {vs : List FieldValue}
    (h : List.Forall₂ Read.Fits (View.accessors t) vs) :
    decodeMessage t (encodeMessage t vs) 0 = vs := by
  obtain ⟨hslices, hlen⟩ := encodeMessage_slice t h.length_eq.symm
  refine List.ext_getElem (by simp [decodeMessage, h.length_eq]) fun i hi hi' => ?_
  unfold decodeMessage at hi ⊢
  rw [List.length_map] at hi
  rw [List.getElem_map]
  refine Read.value_of_slice ((List.forall₂_iff_get.mp h).2 i hi hi') ?_ ?_
  · rw [hlen]
    exact accessors_touched t _ (List.getElem_mem hi)
  · exact (List.forall₂_iff_get.mp hslices).2 i hi hi'

/-- **The codec.** For every message type, decoding the fields of a message and writing them in layout
order gives the message back, and decoding what was written gives the fields back. -/
theorem codec_roundTrip (t : MsgType) :
    (∀ b : Bytes, b.length = t.len → encodeMessage t (decodeMessage t b 0) = b) ∧
    ∀ vs : List FieldValue, List.Forall₂ Read.Fits (View.accessors t) vs →
      (encodeMessage t vs).length = t.len ∧ decodeMessage t (encodeMessage t vs) 0 = vs :=
  ⟨fun _ h => encodeMessage_decodeMessage t h, fun _ h =>
    ⟨(encodeMessage_slice t h.length_eq.symm).2, decodeMessage_encodeMessage t h⟩⟩

/-- A trading action with the largest tracking number and timestamp. -/
def someAction : List FieldValue :=
  [.int 72, .int 7, .int 65535, .int (2 ^ 48 - 1), .text [65, 32, 66], .int 84, .int 32, .text []]

theorem codec_roundTrip_someAction :
    (encodeMessage .stockTradingAction
        (decodeMessage .stockTradingAction (List.replicate 25 32) 0) = List.replicate 25 32) ∧
      (encodeMessage .stockTradingAction someAction).length = MsgType.stockTradingAction.len ∧
      decodeMessage .stockTradingAction (encodeMessage .stockTradingAction someAction) 0 = someAction := by
  refine ⟨(codec_roundTrip .stockTradingAction).1 _ (by decide),
    (codec_roundTrip .stockTradingAction).2 someAction ?_⟩
  have hint : ∀ (r : Read) (v : ℕ), (∀ off n, r ≠ .alpha off n) → v < 256 ^ r.field.len →
      r.Fits (.int v) := fun r v h h' => ⟨h, h'⟩
  have htext : ∀ (off n : ℕ) (s : Bytes), s.length ≤ n → s.getLast? ≠ some 32 →
      (Read.alpha off n).Fits (.text s) := fun off n s h h' => ⟨⟨off, n, rfl⟩, h, h'⟩
  refine .cons (hint _ _ (by simp) (by decide)) (.cons (hint _ _ (by simp) (by decide))
    (.cons (hint _ _ (by simp) (by decide)) (.cons (hint _ _ (by simp) (by decide))
    (.cons (htext _ _ _ (by decide) (by decide)) (.cons (hint _ _ (by simp) (by decide))
    (.cons (hint _ _ (by simp) (by decide)) (.cons (htext _ _ _ (by decide) (by decide)) .nil)))))))

end Carteret
