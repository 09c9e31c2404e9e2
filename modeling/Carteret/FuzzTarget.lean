import Carteret.DrawChecksum
import Carteret.ParserReads
import Carteret.ParserRoundTrip

/-!
# The fuzz target

`fuzz_frame` runs the parser on any bytes, with a handler that reads every field of every message and folds what it
reads into a checksum, so that no decode can be optimised away.

1. The handler and the target.
2. An octet of a message is in the field of one accessor (`fields_cover`, `fields_apart`), and to change it changes what
   that accessor reads (`mixed_once`).
3. `testOneInput_tells`: every octet behind a dispatched message's type counts.
-/

namespace Carteret

namespace DecodeEverything

/-- What the handler reads of a message, in its order. -/
def fields (t : MsgType) : List Read :=
  [.byte 0, .be16 1, .timestamp, .tracking] ++ (View.body t).map Accessor.read

/-- `mix`: an integer, or the length and the characters of a text. -/
def mixed : FieldValue → List UInt64
  | .int v => [UInt64.ofNat v]
  | .text s => UInt64.ofNat s.length :: s.map UInt8.toUInt64

def mix (acc v : UInt64) : UInt64 := acc * kFnvPrime ^^^ v

/-- What a call of the handler mixes. -/
def seen (buf : Bytes) : HandlerCall → List UInt64
  | .on t p => (fields t).flatMap fun r => mixed (r.value buf p)
  | .onUnknownType m => [UInt64.ofNat m.len]
  | .onLengthMismatch m => [UInt64.ofNat m.len]

def acc (buf : Bytes) (calls : List HandlerCall) : UInt64 := Runs.run mix 0 (calls.flatMap (seen buf))

end DecodeEverything

def Framing.code : Framing → UInt64
  | lengthPrefixed => 0
  | zeroPrefixed => 1

/-- The first byte of an input selects the form. -/
def fuzzFraming (sel : UInt8) : Framing := if sel &&& 1 ≠ 0 then .zeroPrefixed else .lengthPrefixed

/-- `LLVMFuzzerTestOneInput`, which leaves what it has seen in `sink`. -/
def testOneInput (sink : UInt64) : Bytes → Option UInt64
  | [] => some sink
  | sel :: buf =>
    let sink := sink ^^^ (detectFraming buf).code
    (Parser.runAs buf (fuzzFraming sel)).map fun r =>
      sink ^^^ DecodeEverything.acc buf r.2 ^^^ UInt64.ofNat r.1.dispatched ^^^ UInt64.ofNat r.1.unknown ^^^
        UInt64.ofNat r.1.mismatch ^^^ UInt64.ofNat r.1.bytes

open Mixing

/-! ## Octets -/

section

variable {q : ℕ} {b b' : Bytes} {i n : ℕ}

theorem AgreesBut.slice_eq (h : AgreesBut q b b') (hn : i + n ≤ b.length) (hq : q < i ∨ i + n ≤ q) :
    slice b' i n = slice b i n := by
  rw [slice_eq_map hn, slice_eq_map (by rw [h.length_eq]; exact hn)]
  refine List.map_congr_left fun j hj => h.getD_eq _ ?_
  have hj' := List.mem_range.mp hj
  omega

theorem slice_one (h : i < b.length) : slice b i 1 = [b.getD i 0] := slice_eq_map h

theorem AgreesBut.once_slice (h : AgreesBut q b b') (hne : b.getD q 0 ≠ b'.getD q 0) (hn : i + n ≤ b.length)
    (hq : i ≤ q ∧ q < i + n) : Once (slice b i n) (slice b' i n) := by
  obtain ⟨k, rfl⟩ := Nat.exists_eq_add_of_le hq.1
  obtain ⟨m, rfl⟩ : ∃ m, n = k + (1 + m) := ⟨n - k - 1, by omega⟩
  have hsplit : ∀ c : Bytes, slice c i (k + (1 + m)) = slice c i k ++ (slice c (i + k) 1 ++ slice c (i + k + 1) m) :=
    fun c => by rw [slice_append, slice_append]
  have hlen := h.length_eq
  rw [hsplit, hsplit, h.slice_eq (by omega) (.inr le_rfl), h.slice_eq (i := i + k + 1) (by omega) (.inl (by omega)),
    slice_one (by omega), slice_one (by omega)]
  exact (once_cons hne _).append_left _

/-- Blanks where there were blanks: the text ends where it did. -/
theorem alphaLen_but (h : AgreesBut q b b') (hblank : b.getD q 0 ≠ 32 ∧ b'.getD q 0 ≠ 32) (p : ℕ) : ∀ n,
    alphaLen b' p n = alphaLen b p n
  | 0 => rfl
  | n + 1 => by
    unfold alphaLen
    rw [alphaLen_but h hblank p n]
    by_cases hq : p + n = q
    · rw [hq, if_neg hblank.1, if_neg hblank.2]
    · rw [h.getD_eq _ hq]

end

namespace DecodeEverything

theorem mixes_mix : Mixes mix := mixes_mul_xor fnvPrime_mul_inverse

/-! ## Fields -/

/-- The field of an accessor holds offset `i`. -/
def Holds (r : Read) (i : ℕ) : Prop := r.field.off ≤ i ∧ i < r.field.off + r.field.len

instance (r : Read) (i : ℕ) : Decidable (Holds r i) := by unfold Holds; infer_instance

def isText : Read → Bool
  | .alpha _ _ => true
  | _ => false

theorem fields_cover (t : MsgType) : ∀ i < t.len, ∃ r ∈ fields t, Holds r i := by
  cases t <;> decide +kernel

/-- No two fields overlap. -/
theorem fields_apart (t : MsgType) : (fields t).Pairwise fun r s =>
    r.field.off + r.field.len ≤ s.field.off ∨ s.field.off + s.field.len ≤ r.field.off := by
  cases t <;> decide +kernel

theorem fields_touched (t : MsgType) : ∀ r ∈ fields t, r.touched.off + r.touched.len ≤ t.len ∧ r.field.len ≤ 8 := by
  cases t <;> decide +kernel

section

variable {q p : ℕ} {b b' : Bytes} {r : Read}

/-- An accessor reads the octets of its field only. -/
theorem value_but (h : AgreesBut q b b') (hr : p + (r.touched.off + r.touched.len) ≤ b.length)
    (hq : q < p + r.field.off ∨ p + (r.field.off + r.field.len) ≤ q) : r.value b' p = r.value b p := by
  have hfield := r.field_le_touched
  have hslice : slice b' (p + r.field.off) r.field.len = slice b (p + r.field.off) r.field.len :=
    h.slice_eq (by omega) (by omega)
  by_cases htext : ∃ off n, r = .alpha off n
  · obtain ⟨off, n, rfl⟩ := htext
    exact congrArg FieldValue.text (alpha_congr hslice)
  · have hint : ∀ off n, r ≠ .alpha off n := fun off n hc => htext ⟨off, n, hc⟩
    rw [Read.value_int (by rw [h.length_eq]; exact hr) hint, Read.value_int hr hint, hslice]

/-- **An octet of its field** changes what an accessor reads, and what is mixed of it in one place. -/
theorem mixed_once (h : AgreesBut q b b') (hne : b.getD q 0 ≠ b'.getD q 0)
    (hr : p + (r.touched.off + r.touched.len) ≤ b.length) (hlen : r.field.len ≤ 8)
    (hq : p + r.field.off ≤ q ∧ q < p + r.field.off + r.field.len)
    (hblank : isText r = true → b.getD q 0 ≠ 32 ∧ b'.getD q 0 ≠ 32) :
    Once (mixed (r.value b p)) (mixed (r.value b' p)) := by
  have hfield := r.field_le_touched
  by_cases htext : ∃ off n, r = .alpha off n
  · obtain ⟨off, n, rfl⟩ := htext
    obtain ⟨hle, hpad, -⟩ := alphaLen_spec b (p + off) n
    have hb := hblank rfl
    have hend := alphaLen_but h hb (p + off) n
    -- the octet is not a blank, so it is part of the text
    have hin : q < p + off + alphaLen b (p + off) n := by
      by_contra hge
      obtain ⟨j, rfl⟩ := Nat.exists_eq_add_of_le hq.1
      exact hb.1 (hpad j (by simp only [Read.field, Read.touched] at hq hge; omega)
        (by simp only [Read.field, Read.touched] at hq; omega))
    have hslice := h.once_slice hne (i := p + off) (n := alphaLen b (p + off) n)
      (by simp only [Read.touched] at hr; omega) ⟨hq.1, hin⟩
    have htexts : Once (alpha b (p + off) n) (alpha b' (p + off) n) := by
      unfold alpha
      rw [hend]
      exact hslice
    obtain ⟨pre, d, d', post, hpre, hpost, hdne⟩ := htexts
    have hsame : (alpha b' (p + off) n).length = (alpha b (p + off) n).length := by
      rw [hpre, hpost, List.length_append, List.length_append, List.length_cons, List.length_cons]
    show Once (UInt64.ofNat (alpha b (p + off) n).length :: (alpha b (p + off) n).map UInt8.toUInt64)
      (UInt64.ofNat (alpha b' (p + off) n).length :: (alpha b' (p + off) n).map UInt8.toUInt64)
    rw [hsame]
    refine Once.append_left ?_ [_]
    rw [hpre, hpost, List.map_append, List.map_append, List.map_cons, List.map_cons]
    exact (once_cons (fun hc => hdne (UInt8.toUInt64_inj.mp hc)) _).append_left _
  · have hint : ∀ off n, r ≠ .alpha off n := fun off n hc => htext ⟨off, n, hc⟩
    have hslices := h.once_slice hne (i := p + r.field.off) (n := r.field.len) (by omega) hq
    have hslice := length_slice (b := b) (i := p + r.field.off) (n := r.field.len) (by omega)
    have hslice' := length_slice (b := b') (i := p + r.field.off) (n := r.field.len) (by rw [h.length_eq]; omega)
    have hbound : ∀ s : Bytes, s.length = r.field.len → BigEndian.value s < 2 ^ 64 := fun s hs =>
      (BigEndian.value_lt s).trans_le (by
        rw [hs]
        calc 256 ^ r.field.len ≤ 256 ^ 8 := Nat.pow_le_pow_right (by norm_num) hlen
          _ = 2 ^ 64 := by norm_num)
    rw [Read.value_int hr hint, Read.value_int (by rw [h.length_eq]; exact hr) hint]
    refine once_cons (fun hc => hslices.ne ?_) []
    have hval := congrArg UInt64.toNat hc
    rw [UInt64.toNat_ofNat', UInt64.toNat_ofNat', Nat.mod_eq_of_lt (hbound _ hslice),
      Nat.mod_eq_of_lt (hbound _ hslice')] at hval
    rw [← BigEndian.bytes_value (slice b (p + r.field.off) r.field.len),
      ← BigEndian.bytes_value (slice b' (p + r.field.off) r.field.len), hslice, hslice', hval]

/-- **One message**: an octet behind its type is read, by one accessor. -/
theorem seen_once (h : AgreesBut q b b') (hne : b.getD q 0 ≠ b'.getD q 0) {t : MsgType} (hp : p + t.len ≤ b.length)
    (hq : p ≤ q ∧ q < p + t.len)
    (hblank : ∀ r ∈ fields t, isText r = true → Holds r (q - p) → b.getD q 0 ≠ 32 ∧ b'.getD q 0 ≠ 32) :
    Once (seen b (.on t p)) (seen b' (.on t p)) := by
  obtain ⟨r, hr, hholds⟩ := fields_cover t (q - p) (by omega)
  obtain ⟨pre, post, hsplit⟩ := List.append_of_mem hr
  have hapart := fields_apart t
  have htouched := fields_touched t
  rw [hsplit] at hapart
  obtain ⟨-, hpost, hpre⟩ := List.pairwise_append.mp hapart
  have hpost' := (List.pairwise_cons.mp hpost).1
  have hin : p + r.field.off ≤ q ∧ q < p + r.field.off + r.field.len := by
    obtain ⟨hlo, hhi⟩ := hholds
    omega
  have hother : ∀ s ∈ fields t, s.field.off + s.field.len ≤ r.field.off ∨ r.field.off + r.field.len ≤ s.field.off →
      mixed (s.value b' p) = mixed (s.value b p) := fun s hs hoff => by
    have hend := (htouched s hs).1
    rw [value_but h (by omega) (by omega)]
  obtain ⟨hend, hlen⟩ := htouched r hr
  have honce := mixed_once h hne (by omega) hlen hin fun htext => hblank r hr htext hholds
  show Once ((fields t).flatMap _) ((fields t).flatMap _)
  rw [hsplit] at hother ⊢
  apply once_flatMap honce <;> intro s hs
  · exact hother s (List.mem_append_left _ hs) (hpre s hs r List.mem_cons_self)
  · exact hother s (List.mem_append_right _ (List.mem_cons_of_mem _ hs)) ((hpost' s hs).symm)

end

/-! ## The calls -/

section

variable {q : ℕ} {buf buf' : Bytes} {framing : Framing} {f : Frame} {t : MsgType}

/-- The octet lies in no frame of `fs`. -/
theorem seen_but (h : AgreesBut q buf buf') {fs : List Frame} (hfs : ∀ g ∈ fs, g.stop ≤ buf.length)
    (hq : ∀ g ∈ fs, q < g.pos + 2 ∨ g.stop ≤ q) (m : MsgView) :
    ∀ c ∈ Parser.callsFrom buf m fs, seen buf' c = seen buf c := by
  intro c hc
  cases c with
  | onUnknownType m => rfl
  | onLengthMismatch m => rfl
  | on t p =>
    have hmem : (t, p) ∈ (Parser.callsFrom buf m fs).filterMap HandlerCall.message :=
      List.mem_filterMap.mpr ⟨_, hc, rfl⟩
    rw [Parser.callsFrom_message] at hmem
    obtain ⟨g, hg, hmsg⟩ := List.mem_filterMap.mp hmem
    obtain ⟨rfl, hlen, -⟩ := Frame.message_spec hmsg
    have hstop := hfs g hg
    have haway := hq g hg
    have htouched := fields_touched t
    unfold Frame.stop at hstop haway
    dsimp only at hlen
    show (fields t).flatMap _ = (fields t).flatMap _
    refine List.flatMap_congr fun r hr => ?_
    have hr' := (htouched r hr).1
    have hfield := r.field_le_touched
    rw [value_but h (by omega) (by omega)]

/-- Of the calls of all frames, one mixes something else. -/
theorem once_callsFrom (h : AgreesBut q buf buf') (hne : buf.getD q 0 ≠ buf'.getD q 0)
    (hm : f.message buf = some (t, f.pos + 2)) (hbody : f.Body q)
    (hblank : ∀ r ∈ fields t, isText r = true → Holds r (q - (f.pos + 2)) → buf.getD q 0 ≠ 32 ∧ buf'.getD q 0 ≠ 32) :
    ∀ (fs : List Frame) (m : MsgView), f ∈ fs → (∀ g ∈ fs, g.stop ≤ buf.length) →
      fs.Pairwise (fun f g => f.stop ≤ g.pos) →
      Once ((Parser.callsFrom buf m fs).flatMap (seen buf)) ((Parser.callsFrom buf m fs).flatMap (seen buf'))
  | g :: fs, m, hf, hstop, hpair => by
    obtain ⟨hhead, htail⟩ := List.pairwise_cons.mp hpair
    have hcons : Parser.callsFrom buf m (g :: fs) =
        Parser.callsFrom buf m [g] ++ Parser.callsFrom buf (if g.verdict buf = .ok then g.view else m) fs := by
      rw [Parser.callsFrom, Parser.callsFrom, Parser.callsFrom, List.append_nil]
    have hlt := hbody.1
    have hstopf := hbody.2
    rw [hcons, List.flatMap_append, List.flatMap_append]
    rcases List.mem_cons.mp hf with rfl | hf
    · have hok := (Frame.message_spec hm).2.2
      have hlen : t.len = f.len := (Frame.message_spec hm).2.1
      have hcall : Parser.callsFrom buf m [f] = [.on t (f.pos + 2)] := by
        rw [Parser.callsFrom, Parser.callsFrom, if_pos hok, hok, List.append_nil]
        show Parser.dispatch buf (f.pos + 2) = _
        unfold Parser.dispatch
        rw [Frame.message_type hm]
      have hend := hstop f List.mem_cons_self
      unfold Frame.stop at hend hstopf
      have hrest := seen_but h (fun g hg => hstop g (List.mem_cons_of_mem _ hg))
        (fun g hg => .inl ((hbody.2.trans_le (hhead g hg)).trans_le (Nat.le_add_right _ _)))
        (if f.verdict buf = .ok then f.view else m)
      rw [List.flatMap_congr hrest, hcall]
      refine Once.append_right ?_ _
      rw [List.flatMap_singleton, List.flatMap_singleton]
      exact seen_once h hne (by omega) ⟨by omega, by omega⟩ hblank
    · have hbefore := hhead f hf
      have hfirst : ∀ c ∈ Parser.callsFrom buf m [g], seen buf' c = seen buf c := by
        apply seen_but h
        · intro g' hg'
          rw [List.mem_singleton.mp hg']
          exact hstop g List.mem_cons_self
        · intro g' hg'
          rw [List.mem_singleton.mp hg']
          exact .inr (by omega)
      rw [List.flatMap_congr hfirst]
      exact (once_callsFrom h hne hm hbody hblank fs _ hf (fun g' hg' => hstop g' (List.mem_cons_of_mem _ hg'))
        htail).append_left _

/-- The checksum of a buffer in which an octet of a message is another. -/
theorem acc_ne (h : AgreesBut q buf buf') (hne : buf.getD q 0 ≠ buf'.getD q 0) (hf : f ∈ frames framing buf)
    (hm : f.message buf = some (t, f.pos + 2)) (hbody : f.Body q)
    (hblank : ∀ r ∈ fields t, isText r = true → Holds r (q - (f.pos + 2)) → buf.getD q 0 ≠ 32 ∧ buf'.getD q 0 ≠ 32) :
    acc buf (Parser.callsFrom buf {} (frames framing buf)) ≠ acc buf' (Parser.callsFrom buf {} (frames framing buf)) :=
  (once_callsFrom h hne hm hbody hblank _ {} hf (fun _ hg => (frameAt_spec (mem_framesFrom hg).1).2.2)
    framesFrom_pairwise).run_ne mixes_mix 0

end

end DecodeEverything

open DecodeEverything (fields isText Holds)

/-- **No octet of a message is lost on the target**: when one behind the type of a dispatched message is another, the
detected form, the status and the calls of the parser are as before, and what the target leaves is another, except that
a text may end elsewhere. -/
theorem testOneInput_tells (sink : UInt64) (sel : UInt8) (buf : Bytes) (f : Frame) (t : MsgType) (i : ℕ) (x : UInt8)
    (hf : f ∈ frames (fuzzFraming sel) buf) (hm : f.message buf = some (t, f.pos + 2)) (hi : 1 ≤ i) (hlen : i < f.len)
    (hx : x ≠ buf.getD (f.pos + 2 + i) 0)
    (hblank : ∀ r ∈ fields t, isText r = true → Holds r i → buf.getD (f.pos + 2 + i) 0 ≠ 32 ∧ x ≠ 32) :
    detectFraming (buf.set (f.pos + 2 + i) x) = detectFraming buf ∧
    Parser.runAs (buf.set (f.pos + 2 + i) x) (fuzzFraming sel) = Parser.runAs buf (fuzzFraming sel) ∧
    ∃ s s', testOneInput sink (sel :: buf) = some s ∧
      testOneInput sink (sel :: buf.set (f.pos + 2 + i) x) = some s' ∧ s ≠ s' := by
  have hagree := agreesBut_set buf (f.pos + 2 + i) x
  have hstop := (frameAt_spec (mem_framesFrom hf).1).2.2
  have hbody : f.Body (f.pos + 2 + i) := by
    unfold Frame.Body Frame.stop
    omega
  have hin : f.pos + 2 + i < buf.length := hbody.2.trans_le hstop
  have hnew : (buf.set (f.pos + 2 + i) x).getD (f.pos + 2 + i) 0 = x := by
    rw [List.getD_eq_getElem?_getD, List.getElem?_set_self hin, Option.getD_some]
  have hform := detectFraming_but hagree hf hbody
  have hsame := Parser.runAs_but hagree hf hbody
  refine ⟨hform, hsame, ?_⟩
  obtain ⟨stop, rd', m', m'', -, hrun⟩ := Parser.runAs_frames buf (fuzzFraming sel)
  have hrun' := hsame.trans hrun
  have hacc := DecodeEverything.acc_ne hagree (by rw [hnew]; exact hx.symm) hf hm hbody
    (by rw [hnew, Nat.add_sub_cancel_left]; exact hblank)
  unfold testOneInput
  dsimp only
  rw [hrun, hrun', hform]
  refine ⟨_, _, rfl, rfl, fun hc => hacc ?_⟩
  simp only [UInt64.xor_left_inj, UInt64.xor_right_inj] at hc
  exact hc

/-- An event, the type of which is followed by its locate. -/
theorem testOneInput_tells_event :
    Parser.runAs ((0 :: 12 :: Parser.someEvent).set (0 + 2 + 2) 7) (fuzzFraming 0) =
        Parser.runAs (0 :: 12 :: Parser.someEvent) (fuzzFraming 0) ∧
      ∃ s s', testOneInput 0 (0 :: 0 :: 12 :: Parser.someEvent) = some s ∧
        testOneInput 0 (0 :: (0 :: 12 :: Parser.someEvent).set (0 + 2 + 2) 7) = some s' ∧ s ≠ s' :=
  (testOneInput_tells 0 0 (0 :: 12 :: Parser.someEvent) ⟨0, 12⟩ .systemEvent 2 7 (by decide +kernel)
    (by decide +kernel) (by decide) (by decide) (by decide +kernel) (by decide +kernel)).2

end Carteret
