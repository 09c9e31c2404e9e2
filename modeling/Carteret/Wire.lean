import Mathlib

/-!
# BinaryFILE framing

Bytes are lists of octets and a pointer into a buffer is an offset. `FrameReader.next` advances by one
frame and writes the accepted message through its out parameter; `FrameReader.drain` is the sequence of
results a caller's `for (;;)` loop over `next` sees, up to and including the one that ends it.
-/

namespace Carteret

/-- A byte string in memory. -/
abbrev Bytes := List UInt8

/-- A `std::span` over bytes; no object exceeds `PTRDIFF_MAX` bytes. -/
structure Span where
  bytes : Bytes
  size_lt : bytes.length < 2 ^ 63

/-- Octet `i` of a buffer. -/
def byteAt (b : Bytes) (i : ℕ) : ℕ := (b.getD i 0).toNat

def be16 (b : Bytes) (p : ℕ) : ℕ := byteAt b p * 256 + byteAt b (p + 1)

/-- Eight octets, most significant first. -/
def be64 (b : Bytes) (p : ℕ) : ℕ := (List.range 8).foldl (fun v i => v * 256 + byteAt b (p + i)) 0

/-- `fill(' ')`, then the first `n` characters of `s`. -/
def fillAlpha (n : ℕ) (s : Bytes) : Bytes := (List.range n).map fun i => s.getD i 32

theorem byteAt_lt (b : Bytes) (i : ℕ) : byteAt b i < 256 := UInt8.toNat_lt _

theorem be16_lt (b : Bytes) (p : ℕ) : be16 b p < 2 ^ 16 := by
  have h0 := byteAt_lt b p
  have h1 := byteAt_lt b (p + 1)
  unfold be16
  omega

theorem be64_lt (b : Bytes) (p : ℕ) : be64 b p < 2 ^ 64 := by
  have h (i : ℕ) := byteAt_lt b (p + i)
  have h0 := h 0; have h1 := h 1; have h2 := h 2; have h3 := h 3
  have h4 := h 4; have h5 := h 5; have h6 := h 6; have h7 := h 7
  simp only [be64, List.range, List.range.loop, List.foldl_cons, List.foldl_nil]
  omega

@[simp] theorem fillAlpha_length (n : ℕ) (s : Bytes) : (fillAlpha n s).length = n := by
  simp [fillAlpha]

/-! ## Message lengths -/

/-- On-the-wire length of each message type, without the two-byte prefix. -/
def msgLenTable : List (Char × ℕ) :=
  [('S', 12), ('R', 39), ('H', 25), ('Y', 20), ('L', 26), ('V', 35), ('W', 12), ('K', 28),
   ('J', 35), ('h', 21), ('A', 36), ('F', 40), ('E', 31), ('C', 36), ('X', 23), ('D', 19),
   ('U', 35), ('P', 44), ('Q', 40), ('B', 19), ('I', 50), ('N', 20), ('O', 48)]

/-- Zero marks a byte that is not an ITCH 5.0 message type. -/
def kMsgLen (t : UInt8) : ℕ :=
  ((msgLenTable.find? fun e => e.1.toNat == t.toNat).map Prod.snd).getD 0

theorem kMsgLen_le (t : UInt8) : kMsgLen t ≤ 50 := by
  unfold kMsgLen
  cases h : msgLenTable.find? fun e => e.1.toNat == t.toNat with
  | none => simp
  | some e =>
    have hall : ∀ e ∈ msgLenTable, e.2 ≤ 50 := by decide
    exact hall e (List.mem_of_find?_eq_some h)

/-! ## The frame reader -/

inductive Framing
  | lengthPrefixed
  | zeroPrefixed
  deriving DecidableEq

inductive FrameStatus
  | ok
  | zeroLengthPrefix
  | exhausted
  | truncated
  | lengthMismatch
  | unknownType
  deriving DecidableEq

/-- A view of one message: `data` points into the buffer, `none` is the null pointer. -/
structure MsgView where
  data : Option ℕ := none
  len : ℕ := 0
  deriving DecidableEq

/-- The octets a view covers. -/
def MsgView.bytes (m : MsgView) (buf : Bytes) : Bytes :=
  match m.data with
  | none => []
  | some p => (buf.drop p).take m.len

structure FrameReader where
  buf : Bytes
  framing : Framing := .lengthPrefixed
  pos : ℕ := 0
  unknown : ℕ := 0
  mismatch : ℕ := 0

namespace FrameReader

def nextPrefixed (rd : FrameReader) (out : MsgView) : FrameStatus × FrameReader × MsgView :=
  if rd.pos = rd.buf.length then (.exhausted, rd, out)
  else if rd.pos + 2 > rd.buf.length then (.truncated, rd, out)
  else
    let len := be16 rd.buf rd.pos
    if len = 0 then (.zeroLengthPrefix, { rd with pos := rd.pos + 2 }, out)
    else if rd.pos + 2 + len > rd.buf.length then (.truncated, rd, out)
    else
      let body := rd.pos + 2
      let rd := { rd with pos := rd.pos + 2 + len }
      let expect := kMsgLen (rd.buf.getD body 0)
      if expect = 0 then (.unknownType, { rd with unknown := rd.unknown + 1 }, out)
      else if expect ≠ len then (.lengthMismatch, { rd with mismatch := rd.mismatch + 1 }, out)
      else (.ok, rd, { data := some body, len := len })

def nextZeroPrefixed (rd : FrameReader) (out : MsgView) : FrameStatus × FrameReader × MsgView :=
  if rd.pos = rd.buf.length then (.exhausted, rd, out)
  else if rd.pos + 3 > rd.buf.length then (.truncated, rd, out)
  else
    -- a nonzero prefix is counted and the length implied by the type is used
    let rd := if be16 rd.buf rd.pos ≠ 0 then { rd with mismatch := rd.mismatch + 1 } else rd
    let body := rd.pos + 2
    let len := kMsgLen (rd.buf.getD body 0)
    if len = 0 then (.truncated, { rd with unknown := rd.unknown + 1 }, out)
    else if rd.pos + 2 + len > rd.buf.length then (.truncated, rd, out)
    else (.ok, { rd with pos := rd.pos + 2 + len }, { data := some body, len := len })

def next (rd : FrameReader) (out : MsgView) : FrameStatus × FrameReader × MsgView :=
  match rd.framing with
  | .lengthPrefixed => rd.nextPrefixed out
  | .zeroPrefixed => rd.nextZeroPrefixed out

end FrameReader

/-- The statuses after which a caller's loop goes round again. -/
def FrameStatus.continues : FrameStatus → Bool
  | .ok | .lengthMismatch | .unknownType => true
  | _ => false

namespace FrameReader

/-- What successive calls of `next` return, the view carried from call to call, up to the call that
ends the loop. -/
def drain : ℕ → FrameReader → MsgView → List (FrameStatus × MsgView)
  | 0, _, _ => []
  | fuel + 1, rd, m =>
    let (st, rd', m') := rd.next m
    if st.continues then (st, m') :: drain fuel rd' m' else [(st, m')]

end FrameReader

/-- The loop of a caller over a whole buffer: every round but the last consumes a byte. -/
def readFrames (buf : Bytes) (framing : Framing) : List (FrameStatus × MsgView) :=
  FrameReader.drain (buf.length + 1) { buf := buf, framing := framing } {}

/-- The payload of a result, when the frame was accepted. -/
def okPayload (buf : Bytes) (r : FrameStatus × MsgView) : Option Bytes :=
  if r.1 = .ok then some (r.2.bytes buf) else none

/-- The payloads of the frames the reader accepts, in order. -/
def okFrames (buf : Bytes) : List Bytes :=
  (readFrames buf .lengthPrefixed).filterMap (okPayload buf)

/-! ## What the loop sees -/

namespace FrameReader

@[simp] theorem drain_zero (rd : FrameReader) (m : MsgView) : drain 0 rd m = [] := rfl

theorem drain_succ (fuel : ℕ) (rd : FrameReader) (m : MsgView) :
    drain (fuel + 1) rd m =
      if (rd.next m).1.continues then
        ((rd.next m).1, (rd.next m).2.2) :: drain fuel (rd.next m).2.1 (rd.next m).2.2
      else [((rd.next m).1, (rd.next m).2.2)] := rfl

theorem drain_of_next {fuel : ℕ} {rd rd' : FrameReader} {m m' : MsgView} {st : FrameStatus}
    (h : rd.next m = (st, rd', m')) :
    drain (fuel + 1) rd m =
      if st.continues then (st, m') :: drain fuel rd' m' else [(st, m')] := by
  rw [drain_succ, h]

/-- What an accepted frame looks like: a view inside the buffer, between the old cursor and the new,
of the length the type has. -/
structure Accepted (rd rd' : FrameReader) (m' : MsgView) : Prop where
  data_eq : m'.data = some (rd.pos + 2)
  len_eq : m'.len = kMsgLen (rd.buf.getD (rd.pos + 2) 0)
  len_pos : 0 < m'.len
  pos_eq : rd'.pos = rd.pos + 2 + m'.len
  pos_le : rd'.pos ≤ rd.buf.length

/-- One call: the buffer stays, the cursor stays inside it, and a call after which the loop goes round
again has consumed at least three bytes. -/
structure Step (rd : FrameReader) (m : MsgView) (r : FrameStatus × FrameReader × MsgView) : Prop where
  buf_eq : r.2.1.buf = rd.buf
  framing_eq : r.2.1.framing = rd.framing
  pos_le : rd.pos ≤ rd.buf.length → r.2.1.pos ≤ rd.buf.length
  advance : r.1.continues → rd.pos + 3 ≤ r.2.1.pos
  accepted : r.1 = .ok → Accepted rd r.2.1 r.2.2
  view_eq : r.1 ≠ .ok → r.2.2 = m

theorem nextPrefixed_step (rd : FrameReader) (m : MsgView) : Step rd m (rd.nextPrefixed m) := by
  unfold nextPrefixed
  by_cases h0 : rd.pos = rd.buf.length
  · rw [if_pos h0]; constructor <;> simp [FrameStatus.continues]
  rw [if_neg h0]
  by_cases h1 : rd.pos + 2 > rd.buf.length
  · rw [if_pos h1]; constructor <;> simp [FrameStatus.continues]
  rw [if_neg h1]
  by_cases h2 : be16 rd.buf rd.pos = 0
  · simp only [if_pos h2]; constructor <;> simp [FrameStatus.continues]; omega
  simp only [if_neg h2]
  by_cases h3 : rd.pos + 2 + be16 rd.buf rd.pos > rd.buf.length
  · rw [if_pos h3]; constructor <;> simp [FrameStatus.continues]
  rw [if_neg h3]
  by_cases h4 : kMsgLen (rd.buf.getD (rd.pos + 2) 0) = 0
  · rw [if_pos h4]; constructor <;> simp [FrameStatus.continues] <;> omega
  rw [if_neg h4]
  by_cases h5 : kMsgLen (rd.buf.getD (rd.pos + 2) 0) ≠ be16 rd.buf rd.pos
  · rw [if_pos h5]; constructor <;> simp [FrameStatus.continues] <;> omega
  rw [if_neg h5]
  have hlen := not_not.mp h5
  constructor <;> simp [FrameStatus.continues]
  · omega
  · omega
  · exact ⟨rfl, hlen.symm, Nat.pos_of_ne_zero h2, rfl, Nat.le_of_not_gt h3⟩

theorem nextZeroPrefixed_step (rd : FrameReader) (m : MsgView) :
    Step rd m (rd.nextZeroPrefixed m) := by
  unfold nextZeroPrefixed
  by_cases h0 : rd.pos = rd.buf.length
  · rw [if_pos h0]; constructor <;> simp [FrameStatus.continues]
  rw [if_neg h0]
  by_cases h1 : rd.pos + 3 > rd.buf.length
  · rw [if_pos h1]; constructor <;> simp [FrameStatus.continues]
  rw [if_neg h1]
  -- the mismatch counter moves, the buffer and the cursor do not
  obtain ⟨rd', hrd', hbuf, hfr, hpos⟩ : ∃ rd' : FrameReader,
      rd' = (if be16 rd.buf rd.pos ≠ 0 then { rd with mismatch := rd.mismatch + 1 } else rd) ∧
        rd'.buf = rd.buf ∧ rd'.framing = rd.framing ∧ rd'.pos = rd.pos :=
    ⟨_, rfl, by split <;> rfl, by split <;> rfl, by split <;> rfl⟩
  simp only [← hrd', hbuf, hpos]
  by_cases h2 : kMsgLen (rd.buf.getD (rd.pos + 2) 0) = 0
  · rw [if_pos h2]; constructor <;> simp [FrameStatus.continues, hfr]
  rw [if_neg h2]
  by_cases h3 : rd.pos + 2 + kMsgLen (rd.buf.getD (rd.pos + 2) 0) > rd.buf.length
  · rw [if_pos h3]; constructor <;> simp [FrameStatus.continues, hbuf, hfr, hpos]
  rw [if_neg h3]
  constructor <;> simp [FrameStatus.continues, hfr, -List.getD_eq_getElem?_getD]
  · omega
  · omega
  · exact ⟨rfl, rfl, Nat.pos_of_ne_zero h2, rfl, Nat.le_of_not_gt h3⟩

theorem next_step (rd : FrameReader) (m : MsgView) : Step rd m (rd.next m) := by
  unfold next
  cases rd.framing
  · exact nextPrefixed_step rd m
  · exact nextZeroPrefixed_step rd m

/-- An accepted frame covers as many bytes of the buffer as its view says, at most fifty. -/
theorem drain_ok (fuel : ℕ) (rd : FrameReader) (m : MsgView) (hpos : rd.pos ≤ rd.buf.length) :
    ∀ r ∈ drain fuel rd m, r.1 = .ok →
      (r.2.bytes rd.buf).length = r.2.len ∧ 0 < r.2.len ∧ r.2.len ≤ 50 := by
  induction fuel generalizing rd m with
  | zero => simp
  | succ fuel ih =>
    have hs := next_step rd m
    have hhead : (rd.next m).1 = .ok →
        ((rd.next m).2.2.bytes rd.buf).length = (rd.next m).2.2.len ∧
          0 < (rd.next m).2.2.len ∧ (rd.next m).2.2.len ≤ 50 := by
      intro hok
      have ha := hs.accepted hok
      have hle := ha.pos_le
      rw [ha.pos_eq] at hle
      refine ⟨?_, ha.len_pos, ha.len_eq ▸ kMsgLen_le _⟩
      simp only [MsgView.bytes, ha.data_eq, List.length_take, List.length_drop]
      omega
    intro r hr hok
    rw [drain_succ] at hr
    by_cases hc : (rd.next m).1.continues
    · rw [if_pos hc] at hr
      rcases List.mem_cons.mp hr with rfl | hr
      · exact hhead hok
      · have := ih (rd.next m).2.1 (rd.next m).2.2 (by rw [hs.buf_eq]; exact hs.pos_le hpos) r hr hok
        rwa [hs.buf_eq] at this
    · rw [if_neg hc, List.mem_singleton] at hr
      subst hr
      exact hhead hok

theorem drain_ok_length (buf : Bytes) (fuel : ℕ) (rd : FrameReader) (m : MsgView)
    (hpos : rd.pos ≤ rd.buf.length) :
    ((drain fuel rd m).filterMap (okPayload buf)).length ≤ rd.buf.length - rd.pos := by
  induction fuel generalizing rd m with
  | zero => simp
  | succ fuel ih =>
    have hs := next_step rd m
    rw [drain_succ]
    by_cases hc : (rd.next m).1.continues
    · have hle := hs.pos_le hpos
      have hadv := hs.advance hc
      have := ih (rd.next m).2.1 (rd.next m).2.2 (by rw [hs.buf_eq]; exact hle)
      rw [hs.buf_eq] at this
      rw [if_pos hc, List.filterMap_cons]
      cases okPayload buf ((rd.next m).1, (rd.next m).2.2) with
      | none => simp only; omega
      | some b => simp only [List.length_cons]; omega
    · have hok : okPayload buf ((rd.next m).1, (rd.next m).2.2) = none := by
        unfold okPayload
        rw [if_neg]
        intro h
        have h' : (rd.next m).1 = .ok := h
        rw [h'] at hc
        exact hc rfl
      rw [if_neg hc, List.filterMap_cons, hok]
      simp

end FrameReader

theorem okFrames_length_le (buf : Bytes) : (okFrames buf).length ≤ buf.length :=
  FrameReader.drain_ok_length buf _ _ _ (Nat.zero_le _)

theorem length_of_mem_okFrames {buf b : Bytes} (h : b ∈ okFrames buf) :
    0 < b.length ∧ b.length ≤ 50 := by
  obtain ⟨r, hr, hb⟩ := List.mem_filterMap.mp h
  unfold okPayload at hb
  split at hb
  · rename_i hok
    obtain ⟨hlen, hpos, hle⟩ := FrameReader.drain_ok _ _ _ (Nat.zero_le _) r hr hok
    obtain rfl : r.2.bytes buf = b := by simpa using hb
    rw [hlen]
    exact ⟨hpos, hle⟩
  · cases hb

/-! ## Writing frames -/

/-- Two octets, most significant first. -/
def be16Bytes (n : ℕ) : Bytes := [UInt8.ofNat (n >>> 8), UInt8.ofNat n]

/-- A message behind its length prefix. -/
def frame (body : Bytes) : Bytes := be16Bytes body.length ++ body

@[simp] theorem be16Bytes_length (n : ℕ) : (be16Bytes n).length = 2 := rfl

theorem byteAt_append_right {a b : Bytes} {i : ℕ} (h : a.length ≤ i) :
    byteAt (a ++ b) i = byteAt b (i - a.length) := by
  unfold byteAt
  rw [List.getD_append_right _ _ _ _ h]

theorem byteAt_append_left {a b : Bytes} {i : ℕ} (h : i < a.length) :
    byteAt (a ++ b) i = byteAt a i := by
  unfold byteAt
  rw [List.getD_append _ _ _ _ h]

theorem be16_be16Bytes {n : ℕ} (hn : n < 2 ^ 16) (pre post : Bytes) :
    be16 (pre ++ (be16Bytes n ++ post)) pre.length = n := by
  have h0 : byteAt (pre ++ (be16Bytes n ++ post)) pre.length = n / 256 % 256 := by
    rw [byteAt_append_right le_rfl, Nat.sub_self, byteAt_append_left (by simp)]
    simp [byteAt, be16Bytes, Nat.shiftRight_eq_div_pow]
  have h1 : byteAt (pre ++ (be16Bytes n ++ post)) (pre.length + 1) = n % 256 := by
    rw [byteAt_append_right (by omega), Nat.add_sub_cancel_left, byteAt_append_left (by simp)]
    simp [byteAt, be16Bytes]
  unfold be16
  omega

/-- A body the reader accepts: its type is known and has its length. -/
def WellFormed (body : Bytes) : Prop := 0 < body.length ∧ kMsgLen (body.getD 0 0) = body.length

/-- At a well-formed frame the reader accepts the body and moves past it. -/
theorem FrameReader.nextPrefixed_frame {body : Bytes} (hb : WellFormed body) (pre post : Bytes)
    (rd : FrameReader) (m : MsgView) (hbuf : rd.buf = pre ++ (frame body ++ post))
    (hpos : rd.pos = pre.length) :
    rd.nextPrefixed m =
      (.ok, { rd with pos := pre.length + (frame body).length },
        { data := some (pre.length + 2), len := body.length }) := by
  obtain ⟨hlen, htype⟩ := hb
  have hle : body.length ≤ 50 := htype ▸ kMsgLen_le _
  have hflen : (frame body).length = 2 + body.length := by simp [frame]
  have hsize : rd.buf.length = pre.length + (2 + body.length) + post.length := by
    rw [hbuf]; simp [hflen]; omega
  have hpre : be16 rd.buf rd.pos = body.length := by
    rw [hbuf, hpos, frame, List.append_assoc]
    exact be16_be16Bytes (by omega) pre (body ++ post)
  have hty : rd.buf.getD (pre.length + 2) 0 = body.getD 0 0 := by
    rw [hbuf, frame, List.append_assoc, ← List.append_assoc pre,
      List.getD_append_right _ _ _ _ (by simp)]
    rw [List.length_append, be16Bytes_length, Nat.sub_self]
    exact List.getD_append _ _ _ _ hlen
  unfold nextPrefixed
  rw [if_neg (by omega), if_neg (by omega)]
  simp only [hpre]
  rw [if_neg (by omega), if_neg (by omega), hpos, hty, htype]
  rw [if_neg (by omega), if_neg (by simp), hflen]
  simp [Nat.add_assoc]

theorem okPayload_frame (pre body post : Bytes) :
    okPayload (pre ++ (frame body ++ post))
      (.ok, { data := some (pre.length + 2), len := body.length }) = some body := by
  have hdrop : (pre ++ (frame body ++ post)).drop (pre.length + 2) = body ++ post := by
    rw [frame, List.append_assoc, ← List.append_assoc pre]
    exact List.drop_left' (by simp)
  unfold okPayload MsgView.bytes
  simp only [if_true, hdrop, List.take_left]

/-- From the start of well-formed frames that reach the end of the buffer the loop accepts exactly
their bodies. -/
theorem FrameReader.drain_frames {bodies : List Bytes} (hwf : ∀ b ∈ bodies, WellFormed b) :
    ∀ (pre : Bytes) (fuel : ℕ) (m : MsgView) (rd : FrameReader),
      (bodies.flatMap frame).length < fuel → rd.framing = .lengthPrefixed →
      rd.buf = pre ++ bodies.flatMap frame → rd.pos = pre.length →
        (drain fuel rd m).filterMap (okPayload rd.buf) = bodies := by
  induction bodies with
  | nil =>
    intro pre fuel m rd hf hfr hbuf hpos
    obtain ⟨fuel, rfl⟩ : ∃ k, fuel = k + 1 := ⟨fuel - 1, by simp at hf; omega⟩
    have hn : rd.next m = (.exhausted, rd, m) := by
      unfold next nextPrefixed
      simp [hfr, hbuf, hpos]
    rw [drain_of_next hn]
    simp [FrameStatus.continues, okPayload]
  | cons b bodies ih =>
    intro pre fuel m rd hf hfr hbuf hpos
    obtain ⟨fuel, rfl⟩ : ∃ k, fuel = k + 1 := ⟨fuel - 1, by simp at hf; omega⟩
    have hlen : (frame b).length = 2 + b.length := by simp [frame]
    have hn : rd.next m = rd.nextPrefixed m := by unfold next; rw [hfr]
    rw [nextPrefixed_frame (hwf b (by simp)) pre (bodies.flatMap frame) rd m hbuf hpos] at hn
    have hb : rd.buf = pre ++ (frame b ++ bodies.flatMap frame) := hbuf
    have hrest := ih (fun b' hb' => hwf b' (by simp [hb'])) (pre ++ frame b) fuel
      { data := some (pre.length + 2), len := b.length }
      { rd with pos := pre.length + (frame b).length }
      (by rw [List.flatMap_cons, List.length_append] at hf; omega) hfr
      (by simp [hbuf]) (by simp)
    have hpay := okPayload_frame pre b (bodies.flatMap frame)
    rw [← hb] at hpay
    rw [drain_of_next hn, if_pos (by rfl), List.filterMap_cons, hpay]
    simp only at hrest ⊢
    rw [hrest]

/-- **Framing round trip.** Reading a sequence of well-formed frames accepts exactly their bodies. -/
theorem okFrames_flatMap_frame {bodies : List Bytes} (hb : ∀ b ∈ bodies, WellFormed b) :
    okFrames (bodies.flatMap frame) = bodies :=
  FrameReader.drain_frames hb [] _ {} { buf := bodies.flatMap frame } (Nat.lt_succ_self _) rfl rfl rfl

end Carteret
