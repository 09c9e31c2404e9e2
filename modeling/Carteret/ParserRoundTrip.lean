import Carteret.MessageCodec
import Carteret.ParserFrames

/-!
# The parser on what a writer wrote

The frames of encoded bodies are those bodies, in either form (`frames_encoded`), so that whatever the reader
accepts or rejects, it goes on at the next body. `detectFraming` tells the two forms apart.
-/

namespace Carteret

/-! ## Bodies -/

/-- What the reader says about a body. -/
def bodyStatus (body : Bytes) : FrameStatus :=
  if kMsgLen (body.getD 0 0) = 0 then .unknownType
  else if kMsgLen (body.getD 0 0) ≠ body.length then .lengthMismatch
  else .ok

/-- The typed message that an accepted body is. -/
def bodyMessage (body : Bytes) : Option (MsgType × Bytes) :=
  if bodyStatus body = .ok then (MsgType.ofByte (body.getD 0 0)).map (·, body) else none

/-- The messages handed to `on`, in order, each as the octets its view covers. -/
def messages (buf : Bytes) (calls : List HandlerCall) : List (MsgType × Bytes) :=
  (calls.filterMap HandlerCall.message).map fun e => (e.1, slice buf e.2 e.1.len)

theorem bodyStatus_wellFormed {body : Bytes} (h : WellFormed body) : bodyStatus body = .ok := by
  obtain ⟨hpos, hlen⟩ := h
  unfold bodyStatus
  rw [hlen, if_neg (by omega), if_neg (by simp)]

namespace Frame

def body (buf : Bytes) (f : Frame) : Bytes := slice buf (f.pos + 2) f.len

variable {framing : Framing} {buf : Bytes} {f : Frame}

theorem length_body (h : f.stop ≤ buf.length) : (f.body buf).length = f.len := length_slice h

theorem type_body (h : 0 < f.len) : (f.body buf).getD 0 0 = buf.getD (f.pos + 2) 0 := by
  unfold body
  rw [getD_slice, if_pos h, Nat.add_zero]

theorem verdict_eq (hlen : 0 < f.len) (h : f.stop ≤ buf.length) :
    f.verdict buf = bodyStatus (f.body buf) := by
  unfold verdict bodyStatus
  rw [type_body hlen, length_body h]

theorem message_body (hlen : 0 < f.len) (h : f.stop ≤ buf.length) :
    (f.message buf).map (fun e => (e.1, slice buf e.2 e.1.len)) = bodyMessage (f.body buf) := by
  cases hm : f.message buf with
  | none =>
    unfold message at hm
    unfold bodyMessage
    rw [← verdict_eq hlen h, type_body hlen]
    by_cases hok : f.verdict buf = .ok
    · rw [if_pos hok] at hm ⊢
      rw [Option.map_eq_none_iff.mp hm]
      rfl
    · rw [if_neg hok]
      rfl
  | some e =>
    obtain ⟨hpos, hl, hok⟩ := message_spec hm
    unfold message at hm
    rw [if_pos hok] at hm
    obtain ⟨t, ht, rfl⟩ := Option.map_eq_some_iff.mp hm
    unfold bodyMessage
    rw [← verdict_eq hlen h, if_pos hok, type_body hlen, ht]
    show some (t, slice buf (f.pos + 2) t.len) = some (t, f.body buf)
    rw [show t.len = f.len from hl]
    rfl

end Frame

/-! ## Writing in either form -/

/-- A body behind its prefix. -/
def encodeFrame (framing : Framing) (body : Bytes) : Bytes :=
  match framing with
  | .lengthPrefixed => frame body
  | .zeroPrefixed => 0 :: 0 :: body

/-- The bodies that the form can carry. -/
def Encodable (framing : Framing) (body : Bytes) : Prop :=
  match framing with
  | .lengthPrefixed => 0 < body.length ∧ body.length < 2 ^ 16
  | .zeroPrefixed => WellFormed body

section

variable {framing : Framing} {body pre post : Bytes}

theorem length_encodeFrame (framing : Framing) (body : Bytes) :
    (encodeFrame framing body).length = 2 + body.length := by
  cases framing
  · simp [encodeFrame, frame]
  · exact Nat.add_comm body.length 2

theorem Encodable.length_pos (h : Encodable framing body) : 0 < body.length := by
  cases framing
  · exact h.1
  · exact h.1

theorem drop_encodeFrame (framing : Framing) (pre body post : Bytes) :
    (pre ++ (encodeFrame framing body ++ post)).drop (pre.length + 2) = body ++ post := by
  rw [List.drop_length_add_append]
  cases framing
  · rfl
  · rfl

theorem slice_encodeFrame (framing : Framing) (pre body post : Bytes) :
    slice (pre ++ (encodeFrame framing body ++ post)) (pre.length + 2) body.length = body := by
  rw [slice, drop_encodeFrame, List.take_left]

theorem type_encodeFrame (framing : Framing) (pre post : Bytes) (h : 0 < body.length) :
    (pre ++ (encodeFrame framing body ++ post)).getD (pre.length + 2) 0 = body.getD 0 0 := by
  have hdrop := drop_encodeFrame framing pre body post
  have hget := congrArg (fun l => l.getD 0 0) hdrop
  simp only [List.getD_eq_getElem?_getD, List.getElem?_drop, Nat.add_zero] at hget ⊢
  rw [hget, List.getElem?_append_left h]

theorem be16_zeroPrefixed (pre body post : Bytes) :
    be16 (pre ++ (encodeFrame .zeroPrefixed body ++ post)) pre.length = 0 := by
  have h : be16 (pre ++ (be16Bytes 0 ++ (body ++ post))) pre.length = 0 :=
    be16_be16Bytes (by decide) pre (body ++ post)
  exact h

/-- The first prefix of length-prefixed frames. -/
theorem be16_lengthPrefixed (h : Encodable .lengthPrefixed body) (post : Bytes) :
    be16 (encodeFrame .lengthPrefixed body ++ post) 0 ≠ 0 := by
  have hpfx : be16 ([] ++ (be16Bytes body.length ++ (body ++ post))) 0 = body.length :=
    be16_be16Bytes h.2 [] (body ++ post)
  rw [List.nil_append, ← List.append_assoc] at hpfx
  exact hpfx ▸ Nat.pos_iff_ne_zero.mp h.1

/-- A written frame is a frame. -/
theorem frameAt_encodeFrame (h : Encodable framing body) (pre post : Bytes) :
    frameAt framing (pre ++ (encodeFrame framing body ++ post)) pre.length =
      some ⟨pre.length, body.length⟩ := by
  have hlen := length_encodeFrame framing body
  have hpos := h.length_pos
  have htype := type_encodeFrame framing pre post hpos
  cases framing with
  | lengthPrefixed =>
    have hpre : be16 (pre ++ (encodeFrame .lengthPrefixed body ++ post)) pre.length = body.length := by
      rw [encodeFrame, frame, List.append_assoc]
      exact be16_be16Bytes h.2 pre (body ++ post)
    unfold frameAt
    simp only [hpre, List.length_append, hlen]
    rw [if_pos ⟨by omega, by omega, by omega⟩]
  | zeroPrefixed =>
    unfold frameAt
    simp only [htype, h.2, List.length_append, hlen]
    rw [if_pos ⟨by omega, by omega, by omega⟩]

end

/-- **The frames of encoded bodies are those bodies**, in order, up to the end of the last. -/
theorem frames_encoded {framing : Framing} {bodies : List Bytes} (hb : ∀ b ∈ bodies, Encodable framing b) :
    ∀ (pre tail buf : Bytes) (fuel : ℕ), buf = pre ++ (bodies.flatMap (encodeFrame framing) ++ tail) →
      bodies.length < fuel →
      frameAt framing buf (pre.length + (bodies.flatMap (encodeFrame framing)).length) = none →
      (framesFrom framing buf fuel pre.length).map (Frame.body buf) = bodies ∧
        framesEnd (framesFrom framing buf fuel pre.length) pre.length =
          pre.length + (bodies.flatMap (encodeFrame framing)).length ∧
        (framing = .zeroPrefixed → ∀ f ∈ framesFrom framing buf fuel pre.length, be16 buf f.pos = 0) := by
  induction bodies with
  | nil =>
    intro pre tail buf fuel _ _ hend
    rw [framesFrom_none (by simpa using hend)]
    exact ⟨rfl, by simp [framesEnd], by simp⟩
  | cons b bodies ih =>
    intro pre tail buf fuel hbuf hfuel hend
    obtain ⟨fuel, rfl⟩ : ∃ n, fuel = n + 1 := ⟨fuel - 1, by simp at hfuel; omega⟩
    have hbuf' : buf = pre ++ (encodeFrame framing b ++ (bodies.flatMap (encodeFrame framing) ++ tail)) := by
      rw [hbuf, List.flatMap_cons, List.append_assoc]
    have hlen := length_encodeFrame framing b
    have hat := frameAt_encodeFrame (hb b (by simp)) pre (bodies.flatMap (encodeFrame framing) ++ tail)
    rw [← hbuf'] at hat
    have hstop : (Frame.mk pre.length b.length).stop = (pre ++ encodeFrame framing b).length := by
      show pre.length + 2 + b.length = _
      rw [List.length_append, hlen, Nat.add_assoc]
    obtain ⟨hbodies, hframesEnd, hzero⟩ := ih (fun b' hb' => hb b' (by simp [hb']))
      (pre ++ encodeFrame framing b) tail buf fuel
      (by rw [hbuf', List.append_assoc])
      (by simpa using hfuel)
      (by rw [List.length_append, Nat.add_assoc]; simpa [List.length_append] using hend)
    rw [framesFrom_some hat, hstop]
    refine ⟨?_, ?_, ?_⟩
    · rw [List.map_cons, hbodies]
      congr 1
      show slice buf (pre.length + 2) b.length = b
      rw [hbuf']
      exact slice_encodeFrame framing pre b _
    · show framesEnd _ (Frame.mk pre.length b.length).stop = _
      rw [hstop, hframesEnd, List.flatMap_cons]
      simp only [List.length_append]
      omega
    · intro hz f hf
      rcases List.mem_cons.mp hf with rfl | hf
      · subst hz
        show be16 buf pre.length = 0
        rw [hbuf']
        exact be16_zeroPrefixed _ _ _
      · exact hzero hz f hf

/-! ## Detecting the form -/

section

variable {buf : Bytes}

/-- A nonzero first prefix, or too few bytes for one, rules the zero-prefixed form out. -/
theorem walks_zeroPrefixed_false (h : 3 ≤ buf.length → be16 buf 0 ≠ 0) :
    walks buf .zeroPrefixed kProbe 0 = false := by
  show walks buf .zeroPrefixed (63 + 1) 0 = false
  unfold walks
  by_cases hl : 3 ≤ buf.length
  · simp [Nat.not_lt.mpr hl, h hl]
  · simp [Nat.not_le.mp hl, kProbe]

theorem detectFraming_lengthPrefixed (h : 3 ≤ buf.length → be16 buf 0 ≠ 0) :
    detectFraming buf = .lengthPrefixed := by
  unfold detectFraming
  rw [walks_zeroPrefixed_false h]
  split_ifs <;> first | rfl | contradiction

theorem walks_lengthPrefixed_false (hl : 3 ≤ buf.length) (h : be16 buf 0 = 0) :
    walks buf .lengthPrefixed kProbe 0 = false := by
  show walks buf .lengthPrefixed (63 + 1) 0 = false
  unfold walks
  simp [Nat.not_lt.mpr hl, h, kProbe]

/-- The probe walks over zero-prefixed messages to their end. -/
theorem walks_zeroPrefixed {bodies : List Bytes} (hb : ∀ b ∈ bodies, WellFormed b) :
    ∀ (pre : Bytes) (n : ℕ), buf = pre ++ bodies.flatMap (encodeFrame .zeroPrefixed) →
      n ≤ kProbe → (bodies = [] → n < kProbe) → walks buf .zeroPrefixed n pre.length = true := by
  induction bodies with
  | nil =>
    intro pre n hbuf _ hn
    cases n with
    | zero => rfl
    | succ n =>
      unfold walks
      rw [if_pos (by rw [hbuf]; simp)]
      exact decide_eq_true (hn rfl)
  | cons b bodies ih =>
    intro pre n hbuf hle _
    cases n with
    | zero => rfl
    | succ n =>
      obtain ⟨hpos, hlen⟩ := hb b (by simp)
      have hbuf' : buf = pre ++ (encodeFrame .zeroPrefixed b ++ bodies.flatMap (encodeFrame .zeroPrefixed)) :=
        hbuf
      have hsize : buf.length =
          pre.length + (2 + b.length + (bodies.flatMap (encodeFrame .zeroPrefixed)).length) := by
        rw [hbuf', List.length_append, List.length_append, length_encodeFrame]
      have hpfx : be16 buf pre.length = 0 := by
        rw [hbuf']
        exact be16_zeroPrefixed _ _ _
      have htype : kMsgLen (buf.getD (pre.length + 2) 0) = b.length := by
        rw [hbuf', type_encodeFrame _ _ _ hpos, hlen]
      have hrest := ih (fun b' hb' => hb b' (by simp [hb'])) (pre ++ encodeFrame .zeroPrefixed b)
        n (by rw [hbuf', List.append_assoc]) (by omega) (fun _ => hle)
      rw [List.length_append, length_encodeFrame, ← Nat.add_assoc] at hrest
      unfold walks
      rw [if_neg (by omega)]
      simp only [htype, hpfx]
      rw [if_neg (by omega), if_neg (by simp), if_neg (by omega)]
      exact hrest

end

/-! ## The round trip -/

theorem length_le_flatMap (framing : Framing) (bodies : List Bytes) :
    bodies.length ≤ (bodies.flatMap (encodeFrame framing)).length := by
  induction bodies with
  | nil => exact le_rfl
  | cons b bodies ih =>
    rw [List.flatMap_cons, List.length_append, length_encodeFrame, List.length_cons]
    omega

/-- What follows the frames: nothing, or a zero prefix and more octets. -/
def closingBytes : Option Bytes → Bytes
  | none => []
  | some junk => 0 :: 0 :: junk

theorem be16_closing (pre junk : Bytes) : be16 (pre ++ closingBytes (some junk)) pre.length = 0 := by
  have h0 : be16 (pre ++ (be16Bytes 0 ++ junk)) pre.length = 0 := be16_be16Bytes (by decide) pre junk
  exact h0

/-- Behind the last frame no frame fits. -/
theorem frameAt_closing {pre : Bytes} (closing : Option Bytes) :
    frameAt .lengthPrefixed (pre ++ closingBytes closing) pre.length = none := by
  unfold frameAt
  cases closing with
  | none => simp [closingBytes]
  | some junk => exact if_neg fun h => h.2.1 (be16_closing pre junk)

theorem detectFraming_frames {bodies : List Bytes} (hb : ∀ b ∈ bodies, Encodable .lengthPrefixed b)
    {closing : Option Bytes} (hclosing : bodies = [] → closing.getD [] = []) :
    detectFraming (bodies.flatMap frame ++ closingBytes closing) = .lengthPrefixed := by
  apply detectFraming_lengthPrefixed
  cases bodies with
  | nil =>
    intro hl
    cases closing with
    | none => exact absurd hl (by decide)
    | some junk =>
      obtain rfl : junk = [] := hclosing rfl
      exact absurd hl (by decide)
  | cons b bodies =>
    intro _
    have hbuf : (b :: bodies).flatMap frame ++ closingBytes closing =
        encodeFrame .lengthPrefixed b ++ (bodies.flatMap frame ++ closingBytes closing) :=
      List.append_assoc _ _ _
    rw [hbuf]
    exact be16_lengthPrefixed (hb b (by simp)) _

theorem detectFraming_zeroPrefixed {bodies : List Bytes} (hne : bodies ≠ [])
    (hb : ∀ b ∈ bodies, WellFormed b) :
    detectFraming (bodies.flatMap (encodeFrame .zeroPrefixed)) = .zeroPrefixed := by
  have hzero := walks_zeroPrefixed hb [] kProbe rfl le_rfl (fun h => absurd h hne)
  have hlength : walks (bodies.flatMap (encodeFrame .zeroPrefixed)) .lengthPrefixed kProbe 0 = false := by
    cases bodies with
    | nil => exact absurd rfl hne
    | cons b bodies =>
      apply walks_lengthPrefixed_false
      · have hpos := (hb b (by simp)).1
        rw [List.flatMap_cons, List.length_append, length_encodeFrame]
        omega
      · exact be16_zeroPrefixed [] b _
  unfold detectFraming
  rw [hlength, if_neg (by simp)]
  exact if_pos hzero

/-- The messages of a run are the accepted bodies. -/
theorem messages_frames {framing : Framing} {buf : Bytes} :
    messages buf (Parser.callsFrom buf {} (frames framing buf)) =
      ((frames framing buf).map (Frame.body buf)).filterMap bodyMessage := by
  unfold messages
  rw [Parser.callsFrom_message, List.map_filterMap, List.filterMap_map]
  apply List.filterMap_congr
  intro f hf
  obtain ⟨-, hlen, hle⟩ := frameAt_spec (mem_framesFrom hf).1
  exact Frame.message_body hlen hle

theorem countP_frames {framing : Framing} {buf : Bytes} (st : FrameStatus) :
    (frames framing buf).countP (·.verdict buf = st) =
      ((frames framing buf).map (Frame.body buf)).countP (bodyStatus · = st) := by
  rw [List.countP_map]
  apply List.countP_congr
  intro f hf
  obtain ⟨-, hlen, hle⟩ := frameAt_spec (mem_framesFrom hf).1
  simp only [Frame.verdict_eq hlen hle, Function.comp_apply]

namespace Parser

theorem run_frames {bodies : List Bytes} (hb : ∀ b ∈ bodies, 0 < b.length ∧ b.length < 2 ^ 16)
    {closing : Option Bytes} (hclosing : bodies = [] → closing.getD [] = []) :
    ∃ calls, run (bodies.flatMap frame ++ closingBytes closing) = some
      ({ dispatched := bodies.countP (bodyStatus · = .ok)
         unknown := bodies.countP (bodyStatus · = .unknownType)
         mismatch := bodies.countP (bodyStatus · = .lengthMismatch)
         bytes := (bodies.flatMap frame).length + if closing.isSome then 2 else 0
         trailing := (closing.getD []).length
         stop := if closing.isSome then .zeroLengthPrefix else .exhausted
         framing := .lengthPrefixed }, calls) ∧
      messages (bodies.flatMap frame ++ closingBytes closing) calls = bodies.filterMap bodyMessage := by
  have hb' : ∀ b ∈ bodies, Encodable .lengthPrefixed b := hb
  set buf := bodies.flatMap frame ++ closingBytes closing with hbuf
  have hle := length_le_flatMap .lengthPrefixed bodies
  obtain ⟨hbodies, hend, -⟩ := frames_encoded hb' [] (closingBytes closing) buf
    (buf.length + 1) hbuf
    (by rw [hbuf, List.length_append]; exact Nat.lt_succ_of_le (hle.trans (Nat.le_add_right _ _)))
    (by rw [List.length_nil, Nat.zero_add]; exact frameAt_closing closing)
  obtain ⟨stop, rd', m', m'', hnext, hrun⟩ := runAs_frames buf .lengthPrefixed
  have hpos : ((start buf .lengthPrefixed).passAll (frames .lengthPrefixed buf)).pos =
      (bodies.flatMap frame).length := by
    rw [FrameReader.passAll_pos]
    exact hend.trans (Nat.zero_add _)
  have hunknown : ((start buf .lengthPrefixed).passAll (frames .lengthPrefixed buf)).unknown =
      bodies.countP (bodyStatus · = .unknownType) := by
    rw [FrameReader.passAll_unknown]
    exact (Nat.zero_add _).trans ((countP_frames .unknownType).trans (congrArg _ hbodies))
  have hmismatch : ((start buf .lengthPrefixed).passAll (frames .lengthPrefixed buf)).mismatch =
      bodies.countP (bodyStatus · = .lengthMismatch) := by
    rw [FrameReader.passAll_mismatch]
    exact (Nat.zero_add _).trans ((countP_frames .lengthMismatch).trans (congrArg _ hbodies))
  have hdispatched : (frames .lengthPrefixed buf).countP (·.verdict buf = .ok) =
      bodies.countP (bodyStatus · = .ok) := (countP_frames .ok).trans (congrArg _ hbodies)
  rw [FrameReader.nextPrefixed_end (by simp) (by
    rw [hpos, FrameReader.passAll_buf]; exact frameAt_closing closing), hpos,
    FrameReader.passAll_buf, start_buf] at hnext
  refine ⟨_, ?_, by rw [messages_frames]; exact congrArg _ hbodies⟩
  unfold run
  rw [detectFraming_frames hb' hclosing, hrun]
  cases closing with
  | none =>
    have hlen : buf.length = (bodies.flatMap frame).length := by simp [hbuf, closingBytes]
    rw [if_pos hlen.symm] at hnext
    obtain ⟨hstop, hrest⟩ := Prod.mk.inj hnext
    obtain ⟨rfl, -⟩ := Prod.mk.inj hrest
    obtain rfl : stop = .exhausted := ParseEnd.status_injective hstop.symm
    rw [hunknown, hmismatch, hpos, hdispatched, hlen, Nat.sub_self]
    rfl
  | some junk =>
    have hlen : buf.length = (bodies.flatMap frame).length + (2 + junk.length) := by
      rw [hbuf, List.length_append]
      exact congrArg _ (Nat.add_comm junk.length 2)
    have hzero : be16 buf (bodies.flatMap frame).length = 0 := be16_closing (bodies.flatMap frame) junk
    rw [if_neg (by omega), if_pos ⟨by omega, hzero⟩] at hnext
    obtain ⟨hstop, hrest⟩ := Prod.mk.inj hnext
    obtain ⟨rfl, -⟩ := Prod.mk.inj hrest
    obtain rfl : stop = .zeroLengthPrefix := ParseEnd.status_injective hstop.symm
    have htrailing : (bodies.flatMap frame).length + (2 + junk.length) -
        ((bodies.flatMap frame).length + 2) = junk.length := by omega
    simp only
    rw [hunknown, hmismatch, hdispatched, hlen, htrailing]
    rfl

theorem run_zeroPrefixed {bodies : List Bytes} (hne : bodies ≠ []) (hb : ∀ b ∈ bodies, WellFormed b) :
    ∃ calls, run (bodies.flatMap (encodeFrame .zeroPrefixed)) = some
      ({ dispatched := bodies.length
         unknown := 0
         mismatch := 0
         bytes := (bodies.flatMap (encodeFrame .zeroPrefixed)).length
         trailing := 0
         stop := .exhausted
         framing := .zeroPrefixed }, calls) ∧
      messages (bodies.flatMap (encodeFrame .zeroPrefixed)) calls = bodies.filterMap bodyMessage := by
  set buf := bodies.flatMap (encodeFrame .zeroPrefixed) with hbuf
  have hle := length_le_flatMap .zeroPrefixed bodies
  have hnone : frameAt .zeroPrefixed buf buf.length = none := if_neg fun h => by omega
  have hb' : ∀ b ∈ bodies, Encodable .zeroPrefixed b := hb
  obtain ⟨hbodies, hend, hzero⟩ := frames_encoded hb' [] [] buf (buf.length + 1)
    (by simp [hbuf]) (Nat.lt_succ_of_le hle)
    (by rw [List.length_nil, Nat.zero_add]; exact hnone)
  obtain ⟨stop, rd', m', m'', hnext, hrun⟩ := runAs_frames buf .zeroPrefixed
  have hpos : ((start buf .zeroPrefixed).passAll (frames .zeroPrefixed buf)).pos = buf.length := by
    rw [FrameReader.passAll_pos]
    exact hend.trans (Nat.zero_add _)
  have hstatus (st : FrameStatus) : (frames .zeroPrefixed buf).countP (·.verdict buf = st) =
      bodies.countP (bodyStatus · = st) := (countP_frames st).trans (congrArg _ hbodies)
  have hok (st : FrameStatus) : bodies.countP (bodyStatus · = st) =
      if st = .ok then bodies.length else 0 := by
    split_ifs with hst
    · exact List.countP_eq_length.mpr fun b hb' => by simp [bodyStatus_wellFormed (hb b hb'), hst]
    · exact List.countP_eq_zero.mpr fun b hb' => by simp [bodyStatus_wellFormed (hb b hb'), Ne.symm hst]
  have hunknown : ((start buf .zeroPrefixed).passAll (frames .zeroPrefixed buf)).unknown = 0 := by
    rw [FrameReader.passAll_unknown]
    exact (Nat.zero_add _).trans ((hstatus .unknownType).trans (hok _))
  have hmismatch : ((start buf .zeroPrefixed).passAll (frames .zeroPrefixed buf)).mismatch = 0 := by
    rw [FrameReader.passAll_mismatch]
    apply (Nat.zero_add _).trans
    apply List.countP_eq_zero.mpr
    intro f hf
    simp [Frame.mismatched, hzero rfl f hf]
  have hzeroPrefixed : ((start buf .zeroPrefixed).passAll (frames .zeroPrefixed buf)).framing =
      .zeroPrefixed := by simp
  obtain ⟨-, hst, hrd⟩ := FrameReader.nextZeroPrefixed_end
    (m := m') hzeroPrefixed
    (by rw [hpos, FrameReader.passAll_buf]; exact hnone)
  have hatEnd : ((start buf .zeroPrefixed).passAll (frames .zeroPrefixed buf)).pos =
      ((start buf .zeroPrefixed).passAll (frames .zeroPrefixed buf)).buf.length := by
    rw [hpos, FrameReader.passAll_buf]
    rfl
  have hrd := hrd hatEnd
  rw [if_pos hatEnd] at hst
  rw [hnext] at hst hrd
  obtain rfl : stop = .exhausted := ParseEnd.status_injective hst
  obtain rfl : rd' = _ := hrd
  refine ⟨_, ?_, by rw [messages_frames]; exact congrArg _ hbodies⟩
  unfold run
  rw [detectFraming_zeroPrefixed hne hb, hrun, hunknown, hmismatch, hpos, hstatus, hok, Nat.sub_self]
  rfl

/-- **Framing round trip.** The parser detects the form in which bodies were written, hands over exactly the
bodies that are messages, each with its own type, and counts the others. -/
theorem run_encoded (bodies : List Bytes) (closing : Option Bytes) :
    ((∀ b ∈ bodies, 0 < b.length ∧ b.length < 2 ^ 16) → (bodies = [] → closing.getD [] = []) →
      ∃ calls, run (bodies.flatMap frame ++ closingBytes closing) = some
        ({ dispatched := bodies.countP (bodyStatus · = .ok)
           unknown := bodies.countP (bodyStatus · = .unknownType)
           mismatch := bodies.countP (bodyStatus · = .lengthMismatch)
           bytes := (bodies.flatMap frame).length + if closing.isSome then 2 else 0
           trailing := (closing.getD []).length
           stop := if closing.isSome then .zeroLengthPrefix else .exhausted
           framing := .lengthPrefixed }, calls) ∧
        messages (bodies.flatMap frame ++ closingBytes closing) calls = bodies.filterMap bodyMessage) ∧
    (bodies ≠ [] → (∀ b ∈ bodies, WellFormed b) →
      ∃ calls, run (bodies.flatMap (encodeFrame .zeroPrefixed)) = some
        ({ dispatched := bodies.length
           unknown := 0
           mismatch := 0
           bytes := (bodies.flatMap (encodeFrame .zeroPrefixed)).length
           trailing := 0
           stop := .exhausted
           framing := .zeroPrefixed }, calls) ∧
        messages (bodies.flatMap (encodeFrame .zeroPrefixed)) calls = bodies.filterMap bodyMessage) :=
  ⟨fun hb hclosing => run_frames hb hclosing, fun hne hb => run_zeroPrefixed hne hb⟩

/-- A system event. -/
def someEvent : Bytes := 0x53 :: List.replicate 11 0

/-- An unknown type, a short event and a whole one, with a zero prefix and an octet behind them; and two events behind
zero prefixes. -/
theorem run_encoded_some :
    (∃ calls, run ([[0x7E], [0x53, 0], someEvent].flatMap frame ++ closingBytes (some [5])) = some
      ({ dispatched := 1
         unknown := 1
         mismatch := 1
         bytes := 23
         trailing := 1
         stop := .zeroLengthPrefix
         framing := .lengthPrefixed }, calls) ∧
      messages ([[0x7E], [0x53, 0], someEvent].flatMap frame ++ closingBytes (some [5])) calls =
        [(.systemEvent, someEvent)]) ∧
    ∃ calls, run ([someEvent, someEvent].flatMap (encodeFrame .zeroPrefixed)) = some
      ({ dispatched := 2
         unknown := 0
         mismatch := 0
         bytes := 28
         trailing := 0
         stop := .exhausted
         framing := .zeroPrefixed }, calls) ∧
      messages ([someEvent, someEvent].flatMap (encodeFrame .zeroPrefixed)) calls =
        [(.systemEvent, someEvent), (.systemEvent, someEvent)] := by
  constructor
  · obtain ⟨calls, hrun, hmsgs⟩ := (run_encoded [[0x7E], [0x53, 0], someEvent] (some [5])).1 (by decide) (by decide)
    refine ⟨calls, hrun.trans ?_, hmsgs.trans (by decide)⟩
    have hok : [[0x7E], [0x53, 0], someEvent].countP (bodyStatus · = .ok) = 1 := by decide
    have hunknown : [[0x7E], [0x53, 0], someEvent].countP (bodyStatus · = .unknownType) = 1 := by decide
    have hmismatch : [[0x7E], [0x53, 0], someEvent].countP (bodyStatus · = .lengthMismatch) = 1 := by decide
    rw [hok, hunknown, hmismatch]
    rfl
  · have hwf : ∀ b ∈ [someEvent, someEvent], WellFormed b := fun b hb => by
      have hb' : b = someEvent := by simpa using hb
      rw [hb']
      exact ⟨by decide, by decide⟩
    obtain ⟨calls, hrun, hmsgs⟩ := (run_encoded [someEvent, someEvent] none).2 (by decide) hwf
    exact ⟨calls, hrun, hmsgs.trans (by decide)⟩

end Parser

end Carteret
