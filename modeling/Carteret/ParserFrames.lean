import Carteret.Parser

/-!
# The frames of a buffer

1. `frames` are the frames of a buffer under either framing, up to the first position where none fits.
2. At a frame `next` passes it and its verdict is the status (`next_frame`); elsewhere the loop stops
   (`next_end`).
3. So the loop passes all frames and makes one round more (`loop_frames`), and the counters, the dispatched
   messages and the views that the hooks get are read off the list of frames.
-/

namespace Carteret

structure Frame where
  pos : ℕ
  len : ℕ
  deriving DecidableEq

namespace Frame

/-- The offset behind the frame. -/
def stop (f : Frame) : ℕ := f.pos + 2 + f.len

/-- The view of the frame's body. -/
def view (f : Frame) : MsgView := { data := some (f.pos + 2), len := f.len }

/-- What the reader says about the frame. -/
def verdict (buf : Bytes) (f : Frame) : FrameStatus :=
  if kMsgLen (buf.getD (f.pos + 2) 0) = 0 then .unknownType
  else if kMsgLen (buf.getD (f.pos + 2) 0) ≠ f.len then .lengthMismatch
  else .ok

/-- The frame's prefix is counted as wrong. -/
def mismatched (framing : Framing) (buf : Bytes) (f : Frame) : Bool :=
  match framing with
  | .lengthPrefixed => f.verdict buf = .lengthMismatch
  | .zeroPrefixed => be16 buf f.pos ≠ 0

/-- The message that is dispatched for the frame. -/
def message (buf : Bytes) (f : Frame) : Option (MsgType × ℕ) :=
  if f.verdict buf = .ok then (MsgType.ofByte (buf.getD (f.pos + 2) 0)).map (·, f.pos + 2) else none

theorem len_of_ofByte {b : UInt8} {t : MsgType} (h : MsgType.ofByte b = some t) : t.len = kMsgLen b := by
  rw [← MsgType.byte_of_ofByte h, MsgType.len]

/-- A message lies on its frame's body and has its length. -/
theorem message_spec {buf : Bytes} {f : Frame} {e : MsgType × ℕ} (h : f.message buf = some e) :
    e.2 = f.pos + 2 ∧ e.1.len = f.len ∧ f.verdict buf = .ok := by
  unfold message at h
  by_cases hok : f.verdict buf = .ok
  · rw [if_pos hok] at h
    obtain ⟨t, ht, rfl⟩ := Option.map_eq_some_iff.mp h
    refine ⟨rfl, ?_, hok⟩
    unfold verdict at hok
    split_ifs at hok with h0 h1
    exact (len_of_ofByte ht).trans (not_not.mp h1)
  · rw [if_neg hok] at h
    cases h

/-- The type of an accepted frame is the one of its first octet. -/
theorem message_type {buf : Bytes} {f : Frame} {e : MsgType × ℕ} (h : f.message buf = some e) :
    MsgType.ofByte (buf.getD e.2 0) = some e.1 := by
  have hok := (message_spec h).2.2
  unfold message at h
  rw [if_pos hok] at h
  obtain ⟨t, ht, rfl⟩ := Option.map_eq_some_iff.mp h
  exact ht

/-- The hook call for the frame with its own view, when it is rejected. -/
def report (buf : Bytes) (f : Frame) : List HandlerCall := HandlerCall.hookCalls (f.verdict buf) f.view

end Frame

/-- The frame at `pos`, when the buffer holds all of it. -/
def frameAt (framing : Framing) (buf : Bytes) (pos : ℕ) : Option Frame :=
  match framing with
  | .lengthPrefixed =>
    if pos + 2 ≤ buf.length ∧ be16 buf pos ≠ 0 ∧ pos + 2 + be16 buf pos ≤ buf.length then
      some ⟨pos, be16 buf pos⟩
    else none
  | .zeroPrefixed =>
    if pos + 3 ≤ buf.length ∧ kMsgLen (buf.getD (pos + 2) 0) ≠ 0 ∧
        pos + 2 + kMsgLen (buf.getD (pos + 2) 0) ≤ buf.length then
      some ⟨pos, kMsgLen (buf.getD (pos + 2) 0)⟩
    else none

def framesFrom (framing : Framing) (buf : Bytes) : ℕ → ℕ → List Frame
  | 0, _ => []
  | fuel + 1, pos =>
    match frameAt framing buf pos with
    | none => []
    | some f => f :: framesFrom framing buf fuel f.stop

/-- The frames of a buffer; each takes at least three bytes. -/
def frames (framing : Framing) (buf : Bytes) : List Frame := framesFrom framing buf (buf.length + 1) 0

/-- The offset behind the last frame. -/
def framesEnd (fs : List Frame) (pos : ℕ) : ℕ := fs.foldl (fun _ f => f.stop) pos

section

variable {framing : Framing} {buf : Bytes} {pos fuel : ℕ} {f : Frame}

theorem frameAt_spec (h : frameAt framing buf pos = some f) :
    f.pos = pos ∧ 0 < f.len ∧ f.stop ≤ buf.length := by
  cases framing <;> simp only [frameAt, Option.ite_none_right_eq_some, Option.some.injEq] at h <;>
    obtain ⟨⟨-, hne, hle⟩, rfl⟩ := h
  · exact ⟨rfl, Nat.pos_of_ne_zero hne, hle⟩
  · exact ⟨rfl, Nat.pos_of_ne_zero hne, hle⟩

theorem lt_stop (h : frameAt framing buf pos = some f) : pos + 2 < f.stop := by
  obtain ⟨rfl, hlen, -⟩ := frameAt_spec h
  unfold Frame.stop
  omega

theorem framesFrom_none (h : frameAt framing buf pos = none) : framesFrom framing buf fuel pos = [] := by
  cases fuel with
  | zero => rfl
  | succ fuel => rw [framesFrom, h]

theorem framesFrom_some (h : frameAt framing buf pos = some f) :
    framesFrom framing buf (fuel + 1) pos = f :: framesFrom framing buf fuel f.stop := by
  rw [framesFrom, h]

/-- With enough fuel the frames end where no frame is. -/
theorem frameAt_framesEnd : ∀ {fuel pos : ℕ}, buf.length - pos < fuel →
    frameAt framing buf (framesEnd (framesFrom framing buf fuel pos) pos) = none
  | 0, _, h => absurd h (Nat.not_lt_zero _)
  | fuel + 1, pos, h => by
    cases hf : frameAt framing buf pos with
    | none => rw [framesFrom_none hf]; exact hf
    | some f =>
      have hlt := lt_stop hf
      have hle := (frameAt_spec hf).2.2
      rw [framesFrom_some hf]
      have hrest : buf.length - f.stop < fuel := by omega
      exact frameAt_framesEnd hrest

/-- Each frame is a frame of the buffer, where the one before it ends or later. -/
theorem mem_framesFrom : ∀ {fuel pos : ℕ}, f ∈ framesFrom framing buf fuel pos →
    frameAt framing buf f.pos = some f ∧ pos ≤ f.pos
  | 0, _, h => by cases h
  | fuel + 1, pos, h => by
    cases hf : frameAt framing buf pos with
    | none => rw [framesFrom_none hf] at h; cases h
    | some g =>
      have hpos := (frameAt_spec hf).1
      have hlt := lt_stop hf
      rw [framesFrom_some hf] at h
      rcases List.mem_cons.mp h with rfl | h
      · rw [hpos]; exact ⟨hf, le_rfl⟩
      · obtain ⟨hat, hle⟩ := mem_framesFrom h
        exact ⟨hat, by omega⟩

end

theorem framesFrom_pairwise {framing : Framing} {buf : Bytes} : ∀ {fuel pos : ℕ},
    (framesFrom framing buf fuel pos).Pairwise fun f g => f.stop ≤ g.pos
  | 0, _ => List.Pairwise.nil
  | fuel + 1, pos => by
    cases hf : frameAt framing buf pos with
    | none => rw [framesFrom_none hf]; exact List.Pairwise.nil
    | some f =>
      rw [framesFrom_some hf]
      exact List.Pairwise.cons (fun g hg => (mem_framesFrom hg).2) framesFrom_pairwise

/-- No two frames have the same view. -/
theorem frames_view_nodup (framing : Framing) (buf : Bytes) :
    ((frames framing buf).map Frame.view).Nodup := by
  rw [List.Nodup, List.pairwise_map]
  apply framesFrom_pairwise.imp
  intro f g hle heq
  have hpos : f.pos + 2 = g.pos + 2 := Option.some.inj (congrArg MsgView.data heq)
  have hlt : f.pos + 2 ≤ f.stop := Nat.le_add_right _ _
  omega

/-! ## The reader at a frame -/

namespace FrameReader

variable {rd : FrameReader} {m : MsgView} {f : Frame}

/-- The reader behind a frame. -/
def pass (rd : FrameReader) (f : Frame) : FrameReader :=
  { rd with
    pos := f.stop
    unknown := rd.unknown + if f.verdict rd.buf = .unknownType then 1 else 0
    mismatch := rd.mismatch + if f.mismatched rd.framing rd.buf then 1 else 0 }

theorem next_frame (h : frameAt rd.framing rd.buf rd.pos = some f) :
    rd.next m = (f.verdict rd.buf, rd.pass f, if f.verdict rd.buf = .ok then f.view else m) := by
  cases hfr : rd.framing with
  | lengthPrefixed =>
    simp only [hfr, frameAt, Option.ite_none_right_eq_some, Option.some.injEq] at h
    obtain ⟨⟨h2, hne, hle⟩, rfl⟩ := h
    have hlen : rd.pos ≠ rd.buf.length := by omega
    unfold next nextPrefixed pass Frame.verdict Frame.mismatched Frame.verdict
    simp only [hfr, hlen, hne, if_false, Nat.not_lt.mpr h2, Nat.not_lt.mpr hle]
    by_cases h4 : kMsgLen (rd.buf.getD (rd.pos + 2) 0) = 0
    · simp [h4, Frame.stop, -List.getD_eq_getElem?_getD]
    by_cases h5 : kMsgLen (rd.buf.getD (rd.pos + 2) 0) = be16 rd.buf rd.pos
    · simp [h5, hne, Frame.stop, Frame.view, -List.getD_eq_getElem?_getD]
    · simp [h4, h5, Frame.stop, -List.getD_eq_getElem?_getD]
  | zeroPrefixed =>
    simp only [hfr, frameAt, Option.ite_none_right_eq_some, Option.some.injEq] at h
    obtain ⟨⟨h3, hne, hle⟩, rfl⟩ := h
    have hlen : rd.pos ≠ rd.buf.length := by omega
    unfold next nextZeroPrefixed pass Frame.verdict Frame.mismatched
    by_cases h0 : be16 rd.buf rd.pos = 0 <;>
      simp [hfr, hlen, hne, h0, Nat.not_lt.mpr h3, Nat.not_lt.mpr hle, Frame.stop, Frame.view,
        -List.getD_eq_getElem?_getD]

theorem next_end (h : frameAt rd.framing rd.buf rd.pos = none) : (rd.next m).1.continues = false := by
  cases hfr : rd.framing with
  | lengthPrefixed =>
    simp only [hfr, frameAt, ite_eq_right_iff, reduceCtorEq, imp_false, not_and] at h
    unfold next nextPrefixed
    rw [hfr]
    by_cases h0 : rd.pos = rd.buf.length
    · simp [h0, FrameStatus.continues]
    by_cases h1 : rd.pos + 2 > rd.buf.length
    · simp [h0, h1, FrameStatus.continues]
    by_cases h2 : be16 rd.buf rd.pos = 0
    · simp [h0, h1, h2, FrameStatus.continues]
    have h3 := h (Nat.not_lt.mp h1) h2
    simp [h0, h1, h2, Nat.not_le.mp h3, FrameStatus.continues]
  | zeroPrefixed =>
    simp only [hfr, frameAt, ite_eq_right_iff, reduceCtorEq, imp_false, not_and] at h
    unfold next nextZeroPrefixed
    rw [hfr]
    by_cases h0 : rd.pos = rd.buf.length
    · simp [h0, FrameStatus.continues]
    by_cases h1 : rd.pos + 3 > rd.buf.length
    · simp [h0, h1, FrameStatus.continues]
    by_cases h2 : kMsgLen (rd.buf.getD (rd.pos + 2) 0) = 0
    · by_cases hp : be16 rd.buf rd.pos = 0 <;>
        simp [h0, h1, h2, hp, FrameStatus.continues, -List.getD_eq_getElem?_getD]
    have h3 := Nat.not_le.mp (h (Nat.not_lt.mp h1) h2)
    by_cases hp : be16 rd.buf rd.pos = 0 <;>
      simp [h0, h1, h2, h3, hp, FrameStatus.continues, -List.getD_eq_getElem?_getD]

/-- At the end of length-prefixed frames. -/
theorem nextPrefixed_end (hfr : rd.framing = .lengthPrefixed)
    (h : frameAt .lengthPrefixed rd.buf rd.pos = none) :
    rd.next m =
      if rd.pos = rd.buf.length then (.exhausted, rd, m)
      else if rd.pos + 2 ≤ rd.buf.length ∧ be16 rd.buf rd.pos = 0 then
        (.zeroLengthPrefix, { rd with pos := rd.pos + 2 }, m)
      else (.truncated, rd, m) := by
  simp only [frameAt, ite_eq_right_iff, reduceCtorEq, imp_false, not_and] at h
  unfold next nextPrefixed
  simp only [hfr]
  by_cases h0 : rd.pos = rd.buf.length
  · rw [if_pos h0, if_pos h0]
  rw [if_neg h0, if_neg h0]
  by_cases h1 : rd.pos + 2 > rd.buf.length
  · rw [if_pos h1, if_neg (by omega)]
  rw [if_neg h1]
  by_cases h2 : be16 rd.buf rd.pos = 0
  · rw [if_pos h2, if_pos ⟨Nat.not_lt.mp h1, h2⟩]
  have h3 := Nat.not_le.mp (h (Nat.not_lt.mp h1) h2)
  rw [if_neg h2, if_pos h3, if_neg (by simp [h2])]

/-- At the end of zero-prefixed frames. -/
theorem nextZeroPrefixed_end (hfr : rd.framing = .zeroPrefixed)
    (h : frameAt .zeroPrefixed rd.buf rd.pos = none) :
    (rd.next m).2.1.pos = rd.pos ∧
      (rd.next m).1 = (if rd.pos = rd.buf.length then .exhausted else .truncated) ∧
      (rd.pos = rd.buf.length → (rd.next m).2.1 = rd) := by
  simp only [frameAt, ite_eq_right_iff, reduceCtorEq, imp_false, not_and] at h
  unfold next nextZeroPrefixed
  simp only [hfr]
  by_cases h0 : rd.pos = rd.buf.length
  · simp [h0]
  by_cases h1 : rd.pos + 3 > rd.buf.length
  · simp [h0, h1]
  by_cases h2 : kMsgLen (rd.buf.getD (rd.pos + 2) 0) = 0
  · by_cases hp : be16 rd.buf rd.pos = 0 <;> simp [h0, h1, h2, hp, -List.getD_eq_getElem?_getD]
  have h3 := Nat.not_le.mp (h (Nat.not_lt.mp h1) h2)
  by_cases hp : be16 rd.buf rd.pos = 0 <;> simp [h0, h1, h2, h3, hp, -List.getD_eq_getElem?_getD]

/-- The reader behind a list of frames. -/
def passAll (rd : FrameReader) (fs : List Frame) : FrameReader := fs.foldl pass rd

@[simp] theorem passAll_buf (rd : FrameReader) (fs : List Frame) : (rd.passAll fs).buf = rd.buf := by
  induction fs generalizing rd with
  | nil => rfl
  | cons f fs ih => exact ih (rd.pass f)

@[simp] theorem passAll_framing (rd : FrameReader) (fs : List Frame) :
    (rd.passAll fs).framing = rd.framing := by
  induction fs generalizing rd with
  | nil => rfl
  | cons f fs ih => exact ih (rd.pass f)

@[simp] theorem passAll_pos (rd : FrameReader) (fs : List Frame) :
    (rd.passAll fs).pos = framesEnd fs rd.pos := by
  induction fs generalizing rd with
  | nil => rfl
  | cons f fs ih => exact ih (rd.pass f)

theorem passAll_unknown (rd : FrameReader) (fs : List Frame) :
    (rd.passAll fs).unknown = rd.unknown + fs.countP (·.verdict rd.buf = .unknownType) := by
  induction fs generalizing rd with
  | nil => rfl
  | cons f fs ih =>
    have hrest : ((rd.pass f).passAll fs).unknown =
        (rd.pass f).unknown + fs.countP (·.verdict rd.buf = .unknownType) := ih (rd.pass f)
    have hf : (rd.pass f).unknown = rd.unknown + if f.verdict rd.buf = .unknownType then 1 else 0 := rfl
    show ((rd.pass f).passAll fs).unknown = _
    rw [hrest, hf, List.countP_cons]
    simp only [decide_eq_true_eq]
    omega

theorem passAll_mismatch (rd : FrameReader) (fs : List Frame) :
    (rd.passAll fs).mismatch = rd.mismatch + fs.countP (·.mismatched rd.framing rd.buf) := by
  induction fs generalizing rd with
  | nil => rfl
  | cons f fs ih =>
    have hrest : ((rd.pass f).passAll fs).mismatch =
        (rd.pass f).mismatch + fs.countP (·.mismatched rd.framing rd.buf) := ih (rd.pass f)
    have hf : (rd.pass f).mismatch = rd.mismatch + if f.mismatched rd.framing rd.buf then 1 else 0 := rfl
    show ((rd.pass f).passAll fs).mismatch = _
    rw [hrest, hf, List.countP_cons]
    omega

end FrameReader

/-! ## The loop over the frames -/

namespace Parser

/-- The calls of the rounds over a list of frames, the view carried from round to round. -/
def callsFrom (buf : Bytes) : MsgView → List Frame → List HandlerCall
  | _, [] => []
  | m, f :: fs =>
    let m' := if f.verdict buf = .ok then f.view else m
    roundCalls buf (f.verdict buf) m' ++ callsFrom buf m' fs

theorem verdict_continues (buf : Bytes) (f : Frame) : (f.verdict buf).continues = true := by
  unfold Frame.verdict
  split_ifs <;> rfl

/-- **The loop passes all frames and makes one round more.** -/
theorem loop_frames : ∀ (fuel : ℕ) (rd : FrameReader) (m : MsgView), rd.buf.length - rd.pos < fuel →
    ∃ stop m', ((rd.passAll (framesFrom rd.framing rd.buf fuel rd.pos)).next m').1 = stop.status ∧
      loop fuel rd m = some
        ⟨stop, ((rd.passAll (framesFrom rd.framing rd.buf fuel rd.pos)).next m').2.1,
          (framesFrom rd.framing rd.buf fuel rd.pos).countP (·.verdict rd.buf = .ok),
          callsFrom rd.buf m (framesFrom rd.framing rd.buf fuel rd.pos)⟩
  | 0, _, _, h => absurd h (Nat.not_lt_zero _)
  | fuel + 1, rd, m, h => by
    cases hf : frameAt rd.framing rd.buf rd.pos with
    | none =>
      obtain ⟨stop, hk, hst⟩ := loop_stop fuel (FrameReader.next_end (m := m) hf)
      rw [framesFrom_none hf]
      exact ⟨stop, m, hst, hk⟩
    | some f =>
      have hlt := lt_stop hf
      have hle := (frameAt_spec hf).2.2
      have hnext := FrameReader.next_frame (m := m) hf
      have hc : (rd.next m).1.continues = true := by rw [hnext]; exact verdict_continues rd.buf f
      obtain ⟨stop, m', hst, hk⟩ := loop_frames fuel (rd.pass f)
        (if f.verdict rd.buf = .ok then f.view else m)
        (by show rd.buf.length - f.stop < fuel; omega)
      refine ⟨stop, m', ?_, ?_⟩
      · rw [framesFrom_some hf]
        exact hst
      · rw [framesFrom_some hf, loop_continue hc, hnext]
        simp only
        rw [hk]
        simp only [Option.map_some, Rounds.after, List.countP_cons, decide_eq_true_eq, callsFrom]
        congr 2
        exact Nat.add_comm _ _

/-- The reader at the start of a buffer. -/
def start (buf : Bytes) (framing : Framing) : FrameReader := { buf := buf, framing := framing }

@[simp] theorem start_buf (buf : Bytes) (framing : Framing) : (start buf framing).buf = buf := rfl

@[simp] theorem start_framing (buf : Bytes) (framing : Framing) :
    (start buf framing).framing = framing := rfl

@[simp] theorem start_pos (buf : Bytes) (framing : Framing) : (start buf framing).pos = 0 := rfl

/-- What a run returns, from the frames of the buffer. -/
theorem runAs_frames (buf : Bytes) (framing : Framing) :
    ∃ stop rd' m' m'',
      ((start buf framing).passAll (frames framing buf)).next m' = (stop.status, rd', m'') ∧
      runAs buf framing = some
        ({ dispatched := (frames framing buf).countP (·.verdict buf = .ok)
           unknown := rd'.unknown
           mismatch := rd'.mismatch
           bytes := rd'.pos
           trailing := buf.length - rd'.pos
           stop := stop
           framing := framing }, callsFrom buf {} (frames framing buf)) := by
  obtain ⟨stop, m', hst, hk⟩ := loop_frames (buf.length + 1) (start buf framing) {}
    (by show buf.length - 0 < _; omega)
  refine ⟨stop, _, m', _, Prod.ext hst rfl, ?_⟩
  show (loop _ (start buf framing) {}).map _ = _
  rw [hk]
  rfl

/-! ## What a handler gets -/

variable {buf : Bytes} {m : MsgView} {fs : List Frame}

theorem roundCalls_message (f : Frame) (m : MsgView) :
    (roundCalls buf (f.verdict buf) (if f.verdict buf = .ok then f.view else m)).filterMap
      HandlerCall.message = (f.message buf).toList := by
  unfold Frame.message
  by_cases hok : f.verdict buf = .ok
  · rw [if_pos hok, if_pos hok, hok]
    show (dispatch buf (f.pos + 2)).filterMap _ = _
    unfold dispatch
    cases MsgType.ofByte (buf.getD (f.pos + 2) 0) <;> rfl
  · rw [if_neg hok, if_neg hok]
    unfold Frame.verdict at hok ⊢
    split_ifs at hok ⊢ <;> first | rfl | exact absurd rfl hok

/-- `on` is called for the accepted frames, in order. -/
theorem callsFrom_message :
    (callsFrom buf m fs).filterMap HandlerCall.message = fs.filterMap (Frame.message buf) := by
  induction fs generalizing m with
  | nil => rfl
  | cons f fs ih =>
    rw [callsFrom, List.filterMap_append, roundCalls_message, ih, List.filterMap_cons]
    cases f.message buf <;> rfl

/-- Each message handed over is of the type of its first octet. -/
def Typed (buf : Bytes) (calls : List HandlerCall) : Prop :=
  ∀ e ∈ calls.filterMap HandlerCall.message, MsgType.ofByte (buf.getD e.2 0) = some e.1

theorem typed_callsFrom (buf : Bytes) (m : MsgView) (fs : List Frame) : Typed buf (callsFrom buf m fs) := by
  intro e he
  rw [callsFrom_message] at he
  obtain ⟨f, -, hf⟩ := List.mem_filterMap.mp he
  exact Frame.message_type hf

/-- A run returns, and what it hands over is typed. -/
theorem exists_runAs (buf : Bytes) (framing : Framing) :
    ∃ st calls, runAs buf framing = some (st, calls) ∧ Typed buf calls := by
  obtain ⟨stop, rd', m', m'', -, hrun⟩ := runAs_frames buf framing
  exact ⟨_, _, hrun, typed_callsFrom _ _ _⟩

theorem typed_runAs {framing : Framing} {st : ParseStats} {calls : List HandlerCall}
    (h : runAs buf framing = some (st, calls)) : Typed buf calls := by
  obtain ⟨st', calls', hrun, htyped⟩ := exists_runAs buf framing
  obtain ⟨-, rfl⟩ := Prod.mk.inj (Option.some.inj (h.symm.trans hrun))
  exact htyped

theorem roundCalls_isHook (st : FrameStatus) (m : MsgView) :
    (roundCalls buf st m).filter HandlerCall.isHook = HandlerCall.hookCalls st m := by
  cases st with
  | ok =>
    show (m.data.elim [] (dispatch buf)).filter _ = []
    cases m.data with
    | none => rfl
    | some p =>
      rw [Option.elim_some]
      unfold dispatch
      cases MsgType.ofByte (buf.getD p 0) <;> rfl
  | _ => rfl

/-- The hooks are called for the rejected frames, each call with the view of an earlier frame or the null
view. -/
theorem callsFrom_isHook (h : (m :: fs.map Frame.view).Nodup) :
    List.Forall₂ (· ≠ ·) ((callsFrom buf m fs).filter HandlerCall.isHook)
      (fs.flatMap (Frame.report buf)) := by
  induction fs generalizing m with
  | nil => exact .nil
  | cons f fs ih =>
    rw [callsFrom, List.filter_append, roundCalls_isHook, List.flatMap_cons]
    obtain ⟨hne, htail⟩ := List.nodup_cons.mp h
    by_cases hok : f.verdict buf = .ok
    · rw [if_pos hok, Frame.report, hok]
      exact ih htail
    · rw [if_neg hok]
      have hm : m ≠ f.view := fun heq => hne (by simp [heq])
      apply List.rel_append _ (ih (h.sublist (by simp)))
      unfold Frame.report Frame.verdict at *
      split_ifs at hok ⊢
      · exact .cons (fun heq => hm (HandlerCall.onUnknownType.inj heq)) .nil
      · exact .cons (fun heq => hm (HandlerCall.onLengthMismatch.inj heq)) .nil
      · exact absurd rfl hok

theorem report_eq_nil {f : Frame} : f.report buf = [] ↔ f.verdict buf = .ok := by
  unfold Frame.report Frame.verdict
  split_ifs <;> simp [HandlerCall.hookCalls]

/-- **What the hooks get.** The hook calls are the rejected frames with their own views only when no frame
is rejected: a rejected frame leaves the view as it was. -/
theorem hooks_own_frame (buf : Bytes) :
    (∃ st calls, runAs buf .lengthPrefixed = some (st, calls) ∧
      calls.filter HandlerCall.isHook = (frames .lengthPrefixed buf).flatMap (Frame.report buf)) ↔
    ∀ f ∈ frames .lengthPrefixed buf, f.verdict buf = .ok := by
  obtain ⟨stop, rd', m', m'', -, hrun⟩ := runAs_frames buf .lengthPrefixed
  have hhooks : List.Forall₂ (· ≠ ·)
      ((callsFrom buf {} (frames .lengthPrefixed buf)).filter HandlerCall.isHook)
      ((frames .lengthPrefixed buf).flatMap (Frame.report buf)) := by
    apply callsFrom_isHook
    apply List.nodup_cons.mpr ⟨_, frames_view_nodup _ _⟩
    intro hmem
    obtain ⟨f, -, hf⟩ := List.mem_map.mp hmem
    cases congrArg MsgView.data hf
  constructor
  · rintro ⟨st, calls, hst, heq⟩ f hf
    rw [hrun] at hst
    obtain ⟨-, rfl⟩ := Prod.mk.inj (Option.some.inj hst)
    rw [heq] at hhooks
    apply report_eq_nil.mp
    apply List.eq_nil_iff_forall_not_mem.mpr
    intro c hc
    have hall := List.forall₂_same.mp hhooks c (List.mem_flatMap.mpr ⟨f, hf, hc⟩)
    exact hall rfl
  · intro hok
    refine ⟨_, _, hrun, ?_⟩
    have hnil : (frames .lengthPrefixed buf).flatMap (Frame.report buf) = [] :=
      List.flatMap_eq_nil_iff.mpr fun f hf => report_eq_nil.mpr (hok f hf)
    rw [hnil] at hhooks ⊢
    exact List.forall₂_nil_right_iff.mp hhooks

/-- One frame of the unknown type `~`: the hook gets the null view. -/
theorem hooks_own_frame_unknown :
    ¬ ∃ st calls, runAs [0, 1, 0x7E] .lengthPrefixed = some (st, calls) ∧
      calls.filter HandlerCall.isHook =
        (frames .lengthPrefixed [0, 1, 0x7E]).flatMap (Frame.report [0, 1, 0x7E]) := by
  rintro ⟨st, calls, hrun, heq⟩
  have hcalls : (runAs [0, 1, 0x7E] .lengthPrefixed).map Prod.snd = some [.onUnknownType {}] := by
    decide +kernel
  have hreports : (frames .lengthPrefixed [0, 1, 0x7E]).flatMap (Frame.report [0, 1, 0x7E]) =
      [.onUnknownType { data := some 2, len := 1 }] := by decide +kernel
  rw [hrun] at hcalls
  obtain rfl : calls = [.onUnknownType {}] := Option.some.inj hcalls
  rw [hreports] at heq
  exact absurd heq (by decide)

end Parser

end Carteret
