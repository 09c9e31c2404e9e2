import Carteret.MessageCodec
import Carteret.ParserFrames

/-!
# The parser on any bytes

1. An accessor's value depends on the octets of its message alone (`Read.value_congr`).
2. The frames of a prefix of the buffer are the frames that end in it (`framesFrom_take`).
3. The loop ends, what it dispatches lies in the buffer, and on a prefix it dispatches the messages that lie
   wholly in the prefix (`runAs_safe`).
-/

namespace Carteret

/-! ## What an accessor depends on -/

theorem slice_slice {b : Bytes} {p n i k : ℕ} (h : i + k ≤ n) :
    slice (slice b p n) i k = slice b (p + i) k := by
  unfold slice
  rw [List.drop_take, List.take_take, List.drop_drop, Nat.min_eq_left (by omega)]

section

variable {b b' : Bytes} {p n : ℕ}

theorem alphaLen_congr (hs : slice b p n = slice b' p n) : ∀ {k : ℕ}, k ≤ n →
    alphaLen b p k = alphaLen b' p k
  | 0, _ => rfl
  | k + 1, hk => by
    have hget := congrArg (fun l : Bytes => l.getD k 0) hs
    simp only [getD_slice, if_pos (show k < n from hk)] at hget
    unfold alphaLen
    rw [hget, alphaLen_congr hs (by omega : k ≤ n)]

theorem alpha_congr (hs : slice b p n = slice b' p n) : alpha b p n = alpha b' p n := by
  have hle := (alphaLen_spec b' p n).1
  have hpre := congrArg (fun l => slice l 0 (alphaLen b' p n)) hs
  simp only [slice_slice (show 0 + alphaLen b' p n ≤ n by omega), Nat.add_zero] at hpre
  unfold alpha
  rw [alphaLen_congr hs le_rfl, hpre]

/-- Octets outside the message do not matter. -/
theorem Read.value_congr {r : Read} (h : p + n ≤ b.length) (h' : p + n ≤ b'.length)
    (hs : slice b p n = slice b' p n) (ht : r.touched.off + r.touched.len ≤ n) :
    r.value b p = r.value b' p := by
  have hfield := r.field_le_touched
  by_cases hr : ∃ off k, r = .alpha off k
  · obtain ⟨off, k, rfl⟩ := hr
    apply congrArg FieldValue.text
    apply alpha_congr
    rw [← slice_slice (show off + k ≤ n from ht), hs, slice_slice (show off + k ≤ n from ht)]
  · have hr' : ∀ off k, r ≠ .alpha off k := fun off k hc => hr ⟨off, k, hc⟩
    rw [Read.value_int (by omega) hr', Read.value_int (by omega) hr',
      ← slice_slice (show r.field.off + r.field.len ≤ n by omega), hs,
      slice_slice (show r.field.off + r.field.len ≤ n by omega)]

end

/-! ## Prefixes of a buffer -/

section

variable {framing : Framing} {buf : Bytes} {n : ℕ}

theorem byteAt_take {i : ℕ} (h : i < n) : byteAt (buf.take n) i = byteAt buf i := by
  unfold byteAt
  rw [List.getD_eq_getElem?_getD, List.getElem?_take_of_lt h, ← List.getD_eq_getElem?_getD]

theorem be16_take {p : ℕ} (h : p + 2 ≤ n) : be16 (buf.take n) p = be16 buf p := by
  unfold be16
  rw [byteAt_take (by omega), byteAt_take (by omega)]

theorem getD_take {i : ℕ} (h : i < n) : (buf.take n).getD i 0 = buf.getD i 0 := by
  rw [List.getD_eq_getElem?_getD, List.getElem?_take_of_lt h, ← List.getD_eq_getElem?_getD]

/-- The prefix has the frames that end in it. -/
theorem frameAt_take (framing : Framing) (hn : n ≤ buf.length) (pos : ℕ) :
    frameAt framing (buf.take n) pos = (frameAt framing buf pos).filter (·.stop ≤ n) := by
  have hlen : (buf.take n).length = n := by rw [List.length_take, Nat.min_eq_left hn]
  cases framing with
  | lengthPrefixed =>
    unfold frameAt
    simp only [hlen]
    by_cases h2 : pos + 2 ≤ n
    · rw [be16_take h2]
      split_ifs with h h' h'
      · simp [Option.filter, Frame.stop, h.2.2]
      · exact absurd ⟨by omega, h.2.1, h.2.2.trans hn⟩ h'
      · have hgt : ¬ pos + 2 + be16 buf pos ≤ n := fun hc => h ⟨h2, h'.2.1, hc⟩
        simp [Option.filter, Frame.stop, hgt]
      · rfl
    · rw [if_neg (fun h => h2 h.1)]
      split_ifs
      · have hgt : ¬ pos + 2 + be16 buf pos ≤ n := by omega
        simp [Option.filter, Frame.stop, hgt]
      · rfl
  | zeroPrefixed =>
    unfold frameAt
    simp only [hlen]
    by_cases h3 : pos + 3 ≤ n
    · rw [getD_take (by omega : pos + 2 < n)]
      split_ifs with h h' h'
      · simp only [Option.filter, Frame.stop, h.2.2, decide_true, if_true]
      · exact absurd ⟨by omega, h.2.1, h.2.2.trans hn⟩ h'
      · have hgt : ¬ pos + 2 + kMsgLen (buf.getD (pos + 2) 0) ≤ n := fun hc => h ⟨h3, h'.2.1, hc⟩
        simp only [Option.filter, Frame.stop, hgt, decide_false]
        rfl
      · rfl
    · rw [if_neg (fun h => h3 h.1)]
      split_ifs with h
      · have hgt : ¬ pos + 2 + kMsgLen (buf.getD (pos + 2) 0) ≤ n := by
          have hne := h.2.1
          omega
        simp only [Option.filter, Frame.stop, hgt, decide_false]
        rfl
      · rfl

theorem framesFrom_take (hn : n ≤ buf.length) : ∀ {fuel pos : ℕ},
    framesFrom framing (buf.take n) fuel pos = (framesFrom framing buf fuel pos).filter (·.stop ≤ n)
  | 0, _ => rfl
  | fuel + 1, pos => by
    have hat := frameAt_take framing hn pos
    cases hf : frameAt framing buf pos with
    | none =>
      rw [hf] at hat
      rw [framesFrom_none hat, framesFrom_none hf]
      rfl
    | some f =>
      rw [hf] at hat
      rw [framesFrom_some hf]
      by_cases hle : f.stop ≤ n
      · have hsome : frameAt framing (buf.take n) pos = some f := hat.trans (by simp [Option.filter, hle])
        rw [framesFrom_some hsome, List.filter_cons_of_pos (by simpa), framesFrom_take hn]
      · have hnone : frameAt framing (buf.take n) pos = none := hat.trans (by simp [Option.filter, hle])
        rw [framesFrom_none hnone, List.filter_cons_of_neg (by simpa using hle), eq_comm,
          List.filter_eq_nil_iff]
        intro g hg
        obtain ⟨hgat, hgpos⟩ := mem_framesFrom hg
        have hlt := lt_stop hgat
        simp only [decide_eq_true_eq]
        omega

/-- With enough fuel more changes nothing. -/
theorem framesFrom_of_le : ∀ {fuel fuel' pos : ℕ}, buf.length - pos < fuel → fuel ≤ fuel' →
    framesFrom framing buf fuel' pos = framesFrom framing buf fuel pos
  | 0, _, _, h, _ => absurd h (Nat.not_lt_zero _)
  | fuel + 1, 0, _, _, h => absurd h (Nat.not_succ_le_zero _)
  | fuel + 1, fuel' + 1, pos, h, hle => by
    cases hf : frameAt framing buf pos with
    | none => rw [framesFrom_none hf, framesFrom_none hf]
    | some f =>
      have hlt := lt_stop hf
      have hstop := (frameAt_spec hf).2.2
      rw [framesFrom_some hf, framesFrom_some hf, framesFrom_of_le (by omega) (Nat.le_of_succ_le_succ hle)]

theorem frames_take (hn : n ≤ buf.length) :
    frames framing (buf.take n) = (frames framing buf).filter (·.stop ≤ n) := by
  have hlen : (buf.take n).length = n := by rw [List.length_take, Nat.min_eq_left hn]
  unfold frames
  have hfuel : framesFrom framing (buf.take n) (buf.length + 1) 0 =
      framesFrom framing (buf.take n) (n + 1) 0 := framesFrom_of_le (by omega) (by omega)
  rw [hlen, ← hfuel, framesFrom_take hn]

/-! ## Boundaries -/

/-- The offsets between frames. -/
def boundaries (framing : Framing) (buf : Bytes) : List ℕ := 0 :: (frames framing buf).map Frame.stop

theorem framesEnd_mem (fs : List Frame) (pos : ℕ) : framesEnd fs pos ∈ pos :: fs.map Frame.stop := by
  induction fs generalizing pos with
  | nil => exact List.mem_singleton.mpr rfl
  | cons f fs ih => exact List.mem_cons_of_mem _ (ih f.stop)

/-- A boundary at which no frame is is the end. -/
theorem eq_framesEnd : ∀ {fuel pos x : ℕ}, x ∈ pos :: (framesFrom framing buf fuel pos).map Frame.stop →
    frameAt framing buf x = none → x = framesEnd (framesFrom framing buf fuel pos) pos
  | 0, _, _, hx, _ => List.mem_singleton.mp hx
  | fuel + 1, pos, x, hx, hnone => by
    cases hf : frameAt framing buf pos with
    | none =>
      rw [framesFrom_none hf] at hx ⊢
      exact List.mem_singleton.mp hx
    | some f =>
      rw [framesFrom_some hf] at hx ⊢
      rcases List.mem_cons.mp hx with rfl | hx
      · rw [hf] at hnone
        cases hnone
      · exact eq_framesEnd hx hnone

theorem le_framesEnd : ∀ {fuel pos x : ℕ}, x ∈ pos :: (framesFrom framing buf fuel pos).map Frame.stop →
    x ≤ framesEnd (framesFrom framing buf fuel pos) pos
  | 0, _, _, hx => (List.mem_singleton.mp hx).le
  | fuel + 1, pos, x, hx => by
    cases hf : frameAt framing buf pos with
    | none =>
      rw [framesFrom_none hf] at hx ⊢
      exact (List.mem_singleton.mp hx).le
    | some f =>
      have hlt := lt_stop hf
      rw [framesFrom_some hf] at hx ⊢
      rcases List.mem_cons.mp hx with rfl | hx
      · have hf' : f.stop ≤ framesEnd (framesFrom framing buf fuel f.stop) f.stop :=
          le_framesEnd (List.mem_cons_self ..)
        show x ≤ framesEnd _ f.stop
        omega
      · exact le_framesEnd hx

theorem framesEnd_le (framing : Framing) (buf : Bytes) : framesEnd (frames framing buf) 0 ≤ buf.length := by
  rcases List.mem_cons.mp (framesEnd_mem (frames framing buf) 0) with h | h
  · rw [h]
    exact Nat.zero_le _
  · obtain ⟨f, hf, hstop⟩ := List.mem_map.mp h
    rw [← hstop]
    exact (frameAt_spec (mem_framesFrom hf).1).2.2

end

/-! ## Runs -/

namespace Parser

variable {framing : Framing} {buf : Bytes}

/-- At the end of the frames the cursor moves at most past a zero prefix, and stays in the buffer. -/
theorem next_pos_le (rd : FrameReader) (m : MsgView) (hpos : rd.pos ≤ rd.buf.length)
    (h : frameAt rd.framing rd.buf rd.pos = none) :
    rd.pos ≤ (rd.next m).2.1.pos ∧ (rd.next m).2.1.pos ≤ rd.pos + 2 ∧
      (rd.next m).2.1.pos ≤ rd.buf.length := by
  have hle := (FrameReader.next_step rd m).pos_le hpos
  cases hfr : rd.framing with
  | lengthPrefixed =>
    rw [hfr] at h
    rw [FrameReader.nextPrefixed_end hfr h] at hle ⊢
    split_ifs at hle ⊢ <;> simp only at hle ⊢ <;> omega
  | zeroPrefixed =>
    rw [hfr] at h
    have heq := (FrameReader.nextZeroPrefixed_end (m := m) hfr h).1
    omega

/-- The end of a run on a buffer that ends where no zero prefix begins. -/
theorem status_end {rd : FrameReader} {m : MsgView} (h : frameAt rd.framing rd.buf rd.pos = none)
    (hz : rd.framing = .lengthPrefixed → rd.pos + 2 ≤ rd.buf.length → be16 rd.buf rd.pos ≠ 0) :
    (rd.next m).1 = if rd.pos = rd.buf.length then .exhausted else .truncated := by
  cases hfr : rd.framing with
  | lengthPrefixed =>
    rw [hfr] at h
    rw [FrameReader.nextPrefixed_end hfr h]
    split_ifs with h0 h1
    · rfl
    · exact absurd h1.2 (hz hfr h1.1)
    · rfl
  | zeroPrefixed =>
    rw [hfr] at h
    exact (FrameReader.nextZeroPrefixed_end hfr h).2.1

theorem frameAt_passAll (framing : Framing) (buf : Bytes) :
    frameAt framing buf ((start buf framing).passAll (frames framing buf)).pos = none := by
  rw [FrameReader.passAll_pos]
  exact frameAt_framesEnd (Nat.lt_succ_self _)

/-- The messages of the frames that end in a prefix. -/
theorem message_take {n : ℕ} (hn : n ≤ buf.length) :
    (frames framing (buf.take n)).filterMap (Frame.message (buf.take n)) =
      ((frames framing buf).filterMap (Frame.message buf)).filter fun e => e.2 + e.1.len ≤ n := by
  rw [frames_take hn, List.filter_filterMap, List.filterMap_filter]
  apply List.filterMap_congr
  intro f hf
  obtain ⟨-, hlen, -⟩ := frameAt_spec (mem_framesFrom hf).1
  have hstop : f.stop = f.pos + 2 + f.len := rfl
  by_cases hle : f.stop ≤ n
  · have htype : (buf.take n).getD (f.pos + 2) 0 = buf.getD (f.pos + 2) 0 := getD_take (by omega)
    have heq : f.message (buf.take n) = f.message buf := by
      unfold Frame.message Frame.verdict
      rw [htype]
    rw [if_pos (by simpa using hle), heq]
    cases hm : f.message buf with
    | none => rfl
    | some e =>
      obtain ⟨h2, h1, -⟩ := Frame.message_spec hm
      have hin : e.2 + e.1.len ≤ n := by rw [h2, h1]; exact hle
      simp [Option.filter, hin]
  · rw [if_neg (by simpa using hle)]
    cases hm : f.message buf with
    | none => rfl
    | some e =>
      obtain ⟨h2, h1, -⟩ := Frame.message_spec hm
      have hout : ¬ e.2 + e.1.len ≤ n := by rw [h2, h1]; exact hle
      simp [Option.filter, hout]

/-- Where a run on a prefix ends. -/
theorem stop_take (framing : Framing) {n : ℕ} (hn : n ≤ buf.length)
    (hn' : n < framesEnd (frames framing buf) 0 + 2) (m : MsgView) :
    (((start (buf.take n) framing).passAll (frames framing (buf.take n))).next m).1 =
      if n ∈ boundaries framing buf then .exhausted else .truncated := by
  have hlen : (buf.take n).length = n := by rw [List.length_take, Nat.min_eq_left hn]
  set e := framesEnd (frames framing (buf.take n)) 0 with he
  have hpos : ((start (buf.take n) framing).passAll (frames framing (buf.take n))).pos = e := by
    rw [FrameReader.passAll_pos, start_pos]
  have hnone := frameAt_passAll framing (buf.take n)
  rw [hpos] at hnone
  have hele : e ≤ n := hlen ▸ framesEnd_le framing (buf.take n)
  -- the end of the prefix's frames is a boundary of the whole buffer
  have hmem : e ∈ boundaries framing buf := by
    rcases List.mem_cons.mp (framesEnd_mem (frames framing (buf.take n)) 0) with h | h
    · exact List.mem_cons.mpr (Or.inl h)
    · obtain ⟨f, hf, hstop⟩ := List.mem_map.mp h
      rw [frames_take hn] at hf
      exact List.mem_cons_of_mem _ (List.mem_map.mpr ⟨f, (List.mem_filter.mp hf).1, hstop⟩)
  have hiff : n ∈ boundaries framing buf ↔ e = n := by
    constructor
    · intro hnb
      apply Nat.le_antisymm hele
      apply le_framesEnd
      rcases List.mem_cons.mp hnb with h | h
      · exact List.mem_cons.mpr (Or.inl h)
      · obtain ⟨f, hf, hstop⟩ := List.mem_map.mp h
        apply List.mem_cons_of_mem
        apply List.mem_map.mpr ⟨f, _, hstop⟩
        show f ∈ frames framing (buf.take n)
        rw [frames_take hn]
        exact List.mem_filter.mpr ⟨hf, by simpa using hstop.le⟩
    · intro heq
      rw [← heq]
      exact hmem
  rw [status_end]
  · rw [hpos, FrameReader.passAll_buf, start_buf, hlen]
    simp only [hiff]
  · rw [FrameReader.passAll_framing, FrameReader.passAll_buf, start_buf, start_framing, hpos]
    exact hnone
  · -- a zero prefix inside the cut would end the whole run before the cut
    rw [FrameReader.passAll_framing, FrameReader.passAll_buf, start_buf, start_framing, hpos, hlen]
    rintro rfl h2 hzero
    rw [be16_take h2] at hzero
    have hend : e = framesEnd (frames .lengthPrefixed buf) 0 :=
      eq_framesEnd hmem (if_neg fun h => h.2.1 hzero)
    omega

/-- **Safety on any bytes.** The run ends; the messages lie in the buffer one behind the other and no
accessor depends on octets outside its message; what was not consumed is counted as trailing; and the run on a
prefix is the run on the whole up to the cut. -/
theorem runAs_safe (buf : Bytes) (framing : Framing) :
    ∃ st calls, runAs buf framing = some (st, calls) ∧
      (∀ e ∈ calls.filterMap HandlerCall.message,
        MsgType.ofByte (buf.getD e.2 0) = some e.1 ∧ e.2 + e.1.len ≤ buf.length ∧
        ∀ r ∈ View.accessors e.1, r.touched.off + r.touched.len ≤ e.1.len ∧
          ∀ buf', slice buf' e.2 e.1.len = slice buf e.2 e.1.len → r.value buf' e.2 = r.value buf e.2) ∧
      (calls.filterMap HandlerCall.message).Pairwise (fun d e => d.2 + d.1.len ≤ e.2) ∧
      st.bytes ≤ buf.length ∧ st.bytes + st.trailing = buf.length ∧
      ∀ n < st.bytes, ∃ st' calls', runAs (buf.take n) framing = some (st', calls') ∧
        calls'.filterMap HandlerCall.message =
          (calls.filterMap HandlerCall.message).filter (fun e => e.2 + e.1.len ≤ n) ∧
        st'.stop = if n ∈ boundaries framing buf then .exhausted else .truncated := by
  obtain ⟨stop, rd', m', m'', hnext, hrun⟩ := runAs_frames buf framing
  have hpos : ((start buf framing).passAll (frames framing buf)).pos = framesEnd (frames framing buf) 0 := by
    rw [FrameReader.passAll_pos, start_pos]
  have hcursor := next_pos_le ((start buf framing).passAll (frames framing buf)) m'
    (by rw [hpos, FrameReader.passAll_buf]; exact framesEnd_le framing buf)
    (by rw [FrameReader.passAll_framing, FrameReader.passAll_buf]; exact frameAt_passAll framing buf)
  rw [hnext, FrameReader.passAll_buf, start_buf, hpos] at hcursor
  obtain ⟨-, hle2 : rd'.pos ≤ _, hle : rd'.pos ≤ _⟩ := hcursor
  refine ⟨_, _, hrun, ?_, ?_, hle, Nat.add_sub_cancel' hle, ?_⟩
  · intro e he
    rw [callsFrom_message] at he
    obtain ⟨f, hf, hm⟩ := List.mem_filterMap.mp he
    obtain ⟨-, hlen, hstop⟩ := frameAt_spec (mem_framesFrom hf).1
    obtain ⟨h2, h1, -⟩ := Frame.message_spec hm
    have hin : e.2 + e.1.len ≤ buf.length := by rw [h2, h1]; exact hstop
    refine ⟨Frame.message_type hm, hin, fun r hr => ?_⟩
    have htouched := accessors_touched e.1 r hr
    refine ⟨htouched, fun buf' hs => Read.value_congr ?_ hin hs htouched⟩
    have hlen' := congrArg List.length hs
    rw [length_slice hin, slice, List.length_take, List.length_drop] at hlen'
    omega
  · rw [callsFrom_message]
    apply List.Pairwise.filterMap _ _ framesFrom_pairwise
    intro f g hfg d hd e he
    obtain ⟨hd2, hd1, -⟩ := Frame.message_spec hd
    obtain ⟨he2, -, -⟩ := Frame.message_spec he
    have hstop : f.stop = f.pos + 2 + f.len := rfl
    omega
  · intro n hn
    have hn : n < rd'.pos := hn
    have hn' : n ≤ buf.length := by omega
    obtain ⟨stop', rd'', k', k'', hnext', hrun'⟩ := runAs_frames (buf.take n) framing
    refine ⟨_, _, hrun', ?_, ?_⟩
    · rw [callsFrom_message, callsFrom_message, message_take hn']
    · have hst := stop_take framing hn' (by omega) k'
      rw [hnext'] at hst
      apply ParseEnd.status_injective
      rw [show stop'.status = _ from hst]
      split_ifs <;> rfl

end Parser

end Carteret
