import Carteret.ParserRoundTrip
import Carteret.ParserSafety

/-!
# The census gate

`census` replays a file through the parser and accepts it when the framing understood every byte and the last
message is System Event `'C'`.

1. The handler and the verdict.
2. `ends_on_c_iff`: the handler remembers the last message.
3. A file that is cut inside its last message does not end on `'C'` (`census_cut`).
4. `gate_exact`: the verdict accepts complete sessions, and rejects cut ones and those with a bad frame.
-/

namespace Carteret

/-- The framing walked the whole input and understood all of it. -/
def ParseStats.clean (st : ParseStats) : Bool :=
  st.stop != .truncated && st.unknown == 0 && st.mismatch == 0 && st.trailing == 0

structure Census where
  counts : UInt8 → ℕ := fun _ => 0
  firstTs : ℕ := 0
  lastTs : ℕ := 0
  sawFirst : Bool := false
  sawEndOfSystemHours : Bool := false
  lastType : UInt8 := 0
  lastEventCode : UInt8 := 0
  afterEndOfSystemHours : ℕ := 0

namespace Census

def record (c : Census) (type : UInt8) (ts : ℕ) : Census :=
  { c with
    counts := Function.update c.counts type (c.counts type + 1)
    lastType := type
    lastEventCode := if type ≠ 83 then 0 else c.lastEventCode
    firstTs := if c.sawFirst then c.firstTs else ts
    sawFirst := true
    lastTs := ts
    afterEndOfSystemHours :=
      if c.sawEndOfSystemHours then c.afterEndOfSystemHours + 1 else c.afterEndOfSystemHours }

/-- The handler; it has no hooks. -/
def on (buf : Bytes) (c : Census) : HandlerCall → Census
  | .on .systemEvent p =>
    let c := c.record (buf.getD p 0) (timestamp buf p)
    let code := buf.getD (p + 11) 0
    { c with
      lastEventCode := code
      sawEndOfSystemHours := if code = 69 then true else c.sawEndOfSystemHours }
  | .on _ p => c.record (buf.getD p 0) (timestamp buf p)
  | _ => c

/-- The census after the calls of a run. -/
def of (buf : Bytes) (calls : List HandlerCall) : Census := calls.foldl (on buf) {}

/-- `ends_on_c`. -/
def endsOnC (c : Census) : Bool := c.lastType == 83 && c.lastEventCode == 67

end Census

/-- `main`: the file is accepted, when the parser returns. -/
def census (buf : Bytes) : Option Bool :=
  (Parser.run buf).map fun r => r.1.clean && (Census.of buf r.2).endsOnC

/-! ## The last message -/

/-- A System Event `'C'`. -/
def EndsMessages (body : Bytes) : Prop := body.getD 0 0 = 83 ∧ body.getD 11 0 = 67

instance (body : Bytes) : Decidable (EndsMessages body) := by unfold EndsMessages; infer_instance

section

variable {buf : Bytes} {calls : List HandlerCall}

/-- **The census remembers the last message.** -/
theorem ends_on_c_iff (h : Parser.Typed buf calls) : (Census.of buf calls).endsOnC = true ↔
    ∃ body, (messages buf calls).getLast? = some (.systemEvent, body) ∧ body.getD 11 0 = 67 := by
  induction calls using List.reverseRecOn with
  | nil => exact iff_of_false Bool.false_ne_true (by simp [messages])
  | append_singleton calls c ih =>
    have hof : Census.of buf (calls ++ [c]) = Census.on buf (Census.of buf calls) c := List.foldl_append
    have hmsgs : messages buf (calls ++ [c]) = messages buf calls ++ messages buf [c] := by
      unfold messages
      rw [List.filterMap_append, List.map_append]
    have hcalls : Parser.Typed buf calls := fun e he =>
      h e (by rw [List.filterMap_append]; exact List.mem_append_left _ he)
    rw [hof, hmsgs]
    cases c with
    | onUnknownType m => rw [show messages buf [.onUnknownType m] = [] from rfl, List.append_nil]; exact ih hcalls
    | onLengthMismatch m =>
      rw [show messages buf [.onLengthMismatch m] = [] from rfl, List.append_nil]; exact ih hcalls
    | on t p =>
      have htype : MsgType.ofByte (buf.getD p 0) = some t :=
        h (t, p) (by rw [List.filterMap_append]; exact List.mem_append_right _ (by simp [HandlerCall.message]))
      have hbyte := MsgType.byte_of_ofByte htype
      rw [show messages buf [.on t p] = [(t, slice buf p t.len)] from rfl, List.getLast?_concat]
      by_cases ht : t = .systemEvent
      · subst ht
        have hcode : (slice buf p MsgType.systemEvent.len).getD 11 0 = buf.getD (p + 11) 0 := by
          rw [getD_slice, if_pos (by decide)]
        have hends : (Census.on buf (Census.of buf calls) (.on .systemEvent p)).endsOnC =
            (buf.getD p 0 == 83 && buf.getD (p + 11) 0 == 67) := rfl
        rw [hends, ← hbyte]
        constructor
        · intro hc
          refine ⟨_, rfl, ?_⟩
          rw [hcode]
          exact beq_iff_eq.mp ((Bool.and_eq_true _ _).mp hc).2
        · rintro ⟨body, hbody, hc⟩
          obtain rfl := (Prod.mk.inj (Option.some.inj hbody)).2
          rw [hcode] at hc
          rw [hc]
          decide
      · have hne : t.byte ≠ 83 := fun hc => by
          have hsame : MsgType.ofByte t.byte = MsgType.ofByte 83 := congrArg _ hc
          rw [MsgType.ofByte_byte] at hsame
          exact ht (Option.some.inj (hsame.trans (by decide)))
        have hends : (Census.on buf (Census.of buf calls) (.on t p)).lastType = buf.getD p 0 := by
          cases t <;> rfl
        refine iff_of_false (fun hc => ?_) ?_
        · rw [Census.endsOnC, hends, ← hbyte, Bool.and_eq_true, beq_iff_eq] at hc
          exact hne hc.1
        · rintro ⟨body, hbody, -⟩
          exact ht (Prod.mk.inj (Option.some.inj hbody)).1

/-- A body that is handed over as a system event. -/
theorem bodyMessage_systemEvent {b body : Bytes} (h : bodyMessage b = some (.systemEvent, body)) :
    body = b ∧ b.getD 0 0 = 83 := by
  unfold bodyMessage at h
  split at h
  · obtain ⟨t, ht, heq⟩ := Option.map_eq_some_iff.mp h
    obtain ⟨rfl, rfl⟩ := Prod.mk.inj heq
    exact ⟨rfl, (MsgType.byte_of_ofByte ht).symm⟩
  · cases h

end

/-! ## Verdicts -/

section

variable {buf : Bytes} {framing : Framing}

/-- What the census makes of a run, from the frames. -/
theorem census_frames (buf : Bytes) : ∃ st, census buf = some (st.clean &&
      (Census.of buf (Parser.callsFrom buf {} (frames (detectFraming buf) buf))).endsOnC) ∧
    Parser.runAs buf (detectFraming buf) =
      some (st, Parser.callsFrom buf {} (frames (detectFraming buf) buf)) := by
  obtain ⟨stop, rd', m', m'', -, hrun⟩ := Parser.runAs_frames buf (detectFraming buf)
  refine ⟨_, ?_, hrun⟩
  unfold census Parser.run
  rw [hrun]
  rfl

/-- A file none of whose frames is a System Event `'C'` is rejected. -/
theorem census_of_no_end (h : ∀ f ∈ frames (detectFraming buf) buf, ¬ EndsMessages (f.body buf)) :
    census buf = some false := by
  obtain ⟨st, hcensus, hrun⟩ := census_frames buf
  rw [hcensus]
  have hends : (Census.of buf (Parser.callsFrom buf {} (frames (detectFraming buf) buf))).endsOnC ≠ true := by
    intro hc
    obtain ⟨body, hlast, hcode⟩ := (ends_on_c_iff (Parser.typed_runAs hrun)).mp hc
    rw [messages_frames] at hlast
    obtain ⟨b, hb, hmsg⟩ := List.mem_filterMap.mp (List.mem_of_getLast? hlast)
    obtain ⟨f, hf, rfl⟩ := List.mem_map.mp hb
    obtain ⟨rfl, htype⟩ := bodyMessage_systemEvent hmsg
    exact h f hf ⟨htype, hcode⟩
  rw [Bool.eq_false_iff.mpr hends, Bool.and_false]

theorem body_take {n : ℕ} {f : Frame} (h : f.stop ≤ n) : f.body (buf.take n) = f.body buf := by
  unfold Frame.body slice
  rw [List.drop_take, List.take_take, Nat.min_eq_left]
  unfold Frame.stop at h
  omega

/-- The frames of a file that is cut inside its last frame. -/
theorem body_of_cut {bodies : List Bytes} {last : Bytes} {n : ℕ}
    (hbodies : (frames framing buf).map (Frame.body buf) = bodies ++ [last])
    (hn : n < framesEnd (frames framing buf) 0) :
    ∀ f ∈ frames framing (buf.take n), f.body (buf.take n) ∈ bodies := by
  obtain ⟨fs, gs, hsplit, hfs, hgs⟩ := List.map_eq_append_iff.mp hbodies
  obtain ⟨g, rfl, -⟩ := List.map_eq_singleton_iff.mp hgs
  have hend : framesEnd (frames framing buf) 0 = g.stop := by
    rw [hsplit]
    unfold framesEnd
    rw [List.foldl_append]
    rfl
  have hle : n ≤ buf.length := (le_of_lt hn).trans (framesEnd_le framing buf)
  intro f hf
  rw [frames_take hle, hsplit, List.filter_append] at hf
  rcases List.mem_append.mp hf with hf | hf
  · obtain ⟨hf, hstop⟩ := List.mem_filter.mp hf
    rw [body_take (by simpa using hstop), ← hfs]
    exact List.mem_map_of_mem hf
  · obtain ⟨hf, hstop⟩ := List.mem_filter.mp hf
    obtain rfl := List.mem_singleton.mp hf
    have hstop' : f.stop ≤ n := by simpa using hstop
    omega

/-- A run that hands over the messages of complete bodies is accepted. -/
theorem census_of_messages {bodies : List Bytes} {last : Bytes} (hlast : WellFormed last)
    (hend : EndsMessages last) {st : ParseStats} {calls : List HandlerCall}
    (hrun : Parser.run buf = some (st, calls)) (hclean : st.clean = true)
    (hmsgs : messages buf calls = (bodies ++ [last]).filterMap bodyMessage) : census buf = some true := by
  have hmsg : bodyMessage last = some (.systemEvent, last) := by
    unfold bodyMessage
    rw [if_pos (bodyStatus_wellFormed hlast), hend.1]
    rfl
  have hends : (Census.of buf calls).endsOnC = true := by
    refine (ends_on_c_iff (Parser.typed_runAs hrun)).mpr ⟨last, ?_, hend.2⟩
    rw [hmsgs, List.filterMap_append, List.filterMap_cons, hmsg]
    exact List.getLast?_concat
  unfold census
  rw [hrun, Option.map_some, hclean, hends]
  rfl

/-- A file that is cut inside its last message is rejected, whatever form is detected. -/
theorem census_cut {bodies : List Bytes} {last : Bytes} (hb : ∀ b ∈ bodies ++ [last], Encodable framing b)
    (hends : ∀ b ∈ bodies, ¬ EndsMessages b) {tail : Bytes}
    (hbuf : buf = (bodies ++ [last]).flatMap (encodeFrame framing) ++ tail)
    (hclosed : frameAt framing buf ((bodies ++ [last]).flatMap (encodeFrame framing)).length = none) {n : ℕ}
    (hn : n < ((bodies ++ [last]).flatMap (encodeFrame framing)).length) :
    census (buf.take n) = some false := by
  have hle := length_le_flatMap framing (bodies ++ [last])
  have hlen : buf.length = ((bodies ++ [last]).flatMap (encodeFrame framing)).length + tail.length := by
    rw [hbuf, List.length_append]
  obtain ⟨hbodies, hframesEnd, -⟩ := frames_encoded hb [] tail buf (buf.length + 1) hbuf (by omega)
    (by rw [List.length_nil, Nat.zero_add]; exact hclosed)
  rw [List.length_nil, Nat.zero_add] at hframesEnd
  have hcut : ∀ f ∈ frames framing (buf.take n), f.body (buf.take n) ∈ bodies :=
    body_of_cut hbodies (hn.trans_eq hframesEnd.symm)
  obtain ⟨b, rest, hcons⟩ : ∃ b rest, bodies ++ [last] = b :: rest := List.exists_cons_of_ne_nil (by simp)
  have hfirst : buf = encodeFrame framing b ++ (rest.flatMap (encodeFrame framing) ++ tail) := by
    rw [hbuf, hcons, List.flatMap_cons, List.append_assoc]
  have hb' : Encodable framing b := hb b (hcons ▸ List.mem_cons_self ..)
  refine census_of_no_end fun f hf => ?_
  by_cases hdet : detectFraming (buf.take n) = framing
  · rw [hdet] at hf
    exact hends _ (hcut f hf)
  · exfalso
    cases framing with
    | lengthPrefixed =>
      refine hdet (detectFraming_lengthPrefixed fun h3 => ?_)
      rw [List.length_take] at h3
      rw [be16_take (by omega), hfirst]
      exact be16_lengthPrefixed hb' _
    | zeroPrefixed =>
      -- a cut zero-prefixed file that is taken for a length-prefixed one ends with its first prefix
      have hlp : detectFraming (buf.take n) = .lengthPrefixed := by
        cases h : detectFraming (buf.take n) with
        | lengthPrefixed => rfl
        | zeroPrefixed => exact absurd h hdet
      have hnone : frameAt .lengthPrefixed (buf.take n) 0 = none := by
        refine if_neg fun hc => hc.2.1 ?_
        have h2 := hc.1
        rw [List.length_take] at h2
        rw [be16_take (by omega), hfirst]
        exact be16_zeroPrefixed [] b _
      rw [hlp, frames, framesFrom_none hnone] at hf
      cases hf

/-- A file with a frame that the reader rejects is rejected. -/
theorem census_bad_frame (h : ∃ f ∈ frames .lengthPrefixed buf, f.verdict buf ≠ .ok) :
    census buf = some false := by
  obtain ⟨f, hf, hbad⟩ := h
  have hdet : detectFraming buf = .lengthPrefixed := by
    refine detectFraming_lengthPrefixed fun _ hzero => ?_
    have hnone : frameAt .lengthPrefixed buf 0 = none := if_neg fun hc => hc.2.1 hzero
    rw [frames, framesFrom_none hnone] at hf
    cases hf
  obtain ⟨stop, rd', m', m'', hnext, hrun⟩ := Parser.runAs_frames buf .lengthPrefixed
  have hlp : ((Parser.start buf .lengthPrefixed).passAll (frames .lengthPrefixed buf)).framing =
      .lengthPrefixed := by simp
  have hcount : rd'.unknown = (frames .lengthPrefixed buf).countP (·.verdict buf = .unknownType) ∧
      rd'.mismatch = (frames .lengthPrefixed buf).countP (·.verdict buf = .lengthMismatch) := by
    have hunknown := FrameReader.passAll_unknown (Parser.start buf .lengthPrefixed) (frames .lengthPrefixed buf)
    have hmismatch := FrameReader.passAll_mismatch (Parser.start buf .lengthPrefixed) (frames .lengthPrefixed buf)
    rw [show (Parser.start buf .lengthPrefixed).unknown = 0 from rfl, Nat.zero_add] at hunknown
    rw [show (Parser.start buf .lengthPrefixed).mismatch = 0 from rfl, Nat.zero_add] at hmismatch
    rw [FrameReader.nextPrefixed_end hlp (by
      rw [FrameReader.passAll_buf]; exact Parser.frameAt_passAll .lengthPrefixed buf)] at hnext
    have hrd : rd'.unknown = ((Parser.start buf .lengthPrefixed).passAll (frames .lengthPrefixed buf)).unknown ∧
        rd'.mismatch = ((Parser.start buf .lengthPrefixed).passAll (frames .lengthPrefixed buf)).mismatch := by
      split_ifs at hnext <;> obtain rfl := (Prod.mk.inj (Prod.mk.inj hnext).2).1 <;> exact ⟨rfl, rfl⟩
    exact ⟨hrd.1.trans hunknown, hrd.2.trans hmismatch⟩
  have hnot : ¬ (rd'.unknown = 0 ∧ rd'.mismatch = 0) := by
    rw [hcount.1, hcount.2, List.countP_eq_zero, List.countP_eq_zero]
    rintro ⟨hunknown, hmismatch⟩
    have hunknown := hunknown f hf
    have hmismatch := hmismatch f hf
    unfold Frame.verdict at hbad hunknown hmismatch
    split_ifs at hbad hunknown hmismatch with h0 h1
    · exact hunknown (decide_eq_true rfl)
    · exact hmismatch (decide_eq_true rfl)
    · exact hbad rfl
  unfold census Parser.run
  rw [hdet, hrun, Option.map_some]
  refine congrArg some (Bool.eq_false_iff.mpr fun hc => hnot ?_)
  simp only [ParseStats.clean, Bool.and_eq_true, beq_iff_eq] at hc
  exact ⟨hc.1.1.1.2, hc.1.1.2⟩

end

theorem encodable_of_wellFormed {framing : Framing} {body : Bytes} (h : WellFormed body) :
    Encodable framing body := by
  cases framing with
  | lengthPrefixed =>
    have hle := kMsgLen_le (body.getD 0 0)
    rw [h.2] at hle
    exact ⟨h.1, by omega⟩
  | zeroPrefixed => exact h

theorem countP_bodyStatus {bodies : List Bytes} (hb : ∀ b ∈ bodies, WellFormed b) {st : FrameStatus}
    (hst : st ≠ .ok) : bodies.countP (bodyStatus · = st) = 0 :=
  List.countP_eq_zero.mpr fun b hmem => by simp [bodyStatus_wellFormed (hb b hmem), Ne.symm hst]

/-- A complete session is accepted. -/
theorem census_complete {bodies : List Bytes} {last : Bytes} (hb : ∀ b ∈ bodies ++ [last], WellFormed b)
    (hend : EndsMessages last) {framing : Framing} {tail : Bytes}
    (htail : tail = [] ∨ framing = .lengthPrefixed ∧ tail = [0, 0]) :
    census ((bodies ++ [last]).flatMap (encodeFrame framing) ++ tail) = some true := by
  have hlast : WellFormed last := hb last (by simp)
  have hencodable : ∀ b ∈ bodies ++ [last], 0 < b.length ∧ b.length < 2 ^ 16 := fun b hmem =>
    @encodable_of_wellFormed .lengthPrefixed b (hb b hmem)
  have hprefixed : ∀ closing : Option Bytes, closing.getD [] = [] →
      census ((bodies ++ [last]).flatMap frame ++ closingBytes closing) = some true := by
    intro closing hclosing
    obtain ⟨calls, hrun, hmsgs⟩ := @Parser.run_frames _ hencodable closing fun hc => hclosing
    refine census_of_messages hlast hend hrun ?_ hmsgs
    unfold ParseStats.clean
    dsimp only
    rw [countP_bodyStatus hb (by decide), countP_bodyStatus hb (by decide), hclosing]
    cases closing <;> rfl
  rcases htail with rfl | ⟨rfl, rfl⟩
  · cases framing with
    | lengthPrefixed => exact hprefixed none rfl
    | zeroPrefixed =>
      obtain ⟨calls, hrun, hmsgs⟩ := @Parser.run_zeroPrefixed (bodies ++ [last]) (by simp) hb
      rw [List.append_nil]
      exact census_of_messages hlast hend hrun rfl hmsgs
  · exact hprefixed (some []) rfl

/-- **The gate accepts exactly complete sessions.** Messages of which only the last is System Event `'C'` are
accepted in either form, and with a zero prefix behind them in the length-prefixed one; the file is rejected when
it is cut inside the last message or before it; and a file with a length-prefixed frame of an unknown type or a
wrong length is rejected. -/
theorem gate_exact :
    (∀ (bodies : List Bytes) (last : Bytes), (∀ b ∈ bodies, WellFormed b ∧ ¬ EndsMessages b) →
      WellFormed last → EndsMessages last →
        ∀ (framing : Framing) (tail : Bytes), tail = [] ∨ framing = .lengthPrefixed ∧ tail = [0, 0] →
          census ((bodies ++ [last]).flatMap (encodeFrame framing) ++ tail) = some true ∧
            ∀ pre, pre <+: (bodies ++ [last]).flatMap (encodeFrame framing) ++ tail →
              pre.length < ((bodies ++ [last]).flatMap (encodeFrame framing)).length →
                census pre = some false) ∧
    ∀ buf, (∃ f ∈ frames .lengthPrefixed buf, f.verdict buf ≠ .ok) → census buf = some false := by
  refine ⟨fun bodies last hbodies hlast hend framing tail htail => ?_, fun buf => census_bad_frame⟩
  have hb : ∀ b ∈ bodies ++ [last], WellFormed b := fun b hmem => by
    rcases List.mem_append.mp hmem with hmem | hmem
    · exact (hbodies b hmem).1
    · exact List.mem_singleton.mp hmem ▸ hlast
  refine ⟨census_complete hb hend htail, fun pre hpre hlen => ?_⟩
  have hclosed : frameAt framing ((bodies ++ [last]).flatMap (encodeFrame framing) ++ tail)
      ((bodies ++ [last]).flatMap (encodeFrame framing)).length = none := by
    rcases htail with rfl | ⟨rfl, rfl⟩
    · cases framing with
      | lengthPrefixed => exact frameAt_closing none
      | zeroPrefixed => exact if_neg fun hc => by rw [List.append_nil] at hc; omega
    · exact frameAt_closing (some [])
  rw [List.prefix_iff_eq_take.mp hpre]
  exact census_cut (fun b hmem => encodable_of_wellFormed (hb b hmem)) (fun b hmem => (hbodies b hmem).2) rfl
    hclosed hlen

/-- System Event `'C'`. -/
def endOfMessages : Bytes := 83 :: (List.replicate 10 0 ++ [67])

/-- A session of a system event and the last one, cut behind the first and whole; and a frame of unknown type. -/
theorem gate_exact_two :
    (census ([Parser.someEvent, endOfMessages].flatMap (encodeFrame .lengthPrefixed) ++ [0, 0]) = some true ∧
      census ([Parser.someEvent].flatMap (encodeFrame .lengthPrefixed)) = some false) ∧
    census [0, 1, 0x7E] = some false := by
  have hsession := gate_exact.1 [Parser.someEvent] endOfMessages
    (fun b hb => by
      rw [List.mem_singleton.mp hb]
      exact ⟨⟨by decide, by decide⟩, by decide⟩)
    ⟨by decide, by decide⟩ ⟨by decide, by decide⟩ .lengthPrefixed [0, 0] (.inr ⟨rfl, rfl⟩)
  refine ⟨⟨hsession.1, hsession.2 _ ?_ (by decide)⟩, gate_exact.2 _ ⟨⟨0, 1⟩, by decide, by decide⟩⟩
  exact ⟨encodeFrame .lengthPrefixed endOfMessages ++ [0, 0], by decide⟩

end Carteret
