import Carteret.ParserSafety

/-!
# What the framing reads

The reader and the detector look at the two octets of a frame's prefix and at the type behind them. An octet further
inside a frame (`Body`) is left to the handler: to change it changes no status, no position, no count and no call
(`runAs_but`, `detectFraming_but`).
-/

namespace Carteret

/-- Octet `q` alone may differ. -/
structure AgreesBut (q : ℕ) (buf buf' : Bytes) : Prop where
  length_eq : buf'.length = buf.length
  getD_eq : ∀ i, i ≠ q → buf'.getD i 0 = buf.getD i 0

/-- Octet `q` lies in the frame, behind its type. -/
def Frame.Body (f : Frame) (q : ℕ) : Prop := f.pos + 2 < q ∧ q < f.stop

theorem agreesBut_set (buf : Bytes) (q : ℕ) (x : UInt8) : AgreesBut q buf (buf.set q x) where
  length_eq := List.length_set
  getD_eq i hi := by
    rw [List.getD_eq_getElem?_getD, List.getD_eq_getElem?_getD, List.getElem?_set_ne (Ne.symm hi)]

section

variable {q : ℕ} {buf buf' : Bytes} {pos : ℕ}

/-- The prefix and the type of a frame at `pos`. -/
theorem AgreesBut.header (h : AgreesBut q buf buf') (hq : q < pos ∨ pos + 2 < q) :
    be16 buf' pos = be16 buf pos ∧ buf'.getD (pos + 2) 0 = buf.getD (pos + 2) 0 := by
  unfold be16 byteAt
  rw [h.getD_eq pos (by omega), h.getD_eq (pos + 1) (by omega), h.getD_eq (pos + 2) (by omega)]
  exact ⟨rfl, rfl⟩

namespace FrameReader

/-- The reader with another buffer. -/
def onto (rd : FrameReader) (buf : Bytes) : FrameReader := { rd with buf := buf }

variable {rd : FrameReader}

theorem next_but (h : AgreesBut q rd.buf buf') (hq : q < rd.pos ∨ rd.pos + 2 < q) (m : MsgView) :
    (rd.onto buf').next m = ((rd.next m).1, (rd.next m).2.1.onto buf', (rd.next m).2.2) := by
  obtain ⟨hpfx, htype⟩ := h.header hq
  have hlen := h.length_eq
  obtain ⟨buf, framing, pos, unknown, mismatch⟩ := rd
  cases framing with
  | lengthPrefixed =>
    show nextPrefixed _ m = ((nextPrefixed _ m).1, (nextPrefixed _ m).2.1.onto buf', (nextPrefixed _ m).2.2)
    unfold nextPrefixed onto
    dsimp only at hlen hpfx htype ⊢
    rw [hlen, hpfx, htype]
    split_ifs <;> rfl
  | zeroPrefixed =>
    show nextZeroPrefixed _ m =
      ((nextZeroPrefixed _ m).1, (nextZeroPrefixed _ m).2.1.onto buf', (nextZeroPrefixed _ m).2.2)
    unfold nextZeroPrefixed onto
    dsimp only at hlen hpfx htype ⊢
    rw [hlen, hpfx]
    by_cases hzero : be16 buf pos ≠ 0
    · simp only [if_pos hzero, hlen, htype]
      split_ifs <;> rfl
    · simp only [if_neg hzero, hlen, htype]
      split_ifs <;> rfl

end FrameReader

/-- Behind `pos` no header holds octet `q`: it is before it, or in the body of a frame to come. -/
def Clear (framing : Framing) (buf : Bytes) (fuel pos q : ℕ) : Prop :=
  q < pos ∨ ∃ f ∈ framesFrom framing buf fuel pos, f.Body q

theorem Clear.header {framing : Framing} {fuel : ℕ} (h : Clear framing buf fuel pos q) : q < pos ∨ pos + 2 < q := by
  refine h.imp id fun ⟨f, hf, hbody⟩ => ?_
  have hle := (mem_framesFrom hf).2
  have hlt := hbody.1
  omega

/-- At a frame, the octet is in its body or is clear behind it. -/
theorem Clear.next {framing : Framing} {fuel : ℕ} {g : Frame} (h : Clear framing buf (fuel + 1) pos q)
    (hg : frameAt framing buf pos = some g) : Clear framing buf fuel g.stop q := by
  rcases h with hlt | ⟨f, hf, hbody⟩
  · have hstop := lt_stop hg
    exact .inl (hlt.trans (by omega))
  · rw [framesFrom_some hg] at hf
    rcases List.mem_cons.mp hf with rfl | hf
    · exact .inl hbody.2
    · exact .inr ⟨f, hf, hbody⟩

namespace Parser

/-- The end of a loop, on another buffer. -/
def Rounds.onto (buf : Bytes) (k : Rounds) : Rounds := { k with rd := k.rd.onto buf }

theorem dispatch_but (h : AgreesBut q buf buf') {p : ℕ} (hp : p ≠ q) : dispatch buf' p = dispatch buf p := by
  unfold dispatch
  rw [h.getD_eq p hp]

theorem loop_but : ∀ (fuel : ℕ) (rd : FrameReader) (m : MsgView), AgreesBut q rd.buf buf' →
    Clear rd.framing rd.buf fuel rd.pos q → loop fuel (rd.onto buf') m = (loop fuel rd m).map (Rounds.onto buf')
  | 0, _, _, _, _ => rfl
  | fuel + 1, rd, m, h, hclear => by
    have hheader := hclear.header
    have hnext := FrameReader.next_but h hheader m
    have hs := FrameReader.next_step rd m
    by_cases hc : (rd.next m).1.continues = true
    · have hclear' : Clear (rd.next m).2.1.framing (rd.next m).2.1.buf fuel (rd.next m).2.1.pos q := by
        cases hg : frameAt rd.framing rd.buf rd.pos with
        | none => exact absurd hc (by rw [FrameReader.next_end hg]; exact Bool.false_ne_true)
        | some g =>
          rw [hs.buf_eq, hs.framing_eq, FrameReader.next_frame hg]
          exact hclear.next hg
      have hcalls : roundCalls buf' (rd.next m).1 (rd.next m).2.2 =
          roundCalls rd.buf (rd.next m).1 (rd.next m).2.2 := by
        unfold roundCalls
        by_cases hok : (rd.next m).1 = .ok
        · rw [if_pos hok, if_pos hok, (hs.accepted hok).data_eq]
          exact dispatch_but h (by omega)
        · rw [if_neg hok, if_neg hok]
      have hc' : ((rd.onto buf').next m).1.continues = true := by rw [hnext]; exact hc
      have ih := loop_but fuel (rd.next m).2.1 (rd.next m).2.2 (by rw [hs.buf_eq]; exact h) hclear'
      rw [loop_continue hc, loop_continue hc', hnext]
      dsimp only
      rw [ih, Option.map_map, Option.map_map]
      refine congrArg (Option.map · _) (funext fun k => ?_)
      show Rounds.after (roundCalls buf' _ _) _ (k.onto buf') = Rounds.onto buf' (Rounds.after _ _ k)
      rw [hcalls]
      rfl
    · have hf := Bool.not_eq_true _ ▸ hc
      have hf' : ((rd.onto buf').next m).1.continues = false := by rw [hnext]; exact hf
      obtain ⟨stop, hk, hst⟩ := loop_stop fuel hf
      obtain ⟨stop', hk', hst'⟩ := loop_stop fuel hf'
      rw [hnext] at hk' hst'
      rw [hk, hk', ParseEnd.status_injective (hst'.symm.trans hst)]
      rfl

variable {framing : Framing} {f : Frame}

/-- **The parser leaves the bodies to the handler.** -/
theorem runAs_but (h : AgreesBut q buf buf') (hf : f ∈ frames framing buf) (hbody : f.Body q) :
    runAs buf' framing = runAs buf framing := by
  unfold runAs
  rw [h.length_eq]
  have hloop := loop_but (buf.length + 1) { buf := buf, framing := framing } {} h (.inr ⟨f, hf, hbody⟩)
  have honto : FrameReader.onto { buf := buf, framing := framing } buf' = { buf := buf', framing := framing } := rfl
  rw [← honto, hloop, Option.map_map]
  refine congrArg (Option.map · _) (funext fun k => ?_)
  rfl

end Parser

/-! ## The detector -/

variable {framing : Framing} {f : Frame}

theorem walks_before (h : AgreesBut q buf buf') (fr : Framing) : ∀ (n : ℕ) {pos : ℕ}, q < pos →
    walks buf' fr n pos = walks buf fr n pos
  | 0, _, _ => rfl
  | n + 1, pos, hq => by
    obtain ⟨hpfx, htype⟩ := h.header (.inl hq)
    have hbefore : q < pos + 2 + kMsgLen (buf.getD (pos + 2) 0) := by omega
    have hnext := walks_before h fr n hbefore
    unfold walks
    rw [h.length_eq, hpfx, htype]
    dsimp only
    rw [hnext]

/-- The detector goes from frame to frame, or ends. -/
theorem walks_but (h : AgreesBut q buf buf') (fr : Framing) : ∀ (n fuel : ℕ) {pos : ℕ},
    (∃ f ∈ framesFrom framing buf fuel pos, f.Body q) → walks buf' fr n pos = walks buf fr n pos
  | 0, _, _, _ => rfl
  | _ + 1, 0, _, hf => by
    obtain ⟨f, hf, -⟩ := hf
    cases hf
  | n + 1, fuel + 1, pos, hf => by
    have hclear : Clear framing buf (fuel + 1) pos q := .inr hf
    obtain ⟨hpfx, htype⟩ := h.header hclear.header
    cases hg : frameAt framing buf pos with
    | none =>
      obtain ⟨f, hf, -⟩ := hf
      rw [framesFrom_none hg] at hf
      cases hf
    | some g =>
      have hgoes : pos + 2 + kMsgLen (buf.getD (pos + 2) 0) = g.stop →
          walks buf' fr n (pos + 2 + kMsgLen (buf.getD (pos + 2) 0)) =
            walks buf fr n (pos + 2 + kMsgLen (buf.getD (pos + 2) 0)) := fun hstop => by
        rw [hstop]
        exact (hclear.next hg).elim (walks_before h fr n) (walks_but h fr n fuel)
      unfold walks
      rw [h.length_eq, hpfx, htype]
      dsimp only
      cases framing with
      | zeroPrefixed =>
        rw [hgoes]
        unfold frameAt at hg
        obtain ⟨-, hsome⟩ := Option.ite_none_right_eq_some.mp hg
        rw [← Option.some.inj hsome]
        rfl
      | lengthPrefixed =>
        unfold frameAt at hg
        obtain ⟨⟨-, hne, -⟩, hsome⟩ := Option.ite_none_right_eq_some.mp hg
        obtain rfl := Option.some.inj hsome
        by_cases heq : be16 buf pos = kMsgLen (buf.getD (pos + 2) 0)
        · rw [hgoes (by unfold Frame.stop; rw [heq])]
        · -- the walk ends here under either form
          cases fr with
          | lengthPrefixed => rw [if_neg hne, if_pos heq, if_neg hne, if_pos heq]
          | zeroPrefixed => rw [if_pos hne, if_pos hne]

theorem detectFraming_but (h : AgreesBut q buf buf') (hf : f ∈ frames framing buf) (hbody : f.Body q) :
    detectFraming buf' = detectFraming buf := by
  have hwalks := fun fr => walks_but h fr kProbe (buf.length + 1) ⟨f, hf, hbody⟩
  unfold detectFraming
  rw [hwalks, hwalks]

end

end Carteret
