import Carteret.FeatureLag

/-!
# The audit stream

With `--audit` the exporter writes, beside each row, the messages that its features and its label come from.
`research/leakage.py` looks there for features that have seen their label.

1. A message leaves what is held and written, or closes a window (`on_leaves_or_shuts`).
2. `Told`: what the stream says of a row is so. The features are what was held behind `feat_last_msg`, the message that
   closed their window, and the row is written behind `label_last_msg`.
3. `audited`: all along a session, and the check finds nothing in any sample.
-/

namespace Carteret

/-- A message that the exporter has a handler for. -/
def Message.counted : Message → Bool
  | .operationalHalt _ => false
  | _ => true

/-- The check of the order, on a sample of the audit stream. -/
def orderingViolations (sample : List AuditRow) : ℕ :=
  sample.countP (fun a => a.featLastMsg ≥ a.labelFirstMsg) + sample.countP (fun a => a.labelFirstMsg > a.labelLastMsg)

namespace FeatureExporter

/-! ## One message -/

/-- Nothing held changes, and nothing is written. -/
structure Leaves (ex ex' : FeatureExporter) : Prop where
  pending : ∀ l, (ex'.state l).pending = (ex.state l).pending
  out : ex'.out = ex.out
  audit : ex'.audit = ex.audit

/-- The row of the window that was held, with its audit. -/
structure Writes (ex ex' : FeatureExporter) (l : UInt16) : Prop where
  held : (ex.state l).pending.held = true
  out : ex'.out = ex.out ++ [(ex.state l).pending.row l (Inside.read ex'.book l).mid]
  audit : ex'.audit =
    ex.audit ++ [⟨l, (ex.state l).pending.closeMsg, (ex.state l).pending.closeMsg + 1, ex'.msgs⟩]

/-- A window of `l` closes. -/
structure Shuts (ex ex' : FeatureExporter) (l : UInt16) : Prop where
  closings : ex'.closings = ex.closings ++ [(l, (ex'.state l).pending)]
  closeMsg : (ex'.state l).pending.closeMsg = ex'.msgs
  elsewhere : ∀ l', l' ≠ l → (ex'.state l').pending = (ex.state l').pending
  written : ex'.out = ex.out ∧ ex'.audit = ex.audit ∨ Writes ex ex' l

section

variable {ex : FeatureExporter} {l : UInt16} {ts : UInt64}

theorem leaves_setState (s : SymbolState) (hs : s.pending = (ex.state l).pending) : Leaves ex (ex.setState l s) where
  pending := fun l' => by
    rw [setState_state]
    split_ifs with h
    · rw [hs, h]
    · rfl
  out := rfl
  audit := rfl

/-- What is held is judged, and gives way. -/
theorem shuts_closeWindow (hau : ex.auditing = true) (s : SymbolState) (hs : s.pending = (ex.state l).pending)
    (before : Inside) : Shuts ex (ex.closeWindow l s (ex.readInside l) before ts) l := by
  have hstate : ∀ l', ((ex.closeWindow l s (ex.readInside l) before ts).state l').pending =
      if l' = l then s.win.features ex.lag1 (ex.readInside l) before ts ex.msgs else (ex.state l').pending := by
    intro l'
    unfold closeWindow
    rw [setState_state]
    split_ifs with h
    · rfl
    · exact congrArg (fun st : UInt16 → SymbolState => (st l').pending)
        (judge_spec ex l s (ex.readInside l) ts).2.2.2.2
  have hmsgs : (ex.closeWindow l s (ex.readInside l) before ts).msgs = ex.msgs := by
    show (ex.judge l s (ex.readInside l) ts).msgs = ex.msgs
    unfold judge
    split_ifs <;> rfl
  have hbook : (ex.closeWindow l s (ex.readInside l) before ts).book = ex.book :=
    (sameSetting_judge ex l s (ex.readInside l) ts).book
  refine ⟨?_, ?_, fun l' hl' => by rw [hstate, if_neg hl'], ?_⟩
  · rw [hstate, if_pos rfl]
    rfl
  · rw [hstate, if_pos rfl, hmsgs]
    rfl
  · by_cases hheld : s.pending.held = true
    · by_cases huse : s.win.usable (ex.readInside l) ts = true
      · refine .inr ⟨hs ▸ hheld, ?_, ?_⟩
        · rw [hbook, ← hs]
          show (ex.judge l s (ex.readInside l) ts).out = _
          unfold judge
          rw [if_pos hheld, if_pos huse]
          rfl
        · rw [hmsgs, ← hs]
          show (ex.judge l s (ex.readInside l) ts).audit = _
          unfold judge
          rw [if_pos hheld, if_pos huse]
          exact if_pos hau
      · left
        show (ex.judge l s (ex.readInside l) ts).out = _ ∧ (ex.judge l s (ex.readInside l) ts).audit = _
        unfold judge
        rw [if_pos hheld, if_neg huse]
        split_ifs <;> exact ⟨rfl, rfl⟩
    · left
      show (ex.judge l s (ex.readInside l) ts).out = _ ∧ (ex.judge l s (ex.readInside l) ts).audit = _
      unfold judge
      rw [if_neg hheld]
      exact ⟨rfl, rfl⟩

theorem touch_leaves_or_shuts (hau : ex.auditing = true) (l : UInt16) (ts : UInt64) (signedExec totalExec : ℚ) :
    Leaves ex (ex.touch l ts signedExec totalExec) ∨ Shuts ex (ex.touch l ts signedExec totalExec) l := by
  by_cases hmem : l ∈ ex.selected
  · rw [touch_eq hmem]
    dsimp only
    split_ifs
    · exact .inr (shuts_closeWindow hau ((ex.state l).observed (ex.readInside l) ts signedExec totalExec) rfl
        (ex.state l).prev)
    · exact .inl (leaves_setState ((ex.state l).observed (ex.readInside l) ts signedExec totalExec) rfl)
    · exact .inl (leaves_setState ((ex.state l).read (ex.readInside l) signedExec totalExec) rfl)
  · have hsame : ex.touch l ts signedExec totalExec = ex := if_pos hmem
    rw [hsame]
    exact .inl ⟨fun _ => rfl, rfl, rfl⟩

theorem msgs_touch (l : UInt16) (ts : UInt64) (signedExec totalExec : ℚ) :
    (ex.touch l ts signedExec totalExec).msgs = ex.msgs ∧
      (ex.touch l ts signedExec totalExec).auditing = ex.auditing := by
  by_cases hmem : l ∈ ex.selected
  · have hjudge : ∀ s now, (ex.judge l s now ts).msgs = ex.msgs ∧ (ex.judge l s now ts).auditing = ex.auditing := by
      intro s now
      unfold judge
      split_ifs <;> exact ⟨rfl, rfl⟩
    rw [touch_eq hmem]
    dsimp only
    split_ifs
    · exact hjudge _ _
    · exact ⟨rfl, rfl⟩
    · exact ⟨rfl, rfl⟩
  · have hsame : ex.touch l ts signedExec totalExec = ex := if_pos hmem
    rw [hsame]
    exact ⟨rfl, rfl⟩

theorem msgs_on (msg : Message) : (ex.on msg).msgs = ex.msgs + (if msg.counted then 1 else 0) ∧
    (ex.on msg).auditing = ex.auditing := by
  cases msg with
  | systemEvent v => exact ⟨rfl, rfl⟩
  | stockDirectory v => exact ⟨rfl, rfl⟩
  | stockTradingAction v => exact ⟨rfl, rfl⟩
  | operationalHalt v => exact ⟨rfl, rfl⟩
  | _ => exact msgs_touch _ _ _ _

/-- **One message.** -/
theorem on_leaves_or_shuts (hau : ex.auditing = true) (msg : Message) :
    Leaves ex (ex.on msg) ∨ ∃ l, Shuts ex (ex.on msg) l ∧ (ex.on msg).msgs = ex.msgs + 1 := by
  have htouch : ∀ (b : ReferenceBook) (l : UInt16) (ts : UInt64) (se te : ℚ),
      Leaves ex (FeatureExporter.touch { ex.count with book := b } l ts se te) ∨
        ∃ l', Shuts ex (FeatureExporter.touch { ex.count with book := b } l ts se te) l' ∧
          (FeatureExporter.touch { ex.count with book := b } l ts se te).msgs = ex.msgs + 1 := by
    intro b l ts se te
    have hau' : FeatureExporter.auditing { ex.count with book := b } = true := hau
    rcases touch_leaves_or_shuts hau' l ts se te with h | h
    · exact .inl ⟨h.pending, h.out, h.audit⟩
    · refine .inr ⟨l, ⟨h.closings, h.closeMsg, h.elsewhere, ?_⟩, (msgs_touch l ts se te).1⟩
      exact h.written.imp id fun w => ⟨w.held, w.out, w.audit⟩
  cases msg with
  | systemEvent v => exact .inl ⟨fun _ => rfl, rfl, rfl⟩
  | stockDirectory v => exact .inl ⟨fun _ => rfl, rfl, rfl⟩
  | operationalHalt v => exact .inl ⟨fun _ => rfl, rfl, rfl⟩
  | stockTradingAction v =>
    have h : Leaves ex.count (ex.count.setState v.locate ((ex.state v.locate).acted (isHalt v.tradingState))) :=
      leaves_setState _ rfl
    exact .inl ⟨h.pending, h.out, h.audit⟩
  | _ => exact htouch _ _ _ _ _

end

/-! ## A session -/

section

variable (selected : Finset UInt16) (window : UInt32) (lag1 : Bool)

/-- The session `ms` with the audit stream. -/
def auditedRun (ms : List Message) : FeatureExporter := Runs.run on (init selected window lag1 true) ms

/-- The last message of `early` closes a window of the symbol. -/
structure ClosedBehind (early : List Message) (l : UInt16) : Prop where
  closes : ∃ before msg, early = before ++ [msg] ∧
    (auditedRun selected window lag1 before).Closes l msg ((auditedRun selected window lag1 early).state l).pending
  closeMsg : ((auditedRun selected window lag1 early).state l).pending.closeMsg = early.countP Message.counted

/-- **What the audit says of a row.** -/
structure Told (ms : List Message) (a : AuditRow) (r : FeatureRow) : Prop where
  from_early : ∃ early late msg, early ++ late ++ [msg] <+: ms ∧
    early.countP Message.counted = a.featLastMsg ∧
    (early ++ late ++ [msg]).countP Message.counted = a.labelLastMsg ∧
    ClosedBehind selected window lag1 early a.locate ∧
    r = ((auditedRun selected window lag1 early).state a.locate).pending.row a.locate
      (Inside.read (auditedRun selected window lag1 (early ++ late ++ [msg])).book a.locate).mid ∧
    (auditedRun selected window lag1 (early ++ late ++ [msg])).out =
      (auditedRun selected window lag1 (early ++ late)).out ++ [r]
  first_eq : a.labelFirstMsg = a.featLastMsg + 1
  first_le : a.labelFirstMsg ≤ a.labelLastMsg

/-- What holds behind the messages `ms`. -/
structure Audits (ms : List Message) (ex : FeatureExporter) : Prop where
  auditing : ex.auditing = true
  msgs : ex.msgs = ms.countP Message.counted
  held : ∀ l, (ex.state l).pending.held = true → ∃ early, early <+: ms ∧
    ClosedBehind selected window lag1 early l ∧
    (ex.state l).pending = ((auditedRun selected window lag1 early).state l).pending
  told : List.Forall₂ (Told selected window lag1 ms) ex.audit ex.out

variable {selected window lag1} {ms : List Message}

theorem auditedRun_snoc (ms : List Message) (msg : Message) :
    auditedRun selected window lag1 (ms ++ [msg]) = (auditedRun selected window lag1 ms).on msg := Runs.run_snoc _ _ _

theorem Told.mono {ms' : List Message} (hp : ms <+: ms') {a : AuditRow} {r : FeatureRow}
    (h : Told selected window lag1 ms a r) : Told selected window lag1 ms' a r :=
  ⟨h.from_early.imp fun _ h => h.imp fun _ h => h.imp fun _ h => ⟨h.1.trans hp, h.2⟩, h.first_eq, h.first_le⟩

/-- The row that a message writes is told. -/
theorem Audits.told_writes (h : Audits selected window lag1 ms (auditedRun selected window lag1 ms)) {msg : Message}
    {l : UInt16} (hw : Writes (auditedRun selected window lag1 ms) (auditedRun selected window lag1 (ms ++ [msg])) l)
    (hmsgs : (auditedRun selected window lag1 (ms ++ [msg])).msgs = (ms ++ [msg]).countP Message.counted)
    (hnext : (auditedRun selected window lag1 (ms ++ [msg])).msgs = (auditedRun selected window lag1 ms).msgs + 1) :
    Told selected window lag1 (ms ++ [msg])
      ⟨l, ((auditedRun selected window lag1 ms).state l).pending.closeMsg,
        ((auditedRun selected window lag1 ms).state l).pending.closeMsg + 1,
        (auditedRun selected window lag1 (ms ++ [msg])).msgs⟩
      (((auditedRun selected window lag1 ms).state l).pending.row l
        (Inside.read (auditedRun selected window lag1 (ms ++ [msg])).book l).mid) := by
  obtain ⟨early, ⟨late, hlate⟩, hclosed, hpending⟩ := h.held l hw.held
  have hle : early.countP Message.counted ≤ (auditedRun selected window lag1 ms).msgs := by
    rw [h.msgs, ← hlate]
    exact (List.prefix_append early late).sublist.countP_le
  have hcount : ((auditedRun selected window lag1 ms).state l).pending.closeMsg = early.countP Message.counted := by
    rw [hpending]
    exact hclosed.closeMsg
  refine ⟨⟨early, late, msg, by rw [hlate], hcount.symm, by rw [hlate, hmsgs], hclosed, ?_, ?_⟩, rfl, ?_⟩
  · rw [hlate, ← hpending]
  · rw [hlate]
    exact hw.out
  · rw [hcount, hnext]
    exact Nat.succ_le_succ hle

/-- **A step.** -/
theorem Audits.on (h : Audits selected window lag1 ms (auditedRun selected window lag1 ms)) (msg : Message) :
    Audits selected window lag1 (ms ++ [msg]) (auditedRun selected window lag1 (ms ++ [msg])) := by
  have hpre : ms <+: ms ++ [msg] := List.prefix_append _ _
  have hmsgs : (auditedRun selected window lag1 (ms ++ [msg])).msgs = (ms ++ [msg]).countP Message.counted := by
    rw [auditedRun_snoc, (msgs_on msg).1, h.msgs, List.countP_append, List.countP_singleton]
  have hau : (auditedRun selected window lag1 (ms ++ [msg])).auditing = true := by
    rw [auditedRun_snoc, (msgs_on msg).2, h.auditing]
  have hold : ∀ l, ((auditedRun selected window lag1 (ms ++ [msg])).state l).pending =
      ((auditedRun selected window lag1 ms).state l).pending →
      ((auditedRun selected window lag1 (ms ++ [msg])).state l).pending.held = true →
      ∃ early, early <+: ms ++ [msg] ∧ ClosedBehind selected window lag1 early l ∧
        ((auditedRun selected window lag1 (ms ++ [msg])).state l).pending =
          ((auditedRun selected window lag1 early).state l).pending := by
    intro l hsame hheld
    rw [hsame] at hheld ⊢
    obtain ⟨early, hearly, hrest⟩ := h.held l hheld
    exact ⟨early, hearly.trans hpre, hrest⟩
  have hmono := h.told.imp fun a r => Told.mono hpre
  rcases on_leaves_or_shuts h.auditing msg with hleaves | ⟨l, hshuts, hnext⟩
  · rw [← auditedRun_snoc] at hleaves
    refine ⟨hau, hmsgs, fun l => hold l (hleaves.pending l), ?_⟩
    rw [hleaves.out, hleaves.audit]
    exact hmono
  · have hcloses : (auditedRun selected window lag1 ms).Closes l msg
        ((auditedRun selected window lag1 (ms ++ [msg])).state l).pending := by
      rw [auditedRun_snoc]
      exact hshuts.closings
    rw [← auditedRun_snoc] at hshuts hnext
    refine ⟨hau, hmsgs, fun l' hheld => ?_, ?_⟩
    · by_cases hl : l' = l
      · rw [hl]
        exact ⟨ms ++ [msg], List.prefix_refl _, ⟨⟨ms, msg, rfl, hcloses⟩, hshuts.closeMsg.trans hmsgs⟩, rfl⟩
      · exact hold l' (hshuts.elsewhere l' hl) hheld
    · rcases hshuts.written with ⟨hout, haudit⟩ | hw
      · rw [hout, haudit]
        exact hmono
      · rw [hw.out, hw.audit]
        exact List.rel_append hmono (.cons (h.told_writes hw hmsgs hnext) .nil)

end

theorem audits_run (selected : Finset UInt16) (window : UInt32) (lag1 : Bool) (ms : List Message) :
    Audits selected window lag1 ms (auditedRun selected window lag1 ms) := by
  induction ms using List.reverseRecOn with
  | nil => exact ⟨rfl, rfl, fun l hl => absurd hl Bool.false_ne_true, .nil⟩
  | append_singleton ms msg ih => exact ih.on msg

/-- **The audit tells the truth of every row**, in either mode, so that the check of the order finds nothing in any
sample. -/
theorem audited (selected : Finset UInt16) (window : UInt32) (lag1 : Bool) (ms : List Message) :
    List.Forall₂ (Told selected window lag1 ms) (auditedRun selected window lag1 ms).audit
        (auditedRun selected window lag1 ms).out ∧
      ∀ sample : List AuditRow, sample ⊆ (auditedRun selected window lag1 ms).audit →
        orderingViolations sample = 0 := by
  have htold := (audits_run selected window lag1 ms).told
  refine ⟨htold, fun sample hsub => ?_⟩
  have hordered : List.Forall₂ (fun a r => (a.featLastMsg < a.labelFirstMsg ∧ a.labelFirstMsg ≤ a.labelLastMsg) ∧
      Told selected window lag1 ms a r) _ _ :=
    htold.imp fun a r h => ⟨⟨h.first_eq ▸ Nat.lt_succ_self _, h.first_le⟩, h⟩
  have horder := fun a ha => ((List.forall₂_and_left _ _).mp hordered).1 a (hsub ha)
  unfold orderingViolations
  rw [List.countP_eq_zero.mpr fun a ha => by simpa using (horder a ha).1,
    List.countP_eq_zero.mpr fun a ha => by simpa using (horder a ha).2]

/-- The row of `twoUpdates` has its features behind the third message, and its label behind the fourth. -/
example : (auditedRun {1} 1 false twoUpdates).audit = [⟨1, 3, 4, 4⟩] := by decide +kernel

end FeatureExporter

end Carteret
