import Carteret.FeatureWindows

/-!
# Rows follow the registered windows

1. What a message does to the exporter's state of a symbol, by the symbol's event.
2. The accumulators of the open window are its sums so far, and the held features those of the window before it
   (`Follows`); an event keeps it so (`Follows.action`, `Follows.touch`).
3. Over a run: the rows of each symbol are those of its windows, and each window that is judged gives one row
   or is counted once (`rows_follow`).
-/

namespace Carteret

namespace SymbolState

/-- A trading action. -/
def acted (s : SymbolState) (halted : Bool) : SymbolState :=
  { s with halted := halted, win := { s.win with halted := true } }

/-- A message behind which the inside is `now`, before it is seen whether that is an update. -/
def read (s : SymbolState) (now : Inside) (signedExec totalExec : ℚ) : SymbolState :=
  { s with
    win := { s.win with
      signedExec := s.win.signedExec + signedExec
      totalExec := s.win.totalExec + totalExec }
    prev := now }

/-- The update enters the open window. -/
def observed (s : SymbolState) (now : Inside) (ts : UInt64) (signedExec totalExec : ℚ) : SymbolState :=
  { s.read now signedExec totalExec with
    win := (s.read now signedExec totalExec).win.observe now s.prev ts s.halted }

/-- The message is an update of the inside. -/
def updates (s : SymbolState) (now : Inside) : Bool := now.valid && s.prev.valid && !now.same s.prev

end SymbolState

namespace FeatureExporter

variable {ex : FeatureExporter} {locate l : UInt16} {ts : UInt64} {signedExec totalExec : ℚ}

/-- The three ways of `touch`. -/
theorem touch_eq (h : locate ∈ ex.selected) : ex.touch locate ts signedExec totalExec =
    let s := ex.state locate
    let now := ex.readInside locate
    if s.updates now then
      if (s.observed now ts signedExec totalExec).win.updates ≥ ex.window then
        ex.closeWindow locate (s.observed now ts signedExec totalExec) now s.prev ts
      else ex.setState locate (s.observed now ts signedExec totalExec)
    else ex.setState locate (s.read now signedExec totalExec) := by
  unfold touch SymbolState.updates
  rw [if_neg (not_not.mpr h)]
  simp only
  by_cases hvalid : ((!(ex.readInside locate).valid || !(ex.state locate).prev.valid) = true)
  · have hnot : ((ex.readInside locate).valid && (ex.state locate).prev.valid &&
        !(ex.readInside locate).same (ex.state locate).prev) = false := by
      cases hv : (ex.readInside locate).valid <;> cases hp : (ex.state locate).prev.valid <;>
        simp [hv, hp] at hvalid ⊢
    rw [if_pos hvalid, hnot]
    rfl
  · have hboth : (ex.readInside locate).valid = true ∧ (ex.state locate).prev.valid = true := by
      simpa using hvalid
    rw [if_neg hvalid, hboth.1, hboth.2]
    cases (ex.readInside locate).same (ex.state locate).prev <;> rfl

theorem setState_state (s : SymbolState) (l : UInt16) :
    (ex.setState locate s).state l = if l = locate then s else ex.state l :=
  Function.update_apply ex.state locate s l

end FeatureExporter

/-! ## The open window -/

/-- The accumulators hold what the window `k` holds. -/
structure Sums (N : ℕ) (W : Windows) (k : ℕ) (w : FeatureWindow) : Prop where
  count : w.updates.toNat = (W.updatesIn N k).length
  ofi : w.ofi = ((W.updatesIn N k).map fun m => m.now.flow m.before).sum
  depthSum : w.depthSum = ((W.updatesIn N k).map fun m => m.now.depth).sum
  signedExec : w.signedExec = W.signedExec N k
  totalExec : w.totalExec = W.totalExec N k
  halted : w.halted = W.spoiled N k
  startTs : w.updates ≠ 0 → w.startTs = W.startTs N k

section

variable {N : ℕ} {W : Windows} {k : ℕ} {w : FeatureWindow}

/-- A window that no event has reached. -/
theorem sums_empty (h : W.window N k = []) : Sums N W k {} := by
  have hupdates : W.updatesIn N k = [] := by
    unfold Windows.updatesIn
    rw [h]
    rfl
  refine ⟨?_, ?_, ?_, ?_, ?_, ?_, fun hne => absurd rfl hne⟩
  · rw [hupdates]; rfl
  · rw [hupdates]; rfl
  · rw [hupdates]; rfl
  · unfold Windows.signedExec; rw [h]; rfl
  · unfold Windows.totalExec; rw [h]; rfl
  · show false = (W.window N k).any _
    rw [h]
    rfl

theorem spoiled_snoc {e : SymbolEvent} (hk : W.closed N = k) : (W.snoc e).spoiled N k =
    (W.spoiled N k || ((W.next e).isAction || (W.next e).isUpdate && (W.next e).wasHalted)) := by
  unfold Windows.spoiled
  rw [Windows.window_snoc, if_pos hk, List.any_append]
  simp

/-- Executions go into the open window. -/
theorem execs_snoc {e : SymbolEvent} (hk : W.closed N = k) :
    (W.snoc e).signedExec N k = W.signedExec N k + (W.next e).signedExec ∧
      (W.snoc e).totalExec N k = W.totalExec N k + (W.next e).totalExec := by
  unfold Windows.signedExec Windows.totalExec
  rw [Windows.window_snoc, if_pos hk]
  simp

theorem Sums.action (h : Sums N W k w) (hk : W.closed N = k) (halted : Bool) :
    Sums N (W.snoc (.action halted)) k { w with halted := true } := by
  have hnot : (W.next (.action halted)).isUpdate = false := rfl
  have hupdates : (W.snoc (.action halted)).updatesIn N k = W.updatesIn N k := by
    rw [Windows.updatesIn_snoc, hnot]
    simp
  refine ⟨?_, ?_, ?_, ?_, ?_, ?_, fun hne => ?_⟩
  · rw [hupdates]; exact h.count
  · rw [hupdates]; exact h.ofi
  · rw [hupdates]; exact h.depthSum
  · rw [(execs_snoc hk).1, ← h.signedExec]
    exact (add_zero w.signedExec).symm
  · rw [(execs_snoc hk).2, ← h.totalExec]
    exact (add_zero w.totalExec).symm
  · rw [spoiled_snoc hk]
    show true = (W.spoiled N k || (true || _))
    simp
  · unfold Windows.startTs
    rw [hupdates]
    exact h.startTs hne

variable {ts : UInt64} {now : Inside} {signedExec totalExec : ℚ}

theorem Sums.execs (h : Sums N W k w) (hk : W.closed N = k) :
    w.signedExec + signedExec = (W.snoc (.touch ts now signedExec totalExec)).signedExec N k ∧
      w.totalExec + totalExec = (W.snoc (.touch ts now signedExec totalExec)).totalExec N k := by
  rw [(execs_snoc hk).1, (execs_snoc hk).2, ← h.signedExec, ← h.totalExec]
  exact ⟨rfl, rfl⟩

/-- A message that does not change the inside. -/
theorem Sums.read (h : Sums N W k w) (hk : W.closed N = k)
    (hnot : (W.next (.touch ts now signedExec totalExec)).isUpdate = false) :
    Sums N (W.snoc (.touch ts now signedExec totalExec)) k
      { w with signedExec := w.signedExec + signedExec, totalExec := w.totalExec + totalExec } := by
  have hupdates : (W.snoc (.touch ts now signedExec totalExec)).updatesIn N k = W.updatesIn N k := by
    rw [Windows.updatesIn_snoc, hnot]
    simp
  refine ⟨?_, ?_, ?_, (h.execs hk).1, (h.execs hk).2, ?_, fun hne => ?_⟩
  · rw [hupdates]; exact h.count
  · rw [hupdates]; exact h.ofi
  · rw [hupdates]; exact h.depthSum
  · rw [spoiled_snoc hk, hnot]
    show w.halted = (W.spoiled N k || (false || _))
    rw [h.halted]
    simp
  · unfold Windows.startTs
    rw [hupdates]
    exact h.startTs hne

/-- An update of the inside. -/
theorem Sums.observe (h : Sums N W k w) (hk : W.closed N = k) (hlt : w.updates.toNat + 1 < 2 ^ 32)
    (hupdate : (W.next (.touch ts now signedExec totalExec)).isUpdate = true) :
    Sums N (W.snoc (.touch ts now signedExec totalExec)) k
      ({ w with signedExec := w.signedExec + signedExec, totalExec := w.totalExec + totalExec }.observe
        now W.inside ts W.halted) := by
  have hupdates : (W.snoc (.touch ts now signedExec totalExec)).updatesIn N k =
      W.updatesIn N k ++ [W.next (.touch ts now signedExec totalExec)] := by
    rw [Windows.updatesIn_snoc, if_pos ⟨hk, hupdate⟩]
  have hsucc : (w.updates + 1).toNat = w.updates.toNat + 1 := by
    rw [UInt32.toNat_add]
    exact Nat.mod_eq_of_lt hlt
  refine ⟨?_, ?_, ?_, (h.execs hk).1, (h.execs hk).2, ?_, fun _ => ?_⟩
  · show (w.updates + 1).toNat = _
    rw [hupdates, List.length_append, ← h.count, hsucc]
    rfl
  · rw [hupdates, List.map_append, List.sum_append, ← h.ofi]
    exact congrArg (w.ofi + ·) (by simp [Mark.now, Windows.next])
  · rw [hupdates, List.map_append, List.sum_append, ← h.depthSum]
    exact congrArg (w.depthSum + ·) (by simp [Mark.now, Windows.next])
  · rw [spoiled_snoc hk, hupdate]
    show (if W.halted then true else w.halted) = (W.spoiled N k || (false || (true && W.halted)))
    rw [h.halted]
    cases W.halted <;> simp
  · show (if w.updates = 0 then ts else w.startTs) = _
    unfold Windows.startTs
    rw [hupdates]
    have hcount := h.count
    by_cases hz : w.updates = 0
    · rw [if_pos hz]
      rw [hz] at hcount
      rw [List.length_eq_zero_iff.mp hcount.symm]
      rfl
    · rw [if_neg hz, h.startTs hz]
      unfold Windows.startTs
      cases hu : W.updatesIn N k with
      | nil =>
        rw [hu] at hcount
        exact absurd (UInt32.toNat_inj.mp hcount) hz
      | cons m ms => rfl

/-- The features of a window whose last event is its last update. -/
theorem Sums.features (h : Sums N W k w) (hN : w.updates.toNat = N) (hpos : 0 < N)
    (hvalid : now.valid = true) (hlast : W.last N k = now) (hend : W.endTs N k = ts) (before : Inside) (msgs : ℕ) :
    { w.features false now before ts msgs with closeMsg := 0 } = W.features N k ∧
      w.usable now ts = W.usable N k ∧ w.inBounds ts = W.inBounds N k := by
  have hne : w.updates ≠ 0 := by
    rintro hz
    rw [hz] at hN
    exact absurd hN.symm (Nat.pos_iff_ne_zero.mp hpos)
  have hbounds : w.inBounds ts = W.inBounds N k := by
    unfold FeatureWindow.inBounds Windows.inBounds
    rw [h.startTs hne, hend]
  have husable : w.usable now ts = W.usable N k := by
    unfold FeatureWindow.usable Windows.usable
    rw [hbounds, h.halted, hlast]
    rfl
  have hdepth : (if w.updates ≠ 0 then w.depthSum / (w.updates.toNat : ℚ) else 0) = W.meanDepth N k := by
    rw [if_pos hne, hN, h.depthSum]
    rfl
  have hofi : (if W.meanDepth N k > 0 then w.ofi / W.meanDepth N k else 0) = W.ofi N k := by
    unfold Windows.ofi
    simp only [Registered.orderFlow_eq]
    rw [h.ofi]
  have hsign : (if w.totalExec > 0 then w.signedExec / w.totalExec else 0) = W.tradeSign N k := by
    rw [h.totalExec, h.signedExec]
    rfl
  have hcount : w.updates = UInt32.ofNat N := by
    rw [← hN, UInt32.ofNat_toNat]
  refine ⟨?_, husable, hbounds⟩
  unfold FeatureWindow.features Windows.features
  simp only [Bool.false_eq_true, if_false, hvalid, Bool.true_and, husable, hdepth, hofi, hsign, hlast, hend,
    ← Registered.queueImbalance_eq, Registered.microPrice_eq]
  rw [hcount]
  rfl

end

/-! ## A symbol -/

/-- The state of a symbol whose windows are `W`. -/
structure Follows (N : ℕ) (W : Windows) (s : SymbolState) : Prop where
  prev : s.prev = W.inside
  halted : s.halted = W.halted
  numbers : ∀ m ∈ W.marks, m.number ≤ W.updates.length
  sums : Sums N W (W.closed N) s.win
  modulo : W.updates.length % N = s.win.updates.toNat
  pending : { s.pending with closeMsg := 0 } = if W.closed N = 0 then {} else W.features N (W.closed N - 1)

section

variable {N : ℕ} {W : Windows} {s : SymbolState}

theorem follows_init (N : ℕ) : Follows N {} {} where
  prev := rfl
  halted := rfl
  numbers := by simp
  sums := sums_empty rfl
  modulo := Nat.zero_mod N
  pending := by
    have hzero : Windows.closed {} N = 0 := Nat.zero_div N
    rw [if_pos hzero]

theorem numbers_snoc (h : ∀ m ∈ W.marks, m.number ≤ W.updates.length) (e : SymbolEvent) :
    ∀ m ∈ (W.snoc e).marks, m.number ≤ W.updates.length := by
  intro m hm
  rcases List.mem_append.mp hm with hm | hm
  · exact h m hm
  · rw [List.mem_singleton.mp hm]
    exact le_rfl

/-- An event that is not an update leaves the number of updates as it was. -/
theorem updates_snoc_of_not {e : SymbolEvent} (h : (W.next e).isUpdate = false) :
    (W.snoc e).updates = W.updates := by
  rw [Windows.updates_snoc, h]
  exact List.append_nil _

theorem closed_snoc_of_not {e : SymbolEvent} (h : (W.next e).isUpdate = false) :
    (W.snoc e).closed N = W.closed N := by
  unfold Windows.closed
  rw [updates_snoc_of_not h]

/-- The windows that have closed do not change. -/
theorem features_snoc (e : SymbolEvent) {k : ℕ} (hk : k < W.closed N) :
    (W.snoc e).features N k = W.features N k ∧ (W.snoc e).last N k = W.last N k ∧
      (W.snoc e).usable N k = W.usable N k :=
  Windows.features_congr (Windows.window_snoc_of_ne e (Nat.ne_of_gt hk))

/-- What is held does not change while no window closes. -/
theorem Follows.held (h : Follows N W s) {e : SymbolEvent} (hclosed : (W.snoc e).closed N = W.closed N) :
    { s.pending with closeMsg := 0 } =
      if (W.snoc e).closed N = 0 then {} else (W.snoc e).features N ((W.snoc e).closed N - 1) := by
  rw [h.pending, hclosed]
  by_cases hz : W.closed N = 0
  · rw [if_pos hz, if_pos hz]
  · rw [if_neg hz, if_neg hz, (features_snoc e (by omega)).1]

theorem Follows.acted (h : Follows N W s) (halted : Bool) :
    Follows N (W.snoc (.action halted)) (s.acted halted) := by
  have hnot : (W.next (.action halted)).isUpdate = false := rfl
  have hclosed : (W.snoc (.action halted)).closed N = W.closed N := closed_snoc_of_not hnot
  refine ⟨?_, ?_, ?_, ?_, ?_, h.held hclosed⟩
  · rw [Windows.inside_snoc]
    exact h.prev
  · rw [Windows.halted_snoc]
    rfl
  · rw [updates_snoc_of_not hnot]
    exact numbers_snoc h.numbers _
  · rw [hclosed]
    exact h.sums.action rfl halted
  · rw [updates_snoc_of_not hnot]
    exact h.modulo

variable {ts : UInt64} {now : Inside} {signedExec totalExec : ℚ}

theorem Follows.isUpdate (h : Follows N W s) :
    (W.next (.touch ts now signedExec totalExec)).isUpdate = s.updates now := by
  unfold SymbolState.updates
  rw [h.prev]
  rfl

theorem Follows.read (h : Follows N W s) (hnot : s.updates now = false) :
    Follows N (W.snoc (.touch ts now signedExec totalExec)) (s.read now signedExec totalExec) := by
  have hnot' : (W.next (.touch ts now signedExec totalExec)).isUpdate = false := h.isUpdate.trans hnot
  have hclosed : (W.snoc (.touch ts now signedExec totalExec)).closed N = W.closed N :=
    closed_snoc_of_not hnot'
  refine ⟨?_, ?_, ?_, ?_, ?_, h.held hclosed⟩
  · rw [Windows.inside_snoc]
    rfl
  · rw [Windows.halted_snoc]
    exact h.halted
  · rw [updates_snoc_of_not hnot']
    exact numbers_snoc h.numbers _
  · rw [hclosed]
    exact h.sums.read rfl hnot'
  · rw [updates_snoc_of_not hnot']
    exact h.modulo

/-! An update. -/

theorem updates_length_snoc {e : SymbolEvent} (h : (W.next e).isUpdate = true) :
    (W.snoc e).updates.length = W.updates.length + 1 := by
  rw [Windows.updates_snoc, h, List.length_append]
  rfl

theorem Follows.sums_observed (h : Follows N W s) (ts : UInt64) (signedExec totalExec : ℚ)
    (hlt : s.win.updates.toNat + 1 < 2 ^ 32) (hupdate : s.updates now = true) :
    Sums N (W.snoc (.touch ts now signedExec totalExec)) (W.closed N)
      (s.observed now ts signedExec totalExec).win := by
  have hup : (W.next (.touch ts now signedExec totalExec)).isUpdate = true := h.isUpdate.trans hupdate
  have hsums := h.sums.observe rfl hlt hup
  rw [← h.prev, ← h.halted] at hsums
  exact hsums

/-- One more update in the open window. -/
theorem succ_of_lt {U : ℕ} (h : U % N + 1 < N) : (U + 1) / N = U / N ∧ (U + 1) % N = U % N + 1 := by
  have hsplit := Nat.mod_add_div U N
  exact (Nat.div_mod_unique (by omega)).mpr ⟨by omega, h⟩

/-- The update that completes the open window. -/
theorem succ_of_eq {U : ℕ} (h : U % N + 1 = N) : (U + 1) / N = U / N + 1 ∧ (U + 1) % N = 0 := by
  have hsplit := Nat.mod_add_div U N
  have hmul : N * (U / N + 1) = N * (U / N) + N := Nat.mul_succ N (U / N)
  exact (Nat.div_mod_unique (by omega)).mpr ⟨by omega, by omega⟩

/-- An update behind which the window is still open. -/
theorem snoc_of_lt {e : SymbolEvent} (hup : (W.next e).isUpdate = true) (h : W.updates.length % N + 1 < N) :
    (W.snoc e).closed N = W.closed N ∧ (W.snoc e).updates.length % N = W.updates.length % N + 1 := by
  unfold Windows.closed
  rw [updates_length_snoc hup]
  exact succ_of_lt h

/-- An update that completes the window. -/
theorem snoc_of_eq {e : SymbolEvent} (hup : (W.next e).isUpdate = true) (h : W.updates.length % N + 1 = N) :
    (W.snoc e).closed N = W.closed N + 1 ∧ (W.snoc e).updates.length % N = 0 := by
  unfold Windows.closed
  rw [updates_length_snoc hup]
  exact succ_of_eq h

/-- Nothing is numbered behind the open window. -/
theorem window_snoc_succ (h : ∀ m ∈ W.marks, m.number ≤ W.updates.length) (e : SymbolEvent) :
    (W.snoc e).window N (W.closed N + 1) = [] := by
  unfold Windows.window
  rw [List.filter_eq_nil_iff]
  intro m hm
  have hle : m.number / N ≤ W.closed N := Nat.div_le_div_right (numbers_snoc h e m hm)
  simp
  omega

theorem count_observed (hlt : s.win.updates.toNat + 1 < 2 ^ 32) :
    (s.observed now ts signedExec totalExec).win.updates.toNat = s.win.updates.toNat + 1 := by
  show (s.win.updates + 1).toNat = _
  rw [UInt32.toNat_add]
  exact Nat.mod_eq_of_lt hlt

theorem Follows.observed (h : Follows N W s) (ts : UInt64) (signedExec totalExec : ℚ) (hN : N < 2 ^ 32)
    (hupdate : s.updates now = true) (hlt : s.win.updates.toNat + 1 < N) :
    Follows N (W.snoc (.touch ts now signedExec totalExec)) (s.observed now ts signedExec totalExec) := by
  have hup : (W.next (.touch ts now signedExec totalExec)).isUpdate = true := h.isUpdate.trans hupdate
  obtain ⟨hclosed, hmodulo⟩ := snoc_of_lt (N := N) hup (by rw [h.modulo]; exact hlt)
  have hsums := h.sums_observed ts signedExec totalExec (by omega) hupdate
  refine ⟨?_, ?_, fun m hm => ?_, ?_, ?_, h.held hclosed⟩
  · rw [Windows.inside_snoc]
    rfl
  · rw [Windows.halted_snoc]
    exact h.halted
  · rw [updates_length_snoc hup]
    exact Nat.le_succ_of_le (numbers_snoc h.numbers _ m hm)
  · rw [hclosed]
    exact hsums
  · rw [count_observed (by omega), hmodulo, h.modulo]

/-- What a close holds. -/
structure ClosesRow (N : ℕ) (W : Windows) (k : ℕ) (w : FeatureWindow) (now before : Inside) (ts : UInt64) : Prop where
  features : ∀ msgs, { w.features false now before ts msgs with closeMsg := 0 } = W.features N k
  usable : w.usable now ts = W.usable N k
  last : W.last N k = now

/-- The update that completes the window. -/
theorem Follows.close (h : Follows N W s) (ts : UInt64) (signedExec totalExec : ℚ) (hN : N < 2 ^ 32)
    (hupdate : s.updates now = true) (heq : s.win.updates.toNat + 1 = N) :
    ClosesRow N (W.snoc (.touch ts now signedExec totalExec)) (W.closed N)
        (s.observed now ts signedExec totalExec).win now s.prev ts ∧
      (W.snoc (.touch ts now signedExec totalExec)).closed N = W.closed N + 1 ∧
      ∀ msgs, Follows N (W.snoc (.touch ts now signedExec totalExec))
        { s.observed now ts signedExec totalExec with
          pending := (s.observed now ts signedExec totalExec).win.features false now s.prev ts msgs
          win := {} } := by
  have hup : (W.next (.touch ts now signedExec totalExec)).isUpdate = true := h.isUpdate.trans hupdate
  obtain ⟨hclosed, hmodulo⟩ := snoc_of_eq (N := N) hup (by rw [h.modulo]; exact heq)
  have hsums := h.sums_observed ts signedExec totalExec (by omega) hupdate
  have hvalid : now.valid = true := by
    unfold SymbolState.updates at hupdate
    simp only [Bool.and_eq_true] at hupdate
    exact hupdate.1.1
  have hcount : (s.observed now ts signedExec totalExec).win.updates.toNat = N :=
    (count_observed (by omega)).trans heq
  have hupdates : (W.snoc (.touch ts now signedExec totalExec)).updatesIn N (W.closed N) =
      W.updatesIn N (W.closed N) ++ [W.next (.touch ts now signedExec totalExec)] := by
    rw [Windows.updatesIn_snoc, if_pos ⟨rfl, hup⟩]
  have hlast : (W.snoc (.touch ts now signedExec totalExec)).last N (W.closed N) = now := by
    unfold Windows.last
    rw [hupdates, List.getLast?_concat]
    rfl
  have hend : (W.snoc (.touch ts now signedExec totalExec)).endTs N (W.closed N) = ts := by
    unfold Windows.endTs
    rw [hupdates, List.getLast?_concat]
    rfl
  have hall (msgs : ℕ) := hsums.features hcount (by omega) hvalid hlast hend s.prev msgs
  refine ⟨⟨fun msgs => (hall msgs).1, (hall 0).2.1, hlast⟩, hclosed, fun msgs => ?_⟩
  refine ⟨?_, ?_, fun m hm => ?_, ?_, ?_, ?_⟩
  · rw [Windows.inside_snoc]
    rfl
  · rw [Windows.halted_snoc]
    exact h.halted
  · rw [updates_length_snoc hup]
    exact Nat.le_succ_of_le (numbers_snoc h.numbers _ m hm)
  · apply sums_empty
    rw [hclosed]
    exact window_snoc_succ h.numbers _
  · exact hmodulo
  · rw [hclosed, if_neg (Nat.succ_ne_zero _)]
    exact (hall msgs).1

/-! ## Rows -/

theorem judged_snoc_of_same {e : SymbolEvent} (h : (W.snoc e).closed N = W.closed N) :
    (W.snoc e).judged N = W.judged N := by
  unfold Windows.judged
  rw [h]
  refine List.filter_congr fun k hk => ?_
  have hlt : k < W.closed N - 1 := List.mem_range.mp hk
  rw [(features_snoc e (show k < W.closed N by omega)).2.2]

theorem mem_judged {k : ℕ} (h : k ∈ W.judged N) : k + 1 < W.closed N := by
  have hlt := List.mem_range.mp (List.mem_filter.mp h).1
  omega

/-- The rows of the windows judged so far stay. -/
theorem rows_judged (e : SymbolEvent) (locate : UInt16) :
    ((W.judged N).filter fun k => (W.snoc e).usable N (k + 1)).map ((W.snoc e).row N locate) = W.rows N locate := by
  have hfilter : (W.judged N).filter (fun k => (W.snoc e).usable N (k + 1)) =
      (W.judged N).filter fun k => W.usable N (k + 1) :=
    List.filter_congr fun k hk => by rw [(features_snoc e (mem_judged hk)).2.2]
  unfold Windows.rows
  rw [hfilter]
  refine List.map_congr_left fun k hk => ?_
  have hlt := mem_judged (List.mem_filter.mp hk).1
  rw [Windows.row_eq, Windows.row_eq, (features_snoc e (show k < W.closed N by omega)).1, (features_snoc e hlt).2.1]

theorem rows_snoc_of_same {e : SymbolEvent} (h : (W.snoc e).closed N = W.closed N) (locate : UInt16) :
    (W.snoc e).rows N locate = W.rows N locate := by
  refine Eq.trans ?_ (rows_judged e locate)
  unfold Windows.rows
  rw [judged_snoc_of_same h]

/-- When a window closes, the one before it is judged if it is usable. -/
theorem judged_snoc_of_close {e : SymbolEvent} (h : (W.snoc e).closed N = W.closed N + 1) :
    (W.snoc e).judged N = W.judged N ++
      if W.closed N ≠ 0 ∧ W.usable N (W.closed N - 1) = true then [W.closed N - 1] else [] := by
  unfold Windows.judged
  rw [h, Nat.add_sub_cancel]
  have hold : ∀ k < W.closed N, (W.snoc e).usable N k = W.usable N k := fun k hk =>
    (features_snoc e hk).2.2
  cases hk : W.closed N with
  | zero => simp
  | succ k =>
    rw [hk] at hold
    rw [Nat.add_sub_cancel, List.range_succ, List.filter_append, List.filter_singleton, hold k (by omega)]
    congr 1
    · exact List.filter_congr fun j hj => hold j (by have := List.mem_range.mp hj; omega)
    · cases W.usable N k <;> simp

theorem rows_snoc_of_close {e : SymbolEvent} (h : (W.snoc e).closed N = W.closed N + 1) (locate : UInt16) :
    (W.snoc e).rows N locate = W.rows N locate ++
      if (W.closed N ≠ 0 ∧ W.usable N (W.closed N - 1) = true) ∧ (W.snoc e).usable N (W.closed N) = true then
        [(W.features N (W.closed N - 1)).row locate ((W.snoc e).last N (W.closed N)).mid]
      else [] := by
  have hrows : (W.snoc e).rows N locate =
      (((W.snoc e).judged N).filter fun k => (W.snoc e).usable N (k + 1)).map ((W.snoc e).row N locate) := rfl
  rw [hrows, judged_snoc_of_close h, List.filter_append, List.map_append, rows_judged]
  congr 1
  by_cases hj : W.closed N ≠ 0 ∧ W.usable N (W.closed N - 1) = true
  · have hsucc : W.closed N - 1 + 1 = W.closed N := by omega
    rw [if_pos hj, List.filter_singleton, hsucc]
    cases (W.snoc e).usable N (W.closed N) with
    | false => simp
    | true =>
      rw [if_pos ⟨hj, rfl⟩, cond_true, List.map_singleton, Windows.row_eq, hsucc,
        (features_snoc e (show W.closed N - 1 < W.closed N by omega)).1]
  · rw [if_neg hj, if_neg fun hc => hj hc.1]
    rfl

end

/-! ## The exporter -/

/-- The exporter, when the windows of each symbol are `Ws`. -/
structure FollowsAll (N : ℕ) (Ws : UInt16 → Windows) (ex : FeatureExporter) : Prop where
  follows : ∀ l ∈ ex.selected, Follows N (Ws l) (ex.state l)
  out : ∀ l ∈ ex.selected, ex.out.filter (fun r => r.locate == l) = (Ws l).rows N l
  judged : ex.rows + ex.droppedHalt + ex.droppedBounds = ∑ l ∈ ex.selected, ((Ws l).judged N).length
  count : ex.rows = ex.out.length

section

open FeatureExporter

variable {N : ℕ} {Ws : UInt16 → Windows} {ex : FeatureExporter} {locate : UInt16}

/-- A symbol that is not selected does not matter. -/
theorem FollowsAll.update_of_not (h : FollowsAll N Ws ex) (hl : locate ∉ ex.selected) (W : Windows) :
    FollowsAll N (Function.update Ws locate W) ex := by
  have hne : ∀ l ∈ ex.selected, Function.update Ws locate W l = Ws l := fun l hmem =>
    Function.update_of_ne (fun heq => hl (by rw [← heq]; exact hmem)) _ _
  refine ⟨fun l hmem => ?_, fun l hmem => ?_, ?_, h.count⟩
  · rw [hne l hmem]
    exact h.follows l hmem
  · rw [hne l hmem]
    exact h.out l hmem
  · rw [h.judged]
    exact Finset.sum_congr rfl fun l hmem => by rw [hne l hmem]

/-- A symbol moves on without a close. -/
theorem FollowsAll.setState (h : FollowsAll N Ws ex) {s : SymbolState} {e : SymbolEvent}
    (hs : locate ∈ ex.selected → Follows N ((Ws locate).snoc e) s)
    (hclosed : locate ∈ ex.selected → ((Ws locate).snoc e).closed N = (Ws locate).closed N) :
    FollowsAll N (Function.update Ws locate ((Ws locate).snoc e)) (ex.setState locate s) := by
  have hsame : ∀ l ∈ ex.selected, (Function.update Ws locate ((Ws locate).snoc e) l).judged N = (Ws l).judged N ∧
      (Function.update Ws locate ((Ws locate).snoc e) l).rows N l = (Ws l).rows N l := by
    intro l hmem
    by_cases hl : l = locate
    · subst hl
      rw [Function.update_self]
      exact ⟨judged_snoc_of_same (hclosed hmem), rows_snoc_of_same (hclosed hmem) l⟩
    · rw [Function.update_of_ne hl]
      exact ⟨rfl, rfl⟩
  refine ⟨fun l hmem => ?_, fun l hmem => ?_, ?_, h.count⟩
  · rw [setState_state]
    by_cases hl : l = locate
    · subst hl
      rw [if_pos rfl, Function.update_self]
      exact hs hmem
    · rw [if_neg hl, Function.update_of_ne hl]
      exact h.follows l hmem
  · rw [(hsame l hmem).2]
    exact h.out l hmem
  · show ex.rows + ex.droppedHalt + ex.droppedBounds = ∑ l ∈ ex.selected, _
    rw [h.judged]
    exact Finset.sum_congr rfl fun l hmem => by rw [(hsame l hmem).1]

/-- What is held before the close. -/
theorem Follows.pending_held {W : Windows} {s : SymbolState} (h : Follows N W s) :
    s.pending.held = true ↔ W.closed N ≠ 0 ∧ W.usable N (W.closed N - 1) = true := by
  have hheld : s.pending.held =
      (if W.closed N = 0 then ({} : Pending) else W.features N (W.closed N - 1)).held := by rw [← h.pending]
  rw [hheld]
  by_cases hz : W.closed N = 0
  · simp [hz]
  · rw [if_neg hz]
    exact ⟨fun hu => ⟨hz, hu⟩, And.right⟩

theorem Follows.pending_row {W : Windows} {s : SymbolState} (h : Follows N W s) (hz : W.closed N ≠ 0)
    (locate : UInt16) (mid : ℚ) :
    s.pending.row locate mid = (W.features N (W.closed N - 1)).row locate mid := by
  have hpending := h.pending
  rw [if_neg hz] at hpending
  rw [← hpending]
  rfl

/-- The number of windows that have been judged. -/
def judgedCount (ex : FeatureExporter) : ℕ := ex.rows + ex.droppedHalt + ex.droppedBounds

/-- What becomes of the held window. -/
theorem judge_spec (ex : FeatureExporter) (locate : UInt16) (s : SymbolState) (now : Inside) (ts : UInt64) :
    (ex.judge locate s now ts).out = ex.out ++
        (if s.pending.held = true ∧ s.win.usable now ts = true then [s.pending.row locate now.mid] else []) ∧
      (ex.judge locate s now ts).rows = ex.rows +
        (if s.pending.held = true ∧ s.win.usable now ts = true then 1 else 0) ∧
      judgedCount (ex.judge locate s now ts) = judgedCount ex + (if s.pending.held = true then 1 else 0) ∧
      (ex.judge locate s now ts).selected = ex.selected ∧ (ex.judge locate s now ts).state = ex.state := by
  unfold judge judgedCount
  cases s.pending.held with
  | false => exact ⟨(List.append_nil _).symm, rfl, rfl, rfl, rfl⟩
  | true =>
    cases s.win.usable now ts with
    | true =>
      refine ⟨rfl, rfl, ?_, rfl, rfl⟩
      show ex.rows + 1 + ex.droppedHalt + ex.droppedBounds = ex.rows + ex.droppedHalt + ex.droppedBounds + 1
      omega
    | false =>
      cases s.win.inBounds ts with
      | true =>
        refine ⟨(List.append_nil _).symm, rfl, ?_, rfl, rfl⟩
        show ex.rows + (ex.droppedHalt + 1) + ex.droppedBounds = ex.rows + ex.droppedHalt + ex.droppedBounds + 1
        omega
      | false => exact ⟨(List.append_nil _).symm, rfl, rfl, rfl, rfl⟩

/-- A symbol closes a window. -/
theorem FollowsAll.closeWindow (h : FollowsAll N Ws ex) (hmem : locate ∈ ex.selected) {s : SymbolState}
    {e : SymbolEvent} {now before : Inside} {ts : UInt64} (hlag : ex.lag1 = false)
    (hpending : s.pending = (ex.state locate).pending)
    (hcloses : ClosesRow N ((Ws locate).snoc e) ((Ws locate).closed N) s.win now before ts)
    (hclosed : ((Ws locate).snoc e).closed N = (Ws locate).closed N + 1)
    (hs : ∀ msgs, Follows N ((Ws locate).snoc e)
      { s with pending := s.win.features false now before ts msgs, win := {} }) :
    FollowsAll N (Function.update Ws locate ((Ws locate).snoc e)) (ex.closeWindow locate s now before ts) := by
  have hfollows := h.follows locate hmem
  have hheld := hfollows.pending_held
  rw [← hpending] at hheld
  have hrow (hz : (Ws locate).closed N ≠ 0) : s.pending.row locate now.mid = _ :=
    (congrArg (fun p => Pending.row p locate now.mid) hpending).trans (hfollows.pending_row hz locate now.mid)
  have hjudged := judged_snoc_of_close hclosed
  have hrows := rows_snoc_of_close hclosed locate
  rw [← hcloses.usable, hcloses.last] at hrows
  obtain ⟨hout, hcount, htotal, hselected, hstate⟩ := judge_spec ex locate s now ts
  set δ := if s.pending.held = true then 1 else 0 with hδ
  have hlength : (((Ws locate).snoc e).judged N).length = ((Ws locate).judged N).length + δ := by
    rw [hjudged, List.length_append, hδ]
    simp only [← hheld]
    split <;> rfl
  unfold FeatureExporter.closeWindow
  refine ⟨fun l hl => ?_, fun l hl => ?_, ?_, ?_⟩
  · rw [setState_state]
    by_cases heq : l = locate
    · subst heq
      rw [if_pos rfl, Function.update_self, hlag]
      exact hs ex.msgs
    · rw [if_neg heq, Function.update_of_ne heq]
      show Follows N (Ws l) ((ex.judge locate s now ts).state l)
      rw [hstate]
      exact h.follows l (hselected ▸ hl)
  · show (ex.judge locate s now ts).out.filter _ = _
    rw [hout, List.filter_append, h.out l (hselected ▸ hl)]
    by_cases heq : l = locate
    · subst heq
      rw [Function.update_self, hrows]
      congr 1
      by_cases hc : s.pending.held = true ∧ s.win.usable now ts = true
      · rw [if_pos hc, if_pos ⟨hheld.mp hc.1, hc.2⟩, ← hrow (hheld.mp hc.1).1]
        exact List.filter_eq_self.mpr fun r hr => by
          rw [List.mem_singleton.mp hr]
          exact beq_self_eq_true _
      · rw [if_neg hc, if_neg fun hc' => hc ⟨hheld.mpr hc'.1, hc'.2⟩]
        rfl
    · rw [Function.update_of_ne heq]
      refine (congrArg _ ?_).trans (List.append_nil _)
      refine List.filter_eq_nil_iff.mpr fun r hr => ?_
      split at hr
      · rw [List.mem_singleton.mp hr]
        simpa [Pending.row] using Ne.symm heq
      · cases hr
  · show judgedCount (ex.judge locate s now ts) = ∑ l ∈ (ex.judge locate s now ts).selected, _
    rw [htotal, hselected]
    have hsum : judgedCount ex = _ := h.judged
    rw [hsum, ← Finset.add_sum_erase _ _ hmem, ← Finset.add_sum_erase _ _ hmem, Function.update_self, hlength,
      add_right_comm]
    congr 1
    exact Finset.sum_congr rfl fun l hl => by rw [Function.update_of_ne (Finset.ne_of_mem_erase hl)]
  · show (ex.judge locate s now ts).rows = (ex.judge locate s now ts).out.length
    rw [hcount, hout, List.length_append, h.count]
    congr 1
    split <;> rfl

/-- Only the book and the message count have changed. -/
theorem FollowsAll.congr (h : FollowsAll N Ws ex) (n : ℕ) (b : ReferenceBook) :
    FollowsAll N Ws { ex with msgs := n, book := b } := ⟨h.follows, h.out, h.judged, h.count⟩

/-- A message behind which the inside of a symbol is read. -/
theorem FollowsAll.touch (h : FollowsAll N Ws ex) (hN : N = ex.window.toNat) (hpos : 0 < N)
    (hlag : ex.lag1 = false) (ts : UInt64) (signedExec totalExec : ℚ) :
    FollowsAll N
      (Function.update Ws locate
        ((Ws locate).snoc (.touch ts (ex.readInside locate) signedExec totalExec)))
      (ex.touch locate ts signedExec totalExec) := by
  by_cases hmem : locate ∈ ex.selected
  swap
  · have hsame : ex.touch locate ts signedExec totalExec = ex := if_pos hmem
    rw [hsame]
    exact h.update_of_not hmem _
  have hfollows := h.follows locate hmem
  have hbound : N < 2 ^ 32 := hN ▸ ex.window.toNat_lt
  have hmodlt : (ex.state locate).win.updates.toNat < N := by
    rw [← hfollows.modulo]
    exact Nat.mod_lt _ hpos
  have hcount : ((ex.state locate).observed (ex.readInside locate) ts signedExec totalExec).win.updates.toNat =
      (ex.state locate).win.updates.toNat + 1 := count_observed (by omega)
  rw [touch_eq hmem]
  simp only
  by_cases hupdate : (ex.state locate).updates (ex.readInside locate) = true
  swap
  · have hnot : (ex.state locate).updates (ex.readInside locate) = false := Bool.eq_false_iff.mpr hupdate
    rw [if_neg hupdate]
    exact h.setState (fun _ => hfollows.read hnot) fun _ =>
      closed_snoc_of_not (hfollows.isUpdate.trans hnot)
  rw [if_pos hupdate]
  by_cases hfull : ((ex.state locate).observed (ex.readInside locate) ts signedExec totalExec).win.updates ≥
      ex.window
  · have heq : (ex.state locate).win.updates.toNat + 1 = N := by
      have hle := UInt32.le_iff_toNat_le.mp hfull
      rw [hcount, ← hN] at hle
      omega
    obtain ⟨hcloses, hclosed, hs⟩ := hfollows.close ts signedExec totalExec hbound hupdate heq
    rw [if_pos hfull]
    exact h.closeWindow hmem hlag rfl hcloses hclosed hs
  · have hlt : (ex.state locate).win.updates.toNat + 1 < N := by
      have hnle := UInt32.le_iff_toNat_le.not.mp hfull
      rw [hcount, ← hN] at hnle
      omega
    have hnext := hfollows.observed ts signedExec totalExec hbound hupdate hlt
    rw [if_neg hfull]
    refine h.setState (fun _ => hnext) fun _ => ?_
    have hup : ((Ws locate).next (.touch ts (ex.readInside locate) signedExec totalExec)).isUpdate = true :=
      hfollows.isUpdate.trans hupdate
    exact (snoc_of_lt hup (by rw [hfollows.modulo]; exact hlt)).1

/-- What a message is to the exporter. -/
theorem on_cases (ex : FeatureExporter) (msg : Message) : ∃ n,
    (ex.on msg = { ex with msgs := n, book := bookAfter ex.book msg } ∧
      ∀ l, SymbolEvent.of ex.book l msg = none) ∨
    (∃ l₀ halted,
      ex.on msg = { ex with msgs := n, book := bookAfter ex.book msg }.setState l₀ ((ex.state l₀).acted halted) ∧
      ∀ l, SymbolEvent.of ex.book l msg = if l₀ = l then some (.action halted) else none) ∨
    (∃ l₀ ts signedExec totalExec,
      ex.on msg = { ex with msgs := n, book := bookAfter ex.book msg }.touch l₀ ts signedExec totalExec ∧
      ∀ l, SymbolEvent.of ex.book l msg = if l₀ = l then
        some (.touch ts (Inside.read (bookAfter ex.book msg) l) signedExec totalExec) else none) := by
  cases msg with
  | systemEvent v => exact ⟨_, .inl ⟨rfl, fun _ => rfl⟩⟩
  | stockDirectory v => exact ⟨_, .inl ⟨rfl, fun _ => rfl⟩⟩
  | operationalHalt v => exact ⟨ex.msgs, .inl ⟨rfl, fun _ => rfl⟩⟩
  | stockTradingAction v => exact ⟨_, .inr (.inl ⟨v.locate, isHalt v.tradingState, rfl, fun _ => rfl⟩)⟩
  | orderExecuted v => exact ⟨_, .inr (.inr ⟨_, _, _, _, rfl, fun l => SymbolEvent.of_orderExecuted _ l v⟩)⟩
  | orderExecutedPrice v =>
    exact ⟨_, .inr (.inr ⟨_, _, _, _, rfl, fun l => SymbolEvent.of_orderExecutedPrice _ l v⟩)⟩
  | _ => exact ⟨_, .inr (.inr ⟨_, _, _, _, rfl, fun _ => rfl⟩)⟩

/-- The windows of a symbol behind a message. -/
def Windows.feed (W : Windows) (e : Option SymbolEvent) : Windows := e.elim W W.snoc

theorem feed_eq {e : UInt16 → SymbolEvent} :
    (fun l => (Ws l).feed (if locate = l then some (e l) else none)) =
      Function.update Ws locate ((Ws locate).snoc (e locate)) := by
  funext l
  by_cases h : locate = l
  · subst h
    rw [if_pos rfl, Function.update_self]
    rfl
  · rw [if_neg h, Function.update_of_ne (Ne.symm h)]
    rfl

/-- **A message.** -/
theorem FollowsAll.on (h : FollowsAll N Ws ex) (hN : N = ex.window.toNat) (hpos : 0 < N)
    (hlag : ex.lag1 = false) (msg : Message) :
    FollowsAll N (fun l => (Ws l).feed (SymbolEvent.of ex.book l msg)) (ex.on msg) := by
  obtain ⟨n, ⟨heq, hnone⟩ | ⟨l₀, halted, heq, hof⟩ | ⟨l₀, ts, signedExec, totalExec, heq, hof⟩⟩ :=
    on_cases ex msg
  · have hsame : (fun l => (Ws l).feed (SymbolEvent.of ex.book l msg)) = Ws :=
      funext fun l => by rw [hnone l]; rfl
    rw [heq, hsame]
    exact h.congr n _
  · have hws : (fun l => (Ws l).feed (SymbolEvent.of ex.book l msg)) =
        Function.update Ws l₀ ((Ws l₀).snoc (.action halted)) := by
      rw [← feed_eq (e := fun _ => .action halted)]
      exact funext fun l => by rw [hof l]
    rw [heq, hws]
    exact (h.congr n _).setState (fun hmem => (h.follows l₀ hmem).acted halted) fun _ => closed_snoc_of_not rfl
  · have hws : (fun l => (Ws l).feed (SymbolEvent.of ex.book l msg)) = Function.update Ws l₀
        ((Ws l₀).snoc (.touch ts (Inside.read (bookAfter ex.book msg) l₀) signedExec totalExec)) := by
      rw [← feed_eq (e := fun l => .touch ts (Inside.read (bookAfter ex.book msg) l) signedExec totalExec)]
      exact funext fun l => by rw [hof l]
    rw [heq, hws]
    exact (h.congr n _).touch hN hpos hlag ts signedExec totalExec

/-! ## Runs -/

/-- What no message changes, and the book. -/
structure SameSetting (ex ex' : FeatureExporter) : Prop where
  selected : ex'.selected = ex.selected
  window : ex'.window = ex.window
  lag1 : ex'.lag1 = ex.lag1
  book : ex'.book = ex.book

theorem sameSetting_judge (ex : FeatureExporter) (locate : UInt16) (s : SymbolState) (now : Inside) (ts : UInt64) :
    SameSetting ex (ex.judge locate s now ts) := by
  unfold judge
  split_ifs <;> exact ⟨rfl, rfl, rfl, rfl⟩

theorem sameSetting_touch (ex : FeatureExporter) (locate : UInt16) (ts : UInt64) (signedExec totalExec : ℚ) :
    SameSetting ex (ex.touch locate ts signedExec totalExec) := by
  by_cases hmem : locate ∈ ex.selected
  swap
  · have hsame : ex.touch locate ts signedExec totalExec = ex := if_pos hmem
    rw [hsame]
    exact ⟨rfl, rfl, rfl, rfl⟩
  rw [touch_eq hmem]
  simp only
  split_ifs
  · have hjudge := sameSetting_judge ex locate
      ((ex.state locate).observed (ex.readInside locate) ts signedExec totalExec) (ex.readInside locate) ts
    exact ⟨hjudge.selected, hjudge.window, hjudge.lag1, hjudge.book⟩
  · exact ⟨rfl, rfl, rfl, rfl⟩
  · exact ⟨rfl, rfl, rfl, rfl⟩

/-- A message goes to the book, whatever else it does. -/
theorem sameSetting_on (ex : FeatureExporter) (msg : Message) :
    SameSetting { ex with book := bookAfter ex.book msg } (ex.on msg) := by
  obtain ⟨n, ⟨heq, -⟩ | ⟨l₀, halted, heq, -⟩ | ⟨l₀, ts, signedExec, totalExec, heq, -⟩⟩ := on_cases ex msg
  · rw [heq]
    exact ⟨rfl, rfl, rfl, rfl⟩
  · rw [heq]
    exact ⟨rfl, rfl, rfl, rfl⟩
  · rw [heq]
    have htouch := sameSetting_touch { ex with msgs := n, book := bookAfter ex.book msg } l₀ ts signedExec totalExec
    exact ⟨htouch.selected, htouch.window, htouch.lag1, htouch.book⟩

theorem sameSetting_run (ms : List Message) (ex : FeatureExporter) :
    SameSetting { ex with book := ms.foldl bookAfter ex.book } (Runs.run on ex ms) := by
  induction ms generalizing ex with
  | nil => exact ⟨rfl, rfl, rfl, rfl⟩
  | cons msg ms ih =>
    have hstep := sameSetting_on ex msg
    have hrest := ih (ex.on msg)
    refine ⟨hrest.selected.trans hstep.selected, hrest.window.trans hstep.window, hrest.lag1.trans hstep.lag1, ?_⟩
    rw [List.foldl_cons]
    exact hrest.book.trans (congrArg (fun b => ms.foldl bookAfter b) hstep.book)

end

theorem windows_feed (W : Windows) (e : Option SymbolEvent) : e.toList.foldl Windows.snoc W = W.feed e := by
  cases e <;> rfl

/-- The windows of a symbol, read off the messages. -/
def windowsOf (locate : UInt16) (ms : List Message) : Windows := Windows.of (symbolEvents locate {} ms)

theorem windowsOf_snoc (locate : UInt16) (ms : List Message) (msg : Message) :
    windowsOf locate (ms ++ [msg]) =
      (windowsOf locate ms).feed (SymbolEvent.of (ms.foldl bookAfter {}) locate msg) := by
  unfold windowsOf Windows.of
  rw [symbolEvents_snoc, List.foldl_append, windows_feed]

/-- An element more, in the piece of a list that it falls into. -/
theorem take_drop_snoc {α : Type} {N : ℕ} (hpos : 0 < N) (xs : List α) (x : α) (k : ℕ) :
    ((xs ++ [x]).drop (k * N)).take N =
      (xs.drop (k * N)).take N ++ if xs.length / N = k then [x] else [] := by
  rcases lt_trichotomy (xs.length / N) k with hlt | heq | hgt
  · have hlen : xs.length < k * N := (Nat.div_lt_iff_lt_mul hpos).mp hlt
    have hnew : (xs ++ [x]).length ≤ k * N := by
      rw [List.length_append]
      exact hlen
    rw [if_neg (Nat.ne_of_lt hlt), List.drop_of_length_le hnew, List.drop_of_length_le hlen.le, List.append_nil]
  · subst heq
    have hle := Nat.div_mul_le_self xs.length N
    have hlt : xs.length < xs.length / N * N + N := by
      have hmod := Nat.mod_lt xs.length hpos
      have hsplit := Nat.div_add_mod' xs.length N
      omega
    have hold : (xs.drop (xs.length / N * N)).length < N := by
      rw [List.length_drop]
      omega
    have hnew : (xs.drop (xs.length / N * N) ++ [x]).length ≤ N := by
      rw [List.length_append]
      exact hold
    rw [if_pos rfl, List.drop_append_of_le_length hle, List.take_of_length_le hnew, List.take_of_length_le hold.le]
  · have hle : (k + 1) * N ≤ xs.length := (Nat.le_div_iff_mul_le hpos).mp hgt
    rw [Nat.succ_mul] at hle
    have hlong : N ≤ (xs.drop (k * N)).length := by
      rw [List.length_drop]
      omega
    rw [if_neg (Nat.ne_of_gt hgt), List.append_nil, List.drop_append_of_le_length (by omega),
      List.take_append_of_le_length hlong]

/-- The updates of a window are the next `N` of the symbol's. -/
theorem updatesIn_eq {N : ℕ} (hpos : 0 < N) (es : List SymbolEvent) (k : ℕ) :
    (Windows.of es).updatesIn N k = ((Windows.of es).updates.drop (k * N)).take N := by
  induction es using List.reverseRecOn with
  | nil =>
    have hnone : (Windows.of []).updates = [] := rfl
    rw [hnone, List.drop_nil, List.take_nil]
    rfl
  | append_singleton es e ih =>
    rw [Windows.of_snoc, Windows.updatesIn_snoc, Windows.updates_snoc, ih]
    cases ((Windows.of es).next e).isUpdate with
    | false => simp
    | true =>
      simp only [and_true, if_true]
      exact (take_drop_snoc hpos _ _ k).symm

/-- After every run from the start. -/
theorem follows_run (selected : Finset UInt16) {window : UInt32} (hwindow : 1 ≤ window) (auditing : Bool)
    (ms : List Message) :
    let ex := Runs.run FeatureExporter.on (FeatureExporter.init selected window false auditing) ms
    FollowsAll window.toNat (fun l => windowsOf l ms) ex ∧
      SameSetting (FeatureExporter.init selected window false auditing) { ex with book := {} } ∧
      ex.book = ms.foldl bookAfter {} := by
  have hpos : 0 < window.toNat := UInt32.le_iff_toNat_le.mp hwindow
  refine Runs.run_history (P := fun ms ex => FollowsAll window.toNat (fun l => windowsOf l ms) ex ∧
    SameSetting (FeatureExporter.init selected window false auditing) { ex with book := {} } ∧
      ex.book = ms.foldl bookAfter {}) ?_ ?_ ms
  · refine ⟨⟨fun l _ => follows_init _, fun l _ => ?_, ?_, rfl⟩, ⟨rfl, rfl, rfl, rfl⟩, rfl⟩
    · have hclosed : (windowsOf l []).closed window.toNat = 0 := Nat.zero_div _
      show [] = (windowsOf l []).rows window.toNat l
      unfold Windows.rows Windows.judged
      rw [hclosed]
      rfl
    · refine (Finset.sum_eq_zero fun l _ => ?_).symm
      have hclosed : (windowsOf l []).closed window.toNat = 0 := Nat.zero_div _
      unfold Windows.judged
      rw [hclosed]
      rfl
  · rintro ms msg ⟨hall, hsame, hbook⟩
    generalize Runs.run FeatureExporter.on (FeatureExporter.init selected window false auditing) ms = ex
      at hall hsame hbook ⊢
    have hwin : ex.window = window := hsame.window
    have hlag : ex.lag1 = false := hsame.lag1
    have hon := sameSetting_on ex msg
    have hws : (fun l => windowsOf l (ms ++ [msg])) =
        fun l => (windowsOf l ms).feed (SymbolEvent.of ex.book l msg) :=
      funext fun l => by rw [windowsOf_snoc, hbook]
    refine ⟨?_, ⟨hon.selected.trans hsame.selected, hon.window.trans hsame.window,
      hon.lag1.trans hsame.lag1, rfl⟩, ?_⟩
    · rw [hws]
      exact hall.on (by rw [hwin]) hpos hlag msg
    · rw [hon.book, hbook, List.foldl_concat]

/-- **Rows follow the registered windows.** Of each selected symbol: the `k`-th window, from zero, that closes
holds the updates of the inside from `k * window` on, `window` of them; the rows are those of the windows that are
usable and followed by one that is, in order. Every usable window that is followed by another is a row or
is counted as dropped. -/
theorem rows_follow (selected : Finset UInt16) {window : UInt32} (hwindow : 1 ≤ window) (auditing : Bool)
    (ms : List Message) :
    let ex := Runs.run FeatureExporter.on (FeatureExporter.init selected window false auditing) ms
    let N := window.toNat
    (∀ l ∈ selected, (∀ k < (windowsOf l ms).closed N,
        (windowsOf l ms).updatesIn N k = ((windowsOf l ms).updates.drop (k * N)).take N) ∧
      ex.out.filter (fun r => r.locate == l) = (windowsOf l ms).rows N l) ∧
    ex.rows = ex.out.length ∧
    ex.rows + ex.droppedHalt + ex.droppedBounds = ∑ l ∈ selected, ((windowsOf l ms).judged N).length := by
  have hpos : 0 < window.toNat := UInt32.le_iff_toNat_le.mp hwindow
  obtain ⟨hall, hsame, -⟩ := follows_run selected hwindow auditing ms
  have hselected : (Runs.run FeatureExporter.on
      (FeatureExporter.init selected window false auditing) ms).selected = selected := hsame.selected
  have hout := hall.out
  have hjudged := hall.judged
  rw [hselected] at hout hjudged
  exact ⟨fun l hl => ⟨fun k _ => updatesIn_eq hpos _ k, hout l hl⟩, hall.count, hjudged⟩

/-- An order of symbol 1, `ns` behind the opening. -/
def addAt (ns : BitVec 48) (ref : Ref) (side : UInt8) (shares : Shares) (price : Price) : Message :=
  .addOrder
    { locate := 1, ts := 34200000000000 + ns, orderRef := ref, side := side, shares := shares, stock := [],
      price := price }

/-- A bid and an ask when the market opens, then two updates of the bid. -/
def twoUpdates : List Message :=
  [addAt 0 1 kBuy 10 1000000, addAt 1 2 kSell 10 1000200, addAt 2 3 kBuy 5 1000000, addAt 3 4 kBuy 5 1000100]

/-- With windows of one update, the first window gets its row when the second one closes. -/
theorem rows_follow_twoUpdates :
    let ex := Runs.run FeatureExporter.on (FeatureExporter.init {1} 1 false false) twoUpdates
    ex.out.filter (fun r => r.locate == 1) = (windowsOf 1 twoUpdates).rows 1 1 ∧
      (windowsOf 1 twoUpdates).judged 1 = [0] ∧ ex.rows = 1 :=
  ⟨((rows_follow {1} (le_refl 1) false twoUpdates).1 1 (Finset.mem_singleton_self 1)).2, by decide +kernel,
    by decide +kernel⟩

end Carteret
