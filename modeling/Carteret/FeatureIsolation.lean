import Carteret.Recoding

/-!
# One symbol's rows

Symbols do not reach each other, as long as no message names an order of another symbol (`Own`).

1. `Book.only`: the orders of one symbol are the book of its own messages (`Book.step_only`).
2. What a feed does to one symbol: its next state and its row (`touchWith_state`, `touchWith_out`).
3. The rows of a symbol are those of its own messages (`isolated`).
-/

namespace Carteret

open QueueSim (tsOf represents_bookAfter)

/-! ## The orders of one symbol -/

namespace Message

def header : Message → Header
  | systemEvent v => v.toHeader
  | stockTradingAction v => v.toHeader
  | operationalHalt v => v.toHeader
  | stockDirectory v => v.toHeader
  | addOrder v => v.toHeader
  | addOrderMpid v => v.toHeader
  | orderExecuted v => v.toHeader
  | orderExecutedPrice v => v.toHeader
  | orderCancel v => v.toHeader
  | orderDelete v => v.toHeader
  | orderReplace v => v.toHeader
  | trade v => v.toHeader
  | brokenTrade v => v
  | crossTrade v => v.toHeader

/-- The references in a message. -/
def refs : Message → List Ref
  | addOrder v => [v.orderRef]
  | addOrderMpid v => [v.orderRef]
  | orderExecuted v => [v.orderRef]
  | orderExecutedPrice v => [v.orderRef]
  | orderCancel v => [v.orderRef]
  | orderDelete v => [v.orderRef]
  | orderReplace v => [v.oldOrderRef, v.newOrderRef]
  | _ => []

end Message

/-- The live orders that the message names are of its symbol. -/
def Own (A : Book) (m : Message) : Prop := ∀ e ∈ A.orders, e.ref ∈ m.refs → e.locate = m.header.locate

instance (A : Book) (m : Message) : Decidable (Own A m) :=
  inferInstanceAs (Decidable (∀ e ∈ A.orders, e.ref ∈ m.refs → e.locate = m.header.locate))

namespace Book

variable (A : Book) (l : UInt16)

def only : Book :=
  ⟨A.orders.filter fun e => e.locate == l, unique_sublist A.unique List.filter_sublist⟩

variable {A l} {e : Entry} {ref : Ref}

theorem mem_only : e ∈ (A.only l).orders ↔ e ∈ A.orders ∧ e.locate = l := by
  simp [only, List.mem_filter]

theorem drop_only (ref : Ref) : (A.drop ref).only l = (A.only l).drop ref :=
  ext_orders (List.filter_comm _ _ _)

theorem reduce_only (ref : Ref) (qty : Shares) : (A.reduce ref qty).only l = (A.only l).reduce ref qty := by
  have hlocate : ∀ {e e' : Entry}, e.reduce ref qty = some e' → e'.locate = e.locate := fun {e e'} h => by
    unfold Entry.reduce at h
    split_ifs at h <;> obtain rfl := Option.some.inj h <;> rfl
  refine ext_orders ?_
  show (A.orders.filterMap _).filter _ = (A.orders.filter _).filterMap _
  rw [List.filter_filterMap, List.filterMap_filter]
  refine List.filterMap_congr fun e _ => ?_
  cases h : e.reduce ref qty with
  | none => simp
  | some e' =>
    rw [Option.filter_some, hlocate h]

theorem place_only (e : Entry) :
    (A.place e).only l = if e.locate = l then (A.only l).place e else (A.only l).drop e.ref := by
  refine ext_orders ?_
  show ((A.drop e.ref).orders ++ [e]).filter _ = _
  rw [List.filter_append]
  have hdrop : (A.drop e.ref).orders.filter (fun e => e.locate == l) = ((A.only l).drop e.ref).orders :=
    congrArg orders (drop_only e.ref)
  rw [hdrop]
  split_ifs with h
  · rw [orders_place]
    simp [h]
  · simp [h]

theorem level_only (buy : Bool) (p : Price) : (A.only l).level l buy p = A.level l buy p := by
  unfold level only
  rw [List.filter_filter]
  refine List.filter_congr fun e _ => ?_
  unfold Entry.restsAt
  cases e.locate == l <;> simp

theorem absent_only (h : ∀ e ∈ A.orders, e.ref = ref → e.locate ≠ l) : ∀ e ∈ (A.only l).orders, e.ref ≠ ref :=
  fun e he href => h e (mem_only.mp he).1 href (mem_only.mp he).2

theorem find_only (h : ∀ e ∈ A.orders, e.ref = ref → e.locate = l) : (A.only l).find ref = A.find ref := by
  ext e
  rw [find_eq_some, find_eq_some, mem_only]
  exact ⟨fun hc => ⟨hc.1.1, hc.2⟩, fun hc => ⟨⟨hc.1, h e hc.1 hc.2⟩, hc.2⟩⟩

/-- **A message moves its own symbol**, and that as if there were no other. -/
theorem step_only {m : Message} (h : Own A m) :
    (A.step m).only l = if m.header.locate = l then (A.only l).step m else A.only l := by
  have habsent : ∀ {ref : Ref}, m.header.locate ≠ l → ref ∈ m.refs → ∀ e ∈ (A.only l).orders, e.ref ≠ ref :=
    fun hl href => absent_only fun e he hr => by rw [h e he (hr ▸ href)]; exact hl
  have hplace : ∀ e : Entry, e.locate = m.header.locate → e.ref ∈ m.refs →
      (A.place e).only l = if m.header.locate = l then (A.only l).place e else A.only l := fun e he href => by
    rw [place_only, he]
    refine ite_congr rfl (fun _ => rfl) fun hl => drop_of_absent (habsent hl href)
  have hreduce : ∀ (ref : Ref) (qty : Shares), ref ∈ m.refs →
      (A.reduce ref qty).only l = if m.header.locate = l then (A.only l).reduce ref qty else A.only l :=
    fun ref qty href => by
      rw [reduce_only]
      split_ifs with hl
      · rfl
      · exact reduce_of_absent (habsent hl href)
  cases m with
  | addOrder v => exact hplace (added v []) rfl (List.mem_singleton_self _)
  | addOrderMpid v => exact hplace (added v.toAddOrder v.attribution) rfl (List.mem_singleton_self _)
  | orderExecuted v => exact hreduce v.orderRef v.executedShares (List.mem_singleton_self _)
  | orderExecutedPrice v => exact hreduce v.orderRef v.executedShares (List.mem_singleton_self _)
  | orderCancel v => exact hreduce v.orderRef v.cancelledShares (List.mem_singleton_self _)
  | orderDelete v =>
    show (A.drop v.orderRef).only l = _
    rw [drop_only]
    split_ifs with hl
    · rfl
    · exact drop_of_absent (habsent hl (List.mem_singleton_self _))
  | orderReplace v =>
    have hown : ∀ e ∈ A.orders, e.ref = v.oldOrderRef → e.locate = v.locate :=
      fun e he hr => h e he (hr ▸ List.mem_cons_self)
    cases hfind : A.find v.oldOrderRef with
    | none =>
      have hid : A.step (.orderReplace v) = A := by simp only [step, hfind]
      rw [hid]
      split_ifs with hl
      · have hfind' : (A.only l).find v.oldOrderRef = none := by
          rw [find_only fun e he hr => (hown e he hr).trans hl, hfind]
        simp only [step, hfind']
      · rfl
    | some e =>
      have he : e.locate = v.locate := hown e (find_eq_some.mp hfind).1 (find_eq_some.mp hfind).2
      rw [step_orderReplace hfind]
      split_ifs with hl
      · have hfind' : (A.only l).find v.oldOrderRef = some e := by
          rw [find_only fun e he hr => (hown e he hr).trans hl, hfind]
        have hel : (replacement v e).locate = l := he.trans hl
        rw [step_orderReplace hfind', place_only, if_pos hel, drop_only]
      · have hel : (replacement v e).locate ≠ l := fun hc => hl (he.symm.trans hc)
        rw [place_only, if_neg hel, drop_only, drop_of_absent (habsent hl List.mem_cons_self)]
        exact drop_of_absent (habsent hl (List.mem_cons_of_mem _ (List.mem_singleton_self _)))
  | _ => exact (ite_self _).symm

end Book

/-! ## The feeds of one symbol -/

namespace Feed

/-- The feed moves the symbol. -/
def concerns (l : UInt16) : Feed → Bool
  | skip | count => false
  | action locate _ => locate == l
  | touch locate .. => locate == l

end Feed

section

variable {b b' : ReferenceBook} {A : Book} {l : UInt16}

theorem concerns_feedOf (b : ReferenceBook) {m : Message} (hl : m.header.locate ≠ l) :
    (feedOf b m).concerns l = false := by
  cases m <;> first | rfl | exact beq_false_of_ne hl

theorem ReferenceBook.Represents.only (h : b'.Represents (A.only l)) {m : Message} (hown : Own A m)
    (hl : m.header.locate = l) : (bookAfter b' m).Represents ((A.step m).only l) := by
  rw [Book.step_only hown, if_pos hl]
  exact represents_bookAfter h m

/-- A message of the symbol feeds the exporter the same beside other orders. -/
theorem feedOf_only (h : b.Represents A) (h' : b'.Represents (A.only l)) {m : Message} (hown : Own A m)
    (hl : m.header.locate = l) : feedOf b' m = feedOf b m := by
  have hread : Inside.read (bookAfter b' m) m.header.locate = Inside.read (bookAfter b m) m.header.locate := by
    rw [hl]
    exact ((h'.only hown hl).shows l).unique (((represents_bookAfter h m).shows l).congr fun buy p => by
      rw [Book.level_only])
  have hsigned : ∀ ref qty, ref ∈ m.refs →
      FeatureExporter.signedQty b' ref qty = FeatureExporter.signedQty b ref qty := fun ref qty href => by
    rw [h'.signedQty, h.signedQty]
    unfold Book.signedQty
    rw [Book.find_only fun e he hr => (hown e he (hr ▸ href)).trans hl]
  cases m with
  | systemEvent v => rfl
  | stockDirectory v => rfl
  | operationalHalt v => rfl
  | stockTradingAction v => rfl
  | orderExecuted v =>
    exact congrArg₂ (fun i q => Feed.touch v.locate (tsOf v.toHeader) i q v.executedShares.toNat) hread
      (hsigned v.orderRef v.executedShares (List.mem_singleton_self _))
  | orderExecutedPrice v =>
    exact congrArg₂ (fun i q => Feed.touch v.locate (tsOf v.toHeader) i q v.executedShares.toNat) hread
      (hsigned v.orderRef v.executedShares (List.mem_singleton_self _))
  | _ => exact congrArg (fun i => Feed.touch _ _ i 0 0) hread

theorem feeds_only (l : UInt16) : ∀ (ms : List Message) {b b' : ReferenceBook} {A : Book}, b.Represents A →
    b'.Represents (A.only l) → Runs.Along Book.step Own A ms →
      (feeds b' (ms.filter fun m => m.header.locate = l)).filter (Feed.concerns l) =
        (feeds b ms).filter (Feed.concerns l)
  | [], _, _, _, _, _, _ => rfl
  | m :: ms, b, b', A, h, h', hown => by
    obtain ⟨hm, hms⟩ := Runs.along_cons.mp hown
    by_cases hl : m.header.locate = l
    · have hrest := feeds_only l ms (represents_bookAfter h m) (h'.only hm hl) hms
      rw [List.filter_cons_of_pos (by simpa using hl)]
      simp only [feeds, List.filter_cons, feedOf_only h h' hm hl, hrest]
    · have h'' : b'.Represents ((A.step m).only l) := by
        rw [Book.step_only hm, if_neg hl]
        exact h'
      have hrest := feeds_only l ms (represents_bookAfter h m) h'' hms
      rw [List.filter_cons_of_neg (by simpa using hl), hrest]
      simp only [feeds, List.filter_cons, concerns_feedOf b hl, Bool.false_eq_true, if_false]

end

/-! ## What a feed does to one symbol -/

namespace SymbolState

/-- The window closes. -/
def closes (s : SymbolState) (window : UInt32) (now : Inside) (ts : UInt64) (signedExec totalExec : ℚ) : Bool :=
  s.updates now && decide ((s.observed now ts signedExec totalExec).win.updates ≥ window)

def next (s : SymbolState) (window : UInt32) (lag1 : Bool) (msgs : ℕ) (now : Inside) (ts : UInt64)
    (signedExec totalExec : ℚ) : SymbolState :=
  let s' := s.observed now ts signedExec totalExec
  if s.closes window now ts signedExec totalExec then
    { s' with pending := s'.win.features lag1 now s.prev ts msgs, win := {} }
  else if s.updates now then s' else s.read now signedExec totalExec

/-- The row that is written. -/
def line (s : SymbolState) (window : UInt32) (locate : UInt16) (now : Inside) (ts : UInt64)
    (signedExec totalExec : ℚ) : Option FeatureRow :=
  if s.closes window now ts signedExec totalExec && s.pending.held &&
      (s.observed now ts signedExec totalExec).win.usable now ts then
    some (s.pending.row locate now.mid)
  else none

/-- Another number of the closing message. -/
def stamped (s : SymbolState) (n : ℕ) : SymbolState := { s with pending := { s.pending with closeMsg := n } }

theorem next_stamped (s : SymbolState) (n : ℕ) (window : UInt32) (lag1 : Bool) (msgs msgs' : ℕ) (now : Inside)
    (ts : UInt64) (signedExec totalExec : ℚ) :
    ∃ n', (s.stamped n).next window lag1 msgs' now ts signedExec totalExec =
      (s.next window lag1 msgs now ts signedExec totalExec).stamped n' := by
  have hcloses : (s.stamped n).closes window now ts signedExec totalExec =
      s.closes window now ts signedExec totalExec := rfl
  have hupdates : (s.stamped n).updates now = s.updates now := rfl
  unfold next
  dsimp only
  rw [hcloses, hupdates]
  split_ifs
  · exact ⟨msgs', rfl⟩
  · exact ⟨n, rfl⟩
  · exact ⟨n, rfl⟩

end SymbolState

namespace FeatureExporter

variable {ex ex' : FeatureExporter} {locate l : UInt16} {now : Inside} {ts : UInt64} {signedExec totalExec : ℚ}

theorem judge_state (s : SymbolState) : (ex.judge locate s now ts).state = ex.state := by
  unfold judge
  split_ifs <;> rfl

theorem judge_out (s : SymbolState) : (ex.judge locate s now ts).out =
    ex.out ++ if s.pending.held && s.win.usable now ts then [s.pending.row locate now.mid] else [] := by
  unfold judge
  cases s.pending.held <;> cases s.win.usable now ts
  · simp
  · simp
  · simp only [if_true, Bool.false_eq_true, if_false, Bool.and_false, List.append_nil]
    split_ifs <;> rfl
  · simp

theorem touchWith_state (h : locate ∈ ex.selected) :
    (ex.touchWith now locate ts signedExec totalExec).state = Function.update ex.state locate
      ((ex.state locate).next ex.window ex.lag1 ex.msgs now ts signedExec totalExec) := by
  unfold touchWith SymbolState.next SymbolState.closes
  rw [if_neg (not_not.mpr h)]
  dsimp only
  by_cases hup : (ex.state locate).updates now = true
  · by_cases hfull : ((ex.state locate).observed now ts signedExec totalExec).win.updates ≥ ex.window
    · simp only [hup, hfull, if_true, decide_true, Bool.and_true]
      unfold closeWindow setState
      dsimp only
      rw [judge_state]
    · simp only [hup, hfull, if_true, if_false, decide_false, Bool.and_false, Bool.false_eq_true]
      rfl
  · simp only [hup, if_false, Bool.false_and, Bool.false_eq_true]
    rfl

theorem touchWith_out (h : locate ∈ ex.selected) : (ex.touchWith now locate ts signedExec totalExec).out =
    ex.out ++ ((ex.state locate).line ex.window locate now ts signedExec totalExec).toList := by
  unfold touchWith SymbolState.line SymbolState.closes
  rw [if_neg (not_not.mpr h)]
  dsimp only
  by_cases hup : (ex.state locate).updates now = true
  · by_cases hfull : ((ex.state locate).observed now ts signedExec totalExec).win.updates ≥ ex.window
    · simp only [hup, hfull, if_true, decide_true, Bool.and_true]
      have hout : (ex.closeWindow locate ((ex.state locate).observed now ts signedExec totalExec) now
          (ex.state locate).prev ts).out = _ := judge_out ((ex.state locate).observed now ts signedExec totalExec)
      rw [hout]
      congr 1
      rw [apply_ite Option.toList]
      rfl
    · simp [hup, hfull, setState]
  · simp [hup, setState]

/-- Both write the rows of the symbol alike. -/
structure SameFor (l : UInt16) (ex ex' : FeatureExporter) : Prop where
  selected : ex'.selected = ex.selected
  window : ex'.window = ex.window
  lag1 : ex'.lag1 = ex.lag1
  state : ∃ n, ex'.state l = (ex.state l).stamped n
  out : ex'.out.filter (fun r => r.locate == l) = ex.out.filter (fun r => r.locate == l)

theorem sameSetting_touchWith : SameSetting ex (ex.touchWith now locate ts signedExec totalExec) := by
  unfold touchWith
  dsimp only
  split_ifs
  · have hjudge := sameSetting_judge ex locate ((ex.state locate).observed now ts signedExec totalExec) now ts
    exact ⟨hjudge.selected, hjudge.window, hjudge.lag1, hjudge.book⟩
  · exact ⟨rfl, rfl, rfl, rfl⟩
  · exact ⟨rfl, rfl, rfl, rfl⟩
  · exact ⟨rfl, rfl, rfl, rfl⟩

theorem sameSetting_take (ex : FeatureExporter) (f : Feed) : SameSetting ex (ex.take f) := by
  cases f with
  | touch l₀ ts now signedExec totalExec =>
    have htouch := @sameSetting_touchWith ex.count l₀ now ts signedExec totalExec
    exact ⟨htouch.selected, htouch.window, htouch.lag1, htouch.book⟩
  | _ => exact ⟨rfl, rfl, rfl, rfl⟩

/-- The rows that a feed adds are of the symbol that it moves. -/
theorem take_out (ex : FeatureExporter) (f : Feed) :
    ∃ rows, (ex.take f).out = ex.out ++ rows ∧ ∀ r ∈ rows, f.concerns r.locate = true := by
  have hnone : ∃ rows, ex.out = ex.out ++ rows ∧ ∀ r ∈ rows, f.concerns r.locate = true :=
    ⟨[], (List.append_nil _).symm, fun _ hr => absurd hr List.not_mem_nil⟩
  cases f with
  | touch l₀ ts now signedExec totalExec =>
    by_cases h : l₀ ∈ ex.selected
    · refine ⟨_, @touchWith_out ex.count l₀ now ts signedExec totalExec h, fun r hr => ?_⟩
      unfold SymbolState.line at hr
      split_ifs at hr
      · rw [Option.toList_some, List.mem_singleton] at hr
        rw [hr]
        exact beq_self_eq_true l₀
      · exact absurd hr List.not_mem_nil
    · have hsame : ex.take (.touch l₀ ts now signedExec totalExec) = ex.count := if_pos h
      rw [hsame]
      exact hnone
  | _ => exact hnone

/-- A feed of another symbol. -/
theorem take_foreign (ex : FeatureExporter) {f : Feed} (hf : f.concerns l = false) :
    (ex.take f).state l = ex.state l ∧
      (ex.take f).out.filter (fun r => r.locate == l) = ex.out.filter (fun r => r.locate == l) := by
  constructor
  · cases f with
    | skip => rfl
    | count => rfl
    | action l₀ halted => exact Function.update_of_ne (ne_of_beq_false hf).symm _ _
    | touch l₀ ts now signedExec totalExec =>
      by_cases h : l₀ ∈ ex.selected
      · refine (congrFun (@touchWith_state ex.count _ _ _ _ _ h) l).trans ?_
        exact Function.update_of_ne (ne_of_beq_false hf).symm _ _
      · exact congrFun (congrArg state (if_pos h)) l
  · obtain ⟨rows, hout, hrows⟩ := ex.take_out f
    rw [hout, List.filter_append, List.append_right_eq_self, List.filter_eq_nil_iff]
    intro r hr hc
    rw [← beq_iff_eq.mp hc, hrows r hr] at hf
    exact Bool.noConfusion hf

theorem SameFor.take_foreign (h : SameFor l ex ex') {f : Feed} (hf : f.concerns l = false) :
    SameFor l (ex.take f) ex' := by
  have hset := ex.sameSetting_take f
  obtain ⟨hstate, hout⟩ := ex.take_foreign hf
  refine ⟨h.selected.trans hset.selected.symm, h.window.trans hset.window.symm, h.lag1.trans hset.lag1.symm, ?_, ?_⟩
  · rw [hstate]
    exact h.state
  · rw [hout]
    exact h.out

theorem SameFor.take (h : SameFor l ex ex') {f : Feed} (hf : f.concerns l = true) :
    SameFor l (ex.take f) (ex'.take f) := by
  have hset := ex.sameSetting_take f
  have hset' := ex'.sameSetting_take f
  obtain ⟨n, hn⟩ := h.state
  suffices hboth : (∃ n, (ex'.take f).state l = ((ex.take f).state l).stamped n) ∧
      (ex'.take f).out.filter (fun r => r.locate == l) = (ex.take f).out.filter (fun r => r.locate == l) from
    ⟨hset'.selected.trans (h.selected.trans hset.selected.symm),
      hset'.window.trans (h.window.trans hset.window.symm), hset'.lag1.trans (h.lag1.trans hset.lag1.symm),
      hboth.1, hboth.2⟩
  cases f with
  | skip => exact absurd hf Bool.false_ne_true
  | count => exact absurd hf Bool.false_ne_true
  | action l₀ halted =>
    obtain rfl : l₀ = l := beq_iff_eq.mp hf
    refine ⟨⟨n, ?_⟩, h.out⟩
    show Function.update ex'.state l₀ _ l₀ = (Function.update ex.state l₀ _ l₀).stamped n
    rw [Function.update_self, Function.update_self, hn]
    rfl
  | touch l₀ ts now signedExec totalExec =>
    obtain rfl : l₀ = l := beq_iff_eq.mp hf
    by_cases hmem : l₀ ∈ ex.selected
    · have hmem' : l₀ ∈ ex'.selected := h.selected ▸ hmem
      have hstate := congrFun (@touchWith_state ex.count l₀ now ts signedExec totalExec hmem) l₀
      have hstate' := congrFun (@touchWith_state ex'.count l₀ now ts signedExec totalExec hmem') l₀
      have hout := @touchWith_out ex.count l₀ now ts signedExec totalExec hmem
      have hout' := @touchWith_out ex'.count l₀ now ts signedExec totalExec hmem'
      rw [Function.update_self] at hstate hstate'
      constructor
      · obtain ⟨n', hnext⟩ := (ex.state l₀).next_stamped n ex.window ex.lag1 ex.count.msgs ex'.count.msgs now ts
          signedExec totalExec
        have hinput : (ex'.state l₀).next ex'.window ex'.lag1 ex'.count.msgs now ts signedExec totalExec =
            ((ex.state l₀).stamped n).next ex.window ex.lag1 ex'.count.msgs now ts signedExec totalExec := by
          rw [hn, h.window, h.lag1]
        refine ⟨n', hstate'.trans (hinput.trans (hnext.trans ?_))⟩
        exact congrArg (SymbolState.stamped · n') hstate.symm
      · have hline : (ex'.count.state l₀).line ex'.count.window l₀ now ts signedExec totalExec =
            (ex.count.state l₀).line ex.count.window l₀ now ts signedExec totalExec := by
          show (ex'.state l₀).line ex'.window l₀ now ts signedExec totalExec = _
          rw [hn, h.window]
          rfl
        rw [show (ex'.take (.touch l₀ ts now signedExec totalExec)).out = _ from hout',
          show (ex.take (.touch l₀ ts now signedExec totalExec)).out = _ from hout, hline,
          List.filter_append, List.filter_append]
        exact congrArg (· ++ _) h.out
    · have hmem' : l₀ ∉ ex'.selected := h.selected ▸ hmem
      have hsame : ex.take (.touch l₀ ts now signedExec totalExec) = ex.count := if_pos hmem
      have hsame' : ex'.take (.touch l₀ ts now signedExec totalExec) = ex'.count := if_pos hmem'
      rw [hsame, hsame']
      exact ⟨⟨n, hn⟩, h.out⟩

/-- Only the feeds of the symbol matter to it. -/
theorem SameFor.run (fs : List Feed) {ex ex' : FeatureExporter} (h : SameFor l ex ex') :
    SameFor l (Runs.run FeatureExporter.take ex fs)
      (Runs.run FeatureExporter.take ex' (fs.filter (Feed.concerns l))) := by
  induction fs generalizing ex ex' with
  | nil => exact h
  | cons f fs ih =>
    cases hf : f.concerns l with
    | false =>
      rw [List.filter_cons_of_neg (by simp [hf])]
      exact ih (h.take_foreign hf)
    | true =>
      rw [List.filter_cons_of_pos hf]
      exact ih (h.take hf)

theorem run_out : ∀ (fs : List Feed) (ex : FeatureExporter), ∀ r ∈ (Runs.run take ex fs).out,
    r ∈ ex.out ∨ ∃ f ∈ fs, f.concerns r.locate = true
  | [], _, _, hr => .inl hr
  | f :: fs, ex, r, hr => by
    obtain ⟨rows, hout, hrows⟩ := ex.take_out f
    rcases run_out fs (ex.take f) r hr with hold | ⟨g, hg, hc⟩
    · rw [hout, List.mem_append] at hold
      exact hold.imp id fun hnew => ⟨f, List.mem_cons_self, hrows r hnew⟩
    · exact .inr ⟨g, List.mem_cons_of_mem _ hg, hc⟩

end FeatureExporter

theorem mem_feeds {f : Feed} : ∀ (ms : List Message) {b : ReferenceBook}, f ∈ feeds b ms →
    ∃ b', ∃ m ∈ ms, f = feedOf b' m
  | m :: ms, b, hf => by
    rcases List.mem_cons.mp hf with heq | hrest
    · exact ⟨b, m, List.mem_cons_self, heq⟩
    · obtain ⟨b', m', hm', heq⟩ := mem_feeds ms hrest
      exact ⟨b', m', List.mem_cons_of_mem _ hm', heq⟩

/-- **Symbols do not reach each other.** When no message names an order of another symbol, the rows of a symbol are
what the exporter writes for the messages of that symbol alone, in either mode. -/
theorem isolated (selected : Finset UInt16) (window : UInt32) (lag1 auditing : Bool) (l : UInt16) (ms : List Message)
    (hown : Runs.Along Book.step Own Book.empty ms) :
    (Runs.run FeatureExporter.on (FeatureExporter.init selected window lag1 auditing) ms).out.filter
        (fun r => r.locate == l) =
      (Runs.run FeatureExporter.on (FeatureExporter.init selected window lag1 auditing)
        (ms.filter fun m => m.header.locate = l)).out := by
  set ex := FeatureExporter.init selected window lag1 auditing with hex
  have hsame : FeatureExporter.SameFor l ex.rest ex.rest := ⟨rfl, rfl, rfl, ⟨0, rfl⟩, rfl⟩
  have hall := (hsame.run (feeds {} ms)).out
  have halone := (hsame.run (feeds {} (ms.filter fun m => m.header.locate = l))).out
  rw [feeds_only l ms ReferenceBook.represents_empty ReferenceBook.represents_empty hown] at halone
  have hrows : ∀ r ∈ (Runs.run FeatureExporter.take ex.rest
      (feeds {} (ms.filter fun m => m.header.locate = l))).out, (r.locate == l) = true := fun r hr => by
    rcases FeatureExporter.run_out _ _ r hr with hnone | ⟨f, hf, hc⟩
    · exact absurd hnone List.not_mem_nil
    · obtain ⟨b, m, hm, rfl⟩ := mem_feeds _ hf
      have hl : m.header.locate = l := by simpa using (List.mem_filter.mp hm).2
      by_contra hne
      rw [concerns_feedOf b (fun hc => hne (beq_iff_eq.mpr (hc.symm.trans hl)))] at hc
      exact Bool.noConfusion hc
  have hrest : ∀ ms', (Runs.run FeatureExporter.on ex ms').out =
      (Runs.run FeatureExporter.take ex.rest (feeds {} ms')).out := fun ms' => by
    show (Runs.run FeatureExporter.on ex ms').rest.out = _
    rw [FeatureExporter.rest_run]
    rfl
  rw [hrest, hrest, ← hall, halone, List.filter_eq_self.mpr hrows]

/-- Two updates of symbol 1, with an order of symbol 2 between them. -/
def beside : List Message :=
  [addAt 0 1 kBuy 10 1000000, addAt 1 2 kSell 10 1000200, addAt 2 3 kBuy 5 1000000,
    .addOrder { locate := 2, ts := 34200000000002, orderRef := 9, side := kBuy, shares := 5, stock := [], price := 7 },
    addAt 3 4 kBuy 5 1000100]

theorem isolated_beside :
    (Runs.run FeatureExporter.on (FeatureExporter.init {1, 2} 1 false false) beside).out.filter
        (fun r => r.locate == 1) =
      (Runs.run FeatureExporter.on (FeatureExporter.init {1, 2} 1 false false)
        (beside.filter fun m => m.header.locate = 1)).out :=
  isolated {1, 2} 1 false false 1 beside
    ⟨by decide +kernel, by decide +kernel, by decide +kernel, by decide +kernel, by decide +kernel, trivial⟩

example : (beside.filter fun m => m.header.locate = 1) = twoUpdates := by decide

end Carteret
