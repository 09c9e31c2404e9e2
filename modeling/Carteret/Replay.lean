import Carteret.CrossedGate
import Carteret.DifferentialTouched
import Carteret.Session
import Carteret.ZeroShares

/-!
# The replay gate

`replay` drives the differential harness over a session file and turns what it finds into an exit status.

1. The comparisons leave the clock of the harness alone (`same_on`), and a divergence stays (`found_on`).
2. A run without a divergence has both books on all messages (`Clean`), and a fast book that fits at the end fitted all
   along (`fits_of_isPrefix`).
3. `run_iff`: the gate accepts exactly the sessions that end cleanly, fit the fast book, bring no order without shares
   to a check, and cross the book only where the feed excuses it. The two books are never the reason.
-/

namespace Carteret

/-! ## The program -/

namespace Replay

/-- A file name contains these octets. -/
def find (path name : Bytes) : Bool := decide (name <:+: path)

/-- `BX_ITCH`. -/
def bxItch : Bytes := [66, 88, 95, 73, 84, 67, 72]

/-- `PSX_ITCH`. -/
def psxItch : Bytes := [80, 83, 88, 95, 73, 84, 67, 72]

/-- `NASDAQ_ITCH`. -/
def nasdaqItch : Bytes := [78, 65, 83, 68, 65, 81, 95, 73, 84, 67, 72]

/-- The market of a session: the one asked for, or else the one that the name of the file tells. -/
def marketFor (path : Bytes) (asked : UInt8) : UInt8 :=
  if asked ≠ 0 then asked
  else if find path bxItch then 66
  else if find path psxItch then 88
  else if find path nasdaqItch then 81
  else 0

structure Options where
  path : Bytes
  fullEvery : ℕ := 2 ^ 22
  invariantEvery : ℕ := 2 ^ 24
  cfg : FastBookConfig := {}
  /-- Zero means that the file name tells. -/
  market : UInt8 := 0

variable (P : HashPolicy) (W : Window)

/-- The harness before the first message. -/
def start (opt : Options) (market : UInt8) (fast : FastBook P W) : Differential (FastBook P W) where
  ref := { venueMarketCode := market }
  fast := fast
  fullEvery := opt.fullEvery
  invariantEvery := opt.invariantEvery

variable {P W}

/-- No observation of a crossed or locked book is left unexplained, and the books agree on how many there were. -/
def noCrossing (r : RefCounters) (f : FastCounters) : Bool :=
  r.crossedUnexplained == 0 && r.lockedUnexplained == 0 && r.reopenWindowsCapped == 0 &&
    (r.crossedObservations == f.crossedObservations && r.lockedObservations == f.lockedObservations)

/-- The verdict on the harness after the last message. -/
def ok (st : ParseStats) (d : Differential (FastBook P W)) : Bool :=
  let full := d.compareEverything
  let d := full.2
  let f := d.fast.counters
  !d.div.found && full.1 && d.ref.checkInvariants == 0 && ComparedBook.checkInvariants d.fast == 0 &&
    noCrossing d.ref.counters f && st.stop != .truncated && st.trailing == 0 && f.poolExhausted == 0 &&
    f.indexFailures == 0 && f.symbolOverflow == 0

variable (P W)

/-- The exit status on the octets of a session; `none` when a book cannot be made. -/
def run (opt : Options) (buf : Bytes) : Option ℕ :=
  let market := marketFor opt.path opt.market
  if market = 0 then some 2
  else
    (FastBook.new P W opt.cfg).bind fun fast =>
      (Parser.run buf).map fun r =>
        let ms := r.2.filterMap (HandlerCall.view buf)
        if ok r.1 (Runs.run Differential.on (start P W opt market fast) ms) then 0 else 1

end Replay

/-! ## The harness over a run -/

namespace Differential

variable {β : Type} [ComparedBook β] {d : Differential β}

/-- The harness with a message in its books, before any comparison. -/
def heard (d : Differential β) (m : Message) : Differential β :=
  match m with
  | .stockDirectory _ => d.applyReference m
  | .stockTradingAction _ => d.applyReference m
  | .operationalHalt _ => d.applyReference m
  | _ => d.apply m

/-- The comparisons after a message leave the books and the clock alone. -/
theorem same_on (hd : d.div.found = false) (m : Message) : Same (d.heard m) (d.on m) := by
  have hend : ∀ (e : Differential β) (type : UInt8) (locate : UInt16),
      Same e (e.compareBbo type locate).periodic := fun e type locate =>
    (notes_bbo e type locate).same.trans (notes_periodic _).same
  have hadd : ∀ (m : Message) (type : UInt8) (v : AddOrder), Same (d.apply m) (d.add m type v) := by
    intro m type v
    unfold add
    rw [hd, if_neg Bool.false_ne_true]
    exact (notes_level _ _ _ _ _).same.trans (hend _ _ _)
  have hmodify : ∀ (m : Message) (type : UInt8) (locate : UInt16) (ref : Ref),
      Same (d.apply m) (d.modify m type locate ref) := by
    intro m type locate ref
    unfold modify
    rw [hd, if_neg Bool.false_ne_true]
    cases d.locateOf ref with
    | none => exact hend _ _ _
    | some known => exact (notes_level _ _ _ _ _).same.trans (hend _ _ _)
  cases m with
  | systemEvent v => exact Same.refl _
  | stockDirectory v => exact Same.refl _
  | stockTradingAction v => exact Same.refl _
  | operationalHalt v => exact Same.refl _
  | addOrder v => exact hadd _ 65 v
  | addOrderMpid v => exact hadd _ 70 v.toAddOrder
  | orderExecuted v => exact hmodify _ 69 v.locate v.orderRef
  | orderExecutedPrice v => exact hmodify _ 67 v.locate v.orderRef
  | orderCancel v => exact hmodify _ 88 v.locate v.orderRef
  | orderDelete v => exact hmodify _ 68 v.locate v.orderRef
  | orderReplace v =>
    unfold on onOrderReplace
    dsimp only
    rw [hd, if_neg Bool.false_ne_true]
    cases d.locateOf v.oldOrderRef with
    | none => exact (notes_level _ _ _ _ _).same.trans (hend _ _ _)
    | some known =>
      exact (notes_level _ _ _ _ _).same.trans ((notes_level _ _ _ _ _).same.trans (hend _ _ _))
  | trade v =>
    unfold on
    dsimp only
    rw [hd, if_neg Bool.false_ne_true]
    exact hend _ _ _
  | crossTrade v =>
    unfold on
    dsimp only
    rw [hd, if_neg Bool.false_ne_true]
    exact (notes_periodic _).same
  | brokenTrade v =>
    unfold on
    dsimp only
    rw [hd, if_neg Bool.false_ne_true]
    exact (notes_periodic _).same

/-- A divergence stays. -/
theorem found_on (hd : d.div.found = true) (m : Message) : (d.on m).div.found = true := by
  cases m <;> unfold on <;> dsimp only <;> first
    | exact hd
    | (unfold add; rw [hd, if_pos rfl]; exact hd)
    | (unfold modify; rw [hd, if_pos rfl]; exact hd)
    | (unfold onOrderReplace; rw [hd, if_pos rfl]; exact hd)
    | (rw [hd, if_pos rfl]; exact hd)

end Differential

/-! ## The fast book over a run -/

namespace FastBook

variable {P : HashPolicy} {W : Window} {cfg : FastBookConfig} {b : FastBook P W}

/-- A capacity counter that is zero at the end was zero all along. -/
theorem fits_of_isPrefix {ms : List Message} (hb : run P W cfg ms = some b) (hfit : b.Fits) :
    ∀ pre, pre <+: ms → ∀ c, run P W cfg pre = some c → c.Fits := by
  obtain ⟨b₀, h₀⟩ := new_of_run hb
  induction ms using List.reverseRecOn generalizing b with
  | nil =>
    intro pre hpre c hc
    rw [List.prefix_nil.mp hpre, hb] at hc
    obtain rfl := Option.some.inj hc
    exact hfit
  | append_singleton ms m ih =>
    obtain ⟨c, hc, -, hrep, -⟩ := rep_run h₀ ms
    obtain ⟨b', hon, hfol⟩ := hrep.on m
    have hb' : run P W cfg (ms ++ [m]) = some b' := (run_snoc hc m).trans hon
    obtain rfl := Option.some.inj (hb.symm.trans hb')
    -- the counters only go up
    have hle : ∀ why, c.failures why ≤ b.failures why := fun why => by
      rw [hfol.failures_eq]
      unfold bump
      split_ifs
      · exact Nat.le_succ _
      · exact le_rfl
    obtain ⟨hp, hi, hs⟩ := hfit
    have hcfit : c.Fits := ⟨Nat.le_zero.mp (hp ▸ hle .pool), Nat.le_zero.mp (hi ▸ hle .index),
      Nat.le_zero.mp (hs ▸ hle .symbol)⟩
    intro pre hpre d hd
    rcases List.prefix_concat_iff.mp hpre with rfl | hpre
    · obtain rfl := Option.some.inj (hb.symm.trans hd)
      exact ⟨hp, hi, hs⟩
    · exact ih hc hcfit pre hpre d hd

/-- **What fits.** The capacity counters of a run are zero exactly when every order finds room in the book of the orders
before it. -/
theorem fits_run_iff {b₀ : FastBook P W} {ms : List Message} (h₀ : new P W cfg = some b₀)
    (hb : run P W cfg ms = some b) :
    b.Fits ↔ Runs.Along Book.step (fun A m => A.refused b₀.limits m = none) Book.empty ms := by
  have hnew : (new P W cfg).isSome = true := by rw [h₀]; rfl
  induction ms using List.reverseRecOn generalizing b with
  | nil =>
    obtain rfl : b₀ = b := Option.some.inj (h₀.symm.trans hb)
    refine iff_of_true ?_ trivial
    rw [FastBook.new, Option.map_eq_some_iff] at h₀
    obtain ⟨x, -, rfl⟩ := h₀
    exact ⟨rfl, rfl, rfl⟩
  | append_singleton ms m ih =>
    obtain ⟨c, hc, hlim, -, -⟩ := rep_run h₀ ms
    rw [Runs.along_append]
    have hstep : c.Fits → (b.Fits ↔ (Runs.run Book.step Book.empty ms).refused b₀.limits m = none) := by
      intro hfit
      obtain ⟨c', hc', -, hrep⟩ := rep_of_fits hnew (fits_of_isPrefix hc hfit)
      obtain rfl := Option.some.inj (hc.symm.trans hc')
      obtain ⟨b', hon, hfol⟩ := hrep.on m
      obtain rfl := Option.some.inj (((run_snoc hc m).trans hon).symm.trans hb)
      rw [← hlim]
      refine ⟨fun h => h.not_refused hfol, fun h => ?_⟩
      have hfail := hfol.failures_eq
      rw [h, hfit.failures_eq] at hfail
      exact ⟨congrFun hfail .pool, congrFun hfail .index, congrFun hfail .symbol⟩
    constructor
    · intro hfit
      have hcfit : c.Fits := fits_of_isPrefix hb hfit ms (List.prefix_append ms [m]) c hc
      exact ⟨(ih hc).mp hcfit, (hstep hcfit).mp hfit, trivial⟩
    · rintro ⟨hms, hm, -⟩
      exact (hstep ((ih hc).mpr hms)).mpr hm

end FastBook

/-! ## Both books over a run -/

namespace Differential

variable {P : HashPolicy} {W : Window} {cfg : FastBookConfig} {b₀ : FastBook P W}
  {d₀ d : Differential (FastBook P W)} {code : UInt8} {ms : List Message} {m : Message}

/-- The harness at the start of a session. -/
structure Begins (d₀ : Differential (FastBook P W)) (cfg : FastBookConfig) (code : UInt8) : Prop where
  ref : d₀.ref = { venueMarketCode := code }
  fast : FastBook.new P W cfg = some d₀.fast
  messages : d₀.stats.messages = 0
  found : d₀.div.found = false

/-- No divergence after these messages: both books have them all. -/
structure Clean (d₀ : Differential (FastBook P W)) (cfg : FastBookConfig) (code : UInt8) (ms : List Message)
    (d : Differential (FastBook P W)) : Prop where
  ref : d.ref = ReferenceBook.run { venueMarketCode := code } ms
  fast : FastBook.run P W cfg ms = some d.fast
  messages : d.stats.messages = ms.length
  fullEvery : d.fullEvery = d₀.fullEvery
  invariantEvery : d.invariantEvery = d₀.invariantEvery
  found : d.div.found = false

theorem Begins.clean (h : Begins d₀ cfg code) : Clean d₀ cfg code [] d₀ :=
  ⟨h.ref, h.fast, h.messages, rfl, rfl, h.found⟩

/-- The fast book hears a message, or it would not change it. -/
theorem Clean.run_fast (h : Clean d₀ cfg code ms d) (m : Message) :
    FastBook.run P W cfg (ms ++ [m]) = some (fastAfter d.fast m) := by
  obtain ⟨b₀, h₀⟩ := FastBook.new_of_run h.fast
  obtain ⟨c, hc, -, hrep, -⟩ := FastBook.rep_run h₀ ms
  obtain rfl := Option.some.inj (h.fast.symm.trans hc)
  obtain ⟨b', hon, -⟩ := hrep.on m
  have hget : ComparedBook.on d.fast m = b' := by
    show (d.fast.on m).getD d.fast = b'
    rw [hon, Option.getD_some]
  rw [FastBook.run_snoc h.fast m, hon]
  cases m <;> exact congrArg some hget.symm

theorem Clean.on (h : Clean d₀ cfg code ms d) (hfound : (d.on m).div.found = false) :
    Clean d₀ cfg code (ms ++ [m]) (d.on m) := by
  have hsame := same_on h.found m
  obtain ⟨-, href, hfast⟩ := on_found_iff h.found m
  have hclock : (d.heard m).stats.messages = d.stats.messages + 1 ∧ (d.heard m).fullEvery = d.fullEvery ∧
      (d.heard m).invariantEvery = d.invariantEvery := by
    cases m <;> exact ⟨rfl, rfl, rfl⟩
  refine ⟨?_, hfast ▸ h.run_fast m, ?_, ?_, ?_, hfound⟩
  · rw [href, h.ref]
    exact (Runs.run_snoc _ _ _).symm
  · rw [hsame.messages, hclock.1, h.messages, List.length_append]
    rfl
  · rw [hsame.fullEvery, hclock.2.1, h.fullEvery]
  · rw [hsame.invariantEvery, hclock.2.2, h.invariantEvery]

/-- A run that ends without a divergence had none on the way. -/
theorem clean_run (h₀ : Begins d₀ cfg code) (hfound : (Runs.run on d₀ ms).div.found = false) :
    Clean d₀ cfg code ms (Runs.run on d₀ ms) := by
  induction ms using List.reverseRecOn with
  | nil => exact h₀.clean
  | append_singleton ms m ih =>
    rw [Runs.run_snoc] at hfound ⊢
    have hbefore : (Runs.run on d₀ ms).div.found = false := by
      by_contra hc
      rw [found_on (by simpa using hc) m] at hfound
      cases hfound
    exact (ih hbefore).on hfound

/-- The structural checks of both books find nothing when every live order has shares. -/
theorem checks_iff {r : ReferenceBook} {f : FastBook P W} {A : Book} (hr : r.Represents A) (hf : f.Rep true A) :
    (r.checkInvariants = 0 ∧ ComparedBook.checkInvariants f = 0) ↔ A.Stocked := by
  have hfast : ComparedBook.checkInvariants f = A.orders.countP FastBook.spent := by
    show f.checkInvariants.getD 0 = _
    rw [hf.checkInvariants_eq]
    rfl
  rw [hfast]
  constructor
  · rintro ⟨-, hzero⟩ e he hshares
    exact List.countP_eq_zero.mp hzero e he (by unfold FastBook.spent; rw [hshares]; rfl)
  · intro hstocked
    refine ⟨(hr.stocked.mpr ⟨hstocked, hf.narrow⟩).2, List.countP_eq_zero.mpr fun e he hspent => ?_⟩
    exact hstocked e he (by simpa [FastBook.spent] using hspent)

/-- **One message of a fast book that fits.** A divergence is recorded only by a structural check that finds an order
without shares. -/
theorem Clean.found_iff (h : Clean d₀ cfg code ms d) (hnew : (FastBook.new P W cfg).isSome = true)
    (hfits : ∀ pre, pre <+: ms ++ [m] → ∀ b, FastBook.run P W cfg pre = some b → b.Fits) :
    (d.on m).div.found = false ↔ (Periodic m → InvariantsDue d₀.invariantEvery (ms ++ [m]).length →
      (Runs.run Book.step Book.empty (ms ++ [m])).Stocked) := by
  obtain ⟨f, hf, -, hrep⟩ := FastBook.rep_of_fits hnew hfits
  obtain rfl : f = fastAfter d.fast m := Option.some.inj (hf.symm.trans (h.run_fast m))
  have href : (d.ref.on m).Represents (Runs.run Book.step Book.empty (ms ++ [m])) := by
    have hon : d.ref.on m = ReferenceBook.run { venueMarketCode := code } (ms ++ [m]) := by
      rw [h.ref]
      exact (Runs.run_snoc _ _ _).symm
    rw [hon]
    exact ReferenceBook.represents_venue code _
  have hagrees := agrees_of_rep hrep href
  have hlength : (ms ++ [m]).length = d.stats.messages + 1 := by rw [h.messages, List.length_append]; rfl
  rw [(on_found_iff h.found m).1, hlength, ← checks_iff href hrep, ← h.invariantEvery]
  exact ⟨fun hp => hp.invariants, fun hc =>
    ⟨fun k _ => hagrees.levels k, fun locate _ => hagrees.bbo locate, hc, fun _ _ => hagrees.looked⟩⟩

/-- Every order has shares whenever a structural check is due. -/
def CheckedStocked (every : ℕ) (ms : List Message) : Prop :=
  ∀ pre m, pre ++ [m] <+: ms → Periodic m → InvariantsDue every (pre ++ [m]).length →
    (Runs.run Book.step Book.empty (pre ++ [m])).Stocked

/-- **A run of a fast book that fits** records a divergence only at such a check. -/
theorem found_run_iff (h₀ : Begins d₀ cfg code)
    (hfits : ∀ pre, pre <+: ms → ∀ b, FastBook.run P W cfg pre = some b → b.Fits) :
    (Runs.run on d₀ ms).div.found = false ↔ CheckedStocked d₀.invariantEvery ms := by
  have hnew : (FastBook.new P W cfg).isSome = true := by rw [h₀.fast]; rfl
  induction ms using List.reverseRecOn with
  | nil =>
    refine iff_of_true h₀.found fun pre m hpre => ?_
    exact absurd (List.prefix_nil.mp hpre) (by simp)
  | append_singleton ms m ih =>
    have hms : ∀ pre, pre <+: ms → ∀ b, FastBook.run P W cfg pre = some b → b.Fits := fun pre hpre =>
      hfits pre (hpre.trans (List.prefix_append ms [m]))
    rw [Runs.run_snoc]
    constructor
    · intro hfound pre m' hpre hperiodic hdue
      have hbefore : (Runs.run on d₀ ms).div.found = false := by
        by_contra hc
        rw [found_on (by simpa using hc) m] at hfound
        cases hfound
      rcases List.prefix_concat_iff.mp hpre with heq | hpre
      · obtain ⟨rfl, hm⟩ := List.append_inj' heq rfl
        obtain rfl : m' = m := by simpa using hm
        exact ((clean_run h₀ hbefore).found_iff hnew hfits).mp hfound hperiodic hdue
      · exact (ih hms).mp hbefore pre m' hpre hperiodic hdue
    · intro hall
      have hbefore : (Runs.run on d₀ ms).div.found = false := (ih hms).mpr fun pre m' hpre =>
        hall pre m' (hpre.trans (List.prefix_append ms [m]))
      exact ((clean_run h₀ hbefore).found_iff hnew hfits).mpr fun hperiodic hdue =>
        hall ms m (List.prefix_refl _) hperiodic hdue

end Differential

/-! ## Sessions without trading actions -/

namespace ReferenceBook

open History Gate

/-- Only a trading action shows the gate a trading action. -/
theorem action_not_mem {ms : List Message} (h : ∀ m ∈ ms, ∀ v, m ≠ .stockTradingAction v) (b : ReferenceBook)
    (l : UInt16) (state : UInt8) (ts : ℕ) : .action l state ts ∉ trace b ms := by
  have hlook : ∀ (b : ReferenceBook) (l' : UInt16) (ts' : ℕ), .action l state ts ∉ b.look l' ts' := by
    intro b l' ts' hc
    unfold look at hc
    split at hc <;> simp at hc
  induction ms generalizing b with
  | nil => exact List.not_mem_nil
  | cons m ms ih =>
    intro hc
    rcases List.mem_append.mp hc with hc | hc
    · have hm := h m List.mem_cons_self
      cases m with
      | stockTradingAction v => exact hm v rfl
      | operationalHalt v => unfold events at hc; dsimp only at hc; split_ifs at hc <;> simp at hc
      | orderReplace v =>
        unfold events at hc
        dsimp only at hc
        split at hc
        · exact List.not_mem_nil hc
        · exact (List.mem_append.mp hc).elim (hlook _ _ _) (hlook _ _ _)
      | crossTrade v => simp [events] at hc
      | systemEvent | stockDirectory | trade | brokenTrade => exact List.not_mem_nil hc
      | addOrder | addOrderMpid | orderExecuted | orderExecutedPrice | orderCancel | orderDelete =>
        exact hlook _ _ _ hc
    · exact ih (fun m' hm' => h m' (List.mem_cons_of_mem m hm')) _ hc

/-- Without a trading action every crossed or locked observation comes before the first one, and no window opens. -/
theorem explained_of_no_action (code : UInt8) {ms : List Message} (h : ∀ m ∈ ms, ∀ v, m ≠ .stockTradingAction v) :
    let c := (run { venueMarketCode := code } ms).counters
    c.crossedUnexplained = 0 ∧ c.lockedUnexplained = 0 ∧ c.reopenWindowsCapped = 0 := by
  have hnot := action_not_mem h { venueMarketCode := code }
  have hreads := reads_run code ms
  set T := trace { venueMarketCode := code } ms
  have hannounced : ∀ l state, ∀ pre, pre <+: T → ¬ Announced l state pre := by
    intro l state pre hpre hc
    obtain ⟨-, e, he, ts, rfl⟩ := hc.exists_mem
    exact hnot l state ts (hpre.subset he)
  have hopen : ∀ l pre, pre <+: T → ¬ WindowOpen l pre := by
    intro l pre hpre hc
    obtain ⟨-, e, he, ts, ⟨rfl, -⟩, -⟩ := hc.exists_mem
    exact hnot l 84 ts (hpre.subset he)
  refine ⟨(hreads.crossed .unexplained).trans (tally_eq_zero ?_), (hreads.locked .unexplained).trans (tally_eq_zero ?_),
    hreads.capped.trans (tally_eq_zero ?_)⟩
  · rintro pre hpre e - ⟨l, bid, ask, ts, -, -, htrading, -⟩
    exact hannounced l 84 pre hpre htrading
  · rintro pre hpre e - ⟨l, price, ts, -, htrading, -⟩
    exact hannounced l 84 pre hpre htrading
  · rintro pre hpre e - ⟨l, hc, -⟩
    exact hopen l pre hpre hc

end ReferenceBook

/-! ## The gate -/

namespace Replay

open Carteret.Differential (CheckedStocked Begins Clean)

variable {P : HashPolicy} {W : Window} {opt : Options} {code : UInt8} {st : ParseStats} {ms : List Message}
  {f : FastBook P W}

/-- What the gate accepts: a session that ends cleanly and fits the fast book, in which no check comes upon an order
without shares, and which crosses or locks the book only where the feed excuses it. -/
structure Accepts (opt : Options) (st : ParseStats) (ms : List Message) (r : RefCounters) (f : FastBook P W) :
    Prop where
  complete : st.stop ≠ .truncated ∧ st.trailing = 0
  fits : f.Fits
  checked : CheckedStocked opt.invariantEvery ms
  stocked : (Runs.run Book.step Book.empty ms).Stocked
  explained : r.crossedUnexplained = 0 ∧ r.lockedUnexplained = 0
  uncapped : r.reopenWindowsCapped = 0
  agree : r.crossedObservations = f.counters.crossedObservations ∧ r.lockedObservations = f.counters.lockedObservations

theorem begins_start (opt : Options) (market : UInt8) {fast : FastBook P W} (h : FastBook.new P W opt.cfg = some fast) :
    Begins (start P W opt market fast) opt.cfg market := ⟨rfl, h, rfl, rfl⟩

/-- The verdict after a run. -/
theorem ok_iff {fast : FastBook P W} (hnew : FastBook.new P W opt.cfg = some fast) (market : UInt8)
    (hf : FastBook.run P W opt.cfg ms = some f) :
    ok st (Runs.run Differential.on (start P W opt market fast) ms) = true ↔
      Accepts opt st ms (ReferenceBook.run { venueMarketCode := market } ms).counters f := by
  have h₀ := begins_start opt market hnew
  have hnew' : (FastBook.new P W opt.cfg).isSome = true := by rw [hnew]; rfl
  set d := Runs.run Differential.on (start P W opt market fast) ms with hd
  have hnotes := Differential.notes_everything d
  have hfirst : d.div.found = false → (d.compareEverything.1 = true ↔ Differential.Looked d.ref d.fast) :=
    fun hfound => (Differential.decides_everything hfound).result
  unfold ok noCrossing
  dsimp only
  rw [hnotes.same.ref, hnotes.same.fast]
  simp only [Bool.and_eq_true, Bool.not_eq_true', beq_iff_eq, bne_iff_ne, ne_eq]
  constructor
  · rintro ⟨⟨⟨⟨⟨⟨⟨⟨⟨hfound, -⟩, href⟩, hfast⟩, ⟨⟨hc, hl⟩, hcap⟩, hagree⟩, hstop⟩, htrailing⟩, hpool⟩, hindex⟩,
      hsymbol⟩
    have hclean : Clean _ _ _ ms d := Differential.clean_run h₀ (hnotes.found.mp hfound).1
    obtain rfl := Option.some.inj (hclean.fast.symm.trans hf)
    have hfit : d.fast.Fits := ⟨hpool, hindex, hsymbol⟩
    have hfits := FastBook.fits_of_isPrefix hf hfit
    obtain ⟨f', hf', -, hrep⟩ := FastBook.rep_of_fits hnew' hfits
    obtain rfl := Option.some.inj (hf.symm.trans hf')
    have hrepresents : d.ref.Represents _ := hclean.ref ▸ ReferenceBook.represents_venue market ms
    rw [hclean.ref] at hc hl hcap hagree
    exact ⟨⟨hstop, htrailing⟩, hfit, (Differential.found_run_iff h₀ hfits).mp hclean.found,
      (Differential.checks_iff hrepresents hrep).mp ⟨href, hfast⟩, ⟨hc, hl⟩, hcap, hagree⟩
  · intro h
    have hfits := FastBook.fits_of_isPrefix hf h.fits
    have hfound : d.div.found = false := (Differential.found_run_iff h₀ hfits).mpr h.checked
    have hclean : Clean _ _ _ ms d := Differential.clean_run h₀ hfound
    obtain rfl := Option.some.inj (hclean.fast.symm.trans hf)
    obtain ⟨f', hf', -, hrep⟩ := FastBook.rep_of_fits hnew' hfits
    obtain rfl := Option.some.inj (hf.symm.trans hf')
    have hrepresents : d.ref.Represents _ := hclean.ref ▸ ReferenceBook.represents_venue market ms
    have hlooked := (Differential.agrees_of_rep hrep hrepresents).looked
    obtain ⟨href, hfast⟩ := (Differential.checks_iff hrepresents hrep).mpr h.stocked
    have hcounters : d.ref.counters = (ReferenceBook.run { venueMarketCode := market } ms).counters := by
      rw [hclean.ref]
    rw [hcounters]
    obtain ⟨hpool, hindex, hsymbol⟩ := h.fits
    exact ⟨⟨⟨⟨⟨⟨⟨⟨⟨hnotes.found.mpr ⟨hfound, hlooked⟩, (hfirst hfound).mpr hlooked⟩, href⟩, hfast⟩,
      ⟨⟨h.explained.1, h.explained.2⟩, h.uncapped⟩, h.agree⟩, h.complete.1⟩, h.complete.2⟩, hpool⟩, hindex⟩,
      hsymbol⟩

/-- The exit status of a session that the parser walked. -/
theorem run_of_parsed {buf : Bytes} {calls : List HandlerCall} (hmarket : marketFor opt.path opt.market ≠ 0)
    {fast : FastBook P W} (hnew : FastBook.new P W opt.cfg = some fast) (hrun : Parser.run buf = some (st, calls))
    (hms : calls.filterMap (HandlerCall.view buf) = ms) (hf : FastBook.run P W opt.cfg ms = some f) :
    (run P W opt buf = some 0 ↔
      Accepts opt st ms (ReferenceBook.run { venueMarketCode := marketFor opt.path opt.market } ms).counters f) ∧
      (run P W opt buf = some 0 ∨ run P W opt buf = some 1) := by
  subst hms
  have hexit : run P W opt buf = some (if ok st (Runs.run Differential.on
      (start P W opt (marketFor opt.path opt.market) fast) (calls.filterMap (HandlerCall.view buf)))
      then 0 else 1) := by
    unfold run
    dsimp only
    rw [if_neg hmarket, hnew, hrun]
    rfl
  rw [hexit, ← ok_iff hnew _ hf]
  split_ifs with hok
  · exact ⟨iff_of_true rfl hok, .inl rfl⟩
  · exact ⟨iff_of_false (by decide) hok, .inr rfl⟩

/-- **The replay gate.** On any octets the program exits with zero exactly when `Accepts` holds of the session, and with
one otherwise: a disagreement of the two books is never the reason. -/
theorem run_iff (P : HashPolicy) (W : Window) (opt : Options) (buf : Bytes)
    (hmarket : marketFor opt.path opt.market ≠ 0) (hnew : (FastBook.new P W opt.cfg).isSome = true) :
    ∃ st calls f, Parser.run buf = some (st, calls) ∧
      FastBook.run P W opt.cfg (calls.filterMap (HandlerCall.view buf)) = some f ∧
      (run P W opt buf = some 0 ↔
        Accepts opt st (calls.filterMap (HandlerCall.view buf))
          (ReferenceBook.run { venueMarketCode := marketFor opt.path opt.market }
            (calls.filterMap (HandlerCall.view buf))).counters f) ∧
      (run P W opt buf = some 0 ∨ run P W opt buf = some 1) := by
  obtain ⟨fast, hfast⟩ := Option.isSome_iff_exists.mp hnew
  obtain ⟨st, calls, hrun, -⟩ := Parser.exists_runAs buf (detectFraming buf)
  obtain ⟨f, hf, -⟩ := FastBook.rep_run hfast (calls.filterMap (HandlerCall.view buf))
  exact ⟨st, calls, f, hrun, hf, run_of_parsed hmarket hfast hrun rfl hf⟩

/-- A small book for a session whose name tells the market. -/
def smallReplay : Options := { path := [47] ++ psxItch, cfg := ⟨8, 4, 8⟩ }

example : marketFor smallReplay.path 0 = 88 := by decide

theorem run_iff_small :
    ∃ st calls f, Parser.run (Session.bidThenEvent.flatMap frame) = some (st, calls) ∧
      FastBook.run multiplyShiftHash defaultWindow smallReplay.cfg
        (calls.filterMap (HandlerCall.view (Session.bidThenEvent.flatMap frame))) = some f ∧
      (run multiplyShiftHash defaultWindow smallReplay (Session.bidThenEvent.flatMap frame) = some 0 ↔
        Accepts smallReplay st (calls.filterMap (HandlerCall.view (Session.bidThenEvent.flatMap frame)))
          (ReferenceBook.run { venueMarketCode := 88 }
            (calls.filterMap (HandlerCall.view (Session.bidThenEvent.flatMap frame)))).counters f) := by
  have hmarket : marketFor smallReplay.path smallReplay.market = 88 := by decide
  obtain ⟨st, calls, f, hrun, hf, hiff, -⟩ := run_iff multiplyShiftHash defaultWindow smallReplay
    (Session.bidThenEvent.flatMap frame) (by decide) ((FastBook.new_isSome _).mpr (by decide))
  rw [hmarket] at hiff
  exact ⟨st, calls, f, hrun, hf, hiff⟩

end Replay

end Carteret
