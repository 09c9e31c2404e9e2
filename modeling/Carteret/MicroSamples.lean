import Carteret.Exporter
import Carteret.FastCapacity
import Carteret.FeatureIsolation
import Carteret.Lib.Grid

/-!
# The samples of the microstructure export

While it rebuilds the book, `export_micro` samples the inside of each symbol of its universe at most once in each
interval of exchange time, and adds what it sees up by the minute.

1. The handler: `Exporter` with the samples that it leaves out.
2. One look at a symbol adds what the reference book shows there (`observe_eq`).
3. The boundary moves along the grid of intervals (`advance_eq`, `Exporter.Sampling.sample`).
4. `sampled`: the table is the sum over the sampled messages, of which there are few in a minute.
-/

namespace Carteret

/-! ## The data -/

/-- Spread and depth, added up for a minute of the trading day. -/
structure MinuteBucket where
  samples : UInt64 := 0
  spreadTicksSum : UInt64 := 0
  bidSharesSum : UInt64 := 0
  askSharesSum : UInt64 := 0
  bidOrdersSum : UInt64 := 0
  askOrdersSum : UInt64 := 0
  oneTickSpreads : UInt64 := 0
  crossedOrLocked : UInt64 := 0
  deriving DecidableEq

/-- `eligible` is the source's `universe_`; the minutes are those of each of its positions. -/
structure MicroExporter (P : HashPolicy) (W : Window) extends Exporter P W where
  eligible : List UInt16
  sampleNs : UInt64
  nextSample : UInt64 := 0
  minutes : ℕ → ℕ → MinuteBucket := fun _ _ => {}

namespace MinuteBucket

/-- A sample that sees both sides. -/
def see (m : MinuteBucket) (bid ask : Price) (db da : Depth) : MinuteBucket :=
  let m := { m with samples := m.samples + 1 }
  if ask ≤ bid then { m with crossedOrLocked := m.crossedOrLocked + 1 }
  else
    let spreadTicks := ((ask - bid) / 100).toUInt64
    { m with
      spreadTicksSum := m.spreadTicksSum + spreadTicks
      oneTickSpreads := if spreadTicks = 1 then m.oneTickSpreads + 1 else m.oneTickSpreads
      bidSharesSum := m.bidSharesSum + db.shares
      askSharesSum := m.askSharesSum + da.shares
      bidOrdersSum := m.bidOrdersSum + db.orders.toUInt64
      askOrdersSum := m.askOrdersSum + da.orders.toUInt64 }

/-- The body of the loop over the universe. -/
def observe {P : HashPolicy} {W : Window} (m : MinuteBucket) (b : FastBook P W) (locate : UInt16) : MinuteBucket :=
  if !b.hasBid locate || !b.hasAsk locate then m
  else
    m.see (b.bestBid locate) (b.bestAsk locate) (b.depthAt locate kBuy (b.bestBid locate))
      (b.depthAt locate kSell (b.bestAsk locate))

end MinuteBucket

namespace MicroExporter

variable {P : HashPolicy} {W : Window}

def new (P : HashPolicy) (W : Window) (cfg : FastBookConfig) (eligible : List UInt16) (sampleNs : UInt64) :
    Option (MicroExporter P W) :=
  (Exporter.new P W cfg).map fun x => { x with eligible := eligible, sampleNs := sampleNs }

/-- The loop that moves the boundary beyond `ts`, with `n` rounds left. It comes back to where it was after `2 ^ 64`
rounds at the latest, so one that has not ended by then does not end. -/
def advance (step ts : UInt64) : ℕ → UInt64 → Option UInt64
  | 0, _ => none
  | n + 1, next => if next ≤ ts then advance step ts n (next + step) else some next

/-- The loop over the universe, at a minute. -/
def observe (x : MicroExporter P W) (minute : ℕ) : MicroExporter P W :=
  { x with
    minutes := x.eligible.zipIdx.foldl (fun minutes e =>
      Function.update minutes e.2 (Function.update (minutes e.2) minute
        ((minutes e.2 minute).observe x.book e.1))) x.minutes }

def sample (x : MicroExporter P W) (ts : UInt64) : Option (MicroExporter P W) :=
  if ts < kOpenNs ∨ ts ≥ kCloseNs then some x
  else
    let x := if x.nextSample = 0 then { x with nextSample := ts } else x
    if ts < x.nextSample then some x
    else
      (advance x.sampleNs ts (2 ^ 64) x.nextSample).map fun next =>
        let x := { x with nextSample := next }
        let minute := ((ts - kOpenNs) / 60000000000).toNat
        if minute ≥ 390 then x else x.observe minute

/-- The time with which a handler ends by a sample. -/
def sampleTs : Message → Option UInt64
  | .systemEvent _ | .stockDirectory _ | .stockTradingAction _ | .operationalHalt _ => none
  | m => some (QueueSim.tsOf m.header)

def on (bucket : ℕ → ℕ) (x : MicroExporter P W) (m : Message) : Option (MicroExporter P W) :=
  (x.toExporter.on bucket m).bind fun e =>
    (sampleTs m).elim (some { x with toExporter := e }) fun ts => sample { x with toExporter := e } ts

/-- One message, for an export that may not have returned. -/
def step (bucket : ℕ → ℕ) (x : Option (MicroExporter P W)) (m : Message) : Option (MicroExporter P W) :=
  x.bind fun x => x.on bucket m

def run (P : HashPolicy) (W : Window) (cfg : FastBookConfig) (bucket : ℕ → ℕ) (eligible : List UInt16)
    (sampleNs : UInt64) (ms : List Message) : Option (MicroExporter P W) :=
  Runs.run (step bucket) (new P W cfg eligible sampleNs) ms

end MicroExporter

/-! ## One look -/

namespace MinuteBucket

instance : Zero MinuteBucket := ⟨{}⟩

instance : Add MinuteBucket where
  add m n :=
    { samples := m.samples + n.samples
      spreadTicksSum := m.spreadTicksSum + n.spreadTicksSum
      bidSharesSum := m.bidSharesSum + n.bidSharesSum
      askSharesSum := m.askSharesSum + n.askSharesSum
      bidOrdersSum := m.bidOrdersSum + n.bidOrdersSum
      askOrdersSum := m.askOrdersSum + n.askOrdersSum
      oneTickSpreads := m.oneTickSpreads + n.oneTickSpreads
      crossedOrLocked := m.crossedOrLocked + n.crossedOrLocked }

attribute [ext] MinuteBucket

instance : AddCommMonoid MinuteBucket where
  add_assoc m n k := by ext : 1 <;> exact add_assoc ..
  zero_add m := by ext : 1 <;> exact zero_add _
  add_zero m := by ext : 1 <;> exact add_zero _
  add_comm m n := by ext : 1 <;> exact add_comm ..
  nsmul := nsmulRec

/-- What one sample adds, from what the reference book shows of the symbol. -/
def seen (r : ReferenceBook) (locate : UInt16) : MinuteBucket :=
  let i := Inside.read r locate
  if !i.valid then 0 else see 0 i.bid i.ask (r.depthAt locate kBuy i.bid) (r.depthAt locate kSell i.ask)

theorem see_eq (m : MinuteBucket) (bid ask : Price) (db da : Depth) :
    m.see bid ask db da = m + see 0 bid ask db da := by
  have hzero : ∀ x y : UInt64, x + y = x + (0 + y) := fun x y => by rw [zero_add]
  have hnone : ∀ x : UInt64, x = x + 0 := fun x => (add_zero x).symm
  unfold see
  dsimp only
  by_cases hcross : ask ≤ bid
  · rw [if_pos hcross, if_pos hcross]
    ext : 1 <;> first | exact hzero _ _ | exact hnone _
  · rw [if_neg hcross, if_neg hcross]
    by_cases htick : ((ask - bid) / 100).toUInt64 = 1
    · simp only [htick, if_true]
      ext : 1 <;> first | exact hzero _ _ | exact hnone _
    · simp only [htick, if_false]
      ext : 1 <;> first | exact hzero _ _ | exact hnone _

end MinuteBucket

theorem ReferenceBook.Represents.depth_query {r : ReferenceBook} {A : Book} (h : r.Represents A) (locate : UInt16)
    (side : UInt8) (price : Price) :
    r.depthAt locate side price = FastBook.depthOf (A.level locate (side == kBuy) price) := by
  have hlevel := h.level_query locate side price
  have hsame : r.depthAt locate side price =
      ⟨(r.level locate side price).present, (r.level locate side price).shares,
        (r.level locate side price).orders⟩ := by
    unfold ReferenceBook.depthAt ReferenceBook.level
    cases r.symbol locate with
    | none => rfl
    | some s =>
      dsimp only
      cases (s.side side)[price]? <;> rfl
  rw [hsame, hlevel]
  unfold FastBook.depthOf Book.snapshotOf
  rw [Book.ofNat_total]

section

variable {P : HashPolicy} {W : Window} {b : FastBook P W} {r : ReferenceBook} {A : Book}

/-- **One look** at the fast book adds what the reference book shows. -/
theorem MinuteBucket.observe_eq (h : FastBook.Rep true b A) (hr : r.Represents A) (m : MinuteBucket) (locate : UInt16) :
    m.observe b locate = m + seen r locate := by
  obtain ⟨hbid, hask, hbidPx, haskPx⟩ := FastBook.sameInside h hr locate
  have hdepth : ∀ side price, b.depthAt locate side price = r.depthAt locate side price := fun side price => by
    rw [h.depth_query, hr.depth_query]
  unfold observe seen Inside.read
  cases hs : r.symbol locate with
  | none =>
    rw [hs] at hbid
    have hno : b.hasBid locate = false := hbid
    rw [hno]
    exact (add_zero m).symm
  | some s =>
    rw [hs] at hbid hask hbidPx haskPx
    simp only [Option.any_some, Option.bind_some] at hbid hask hbidPx haskPx
    dsimp only
    rw [hbid, hask]
    by_cases hsides : (!s.hasBid || !s.hasAsk) = true
    · rw [if_pos hsides, if_pos hsides]
      exact (add_zero m).symm
    · have hboth : s.hasBid = true ∧ s.hasAsk = true := by simpa using hsides
      rw [if_neg hsides, if_neg hsides, hbidPx (hbid.trans hboth.1), haskPx (hask.trans hboth.2)]
      simp only [Option.getD_some, hdepth]
      exact see_eq ..

/-- **A message** reaches the book as it comes; what does not is nothing to the live orders. -/
theorem Exporter.on_forwards {x : Exporter P W} (bucket : ℕ → ℕ) {m : Message} (hb : x.book.on m = some b) :
    ∃ y, x.on bucket m = some y ∧ (y.book = b ∨ y.book = x.book ∧ ∀ A : Book, A.step m = A) := by
  have hforward : ∀ {y : Exporter P W}, y.book = x.book →
      ∃ z, y.forward m = some z ∧ (z.book = b ∨ z.book = x.book ∧ ∀ A : Book, A.step m = A) := fun {y} hy =>
    ⟨_, forward_eq (by rw [hy]; exact hb), .inl rfl⟩
  have hadd : ∀ locate ref shares ts, (x.add locate ref shares ts).book = x.book := fun locate ref shares ts =>
    (recordSize_fields shares).1
  cases m with
  | systemEvent v => exact hforward rfl
  | addOrder v => exact hforward (hadd ..)
  | addOrderMpid v => exact hforward (hadd ..)
  | orderExecuted v => exact hforward (reduce_book ..)
  | orderExecutedPrice v => exact hforward (reduce_book ..)
  | orderCancel v => exact hforward (reduce_book ..)
  | orderDelete v => exact hforward (closeOut_book ..)
  | orderReplace v =>
    have hsuper : (x.supersede bucket v).2.book = x.book := by
      unfold supersede
      cases x.live[v.oldOrderRef]? with
      | none => rfl
      | some t => exact closeOut_book ..
    obtain ⟨z, hz, hbook⟩ := hforward (y := (x.supersede bucket v).2.count (x.supersede bucket v).1
      fun s => { s with replaces := s.replaces + 1 }) hsuper
    unfold on
    dsimp only
    rw [hz]
    refine ⟨_, rfl, ?_⟩
    rw [count_book, (recordSize_fields _).1]
    exact hbook
  | trade v => exact ⟨_, rfl, .inr ⟨rfl, fun _ => rfl⟩⟩
  | _ => exact ⟨x, rfl, .inr ⟨rfl, fun _ => rfl⟩⟩

theorem Exporter.on_rep {x : Exporter P W} (bucket : ℕ → ℕ) (h : FastBook.Rep true x.book A) (m : Message) :
    ∃ y, x.on bucket m = some y ∧ (y.book.Fits → FastBook.Rep true y.book (A.step m)) := by
  obtain ⟨b, hon, hfol⟩ := h.on m
  obtain ⟨y, hy, hbook⟩ := x.on_forwards bucket hon
  refine ⟨y, hy, fun hfit => ?_⟩
  rcases hbook with hb | ⟨hb, hid⟩
  · rw [hb] at hfit ⊢
    exact hfol.done (hfit.not_refused hfol)
  · rw [hb, hid]
    exact h

end

/-! ## The boundary -/

namespace MicroExporter

section

variable {P : HashPolicy} {W : Window} {b : FastBook P W} {minute i k : ℕ} {locate : UInt16}

/-- The loop over a part of the universe that starts at position `n`. -/
def observeFrom (b : FastBook P W) (minute n : ℕ) (ls : List UInt16) (minutes : ℕ → ℕ → MinuteBucket) :
    ℕ → ℕ → MinuteBucket :=
  (ls.zipIdx n).foldl (fun minutes e =>
    Function.update minutes e.2 (Function.update (minutes e.2) minute ((minutes e.2 minute).observe b e.1))) minutes

theorem observeFrom_before : ∀ (ls : List UInt16) (n : ℕ) (minutes : ℕ → ℕ → MinuteBucket), i < n →
    observeFrom b minute n ls minutes i k = minutes i k
  | [], _, _, _ => rfl
  | l :: ls, n, minutes, h => by
    refine (observeFrom_before ls (n + 1) _ (Nat.lt_succ_of_lt h)).trans ?_
    dsimp only
    rw [Function.update_of_ne (Nat.ne_of_lt h)]

/-- Each position of the universe is looked at once. -/
theorem observeFrom_at : ∀ (ls : List UInt16) (i n : ℕ) (minutes : ℕ → ℕ → MinuteBucket), ls[i]? = some locate →
    observeFrom b minute n ls minutes (n + i) k =
      if k = minute then (minutes (n + i) k).observe b locate else minutes (n + i) k
  | l :: ls, 0, n, minutes, h => by
    obtain rfl := Option.some.inj h
    refine (observeFrom_before ls (n + 1) _ (Nat.lt_succ_self n)).trans ?_
    dsimp only
    rw [Function.update_self, Function.update_apply]
    split_ifs with hk
    · rw [hk]
      rfl
    · rfl
  | l :: ls, i + 1, n, minutes, h => by
    have hpos : n + (i + 1) = n + 1 + i := by omega
    rw [hpos]
    refine (observeFrom_at ls i (n + 1) _ h).trans ?_
    dsimp only
    rw [Function.update_of_ne (by omega)]

end

/-- **The boundary moves** by whole intervals, behind the time. -/
theorem advance_eq {step ts : UInt64} (hstep : 0 < step.toNat) (hmax : ts.toNat + step.toNat < 2 ^ 64) :
    ∀ (n : ℕ) {next : UInt64}, next ≤ ts → (ts.toNat - next.toNat) / step.toNat + 1 < n →
      ∃ v, advance step ts n next = some v ∧
        v.toNat = next.toNat + step.toNat * ((ts.toNat - next.toNat) / step.toNat + 1)
  | 0, _, _, hn => absurd hn (Nat.not_lt_zero _)
  | n + 1, next, hle, hn => by
    have hle' : next.toNat ≤ ts.toNat := UInt64.le_iff_toNat_le.mp hle
    have hadd : (next + step).toNat = next.toNat + step.toNat := by
      rw [UInt64.toNat_add, Nat.mod_eq_of_lt (by omega)]
    rw [advance, if_pos hle]
    by_cases hnext : next + step ≤ ts
    · have hnext' := UInt64.le_iff_toNat_le.mp hnext
      rw [hadd] at hnext'
      have hdiv : (ts.toNat - next.toNat) / step.toNat =
          (ts.toNat - (next + step).toNat) / step.toNat + 1 := by
        rw [hadd, ← Nat.add_div_right _ hstep]
        congr 1
        omega
      rw [hdiv] at hn ⊢
      obtain ⟨v, hv, hval⟩ := advance_eq hstep hmax n hnext (by omega)
      refine ⟨v, hv, ?_⟩
      rw [hval, hadd]
      ring
    · have hgt : ts.toNat < next.toNat + step.toNat := by
        rw [← hadd]
        exact UInt64.lt_iff_toNat_lt.mp (UInt64.not_le.mp hnext)
      have hdiv : (ts.toNat - next.toNat) / step.toNat = 0 := Nat.div_eq_of_lt (by omega)
      rw [hdiv] at hn ⊢
      refine ⟨next + step, ?_, by rw [hadd]; ring⟩
      cases n with
      | zero => omega
      | succ n => rw [advance, if_neg hnext]

/-! ## The samples of a session -/

/-- The time of a message, if it is one behind which the export samples, in the hours of the session. -/
def hourTs (m : Message) : Option ℕ :=
  ((sampleTs m).filter fun ts => decide (kOpenNs ≤ ts) && decide (ts < kCloseNs)).map UInt64.toNat

def hours (ms : List Message) : List ℕ := ms.filterMap hourTs

/-- The samples behind the messages `pre`: the time of each, and the messages up to it. A message is sampled when no
earlier one has come as far as its interval. -/
def samples (step : ℕ) : List Message → List Message → List (ℕ × List Message)
  | _, [] => []
  | pre, m :: ms =>
    (((hourTs m).filter fun t => decide (Grid.Fresh step (hours pre) t)).map fun t => (t, pre ++ [m])).toList ++
      samples step (pre ++ [m]) ms

/-- The minute of the session. -/
def minuteOf (t : ℕ) : ℕ := (t - kOpenNs.toNat) / 60000000000

/-- What the samples of a minute add up to. -/
def total (step : ℕ) (ms : List Message) (locate : UInt16) (minute : ℕ) : MinuteBucket :=
  (((samples step [] ms).filter fun e => minuteOf e.1 = minute).map fun e =>
    MinuteBucket.seen (ReferenceBook.run {} e.2) locate).sum

section

variable {step : ℕ} {ms : List Message} {m : Message} {t : ℕ}

theorem hours_snoc (ms : List Message) (m : Message) : hours (ms ++ [m]) = hours ms ++ (hourTs m).toList := by
  unfold hours
  rw [List.filterMap_append]
  cases h : hourTs m <;> simp [h]

theorem hourTs_eq {ts : UInt64} (h : sampleTs m = some ts) :
    hourTs m = if kOpenNs ≤ ts ∧ ts < kCloseNs then some ts.toNat else none := by
  unfold hourTs
  rw [h, Option.filter_some]
  by_cases hin : kOpenNs ≤ ts ∧ ts < kCloseNs
  · rw [if_pos hin, if_pos (by rw [decide_eq_true hin.1, decide_eq_true hin.2]; rfl), Option.map_some]
  · rw [if_neg hin, if_neg (by rwa [Bool.and_eq_true, decide_eq_true_eq, decide_eq_true_eq]), Option.map_none]

theorem toNat_minute {ts : UInt64} (h : kOpenNs ≤ ts) : ((ts - kOpenNs) / 60000000000).toNat = minuteOf ts.toNat := by
  rw [UInt64.toNat_div, UInt64.toNat_sub_of_le _ _ h]
  rfl

/-- The session has 390 minutes. -/
theorem minuteOf_lt {ts : UInt64} (h : kOpenNs ≤ ts ∧ ts < kCloseNs) : minuteOf ts.toNat < 390 := by
  have hopen := UInt64.le_iff_toNat_le.mp h.1
  have hclose := UInt64.lt_iff_toNat_lt.mp h.2
  have hspan : kCloseNs.toNat - kOpenNs.toNat = 390 * 60000000000 := by decide
  unfold minuteOf
  rw [Nat.div_lt_iff_lt_mul (by norm_num)]
  omega

theorem samples_snoc (m : Message) : ∀ pre ms, samples step pre (ms ++ [m]) = samples step pre ms ++
    (((hourTs m).filter fun t => decide (Grid.Fresh step (hours (pre ++ ms)) t)).map fun t =>
      (t, pre ++ ms ++ [m])).toList
  | pre, [] => by simp [samples]
  | pre, m' :: ms => by
    have hpre : pre ++ [m'] ++ ms = pre ++ m' :: ms := by simp
    rw [List.cons_append, samples, samples, samples_snoc m (pre ++ [m']) ms, hpre]
    exact (List.append_assoc ..).symm

/-- The sampled times are those that the grid picks. -/
theorem map_fst_samples (ms : List Message) : (samples step [] ms).map Prod.fst = Grid.picks step [] (hours ms) := by
  induction ms using List.reverseRecOn with
  | nil => rfl
  | append_singleton ms m ih =>
    rw [samples_snoc, List.map_append, ih, hours_snoc, List.nil_append]
    cases h : hourTs m with
    | none => simp
    | some t =>
      rw [Option.toList_some, Grid.picks_snoc, List.nil_append, Option.filter_some]
      congr 1
      by_cases hf : Grid.Fresh step (hours ms) t
      · simp [hf]
      · simp [hf]

theorem total_snoc_none (h : hourTs m = none) (locate : UInt16) (k : ℕ) :
    total step (ms ++ [m]) locate k = total step ms locate k := by
  unfold total
  rw [samples_snoc, h]
  simp

theorem total_snoc_some (h : hourTs m = some t) (locate : UInt16) (k : ℕ) :
    total step (ms ++ [m]) locate k = total step ms locate k +
      if Grid.Fresh step (hours ms) t ∧ minuteOf t = k then
        MinuteBucket.seen (ReferenceBook.run {} (ms ++ [m])) locate else 0 := by
  unfold total
  rw [samples_snoc, h, List.nil_append, Option.filter_some, List.filter_append, List.map_append, List.sum_append]
  congr 1
  by_cases hf : Grid.Fresh step (hours ms) t <;> by_cases hk : minuteOf t = k <;> simp [hf, hk]

end

/-! ## A run -/

section

variable {P : HashPolicy} {W : Window} {eligible : List UInt16} {sampleNs : UInt64} {pre : List Message}
  {x : MicroExporter P W}

/-- The boundary stands behind the hours so far, and the table holds the samples so far. -/
structure Keeps (eligible : List UInt16) (sampleNs : UInt64) (pre : List Message) (x : MicroExporter P W) : Prop where
  eligible_eq : x.eligible = eligible
  sampleNs_eq : x.sampleNs = sampleNs
  boundary : hours pre = [] ∧ x.nextSample = 0 ∨
    ∃ first, Grid.Reached sampleNs.toNat (hours pre) first x.nextSample.toNat
  minutes_eq : ∀ i locate, eligible[i]? = some locate → ∀ k, x.minutes i k = total sampleNs.toNat pre locate k

/-- A message that is not in the hours leaves what is kept. -/
theorem Keeps.skip (h : Keeps eligible sampleNs pre x) {m : Message} (hm : hourTs m = none) :
    Keeps eligible sampleNs (pre ++ [m]) x where
  eligible_eq := h.eligible_eq
  sampleNs_eq := h.sampleNs_eq
  boundary := by
    rw [hours_snoc, hm, Option.toList_none, List.append_nil]
    exact h.boundary
  minutes_eq := fun i locate hi k => by rw [total_snoc_none hm, h.minutes_eq i locate hi k]

/-- A sample is taken: the boundary moves and each symbol is looked at. -/
theorem Keeps.look (h : Keeps eligible sampleNs pre x) {m : Message} {t : ℕ} (hm : hourTs m = some t)
    (hfresh : Grid.Fresh sampleNs.toNat (hours pre) t) {A : Book} (hrep : FastBook.Rep true x.book A)
    (href : (ReferenceBook.run {} (pre ++ [m])).Represents A) {v : UInt64} {first : ℕ}
    (hv : Grid.Reached sampleNs.toNat (hours (pre ++ [m])) first v.toNat) :
    Keeps eligible sampleNs (pre ++ [m]) (observe { x with nextSample := v } (minuteOf t)) where
  eligible_eq := h.eligible_eq
  sampleNs_eq := h.sampleNs_eq
  boundary := .inr ⟨first, hv⟩
  minutes_eq := fun i locate hi k => by
    have hat : observeFrom x.book (minuteOf t) 0 eligible x.minutes (0 + i) k = _ :=
      observeFrom_at eligible i 0 x.minutes hi
    have hobs : (observe { x with nextSample := v } (minuteOf t)).minutes =
        observeFrom x.book (minuteOf t) 0 eligible x.minutes := by
      rw [← h.eligible_eq]
      rfl
    rw [Nat.zero_add] at hat
    rw [hobs, hat, total_snoc_some hm, ← h.minutes_eq i locate hi k]
    by_cases hk : k = minuteOf t
    · rw [if_pos hk, if_pos ⟨hfresh, hk.symm⟩]
      exact MinuteBucket.observe_eq hrep href _ locate
    · rw [if_neg hk, if_neg fun hc => hk hc.2.symm, add_zero]

/-- **A sample that is due** is taken: the boundary moves on from `next` and each symbol is looked at. -/
theorem Keeps.sample_due (h : Keeps eligible sampleNs pre x) (hstep : 0 < sampleNs.toNat)
    (hmax : sampleNs.toNat + kCloseNs.toNat ≤ 2 ^ 64) {m : Message} {ts : UInt64} (hin : kOpenNs ≤ ts ∧ ts < kCloseNs)
    (hm : hourTs m = some ts.toNat) {A : Book} (hrep : FastBook.Rep true x.book A)
    (href : (ReferenceBook.run {} (pre ++ [m])).Represents A) {next : UInt64}
    (hnext : (if x.nextSample = 0 then ts else x.nextSample) = next) (hle : next ≤ ts)
    (hfresh : Grid.Fresh sampleNs.toNat (hours pre) ts.toNat)
    (hreach : ∀ v : UInt64, v.toNat = next.toNat + sampleNs.toNat * ((ts.toNat - next.toNat) / sampleNs.toNat + 1) →
      ∃ first, Grid.Reached sampleNs.toNat (hours (pre ++ [m])) first v.toNat) :
    ∃ y, x.sample ts = some y ∧ y.toExporter = x.toExporter ∧ Keeps eligible sampleNs (pre ++ [m]) y := by
  have hclose := UInt64.lt_iff_toNat_lt.mp hin.2
  have hout : ¬ (ts < kOpenNs ∨ ts ≥ kCloseNs) := not_or.mpr ⟨UInt64.not_lt.mpr hin.1, UInt64.not_le.mpr hin.2⟩
  have hrounds : (ts.toNat - next.toNat) / sampleNs.toNat + 1 < 2 ^ 64 :=
    (Nat.succ_le_succ (Nat.div_le_self _ _)).trans_lt (by omega)
  obtain ⟨v, hv, hval⟩ := advance_eq hstep (by omega) (2 ^ 64) hle hrounds
  rw [← h.sampleNs_eq] at hv
  obtain ⟨first, hfirst⟩ := hreach v hval
  refine ⟨observe { x with nextSample := v } (minuteOf ts.toNat), ?_, rfl, h.look hm hfresh hrep href hfirst⟩
  have hsame : (if x.nextSample = 0 then { x with nextSample := ts } else x) = { x with nextSample := next } := by
    rw [← hnext]
    split_ifs <;> rfl
  unfold MicroExporter.sample
  rw [if_neg hout]
  dsimp only
  rw [hsame, if_neg (UInt64.not_lt.mpr hle)]
  dsimp only
  rw [hv, Option.map_some, toNat_minute hin.1, if_neg (Nat.not_le.mpr (minuteOf_lt hin))]

/-- A sample that is not due is not taken. -/
theorem Keeps.sample_early (h : Keeps eligible sampleNs pre x) (hstep : 0 < sampleNs.toNat) {m : Message} {ts : UInt64}
    (hin : kOpenNs ≤ ts ∧ ts < kCloseNs) (hm : hourTs m = some ts.toNat) (hne : x.nextSample ≠ 0) {first : ℕ}
    (hreached : Grid.Reached sampleNs.toNat (hours pre) first x.nextSample.toNat) (hlt : ts < x.nextSample) :
    x.sample ts = some x ∧ Keeps eligible sampleNs (pre ++ [m]) x := by
  have hlt' := UInt64.lt_iff_toNat_lt.mp hlt
  have hout : ¬ (ts < kOpenNs ∨ ts ≥ kCloseNs) := not_or.mpr ⟨UInt64.not_lt.mpr hin.1, UInt64.not_le.mpr hin.2⟩
  refine ⟨?_, h.eligible_eq, h.sampleNs_eq, .inr ⟨first, ?_⟩, fun i locate hi k => ?_⟩
  · unfold MicroExporter.sample
    rw [if_neg hout, if_neg hne]
    dsimp only
    rw [if_pos hlt]
  · rw [hours_snoc, hm]
    exact hreached.stay hlt'
  · rw [total_snoc_some hm, if_neg, add_zero, h.minutes_eq i locate hi k]
    exact fun hc => Nat.not_le.mpr hlt' ((hreached.fresh_iff hstep).mp hc.1)

/-- **The end of a handler** keeps the samples. -/
theorem Keeps.sample (h : Keeps eligible sampleNs pre x) (hstep : 0 < sampleNs)
    (hmax : sampleNs.toNat + kCloseNs.toNat ≤ 2 ^ 64) {m : Message} {ts : UInt64} (hts : sampleTs m = some ts)
    {A : Book} (hrep : FastBook.Rep true x.book A) (href : (ReferenceBook.run {} (pre ++ [m])).Represents A) :
    ∃ y, x.sample ts = some y ∧ y.toExporter = x.toExporter ∧ Keeps eligible sampleNs (pre ++ [m]) y := by
  have hstep' : 0 < sampleNs.toNat := UInt64.lt_iff_toNat_lt.mp hstep
  have hhour := hourTs_eq hts
  by_cases hin : kOpenNs ≤ ts ∧ ts < kCloseNs
  · rw [if_pos hin] at hhour
    rcases h.boundary with ⟨hnil, hzero⟩ | ⟨first, hreached⟩
    · -- the first sample opens the grid
      refine h.sample_due hstep' hmax hin hhour hrep href (if_pos hzero) (UInt64.le_refl _) (hnil ▸ Grid.fresh_nil)
        fun v hv => ⟨ts.toNat, ?_⟩
      rw [hours_snoc, hnil, hhour, hv, Nat.sub_self, Nat.zero_div, Nat.zero_add, Nat.mul_one]
      exact Grid.reached_first hstep' _
    · have hne : x.nextSample ≠ 0 := fun hc => by
        obtain ⟨u, -, -, hnext⟩ := hreached.boundary
        have hpos : 0 < sampleNs.toNat * (Grid.cell sampleNs.toNat first u + 1) := Nat.mul_pos hstep' (Nat.succ_pos _)
        rw [hc, UInt64.toNat_zero] at hnext
        exact absurd hnext (Nat.ne_of_lt (Nat.add_pos_right first hpos))
      by_cases hle : x.nextSample ≤ ts
      · have hle' := UInt64.le_iff_toNat_le.mp hle
        refine h.sample_due hstep' hmax hin hhour hrep href (if_neg hne) hle ((hreached.fresh_iff hstep').mpr hle')
          fun v hv => ⟨first, ?_⟩
        rw [hours_snoc, hhour, hv]
        exact hreached.move hstep' hle'
      · obtain ⟨hsame, hkeeps⟩ := h.sample_early hstep' hin hhour hne hreached (UInt64.not_le.mp hle)
        exact ⟨x, hsame, rfl, hkeeps⟩
  · rw [if_neg hin] at hhour
    have hout : ts < kOpenNs ∨ ts ≥ kCloseNs := by
      rw [not_and_or, UInt64.not_le, UInt64.not_lt] at hin
      exact hin
    exact ⟨x, if_pos hout, rfl, h.skip hhour⟩

/-- **A message** keeps the samples, behind an export that takes none. -/
theorem Keeps.on (h : Keeps eligible sampleNs pre x) (hstep : 0 < sampleNs)
    (hmax : sampleNs.toNat + kCloseNs.toNat ≤ 2 ^ 64) (bucket : ℕ → ℕ) {m : Message} {e : Exporter P W}
    (he : x.toExporter.on bucket m = some e) {A : Book} (hrep : FastBook.Rep true e.book A)
    (href : (ReferenceBook.run {} (pre ++ [m])).Represents A) :
    ∃ y, x.on bucket m = some y ∧ y.toExporter = e ∧ Keeps eligible sampleNs (pre ++ [m]) y := by
  have hkeep : Keeps eligible sampleNs pre { x with toExporter := e } :=
    ⟨h.eligible_eq, h.sampleNs_eq, h.boundary, h.minutes_eq⟩
  unfold MicroExporter.on
  rw [he, Option.bind_some]
  cases hts : sampleTs m with
  | none =>
    have hm : hourTs m = none := by
      unfold hourTs
      rw [hts]
      rfl
    exact ⟨_, rfl, rfl, hkeep.skip hm⟩
  | some ts => exact hkeep.sample hstep hmax hts hrep href

end

theorem open_le_of_mem_hours {t : ℕ} {ms : List Message} (h : t ∈ hours ms) : kOpenNs.toNat ≤ t := by
  obtain ⟨m, -, hm⟩ := List.mem_filterMap.mp h
  obtain ⟨ts, hts, rfl⟩ := Option.map_eq_some_iff.mp hm
  have hin := (Option.filter_eq_some_iff.mp hts).2
  rw [Bool.and_eq_true, decide_eq_true_iff] at hin
  exact UInt64.le_iff_toNat_le.mp hin.1

/-- **Few messages of a minute are sampled.** -/
theorem length_samples_minute {step : ℕ} (hstep : 0 < step) (ms : List Message) (k : ℕ) :
    ((samples step [] ms).filter fun e => minuteOf e.1 = k).length ≤ (60000000000 - 1) / step + 2 := by
  have hwindow : ∀ t ∈ Grid.picks step [] (hours ms), decide (minuteOf t = k) =
      decide (kOpenNs.toNat + k * 60000000000 ≤ t ∧ t < kOpenNs.toNat + k * 60000000000 + 60000000000) := by
    intro t ht
    have hopen := open_le_of_mem_hours (Grid.picks_subset _ ht)
    rw [decide_eq_decide]
    unfold minuteOf
    omega
  calc ((samples step [] ms).filter fun e => minuteOf e.1 = k).length
      = (((samples step [] ms).map Prod.fst).filter fun t => minuteOf t = k).length := by
        rw [List.filter_map, List.length_map]
        rfl
    _ = ((Grid.picks step [] (hours ms)).filter fun t => kOpenNs.toNat + k * 60000000000 ≤ t ∧
          t < kOpenNs.toNat + k * 60000000000 + 60000000000).length := by
        rw [map_fst_samples]
        exact congrArg List.length (List.filter_congr hwindow)
    _ ≤ (60000000000 - 1) / step + 2 := Grid.length_picks_window hstep _ _ _

/-- **The table of the minutes** is the sum over the sampled messages of what the reference book shows behind each, the
export is otherwise the one without samples, and a minute has few of them. -/
theorem sampled (P : HashPolicy) (W : Window) (cfg : FastBookConfig) (bucket : ℕ → ℕ) (eligible : List UInt16)
    (sampleNs : UInt64) (ms : List Message) (hnew : (Exporter.new P W cfg).isSome = true)
    (hfits : ∀ pre, pre <+: ms → ∀ e, Exporter.run P W cfg bucket pre = some e → e.book.Fits)
    (hstep : 0 < sampleNs) (hmax : sampleNs.toNat + kCloseNs.toNat ≤ 2 ^ 64) :
    (∃ x, run P W cfg bucket eligible sampleNs ms = some x ∧
      Exporter.run P W cfg bucket ms = some x.toExporter ∧
      ∀ i locate, eligible[i]? = some locate → ∀ k, x.minutes i k = total sampleNs.toNat ms locate k) ∧
    ∀ k, ((samples sampleNs.toNat [] ms).filter fun e => minuteOf e.1 = k).length ≤
      (60000000000 - 1) / sampleNs.toNat + 2 := by
  obtain ⟨e₀, h₀⟩ := Option.isSome_iff_exists.mp hnew
  have key : ∀ pre, pre <+: ms → ∃ x, run P W cfg bucket eligible sampleNs pre = some x ∧
      Exporter.run P W cfg bucket pre = some x.toExporter ∧ Keeps eligible sampleNs pre x ∧
      FastBook.Rep true x.book (Runs.run Book.step Book.empty pre) := by
    intro pre
    induction pre using List.reverseRecOn with
    | nil =>
      intro _
      obtain ⟨-, hrep₀⟩ : Exporter.Mirrors bucket e₀ Lives.empty ∧ _ := Exporter.mirrors_new h₀
      refine ⟨{ e₀ with eligible := eligible, sampleNs := sampleNs }, ?_, h₀, ?_, hrep₀⟩
      · unfold run MicroExporter.new
        rw [h₀]
        rfl
      · exact ⟨rfl, rfl, .inl ⟨rfl, rfl⟩, fun _ _ _ _ => rfl⟩
    | append_singleton pre m ih =>
      intro hpre
      obtain ⟨x, hx, hex, hkeep, hrep⟩ := ih ((List.prefix_append pre [m]).trans hpre)
      obtain ⟨e, he, hrep'⟩ := Exporter.on_rep bucket hrep m
      have herun : Exporter.run P W cfg bucket (pre ++ [m]) = some e := by
        unfold Exporter.run at hex ⊢
        rw [Runs.run_snoc, hex]
        exact he
      have hbook : FastBook.Rep true e.book (Runs.run Book.step Book.empty (pre ++ [m])) := by
        rw [Runs.run_snoc]
        exact hrep' (hfits _ hpre e herun)
      obtain ⟨y, hy, hsame, hkeep'⟩ := hkeep.on hstep hmax bucket he hbook (ReferenceBook.represents_run _)
      refine ⟨y, ?_, by rw [herun, hsame], hkeep', by rw [hsame]; exact hbook⟩
      unfold run at hx ⊢
      rw [Runs.run_snoc, hx]
      exact hy
  obtain ⟨x, hx, hex, hkeep, -⟩ := key ms (List.prefix_refl _)
  exact ⟨⟨x, hx, hex, hkeep.minutes_eq⟩, length_samples_minute (UInt64.lt_iff_toNat_lt.mp hstep) ms⟩

/-- Both sides of a book in the hours of the session, and trades around them. -/
def sampledTrades : List Message :=
  [.addOrder
      { locate := 1, ts := 34200000000005, orderRef := 7, side := kBuy, shares := 5, stock := [], price := 10000 },
    .addOrder
      { locate := 1, ts := 34200000000006, orderRef := 8, side := kSell, shares := 3, stock := [], price := 10100 },
    .trade { locate := 1, ts := 34200000000009, price := 10000 },
    .trade { locate := 1, ts := 34200000000025, price := 10000 }]

theorem sampled_trades :
    (∃ x, run multiplyShiftHash defaultWindow ⟨8, 4, 8⟩ id [1] 10 sampledTrades = some x ∧
      Exporter.run multiplyShiftHash defaultWindow ⟨8, 4, 8⟩ id sampledTrades = some x.toExporter ∧
      ∀ i locate, [1][i]? = some locate → ∀ k, x.minutes i k = total (10 : UInt64).toNat sampledTrades locate k) ∧
    ∀ k, ((samples (10 : UInt64).toNat [] sampledTrades).filter fun e => minuteOf e.1 = k).length ≤
      (60000000000 - 1) / (10 : UInt64).toNat + 2 := by
  refine sampled multiplyShiftHash defaultWindow ⟨8, 4, 8⟩ id [1] 10 sampledTrades (by decide +kernel)
    (fun pre hpre x hx => ?_) (by decide) (by decide)
  have hall : ∀ pre ∈ sampledTrades.inits,
      (Exporter.run multiplyShiftHash defaultWindow ⟨8, 4, 8⟩ id pre).all (fun x => decide x.book.Fits) = true := by
    decide +kernel
  have hfit := hall pre ((List.mem_inits _ _).mpr hpre)
  rw [hx] at hfit
  exact of_decide_eq_true hfit

end MicroExporter

end Carteret
