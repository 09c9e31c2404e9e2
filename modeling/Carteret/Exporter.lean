import Carteret.Lib.OrderedMap
import Carteret.FastRefines
import Carteret.OrderLives

/-!
# The microstructure export

`export_micro` keeps a table of live orders beside the fast book, to know how long an order lived and how it
left. The names of the symbols and the samples of the inside, which nothing here reads, are left out.

1. The data and the handler.
2. `Mirrors`: the table and the histogram are those of the lives of the book's orders.
3. `tracks_run`: what the export tracks in a run whose messages are all `Distinct`, and that an orphaned replace
   and a duplicate reference break it.
-/

namespace Carteret

/-! ## The data -/

/-- How an order left the book. -/
inductive Exit
  | filled
  | partiallyFilledThenGone
  | cancelled
  | replaced
  deriving DecidableEq

structure PerSymbol where
  adds : ℕ := 0
  executes : ℕ := 0
  cancels : ℕ := 0
  deletes : ℕ := 0
  replaces : ℕ := 0
  trades : ℕ := 0
  sharesAdded : ℕ := 0
  sharesExecuted : ℕ := 0
  sharesCancelled : ℕ := 0

structure Tracked where
  addedTs : ℕ := 0
  originalShares : Shares := 0
  remaining : Shares := 0
  filled : Shares := 0
  locate : UInt16 := 0
  deriving DecidableEq

/-- `lifetimes` has a row for each exit. -/
structure Exporter (P : HashPolicy) (W : Window) where
  book : FastBook P W
  sym : UInt16 → PerSymbol := fun _ => {}
  live : Std.TreeMap Ref Tracked := ∅
  lifetimes : Exit → ℕ → ℕ := fun _ _ => 0
  sizeSmall : ℕ → ℕ := fun _ => 0
  sizeLarge : ℕ → ℕ := fun _ => 0
  sizeOver : ℕ := 0

/-- The live order of a reference, as the index of the book finds it. -/
def FastBook.liveOrder {P : HashPolicy} {W : Window} (b : FastBook P W) (ref : Ref) : Option FastOrder :=
  (b.index.find ref).bind fun i => if i = kNoOrder then none else some (b.order i)

namespace Exporter

variable {P : HashPolicy} {W : Window}

def new (P : HashPolicy) (W : Window) (cfg : FastBookConfig) : Option (Exporter P W) :=
  (FastBook.new P W cfg).map fun b => { book := b }

def stillLive (x : Exporter P W) : ℕ := x.live.size

/-- An update of `sym_[locate]`. -/
def count (x : Exporter P W) (locate : UInt16) (f : PerSymbol → PerSymbol) : Exporter P W :=
  { x with sym := Function.update x.sym locate (f (x.sym locate)) }

def recordSize (x : Exporter P W) (shares : Shares) : Exporter P W :=
  let n := shares.toNat
  if n < 1000 then { x with sizeSmall := Function.update x.sizeSmall n (x.sizeSmall n + 1) }
  else if n < 100000 then
    { x with sizeLarge := Function.update x.sizeLarge (n / 100) (x.sizeLarge (n / 100) + 1) }
  else { x with sizeOver := x.sizeOver + 1 }

/-- A new entry of the table. -/
def track (x : Exporter P W) (ref : Ref) (locate : UInt16) (shares : Shares) (ts : ℕ) : Exporter P W :=
  { x with
    live := x.live.insert ref
      { addedTs := ts, originalShares := shares, remaining := shares, locate := locate } }

def add (x : Exporter P W) (locate : UInt16) (ref : Ref) (shares : Shares) (ts : ℕ) : Exporter P W :=
  ((x.count locate fun s => { s with adds := s.adds + 1, sharesAdded := s.sharesAdded + shares.toNat }).track
    ref locate shares ts).recordSize shares

/-- `bucket` is `lifetime_bucket`, which computes with floating point. -/
def closeOut (bucket : ℕ → ℕ) (x : Exporter P W) (ref : Ref) (ts : ℕ) (e : Exit) : Exporter P W :=
  match x.live[ref]? with
  | none => x
  | some t =>
    let life := if ts > t.addedTs then ts - t.addedTs else 0
    let eff := if e = .cancelled ∧ t.filled > 0 then .partiallyFilledThenGone else e
    let row := x.lifetimes eff
    { x with
      lifetimes := Function.update x.lifetimes eff
        (Function.update row (bucket life) (row (bucket life) + 1))
      live := x.live.erase ref }

def reduce (bucket : ℕ → ℕ) (x : Exporter P W) (ref : Ref) (qty : Shares) (ts : ℕ) (executed : Bool) :
    Exporter P W :=
  match x.live[ref]? with
  | none => x
  | some t =>
    let taken := min qty t.remaining
    let t := { t with
      remaining := t.remaining - taken
      filled := if executed then t.filled + taken else t.filled }
    let x := { x with live := x.live.insert ref t }
    if t.remaining = 0 then
      x.closeOut bucket ref ts
        (if executed then if t.filled = t.originalShares then .filled else .partiallyFilledThenGone
          else .cancelled)
    else x

/-- `book_.on(v)`. -/
def forward (x : Exporter P W) (m : Message) : Option (Exporter P W) :=
  (x.book.on m).map fun b => { x with book := b }

/-- The start of the replace handler: the replaced order leaves. The result is the symbol of the new order. -/
def supersede (bucket : ℕ → ℕ) (x : Exporter P W) (v : OrderReplace) : UInt16 × Exporter P W :=
  match x.live[v.oldOrderRef]? with
  | none => (v.locate, x)
  | some t =>
    (t.locate,
      (x.count t.locate fun s => { s with sharesCancelled := s.sharesCancelled + t.remaining.toNat }).closeOut
        bucket v.oldOrderRef v.ts.toNat .replaced)

def on (bucket : ℕ → ℕ) (x : Exporter P W) : Message → Option (Exporter P W)
  | .systemEvent v => x.forward (.systemEvent v)
  | .addOrder v => (x.add v.locate v.orderRef v.shares v.ts.toNat).forward (.addOrder v)
  | .addOrderMpid v => (x.add v.locate v.orderRef v.shares v.ts.toNat).forward (.addOrderMpid v)
  | .orderExecuted v =>
    ((x.reduce bucket v.orderRef v.executedShares v.ts.toNat true).count v.locate fun s =>
      { s with executes := s.executes + 1, sharesExecuted := s.sharesExecuted + v.executedShares.toNat }).forward
        (.orderExecuted v)
  | .orderExecutedPrice v =>
    ((x.reduce bucket v.orderRef v.executedShares v.ts.toNat true).count v.locate fun s =>
      { s with executes := s.executes + 1, sharesExecuted := s.sharesExecuted + v.executedShares.toNat }).forward
        (.orderExecutedPrice v)
  | .orderCancel v =>
    ((x.reduce bucket v.orderRef v.cancelledShares v.ts.toNat false).count v.locate fun s =>
      { s with cancels := s.cancels + 1, sharesCancelled := s.sharesCancelled + v.cancelledShares.toNat }).forward
        (.orderCancel v)
  | .orderDelete v =>
    ((x.closeOut bucket v.orderRef v.ts.toNat .cancelled).count v.locate fun s =>
      { s with deletes := s.deletes + 1 }).forward (.orderDelete v)
  | .orderReplace v =>
    let r := x.supersede bucket v
    ((r.2.count r.1 fun s => { s with replaces := s.replaces + 1 }).forward (.orderReplace v)).map fun x =>
      ((x.track v.newOrderRef r.1 v.shares v.ts.toNat).recordSize v.shares).count r.1 fun s =>
        { s with sharesAdded := s.sharesAdded + v.shares.toNat }
  | .trade v => some (x.count v.locate fun s => { s with trades := s.trades + 1 })
  | _ => some x

/-- One message, for an export that may not have returned. -/
def step (bucket : ℕ → ℕ) (x : Option (Exporter P W)) (m : Message) : Option (Exporter P W) :=
  x.bind fun x => x.on bucket m

def run (P : HashPolicy) (W : Window) (cfg : FastBookConfig) (bucket : ℕ → ℕ) (ms : List Message) :
    Option (Exporter P W) := Runs.run (step bucket) (new P W cfg) ms

/-- A bucket of the lifetimes, over all exits. -/
def recorded (x : Exporter P W) (i : ℕ) : ℕ :=
  x.lifetimes .filled i + x.lifetimes .partiallyFilledThenGone i + x.lifetimes .cancelled i +
    x.lifetimes .replaced i

/-- What the export is for: its table has exactly the live orders of its book, with their symbols and resting
shares, and each of the lifetimes `ended` stands once in its bucket. -/
structure Tracks (bucket : ℕ → ℕ) (x : Exporter P W) (ended : List ℕ) : Prop where
  live_eq : ∀ ref, x.live[ref]?.map (fun t => (t.locate, t.remaining)) =
    (x.book.liveOrder ref).map fun o => (o.locate, o.shares)
  stillLive_eq : x.stillLive = x.book.liveOrders
  recorded_eq : ∀ i, x.recorded i = (ended.map bucket).count i

/-! ## The table -/

variable {bucket : ℕ → ℕ} {x y : Exporter P W} {b : FastBook P W} {A : Book} {L : Lives} {since : Ref → ℕ}
  {ended : List ℕ} {ref : Ref}

@[simp] theorem count_book (locate : UInt16) (f : PerSymbol → PerSymbol) : (x.count locate f).book = x.book := rfl

@[simp] theorem count_live (locate : UInt16) (f : PerSymbol → PerSymbol) : (x.count locate f).live = x.live := rfl

@[simp] theorem count_lifetimes (locate : UInt16) (f : PerSymbol → PerSymbol) :
    (x.count locate f).lifetimes = x.lifetimes := rfl

theorem recordSize_fields (n : Shares) : (x.recordSize n).book = x.book ∧ (x.recordSize n).live = x.live ∧
    (x.recordSize n).lifetimes = x.lifetimes := by
  unfold recordSize
  dsimp only
  split_ifs <;> exact ⟨rfl, rfl, rfl⟩

/-- The table has the orders of the lives, and the histogram their lifetimes. -/
structure Mirrors (bucket : ℕ → ℕ) (x : Exporter P W) (L : Lives) : Prop where
  find_eq : ∀ ref, x.live[ref]?.map (fun t => (t.locate, t.remaining, t.addedTs)) =
    (L.book.find ref).map fun e => (e.locate, e.shares, L.since ref)
  recorded_eq : ∀ i, x.recorded i = (L.lifetimes.map bucket).count i

theorem Mirrors.congr (h : Mirrors bucket x L) (hl : y.live = x.live) (hr : y.lifetimes = x.lifetimes) :
    Mirrors bucket y L :=
  ⟨hl ▸ h.find_eq, fun i => by rw [← h.recorded_eq i]; unfold recorded; rw [hr]⟩

theorem Mirrors.count (h : Mirrors bucket x L) (locate : UInt16) (f : PerSymbol → PerSymbol) :
    Mirrors bucket (x.count locate f) L := h.congr rfl rfl

theorem Mirrors.recordSize (h : Mirrors bucket x L) (n : Shares) : Mirrors bucket (x.recordSize n) L :=
  h.congr (recordSize_fields n).2.1 (recordSize_fields n).2.2

/-- The entry of a live order. -/
theorem Mirrors.tracked (h : Mirrors bucket x ⟨A, since, ended⟩) {e : Entry} (he : A.find ref = some e) :
    ∃ t, x.live[ref]? = some t ∧ t.locate = e.locate ∧ t.remaining = e.shares ∧ t.addedTs = since ref := by
  have hf := h.find_eq ref
  rw [show Lives.book ⟨A, since, ended⟩ = A from rfl, he, Option.map_some] at hf
  obtain ⟨t, ht, heq⟩ := Option.map_eq_some_iff.mp hf
  obtain ⟨hloc, hrest⟩ := Prod.mk.inj heq
  exact ⟨t, ht, hloc, Prod.mk.inj hrest⟩

theorem Mirrors.not_tracked (h : Mirrors bucket x ⟨A, since, ended⟩) (hn : A.find ref = none) :
    x.live[ref]? = none := by
  have hf := h.find_eq ref
  rw [show Lives.book ⟨A, since, ended⟩ = A from rfl, hn, Option.map_none] at hf
  exact Option.map_eq_none_iff.mp hf

/-- A lifetime goes into one bucket of one row. -/
theorem recorded_bump {e : Exit} {j : ℕ} (i : ℕ) (hy : y.lifetimes =
      Function.update x.lifetimes e (Function.update (x.lifetimes e) j (x.lifetimes e j + 1))) :
    y.recorded i = x.recorded i + if j = i then 1 else 0 := by
  unfold recorded
  rw [hy]
  by_cases hj : j = i
  · subst hj
    cases e <;> simp <;> omega
  · have hij : i ≠ j := fun hc => hj hc.symm
    cases e <;> simp [hij, hj]

/-- An order that leaves. -/
theorem Mirrors.closeOut (h : Mirrors bucket x ⟨A, since, ended⟩) (ref : Ref) (ts : ℕ) (e : Exit) :
    Mirrors bucket (x.closeOut bucket ref ts e)
      ⟨A.drop ref, since, ended ++ (A.find ref).toList.map fun _ => ts - since ref⟩ := by
  unfold Exporter.closeOut
  cases hf : A.find ref with
  | none =>
    rw [h.not_tracked hf, Option.toList_none, List.map_nil, List.append_nil,
      Book.drop_of_absent (Book.find_eq_none.mp hf)]
    exact h
  | some f =>
    obtain ⟨t, ht, -, -, hts⟩ := h.tracked hf
    rw [ht]
    refine ⟨fun r => ?_, fun i => ?_⟩
    · dsimp only
      rw [OrderedMap.getElem?_erase_eq, Book.find_drop]
      split
      · rfl
      · exact h.find_eq r
    · have hlife : (if ts > t.addedTs then ts - t.addedTs else 0) = ts - since ref := by
        rw [hts]
        split <;> omega
      have hrec := h.recorded_eq i
      dsimp only at hrec ⊢
      rw [hlife]
      refine (recorded_bump i rfl).trans ?_
      rw [hrec, Option.toList_some, List.map_append, List.count_append]
      simp only [List.map_cons, List.map_nil, List.count_singleton, beq_iff_eq]

/-- An order of which shares are taken. -/
theorem Mirrors.reduce (h : Mirrors bucket x ⟨A, since, ended⟩) (ref : Ref) (qty : Shares) (ts : ℕ)
    (executed : Bool) :
    Mirrors bucket (x.reduce bucket ref qty ts executed)
      ⟨A.reduce ref qty, since, ended ++ ((A.find ref).toList.filter fun e =>
        e.shares - taken qty e.shares == 0).map fun _ => ts - since ref⟩ := by
  unfold Exporter.reduce
  cases hf : A.find ref with
  | none =>
    rw [h.not_tracked hf, Option.toList_none, List.filter_nil, List.map_nil, List.append_nil,
      Book.reduce_of_absent (Book.find_eq_none.mp hf)]
    exact h
  | some f =>
    obtain ⟨t, ht, hloc, hrem, hts⟩ := h.tracked hf
    have hmin : min qty t.remaining = taken qty f.shares := by
      rw [hrem]
      change (if qty ≤ f.shares then qty else f.shares) = if qty > f.shares then f.shares else qty
      by_cases hle : qty ≤ f.shares
      · rw [if_pos hle, if_neg (UInt32.not_lt.mpr hle)]
      · rw [if_neg hle, if_pos (UInt32.not_le.mp hle)]
    rw [ht]
    dsimp only
    rw [hmin, hrem, Book.reduce_eq hf, Option.toList_some, List.filter_singleton]
    -- the table with the entry overwritten follows the book with the order's shares overwritten
    have hset : ∀ t' : Tracked, t'.locate = t.locate → t'.addedTs = t.addedTs →
        Mirrors bucket ({ x with live := x.live.insert ref t' } : Exporter P W)
          ⟨A.setShares ref t'.remaining, since, ended⟩ := by
      intro t' hl hs
      refine ⟨fun r => ?_, h.recorded_eq⟩
      dsimp only
      rw [OrderedMap.getElem?_insert_eq, Book.find_setShares]
      by_cases hr : r = ref
      · obtain ⟨-, href⟩ := Book.find_eq_some.mp hf
        rw [if_pos hr, hr, hf, Option.map_some, Option.map_some, Option.map_some, if_pos href, hl, hs, hloc, hts]
      · have hkeep : (A.find r).map (fun e => if e.ref = ref then { e with shares := t'.remaining } else e) =
            A.find r := by
          cases hfr : A.find r with
          | none => rfl
          | some g =>
            have hg := (Book.find_eq_some.mp hfr).2
            rw [Option.map_some, if_neg fun hc => hr (hg.symm.trans hc)]
        rw [if_neg hr, hkeep]
        exact h.find_eq r
    by_cases hz : f.shares - taken qty f.shares = 0
    · rw [if_pos hz, if_pos hz, hz]
      have hclose := (hset { t with
        remaining := f.shares - taken qty f.shares
        filled := if executed then t.filled + taken qty f.shares else t.filled } rfl rfl).closeOut ref ts
          (if executed then if (if executed then t.filled + taken qty f.shares else t.filled) = t.originalShares
            then .filled else .partiallyFilledThenGone else .cancelled)
      rw [Book.drop_setShares, Book.find_setShares, hf, hz] at hclose
      exact hclose
    · rw [if_neg hz, if_neg hz, beq_eq_false_iff_ne.mpr hz, cond_false, List.map_nil, List.append_nil]
      exact hset _ rfl rfl

/-- An order that comes. -/
theorem Mirrors.track (h : Mirrors bucket x ⟨A, since, ended⟩) (e : Entry) (ts : ℕ) :
    Mirrors bucket (x.track e.ref e.locate e.shares ts) ⟨A.place e, Function.update since e.ref ts, ended⟩ := by
  refine ⟨fun r => ?_, h.recorded_eq⟩
  unfold Exporter.track
  dsimp only
  rw [OrderedMap.getElem?_insert_eq, Book.find_place]
  split
  · rename_i hr
    rw [hr, Option.map_some, Option.map_some, Function.update_self]
  · rename_i hr
    rw [Function.update_of_ne hr]
    exact h.find_eq r

/-! ## One message -/

theorem forward_eq {m : Message} (hb : x.book.on m = some b) : x.forward m = some { x with book := b } := by
  rw [forward, hb]
  rfl

theorem reduce_book (ref : Ref) (qty : Shares) (ts : ℕ) (executed : Bool) :
    (x.reduce bucket ref qty ts executed).book = x.book := by
  have hclose : ∀ (y : Exporter P W) (e : Exit), (y.closeOut bucket ref ts e).book = y.book := fun y e => by
    unfold closeOut
    split <;> rfl
  unfold reduce
  split
  · rfl
  · dsimp only
    split
    · exact hclose _ _
    · rfl

theorem closeOut_book (ref : Ref) (ts : ℕ) (e : Exit) : (x.closeOut bucket ref ts e).book = x.book := by
  unfold closeOut
  split <;> rfl

/-- The order that a replace ends leaves. -/
theorem Mirrors.supersede (h : Mirrors bucket x ⟨A, since, ended⟩) {v : OrderReplace} {e : Entry}
    (he : A.find v.oldOrderRef = some e) :
    ∃ y, x.supersede bucket v = (e.locate, y) ∧ y.book = x.book ∧
      Mirrors bucket y ⟨A.drop v.oldOrderRef, since, ended ++ [v.ts.toNat - since v.oldOrderRef]⟩ := by
  obtain ⟨t, ht, hloc, -, -⟩ := h.tracked he
  have hclose := (h.count t.locate fun s =>
    { s with sharesCancelled := s.sharesCancelled + t.remaining.toNat }).closeOut v.oldOrderRef v.ts.toNat .replaced
  rw [he] at hclose
  refine ⟨_, ?_, ?_, hclose⟩
  · unfold Exporter.supersede
    rw [ht, ← hloc]
  · rw [closeOut_book, count_book]

/-- **One message** in which no order takes the place of another. -/
theorem Mirrors.on (h : Mirrors bucket x L) (hrep : FastBook.Rep true x.book L.book) {m : Message}
    (hm : L.book.Distinct m) :
    ∃ x', x.on bucket m = some x' ∧ Mirrors bucket x' (L.step m) ∧
      (x'.book.Fits → FastBook.Rep true x'.book (L.step m).book) := by
  obtain ⟨A, since, ended⟩ := L
  obtain ⟨b', hon, hfol⟩ := hrep.on m
  have hdone : b'.Fits → FastBook.Rep true b' (A.step m) := fun hfit => hfol.done (hfit.not_refused hfol)
  -- a message that the export does not hand to its book
  have hidle : A.brought m = none → A.step m = A → ∀ y : Exporter P W, y.book = x.book → y.live = x.live →
      y.lifetimes = x.lifetimes → Mirrors bucket y (Lives.step ⟨A, since, ended⟩ m) ∧
        (y.book.Fits → FastBook.Rep true y.book (A.step m)) := fun hb hs y hbook hlive hlife => by
    refine ⟨?_, fun _ => by rw [hbook, hs]; exact hrep⟩
    rw [Lives.step, hb, hs, Book.ended_of_step_eq hb hs, List.map_nil, List.append_nil]
    exact h.congr hlive hlife
  have hplace : ∀ e : Entry, A.brought m = some e → A.step m = A.place e → A.find e.ref = none →
      ∀ y : Exporter P W, y.book = x.book → y.live = (x.track e.ref e.locate e.shares m.ts).live →
        y.lifetimes = x.lifetimes → ∃ x', y.forward m = some x' ∧
          Mirrors bucket x' (Lives.step ⟨A, since, ended⟩ m) ∧
            (x'.book.Fits → FastBook.Rep true x'.book (A.step m)) := by
    intro e hb hs hnew y hbook hlive hlife
    refine ⟨_, forward_eq (hbook ▸ hon), ?_, hdone⟩
    rw [Lives.step, hb, hs, Book.ended_place hb hs, hnew, Option.toList_none, List.map_nil, List.append_nil]
    exact (h.track e m.ts).congr hlive hlife
  have hreduce : ∀ (ref : Ref) (qty : Shares) (executed : Bool) (locate : UInt16) (f : PerSymbol → PerSymbol),
      A.brought m = none → A.step m = A.reduce ref qty →
      ∃ x', ((x.reduce bucket ref qty m.ts executed).count locate f).forward m = some x' ∧
        Mirrors bucket x' (Lives.step ⟨A, since, ended⟩ m) ∧
          (x'.book.Fits → FastBook.Rep true x'.book (A.step m)) := by
    intro ref qty executed locate f hb hs
    refine ⟨_, forward_eq (by rw [count_book, reduce_book]; exact hon), ?_, hdone⟩
    have hlives : (A.ended m).map (fun e => m.ts - since e.ref) =
        (A.ended m).map fun _ => m.ts - since ref := by
      rw [Book.ended_reduce hb hs]
      refine List.map_congr_left fun e he => ?_
      rw [(Book.find_eq_some.mp (Option.mem_toList.mp (List.mem_of_mem_filter he))).2]
    rw [Lives.step, hb, hs, hlives, Book.ended_reduce hb hs]
    exact (h.reduce ref qty m.ts executed).congr rfl rfl
  cases m with
  | systemEvent v =>
    refine ⟨_, forward_eq hon, ?_, hdone⟩
    rw [Lives.step, Book.ended_of_step_eq rfl rfl, List.map_nil, List.append_nil]
    exact h.congr rfl rfl
  | stockTradingAction v => exact ⟨x, rfl, hidle rfl rfl x rfl rfl rfl⟩
  | operationalHalt v => exact ⟨x, rfl, hidle rfl rfl x rfl rfl rfl⟩
  | stockDirectory v => exact ⟨x, rfl, hidle rfl rfl x rfl rfl rfl⟩
  | addOrder v =>
    obtain ⟨hbook, hlive, hlife⟩ := recordSize_fields (x := (x.count v.locate fun s =>
      { s with adds := s.adds + 1, sharesAdded := s.sharesAdded + v.shares.toNat }).track v.orderRef v.locate
        v.shares v.ts.toNat) v.shares
    exact hplace (Book.added v []) rfl rfl hm _ hbook hlive hlife
  | addOrderMpid v =>
    obtain ⟨hbook, hlive, hlife⟩ := recordSize_fields (x := (x.count v.locate fun s =>
      { s with adds := s.adds + 1, sharesAdded := s.sharesAdded + v.shares.toNat }).track v.orderRef v.locate
        v.shares v.ts.toNat) v.shares
    exact hplace (Book.added v.toAddOrder v.attribution) rfl rfl hm _ hbook hlive hlife
  | orderExecuted v => exact hreduce v.orderRef v.executedShares true v.locate _ rfl rfl
  | orderExecutedPrice v => exact hreduce v.orderRef v.executedShares true v.locate _ rfl rfl
  | orderCancel v => exact hreduce v.orderRef v.cancelledShares false v.locate _ rfl rfl
  | orderDelete v =>
    refine ⟨_, forward_eq (by rw [count_book, closeOut_book]; exact hon), ?_, hdone⟩
    have hlives : (A.find v.orderRef).toList.map (fun e => (Message.orderDelete v).ts - since e.ref) =
        (A.find v.orderRef).toList.map fun _ => v.ts.toNat - since v.orderRef :=
      List.map_congr_left fun e he => by
        rw [(Book.find_eq_some.mp (Option.mem_toList.mp he)).2]
        rfl
    rw [Lives.step, Book.ended_drop rfl rfl, hlives]
    exact (h.closeOut v.orderRef v.ts.toNat .cancelled).congr rfl rfl
  | orderReplace v =>
    obtain ⟨hlive, hnew⟩ := hm
    obtain ⟨e, he⟩ := Option.isSome_iff_exists.mp hlive
    obtain ⟨y, hsuper, hbook, hy⟩ := h.supersede he
    have hb : A.brought (.orderReplace v) = some (Book.replacement v e) := by
      simp only [Book.brought, he, Option.map_some]
    have hs : A.step (.orderReplace v) = (A.drop v.oldOrderRef).place (Book.replacement v e) := by
      simp only [Book.step, he]
    unfold on
    dsimp only
    rw [hsuper, forward_eq (by rw [count_book, hbook]; exact hon)]
    refine ⟨_, rfl, ?_, fun hfit => ?_⟩
    · rw [Lives.step, hb, hs, Book.ended_replace he hnew, List.map_singleton, (Book.find_eq_some.mp he).2]
      refine Mirrors.count (Mirrors.recordSize ?_ _) _ _
      exact (hy.track (Book.replacement v e) v.ts.toNat).congr rfl rfl
    · rw [count_book, (recordSize_fields _).1] at hfit ⊢
      exact hdone hfit
  | trade v => exact ⟨_, rfl, hidle rfl rfl _ rfl rfl rfl⟩
  | brokenTrade v => exact ⟨x, rfl, hidle rfl rfl x rfl rfl rfl⟩
  | crossTrade v => exact ⟨x, rfl, hidle rfl rfl x rfl rfl rfl⟩

/-! ## Runs -/

/-- What the index of the book finds is the live order. -/
theorem map_liveOrder (h : FastBook.Rep true b A) (ref : Ref) :
    (b.liveOrder ref).map (fun o => (o.locate, o.shares)) = (A.find ref).map fun e => (e.locate, e.shares) := by
  obtain ⟨slot, F, h⟩ := h
  unfold FastBook.liveOrder
  rw [h.index.find_eq, Option.bind_some]
  cases hf : A.find ref with
  | none =>
    rw [if_pos (h.slot_eq hf)]
    rfl
  | some e =>
    obtain ⟨he, rfl⟩ := Book.find_eq_some.mp hf
    have hst := h.core.stores e he
    rw [if_neg (h.slot_ne hf), Option.map_some, Option.map_some, hst.locate_eq, hst.shares_eq]

theorem Mirrors.tracks (h : Mirrors bucket x L) (hrep : FastBook.Rep true x.book L.book) :
    Tracks bucket x L.lifetimes := by
  refine ⟨fun ref => ?_, ?_, h.recorded_eq⟩
  · have hf := congrArg (Option.map fun r => (r.1, r.2.1)) (h.find_eq ref)
    rw [Option.map_map, Option.map_map] at hf
    rw [map_liveOrder hrep]
    exact hf
  · have hkeys : ∀ ref, (∃ t, x.live[ref]? = some t) ↔ ref ∈ L.book.orders.map Entry.ref := fun ref => by
      have hsome := congrArg Option.isSome (h.find_eq ref)
      rw [Option.isSome_map, Option.isSome_map] at hsome
      rw [← Option.isSome_iff_exists, hsome, Option.isSome_iff_exists, List.mem_map]
      exact exists_congr fun e => Book.find_eq_some
    rw [hrep.live_query, stillLive, OrderedMap.size_eq_length L.book.unique hkeys, List.length_map]

theorem mirrors_new {cfg : FastBookConfig} (h : new P W cfg = some x) :
    Mirrors bucket x Lives.empty ∧ FastBook.Rep true x.book Book.empty := by
  obtain ⟨b₀, h₀, rfl⟩ := Option.map_eq_some_iff.mp h
  refine ⟨⟨fun ref => ?_, fun i => rfl⟩, ⟨_, _, (FastBook.holds_new h₀).1⟩⟩
  rw [Std.TreeMap.getElem?_emptyc]
  rfl

/-- **Runs.** As long as nothing is refused and no order takes the place of another, the export tracks the orders
of its book after every message. -/
theorem tracks_run (P : HashPolicy) (W : Window) (cfg : FastBookConfig) (bucket : ℕ → ℕ) (ms : List Message)
    (hnew : (new P W cfg).isSome = true)
    (hfits : ∀ pre, pre <+: ms → ∀ x, run P W cfg bucket pre = some x → x.book.Fits)
    (hdistinct : Runs.Along Book.step Book.Distinct Book.empty ms) :
    ∀ pre, pre <+: ms → ∃ x, run P W cfg bucket pre = some x ∧ Tracks bucket x (Lives.run pre).lifetimes := by
  obtain ⟨x₀, h₀⟩ := Option.isSome_iff_exists.mp hnew
  have key : ∀ pre, pre <+: ms → ∃ x, run P W cfg bucket pre = some x ∧ Mirrors bucket x (Lives.run pre) ∧
      FastBook.Rep true x.book (Lives.run pre).book := by
    intro pre
    induction pre using List.reverseRecOn with
    | nil => exact fun _ => ⟨x₀, h₀, mirrors_new h₀⟩
    | append_singleton pre m ih =>
      intro hpre
      obtain ⟨x, hx, hmir, hrep⟩ := ih ((List.prefix_append pre [m]).trans hpre)
      have hm : (Lives.run pre).book.Distinct m := by
        rw [Lives.book_run]
        exact (Runs.along_append.mp (hdistinct.of_isPrefix hpre)).2.1
      obtain ⟨x', hon, hmir', hrep'⟩ := hmir.on hrep hm
      have hrun : run P W cfg bucket (pre ++ [m]) = some x' := by
        unfold run at hx ⊢
        rw [Runs.run_snoc, hx]
        exact hon
      have hlives : Lives.run (pre ++ [m]) = (Lives.run pre).step m := Runs.run_snoc _ _ _
      rw [hlives]
      exact ⟨x', hrun, hmir', hrep' (hfits _ hpre x' hrun)⟩
  intro pre hpre
  obtain ⟨x, hx, hmir, hrep⟩ := key pre hpre
  exact ⟨x, hx, hmir.tracks hrep⟩

/-- An order, an execution of a part of it, its replacement, and an execution of the rest. -/
def exported : List Message :=
  [.addOrder
      { locate := 1, ts := 5, orderRef := 7, side := kBuy, shares := 5, stock := [], price := 10000 },
    .orderExecuted { locate := 1, ts := 6, orderRef := 7, executedShares := 2 },
    .orderReplace { locate := 1, ts := 9, oldOrderRef := 7, newOrderRef := 8, shares := 9, price := 10100 },
    .orderExecuted { locate := 1, ts := 11, orderRef := 8, executedShares := 9 }]

theorem tracks_run_exported : ∃ x, run multiplyShiftHash defaultWindow ⟨8, 4, 8⟩ id exported = some x ∧
    Tracks id x (Lives.run exported).lifetimes := by
  refine tracks_run multiplyShiftHash defaultWindow ⟨8, 4, 8⟩ id exported (by decide +kernel)
    (fun pre hpre x hx => ?_) ⟨rfl, trivial, ⟨rfl, rfl⟩, trivial, trivial⟩ exported (List.prefix_refl _)
  have hall : ∀ pre ∈ exported.inits,
      (run multiplyShiftHash defaultWindow ⟨8, 4, 8⟩ id pre).all (fun x => decide x.book.Fits) = true := by
    decide +kernel
  have hfit := hall pre ((List.mem_inits _ _).mpr hpre)
  rw [hx] at hfit
  exact of_decide_eq_true hfit

/-- A replace of an order that is not live. -/
def orphaned : List Message :=
  [.orderReplace { locate := 1, ts := 9, oldOrderRef := 7, newOrderRef := 8, shares := 9, price := 10100 }]

/-- Two adds under one reference. -/
def duplicated : List Message :=
  [.addOrder
      { locate := 1, ts := 5, orderRef := 7, side := kBuy, shares := 5, stock := [], price := 10000 },
    .addOrder
      { locate := 1, ts := 8, orderRef := 7, side := kBuy, shares := 5, stock := [], price := 10000 }]

/-- After an orphaned replace the table has an order that the book does not have. After a duplicate reference
the lifetime of the order that gave way is not recorded. -/
theorem not_tracks :
    (∃ x, run multiplyShiftHash defaultWindow ⟨8, 4, 8⟩ id orphaned = some x ∧ x.book.Fits ∧
      ¬ Tracks id x (Lives.run orphaned).lifetimes) ∧
    ∃ x, run multiplyShiftHash defaultWindow ⟨8, 4, 8⟩ id duplicated = some x ∧ x.book.Fits ∧
      ¬ Tracks id x (Lives.run duplicated).lifetimes := by
  have horphan : (run multiplyShiftHash defaultWindow ⟨8, 4, 8⟩ id orphaned).any (fun x =>
      decide x.book.Fits && x.stillLive != x.book.liveOrders) = true := by decide +kernel
  have hduplicate : (run multiplyShiftHash defaultWindow ⟨8, 4, 8⟩ id duplicated).any (fun x =>
      decide x.book.Fits && x.recorded 3 != ((Lives.run duplicated).lifetimes.map id).count 3) = true := by
    decide +kernel
  obtain ⟨x, hx, hxp⟩ := Option.any_eq_true _ _ |>.mp horphan
  obtain ⟨y, hy, hyp⟩ := Option.any_eq_true _ _ |>.mp hduplicate
  rw [Bool.and_eq_true, decide_eq_true_iff, bne_iff_ne] at hxp hyp
  exact ⟨⟨x, hx, hxp.1, fun hc => hxp.2 hc.stillLive_eq⟩, y, hy, hyp.1, fun hc => hyp.2 (hc.recorded_eq 3)⟩

end Exporter

end Carteret
