import Carteret.AgeTracker
import Carteret.FastRefines
import Carteret.Messages

/-!
# Age labels

The attribution makes two passes over a session: `AgeLabeller` writes one label for each message that the book
counts, and `AttributedHandler` reads the labels one after the other while it counts.

1. The two handlers. The fill counters of the processor are a parameter of the second.
2. `labelOf`: the label that a message should have, from the reference book and the time at which the order it
   names came.
3. `labels_run`: in a session without orphaned replaces the labels are these, and each is read for its own
   message. An orphaned replace breaks it.
-/

namespace Carteret

/-! ## The labels -/

/-- The label of a message that names no resting order. -/
def kNoAge : UInt8 := 0xFF

structure AgeLabeller (P : HashPolicy) where
  ages : AgeTracker P
  out : List UInt8 := []

namespace AgeLabeller

variable {P : HashPolicy}

def new (P : HashPolicy) (capacity : UInt64) : Option (AgeLabeller P) :=
  (AgeTracker.new P capacity).map fun t => { ages := t }

def push (l : AgeLabeller P) (label : UInt8) : AgeLabeller P := { l with out := l.out ++ [label] }

/-- `label(ages.bucket(ref, ts))`. -/
def label (l : AgeLabeller P) (ref : Ref) (ts : ℕ) : Option (AgeLabeller P) := (l.ages.bucket ref ts).map l.push

def add (l : AgeLabeller P) (ref : Ref) (ts : ℕ) (shares : Shares) : Option (AgeLabeller P) :=
  (l.ages.add ref ts shares).map fun t => { l with ages := t }

def reduce (l : AgeLabeller P) (ref : Ref) (qty : Shares) : Option (AgeLabeller P) :=
  (l.ages.reduce ref qty).map fun t => { l with ages := t }

def erase (l : AgeLabeller P) (ref : Ref) : Option (AgeLabeller P) :=
  (l.ages.erase ref).map fun t => { l with ages := t }

def on (l : AgeLabeller P) : Message → Option (AgeLabeller P)
  | .addOrder v => (l.push kNoAge).add v.orderRef v.ts.toNat v.shares
  | .addOrderMpid v => (l.push kNoAge).add v.orderRef v.ts.toNat v.shares
  | .orderExecuted v => (l.label v.orderRef v.ts.toNat).bind fun l => l.reduce v.orderRef v.executedShares
  | .orderExecutedPrice v => (l.label v.orderRef v.ts.toNat).bind fun l => l.reduce v.orderRef v.executedShares
  | .orderCancel v => (l.label v.orderRef v.ts.toNat).bind fun l => l.reduce v.orderRef v.cancelledShares
  | .orderDelete v => (l.label v.orderRef v.ts.toNat).bind fun l => l.erase v.orderRef
  | .orderReplace v =>
    (l.label v.oldOrderRef v.ts.toNat).bind fun l =>
      (l.erase v.oldOrderRef).bind fun l => l.add v.newOrderRef v.ts.toNat v.shares
  | .trade _ => some (l.push kNoAge)
  | .crossTrade _ => some (l.push kNoAge)
  | .brokenTrade _ => some (l.push kNoAge)
  | _ => some l

def step (l : Option (AgeLabeller P)) (m : Message) : Option (AgeLabeller P) := l.bind fun l => l.on m

def run (P : HashPolicy) (capacity : UInt64) (ms : List Message) : Option (AgeLabeller P) :=
  Runs.run step (new P capacity) ms

end AgeLabeller

/-! ## The counted pass -/

/-- The number of fill events; the first is the fills from memory. -/
def kFillEventCount : ℕ := 4

structure FillTotals where
  messages : ℕ := 0
  fills : Fin kFillEventCount → UInt64 := fun _ => 0
  dramHist : ℕ → ℕ := fun _ => 0

def FillTotals.add (f : FillTotals) (d : Fin kFillEventCount → UInt64) : FillTotals where
  messages := f.messages + 1
  fills e := f.fills e + d e
  dramHist :=
    let dram := (d ⟨0, by decide⟩).toNat
    let i := if dram < 4 then dram else 4
    Function.update f.dramHist i (f.dramHist i + 1)

/-- The type byte of a message. -/
def Message.type : Message → MsgType
  | .systemEvent _ => .systemEvent
  | .stockTradingAction _ => .stockTradingAction
  | .operationalHalt _ => .operationalHalt
  | .stockDirectory _ => .stockDirectory
  | .addOrder _ => .addOrder
  | .addOrderMpid _ => .addOrderMpid
  | .orderExecuted _ => .orderExecuted
  | .orderExecutedPrice _ => .orderExecutedPrice
  | .orderCancel _ => .orderCancel
  | .orderDelete _ => .orderDelete
  | .orderReplace _ => .orderReplace
  | .trade _ => .trade
  | .brokenTrade _ => .brokenTrade
  | .crossTrade _ => .crossTrade

/-- `ages` is `none` for a pass without the labels. -/
structure AttributedHandler (P : HashPolicy) (W : Window) where
  book : FastBook P W
  ages : Option (List UInt8)
  cursor : ℕ := 0
  warmupLeft : ℕ
  peakLive : ℕ := 0
  byType : UInt8 → FillTotals := fun _ => {}
  byTypeAge : UInt8 → UInt8 → FillTotals := fun _ _ => {}
  recenter : FillTotals := {}
  ordinary : FillTotals := {}
  all : FillTotals := {}

/-- The messages that the book counts. -/
def counted : Message → Bool
  | .systemEvent _ | .stockTradingAction _ | .operationalHalt _ | .stockDirectory _ => false
  | _ => true

namespace AttributedHandler

variable {P : HashPolicy} {W : Window}

def new (P : HashPolicy) (W : Window) (cfg : FastBookConfig) (warmup : ℕ) (ages : Option (List UInt8)) :
    Option (AttributedHandler P W) :=
  (FastBook.new P W cfg).map fun b => { book := b, ages := ages, warmupLeft := warmup }

/-- `ages[cursor]`; `none` for a read beyond the labels. -/
def readAge (h : AttributedHandler P W) : Option UInt8 :=
  match h.ages with
  | none => some kNoAge
  | some labels => labels[h.cursor]?

/-- The counts `d` of a message are filed; `b` is the book after it. -/
def file (h : AttributedHandler P W) (b : FastBook P W) (type age : UInt8) (d : Fin kFillEventCount → UInt64) :
    AttributedHandler P W :=
  let moved := b.counters.recenters ≠ h.book.counters.recenters
  { h with
    book := b
    byType := Function.update h.byType type ((h.byType type).add d)
    byTypeAge :=
      if age ≠ kNoAge then
        Function.update h.byTypeAge type
          (Function.update (h.byTypeAge type) age ((h.byTypeAge type age).add d))
      else h.byTypeAge
    recenter := if moved then h.recenter.add d else h.recenter
    ordinary := if moved then h.ordinary else h.ordinary.add d
    all := h.all.add d
    peakLive := if b.liveOrders > h.peakLive then b.liveOrders else h.peakLive }

/-- `pmc n e` is what counter `e` reads before and after the book applies message `n`. -/
def measured (pmc : ℕ → Fin kFillEventCount → UInt64 × UInt64) (h : AttributedHandler P W) (m : Message) :
    Option (AttributedHandler P W) :=
  h.readAge.bind fun age =>
    let n := h.cursor
    let h := { h with cursor := h.cursor + 1 }
    (h.book.on m).map fun b =>
      if h.warmupLeft ≠ 0 then { h with warmupLeft := h.warmupLeft - 1, book := b }
      else h.file b m.type.byte age fun e => (pmc n e).2 - (pmc n e).1

def on (pmc : ℕ → Fin kFillEventCount → UInt64 × UInt64) (h : AttributedHandler P W) :
    Message → Option (AttributedHandler P W)
  | .systemEvent v => (h.book.on (.systemEvent v)).map fun b => { h with book := b }
  | .stockTradingAction _ => some h
  | .operationalHalt _ => some h
  | .stockDirectory _ => some h
  | m => h.measured pmc m

def step (pmc : ℕ → Fin kFillEventCount → UInt64 × UInt64) (h : Option (AttributedHandler P W)) (m : Message) :
    Option (AttributedHandler P W) := h.bind fun h => h.on pmc m

def run (P : HashPolicy) (W : Window) (cfg : FastBookConfig) (warmup : ℕ)
    (pmc : ℕ → Fin kFillEventCount → UInt64 × UInt64) (ages : Option (List UInt8)) (ms : List Message) :
    Option (AttributedHandler P W) := Runs.run (step pmc) (new P W cfg warmup ages) ms

end AttributedHandler

/-! ## What the labels should be -/

/-- The resting order that a message names. -/
def named : Message → Option Ref
  | .orderExecuted v => some v.orderRef
  | .orderExecutedPrice v => some v.orderRef
  | .orderCancel v => some v.orderRef
  | .orderDelete v => some v.orderRef
  | .orderReplace v => some v.oldOrderRef
  | _ => none

/-- The label of a message that finds the reference book `r`, whose orders came at the times `since`. -/
def labelOf (r : ReferenceBook) (since : Ref → ℕ) (m : Message) : UInt8 :=
  match named m with
  | none => kNoAge
  | some ref => if r.orders[ref]?.isSome then ageBucket (m.ts - since ref) else kAgeBuckets - 1

/-! ## One message -/

namespace AgeLabeller

variable {P : HashPolicy} {l : AgeLabeller P} {n : ℕ} {L : Lives} {r : ReferenceBook}

/-- The table of the labeller has the orders of the book, with the times at which they came. -/
def Keeps (l : AgeLabeller P) (n : ℕ) (L : Lives) : Prop := ∃ slot F, l.ages.Holds n L.book L.since slot F

theorem label_eq (h : l.Keeps n L) (hr : r.Represents L.book) {m : Message} {ref : Ref} (hm : named m = some ref) :
    l.label ref m.ts = some (l.push (labelOf r L.since m)) := by
  obtain ⟨slot, F, h⟩ := h
  have hlive : (L.book.find ref).isSome = r.orders[ref]?.isSome := by
    rw [← hr.find_eq, Option.isSome_map]
  unfold label labelOf
  rw [h.bucket, Option.map_some, hm, hlive]

theorem Keeps.idle (h : l.Keeps n L) {m : Message} (hb : L.book.brought m = none) (hs : L.book.step m = L.book) :
    l.Keeps n (L.step m) := by
  unfold Keeps Lives.step
  dsimp only
  rw [hb, hs]
  exact h

/-- **One message** that is not an orphaned replace. -/
theorem Keeps.on (h : l.Keeps n L) (hr : r.Represents L.book) {m : Message}
    (hm : ∀ v, m = .orderReplace v → (L.book.find v.oldOrderRef).isSome = true)
    (hroom : (L.book.step m).orders.length ≤ min n (2 ^ 32 - 1)) :
    ∃ l', l.on m = some l' ∧ l'.Keeps n (L.step m) ∧
      l'.out = l.out ++ if counted m then [labelOf r L.since m] else [] := by
  have hadd : ∀ e : Entry, L.book.brought m = some e → L.book.step m = L.book.place e →
      ∃ t, l.ages.add e.ref m.ts e.shares = some t ∧ (AgeLabeller.mk t (l.out ++ [kNoAge])).Keeps n (L.step m) := by
    intro e hb hs
    obtain ⟨slot, F, h⟩ := h
    rw [hs, Book.orders_place, List.length_append, List.length_singleton] at hroom
    obtain ⟨t, slot', F', ht, ht'⟩ := h.add e m.ts (by omega)
    refine ⟨t, ht, slot', F', ?_⟩
    unfold Lives.step
    dsimp only
    rw [hb, hs]
    exact ht'
  have hreduce : ∀ (ref : Ref) (qty : Shares), named m = some ref → L.book.brought m = none →
      L.book.step m = L.book.reduce ref qty →
        ∃ l', ((l.label ref m.ts).bind fun l => l.reduce ref qty) = some l' ∧ l'.Keeps n (L.step m) ∧
          l'.out = l.out ++ [labelOf r L.since m] := by
    intro ref qty hn hb hs
    rw [label_eq h hr hn]
    obtain ⟨slot, F, h⟩ := h
    obtain ⟨t, slot', F', ht, ht'⟩ := h.reduce ref qty
    refine ⟨⟨t, l.out ++ [labelOf r L.since m]⟩, ?_, ⟨slot', F', ?_⟩, rfl⟩
    · rw [Option.bind_some, reduce]
      change (l.ages.reduce ref qty).map _ = _
      rw [ht]
      rfl
    · unfold Lives.step
      dsimp only
      rw [hb, hs]
      exact ht'
  cases m with
  | systemEvent v => exact ⟨l, rfl, h.idle rfl rfl, (List.append_nil _).symm⟩
  | stockTradingAction v => exact ⟨l, rfl, h.idle rfl rfl, (List.append_nil _).symm⟩
  | operationalHalt v => exact ⟨l, rfl, h.idle rfl rfl, (List.append_nil _).symm⟩
  | stockDirectory v => exact ⟨l, rfl, h.idle rfl rfl, (List.append_nil _).symm⟩
  | addOrder v =>
    obtain ⟨t, ht, hkeep⟩ := hadd (Book.added v []) rfl rfl
    exact ⟨_, congrArg (Option.map _) ht, hkeep, rfl⟩
  | addOrderMpid v =>
    obtain ⟨t, ht, hkeep⟩ := hadd (Book.added v.toAddOrder v.attribution) rfl rfl
    exact ⟨_, congrArg (Option.map _) ht, hkeep, rfl⟩
  | orderExecuted v => exact hreduce v.orderRef v.executedShares rfl rfl rfl
  | orderExecutedPrice v => exact hreduce v.orderRef v.executedShares rfl rfl rfl
  | orderCancel v => exact hreduce v.orderRef v.cancelledShares rfl rfl rfl
  | orderDelete v =>
    have hlabel := label_eq h hr (m := .orderDelete v) rfl
    obtain ⟨slot, F, h⟩ := h
    obtain ⟨t, F', ht, ht'⟩ := h.erase v.orderRef
    refine ⟨⟨t, l.out ++ [labelOf r L.since (.orderDelete v)]⟩, ?_, ⟨_, F', ht'⟩, rfl⟩
    change ((l.label v.orderRef (Message.orderDelete v).ts).bind fun l => l.erase v.orderRef) = _
    rw [hlabel, Option.bind_some, erase]
    change (l.ages.erase v.orderRef).map _ = _
    rw [ht]
    rfl
  | orderReplace v =>
    have hlabel := label_eq h hr (m := .orderReplace v) rfl
    obtain ⟨e, he⟩ := Option.isSome_iff_exists.mp (hm v rfl)
    have hb : L.book.brought (.orderReplace v) = some (Book.replacement v e) := by
      simp only [Book.brought, he, Option.map_some]
    have hs : L.book.step (.orderReplace v) = (L.book.drop v.oldOrderRef).place (Book.replacement v e) := by
      simp only [Book.step, he]
    obtain ⟨slot, F, h⟩ := h
    obtain ⟨t, F', ht, ht'⟩ := h.erase v.oldOrderRef
    rw [hs, Book.orders_place, List.length_append, List.length_singleton] at hroom
    obtain ⟨u, slot'', F'', hu, hu'⟩ := ht'.add (Book.replacement v e) v.ts.toNat (by omega)
    refine ⟨⟨u, l.out ++ [labelOf r L.since (.orderReplace v)]⟩, ?_, ⟨slot'', F'', ?_⟩, rfl⟩
    · change ((l.label v.oldOrderRef (Message.orderReplace v).ts).bind fun l =>
        (l.erase v.oldOrderRef).bind fun l => l.add v.newOrderRef v.ts.toNat v.shares) = _
      rw [hlabel, Option.bind_some, erase]
      change ((l.ages.erase v.oldOrderRef).map _).bind _ = _
      rw [ht, Option.map_some, Option.bind_some, add]
      change (t.add v.newOrderRef v.ts.toNat v.shares).map _ = _
      rw [show t.add v.newOrderRef v.ts.toNat v.shares = some u from hu]
      rfl
    · unfold Lives.step
      dsimp only
      rw [hb, hs]
      exact hu'
  | trade v => exact ⟨_, rfl, h.idle rfl rfl, rfl⟩
  | brokenTrade v => exact ⟨_, rfl, h.idle rfl rfl, rfl⟩
  | crossTrade v => exact ⟨_, rfl, h.idle rfl rfl, rfl⟩

end AgeLabeller

namespace AttributedHandler

variable {P : HashPolicy} {W : Window} {pmc : ℕ → Fin kFillEventCount → UInt64 × UInt64} {h : AttributedHandler P W}

/-- A message moves the cursor when it is counted, as long as there are labels. -/
theorem on_spec {A : Book} (hrep : FastBook.Rep false h.book A) (m : Message)
    (hread : counted m = true → h.readAge.isSome = true) :
    ∃ h' A', h.on pmc m = some h' ∧ FastBook.Rep false h'.book A' ∧ h'.ages = h.ages ∧
      h'.cursor = h.cursor + if counted m then 1 else 0 := by
  obtain ⟨b, hon, hfol⟩ := hrep.on m
  have hmeasured : counted m = true → ∃ h' A', h.measured pmc m = some h' ∧ FastBook.Rep false h'.book A' ∧
      h'.ages = h.ages ∧ h'.cursor = h.cursor + 1 := fun hc => by
    obtain ⟨age, hage⟩ := Option.isSome_iff_exists.mp (hread hc)
    unfold measured
    rw [hage, Option.bind_some]
    dsimp only
    rw [hon, Option.map_some]
    by_cases hw : h.warmupLeft ≠ 0
    · rw [if_pos hw]
      exact ⟨_, _, rfl, hfol.stepWithin, rfl, rfl⟩
    · rw [if_neg hw]
      exact ⟨_, _, rfl, hfol.stepWithin, rfl, rfl⟩
  cases m with
  | systemEvent v =>
    have hmap := congrArg (Option.map fun b => { h with book := b }) hon
    exact ⟨{ h with book := b }, _, hmap, hfol.stepWithin, rfl, rfl⟩
  | stockTradingAction v => exact ⟨h, A, rfl, hrep, rfl, rfl⟩
  | operationalHalt v => exact ⟨h, A, rfl, hrep, rfl, rfl⟩
  | stockDirectory v => exact ⟨h, A, rfl, hrep, rfl, rfl⟩
  | _ => exact hmeasured rfl

/-- The cursor counts the messages, as long as there are labels for them. -/
theorem run_spec {cfg : FastBookConfig} (hnew : (FastBook.new P W cfg).isSome = true) (warmup : ℕ)
    (labels : List UInt8) (ms : List Message) (hlen : ms.countP counted ≤ labels.length) :
    ∃ h A, run P W cfg warmup pmc (some labels) ms = some h ∧ FastBook.Rep false h.book A ∧
      h.ages = some labels ∧ h.cursor = ms.countP counted := by
  induction ms using List.reverseRecOn with
  | nil =>
    obtain ⟨b₀, h₀⟩ := Option.isSome_iff_exists.mp hnew
    refine ⟨_, Book.empty, congrArg (Option.map _) h₀, ?_, rfl, rfl⟩
    exact ⟨_, _, (FastBook.holds_new h₀).1.mono fun hc => by cases hc⟩
  | append_singleton ms m ih =>
    rw [List.countP_append, List.countP_singleton] at hlen
    obtain ⟨h, A, hrun, hrep, hages, hcursor⟩ := ih (by omega)
    have hread : counted m = true → h.readAge.isSome = true := fun hc => by
      rw [if_pos hc] at hlen
      unfold readAge
      rw [hages]
      dsimp only
      rw [List.getElem?_eq_getElem (by omega), Option.isSome_some]
    obtain ⟨h', A', hon, hrep', hages', hcursor'⟩ := @on_spec P W pmc h A hrep m hread
    refine ⟨h', A', ?_, hrep', hages'.trans hages, ?_⟩
    · unfold run at hrun ⊢
      rw [Runs.run_snoc, hrun]
      exact hon
    · rw [hcursor', hcursor, List.countP_append, List.countP_singleton]

end AttributedHandler

/-! ## Sessions -/

namespace AgeLabeller

variable {P : HashPolicy}

/-- The labels of a session without orphaned replaces. -/
theorem run_spec {capacity : UInt64} (hnew : (AgeTracker.new P capacity).isSome = true) (ms : List Message)
    (hlive : ∀ pre, pre <+: ms →
      (ReferenceBook.run {} pre).liveOrders ≤ min capacity.toNat (2 ^ 32 - 1))
    (hreplace : ∀ pre v, pre ++ [.orderReplace v] <+: ms →
      (ReferenceBook.run {} pre).orders[v.oldOrderRef]?.isSome = true) :
    ∃ l, run P capacity ms = some l ∧ l.Keeps capacity.toNat (Lives.run ms) ∧
      l.out.length = ms.countP counted ∧ ∀ pre m, pre ++ [m] <+: ms → counted m = true →
        l.out[pre.countP counted]? = some (labelOf (ReferenceBook.run {} pre) (Lives.run pre).since m) := by
  induction ms using List.reverseRecOn with
  | nil =>
    obtain ⟨t, ht⟩ := Option.isSome_iff_exists.mp hnew
    refine ⟨_, congrArg (Option.map _) ht, ⟨_, _, AgeTracker.holds_new ht⟩, rfl, fun pre m hpre => ?_⟩
    cases pre <;> simp at hpre
  | append_singleton ms m ih =>
    have hprefix : ms <+: ms ++ [m] := List.prefix_append ms [m]
    obtain ⟨l, hl, hkeep, hlen, hout⟩ := ih (fun pre hpre => hlive pre (hpre.trans hprefix))
      fun pre v hpre => hreplace pre v (hpre.trans hprefix)
    have href : (ReferenceBook.run {} ms).Represents (Lives.run ms).book := by
      rw [Lives.book_run]
      exact ReferenceBook.represents_run ms
    have hlives : Lives.run (ms ++ [m]) = (Lives.run ms).step m := Runs.run_snoc _ _ _
    have hroom : ((Lives.run ms).book.step m).orders.length ≤ min capacity.toNat (2 ^ 32 - 1) := by
      have hbook : (Lives.run ms).book.step m = Runs.run Book.step Book.empty (ms ++ [m]) := by
        rw [← Lives.book_run, hlives]
        rfl
      rw [hbook, ← (ReferenceBook.represents_run (ms ++ [m])).size_eq]
      exact hlive _ (List.prefix_refl _)
    have horphan : ∀ v, m = .orderReplace v → ((Lives.run ms).book.find v.oldOrderRef).isSome = true := by
      rintro v rfl
      rw [← href.find_eq, Option.isSome_map]
      exact hreplace ms v (List.prefix_refl _)
    obtain ⟨l', hon, hkeep', hout'⟩ := hkeep.on href horphan hroom
    refine ⟨l', ?_, hlives ▸ hkeep', ?_, fun pre m' hpre hc => ?_⟩
    · unfold run at hl ⊢
      rw [Runs.run_snoc, hl]
      exact hon
    · rw [hout', List.length_append, hlen, List.countP_append, List.countP_singleton]
      split <;> rfl
    · rcases List.prefix_concat_iff.mp hpre with heq | hpre
      · obtain ⟨rfl, hm⟩ := List.append_inj' heq rfl
        obtain rfl := List.singleton_inj.mp hm
        rw [hout', if_pos hc, ← hlen, List.getElem?_concat_length]
      · have hbefore := hout pre m' hpre hc
        rw [hout', List.getElem?_append_left (List.getElem?_eq_some_iff.mp hbefore).1]
        exact hbefore

end AgeLabeller

/-- **The labels are aligned and truthful.** In a session whose live orders fit the table and whose replaces all
name live orders, the labeller writes as many labels as the handler reads, and what the handler finds at its
cursor for a message is the label of that message. -/
theorem labels_run (P Q : HashPolicy) (W : Window) (capacity : UInt64) (cfg : FastBookConfig) (warmup : ℕ)
    (pmc : ℕ → Fin kFillEventCount → UInt64 × UInt64) (ms : List Message)
    (hnew : (AgeTracker.new P capacity).isSome = true) (hbook : (FastBook.new Q W cfg).isSome = true)
    (hlive : ∀ pre, pre <+: ms →
      (ReferenceBook.run {} pre).liveOrders ≤ min capacity.toNat (2 ^ 32 - 1))
    (hreplace : ∀ pre v, pre ++ [.orderReplace v] <+: ms →
      (ReferenceBook.run {} pre).orders[v.oldOrderRef]?.isSome = true) :
    ∃ l h, AgeLabeller.run P capacity ms = some l ∧
      AttributedHandler.run Q W cfg warmup pmc (some l.out) ms = some h ∧ l.out.length = h.cursor ∧
        ∀ pre m, pre ++ [m] <+: ms → counted m = true →
          ∃ h', AttributedHandler.run Q W cfg warmup pmc (some l.out) pre = some h' ∧
            h'.readAge = some (labelOf (ReferenceBook.run {} pre) (Lives.run pre).since m) := by
  obtain ⟨l, hl, -, hlen, hout⟩ := AgeLabeller.run_spec hnew ms hlive hreplace
  obtain ⟨h, -, hrun, -, -, hcursor⟩ :=
    @AttributedHandler.run_spec Q W pmc cfg hbook warmup l.out ms (le_of_eq hlen.symm)
  refine ⟨l, h, hl, hrun, hlen.trans hcursor.symm, fun pre m hpre hc => ?_⟩
  have hle : pre.countP counted ≤ l.out.length := by
    obtain ⟨post, hpost⟩ := (List.prefix_append pre [m]).trans hpre
    rw [hlen, ← hpost, List.countP_append]
    exact Nat.le_add_right _ _
  obtain ⟨h', -, hrun', -, hages, hcursor'⟩ := @AttributedHandler.run_spec Q W pmc cfg hbook warmup l.out pre hle
  refine ⟨h', hrun', ?_⟩
  unfold AttributedHandler.readAge
  rw [hages, hcursor']
  exact hout pre m hpre hc

/-- An order, its replacement two milliseconds later, and a deletion of each. -/
def aged : List Message :=
  [.addOrder
      { locate := 1, ts := 5, orderRef := 7, side := kBuy, shares := 5, stock := [], price := 10000 },
    .orderReplace { locate := 1, ts := 2000005, oldOrderRef := 7, newOrderRef := 8, shares := 9, price := 10100 },
    .orderDelete { locate := 1, ts := 2000007, orderRef := 7 },
    .orderDelete { locate := 1, ts := 2000009, orderRef := 8 }]

theorem labels_run_aged :
    ∃ l h, AgeLabeller.run multiplyShiftHash 8 aged = some l ∧
      AttributedHandler.run multiplyShiftHash defaultWindow ⟨8, 4, 8⟩ 1 (fun n _ => (0, UInt64.ofNat n))
        (some l.out) aged = some h ∧ l.out.length = h.cursor ∧
        ∀ pre m, pre ++ [m] <+: aged → counted m = true →
          ∃ h', AttributedHandler.run multiplyShiftHash defaultWindow ⟨8, 4, 8⟩ 1
              (fun n _ => (0, UInt64.ofNat n)) (some l.out) pre = some h' ∧
            h'.readAge = some (labelOf (ReferenceBook.run {} pre) (Lives.run pre).since m) := by
  refine labels_run multiplyShiftHash multiplyShiftHash defaultWindow 8 ⟨8, 4, 8⟩ 1
    (fun n _ => (0, UInt64.ofNat n)) aged (by decide +kernel) (by decide +kernel) (fun pre hpre => ?_) fun pre v hpre => ?_
  · have hall : ∀ pre ∈ aged.inits,
        (ReferenceBook.run {} pre).liveOrders ≤ min (8 : UInt64).toNat (2 ^ 32 - 1) := by decide +kernel
    exact hall pre ((List.mem_inits _ _).mpr hpre)
  · have hall : ∀ pre ∈ aged.inits, ∀ m ∈ aged, pre ++ [m] <+: aged → m.type = .orderReplace →
        (ReferenceBook.run {} pre).orders[(7 : Ref)]?.isSome = true := by decide +kernel
    have hmem : Message.orderReplace v ∈ aged := hpre.subset (List.mem_append_right _ (List.mem_singleton.mpr rfl))
    have hv : v = { locate := 1, ts := 2000005, oldOrderRef := 7, newOrderRef := 8, shares := 9, price := 10100 } := by
      simpa [aged] using hmem
    rw [hv] at hmem hpre ⊢
    exact hall pre ((List.mem_inits _ _).mpr ((List.prefix_append _ _).trans hpre)) _ hmem hpre rfl

/-- A replace of an order that is not live, and a cancel of the order that it would have brought. -/
def phantom : List Message :=
  [.orderReplace { locate := 1, ts := 5, oldOrderRef := 7, newOrderRef := 8, shares := 9, price := 10100 },
    .orderCancel { locate := 1, ts := 9, orderRef := 8, cancelledShares := 1 }]

/-- The cancel finds no order in the reference book, and its label is an age. -/
theorem not_labels : ∃ l, AgeLabeller.run multiplyShiftHash 8 phantom = some l ∧
    (∀ pre, pre <+: phantom → (ReferenceBook.run {} pre).liveOrders ≤ 8) ∧
    (∀ m ∈ phantom.drop 1, labelOf (ReferenceBook.run {} (phantom.take 1)) (Lives.run (phantom.take 1)).since m =
      kAgeBuckets - 1) ∧ l.out[1]? = some 0 := by
  have hrun : (AgeLabeller.run multiplyShiftHash 8 phantom).any (fun l => l.out == [5, 0]) = true := by
    decide +kernel
  have hall : ∀ pre ∈ phantom.inits, (ReferenceBook.run {} pre).liveOrders ≤ 8 := by decide +kernel
  obtain ⟨l, hl, hout⟩ := Option.any_eq_true _ _ |>.mp hrun
  refine ⟨l, hl, fun pre hpre => hall pre ((List.mem_inits _ _).mpr hpre), by decide +kernel, ?_⟩
  rw [beq_iff_eq.mp hout]
  rfl

end Carteret
