import Carteret.AgeLabels
import Carteret.Lib.Tally

/-!
# What the attribution adds up to

The attributed pass files the fills of every measured message under its type, under the age of the order it names, and
under whether the window of a side moved.

1. The labeller ends on every session, with one label for each counted message: an age for a message that names an
   order, `kNoAge` for any other (`AgeLabeller.run_fits`).
2. The tables are totals of the measured messages (`Filed`, `AttributedHandler.run_filed`).
3. `attributed`: the rows that are printed add up, and the book is that of a pass without measurement.
-/

namespace Carteret

/-! ## The labeller ends -/

namespace AgeTracker

variable {P : HashPolicy} {t : AgeTracker P} {n : ℕ}

/-- The table holds some orders. -/
def Sound (t : AgeTracker P) (n : ℕ) : Prop := ∃ A since slot F, t.Holds n A since slot F

/-- The slots that a message touches are those that the index finds, and the head of the free list: all are among the
`n` of the table. -/
def Within (t : AgeTracker P) (n : ℕ) : Prop :=
  (∀ ref, ∃ s, t.ix.find ref = some s ∧ (s = kNoOrder ∨ s.toNat < n)) ∧ (t.free = kNoOrder ∨ t.free.toNat < n)

theorem Sound.within (h : t.Sound n) : t.Within n := by
  obtain ⟨A, since, slot, F, h⟩ := h
  refine ⟨fun ref => ⟨slot ref, h.index.find_eq ref, ?_⟩, ?_⟩
  · by_cases hs : slot ref = kNoOrder
    · exact .inl hs
    · obtain ⟨e, he, rfl⟩ := List.mem_map.mp ((h.live_iff ref).mp hs)
      exact .inr ((h.slots _).mp (List.mem_append_right _ (List.mem_map_of_mem he))).2
  · cases F with
    | nil => exact .inl h.free
    | cons s F =>
      obtain ⟨hfree, -⟩ := h.free
      rw [hfree]
      exact .inr ((h.slots s).mp (List.mem_append_left _ List.mem_cons_self)).2

theorem Sound.bucket (h : t.Sound n) (ref : Ref) (now : ℕ) : ∃ a, t.bucket ref now = some a ∧ a < kAgeBuckets := by
  obtain ⟨A, since, slot, F, h⟩ := h
  refine ⟨_, h.bucket ref now, ?_⟩
  split_ifs
  · unfold ageBucket
    split_ifs <;> decide
  · decide

theorem Sound.erase (h : t.Sound n) (ref : Ref) : ∃ t', t.erase ref = some t' ∧ t'.Sound n := by
  obtain ⟨A, since, slot, F, h⟩ := h
  obtain ⟨t', F', ht', h'⟩ := h.erase ref
  exact ⟨t', ht', _, _, _, _, h'⟩

theorem Sound.reduce (h : t.Sound n) (ref : Ref) (qty : Shares) : ∃ t', t.reduce ref qty = some t' ∧ t'.Sound n := by
  obtain ⟨A, since, slot, F, h⟩ := h
  obtain ⟨t', slot', F', ht', h'⟩ := h.reduce ref qty
  exact ⟨t', ht', _, _, _, _, h'⟩

/-- A full table leaves the new order out. -/
theorem Sound.add (h : t.Sound n) (ref : Ref) (ts : ℕ) (shares : Shares) :
    ∃ t', t.add ref ts shares = some t' ∧ t'.Sound n := by
  obtain ⟨A, since, slot, F, h⟩ := h
  by_cases hroom : (A.drop ref).orders.length < min n (2 ^ 32 - 1)
  · obtain ⟨t', slot', F', ht', h'⟩ := h.add ⟨ref, 0, 0, 0, shares, [], []⟩ ts hroom
    exact ⟨t', ht', _, _, _, _, h'⟩
  · obtain ⟨t₁, F₁, herase, h₁⟩ := h.erase ref
    have hlen := h₁.free_length
    obtain rfl : F₁ = [] := List.length_eq_zero_iff.mp (by omega)
    have hfree : t₁.free = kNoOrder := h₁.free
    refine ⟨t₁, ?_, _, _, _, _, h₁⟩
    unfold AgeTracker.add
    rw [herase, Option.bind_some, if_pos hfree]

end AgeTracker

/-- The label that a message may have. -/
def Labelled (m : Message) (a : UInt8) : Prop := if (named m).isSome then a < kAgeBuckets else a = kNoAge

namespace AgeLabeller

variable {P : HashPolicy} {l : AgeLabeller P} {n : ℕ}

/-- **One message.** -/
theorem on_labels (h : l.ages.Sound n) (m : Message) : ∃ l', l.on m = some l' ∧ l'.ages.Sound n ∧
    if counted m then ∃ a, l'.out = l.out ++ [a] ∧ Labelled m a else l'.out = l.out := by
  have hadd : ∀ (l : AgeLabeller P), l.ages.Sound n → ∀ ref ts shares,
      ∃ l', l.add ref ts shares = some l' ∧ l'.ages.Sound n ∧ l'.out = l.out := fun l h ref ts shares => by
    obtain ⟨t, ht, h'⟩ := h.add ref ts shares
    exact ⟨{ l with ages := t }, congrArg (Option.map _) ht, h', rfl⟩
  have hreduce : ∀ (l : AgeLabeller P), l.ages.Sound n → ∀ ref qty,
      ∃ l', l.reduce ref qty = some l' ∧ l'.ages.Sound n ∧ l'.out = l.out := fun l h ref qty => by
    obtain ⟨t, ht, h'⟩ := h.reduce ref qty
    exact ⟨{ l with ages := t }, congrArg (Option.map _) ht, h', rfl⟩
  have herase : ∀ (l : AgeLabeller P), l.ages.Sound n → ∀ ref,
      ∃ l', l.erase ref = some l' ∧ l'.ages.Sound n ∧ l'.out = l.out := fun l h ref => by
    obtain ⟨t, ht, h'⟩ := h.erase ref
    exact ⟨{ l with ages := t }, congrArg (Option.map _) ht, h', rfl⟩
  -- a message that names an order is labelled first, and then `g` is done
  have hlabel : ∀ (ref : Ref) (ts : ℕ) (g : AgeLabeller P → Option (AgeLabeller P)), (named m).isSome = true →
      (∀ l, l.ages.Sound n → ∃ l', g l = some l' ∧ l'.ages.Sound n ∧ l'.out = l.out) →
        ∃ l', ((l.label ref ts).bind g) = some l' ∧ l'.ages.Sound n ∧ ∃ a, l'.out = l.out ++ [a] ∧ Labelled m a :=
    fun ref ts g hm hg => by
      obtain ⟨a, ha, hlt⟩ := h.bucket ref ts
      obtain ⟨l', hl', h', hout⟩ := hg (l.push a) h
      refine ⟨l', ?_, h', a, hout, ?_⟩
      · unfold label
        rw [ha, Option.map_some, Option.bind_some, hl']
      · rw [Labelled, if_pos hm]
        exact hlt
  have hplain : named m = none → Labelled m kNoAge := fun hm => by rw [Labelled, hm]; rfl
  cases m with
  | systemEvent v => exact ⟨l, rfl, h, rfl⟩
  | stockTradingAction v => exact ⟨l, rfl, h, rfl⟩
  | operationalHalt v => exact ⟨l, rfl, h, rfl⟩
  | stockDirectory v => exact ⟨l, rfl, h, rfl⟩
  | addOrder v =>
    obtain ⟨l', hl', h', hout⟩ := hadd (l.push kNoAge) h v.orderRef v.ts.toNat v.shares
    exact ⟨l', hl', h', kNoAge, hout, hplain rfl⟩
  | addOrderMpid v =>
    obtain ⟨l', hl', h', hout⟩ := hadd (l.push kNoAge) h v.orderRef v.ts.toNat v.shares
    exact ⟨l', hl', h', kNoAge, hout, hplain rfl⟩
  | orderExecuted v => exact hlabel _ _ _ rfl fun l h => hreduce l h _ _
  | orderExecutedPrice v => exact hlabel _ _ _ rfl fun l h => hreduce l h _ _
  | orderCancel v => exact hlabel _ _ _ rfl fun l h => hreduce l h _ _
  | orderDelete v => exact hlabel _ _ _ rfl fun l h => herase l h _
  | orderReplace v =>
    refine hlabel _ _ _ rfl fun l h => ?_
    obtain ⟨l₁, hl₁, h₁, hout₁⟩ := herase l h v.oldOrderRef
    obtain ⟨l₂, hl₂, h₂, hout₂⟩ := hadd l₁ h₁ v.newOrderRef v.ts.toNat v.shares
    refine ⟨l₂, ?_, h₂, hout₂.trans hout₁⟩
    rw [hl₁, Option.bind_some, hl₂]
  | trade v => exact ⟨l.push kNoAge, rfl, h, kNoAge, rfl, hplain rfl⟩
  | brokenTrade v => exact ⟨l.push kNoAge, rfl, h, kNoAge, rfl, hplain rfl⟩
  | crossTrade v => exact ⟨l.push kNoAge, rfl, h, kNoAge, rfl, hplain rfl⟩

/-- The label that each counted message finds. -/
theorem run_fits {capacity : UInt64} (hnew : (AgeTracker.new P capacity).isSome = true) (ms : List Message) :
    ∃ l, run P capacity ms = some l ∧ l.ages.Sound capacity.toNat ∧ l.out.length = ms.countP counted ∧
      ∀ pre m, pre ++ [m] <+: ms → counted m = true →
        ∃ a, l.out[pre.countP counted]? = some a ∧ Labelled m a := by
  induction ms using List.reverseRecOn with
  | nil =>
    obtain ⟨t, ht⟩ := Option.isSome_iff_exists.mp hnew
    refine ⟨_, congrArg (Option.map _) ht, ⟨_, _, _, _, AgeTracker.holds_new ht⟩, rfl, fun pre m hpre => ?_⟩
    exact absurd (List.prefix_nil.mp hpre) (by simp)
  | append_singleton ms m ih =>
    obtain ⟨l, hl, hsound, hlen, hfits⟩ := ih
    obtain ⟨l', hon, hsound', hout⟩ := on_labels hsound m
    have hrun : run P capacity (ms ++ [m]) = some l' := by
      unfold run at hl ⊢
      rw [Runs.run_snoc, hl]
      exact hon
    have hold : ∀ {i : ℕ} {a : UInt8}, l.out[i]? = some a → l'.out[i]? = some a := fun {i a} ha => by
      split_ifs at hout
      · obtain ⟨b, hb, -⟩ := hout
        rw [hb, List.getElem?_append_left (List.getElem?_eq_some_iff.mp ha).1]
        exact ha
      · rw [hout]
        exact ha
    refine ⟨l', hrun, hsound', ?_, fun pre m' hpre hc => ?_⟩
    · rw [List.countP_append, List.countP_singleton, ← hlen]
      split_ifs at hout with hc
      · obtain ⟨b, hb, -⟩ := hout
        rw [hb, if_pos hc, List.length_append, List.length_singleton]
      · rw [hout, if_neg hc, Nat.add_zero]
    · rcases List.prefix_concat_iff.mp hpre with heq | hpre
      · obtain ⟨rfl, hm⟩ := List.append_inj' heq rfl
        obtain rfl := List.singleton_inj.mp hm
        rw [if_pos hc] at hout
        obtain ⟨b, hb, hfit⟩ := hout
        exact ⟨b, by rw [hb, ← hlen, List.getElem?_concat_length], hfit⟩
      · obtain ⟨a, ha, hfit⟩ := hfits pre m' hpre hc
        exact ⟨a, hold ha, hfit⟩

end AgeLabeller

/-! ## Totals -/

namespace FillTotals

instance : Zero FillTotals := ⟨{}⟩

instance : Add FillTotals where
  add f g :=
    { messages := f.messages + g.messages
      fills := fun e => f.fills e + g.fills e
      dramHist := fun i => f.dramHist i + g.dramHist i }

@[ext] theorem ext {f g : FillTotals} (hm : f.messages = g.messages) (hf : ∀ e, f.fills e = g.fills e)
    (hd : ∀ i, f.dramHist i = g.dramHist i) : f = g := by
  cases f
  cases g
  simp only [mk.injEq]
  exact ⟨hm, funext hf, funext hd⟩

instance : AddCommMonoid FillTotals where
  add_assoc f g h := by
    ext : 1
    · exact Nat.add_assoc ..
    · exact UInt64.add_assoc ..
    · exact Nat.add_assoc ..
  zero_add f := by
    ext : 1
    · exact Nat.zero_add _
    · exact UInt64.zero_add _
    · exact Nat.zero_add _
  add_zero f := by
    ext : 1
    · exact Nat.add_zero _
    · exact UInt64.add_zero _
    · exact Nat.add_zero _
  add_comm f g := by
    ext : 1
    · exact Nat.add_comm ..
    · exact UInt64.add_comm ..
    · exact Nat.add_comm ..
  nsmul := nsmulRec

@[simp] theorem messages_zero : (0 : FillTotals).messages = 0 := rfl

@[simp] theorem messages_add (f g : FillTotals) : (f + g).messages = f.messages + g.messages := rfl

theorem kFillEventCount_pos : 0 < kFillEventCount := by decide

/-- The bin of a message in the histogram. -/
def bin (d : Fin kFillEventCount → UInt64) : ℕ :=
  let dram := (d ⟨0, kFillEventCount_pos⟩).toNat
  if dram < 4 then dram else 4

theorem bin_lt (d : Fin kFillEventCount → UInt64) : bin d < 5 := by
  unfold bin
  dsimp only
  split_ifs <;> omega

/-- The totals of one message. -/
def one (d : Fin kFillEventCount → UInt64) : FillTotals := FillTotals.add {} d

theorem add_eq (f : FillTotals) (d : Fin kFillEventCount → UInt64) : f.add d = f + one d := by
  ext i : 1
  · show f.messages + 1 = f.messages + (0 + 1)
    omega
  · show f.fills i + d i = f.fills i + (0 + d i)
    rw [UInt64.zero_add]
  · show Function.update f.dramHist (bin d) (f.dramHist (bin d) + 1) i =
      f.dramHist i + Function.update (fun _ => 0) (bin d) (0 + 1) i
    rw [Function.update_apply, Function.update_apply]
    split_ifs with h
    · rw [h]
    · rfl

/-- The histogram counts every message in one of its five bins. -/
def Whole (f : FillTotals) : Prop := ∑ i ∈ Finset.range 5, f.dramHist i = f.messages

theorem whole_zero : Whole 0 := Finset.sum_const_zero

theorem whole_add (f g : FillTotals) (hf : f.Whole) (hg : g.Whole) : (f + g).Whole := by
  unfold Whole at *
  rw [messages_add, ← hf, ← hg, ← Finset.sum_add_distrib]
  rfl

theorem whole_one (d : Fin kFillEventCount → UInt64) : (one d).Whole := by
  show ∑ i ∈ Finset.range 5, Function.update (fun _ => 0) (bin d) (0 + 1) i = 0 + 1
  rw [Finset.sum_update_of_mem (Finset.mem_range.mpr (bin_lt d))]
  simp

end FillTotals

/-! ## What is filed -/

/-- A measured message. -/
structure Reading where
  type : UInt8
  age : UInt8
  moved : Bool
  fills : Fin kFillEventCount → UInt64

def Reading.totals (r : Reading) : FillTotals := .one r.fills

/-- What is read of the labels at the cursor. -/
def ageAt (ages : Option (List UInt8)) (cursor : ℕ) : Option UInt8 :=
  match ages with
  | none => some kNoAge
  | some labels => labels[cursor]?

namespace AttributedHandler

variable {P : HashPolicy} {W : Window} {pmc : ℕ → Fin kFillEventCount → UInt64 × UInt64}
  {h : AttributedHandler P W} {rs : List Reading}

open Tally in
/-- The tables are the totals of the messages `rs`. -/
structure Filed (h : AttributedHandler P W) (rs : List Reading) : Prop where
  byType : h.byType = table Reading.type Reading.totals rs
  byTypeAge : (fun k : UInt8 × UInt8 => h.byTypeAge k.1 k.2) =
    table (fun r : Reading => (r.type, r.age)) Reading.totals (rs.filter (·.age ≠ kNoAge))
  recenter : h.recenter = table Reading.moved Reading.totals rs true
  ordinary : h.ordinary = table Reading.moved Reading.totals rs false
  all : h.all = (rs.map Reading.totals).sum

/-- What is filed does not depend on the book, nor on the counts of messages. -/
theorem Filed.aside (hf : h.Filed rs) (cursor warmupLeft : ℕ) (b : FastBook P W) :
    Filed { h with cursor := cursor, warmupLeft := warmupLeft, book := b } rs :=
  ⟨hf.byType, hf.byTypeAge, hf.recenter, hf.ordinary, hf.all⟩

/-- **One measured message.** -/
theorem Filed.file (hf : h.Filed rs) (b : FastBook P W) (type age : UInt8)
    (d : Fin kFillEventCount → UInt64) : (h.file b type age d).Filed
      (rs ++ [⟨type, age, b.counters.recenters ≠ h.book.counters.recenters, d⟩]) := by
  have htotals : ∀ f : FillTotals, f.add d = f + Reading.totals
      ⟨type, age, b.counters.recenters ≠ h.book.counters.recenters, d⟩ := fun f => f.add_eq d
  unfold AttributedHandler.file
  refine ⟨?_, ?_, ?_, ?_, ?_⟩
  · dsimp only
    rw [Tally.table_snoc, htotals, hf.byType]
  · rw [Tally.table_filter_snoc]
    dsimp only
    by_cases ha : age ≠ kNoAge
    · rw [if_pos ha, if_pos (by simpa using ha), ← hf.byTypeAge]
      funext ⟨t, a⟩
      simp only [Function.update_apply, htotals, Prod.mk.injEq]
      by_cases ht : t = type
      · by_cases ha' : a = age
        · simp [ht, ha']
        · simp [ht, ha']
      · simp [ht]
    · rw [if_neg ha, if_neg (by simpa using ha)]
      exact hf.byTypeAge
  · rw [Tally.table_snoc, Function.update_apply]
    dsimp only
    by_cases hm : b.counters.recenters ≠ h.book.counters.recenters
    · simp only [if_pos hm, htotals, hf.recenter, decide_eq_true hm, if_true]
    · simp only [if_neg hm, hf.recenter, decide_eq_false hm, Bool.true_eq_false, if_false]
  · rw [Tally.table_snoc, Function.update_apply]
    dsimp only
    by_cases hm : b.counters.recenters ≠ h.book.counters.recenters
    · simp only [if_pos hm, hf.ordinary, decide_eq_true hm, Bool.false_eq_true, if_false]
    · simp only [if_neg hm, htotals, hf.ordinary, decide_eq_false hm, if_true]
  · rw [List.map_append, List.sum_append, ← hf.all, List.map_singleton, List.sum_singleton]
    exact htotals h.all

/-- A message that is not counted goes to the book, if anywhere. -/
theorem on_uncounted {m : Message} (hc : counted m = false) {b : FastBook P W} (hb : h.book.on m = some b) :
    h.on pmc m = some { h with book := b } := by
  have hsame : ∀ {b' : FastBook P W}, some h.book = some b' → h = { h with book := b' } := fun hs => by
    rw [← Option.some.inj hs]
  cases m with
  | systemEvent v => exact congrArg (Option.map fun b => { h with book := b }) hb
  | stockTradingAction v => exact congrArg some (hsame hb)
  | operationalHalt v => exact congrArg some (hsame hb)
  | stockDirectory v => exact congrArg some (hsame hb)
  | _ => exact absurd hc Bool.true_eq_false_eq_False

theorem on_counted {m : Message} (hc : counted m = true) {age : UInt8} (hage : h.readAge = some age)
    {b : FastBook P W} (hb : h.book.on m = some b) :
    h.on pmc m = some
      (if h.warmupLeft ≠ 0 then { h with cursor := h.cursor + 1, warmupLeft := h.warmupLeft - 1, book := b }
      else { h with cursor := h.cursor + 1 }.file b m.type.byte age fun e =>
        (pmc h.cursor e).2 - (pmc h.cursor e).1) := by
  have hmeasured : h.measured pmc m = some
      (if h.warmupLeft ≠ 0 then { h with cursor := h.cursor + 1, warmupLeft := h.warmupLeft - 1, book := b }
      else { h with cursor := h.cursor + 1 }.file b m.type.byte age fun e =>
        (pmc h.cursor e).2 - (pmc h.cursor e).1) := by
    unfold measured
    rw [hage, Option.bind_some]
    dsimp only
    rw [hb]
    rfl
  cases m with
  | systemEvent v => exact absurd hc Bool.false_ne_true
  | stockTradingAction v => exact absurd hc Bool.false_ne_true
  | operationalHalt v => exact absurd hc Bool.false_ne_true
  | stockDirectory v => exact absurd hc Bool.false_ne_true
  | _ => exact hmeasured

/-- **A run** whose labels meet `Fit`: the book is undisturbed, and what is filed is a measured message each. -/
theorem run_filed {cfg : FastBookConfig} (hnew : (FastBook.new P W cfg).isSome = true) (warmup : ℕ)
    {ages : Option (List UInt8)} {Fit : Message → UInt8 → Prop} (ms : List Message)
    (hfit : ∀ pre m, pre ++ [m] <+: ms → counted m = true →
      ∃ a, ageAt ages (pre.countP counted) = some a ∧ Fit m a) :
    ∃ h rs, run P W cfg warmup pmc ages ms = some h ∧ FastBook.run P W cfg ms = some h.book ∧ h.ages = ages ∧
      h.cursor = ms.countP counted ∧ h.warmupLeft = warmup - ms.countP counted ∧ h.Filed rs ∧
      rs.length = ms.countP counted - warmup ∧
      ∀ r ∈ rs, ∃ m, counted m = true ∧ r.type = m.type.byte ∧ Fit m r.age := by
  induction ms using List.reverseRecOn with
  | nil =>
    obtain ⟨b₀, h₀⟩ := Option.isSome_iff_exists.mp hnew
    refine ⟨_, [], congrArg (Option.map _) h₀, h₀, rfl, rfl, rfl, ?_, (Nat.zero_sub warmup).symm,
      fun r hr => absurd hr List.not_mem_nil⟩
    exact ⟨rfl, rfl, rfl, rfl, rfl⟩
  | append_singleton ms m ih =>
    obtain ⟨h, rs, hrun, hbook, hages, hcursor, hleft, hfiled, hlen, hrs⟩ :=
      ih fun pre m' hpre => hfit pre m' (hpre.trans (List.prefix_append ms [m]))
    obtain ⟨b₀, h₀⟩ := Option.isSome_iff_exists.mp hnew
    obtain ⟨b, hb, -⟩ := FastBook.rep_run h₀ (ms ++ [m])
    have hon : h.book.on m = some b := by
      have hsnoc := hb
      unfold FastBook.run at hbook hsnoc
      rw [Runs.run_snoc, hbook] at hsnoc
      exact hsnoc
    have hstep : ∀ {h'}, h.on pmc m = some h' → run P W cfg warmup pmc ages (ms ++ [m]) = some h' :=
      fun {h'} hh => by
        unfold run at hrun ⊢
        rw [Runs.run_snoc, hrun]
        exact hh
    rw [List.countP_append, List.countP_singleton]
    by_cases hc : counted m = true
    swap
    · rw [if_neg hc, Nat.add_zero]
      have hc' : counted m = false := Bool.eq_false_iff.mpr hc
      exact ⟨_, rs, hstep (on_uncounted hc' hon), hb, hages, hcursor, hleft, hfiled.aside h.cursor h.warmupLeft b,
        hlen, hrs⟩
    obtain ⟨a, ha, hma⟩ := hfit ms m (List.prefix_refl _) hc
    have hage : h.readAge = some a := by
      rw [← ha, ← hages, ← hcursor]
      rfl
    have hcounted := hstep (@on_counted _ _ pmc _ _ hc _ hage _ hon)
    rw [if_pos hc]
    by_cases hw : h.warmupLeft ≠ 0
    · rw [if_pos hw] at hcounted
      refine ⟨_, rs, hcounted, hb, hages, congrArg (· + 1) hcursor, ?_,
        hfiled.aside (h.cursor + 1) (h.warmupLeft - 1) b, by omega, hrs⟩
      show h.warmupLeft - 1 = _
      omega
    · rw [if_neg hw] at hcounted
      have hnext := hfiled.aside (h.cursor + 1) h.warmupLeft h.book
      refine ⟨_, _, hcounted, hb, hages, congrArg (· + 1) hcursor, ?_, hnext.file b m.type.byte a _, ?_,
        fun r hr => ?_⟩
      · show h.warmupLeft = _
        omega
      · rw [List.length_append, List.length_singleton]
        omega
      · rcases List.mem_append.mp hr with hold | hnew
        · exact hrs r hold
        · obtain rfl := List.mem_singleton.mp hnew
          exact ⟨m, hc, rfl, hma⟩

end AttributedHandler

/-! ## The rows that are printed -/

/-- `kTypeOrder`: `"AFECXDUPQB"`. -/
def kTypeOrder : List UInt8 := [65, 70, 69, 67, 88, 68, 85, 80, 81, 66]

/-- The types that name a resting order: `{'E', 'C', 'X', 'D', 'U'}`. -/
def kNamingTypes : List UInt8 := [69, 67, 88, 68, 85]

/-- The ages that have a row. -/
def kAges : List UInt8 := [0, 1, 2, 3, 4, 5]

theorem mem_kAges {a : UInt8} (h : a < kAgeBuckets) : a ∈ kAges := by
  have hall : ∀ n : Fin 6, UInt8.ofNat n ∈ kAges := by decide
  have hmem := hall ⟨a.toNat, h⟩
  rwa [UInt8.ofNat_toNat] at hmem

theorem type_mem {m : Message} (hc : counted m = true) : m.type.byte ∈ kTypeOrder := by
  cases m <;> first | exact absurd hc Bool.false_ne_true | exact List.mem_of_elem_eq_true rfl

theorem type_named {m : Message} (hc : counted m = true) : m.type.byte ∈ kNamingTypes ↔ (named m).isSome = true := by
  cases m <;> first
    | exact absurd hc Bool.false_ne_true
    | exact iff_of_true (List.mem_of_elem_eq_true rfl) rfl
    | exact iff_of_false (fun hmem => Bool.noConfusion (List.elem_eq_true_of_mem hmem)) Bool.false_ne_true

namespace AttributedHandler

variable {P : HashPolicy} {W : Window}

/-- `pooled[age]` of `print_attribution`. -/
def pooled (h : AttributedHandler P W) (age : UInt8) : FillTotals :=
  (kNamingTypes.map fun t => h.byTypeAge t age).sum

variable {h : AttributedHandler P W} {rs : List Reading}

theorem Filed.messages (hf : h.Filed rs) : h.all.messages = rs.length := by
  rw [hf.all]
  clear hf
  induction rs with
  | nil => rfl
  | cons r rs ih =>
    rw [List.map_cons, List.sum_cons, FillTotals.messages_add, ih, List.length_cons]
    show 0 + 1 + rs.length = _
    omega

/-- The rows by type. -/
theorem Filed.sum_byType (hf : h.Filed rs) (htypes : ∀ r ∈ rs, r.type ∈ kTypeOrder) :
    (kTypeOrder.map h.byType).sum = h.all := by
  rw [← List.sum_toFinset _ (by decide), hf.byType, hf.all]
  exact Tally.sum_table fun r hr => List.mem_toFinset.mpr (htypes r hr)

/-- The rows by recenter. -/
theorem Filed.recenter_add (hf : h.Filed rs) : h.recenter + h.ordinary = h.all := by
  rw [hf.recenter, hf.ordinary, hf.all, ← Fintype.sum_bool]
  exact Tally.sum_table fun r _ => Finset.mem_univ _

theorem Filed.byTypeAge_eq (hf : h.Filed rs) (t a : UInt8) : h.byTypeAge t a =
    Tally.table (fun r : Reading => (r.type, r.age)) Reading.totals (rs.filter (·.age ≠ kNoAge)) (t, a) :=
  congrFun hf.byTypeAge (t, a)

/-- The ages are those of messages that name an order. -/
structure Aged (withAge : Bool) (r : Reading) : Prop where
  naming : r.type ∈ kNamingTypes → if withAge then r.age ∈ kAges else r.age = kNoAge
  other : r.type ∉ kNamingTypes → r.age = kNoAge

theorem Filed.byTypeAge_eq_zero (hf : h.Filed rs) {withAge : Bool} (haged : ∀ r ∈ rs, Aged withAge r) {t a : UInt8}
    (hta : withAge = false ∨ t ∉ kNamingTypes ∨ a ∉ kAges) : h.byTypeAge t a = 0 := by
  rw [hf.byTypeAge_eq]
  refine Tally.table_eq_zero fun r hr heq => ?_
  obtain ⟨hmem, hne⟩ := List.mem_filter.mp hr
  obtain ⟨rfl, rfl⟩ := Prod.mk.inj heq
  have hne' : r.age ≠ kNoAge := by simpa using hne
  have hnaming : r.type ∈ kNamingTypes := by
    by_contra hn
    exact hne' ((haged r hmem).other hn)
  have hage := (haged r hmem).naming hnaming
  rcases hta with rfl | ht | ha
  · exact hne' hage
  · exact ht hnaming
  · split_ifs at hage
    · exact ha hage
    · exact hne' hage

/-- The rows by age of a type. -/
theorem Filed.sum_byTypeAge (hf : h.Filed rs) {withAge : Bool} (haged : ∀ r ∈ rs, Aged withAge r) {t : UInt8}
    (ht : t ∈ kNamingTypes) : (kAges.map (h.byTypeAge t)).sum = if withAge then h.byType t else 0 := by
  cases withAge with
  | false =>
    rw [if_neg Bool.false_ne_true]
    refine List.sum_eq_zero fun f hf' => ?_
    obtain ⟨a, -, rfl⟩ := List.mem_map.mp hf'
    exact hf.byTypeAge_eq_zero haged (.inl rfl)
  | true =>
    have hin : ∀ r ∈ rs, r.type = t → r.age ∈ kAges := fun r hr heq => by
      have hage := (haged r hr).naming (heq ▸ ht)
      rwa [if_pos rfl] at hage
    have hne : ∀ r ∈ rs, r.type = t → decide (r.age ≠ kNoAge) = true := fun r hr heq => by
      refine decide_eq_true fun hc => ?_
      have hmem := hin r hr heq
      rw [hc] at hmem
      exact absurd hmem (by decide)
    rw [if_pos rfl, ← List.sum_toFinset _ (by decide), hf.byType, ← Tally.table_filter hne]
    simp only [hf.byTypeAge_eq]
    exact Tally.sum_pair fun r hr heq => List.mem_toFinset.mpr (hin r (List.mem_filter.mp hr).1 heq)

/-- The pooled rows. -/
theorem sum_pooled (h : AttributedHandler P W) :
    (kAges.map h.pooled).sum = (kNamingTypes.map fun t => (kAges.map (h.byTypeAge t)).sum).sum := by
  have hages : kAges.Nodup := by decide
  have htypes : kNamingTypes.Nodup := by decide
  unfold pooled
  simp only [← List.sum_toFinset _ hages, ← List.sum_toFinset _ htypes]
  exact Finset.sum_comm

theorem Reading.whole (r : Reading) : r.totals.Whole := FillTotals.whole_one r.fills

theorem Filed.whole (hf : h.Filed rs) : h.all.Whole ∧ h.recenter.Whole ∧ h.ordinary.Whole ∧
    ∀ t, (h.byType t).Whole ∧ ∀ a, (h.byTypeAge t a).Whole := by
  have htable : ∀ {κ : Type} [DecidableEq κ] (key : Reading → κ) (rs : List Reading) (k : κ),
      (Tally.table key Reading.totals rs k).Whole := fun key rs k =>
    Tally.table_induction FillTotals.whole_zero FillTotals.whole_add (fun r _ => Reading.whole r) k
  refine ⟨?_, hf.recenter ▸ htable _ _ _, hf.ordinary ▸ htable _ _ _, fun t => ⟨hf.byType ▸ htable _ _ _, fun a => ?_⟩⟩
  · rw [← hf.recenter_add]
    exact FillTotals.whole_add _ _ (hf.recenter ▸ htable _ _ _) (hf.ordinary ▸ htable _ _ _)
  · rw [hf.byTypeAge_eq]
    exact htable _ _ _

end AttributedHandler

/-- **The attribution adds up.** On every session, whatever the counters read, and with the labels or without: the
labeller stays within its slots after every message; the book is that of a plain pass; every counted message behind the warmup is measured; the rows by type, and the two rows
by recenter, add up to the row of all; with the labels the rows by age of each type that names an order add up to the
row of the type, and the pooled rows to these types together; no other row has an age. -/
theorem attributed (P Q : HashPolicy) (W : Window) (capacity : UInt64) (cfg : FastBookConfig) (warmup : ℕ)
    (pmc : ℕ → Fin kFillEventCount → UInt64 × UInt64) (ms : List Message)
    (hnew : (AgeTracker.new P capacity).isSome = true) (hbook : (FastBook.new Q W cfg).isSome = true) :
    (∀ pre, pre <+: ms → ∃ l, AgeLabeller.run P capacity pre = some l ∧ l.ages.Within capacity.toNat) ∧
    ∃ l b, AgeLabeller.run P capacity ms = some l ∧ FastBook.run Q W cfg ms = some b ∧ ∀ withAge : Bool,
      ∃ h, AttributedHandler.run Q W cfg warmup pmc (if withAge then some l.out else none) ms = some h ∧
        h.book = b ∧ h.all.messages = ms.countP counted - warmup ∧
        (kTypeOrder.map h.byType).sum = h.all ∧ h.recenter + h.ordinary = h.all ∧
        (∀ t ∈ kNamingTypes, (kAges.map (h.byTypeAge t)).sum = if withAge then h.byType t else 0) ∧
        (kAges.map h.pooled).sum = (if withAge then (kNamingTypes.map h.byType).sum else 0) ∧
        (∀ t a, t ∉ kNamingTypes ∨ a ∉ kAges → h.byTypeAge t a = 0) ∧
        h.all.Whole ∧ h.recenter.Whole ∧ h.ordinary.Whole ∧
        ∀ t, (h.byType t).Whole ∧ ∀ a, (h.byTypeAge t a).Whole := by
  have hwithin : ∀ pre, pre <+: ms →
      ∃ l, AgeLabeller.run P capacity pre = some l ∧ l.ages.Within capacity.toNat := fun pre _ => by
    obtain ⟨l, hl, hsound, -⟩ := AgeLabeller.run_fits hnew pre
    exact ⟨l, hl, hsound.within⟩
  refine ⟨hwithin, ?_⟩
  obtain ⟨l, hl, -, -, hlabels⟩ := AgeLabeller.run_fits hnew ms
  obtain ⟨b₀, h₀⟩ := Option.isSome_iff_exists.mp hbook
  obtain ⟨b, hb, -⟩ := FastBook.rep_run h₀ ms
  refine ⟨l, b, hl, hb, fun withAge => ?_⟩
  have hfit : ∀ pre m, pre ++ [m] <+: ms → counted m = true →
      ∃ a, ageAt (if withAge then some l.out else none) (pre.countP counted) = some a ∧
        if withAge then Labelled m a else a = kNoAge := fun pre m hpre hc => by
    cases withAge with
    | false => exact ⟨kNoAge, rfl, rfl⟩
    | true => exact hlabels pre m hpre hc
  obtain ⟨h, rs, hrun, hb', -, -, -, hfiled, hlen, hrs⟩ :=
    @AttributedHandler.run_filed Q W pmc cfg hbook warmup _ _ ms hfit
  have hhb : h.book = b := Option.some.inj (hb'.symm.trans hb)
  have htypes : ∀ r ∈ rs, r.type ∈ kTypeOrder := fun r hr => by
    obtain ⟨m, hc, ht, -⟩ := hrs r hr
    rw [ht]
    exact type_mem hc
  have haged : ∀ r ∈ rs, AttributedHandler.Aged withAge r := fun r hr => by
    obtain ⟨m, hc, ht, hm⟩ := hrs r hr
    have hnamed := type_named hc
    rw [← ht] at hnamed
    cases withAge with
    | false => exact ⟨fun _ => hm, fun _ => hm⟩
    | true =>
      refine ⟨fun hn => ?_, fun hn => ?_⟩
      · have hlt : r.age < kAgeBuckets := by
          have hfit : Labelled m r.age := hm
          rwa [Labelled, if_pos (hnamed.mp hn)] at hfit
        exact mem_kAges hlt
      · have hfit : Labelled m r.age := hm
        rwa [Labelled, if_neg fun hc => hn (hnamed.mpr hc)] at hfit
  have hsums : ∀ t ∈ kNamingTypes, (kAges.map (h.byTypeAge t)).sum = if withAge then h.byType t else 0 :=
    fun t ht => hfiled.sum_byTypeAge haged ht
  refine ⟨h, hrun, hhb, hfiled.messages.trans hlen, hfiled.sum_byType htypes, hfiled.recenter_add, hsums, ?_,
    fun t a hta => hfiled.byTypeAge_eq_zero haged (.inr hta), hfiled.whole⟩
  rw [h.sum_pooled, List.map_congr_left hsums]
  cases withAge with
  | false => exact List.sum_eq_zero fun f hf => (List.mem_map.mp hf).elim fun _ ht => ht.2.symm
  | true => rfl

/-- The deletions of `aged`, behind a warmup of one message. -/
theorem attributed_aged : ∃ l h, AgeLabeller.run multiplyShiftHash 8 aged = some l ∧ l.ages.Within 8 ∧
    AttributedHandler.run multiplyShiftHash defaultWindow ⟨8, 4, 8⟩ 1 (fun n _ => (0, UInt64.ofNat n)) (some l.out)
      aged = some h ∧
    h.all.messages = 3 ∧ (kAges.map (h.byTypeAge 68)).sum = h.byType 68 := by
  obtain ⟨hwithin, l, b, hl, -, hall⟩ := attributed multiplyShiftHash multiplyShiftHash defaultWindow 8 ⟨8, 4, 8⟩ 1
    (fun n _ => (0, UInt64.ofNat n)) aged (by decide +kernel) (by decide +kernel)
  obtain ⟨h, hrun, -, hmessages, -, -, hages, -⟩ := hall true
  obtain ⟨l', hl', hslots⟩ := hwithin aged (List.prefix_refl _)
  obtain rfl := Option.some.inj (hl.symm.trans hl')
  exact ⟨l, h, hl, hslots, hrun, hmessages, hages 68 (by decide)⟩

end Carteret
