import Carteret.QueueBook

/-!
# Levels as queues

A level is read as the list of its nodes with the shares of their orders (`restingAt`).

1. One operation of the abstract book on a queue: `restingAt_same`, `restingAt_reduce`, `restingAt_place`.
2. `Regular`: the message raises neither anomaly counter and adds no order without shares.
3. What a regular message does to every queue, by the event that the synthetic orders see (`Passage`).
-/

namespace Carteret

namespace ReferenceBook

/-- The shares of a live order. -/
def sharesOf (b : ReferenceBook) (ref : Ref) : ℕ := (b.order ref).elim 0 fun o => o.shares.toNat

/-- The nodes of a level with the shares of their orders. -/
def restingAt (b : ReferenceBook) (locate : UInt16) (side : UInt8) (price : Price) : List (RefNode × ℕ) :=
  (levelNodes b locate side price).map fun n => (n, b.sharesOf n.ref)

variable {b b' : ReferenceBook} {A : Book} {locate : UInt16} {side : UInt8} {price : Price}

/-- An order as it stands in the queue. -/
def standing (slot : Ref → ℕ) (e : Entry) : RefNode × ℕ := (⟨slot e.ref, e.ref⟩, e.shares.toNat)

theorem Represents.levelNodes_eq (h : Represents b A) :
    levelNodes b locate side price =
      (A.level locate (side == kBuy) price).map fun e => ⟨b.slotOf e.ref, e.ref⟩ := by
  unfold levelNodes symbol
  rw [getElem?_side, h.level_eq, levelFor]
  by_cases hnil : A.level locate (side == kBuy) price = []
  · rw [if_pos hnil, hnil]
    rfl
  · rw [if_neg hnil]
    rfl

theorem Represents.sharesOf_eq (h : Represents b A) {e : Entry} (he : e ∈ A.orders) :
    b.sharesOf e.ref = e.shares.toNat := by
  have hfind := Book.find_eq_some.mpr ⟨he, rfl⟩
  rw [← h.find_eq] at hfind
  obtain ⟨o, ho, hentry⟩ := Option.map_eq_some_iff.mp hfind
  have hshares : o.shares = e.shares := congrArg Entry.shares hentry
  unfold sharesOf order
  rw [ho, ← hshares]
  rfl

theorem Represents.restingAt_eq (h : Represents b A) :
    b.restingAt locate side price = (A.level locate (side == kBuy) price).map (standing b.slotOf) := by
  unfold restingAt
  rw [h.levelNodes_eq, List.map_map]
  apply List.map_congr_left
  intro e he
  have hshares := h.sharesOf_eq (Book.mem_level.mp he).1
  unfold standing
  simp only [Function.comp_apply, hshares]

/-- References, shares and nodes of a queue are those of live orders. -/
theorem Represents.nodup_restingAt (h : Represents b A) :
    ((b.restingAt locate side price).map fun x => x.1.ref).Nodup := by
  rw [h.restingAt_eq, List.map_map]
  exact Book.level_unique

theorem Represents.id_lt (h : Represents b A) {x : RefNode × ℕ} (hx : x ∈ b.restingAt locate side price) :
    x.1.id < b.nextNode := by
  rw [h.restingAt_eq] at hx
  obtain ⟨e, he, rfl⟩ := List.mem_map.mp hx
  obtain ⟨o, ho⟩ := h.orders_isSome.mpr ⟨e, (Book.mem_level.mp he).1, rfl⟩
  show b.slotOf e.ref < b.nextNode
  rw [slotOf_eq ho]
  exact h.slot_lt e.ref o ho

/-! ## Operations on a queue -/

/-- Shares are taken from the order `ref`; it goes when none are left. -/
def takeFrom (ref : Ref) (qty : ℕ) (x : RefNode × ℕ) : Option (RefNode × ℕ) :=
  if x.1.ref = ref then if x.2 - qty = 0 then none else some (x.1, x.2 - qty) else some x

/-- The orders of `A'` stand on the nodes they had in `b`. -/
theorem KeepsNodes.slotOf_eq (hk : KeepsNodes b b') {A' : Book} (h' : Represents b' A') {e : Entry}
    (he : e ∈ A'.orders) : b'.slotOf e.ref = b.slotOf e.ref := by
  obtain ⟨o', ho'⟩ := h'.orders_isSome.mpr ⟨e, he, rfl⟩
  obtain ⟨o, ho, hs⟩ := hk.slot e.ref o' ho'
  rw [ReferenceBook.slotOf_eq ho', ReferenceBook.slotOf_eq ho, hs]

theorem restingAt_same (h : Represents b A) (h' : Represents b' A) (hk : KeepsNodes b b') :
    b'.restingAt locate side price = b.restingAt locate side price := by
  rw [h.restingAt_eq, h'.restingAt_eq]
  apply List.map_congr_left
  intro e he
  unfold standing
  rw [hk.slotOf_eq h' (Book.mem_level.mp he).1]

theorem level_reduce (A : Book) (ref : Ref) (qty : Shares) (buy : Bool) :
    (A.reduce ref qty).level locate buy price =
      (A.level locate buy price).filterMap (Entry.reduce ref qty) := by
  unfold Book.level Book.reduce
  simp only
  rw [List.filter_filterMap, List.filterMap_filter]
  apply List.filterMap_congr
  intro e _
  cases hr : e.reduce ref qty with
  | none => simp
  | some e' =>
    have hrest : e'.restsAt locate buy price = e.restsAt locate buy price := by
      unfold Entry.reduce at hr
      split at hr
      · split at hr
        · cases hr
        · rw [← Option.some.inj hr]
          rfl
      · rw [← Option.some.inj hr]
    simp [hrest, Option.filter]

theorem restingAt_reduce (h : Represents b A) {ref : Ref} {qty : Shares}
    (h' : Represents b' (A.reduce ref qty)) (hk : KeepsNodes b b') :
    b'.restingAt locate side price =
      (b.restingAt locate side price).filterMap (takeFrom ref qty.toNat) := by
  rw [h.restingAt_eq, h'.restingAt_eq]
  have hslot : ∀ e ∈ (A.reduce ref qty).level locate (side == kBuy) price,
      standing b'.slotOf e = standing b.slotOf e := by
    intro e he
    unfold standing
    rw [hk.slotOf_eq h' (Book.mem_level.mp he).1]
  rw [List.map_congr_left hslot, level_reduce, List.map_filterMap, List.filterMap_map]
  apply List.filterMap_congr
  intro e _
  unfold Entry.reduce takeFrom standing
  have hsub := toNat_sub_taken qty e.shares
  have hzero : e.shares - taken qty e.shares = 0 ↔ e.shares.toNat - qty.toNat = 0 := by
    rw [← UInt32.toNat_inj, hsub]
    rfl
  by_cases hr : e.ref = ref
  · by_cases hz : e.shares - taken qty e.shares = 0
    · simp [hr, hz, hzero.mp hz]
    · simp [hr, hz, hsub, mt hzero.mpr hz]
  · simp [hr]

theorem restingAt_place (h : Represents b A) {e : Entry} (h' : Represents b' (A.place e))
    (hnew : ∀ f ∈ A.orders, f.ref ≠ e.ref) (ha : AddsNode b b' e.ref) :
    b'.restingAt locate side price = b.restingAt locate side price ++
      if e.restsAt locate (side == kBuy) price then [(⟨b.nextNode, e.ref⟩, e.shares.toNat)] else [] := by
  have hslot : b'.slotOf e.ref = b.nextNode := by
    obtain ⟨o', ho'⟩ := h'.orders_isSome.mpr ⟨e, (Book.mem_place hnew).mpr (.inr rfl), rfl⟩
    rw [slotOf_eq ho']
    exact ha.slot_new o' ho'
  have hold : ∀ f ∈ A.level locate (side == kBuy) price, standing b'.slotOf f = standing b.slotOf f := by
    intro f hf
    have hmem := (Book.mem_level.mp hf).1
    obtain ⟨o', ho'⟩ := h'.orders_isSome.mpr ⟨f, (Book.mem_place hnew).mpr (.inl hmem), rfl⟩
    obtain ⟨o, ho, hs⟩ := ha.slot f.ref o' (hnew f hmem) ho'
    unfold standing
    rw [slotOf_eq ho', slotOf_eq ho, hs]
  rw [h'.restingAt_eq, h.restingAt_eq, Book.level_place, Book.drop_of_absent hnew, List.map_append,
    List.map_congr_left hold]
  split
  · simp [standing, hslot]
  · rfl

/-- The shares of a level, unbounded. -/
def depthOf (b : ReferenceBook) (locate : UInt16) (side : UInt8) (price : Price) : ℕ :=
  ((b.restingAt locate side price).map Prod.snd).sum

/-- The counter of a level is its shares on 64 bits. -/
theorem Represents.depth_toNat (h : Represents b A) :
    (b.depthAt locate side price).shares.toNat = b.depthOf locate side price % 2 ^ 64 := by
  have htotal : b.depthOf locate side price = Book.total (A.level locate (side == kBuy) price) := by
    unfold depthOf
    rw [h.restingAt_eq, List.map_map]
    rfl
  rw [h.depth_shares, htotal, ← Book.ofNat_total, UInt64.toNat_ofNat']

/-- The level's counter is the one that the queries report. -/
theorem level_shares (b : ReferenceBook) (locate : UInt16) (side : UInt8) (price : Price) :
    (b.level locate side price).shares = (b.depthAt locate side price).shares := by
  unfold depthAt level
  cases b.symbol locate with
  | none => rfl
  | some s =>
    simp only
    cases (s.side side)[price]? <;> rfl

theorem level_fifo (b : ReferenceBook) (locate : UInt16) (side : UInt8) (price : Price) :
    (b.level locate side price).fifo = (b.restingAt locate side price).map fun x => x.1.ref := by
  unfold restingAt levelNodes level
  rw [List.map_map]
  cases b.symbol locate with
  | none => rfl
  | some s =>
    simp only [Option.bind_some]
    cases (s.side side)[price]? <;> rfl

end ReferenceBook

/-! ## Regular messages -/

/-- The shares of the order that a message adds. -/
def sharesAdded : Message → Option Shares
  | .addOrder v => some v.shares
  | .addOrderMpid v => some v.shares
  | .orderReplace v => some v.shares
  | _ => none

/-- The message leaves both anomaly counters at zero and adds no order without shares. -/
structure Regular (b : ReferenceBook) (msg : Message) : Prop where
  duplicateAdd : (bookAfter b msg).counters.duplicateAdd = 0
  overExecute : (bookAfter b msg).counters.overExecute = 0
  shares : ∀ n ∈ sharesAdded msg, 1 ≤ n.toNat

namespace BookEvent

/-- The order that the event takes shares from, and how many. -/
def taking : BookEvent → Option (Resolved × Shares)
  | .execution r qty _ => some (r, qty)
  | .cancel r qty => some (r, qty)
  | _ => none

def isExecution : BookEvent → Bool
  | .execution _ _ _ => true
  | _ => false

/-- What the event does to an order in a queue. -/
def take (ev : BookEvent) : RefNode × ℕ → Option (RefNode × ℕ) :=
  ev.taking.elim some fun t => ReferenceBook.takeFrom t.1.ref t.2.toNat

end BookEvent

/-- What a regular message does to the queues. -/
structure Passage (b b' : ReferenceBook) (ev : BookEvent) : Prop where
  queue : ∀ locate side price, ∃ joined : List (RefNode × ℕ),
    b'.restingAt locate side price = (b.restingAt locate side price).filterMap ev.take ++ joined ∧
      ∀ x ∈ joined, x.1.id = b.nextNode ∧ b.nextNode < b'.nextNode ∧ 1 ≤ x.2 ∧ ev.isExecution = false
  next_le : b.nextNode ≤ b'.nextNode
  le_shares : ∀ t ∈ ev.taking, t.2 ≤ t.1.shares
  rests : ∀ t ∈ ev.taking, ∃ id, ((⟨id, t.1.ref⟩, t.1.shares.toNat) : RefNode × ℕ) ∈
    b.restingAt t.1.locate t.1.side t.1.price
  elsewhere : ∀ t ∈ ev.taking, ∀ locate side price, ∀ x ∈ b.restingAt locate side price,
    x.1.ref = t.1.ref → locate = t.1.locate ∧ (side == kBuy) = (t.1.side == kBuy) ∧ price = t.1.price

section

open ReferenceBook

variable {b b' : ReferenceBook} {A : Book} {cfg : QueueSimConfig}

/-- Nothing is taken and nothing joins. -/
theorem passage_same (h : Represents b A) (h' : Represents b' A) (hk : KeepsNodes b b') {ev : BookEvent}
    (hev : ev.taking = none) : Passage b b' ev where
  queue := fun locate side price => by
    refine ⟨[], ?_, by simp⟩
    have hsome : ev.take = some := by
      unfold BookEvent.take
      rw [hev]
      rfl
    rw [restingAt_same h h' hk, hsome, List.filterMap_some, List.append_nil]
  next_le := hk.next.ge
  le_shares := by simp [hev]
  rests := by simp [hev]
  elsewhere := by simp [hev]

/-- What an event that takes from a live order says of the queues. -/
theorem rests_resolved (h : Represents b A) {r : Resolved} {e : Entry} (hf : A.find r.ref = some e)
    (hr : Resolves r e) :
    (∃ id, ((⟨id, r.ref⟩, r.shares.toNat) : RefNode × ℕ) ∈ b.restingAt r.locate r.side r.price) ∧
      ∀ locate side price, ∀ x ∈ b.restingAt locate side price, x.1.ref = r.ref →
        locate = r.locate ∧ (side == kBuy) = (r.side == kBuy) ∧ price = r.price := by
  have hmem := (Book.find_eq_some.mp hf).1
  constructor
  · refine ⟨b.slotOf e.ref, ?_⟩
    rw [h.restingAt_eq]
    refine List.mem_map.mpr ⟨e, Book.mem_level.mpr ⟨hmem, hr.restsAt⟩, ?_⟩
    unfold standing
    rw [hr.ref, hr.shares]
  · intro locate side price x hx href
    rw [h.restingAt_eq] at hx
    obtain ⟨f, hf', rfl⟩ := List.mem_map.mp hx
    obtain ⟨hfmem, hfrest⟩ := Book.mem_level.mp hf'
    obtain rfl : f = e := Book.eq_of_ref_eq hfmem hmem (href.trans hr.ref.symm)
    obtain ⟨h1, h2, h3⟩ := Entry.restsAt_iff.mp hfrest
    refine ⟨h1.symm.trans hr.locate, ?_, h3.symm.trans hr.price⟩
    rw [← h2, Entry.buy, hr.side]

/-- Shares are taken from a live order. -/
theorem passage_reduce (h : Represents b A) {r : Resolved} {qty : Shares} {e : Entry}
    (h' : Represents b' (A.reduce r.ref qty)) (hk : KeepsNodes b b') (hf : A.find r.ref = some e)
    (hr : Resolves r e) (hle : qty ≤ r.shares) {ev : BookEvent} (hev : ev.taking = some (r, qty)) :
    Passage b b' ev where
  queue := fun locate side price => by
    refine ⟨[], ?_, by simp⟩
    have htake : ev.take = takeFrom r.ref qty.toNat := by
      unfold BookEvent.take
      rw [hev]
      rfl
    rw [restingAt_reduce h h' hk, htake, List.append_nil]
  next_le := hk.next.ge
  le_shares := by simpa [hev] using hle
  rests := by simpa [hev] using (rests_resolved h hf hr).1
  elsewhere := by simpa [hev] using (rests_resolved h hf hr).2

/-- The queue gets an order that rests in it. -/
def joinedBy (b : ReferenceBook) (e : Entry) (locate : UInt16) (side : UInt8) (price : Price) :
    List (RefNode × ℕ) :=
  if e.restsAt locate (side == kBuy) price then [(⟨b.nextNode, e.ref⟩, e.shares.toNat)] else []

/-- After an event, an order with a fresh reference joins. -/
theorem Passage.place {b₁ : ReferenceBook} {ev : BookEvent} (hp : Passage b b₁ ev) (h : Represents b₁ A)
    {e : Entry} (h' : Represents b' (A.place e)) (hnew : ∀ f ∈ A.orders, f.ref ≠ e.ref)
    (ha : AddsNode b₁ b' e.ref) (hnext : b₁.nextNode = b.nextNode) (hshares : 1 ≤ e.shares.toNat)
    (hexec : ev.isExecution = false) (htaken : ∀ locate side price, b₁.restingAt locate side price =
      (b.restingAt locate side price).filterMap ev.take) : Passage b b' ev where
  queue := fun locate side price => by
    refine ⟨joinedBy b₁ e locate side price, ?_, fun x hx => ?_⟩
    · rw [restingAt_place h h' hnew ha, htaken]
      rfl
    · unfold joinedBy at hx
      split at hx
      · rw [List.mem_singleton.mp hx]
        exact ⟨hnext, by rw [ha.next, hnext]; exact Nat.lt_succ_self _, hshares, hexec⟩
      · cases hx
  next_le := by rw [ha.next, hnext]; exact Nat.le_succ _
  le_shares := hp.le_shares
  rests := hp.rests
  elsewhere := hp.elsewhere

theorem take_of_quiet {ev : BookEvent} (hev : ev.taking = none) : ev.take = some := by
  unfold BookEvent.take
  rw [hev]
  rfl

/-- An order with a fresh reference joins. -/
theorem passage_place (h : Represents b A) {e : Entry} (h' : Represents b' (A.place e))
    (hnew : ∀ f ∈ A.orders, f.ref ≠ e.ref) (ha : AddsNode b b' e.ref) (hshares : 1 ≤ e.shares.toNat)
    {ev : BookEvent} (hev : ev.taking = none) (hexec : ev.isExecution = false) : Passage b b' ev := by
  have hsame : Passage b b ev := passage_same h h (.of_eq rfl rfl) hev
  refine hsame.place h h' hnew ha rfl hshares hexec fun locate side price => ?_
  rw [take_of_quiet hev, List.filterMap_some]

/-- The whole order is taken when it is dropped. -/
theorem reduce_shares {e : Entry} (hf : A.find e.ref = some e) : A.reduce e.ref e.shares = A.drop e.ref := by
  have htaken : taken e.shares e.shares = e.shares := by
    unfold taken
    rw [ite_self]
  rw [Book.reduce_eq hf, htaken, sub_self, if_pos rfl]

/-- A reference that is not live is not in the abstract book. -/
theorem absent_of_not_contains (h : Represents b A) {ref : Ref} (hc : ¬ b.orders.contains ref = true) :
    ∀ f ∈ A.orders, f.ref ≠ ref := by
  have hnone : b.orders[ref]? = none := by
    rw [← Option.not_isSome_iff_eq_none, ← Std.TreeMap.contains_eq_isSome_getElem?]
    exact hc
  have hfind : A.find ref = none := by rw [← h.find_eq, hnone]; rfl
  exact Book.find_eq_none.mp hfind

theorem keepsNodes_tick (b : ReferenceBook) : KeepsNodes b b.tick := .of_eq rfl rfl

theorem regular_execute {ref : Ref} {qty : Shares} {o : RefOrder} {locate : UInt16} {ts : ℕ}
    {f : RefCounters → RefCounters} (ho : b.orders[ref]? = some o)
    (h : ((countUnless (b.tick.execute ref qty) f).checkBbo locate ts).counters.overExecute = 0) :
    qty ≤ o.shares := by
  have hcount := execute_counters (b := b.tick) ho qty
  rw [(checkBbo_frame _ locate ts).overExecute] at h
  unfold countUnless at h
  rw [if_pos hcount.1, hcount.2.2] at h
  by_contra hlt
  rw [if_pos (UInt32.not_le.mp hlt)] at h
  omega

theorem regular_added {locate : UInt16} {ref : Ref} {side : UInt8} {price : Price} {shares : Shares}
    {stock attribution : Bytes} {ts : ℕ}
    (h : (b.addRetained locate ref side price shares stock attribution ts).counters.duplicateAdd = 0) :
    ¬ b.orders.contains ref = true := by
  intro hc
  rw [(addRetained_counters b locate ref side price shares stock attribution ts).1, if_pos hc] at h
  omega

/-- The book after an execution or a partial cancel. -/
theorem passage_execute (h : Represents b A) {b' : ReferenceBook} {ref : Ref} {qty : Shares} {locate : UInt16}
    {ts : ℕ} {f : RefCounters → RefCounters}
    (hb' : b' = (countUnless (b.tick.execute ref qty) f).checkBbo locate ts)
    (h' : Represents b' (A.reduce ref qty)) (hover : b'.counters.overExecute = 0) {ev : BookEvent}
    (hev : ∀ r, resolve b ref = some r → ev.taking = some (r, qty))
    (hnone : resolve b ref = none → ev.taking = none) : Passage b b' ev := by
  have hk : KeepsNodes b b' := by
    have hcount : KeepsNodes (b.tick.execute ref qty).2 (countUnless (b.tick.execute ref qty) f) := by
      unfold countUnless
      split <;> exact .of_eq rfl rfl
    rw [hb']
    exact (((keepsNodes_tick b).trans (keepsNodes_execute b.tick ref qty)).trans hcount).trans
      (keepsNodes_checkBbo _ locate ts)
  cases hr : resolve b ref with
  | none =>
    rw [Book.reduce_of_absent (Book.find_eq_none.mp (h.resolve_none hr))] at h'
    exact passage_same h h' hk (hnone hr)
  | some r =>
    obtain ⟨href, e, hf, hres⟩ := h.resolve hr
    have hle : qty ≤ r.shares := by
      obtain ⟨o, ho, hro⟩ := Option.map_eq_some_iff.mp hr
      rw [← hro]
      rw [hb'] at hover
      exact regular_execute ho hover
    rw [← href] at h' hf
    exact passage_reduce h h' hk hf hres hle (hev r hr)

/-- The book after a replacement. -/
theorem passage_replace (cfg : QueueSimConfig) (h : Represents b A) {v : OrderReplace}
    (hreg : Regular b (.orderReplace v)) :
    Passage b (bookAfter b (.orderReplace v)) (eventOf cfg b (.orderReplace v)) := by
  have h' := QueueSim.represents_bookAfter h (.orderReplace v)
  have hdup := hreg.duplicateAdd
  have hbook : bookAfter b (.orderReplace v) = b.tick.onOrderReplace v := rfl
  rw [hbook] at h' hdup ⊢
  unfold onOrderReplace at h' hdup ⊢
  cases hr : resolve b v.oldOrderRef with
  | none =>
    have hnone : b.tick.orders[v.oldOrderRef]? = none := Option.map_eq_none_iff.mp hr
    have hstep : A.step (.orderReplace v) = A := by simp only [Book.step, h.resolve_none hr]
    rw [hstep, hnone] at h'
    rw [hnone]
    refine passage_same h h' (.of_eq rfl rfl) ?_
    simp only [eventOf, hr]
    rfl
  | some r =>
    obtain ⟨href, e, hf, hres⟩ := h.resolve hr
    obtain ⟨o, ho, -⟩ := Option.map_eq_some_iff.mp hr
    have hev : eventOf cfg b (.orderReplace v) = .cancel r r.shares := by
      simp only [eventOf, hr]
      rfl
    have ho' : b.tick.orders[v.oldOrderRef]? = some o := ho
    rw [ho'] at h' hdup ⊢
    rw [hev]
    rw [step_orderReplace hf] at h'
    dsimp only at h' hdup ⊢
    rw [(checkBbo_frame _ _ _).duplicateAdd] at hdup
    -- the old order goes, as a cancel of all its shares
    have htick : Represents b.tick A := h.count _
    have h₁ := htick.remove v.oldOrderRef
    have hk₁ := (keepsNodes_tick b).trans (keepsNodes_remove b.tick v.oldOrderRef)
    have hnew := absent_of_not_contains h₁ (regular_added hdup)
    have hfe : A.find e.ref = some e := by rw [hres.ref, href]; exact hf
    have hreduce : A.drop v.oldOrderRef = A.reduce r.ref r.shares := by
      rw [← href, ← hres.ref, ← hres.shares, reduce_shares hfe]
    rw [hreduce] at h₁
    have hp : Passage b _ (.cancel r r.shares) := passage_reduce h h₁ hk₁ (href ▸ hf) hres (UInt32.le_refl _) rfl
    rw [← hreduce] at h₁
    refine hp.place h₁ h' hnew ((addsNode_addRetained _ _ _ _ _ _ _ _ _).keeps (keepsNodes_checkBbo _ _ _))
      hk₁.next (hreg.shares v.shares rfl) rfl fun locate side price => ?_
    rw [hreduce] at h₁
    exact restingAt_reduce h h₁ hk₁

/-- **What a regular message does to the queues.** -/
theorem passage_on (cfg : QueueSimConfig) (h : Represents b A) {msg : Message} (hreg : Regular b msg) :
    Passage b (bookAfter b msg) (eventOf cfg b msg) := by
  have h' := QueueSim.represents_bookAfter h msg
  have hdup := hreg.duplicateAdd
  have hover := hreg.overExecute
  have hshares := hreg.shares
  have htick : Represents b.tick A := h.count _
  cases msg with
  | systemEvent v =>
    refine passage_same h h' ?_ rfl
    show KeepsNodes b (b.on (.systemEvent v))
    unfold on
    dsimp only
    split <;> exact .of_eq rfl rfl
  | stockTradingAction v => exact passage_same h h' (.of_eq rfl rfl) rfl
  | operationalHalt v => exact passage_same h h' (.of_eq rfl rfl) rfl
  | stockDirectory v => exact passage_same h h' (.of_eq rfl rfl) rfl
  | brokenTrade v => exact passage_same h h' (.of_eq rfl rfl) rfl
  | crossTrade v => exact passage_same h h' (.of_eq rfl rfl) rfl
  | trade v =>
    refine passage_same h h' (.of_eq rfl rfl) ?_
    unfold eventOf
    dsimp only
    split <;> rfl
  | addOrder v =>
    have hnew := absent_of_not_contains htick (regular_added hdup)
    exact passage_place h (e := Book.added v []) h' hnew
      ((keepsNodes_tick b).adds (addsNode_addRetained _ _ _ _ _ _ _ _ _))
      (hshares v.shares rfl) rfl rfl
  | addOrderMpid v =>
    have hnew := absent_of_not_contains htick (regular_added hdup)
    exact passage_place h (e := Book.added v.toAddOrder v.attribution) h' hnew
      ((keepsNodes_tick b).adds (addsNode_addRetained _ _ _ _ _ _ _ _ _))
      (hshares v.shares rfl) rfl rfl
  | orderExecuted v =>
    refine passage_execute h rfl h' hover (fun r hr => ?_) fun hr => ?_
    · simp only [eventOf, hr]
      rfl
    · simp only [eventOf, hr]
      rfl
  | orderExecutedPrice v =>
    refine passage_execute h rfl h' hover (fun r hr => ?_) fun hr => ?_
    · simp only [eventOf, hr]
      rfl
    · simp only [eventOf, hr]
      rfl
  | orderCancel v =>
    refine passage_execute h rfl h' hover (fun r hr => ?_) fun hr => ?_
    · simp only [eventOf, hr]
      rfl
    · simp only [eventOf, hr]
      rfl
  | orderDelete v =>
    have hk : KeepsNodes b (bookAfter b (.orderDelete v)) := by
      show KeepsNodes b ((countUnless (b.tick.remove v.orderRef) _).checkBbo _ _)
      refine KeepsNodes.trans ?_ (keepsNodes_checkBbo _ _ _)
      have hremove : KeepsNodes b (b.tick.remove v.orderRef).2 :=
        (keepsNodes_tick b).trans (keepsNodes_remove b.tick v.orderRef)
      refine hremove.trans ?_
      unfold countUnless
      split <;> exact .of_eq rfl rfl
    cases hr : resolve b v.orderRef with
    | none =>
      have hdrop : A.step (.orderDelete v) = A :=
        Book.drop_of_absent (Book.find_eq_none.mp (h.resolve_none hr))
      rw [hdrop] at h'
      refine passage_same h h' hk ?_
      simp only [eventOf, hr]
      rfl
    | some r =>
      obtain ⟨href, e, hf, hres⟩ := h.resolve hr
      rw [← href] at hf
      have hreduce : A.step (.orderDelete v) = A.reduce r.ref r.shares := by
        rw [← hres.ref, ← hres.shares, reduce_shares (by rw [hres.ref]; exact hf), hres.ref, href]
        rfl
      rw [hreduce] at h'
      refine passage_reduce h h' hk hf hres (UInt32.le_refl _) ?_
      simp only [eventOf, hr]
      rfl
  | orderReplace v => exact passage_replace cfg h hreg

end

end Carteret
