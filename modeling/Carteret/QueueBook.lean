import Carteret.QueueSteps
import Carteret.ReferenceRefines

/-!
# The book under the simulator

1. The simulator's book is the reference book of the messages, so it represents the abstract book of the
   messages (`represents_sim`).
2. What a message does to the list nodes: those that stay keep their order, a new order gets a new one
   (`KeepsNodes`).
3. A message that raises neither `duplicate_add` nor `over_execute` takes shares from one live order, or adds
   one order with a fresh reference, or both (`Passage`).
-/

namespace Carteret

namespace QueueSim

/-! ## The book of a run -/

/-- The messages of a sequence of calls. -/
def messages (es : List SimStep) : List Message :=
  es.filterMap fun e => match e with
    | .message msg => some msg
    | _ => none

/-- The abstract book of a sequence of calls. -/
def bookOf (es : List SimStep) : Book := Runs.run Book.step Book.empty (messages es)

variable {s : QueueSim}

/-- Only messages change the book. -/
theorem sameBook (b : ReferenceBook) : Invariant (fun _ _ => False) fun s => s.book = b where
  clock := fun h hsame => hsame.book.trans h
  message := fun _ hc _ => hc.elim
  settle := fun _ h => h
  sweep := fun _ h => h
  retire := fun _ h => h
  push := fun _ h => h

theorem react_book (s : QueueSim) (ev : BookEvent) : (s.react ev).book = s.book := by
  cases ev <;> rfl

theorem on_book (s : QueueSim) (msg : Message) : (s.on msg).book = bookAfter s.book msg := by
  rw [on_eq]
  have hreact := react_book { s with book := bookAfter s.book msg } (eventOf s.cfg s.book msg)
  cases tickOf msg with
  | none => exact hreact
  | some ts => exact (sameBook _).tick hreact ts

theorem represents_bookAfter {b : ReferenceBook} {A : Book} (h : ReferenceBook.Represents b A)
    (msg : Message) : ReferenceBook.Represents (bookAfter b msg) (A.step msg) := by
  unfold bookAfter
  split
  · exact ReferenceBook.represents_on h msg
  · rename_i hreach
    cases msg <;> first | exact h | exact absurd rfl hreach

theorem represents_step {A : Book} (h : ReferenceBook.Represents s.book A) (e : SimStep) :
    ReferenceBook.Represents (s.step e).book (Runs.run Book.step A (messages [e])) := by
  cases e with
  | message msg =>
    show ReferenceBook.Represents (s.on msg).book (A.step msg)
    rw [on_book]
    exact represents_bookAfter h msg
  | placeDirected locate side ts =>
    have hsame : (s.step (.placeDirected locate side ts)).book = s.book :=
      (sameBook s.book).step rfl fun _ h => by cases h
    rw [hsame]
    exact h
  | cancelSymbol locate => exact h

/-- **The simulator's book is the book of the messages.** -/
theorem represents_sim (P : Platform) (cfg : QueueSimConfig) (es : List SimStep) :
    ReferenceBook.Represents (run P cfg es).book (bookOf es) := by
  unfold run bookOf
  induction es using List.reverseRecOn with
  | nil => exact ReferenceBook.represents_empty
  | append_singleton es e ih =>
    have hsplit : messages (es ++ [e]) = messages es ++ messages [e] := List.filterMap_append
    rw [Runs.run_snoc, hsplit, Runs.run_append]
    exact represents_step ih e

end QueueSim

/-! ## Events -/

theorem step_orderReplace {A : Book} {v : OrderReplace} {e : Entry} (h : A.find v.oldOrderRef = some e) :
    A.step (.orderReplace v) = (A.drop v.oldOrderRef).place (Book.replacement v e) := by
  simp only [Book.step, h]

section

variable {cfg : QueueSimConfig} {b : ReferenceBook} {msg : Message} {r : Resolved} {qty : Shares}
  {ts : UInt64}

theorem elim_quiet {x : Option Resolved} {f : Resolved → BookEvent} {ev : BookEvent} (hev : ev ≠ .quiet)
    (h : x.elim .quiet f = ev) : ∃ r, x = some r ∧ f r = ev := by
  cases x with
  | none => exact absurd h.symm hev
  | some r => exact ⟨r, rfl, h⟩

/-- What is an execution. -/
theorem eventOf_execution (h : eventOf cfg b msg = .execution r qty ts) :
    (∃ v, msg = .orderExecuted v ∧ resolve b v.orderRef = some r ∧ qty = v.executedShares) ∨
      ∃ v, msg = .orderExecutedPrice v ∧ resolve b v.orderRef = some r ∧ qty = v.executedShares := by
  have hev : BookEvent.execution r qty ts ≠ .quiet := by simp
  cases msg with
  | orderExecuted v =>
    obtain ⟨r', hr, hf⟩ := elim_quiet hev h
    obtain ⟨rfl, hqty, -⟩ := BookEvent.execution.inj hf
    exact .inl ⟨v, rfl, hr, hqty.symm⟩
  | orderExecutedPrice v =>
    obtain ⟨r', hr, hf⟩ := elim_quiet hev h
    obtain ⟨rfl, hqty, -⟩ := BookEvent.execution.inj hf
    exact .inr ⟨v, rfl, hr, hqty.symm⟩
  | orderCancel v => obtain ⟨_, _, hf⟩ := elim_quiet hev h; cases hf
  | orderDelete v => obtain ⟨_, _, hf⟩ := elim_quiet hev h; cases hf
  | orderReplace v => obtain ⟨_, _, hf⟩ := elim_quiet hev h; cases hf
  | trade v =>
    simp only [eventOf] at h
    split at h <;> cases h
  | _ => cases h

/-- What is a cancel. -/
theorem eventOf_cancel (h : eventOf cfg b msg = .cancel r qty) :
    (∃ v, msg = .orderCancel v ∧ resolve b v.orderRef = some r ∧ qty = v.cancelledShares) ∨
    (∃ v, msg = .orderDelete v ∧ resolve b v.orderRef = some r ∧ qty = r.shares) ∨
      ∃ v, msg = .orderReplace v ∧ resolve b v.oldOrderRef = some r ∧ qty = r.shares := by
  have hev : BookEvent.cancel r qty ≠ .quiet := by simp
  cases msg with
  | orderCancel v =>
    obtain ⟨r', hr, hf⟩ := elim_quiet hev h
    obtain ⟨rfl, hqty⟩ := BookEvent.cancel.inj hf
    exact .inl ⟨v, rfl, hr, hqty.symm⟩
  | orderDelete v =>
    obtain ⟨r', hr, hf⟩ := elim_quiet hev h
    obtain ⟨rfl, hqty⟩ := BookEvent.cancel.inj hf
    exact .inr (.inl ⟨v, rfl, hr, hqty.symm⟩)
  | orderReplace v =>
    obtain ⟨r', hr, hf⟩ := elim_quiet hev h
    obtain ⟨rfl, hqty⟩ := BookEvent.cancel.inj hf
    exact .inr (.inr ⟨v, rfl, hr, hqty.symm⟩)
  | orderExecuted v => obtain ⟨_, _, hf⟩ := elim_quiet hev h; cases hf
  | orderExecutedPrice v => obtain ⟨_, _, hf⟩ := elim_quiet hev h; cases hf
  | trade v =>
    simp only [eventOf] at h
    split at h <;> cases h
  | _ => cases h

end

namespace ReferenceBook

variable {b : ReferenceBook} {A : Book}

/-- The depth of a level, as the 64-bit counter has it. -/
theorem Represents.depth_shares (h : Represents b A) (locate : UInt16) (side : UInt8) (price : Price) :
    (b.depthAt locate side price).shares = Book.sumShares (A.level locate (side == kBuy) price) := by
  have hlevel := h.level_query locate side price
  have hsame : (b.depthAt locate side price).shares = (b.level locate side price).shares := by
    unfold depthAt level
    cases b.symbol locate with
    | none => rfl
    | some s =>
      simp only
      cases (s.side side)[price]? <;> rfl
  rw [hsame, hlevel]
  exact Book.ofNat_total _

end ReferenceBook

/-- The live order `e`, as the simulator resolves it. -/
structure Resolves (r : Resolved) (e : Entry) : Prop where
  ref : e.ref = r.ref
  locate : e.locate = r.locate
  side : e.side = r.side
  price : e.price = r.price
  shares : e.shares = r.shares

/-- The named order rests in its level. -/
theorem Resolves.restsAt {r : Resolved} {e : Entry} (h : Resolves r e) :
    e.restsAt r.locate (r.side == kBuy) r.price = true :=
  Entry.restsAt_iff.mpr ⟨h.locate, by rw [Entry.buy, h.side], h.price⟩

namespace ReferenceBook

variable {b : ReferenceBook} {A : Book}

/-- What `resolve` finds is a live order. -/
theorem Represents.resolve (h : Represents b A) {ref : Ref} {r : Resolved} (hr : resolve b ref = some r) :
    r.ref = ref ∧ ∃ e, A.find ref = some e ∧ Resolves r e := by
  unfold Carteret.resolve ReferenceBook.order at hr
  obtain ⟨o, ho, rfl⟩ := Option.map_eq_some_iff.mp hr
  exact ⟨rfl, o.entry ref, h.find ho, rfl, rfl, rfl, rfl, rfl⟩

theorem Represents.resolve_none (h : Represents b A) {ref : Ref} (hr : Carteret.resolve b ref = none) :
    A.find ref = none := by
  rw [← h.find_eq]
  exact Option.map_eq_none_iff.mpr (Option.map_eq_none_iff.mp hr)

end ReferenceBook

/-! ## List nodes -/

namespace ReferenceBook

/-- The live orders of `b'` were live in `b`, on the same nodes. -/
structure KeepsNodes (b b' : ReferenceBook) : Prop where
  slot : ∀ (ref : Ref) (o' : RefOrder), b'.orders[ref]? = some o' →
    ∃ o, b.orders[ref]? = some o ∧ o.slot = o'.slot
  next : b'.nextNode = b.nextNode

/-- The order `ref` of `b'` is on a new node; the others were live in `b`, on the same nodes. -/
structure AddsNode (b b' : ReferenceBook) (ref : Ref) : Prop where
  slot_new : ∀ o' : RefOrder, b'.orders[ref]? = some o' → o'.slot = b.nextNode
  slot : ∀ (r : Ref) (o' : RefOrder), r ≠ ref → b'.orders[r]? = some o' →
    ∃ o, b.orders[r]? = some o ∧ o.slot = o'.slot
  next : b'.nextNode = b.nextNode + 1

section

variable {b b' b'' : ReferenceBook} {ref : Ref} {o : RefOrder}

theorem KeepsNodes.of_eq (ho : b'.orders = b.orders) (hn : b'.nextNode = b.nextNode) : KeepsNodes b b' where
  slot := fun ref o' h => ⟨o', by rwa [ho] at h, rfl⟩
  next := hn

theorem KeepsNodes.trans (h : KeepsNodes b b') (h' : KeepsNodes b' b'') : KeepsNodes b b'' where
  slot := fun ref o'' ho'' => by
    obtain ⟨o', ho', hs'⟩ := h'.slot ref o'' ho''
    obtain ⟨o, ho, hs⟩ := h.slot ref o' ho'
    exact ⟨o, ho, hs.trans hs'⟩
  next := h'.next.trans h.next

theorem KeepsNodes.adds (h : KeepsNodes b b') (h' : AddsNode b' b'' ref) : AddsNode b b'' ref where
  slot_new := fun o'' ho'' => (h'.slot_new o'' ho'').trans h.next
  slot := fun r o'' hr ho'' => by
    obtain ⟨o', ho', hs'⟩ := h'.slot r o'' hr ho''
    obtain ⟨o, ho, hs⟩ := h.slot r o' ho'
    exact ⟨o, ho, hs.trans hs'⟩
  next := by rw [h'.next, h.next]

theorem AddsNode.keeps (h : AddsNode b b' ref) (h' : KeepsNodes b' b'') : AddsNode b b'' ref where
  slot_new := fun o'' ho'' => by
    obtain ⟨o', ho', hs'⟩ := h'.slot ref o'' ho''
    exact hs'.symm.trans (h.slot_new o' ho')
  slot := fun r o'' hr ho'' => by
    obtain ⟨o', ho', hs'⟩ := h'.slot r o'' ho''
    obtain ⟨o, ho, hs⟩ := h.slot r o' hr ho'
    exact ⟨o, ho, hs.trans hs'⟩
  next := h'.next.trans h.next

theorem keepsNodes_checkBbo (b : ReferenceBook) (locate : UInt16) (ts : ℕ) :
    KeepsNodes b (b.checkBbo locate ts) :=
  .of_eq (checkBbo_frame b locate ts).orders (checkBbo_frame b locate ts).nextNode

theorem keepsNodes_erase (b : ReferenceBook) (ref : Ref) (o : RefOrder) :
    KeepsNodes b (b.erase ref o) := by
  obtain ⟨symbols, hb⟩ := erase_frame b ref o
  rw [hb]
  refine ⟨fun r o' h => ?_, rfl⟩
  have h' : (b.orders.erase ref)[r]? = some o' := h
  rw [OrderedMap.getElem?_erase_eq] at h'
  split at h'
  · cases h'
  · exact ⟨o', h', rfl⟩

theorem keepsNodes_remove (b : ReferenceBook) (ref : Ref) : KeepsNodes b (b.remove ref).2 := by
  unfold remove
  cases b.orders[ref]? with
  | none => exact .of_eq rfl rfl
  | some o => exact keepsNodes_erase b ref o

/-- Overwriting the shares of a live order. -/
theorem keepsNodes_insert (ho : b.orders[ref]? = some o) {n : Shares}
    (hb : b'.orders = b.orders.insert ref { o with shares := n }) (hn : b'.nextNode = b.nextNode) :
    KeepsNodes b b' where
  slot := fun r o' h => by
    rw [hb, OrderedMap.getElem?_insert_eq] at h
    split at h
    · rename_i hr
      obtain rfl := Option.some.inj h
      exact ⟨o, hr ▸ ho, rfl⟩
    · exact ⟨o', h, rfl⟩
  next := hn

theorem keepsNodes_execute (b : ReferenceBook) (ref : Ref) (qty : Shares) :
    KeepsNodes b (b.execute ref qty).2 := by
  unfold execute
  cases ho : b.orders[ref]? with
  | none => exact .of_eq rfl rfl
  | some o =>
    dsimp only
    generalize hb₁ : (if qty > o.shares then
      b.count fun c => { c with overExecute := c.overExecute + 1 } else b) = b₁
    have h₁ : KeepsNodes b b₁ := by
      rw [← hb₁]
      split <;> exact .of_eq rfl rfl
    have ho₁ : b₁.orders[ref]? = some o := by
      rw [← hb₁]
      split <;> exact ho
    cases b₁.levelOf o with
    | none =>
      refine h₁.trans ⟨fun r o' h => ?_, rfl⟩
      have h' : (b₁.orders.erase ref)[r]? = some o' := h
      rw [OrderedMap.getElem?_erase_eq] at h'
      split at h'
      · cases h'
      · exact ⟨o', h', rfl⟩
    | some lvl =>
      dsimp only
      split
      · refine KeepsNodes.trans ?_ (keepsNodes_erase _ ref _)
        exact h₁.trans (keepsNodes_insert ho₁ rfl rfl)
      · exact h₁.trans (keepsNodes_insert ho₁ rfl rfl)

theorem addsNode_addRetained (b : ReferenceBook) (locate : UInt16) (ref : Ref) (side : UInt8) (price : Price)
    (shares : Shares) (stock attribution : Bytes) (ts : ℕ) :
    AddsNode b (b.addRetained locate ref side price shares stock attribution ts) ref := by
  unfold addRetained
  obtain ⟨b₁, hb₁, h₁, hnone⟩ : ∃ b₁, (if b.orders.contains ref then
      ((b.count fun c => { c with duplicateAdd := c.duplicateAdd + 1 }).remove ref).2 else b) = b₁ ∧
        KeepsNodes b b₁ ∧ b₁.orders[ref]? = none := by
    refine ⟨_, rfl, ?_⟩
    split
    · rename_i hc
      refine ⟨KeepsNodes.trans ?_ (keepsNodes_remove _ ref), ?_⟩
      · exact .of_eq rfl rfl
      unfold remove
      cases ho : (b.count fun c => { c with duplicateAdd := c.duplicateAdd + 1 }).orders[ref]? with
      | none => exact ho
      | some o =>
        obtain ⟨symbols, hb⟩ := erase_frame (b.count fun c => { c with duplicateAdd := c.duplicateAdd + 1 }) ref o
        show (ReferenceBook.erase _ ref o).orders[ref]? = none
        rw [hb]
        dsimp only
        rw [OrderedMap.getElem?_erase_eq, if_pos rfl]
    · rename_i hc
      refine ⟨.of_eq rfl rfl, ?_⟩
      rw [← Option.not_isSome_iff_eq_none, ← Std.TreeMap.contains_eq_isSome_getElem?]
      exact hc
  simp only [hb₁]
  refine h₁.adds (AddsNode.keeps ?_ (keepsNodes_checkBbo _ locate ts))
  refine ⟨fun o' h => ?_, fun r o' hr h => ?_, rfl⟩
  · have h' := (OrderedMap.getElem?_insertIfNew_eq hnone).symm.trans h
    rw [if_pos rfl] at h'
    obtain rfl := Option.some.inj h'
    rfl
  · have h' := (OrderedMap.getElem?_insertIfNew_eq hnone).symm.trans h
    rw [if_neg hr] at h'
    exact ⟨o', h', rfl⟩

/-- A duplicate is counted, and nothing else of interest here. -/
theorem addRetained_counters (b : ReferenceBook) (locate : UInt16) (ref : Ref) (side : UInt8) (price : Price)
    (shares : Shares) (stock attribution : Bytes) (ts : ℕ) :
    (b.addRetained locate ref side price shares stock attribution ts).counters.duplicateAdd =
        b.counters.duplicateAdd + (if b.orders.contains ref then 1 else 0) ∧
      (b.addRetained locate ref side price shares stock attribution ts).counters.overExecute =
        b.counters.overExecute := by
  have hremove : ∀ b : ReferenceBook, (b.remove ref).2.counters = b.counters := by
    intro b
    unfold remove
    cases b.orders[ref]? with
    | none => rfl
    | some o => exact (counters_erase b ref o).1
  unfold addRetained
  obtain ⟨b₁, hb₁, hdup, hover⟩ : ∃ b₁, (if b.orders.contains ref then
      ((b.count fun c => { c with duplicateAdd := c.duplicateAdd + 1 }).remove ref).2 else b) = b₁ ∧
        b₁.counters.duplicateAdd =
          b.counters.duplicateAdd + (if b.orders.contains ref then 1 else 0) ∧
        b₁.counters.overExecute = b.counters.overExecute := by
    refine ⟨_, rfl, ?_⟩
    split
    · rw [hremove]
      exact ⟨rfl, rfl⟩
    · exact ⟨rfl, rfl⟩
  simp only [hb₁]
  rw [(checkBbo_frame _ locate ts).duplicateAdd, (checkBbo_frame _ locate ts).overExecute]
  exact ⟨hdup, hover⟩

/-- Taking more than rests is counted. -/
theorem execute_counters (ho : b.orders[ref]? = some o) (qty : Shares) :
    (b.execute ref qty).1 = true ∧
    (b.execute ref qty).2.counters.duplicateAdd = b.counters.duplicateAdd ∧
      (b.execute ref qty).2.counters.overExecute =
        b.counters.overExecute + if qty > o.shares then 1 else 0 := by
  unfold execute
  rw [ho]
  dsimp only
  by_cases hq : qty > o.shares
  · simp only [if_pos hq]
    split
    · exact ⟨rfl, rfl, rfl⟩
    · split
      · rw [(counters_erase _ ref _).1]
        exact ⟨rfl, rfl, rfl⟩
      · exact ⟨rfl, rfl, rfl⟩
  · simp only [if_neg hq]
    split
    · exact ⟨rfl, rfl, rfl⟩
    · split
      · rw [(counters_erase _ ref _).1]
        exact ⟨rfl, rfl, rfl⟩
      · exact ⟨rfl, rfl, rfl⟩

end

end ReferenceBook

end Carteret
