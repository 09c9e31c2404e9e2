import Carteret.Lib.SelfDelimiting
import Carteret.ReferenceBook
import Carteret.Sha256

/-!
# Determinism

Two hashes of a replay: over the effects that the book applied, in order, and over the final book.

1. A hash is fed fixed-width values (`Update`); `fed` is the stream of octets.
2. `EventStreamHash`: each effect is a record of updates, and its kind comes first.
3. `DeterministicReplay` drives a reference book and hashes the effects as it goes.
4. `hashBook` walks the book: ascending locates, bids then asks, ascending prices, first-in first-out in a level.
5. The stream of octets tells the effects (`events_of_octets`).
-/

namespace Carteret

/-! ## Updates -/

namespace Sha256

/-- A call of `update_u64`, `update_u32` or `update_u8`. -/
inductive Update
  | u64 (v : UInt64)
  | u32 (v : UInt32)
  | u8 (v : UInt8)

def apply (s : Sha256) : Update → Sha256
  | .u64 v => s.updateU64 v
  | .u32 v => s.updateU32 v
  | .u8 v => s.updateU8 v

def Update.octets : Update → List UInt8
  | .u64 v => BigEndian.bytes 8 v.toNat
  | .u32 v => BigEndian.bytes 4 v.toNat
  | .u8 v => [v]

/-- The octets that some updates feed to the hash. -/
def fed (us : List Update) : List UInt8 := us.flatMap Update.octets

theorem fed_append (us us' : List Update) : fed (us ++ us') = fed us ++ fed us' := List.flatMap_append

theorem fed_cons (u : Update) (us : List Update) : fed (u :: us) = u.octets ++ fed us := rfl

theorem fed_flatMap {α : Type*} (as : List α) (f : α → List Update) :
    fed (as.flatMap f) = as.flatMap fun a => fed (f a) := List.flatMap_assoc

/-- **What the hash is fed.** -/
theorem Absorbed.feed {s : Sha256} {m : List UInt8} (h : Absorbed s m) (us : List Update) :
    Absorbed (us.foldl apply s) (m ++ fed us) := by
  induction us generalizing s m with
  | nil => rwa [show fed [] = [] from rfl, List.append_nil]
  | cons u us ih =>
    have hstep : Absorbed (s.apply u) (m ++ u.octets) := by
      cases u with
      | u64 v =>
        rw [Update.octets, ← octets64]
        exact h.update _
      | u32 v =>
        rw [Update.octets, ← octets32]
        exact h.update _
      | u8 v => exact h.update [v]
    rw [fed_cons, ← List.append_assoc]
    exact ih hstep

section

variable {us us' : List Update} {x x' : List UInt8}

theorem bytes_append_iff {n v v' : ℕ} (hv : v < 256 ^ n) (hv' : v' < 256 ^ n) :
    BigEndian.bytes n v ++ x = BigEndian.bytes n v' ++ x' ↔ v = v' ∧ x = x' := by
  constructor
  · intro h
    obtain ⟨hbytes, hx⟩ := List.append_inj h (by rw [BigEndian.length_bytes, BigEndian.length_bytes])
    refine ⟨?_, hx⟩
    rw [← BigEndian.value_bytes n v hv, hbytes, BigEndian.value_bytes n v' hv']
  · rintro ⟨rfl, rfl⟩
    rfl

/-- The first value is told, and the rest is left. -/
@[simp] theorem fed_u64_inj {v v' : UInt64} :
    fed (.u64 v :: us) ++ x = fed (.u64 v' :: us') ++ x' ↔ v = v' ∧ fed us ++ x = fed us' ++ x' := by
  rw [fed_cons, fed_cons, List.append_assoc, List.append_assoc, ← UInt64.toNat_inj]
  exact bytes_append_iff v.toNat_lt v'.toNat_lt

@[simp] theorem fed_u32_inj {v v' : UInt32} :
    fed (.u32 v :: us) ++ x = fed (.u32 v' :: us') ++ x' ↔ v = v' ∧ fed us ++ x = fed us' ++ x' := by
  rw [fed_cons, fed_cons, List.append_assoc, List.append_assoc, ← UInt32.toNat_inj]
  exact bytes_append_iff v.toNat_lt v'.toNat_lt

@[simp] theorem fed_u8_inj {v v' : UInt8} :
    fed (.u8 v :: us) ++ x = fed (.u8 v' :: us') ++ x' ↔ v = v' ∧ fed us ++ x = fed us' ++ x' := List.cons_eq_cons

end

end Sha256

open Sha256 (Update fed)

/-! ## The event stream -/

/-- What distinguishes effects that share a layout. -/
inductive Effect
  | add
  | execute
  | executeWithPrice
  | cancel
  | delete
  | replace
  | trade
  | cross
  | broken
  | systemEvent
  deriving DecidableEq

def Effect.code : Effect → UInt8
  | .add => 1
  | .execute => 2
  | .executeWithPrice => 3
  | .cancel => 4
  | .delete => 5
  | .replace => 6
  | .trade => 7
  | .cross => 8
  | .broken => 9
  | .systemEvent => 10

/-- A call of the event stream's hash. -/
inductive Event
  | add (ts : UInt64) (locate : UInt16) (ref : Ref) (side : UInt8) (price : Price) (shares : Shares)
  | reduce (e : Effect) (ts : UInt64) (locate : UInt16) (ref : Ref) (qty : Shares)
  | remove (ts : UInt64) (locate : UInt16) (ref : Ref)
  | replace (ts : UInt64) (locate : UInt16) (oldRef newRef : Ref) (price : Price) (shares : Shares)
  | print (e : Effect) (ts : UInt64) (locate : UInt16) (price : Price) (shares matchNumber : UInt64)
  | systemEvent (ts : UInt64) (code : UInt8)
  deriving DecidableEq

structure EventStreamHash where
  h : Sha256 := .fresh
  n : ℕ := 0

namespace EventStreamHash

def head (e : Effect) (ts : UInt64) (locate : UInt16) : List Update := [.u8 e.code, .u64 ts, .u32 locate.toUInt32]

/-- The updates of an effect. -/
def record : Event → List Update
  | .add ts locate ref side price shares =>
    head .add ts locate ++ [.u64 ref, .u8 side, .u32 price, .u32 shares]
  | .reduce e ts locate ref qty => head e ts locate ++ [.u64 ref, .u32 qty]
  | .remove ts locate ref => head .delete ts locate ++ [.u64 ref]
  | .replace ts locate oldRef newRef price shares =>
    head .replace ts locate ++ [.u64 oldRef, .u64 newRef, .u32 price, .u32 shares]
  | .print e ts locate price shares matchNumber =>
    head e ts locate ++ [.u32 price, .u64 shares, .u64 matchNumber]
  | .systemEvent ts code => head .systemEvent ts 0 ++ [.u8 code]

def feed (s : EventStreamHash) (e : Event) : EventStreamHash where
  h := (record e).foldl Sha256.apply s.h
  n := s.n + 1

/-- The octets of some effects. -/
def octets (es : List Event) : List UInt8 := es.flatMap fun e => fed (record e)

end EventStreamHash

/-! ## The replay -/

structure TradeView extends Trade where
  shares : Shares
  matchNumber : UInt64

structure CrossTradeView extends CrossTrade where
  crossPrice : Price
  matchNumber : UInt64

structure BrokenTradeView extends Header where
  matchNumber : UInt64

/-- A message, with the fields that the replay reads. Only the last kind has no handler. -/
inductive ReplayMessage
  | systemEvent (v : SystemEvent)
  | stockDirectory (v : StockDirectory)
  | addOrder (v : AddOrder)
  | addOrderMpid (v : AddOrderMpid)
  | orderExecuted (v : OrderExecuted)
  | orderExecutedPrice (v : OrderExecutedPrice)
  | orderCancel (v : OrderCancel)
  | orderDelete (v : OrderDelete)
  | orderReplace (v : OrderReplace)
  | trade (v : TradeView)
  | crossTrade (v : CrossTradeView)
  | brokenTrade (v : BrokenTradeView)
  | other

/-- The timestamp of a view. -/
def Header.ts64 (v : Header) : UInt64 := UInt64.ofNat v.ts.toNat

structure DeterministicReplay where
  book : ReferenceBook := {}
  events : EventStreamHash := {}

namespace ReplayMessage

/-- What the book is given. -/
def message : ReplayMessage → Option Message
  | systemEvent v => some (.systemEvent v)
  | stockDirectory v => some (.stockDirectory v)
  | addOrder v => some (.addOrder v)
  | addOrderMpid v => some (.addOrderMpid v)
  | orderExecuted v => some (.orderExecuted v)
  | orderExecutedPrice v => some (.orderExecutedPrice v)
  | orderCancel v => some (.orderCancel v)
  | orderDelete v => some (.orderDelete v)
  | orderReplace v => some (.orderReplace v)
  | trade v => some (.trade v.toTrade)
  | crossTrade v => some (.crossTrade v.toCrossTrade)
  | brokenTrade v => some (.brokenTrade v.toHeader)
  | other => none

/-- The effect that is hashed. -/
def event : ReplayMessage → Option Event
  | systemEvent v => some (.systemEvent v.ts64 v.eventCode)
  | stockDirectory _ => none
  | addOrder v => some (.add v.ts64 v.locate v.orderRef v.side v.price v.shares)
  | addOrderMpid v => some (.add v.ts64 v.locate v.orderRef v.side v.price v.shares)
  | orderExecuted v => some (.reduce .execute v.ts64 v.locate v.orderRef v.executedShares)
  | orderExecutedPrice v => some (.reduce .executeWithPrice v.ts64 v.locate v.orderRef v.executedShares)
  | orderCancel v => some (.reduce .cancel v.ts64 v.locate v.orderRef v.cancelledShares)
  | orderDelete v => some (.remove v.ts64 v.locate v.orderRef)
  | orderReplace v => some (.replace v.ts64 v.locate v.oldOrderRef v.newOrderRef v.price v.shares)
  | trade v => some (.print .trade v.ts64 v.locate v.price v.shares.toUInt64 v.matchNumber)
  | crossTrade v => some (.print .cross v.ts64 v.locate v.crossPrice v.shares v.matchNumber)
  | brokenTrade v => some (.print .broken v.ts64 v.locate 0 0 v.matchNumber)
  | other => none

end ReplayMessage

namespace DeterministicReplay

def on (r : DeterministicReplay) (v : ReplayMessage) : DeterministicReplay where
  book := v.message.elim r.book r.book.on
  events := v.event.elim r.events r.events.feed

/-- The replay of a stream of messages. -/
def run (vs : List ReplayMessage) : DeterministicReplay := Runs.run on {} vs

end DeterministicReplay

/-! ## The book's hash -/

namespace ReferenceBook

/-- The orders of a level, and what remains of each. -/
def queueUpdates (b : ReferenceBook) (fifo : List RefNode) : List Update :=
  fifo.flatMap fun n => [.u64 n.ref, .u32 ((b.order n.ref).elim 0 RefOrder.shares)]

def levelUpdates (b : ReferenceBook) (price : Price) (lvl : RefLevel) : List Update :=
  [.u32 price, .u64 lvl.shares, .u32 lvl.orders] ++ b.queueUpdates lvl.fifo

def sideUpdates (b : ReferenceBook) (side : UInt8) (m : Std.TreeMap Price RefLevel) : List Update :=
  [.u8 side, .u32 (UInt32.ofNat m.size)] ++ m.toList.flatMap fun x => b.levelUpdates x.1 x.2

/-- One pass of the walk over the locates. -/
def symbolUpdates (b : ReferenceBook) (locate : ℕ) : List Update :=
  match b.symbol (UInt16.ofNat locate) with
  | none => []
  | some sym =>
    if sym.bids.isEmpty && sym.asks.isEmpty then []
    else .u32 (UInt32.ofNat locate) :: (b.sideUpdates kBuy sym.bids ++ b.sideUpdates kSell sym.asks)

def bookUpdates (b : ReferenceBook) : List Update := (List.range 0x10000).flatMap b.symbolUpdates

def hashBook (b : ReferenceBook) : Sha256 := b.bookUpdates.foldl Sha256.apply .fresh

/-- The octets that the walk feeds to the hash. -/
def bookOctets (b : ReferenceBook) : List UInt8 := fed b.bookUpdates

end ReferenceBook

/-! ## The streams -/

namespace Event

def effect : Event → Effect
  | add .. => .add
  | reduce e .. => e
  | remove .. => .delete
  | replace .. => .replace
  | print e .. => e
  | systemEvent .. => .systemEvent

/-- The kinds of the two calls that are told one. -/
def Emitted : Event → Prop
  | reduce e .. => e = .execute ∨ e = .executeWithPrice ∨ e = .cancel
  | print e .. => e = .trade ∨ e = .cross ∨ e = .broken
  | _ => True

end Event

theorem ReplayMessage.event_emitted {v : ReplayMessage} {e : Event} (h : v.event = some e) : e.Emitted := by
  cases v <;> simp only [event, Option.some.injEq, reduceCtorEq] at h <;> subst h <;> simp [Event.Emitted]

theorem Effect.code_inj {e e' : Effect} : e.code = e'.code ↔ e = e' := by
  cases e <;> cases e' <;> decide

namespace EventStreamHash

/-- A record tells its effect and what follows it. -/
theorem selfDelimiting_record : SelfDelimiting Event.Emitted fun e => fed (record e) := by
  intro e e' x x' he he' h
  have hhead : ∀ e : Event, ∃ us, record e = .u8 e.effect.code :: us := fun e => by cases e <;> exact ⟨_, rfl⟩
  have hkind : e.effect = e'.effect := by
    obtain ⟨us, hus⟩ := hhead e
    obtain ⟨us', hus'⟩ := hhead e'
    change fed (record e) ++ x = fed (record e') ++ x' at h
    rw [hus, hus', Sha256.fed_u8_inj] at h
    exact Effect.code_inj.mp h.1
  -- records of one effect have the same layout, and are read field by field
  have hlocate : ∀ l l' : UInt16, l.toUInt32 = l'.toUInt32 ↔ l = l' := fun l l' => UInt16.toUInt32_inj
  cases e <;> cases e' <;> simp only [Event.effect, Event.Emitted] at hkind he he' <;>
    simp [record, head, hlocate] at h <;> grind

/-- **The event stream is uniquely decodable.** -/
theorem events_of_octets {es es' : List Event} (hes : ∀ e ∈ es, e.Emitted) (hes' : ∀ e ∈ es', e.Emitted)
    (h : octets es = octets es') : es = es' := by
  refine selfDelimiting_record.flatMap_injective (fun e _ => ?_) hes hes' h
  cases e <;> exact List.cons_ne_nil _ _

theorem absorbed_feed {s : EventStreamHash} {m : List UInt8} (h : s.h.Absorbed m) (e : Event) :
    (s.feed e).h.Absorbed (m ++ fed (record e)) := h.feed (record e)

end EventStreamHash

namespace DeterministicReplay

/-- The effects that the replay hashes. -/
def eventsOf (vs : List ReplayMessage) : List Event := vs.filterMap ReplayMessage.event

/-- The messages that the book is given. -/
def messagesOf (vs : List ReplayMessage) : List Message := vs.filterMap ReplayMessage.message

theorem run_snoc (vs : List ReplayMessage) (v : ReplayMessage) : run (vs ++ [v]) = (run vs).on v :=
  Runs.run_snoc _ _ _

/-- **The replay.** Its book is that of the messages, and its hash is fed the effects. -/
theorem run_spec (vs : List ReplayMessage) :
    (run vs).book = ReferenceBook.run {} (messagesOf vs) ∧
      (run vs).events.h.Absorbed (EventStreamHash.octets (eventsOf vs)) := by
  induction vs using List.reverseRecOn with
  | nil => exact ⟨rfl, Sha256.absorbed_init⟩
  | append_singleton vs v ih =>
    obtain ⟨hbook, hevents⟩ := ih
    rw [run_snoc]
    constructor
    · unfold messagesOf
      rw [List.filterMap_append]
      show v.message.elim (run vs).book (run vs).book.on = _
      rw [hbook]
      cases h : v.message with
      | none =>
        rw [List.filterMap_cons_none h, List.filterMap_nil, List.append_nil]
        rfl
      | some m =>
        rw [List.filterMap_cons_some h, List.filterMap_nil]
        show (ReferenceBook.run {} (messagesOf vs)).on m = Runs.run ReferenceBook.on {} (messagesOf vs ++ [m])
        rw [Runs.run_snoc]
        rfl
    · unfold eventsOf EventStreamHash.octets
      rw [List.filterMap_append, List.flatMap_append]
      show ((v.event.elim (run vs).events (run vs).events.feed).h).Absorbed _
      cases h : v.event with
      | none =>
        rw [List.filterMap_cons_none h, List.filterMap_nil, List.flatMap_nil, List.append_nil]
        exact hevents
      | some e =>
        rw [List.filterMap_cons_some h, List.filterMap_nil, List.flatMap_singleton]
        exact EventStreamHash.absorbed_feed hevents e

theorem eventsOf_emitted (vs : List ReplayMessage) : ∀ e ∈ eventsOf vs, e.Emitted := by
  intro e he
  obtain ⟨v, -, hv⟩ := List.mem_filterMap.mp he
  exact ReplayMessage.event_emitted hv

end DeterministicReplay

theorem ReferenceBook.absorbed_hashBook (b : ReferenceBook) : b.hashBook.Absorbed b.bookOctets := by
  have h := Sha256.absorbed_init.feed b.bookUpdates
  rwa [List.nil_append] at h

end Carteret
