import Carteret.FreeList
import Carteret.FastShape
import Carteret.ReferenceRefines

/-!
# The operations of the fast book

1. `Holds x b A slot F`: `b` holds the orders of the abstract book `A`, the index maps their references to
   their slots, and the level totals are exact when `x` is true.
2. One lemma for each operation, then `Rep.on`: a message does what `Book.step` says or is refused, and the
   capacity counters say which.
3. `leaks` are the adds after which the totals need no longer be exact.
-/

namespace Carteret

open IntrusiveList

namespace FastBook

variable {P : HashPolicy} {W : Window} {b b' : FastBook P W} {A : Book} {slot : Ref → UInt32}
  {F : List UInt32} {i : UInt32} {e : Entry} {ref : Ref} {locate : UInt16} {price : Price} {x : Bool}

/-- What the book has room for: slots that 32 bits can name beside `kNoOrder`, and half of the index. -/
def limits (b : FastBook P W) : Limits where
  symbols := b.cfg.maxSymbols
  slots := min b.cfg.maxOrders (2 ^ 32 - 1)
  entries := b.index.capacity / 2

/-- The capacity counters. -/
def failures (b : FastBook P W) : Refusal → ℕ
  | .symbol => b.counters.symbolOverflow
  | .pool => b.counters.poolExhausted
  | .index => b.counters.indexFailures

/-- The counters after a message that fails for `why`. -/
def bump (n : Refusal → ℕ) (why : Option Refusal) : Refusal → ℕ :=
  fun r => if why = some r then n r + 1 else n r

/-- The limits and the capacity counters stay. -/
structure Quiet (b b' : FastBook P W) : Prop where
  limits_eq : b'.limits = b.limits
  failures_eq : b'.failures = b.failures

theorem Quiet.refl (b : FastBook P W) : Quiet b b := ⟨rfl, rfl⟩

theorem Quiet.trans {b'' : FastBook P W} (h : Quiet b b') (h' : Quiet b' b'') : Quiet b b'' :=
  ⟨h'.limits_eq.trans h.limits_eq, h'.failures_eq.trans h.failures_eq⟩

theorem Quiet.of_eq (hcfg : b'.cfg = b.cfg) (hcap : b'.index.capacity = b.index.capacity)
    (h1 : b'.counters.symbolOverflow = b.counters.symbolOverflow)
    (h2 : b'.counters.poolExhausted = b.counters.poolExhausted)
    (h3 : b'.counters.indexFailures = b.counters.indexFailures) : Quiet b b' := by
  refine ⟨by unfold limits; rw [hcfg, hcap], ?_⟩
  funext r
  cases r
  · exact h1
  · exact h2
  · exact h3

/-! ## The invariant -/

structure Holds (x : Bool) (b : FastBook P W) (A : Book) (slot : Ref → UInt32) (F : List UInt32) :
    Prop where
  core : Core b A slot F
  index : b.index.Represents slot
  live_iff : ∀ ref, slot ref ≠ kNoOrder ↔ ∃ e ∈ A.orders, e.ref = ref
  exact_of : x = true → Exact b A

/-- The fast book stands for the abstract book. -/
def Rep (x : Bool) (b : FastBook P W) (A : Book) : Prop := ∃ slot F, Holds x b A slot F

namespace Holds

theorem slot_eq (h : Holds x b A slot F) (hn : A.find ref = none) : slot ref = kNoOrder := by
  by_contra hne
  obtain ⟨e, he, hr⟩ := (h.live_iff ref).mp hne
  exact Book.find_eq_none.mp hn e he hr

theorem slot_ne (h : Holds x b A slot F) (he : A.find ref = some e) : slot ref ≠ kNoOrder :=
  (h.live_iff ref).mpr ⟨e, Book.find_eq_some.mp he⟩

theorem mono (h : Holds x b A slot F) {y : Bool} (hy : y = true → x = true) : Holds y b A slot F :=
  ⟨h.core, h.index, h.live_iff, fun hc => h.exact_of (hy hc)⟩

/-- Counters and the after-hours flag do not matter. -/
theorem congr (h : Holds x b A slot F) (hcfg : b'.cfg = b.cfg) (hindex : b'.index = b.index)
    (hpool : b'.pool = b.pool) (hrefs : b'.refs = b.refs) (hsym : b'.symbols = b.symbols)
    (hfree : b'.freeHead = b.freeHead) : Holds x b' A slot F := by
  refine ⟨h.core.congr hcfg hpool hrefs hsym hfree, by rw [hindex]; exact h.index, h.live_iff,
    fun hx l d q => ?_⟩
  have hlev : b'.levelAt l d q = b.levelAt l d q := by unfold levelAt half; rw [hsym]
  rw [hlev]
  exact h.exact_of hx l d q

theorem count (h : Holds x b A slot F) (f : FastCounters → FastCounters) :
    Holds x (b.count f) A slot F := h.congr rfl rfl rfl rfl rfl rfl

theorem checkBbo (h : Holds x b A slot F) (locate : UInt16) :
    Holds x (b.checkBbo locate) A slot F ∧ Quiet b (b.checkBbo locate) := by
  have hside : ∀ (c : FastBook P W) (side : UInt8), (c.recenterSide locate side).index = c.index ∧
      Quiet c (c.recenterSide locate side) := by
    intro c side
    unfold recenterSide
    split
    · exact ⟨rfl, Quiet.refl c⟩
    · exact ⟨rfl, Quiet.of_eq rfl rfl rfl rfl rfl⟩
  have hmaybe : (b.maybeRecenter locate).index = b.index ∧ Quiet b (b.maybeRecenter locate) := by
    unfold maybeRecenter
    split
    · exact ⟨rfl, Quiet.refl b⟩
    · have h1 := hside b kBuy
      have h2 := hside (b.recenterSide locate kBuy) kSell
      exact ⟨h2.1.trans h1.1, h1.2.trans h2.2⟩
  have hbbo : (b.checkBbo locate).index = b.index ∧ Quiet b (b.checkBbo locate) := by
    unfold FastBook.checkBbo
    dsimp only
    split
    · split_ifs
      · exact ⟨hmaybe.1, hmaybe.2.trans (Quiet.of_eq rfl rfl rfl rfl rfl)⟩
      · exact ⟨hmaybe.1, hmaybe.2.trans (Quiet.of_eq rfl rfl rfl rfl rfl)⟩
      · exact hmaybe
    · exact hmaybe
  obtain ⟨hcore, hexact⟩ := h.core.checkBbo locate
  exact ⟨⟨hcore, by rw [hbbo.1]; exact h.index, h.live_iff, fun hx => hexact (h.exact_of hx)⟩, hbbo.2⟩

/-! ## Counting -/

theorem size_eq (h : Holds x b A slot F) : b.index.size = A.orders.length := by
  rw [h.index.size_eq_length A.unique fun ref => (h.live_iff ref).trans List.mem_map.symm, List.length_map]

/-- The slots are free or hold an order. -/
theorem free_length (h : Holds x b A slot F) : F.length + A.orders.length = b.limits.slots := by
  have hnodup : (F ++ A.orders.map fun e => slot e.ref).Nodup := by
    rw [List.nodup_append]
    refine ⟨h.core.nodup, ?_, fun i hi j hj => ?_⟩
    · refine List.Nodup.map_on (fun e he f hf hs => h.core.slot_inj he hf hs) ?_
      exact List.Nodup.of_map _ A.unique
    · obtain ⟨e, he, rfl⟩ := List.mem_map.mp hj
      rintro rfl
      exact h.core.disjoint e he hi
  have hlen := FreeList.length_add hnodup fun i => by
    rw [← h.core.slots i, List.mem_append, List.mem_map]
  rwa [List.length_map] at hlen

theorem within (h : Holds x b A slot F) : Book.Within b.limits A := by
  refine ⟨?_, ?_, h.core.locate_lt⟩
  · have := h.free_length
    omega
  · rw [← h.size_eq]
    exact h.index.1.size_le

/-! ## The operations -/

/-- A live order is removed from the index, then from its queue. -/
theorem retire {index : OrderIndex P} {y : Bool} (h : Holds y b A slot F) (he : A.find ref = some e)
    (hindex : index.Represents (Function.update slot ref kNoOrder))
    (hx : x = true → ∀ l d q, (b.levelAt l d q).shares = Book.sumShares ((A.drop ref).level l d q)) :
    Holds x ((({ b with index := index } : FastBook P W).unlink (slot ref)).release (slot ref))
      (A.drop ref) (Function.update slot ref kNoOrder) (slot ref :: F) := by
  obtain ⟨hmem, rfl⟩ := Book.find_eq_some.mp he
  have hcore : Core ({ b with index := index } : FastBook P W) A slot F :=
    h.core.congr rfl rfl rfl rfl rfl
  obtain ⟨hcore', hshares, hidx, -, -⟩ := hcore.retire hmem
  refine ⟨hcore'.congr_slot fun f hf => ?_, by rw [hidx]; exact hindex, fun r => ?_, fun hxt l d q => ?_⟩
  · exact Function.update_of_ne (Book.mem_drop.mp hf).2 ..
  · by_cases hr : r = e.ref
    · rw [hr, Function.update_self]
      refine iff_of_false (fun hc => hc rfl) ?_
      rintro ⟨f, hf, hfr⟩
      exact (Book.mem_drop.mp hf).2 hfr
    · rw [Function.update_of_ne hr, h.live_iff]
      simp only [Book.mem_drop]
      constructor
      · rintro ⟨f, hf, rfl⟩; exact ⟨f, ⟨hf, hr⟩, rfl⟩
      · rintro ⟨f, ⟨hf, -⟩, rfl⟩; exact ⟨f, hf, rfl⟩
  · rw [hshares]
    split
    · rename_i hc; rw [hc.2.1]; rfl
    · exact hx hxt l d q

theorem retire_quiet (h : Holds x b A slot F) (he : A.find ref = some e) {index : OrderIndex P}
    (hcap : index.capacity = b.index.capacity) :
    Quiet b ((({ b with index := index } : FastBook P W).unlink (slot ref)).release (slot ref)) := by
  obtain ⟨hmem, rfl⟩ := Book.find_eq_some.mp he
  have hcore : Core ({ b with index := index } : FastBook P W) A slot F :=
    h.core.congr rfl rfl rfl rfl rfl
  obtain ⟨-, -, hidx, hcfg, hcount⟩ := hcore.retire hmem
  refine Quiet.of_eq hcfg (by rw [hidx]; exact hcap) ?_ ?_ ?_ <;> rw [hcount]

end Holds

theorem Rep.eraseRef (h : Rep x b A) (ref : Ref) :
    ∃ r, b.eraseRef ref = some r ∧ r.1 = (A.find ref).isSome ∧ Rep x r.2 (A.drop ref) ∧
      Quiet b r.2 := by
  obtain ⟨slot, F, h⟩ := h
  obtain ⟨index, her, hcap, hindex⟩ := h.index.erase ref
  unfold FastBook.eraseRef
  rw [her, Option.map_some]
  dsimp only
  refine ⟨_, rfl, ?_⟩
  cases hf : A.find ref with
  | none =>
    have hslot := h.slot_eq hf
    rw [if_pos hslot, Book.drop_of_absent (Book.find_eq_none.mp hf)]
    refine ⟨rfl, ⟨slot, F, h.core.congr rfl rfl rfl rfl rfl, ?_, h.live_iff, h.exact_of⟩,
      Quiet.of_eq rfl hcap rfl rfl rfl⟩
    have hsame : Function.update slot ref kNoOrder = slot := by
      rw [← hslot]; exact Function.update_eq_self ref slot
    rwa [hsame] at hindex
  | some e =>
    rw [if_neg (h.slot_ne hf)]
    obtain ⟨hmem, rfl⟩ := Book.find_eq_some.mp hf
    have hst := h.core.stores e hmem
    -- the index does not matter to the level, nor the level to the index
    have hcomm : ({ b with index := index } : FastBook P W).subShares (b.order (slot e.ref))
          (b.order (slot e.ref)).shares =
        { b.subShares (b.order (slot e.ref)) (b.order (slot e.ref)).shares with index := index } := by
      have hlvl : ({ b with index := index } : FastBook P W).mutableLevel (b.order (slot e.ref)) =
          b.mutableLevel (b.order (slot e.ref)) := rfl
      unfold FastBook.subShares
      rw [hlvl]
      cases b.mutableLevel (b.order (slot e.ref)) <;> rfl
    obtain ⟨hcore, hshares⟩ := h.core.subShares hmem hst.locate_eq hst.side_eq hst.price_eq
      (b.order (slot e.ref)).shares
    obtain ⟨hcfg, hidx, hcount, -⟩ := Core.subShares_frame b (b.order (slot e.ref))
      (b.order (slot e.ref)).shares
    have hsub : Holds false (b.subShares (b.order (slot e.ref)) (b.order (slot e.ref)).shares) A slot F :=
      ⟨hcore, by rw [hidx]; exact h.index, h.live_iff, fun hc => by cases hc⟩
    have horder : ({ b with index := index } : FastBook P W).order (slot e.ref) = b.order (slot e.ref) :=
      rfl
    dsimp only
    rw [horder, hcomm]
    have hexact : x = true → ∀ l d q,
        ((b.subShares (b.order (slot e.ref)) (b.order (slot e.ref)).shares).levelAt l d q).shares =
          Book.sumShares ((A.drop e.ref).level l d q) := by
      intro hx l d q
      rw [hshares, Book.sumShares_level_drop hf, h.exact_of hx, hst.shares_eq]
    refine ⟨rfl, ⟨_, _, hsub.retire hf hindex hexact⟩, ?_⟩
    exact (Quiet.of_eq hcfg (by rw [hidx]) (by rw [hcount]) (by rw [hcount]) (by rw [hcount])).trans
      (hsub.retire_quiet hf (by rw [hcap, hidx]))

theorem Rep.checkBbo (h : Rep x b A) (locate : UInt16) :
    Rep x (b.checkBbo locate) A ∧ Quiet b (b.checkBbo locate) := by
  obtain ⟨slot, F, h⟩ := h
  exact ⟨⟨slot, F, (h.checkBbo locate).1⟩, (h.checkBbo locate).2⟩

theorem Rep.count (h : Rep x b A) (f : FastCounters → FastCounters) : Rep x (b.count f) A := by
  obtain ⟨slot, F, h⟩ := h
  exact ⟨slot, F, h.count f⟩

/-- Shares are taken from a live order and its level. -/
theorem Holds.takeShares (h : Holds x b A slot F) (he : A.find ref = some e) {n k : Shares}
    (hk : k.toUInt64 = e.shares.toUInt64 - n.toUInt64) :
    let o := b.order (slot ref)
    let b' := (b.subShares o n).setOrder (slot ref) { o with shares := k }
    Holds x b' (A.setShares ref k) slot F ∧ Quiet b b' := by
  obtain ⟨hmem, rfl⟩ := Book.find_eq_some.mp he
  have hst := h.core.stores e hmem
  obtain ⟨hcore, hshares⟩ := h.core.subShares hmem hst.locate_eq hst.side_eq hst.price_eq n
  obtain ⟨hcfg, hidx, hcount, hpool⟩ := Core.subShares_frame b (b.order (slot e.ref)) n
  have horder : (b.subShares (b.order (slot e.ref)) n).order (slot e.ref) = b.order (slot e.ref) :=
    congrFun hpool _
  have hcore' := hcore.setShares hmem k
  rw [horder] at hcore'
  dsimp only
  refine ⟨⟨hcore', ?_, fun r => ?_, fun hx l d q => ?_⟩, Quiet.of_eq hcfg ?_ ?_ ?_ ?_⟩
  · change (b.subShares (b.order (slot e.ref)) n).index.Represents slot
    rw [hidx]
    exact h.index
  · have hlive : ∀ B : Book, (∃ f ∈ B.orders, f.ref = r) ↔ (B.find r).isSome = true := fun B => by
      rw [Option.isSome_iff_exists]
      simp only [Book.find_eq_some]
    rw [h.live_iff, hlive, hlive, Book.find_setShares, Option.isSome_map]
  · refine (hshares l d q).trans ?_
    rw [Book.sumShares_level_setShares he, h.exact_of hx, hk]
    split
    · grind
    · rfl
  · change (b.subShares (b.order (slot e.ref)) n).index.capacity = _
    rw [hidx]
  · change (b.subShares (b.order (slot e.ref)) n).counters.symbolOverflow = _
    rw [hcount]
  · change (b.subShares (b.order (slot e.ref)) n).counters.poolExhausted = _
    rw [hcount]
  · change (b.subShares (b.order (slot e.ref)) n).counters.indexFailures = _
    rw [hcount]

theorem Rep.reduce (h : Rep x b A) (ref : Ref) (qty : Shares) :
    ∃ r, b.reduce ref qty = some r ∧ r.1 = (A.find ref).isSome ∧ Rep x r.2 (A.reduce ref qty) ∧
      Quiet b r.2 := by
  obtain ⟨slot, F, h⟩ := h
  unfold FastBook.reduce
  rw [h.index.find_eq, Option.bind_some]
  cases hf : A.find ref with
  | none =>
    rw [if_pos (h.slot_eq hf), Book.reduce_of_absent (Book.find_eq_none.mp hf)]
    exact ⟨_, rfl, rfl, ⟨slot, F, h⟩, Quiet.refl b⟩
  | some e =>
    rw [if_neg (h.slot_ne hf), Book.reduce_eq hf]
    have hshares : (b.order (slot ref)).shares = e.shares := by
      obtain ⟨hmem, rfl⟩ := Book.find_eq_some.mp hf
      exact (h.core.stores e hmem).shares_eq
    dsimp only
    rw [hshares]
    -- counting does not matter to what follows
    obtain ⟨b₁, hb₁, h₁, hq₁, ho₁⟩ : ∃ b₁ : FastBook P W, (if qty > e.shares then
        b.count fun c => { c with overExecute := c.overExecute + 1 } else b) = b₁ ∧
          Holds x b₁ A slot F ∧ Quiet b b₁ ∧ b.order (slot ref) = b₁.order (slot ref) := by
      refine ⟨_, rfl, ?_⟩
      split
      · exact ⟨h.count _, Quiet.of_eq rfl rfl rfl rfl rfl, rfl⟩
      · exact ⟨h, Quiet.refl b, rfl⟩
    rw [hb₁, ho₁]
    obtain ⟨h₂, hq₂⟩ := h₁.takeShares hf (ReferenceBook.toUInt64_sub_taken qty e.shares)
    by_cases hz : e.shares - taken qty e.shares = 0
    · rw [if_pos hz, if_pos hz]
      rw [hz] at h₂ hq₂ ⊢
      -- nothing is left: the index loses the reference and the queue the order
      have hfind : (A.setShares ref 0).find ref = some { e with shares := 0 } := by
        rw [Book.find_setShares, hf, Option.map_some, if_pos (Book.find_eq_some.mp hf).2]
      obtain ⟨b₃, hb₃, h₃, hq₃⟩ : ∃ b₃, FastBook.count _ (fun c => { c with
          removedAtZero := c.removedAtZero + 1 }) = b₃ ∧ Holds x b₃ (A.setShares ref 0) slot F ∧
            Quiet _ b₃ := ⟨_, rfl, h₂.count _, hq₂.trans (Quiet.of_eq rfl rfl rfl rfl rfl)⟩
      rw [hb₃]
      obtain ⟨index, her, hcap, hindex⟩ := h₃.index.erase ref
      rw [her, Option.map_some]
      have hret := h₃.retire hfind hindex (x := x) fun hx l d q => by
        rw [h₃.exact_of hx, Book.sumShares_level_drop hfind]
        simp
      rw [Book.drop_setShares] at hret
      exact ⟨_, rfl, rfl, ⟨_, _, hret⟩, (hq₁.trans hq₃).trans (h₃.retire_quiet hfind hcap)⟩
    · rw [if_neg hz, if_neg hz]
      exact ⟨_, rfl, rfl, ⟨slot, F, h₂⟩, hq₁.trans hq₂⟩

/-! ## Adds -/

/-- The index refuses the add, and its shares stay behind in a level. -/
def leaksAdd (b : FastBook P W) (locate : UInt16) (ref : Ref) (side : UInt8) (price : Price)
    (shares : Shares) : Bool :=
  decide (locate.toNat < b.cfg.maxSymbols) && b.index.find ref == some kNoOrder &&
    b.freeHead != kNoOrder && decide (b.index.size + 1 > b.index.capacity / 2) && shares != 0 &&
    !(b.side locate side).opensOverflow W price

theorem Holds.live_place {slot : Ref → UInt32} (h : Holds x b A slot F)
    (hnew : ∀ f ∈ A.orders, f.ref ≠ e.ref) (hi : i ≠ kNoOrder) (r : Ref) :
    Function.update slot e.ref i r ≠ kNoOrder ↔ ∃ f ∈ (A.place e).orders, f.ref = r := by
  simp only [Book.mem_place hnew]
  by_cases hr : r = e.ref
  · rw [hr, Function.update_self]
    exact iff_of_true hi ⟨e, .inr rfl, rfl⟩
  · rw [Function.update_of_ne hr, h.live_iff]
    constructor
    · rintro ⟨f, hf, hfr⟩; exact ⟨f, .inl hf, hfr⟩
    · rintro ⟨f, hf | rfl, hfr⟩
      · exact ⟨f, hf, hfr⟩
      · exact absurd hfr.symm hr

/-- An add that leaks nothing has no shares, or its level is new in the map. -/
theorem Holds.opens_of_not_leaksAdd {slot : Ref → UInt32} (h : Holds x b A slot (i :: F))
    (hnew : ∀ f ∈ A.orders, f.ref ≠ e.ref) (hl : e.locate.toNat < b.cfg.maxSymbols)
    (hat : b.index.size = b.index.capacity / 2)
    (hleak : (!b.leaksAdd e.locate e.ref e.side e.price e.shares) = true) :
    e.shares = 0 ∨ (b.side e.locate e.side).opensOverflow W e.price = true := by
  by_contra hno
  push Not at hno
  obtain ⟨hhead, hi0, -⟩ := h.core.free
  have hfind : b.index.find e.ref = some kNoOrder := by
    rw [h.index.find_eq, h.slot_eq (Book.find_eq_none.mpr hnew)]
  unfold leaksAdd at hleak
  rw [decide_eq_true hl, hfind, hhead, decide_eq_true (by omega)] at hleak
  simp [hi0, hno.1, hno.2] at hleak

/-- An order that the full index refuses is taken out again: the level keeps its shares unless there were
none, or the level was new in the map and is gone with the order. -/
theorem Holds.backOut {slot : Ref → UInt32} (h : Holds x b A slot (i :: F))
    (hnew : ∀ f ∈ A.orders, f.ref ≠ e.ref) (hl : e.locate.toNat < b.cfg.maxSymbols)
    (hat : b.index.size = b.index.capacity / 2) {index : OrderIndex P} (hcap : index.capacity = b.index.capacity)
    (hindex : index.Represents slot) :
    let b₁ := ({ b with freeHead := (b.order i).next } : FastBook P W).link i e.locate e.ref e.side
      e.price e.shares
    let b₂ := ({ b₁ with index := index } : FastBook P W).count fun c => { c with
      indexFailures := c.indexFailures + 1 }
    let b' := (b₂.unlink i).release i
    b'.limits = b.limits ∧ b'.failures = bump b.failures (some .index) ∧
      Rep (x && !b.leaksAdd e.locate e.ref e.side e.price e.shares) b' A := by
  intro b₁ b₂ b'
  obtain ⟨hcore, hshares, hhome, hidx, hcfg, hc1, hc2, hc3⟩ := h.core.link hnew hl
  have hcore₂ : Core b₂ (A.place e) (Function.update slot e.ref i) F := hcore.congr rfl rfl rfl rfl rfl
  have hret := hcore₂.retire ((Book.mem_place hnew).mpr (.inr rfl))
  rw [Function.update_self] at hret
  obtain ⟨hcore₃, hshares₃, hidx₃, hcfg₃, hcount₃⟩ := hret
  rw [Book.drop_place hnew] at hcore₃ hshares₃
  refine ⟨?_, ?_, slot, i :: F, ⟨?_, ?_, h.live_iff, fun hx l d q => ?_⟩⟩
  · show b'.limits = b.limits
    unfold limits
    rw [show b'.cfg = b.cfg from hcfg₃.trans hcfg, show b'.index = index from hidx₃, hcap]
  · funext r
    unfold failures bump
    rw [show b'.counters = b₂.counters from hcount₃]
    cases r
    · exact hc3
    · exact hc2
    · exact congrArg (· + 1) hc1
  · exact hcore₃.congr_slot fun f hf => (Function.update_of_ne (hnew f hf) ..).symm
  · rw [show b'.index = index from hidx₃]
    exact hindex
  · obtain ⟨hx, hleak⟩ := (Bool.and_eq_true _ _).mp hx
    refine (hshares₃ l d q).trans ?_
    rw [show (b₂.levelAt l d q).shares = _ from hshares l d q, h.exact_of hx]
    by_cases hr : e.restsAt l d q = true
    · obtain ⟨rfl, rfl, rfl⟩ := Entry.restsAt_iff.mp hr
      rw [if_pos hr]
      rcases h.opens_of_not_leaksAdd hnew hl hat hleak with h0 | hopen
      · split
        · rename_i hc
          rw [hc.2.1]
          rfl
        · rw [h0]; simp
      · rw [side_eq] at hopen
        obtain ⟨hover, hzero⟩ := FastSide.levelFor_of_opensOverflow
          (if e.side = kBuy then kBuy else kSell) hopen
        have hnil : A.level e.locate e.buy e.price = [] := h.core.orders_eq_zero.mp hzero
        have hhome' := hhome.trans hover
        have hout : (b₁.half e.locate e.buy).inWindow W e.price = none := by
          unfold FastSide.home at hhome'
          split at hhome'
          · cases hhome'
          · assumption
        rw [if_pos ⟨hr, hnil, hout⟩, hnil]
        rfl
    · rw [if_neg fun hc => hr hc.1, if_neg hr]

/-- The add of an order whose reference is not live. -/
theorem Holds.addNew (h : Holds x b A slot F) (hnew : ∀ f ∈ A.orders, f.ref ≠ e.ref)
    (hl : e.locate.toNat < b.cfg.maxSymbols) :
    ∃ b', b.addNew e.locate e.ref e.side e.price e.shares = some b' ∧ b'.limits = b.limits ∧
      b'.failures = bump b.failures (A.refusal b.limits e.locate e.ref) ∧
      (A.refusal b.limits e.locate e.ref = none → Rep x b' (A.place e)) ∧
      (A.refusal b.limits e.locate e.ref ≠ none →
        Rep (x && !b.leaksAdd e.locate e.ref e.side e.price e.shares) b' A) := by
  have hfree := h.free_length
  have hsize := h.size_eq
  have hfull := h.index.1.size_le
  have hlocate : ¬ e.locate.toNat ≥ b.limits.symbols := not_le.mpr hl
  unfold FastBook.addNew FastBook.alloc
  cases hF : F with
  | nil =>
    rw [hF] at h hfree
    have hhead : b.freeHead = kNoOrder := h.core.free.eq_nil_iff.mpr rfl
    have hrefusal : A.refusal b.limits e.locate e.ref = some .pool := by
      unfold Book.refusal
      rw [if_neg hlocate, Book.drop_of_absent hnew, if_pos]
      simp only [List.length_nil] at hfree
      omega
    rw [if_pos hhead]
    dsimp only
    rw [if_pos rfl, hrefusal]
    refine ⟨_, rfl, rfl, ?_, fun hc => (by cases hc), fun _ => ⟨slot, [], ?_⟩⟩
    · funext r; cases r <;> rfl
    · exact (h.count _).mono fun hy => ((Bool.and_eq_true _ _).mp hy).1
  | cons i F =>
    rw [hF] at h hfree
    have hhead : b.freeHead = i := h.core.free.1
    have hi0 : i ≠ kNoOrder := h.core.free.2.1
    rw [hhead, if_neg hi0]
    dsimp only
    rw [if_neg hi0]
    obtain ⟨hcore, hshares, hhome, hidx, hcfg, hc1, hc2, hc3⟩ := h.core.link hnew hl
    set b₁ := ({ b with freeHead := (b.order i).next } : FastBook P W).link i e.locate e.ref e.side
      e.price e.shares with hb₁
    obtain ⟨ok, index, hins, hcap, hiff, hfail, hok⟩ := h.index.insert e.ref i
    unfold enter
    rw [hidx, hins, Option.map_some]
    dsimp only
    simp only [List.length_cons] at hfree
    have hslots : ¬ A.orders.length ≥ b.limits.slots := by omega
    -- the index takes the order or refuses it
    cases ok with
    | true =>
      have hrefusal : A.refusal b.limits e.locate e.ref = none := by
        unfold Book.refusal
        rw [if_neg hlocate, Book.drop_of_absent hnew, if_neg hslots, if_neg]
        intro hc
        have hc' : b.index.capacity / 2 ≤ A.orders.length := hc
        exact Bool.noConfusion (hiff.mpr (.inr (by omega)))
      rw [if_pos rfl, hrefusal]
      have hnext : Holds x ({ b₁ with index := index } : FastBook P W) (A.place e)
          (Function.update slot e.ref i) F := by
        refine ⟨hcore.congr rfl rfl rfl rfl rfl, hok rfl, h.live_place hnew hi0, fun hx l d q => ?_⟩
        refine (hshares l d q).trans ?_
        rw [Book.sumShares_level_place hnew, h.exact_of hx]
      obtain ⟨hbbo, hquiet⟩ := hnext.checkBbo e.locate
      have hq : Quiet b ({ b₁ with index := index } : FastBook P W) := Quiet.of_eq hcfg hcap hc3 hc2 hc1
      refine ⟨_, rfl, (hq.trans hquiet).limits_eq, (hq.trans hquiet).failures_eq.trans ?_,
        fun _ => ⟨_, _, hbbo⟩, fun hc => absurd rfl hc⟩
      rfl
    | false =>
      have hat : b.index.size = b.index.capacity / 2 := (hiff.mp rfl).resolve_left hi0
      have hrefusal : A.refusal b.limits e.locate e.ref = some .index := by
        unfold Book.refusal
        rw [if_neg hlocate, Book.drop_of_absent hnew, if_neg hslots, if_pos]
        change b.index.capacity / 2 ≤ _
        omega
      rw [if_neg Bool.false_ne_true, hrefusal]
      obtain ⟨hlimits, hfailures, hrep⟩ := h.backOut hnew hl hat hcap (hfail rfl).1
      exact ⟨_, rfl, hlimits, hfailures, fun hc => (by cases hc), fun _ => hrep⟩

theorem Rep.within (h : Rep x b A) : Book.Within b.limits A := by
  obtain ⟨slot, F, h⟩ := h
  exact h.within

/-- A live order with the reference gives way. -/
theorem Rep.supersede (h : Rep x b A) (ref : Ref) :
    ∃ b', b.supersede ref = some b' ∧ Rep x b' (A.drop ref) ∧ Quiet b b' ∧
      (A.find ref = none → b' = b) := by
  obtain ⟨slot, F, h⟩ := h
  unfold FastBook.supersede
  rw [h.index.find_eq, Option.bind_some]
  cases hf : A.find ref with
  | none =>
    rw [if_pos (h.slot_eq hf), Book.drop_of_absent (Book.find_eq_none.mp hf)]
    exact ⟨b, rfl, ⟨slot, F, h⟩, Quiet.refl b, fun _ => rfl⟩
  | some e =>
    rw [if_neg (h.slot_ne hf)]
    have hcount : Rep x (b.count fun c => { c with duplicateAdd := c.duplicateAdd + 1 }) A :=
      ⟨slot, F, h.count _⟩
    obtain ⟨r, her, -, hrep, hquiet⟩ := hcount.eraseRef ref
    rw [her, Option.map_some]
    have hquiet₀ : Quiet b (b.count fun c => { c with duplicateAdd := c.duplicateAdd + 1 }) :=
      Quiet.of_eq rfl rfl rfl rfl rfl
    exact ⟨_, rfl, hrep, hquiet₀.trans hquiet, fun hc => (by cases hc)⟩

/-- **Adds.** The order goes to the back of its level, or the add is refused and the orders stay. -/
theorem Rep.add (h : Rep x b A) (e : Entry) :
    ∃ b', b.add e.locate e.ref e.side e.price e.shares = some b' ∧ b'.limits = b.limits ∧
      b'.failures = bump b.failures (A.refusal b.limits e.locate e.ref) ∧
      (A.refusal b.limits e.locate e.ref = none → Rep x b' (A.place e)) ∧
      (A.refusal b.limits e.locate e.ref ≠ none →
        Rep (x && !b.leaksAdd e.locate e.ref e.side e.price e.shares) b' A) := by
  unfold FastBook.add
  by_cases hl : e.locate.toNat ≥ b.cfg.maxSymbols
  · have hrefusal : A.refusal b.limits e.locate e.ref = some .symbol := if_pos hl
    rw [if_pos hl, hrefusal]
    refine ⟨_, rfl, rfl, ?_, fun hc => (by cases hc), fun _ => ?_⟩
    · funext r; cases r <;> rfl
    · obtain ⟨slot, F, h⟩ := h
      exact ⟨slot, F, (h.count _).mono fun hy => ((Bool.and_eq_true _ _).mp hy).1⟩
  · rw [if_neg hl]
    obtain ⟨b₁, hb₁, h₁, hq₁, hsame⟩ := h.supersede e.ref
    rw [hb₁, Option.bind_some]
    have hnew : ∀ f ∈ (A.drop e.ref).orders, f.ref ≠ e.ref := fun f hf => (Book.mem_drop.mp hf).2
    have hl₁ : e.locate.toNat < b₁.cfg.maxSymbols := by
      have hsym := congrArg Limits.symbols hq₁.limits_eq
      change b₁.cfg.maxSymbols = b.cfg.maxSymbols at hsym
      omega
    have hrefusal : (A.drop e.ref).refusal b₁.limits e.locate e.ref =
        A.refusal b.limits e.locate e.ref := by
      unfold Book.refusal
      rw [hq₁.limits_eq, Book.drop_of_absent hnew]
    obtain ⟨slot, F, h₁⟩ := h₁
    obtain ⟨b', hadd, hlim, hfail, hnone, hsome⟩ := h₁.addNew hnew hl₁
    rw [hrefusal, hq₁.failures_eq] at hfail
    rw [hrefusal] at hnone hsome
    refine ⟨b', hadd, hlim.trans hq₁.limits_eq, hfail, fun hc => ?_, fun hc => ?_⟩
    · rw [← Book.place_drop]
      exact hnone hc
    · -- a live reference makes room, so here there was none
      have hfind : A.find e.ref = none := by
        by_contra hlive
        obtain ⟨f, hf⟩ := Option.ne_none_iff_exists'.mp hlive
        exact hc (h.within.refusal_of_live hf (not_le.mp hl))
      have hrep := hsome hc
      rw [hsame hfind, Book.drop_of_absent (Book.find_eq_none.mp hfind)] at hrep
      exact hrep

/-- What the index and the pool have room for, they take. -/
theorem Rep.leaksAdd_eq_false (h : Rep x b A) {ref : Ref} (side : UInt8) (price : Price)
    (shares : Shares) (hr : A.refusal b.limits locate ref ≠ some .index) :
    b.leaksAdd locate ref side price shares = false := by
  obtain ⟨slot, F, h⟩ := h
  by_contra hne
  rw [Bool.not_eq_false] at hne
  unfold leaksAdd at hne
  simp only [Bool.and_eq_true, decide_eq_true_eq, beq_iff_eq, bne_iff_ne, ne_eq] at hne
  obtain ⟨⟨⟨⟨⟨hl, hfind⟩, hhead⟩, hsize⟩, -⟩, -⟩ := hne
  have hslot : slot ref = kNoOrder := Option.some.inj ((h.index.find_eq ref).symm.trans hfind)
  have hnew : ∀ f ∈ A.orders, f.ref ≠ ref := fun f hf hc =>
    (h.live_iff ref).mpr ⟨f, hf, hc⟩ hslot
  have hF : F ≠ [] := fun hc => hhead (h.core.free.eq_nil_iff.mpr hc)
  have hpos := List.length_pos_iff.mpr hF
  have hfree := h.free_length
  have hcount := h.size_eq
  have hlocate : ¬ locate.toNat ≥ b.limits.symbols := not_le.mpr hl
  refine hr ?_
  unfold Book.refusal
  rw [if_neg hlocate, Book.drop_of_absent hnew, if_neg (by omega), if_pos]
  change b.index.capacity / 2 ≤ _
  omega

/-! ## The handler -/

/-- The message is an add that leaves shares behind. -/
def leaks (b : FastBook P W) : Message → Bool
  | .addOrder v => b.leaksAdd v.locate v.orderRef v.side v.price v.shares
  | .addOrderMpid v => b.leaksAdd v.locate v.orderRef v.side v.price v.shares
  | _ => false

/-- `b'` is `b` after a message. -/
structure Follows (x : Bool) (b b' : FastBook P W) (A : Book) (m : Message) : Prop where
  limits_eq : b'.limits = b.limits
  failures_eq : b'.failures = bump b.failures (A.refused b.limits m)
  done : A.refused b.limits m = none → Rep x b' (A.step m)
  refused : A.refused b.limits m ≠ none → Rep (x && !b.leaks m) b' A

theorem Follows.of_quiet {m : Message} (hq : Quiet b b') (hm : A.refused b.limits m = none)
    (hrep : Rep x b' (A.step m)) : Follows x b b' A m :=
  ⟨hq.limits_eq, by rw [hm, hq.failures_eq]; rfl, fun _ => hrep, fun hc => absurd hm hc⟩

/-- A modify, with the observation of the inside that ends it. -/
theorem Rep.observed {r : Bool × FastBook P W} (h : Rep x r.2 A) (hq : Quiet b r.2)
    (f : FastCounters → FastCounters) (hf : ∀ c : FastBook P W, Quiet c (c.count f)) (locate : UInt16) :
    Rep x ((countUnless r f).checkBbo locate) A ∧ Quiet b ((countUnless r f).checkBbo locate) := by
  have hcount : Rep x (countUnless r f) A ∧ Quiet b (countUnless r f) := by
    unfold countUnless
    split
    · exact ⟨h, hq⟩
    · exact ⟨h.count f, hq.trans (hf r.2)⟩
  obtain ⟨hrep, hquiet⟩ := hcount.1.checkBbo locate
  exact ⟨hrep, hcount.2.trans hquiet⟩

theorem Rep.onOrderReplace (h : Rep x b A) (v : OrderReplace) :
    ∃ b', b.onOrderReplace v = some b' ∧ Rep x b' (A.step (.orderReplace v)) ∧ Quiet b b' := by
  obtain ⟨slot, F, hold⟩ := id h
  unfold FastBook.onOrderReplace
  rw [hold.index.find_eq, Option.bind_some]
  dsimp only [Book.step]
  cases hf : A.find v.oldOrderRef with
  | none =>
    rw [if_pos (hold.slot_eq hf)]
    exact ⟨_, rfl, h.count _, Quiet.of_eq rfl rfl rfl rfl rfl⟩
  | some e =>
    rw [if_neg (hold.slot_ne hf)]
    obtain ⟨hmem, hr⟩ := Book.find_eq_some.mp hf
    have hst := hold.core.stores e hmem
    rw [hr] at hst
    obtain ⟨r, her, -, hrep, hquiet⟩ := h.eraseRef v.oldOrderRef
    dsimp only
    rw [her, Option.bind_some, hst.locate_eq, hst.side_eq]
    obtain ⟨b', hadd, hlim, hfail, hnone, -⟩ := hrep.add (Book.replacement v e)
    have hrefusal : (A.drop v.oldOrderRef).refusal r.2.limits e.locate v.newOrderRef = none := by
      rw [hquiet.limits_eq]
      exact h.within.refusal_eq_none hf (hold.core.locate_lt e hmem) _
    have hadd' : r.2.add e.locate v.newOrderRef e.side v.price v.shares = some b' := hadd
    rw [hadd', Option.map_some]
    obtain ⟨hbbo, hbboq⟩ := (hnone hrefusal).checkBbo e.locate
    have hq : Quiet r.2 b' := ⟨hlim, hfail.trans (by
      change bump _ ((A.drop v.oldOrderRef).refusal r.2.limits e.locate v.newOrderRef) = _
      rw [hrefusal]; rfl)⟩
    exact ⟨_, rfl, hbbo, (hquiet.trans hq).trans hbboq⟩

/-- **One message.** The fast book follows the abstract one, within its limits. -/
theorem Rep.on (h : Rep x b A) (m : Message) : ∃ b', b.on m = some b' ∧ Follows x b b' A m := by
  have htick : Rep x b.tick A := h.count _
  have hqtick : Quiet b b.tick := Quiet.of_eq rfl rfl rfl rfl rfl
  have hself : ∀ m : Message, A.refused b.limits m = none → A.step m = A → Follows x b b.tick A m :=
    fun m hm hs => Follows.of_quiet hqtick hm (by rw [hs]; exact htick)
  have hadd : ∀ (e : Entry) (m : Message), A.refused b.limits m = A.refusal b.limits e.locate e.ref →
      A.step m = A.place e → b.leaks m = b.leaksAdd e.locate e.ref e.side e.price e.shares →
        ∃ b', b.tick.add e.locate e.ref e.side e.price e.shares = some b' ∧ Follows x b b' A m := by
    intro e m hr hs hk
    obtain ⟨b', hadd, hlim, hfail, hnone, hsome⟩ := htick.add e
    refine ⟨b', hadd, hlim, by rw [hr]; exact hfail, fun hc => ?_, fun hc => ?_⟩
    · rw [hs]; exact hnone (hr ▸ hc)
    · rw [hk]; exact hsome (hr ▸ hc)
  have hreduce : ∀ (ref : Ref) (qty : Shares) (locate : UInt16) (f : FastCounters → FastCounters),
      (∀ c : FastBook P W, Quiet c (c.count f)) → ∃ b', (b.tick.reduce ref qty).map (fun r =>
        (countUnless r f).checkBbo locate) = some b' ∧ Rep x b' (A.reduce ref qty) ∧ Quiet b b' := by
    intro ref qty locate f hf
    obtain ⟨r, hred, -, hrep, hq⟩ := htick.reduce ref qty
    rw [hred, Option.map_some]
    exact ⟨_, rfl, hrep.observed (hqtick.trans hq) f hf locate⟩
  cases m with
  | systemEvent v =>
    refine ⟨_, rfl, ?_⟩
    split
    · obtain ⟨slot, F, hold⟩ := h
      exact Follows.of_quiet (Quiet.of_eq rfl rfl rfl rfl rfl) rfl
        ⟨slot, F, hold.congr rfl rfl rfl rfl rfl rfl⟩
    · exact Follows.of_quiet (Quiet.refl b) rfl h
  | stockTradingAction v => exact ⟨b, rfl, Follows.of_quiet (Quiet.refl b) rfl h⟩
  | operationalHalt v => exact ⟨b, rfl, Follows.of_quiet (Quiet.refl b) rfl h⟩
  | stockDirectory v => exact ⟨b, rfl, Follows.of_quiet (Quiet.refl b) rfl h⟩
  | addOrder v => exact hadd (Book.added v []) (.addOrder v) rfl rfl rfl
  | addOrderMpid v =>
    exact hadd (Book.added v.toAddOrder v.attribution) (.addOrderMpid v) rfl rfl rfl
  | orderExecuted v =>
    obtain ⟨b', hb, hrep, hq⟩ := hreduce v.orderRef v.executedShares v.locate
      (fun c => { c with orphanExecute := c.orphanExecute + 1 }) fun c => Quiet.of_eq rfl rfl rfl rfl rfl
    exact ⟨b', hb, Follows.of_quiet hq rfl hrep⟩
  | orderExecutedPrice v =>
    obtain ⟨b', hb, hrep, hq⟩ := hreduce v.orderRef v.executedShares v.locate
      (fun c => { c with orphanExecutePrice := c.orphanExecutePrice + 1 }) fun c => Quiet.of_eq rfl rfl rfl rfl rfl
    exact ⟨b', hb, Follows.of_quiet hq rfl hrep⟩
  | orderCancel v =>
    obtain ⟨b', hb, hrep, hq⟩ := hreduce v.orderRef v.cancelledShares v.locate
      (fun c => { c with orphanCancel := c.orphanCancel + 1 }) fun c => Quiet.of_eq rfl rfl rfl rfl rfl
    exact ⟨b', hb, Follows.of_quiet hq rfl hrep⟩
  | orderDelete v =>
    obtain ⟨r, her, -, hrep, hq⟩ := htick.eraseRef v.orderRef
    obtain ⟨hrep', hq'⟩ := hrep.observed (hqtick.trans hq)
      (fun c => { c with orphanDelete := c.orphanDelete + 1 })
      (fun c => Quiet.of_eq rfl rfl rfl rfl rfl) v.locate
    refine ⟨_, ?_, Follows.of_quiet hq' rfl hrep'⟩
    unfold FastBook.on
    dsimp only
    rw [her, Option.map_some]
  | orderReplace v =>
    obtain ⟨b', hb, hrep, hq⟩ := htick.onOrderReplace v
    exact ⟨b', hb, Follows.of_quiet (hqtick.trans hq) rfl hrep⟩
  | trade v => exact ⟨_, rfl, hself (.trade v) rfl rfl⟩
  | brokenTrade v => exact ⟨_, rfl, hself (.brokenTrade v) rfl rfl⟩
  | crossTrade v =>
    refine ⟨_, rfl, ?_⟩
    split
    · exact Follows.of_quiet (Quiet.of_eq rfl rfl rfl rfl rfl) rfl (htick.count _)
    · exact hself (.crossTrade v) rfl rfl

end FastBook

end Carteret
