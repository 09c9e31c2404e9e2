import Carteret.FreeList
import Carteret.OrderLives

/-!
# The age table

`AgeTracker` keeps the time and the remaining shares of each live order in a pool, found through an order index.

1. The data and the operations. A function is `none` when a probe of the index would not end.
2. `Holds`: the table holds the orders of a book, with the times at which they came.
3. One lemma for each operation: `Holds.bucket`, `Holds.erase`, `Holds.reduce`, `Holds.add`.
-/

namespace Carteret

open IntrusiveList

/-- Five ages, and one for an order that the table does not have. -/
def kAgeBuckets : UInt8 := 6

/-- The bucket of an age in nanoseconds. -/
def ageBucket (age : ℕ) : UInt8 :=
  if age < 1000000 then 0
  else if age < 10000000 then 1
  else if age < 100000000 then 2
  else if age < 1000000000 then 3
  else 4

/-- `next` is the link of the free list. -/
structure AgeSlot where
  ts : ℕ := 0
  shares : Shares := 0
  next : UInt32 := kNoOrder
  deriving DecidableEq

/-- `slots` has as many slots as the constructor was given. -/
structure AgeTracker (P : HashPolicy) where
  ix : OrderIndex P
  slots : ℕ → AgeSlot
  free : UInt32

/-- A live order stands once among the orders. -/
theorem Book.perm_drop {A : Book} {ref : Ref} {e : Entry} (h : A.find ref = some e) :
    A.orders.Perm (e :: (A.drop ref).orders) := by
  obtain ⟨he, rfl⟩ := Book.find_eq_some.mp h
  obtain ⟨pre, post, hsplit⟩ := List.append_of_mem he
  have hdrop : (A.drop e.ref).orders = pre ++ post := by
    have hunique := A.unique
    unfold Book.drop
    dsimp only
    rw [hsplit] at hunique ⊢
    exact Book.filter_drop_append hunique
  rw [hdrop, hsplit]
  exact List.perm_middle

namespace AgeTracker

variable {P : HashPolicy}

/-- The constructor. A vector holds less than `2 ^ 59` slots of 16 bytes. -/
def new (P : HashPolicy) (capacity : UInt64) : Option (AgeTracker P) :=
  if capacity.toNat ≥ 2 ^ 59 then none
  else
    (OrderIndex.new P capacity).map fun ix =>
      let s := FreeList.seed (fun (a : AgeSlot) h => { a with next := h }) capacity.toNat (fun _ => {}) kNoOrder
      { ix := ix, slots := s.1, free := s.2 }

def slot (t : AgeTracker P) (s : UInt32) : AgeSlot := t.slots s.toNat

def setSlot (t : AgeTracker P) (s : UInt32) (a : AgeSlot) : AgeTracker P :=
  { t with slots := Function.update t.slots s.toNat a }

def release (t : AgeTracker P) (s : UInt32) : AgeTracker P :=
  { t.setSlot s { t.slot s with next := t.free } with free := s }

def erase (t : AgeTracker P) (ref : Ref) : Option (AgeTracker P) :=
  (t.ix.erase ref).map fun r =>
    let t := { t with ix := r.2 }
    if r.1 ≠ kNoOrder then t.release r.1 else t

def add (t : AgeTracker P) (ref : Ref) (ts : ℕ) (shares : Shares) : Option (AgeTracker P) :=
  (t.erase ref).bind fun t =>
    if t.free = kNoOrder then some t
    else
      let s := t.free
      let t := { t with free := (t.slot s).next }
      let t := t.setSlot s { t.slot s with ts := ts, shares := shares }
      (t.ix.insert ref s).map fun r =>
        let t := { t with ix := r.2 }
        if r.1 then t else t.release s

def bucket (t : AgeTracker P) (ref : Ref) (now : ℕ) : Option UInt8 :=
  (t.ix.find ref).map fun s =>
    if s = kNoOrder then kAgeBuckets - 1
    else
      let then_ := (t.slot s).ts
      ageBucket (if now > then_ then now - then_ else 0)

def reduce (t : AgeTracker P) (ref : Ref) (qty : Shares) : Option (AgeTracker P) :=
  (t.ix.find ref).bind fun s =>
    if s = kNoOrder then some t
    else if qty ≥ (t.slot s).shares then (t.ix.erase ref).map fun r => { t with ix := r.2 }.release s
    else some (t.setSlot s { t.slot s with shares := (t.slot s).shares - qty })

/-! ## The invariant -/

variable {t t' : AgeTracker P} {n : ℕ} {A : Book} {since : Ref → ℕ} {slot : Ref → UInt32} {F : List UInt32}
  {ref : Ref}

/-- Each live order has a slot of its own among `n`, and the free list is the other slots. -/
structure Holds (t : AgeTracker P) (n : ℕ) (A : Book) (since : Ref → ℕ) (slot : Ref → UInt32)
    (F : List UInt32) : Prop where
  index : t.ix.Represents slot
  live_iff : ∀ ref, slot ref ≠ kNoOrder ↔ ref ∈ A.orders.map Entry.ref
  stores : ∀ e ∈ A.orders, (t.slot (slot e.ref)).ts = since e.ref ∧ (t.slot (slot e.ref)).shares = e.shares
  free : Stack (fun i => (t.slot i).next) kNoOrder t.free F
  nodup : (F ++ A.orders.map fun e => slot e.ref).Nodup
  slots : ∀ i, i ∈ F ++ A.orders.map (fun e => slot e.ref) ↔ i ≠ kNoOrder ∧ i.toNat < n
  room : min n (2 ^ 32 - 1) ≤ t.ix.capacity / 2

namespace Holds

theorem slot_ne (h : Holds t n A since slot F) {e : Entry} (he : A.find ref = some e) : slot ref ≠ kNoOrder := by
  obtain ⟨hmem, rfl⟩ := Book.find_eq_some.mp he
  exact (h.live_iff e.ref).mpr (List.mem_map_of_mem hmem)

theorem slot_eq (h : Holds t n A since slot F) (hn : A.find ref = none) : slot ref = kNoOrder := by
  by_contra hne
  obtain ⟨e, he, hr⟩ := List.mem_map.mp ((h.live_iff ref).mp hne)
  exact Book.find_eq_none.mp hn e he hr

theorem free_length (h : Holds t n A since slot F) : F.length + A.orders.length = min n (2 ^ 32 - 1) := by
  have hlen := FreeList.length_add h.nodup h.slots
  rwa [List.length_map] at hlen

/-- **The bucket** of a live order, and of one that is not live. -/
theorem bucket (h : Holds t n A since slot F) (ref : Ref) (now : ℕ) :
    t.bucket ref now =
      some (if (A.find ref).isSome then ageBucket (now - since ref) else kAgeBuckets - 1) := by
  unfold AgeTracker.bucket
  rw [h.index.find_eq, Option.map_some]
  cases hf : A.find ref with
  | none => rw [if_pos (h.slot_eq hf), if_neg (by simp)]
  | some e =>
    obtain ⟨he, rfl⟩ := Book.find_eq_some.mp hf
    have hage : ∀ a, a = since e.ref → (if now > a then now - a else 0) = now - since e.ref := fun a ha => by
      rw [ha]
      split <;> omega
    rw [if_neg (h.slot_ne hf), if_pos (by rfl)]
    dsimp only
    rw [hage _ (h.stores e he).1]

/-- A live order leaves the table. -/
theorem retire (h : Holds t n A since slot F) {e : Entry} (he : A.find ref = some e) {ix : OrderIndex P}
    (hix : ix.Represents (Function.update slot ref kNoOrder)) (hcap : ix.capacity = t.ix.capacity) :
    Holds ({ t with ix := ix }.release (slot ref)) n (A.drop ref) since (Function.update slot ref kNoOrder)
      (slot ref :: F) := by
  obtain ⟨hmem, href⟩ := Book.find_eq_some.mp he
  have hdrop : ∀ f ∈ (A.drop ref).orders, f ∈ A.orders ∧ f.ref ≠ ref := fun f hf => Book.mem_drop.mp hf
  have hmap : ((A.drop ref).orders.map fun f => Function.update slot ref kNoOrder f.ref) =
      (A.drop ref).orders.map fun f => slot f.ref :=
    List.map_congr_left fun f hf => Function.update_of_ne (hdrop f hf).2 _ _
  have hperm : (F ++ A.orders.map fun f => slot f.ref).Perm
      (slot ref :: F ++ (A.drop ref).orders.map fun f => Function.update slot ref kNoOrder f.ref) := by
    rw [hmap, List.cons_append]
    refine ((A.perm_drop he).map fun f => slot f.ref).append_left F |>.trans ?_
    rw [List.map_cons, href]
    exact List.perm_middle
  have hnodup := hperm.nodup_iff.mp h.nodup
  have hother : ∀ i, i ≠ slot ref →
      ({ t with ix := ix }.release (slot ref)).slot i = t.slot i := fun i hi =>
    Function.update_of_ne (fun hc => hi (UInt32.toNat_inj.mp hc)) _ _
  refine ⟨hix, fun r => ?_, fun f hf => ?_, ?_, hnodup, fun i => ?_, hcap ▸ h.room⟩
  · by_cases hr : r = ref
    · rw [hr, Function.update_self]
      refine iff_of_false (fun hc => hc rfl) fun hc => ?_
      obtain ⟨f, hf, hfr⟩ := List.mem_map.mp hc
      exact (hdrop f hf).2 hfr
    · rw [Function.update_of_ne hr, h.live_iff, List.mem_map, List.mem_map]
      exact exists_congr fun f => and_congr_left fun hfr => by
        rw [Book.mem_drop]
        exact (and_iff_left (hfr ▸ hr)).symm
  · obtain ⟨hfA, hfr⟩ := hdrop f hf
    rw [Function.update_of_ne hfr, hother _ fun hc => ?_]
    · exact h.stores f hfA
    · rw [List.cons_append, List.nodup_cons, hmap] at hnodup
      exact hnodup.1 (List.mem_append_right _ (hc ▸ List.mem_map_of_mem hf))
  · refine ⟨rfl, h.slot_ne he, ?_⟩
    have hself : ({ t with ix := ix }.release (slot ref)).slot (slot ref) =
        { t.slot (slot ref) with next := t.free } := Function.update_self _ _ _
    dsimp only
    rw [hself]
    refine h.free.congr fun i hi => congrArg AgeSlot.next (hother i fun hc => ?_)
    rw [List.cons_append, List.nodup_cons] at hnodup
    exact hnodup.1 (List.mem_append_left _ (hc ▸ hi))
  · rw [← hperm.mem_iff, h.slots]

/-- **Removal.** -/
theorem erase (h : Holds t n A since slot F) (ref : Ref) :
    ∃ t' F', t.erase ref = some t' ∧ Holds t' n (A.drop ref) since (Function.update slot ref kNoOrder) F' := by
  obtain ⟨ix, hix, hcap, hrep⟩ := h.index.erase ref
  unfold AgeTracker.erase
  rw [hix, Option.map_some]
  dsimp only
  cases hf : A.find ref with
  | none =>
    have hslot := h.slot_eq hf
    rw [if_neg (not_not.mpr hslot), Book.drop_of_absent (Book.find_eq_none.mp hf)]
    have hsame : Function.update slot ref kNoOrder = slot := by
      rw [← hslot]
      exact Function.update_eq_self ref slot
    rw [hsame] at hrep ⊢
    exact ⟨_, F, rfl, ⟨hrep, h.live_iff, h.stores, h.free, h.nodup, h.slots, hcap ▸ h.room⟩⟩
  | some e =>
    rw [if_pos (h.slot_ne hf)]
    exact ⟨_, _, rfl, h.retire hf hrep hcap⟩

/-- **Reduction.** -/
theorem reduce (h : Holds t n A since slot F) (ref : Ref) (qty : Shares) :
    ∃ t' slot' F', t.reduce ref qty = some t' ∧ Holds t' n (A.reduce ref qty) since slot' F' := by
  unfold AgeTracker.reduce
  rw [h.index.find_eq, Option.bind_some]
  cases hf : A.find ref with
  | none =>
    rw [if_pos (h.slot_eq hf), Book.reduce_of_absent (Book.find_eq_none.mp hf)]
    exact ⟨t, slot, F, rfl, h⟩
  | some e =>
    obtain ⟨he, href⟩ := Book.find_eq_some.mp hf
    have hshares : (t.slot (slot ref)).shares = e.shares := href ▸ (h.stores e he).2
    have hleft := toNat_sub_taken qty e.shares
    rw [if_neg (h.slot_ne hf), Book.reduce_eq hf, hshares]
    by_cases hge : qty ≥ e.shares
    · have hle : e.shares.toNat ≤ qty.toNat := hge
      have hzero : e.shares - taken qty e.shares = 0 := UInt32.toNat_inj.mp (by rw [hleft, UInt32.toNat_zero]; omega)
      obtain ⟨ix, hix, hcap, hrep⟩ := h.index.erase ref
      rw [if_pos hge, if_pos hzero, hix]
      exact ⟨_, _, _, rfl, h.retire hf hrep hcap⟩
    · have hlt : qty.toNat < e.shares.toNat := UInt32.not_le.mp hge
      have hne : ¬ e.shares - taken qty e.shares = 0 := fun hc => by
        rw [hc, UInt32.toNat_zero] at hleft
        omega
      have htaken : taken qty e.shares = qty := if_neg fun hc => hge (UInt32.le_of_lt hc)
      rw [if_neg hge, if_neg hne, htaken]
      refine ⟨_, slot, F, rfl, ?_⟩
      have hother : ∀ i, i ≠ slot ref → ∀ a, (t.setSlot (slot ref) a).slot i = t.slot i := fun i hi _ =>
        Function.update_of_ne (fun hc => hi (UInt32.toNat_inj.mp hc)) _ _
      have hmap : ∀ {β : Type} (g : Entry → β), (∀ f m, g { f with shares := m } = g f) →
          (A.setShares ref (e.shares - qty)).orders.map g = A.orders.map g := fun g hg => by
        unfold Book.setShares
        rw [List.map_map]
        refine List.map_congr_left fun f _ => ?_
        simp only [Function.comp_apply]
        split
        · exact hg f _
        · rfl
      refine ⟨h.index, fun r => ?_, fun f hf' => ?_, ?_, ?_, fun i => ?_, h.room⟩
      · rw [h.live_iff, hmap Entry.ref fun _ _ => rfl]
      · obtain ⟨g, hg, rfl⟩ := List.mem_map.mp hf'
        by_cases hr : g.ref = ref
        · obtain rfl := Book.eq_of_ref_eq hg he (hr.trans href.symm)
          rw [if_pos hr]
          dsimp only
          have hself : (t.setSlot (slot ref) { t.slot (slot ref) with shares := g.shares - qty }).slot (slot g.ref) =
              { t.slot (slot ref) with shares := g.shares - qty } := by
            rw [hr]
            exact Function.update_self _ _ _
          rw [hself, ← hr]
          exact ⟨(h.stores g hg).1, rfl⟩
        · have hne' : slot g.ref ≠ slot ref := fun hc => by
            have hnodup := (List.nodup_append.mp h.nodup).2.1
            have hge' := List.inj_on_of_nodup_map hnodup hg he (by rw [hc, href])
            exact hr (hge' ▸ href)
          rw [if_neg hr, hother _ hne']
          exact h.stores g hg
      · refine h.free.congr fun i hi => ?_
        rw [hother i fun hc => ?_]
        have hlive : slot ref ∈ A.orders.map fun e => slot e.ref := href ▸ List.mem_map_of_mem he
        exact (List.nodup_append.mp h.nodup).2.2 i hi (slot ref) hlive hc
      · rw [hmap (fun e => slot e.ref) fun _ _ => rfl]
        exact h.nodup
      · rw [hmap (fun e => slot e.ref) fun _ _ => rfl]
        exact h.slots i

/-- A new order enters the table in the first free slot. -/
theorem enter {s : UInt32} (h : Holds t n A since slot (s :: F)) {e : Entry} (hnew : A.find e.ref = none) (ts : ℕ)
    {ix : OrderIndex P} (hix : ix.Represents (Function.update slot e.ref s))
    (hcap : ix.capacity = t.ix.capacity) :
    Holds ({ t with ix := ix, free := (t.slot s).next }.setSlot s { t.slot s with ts := ts, shares := e.shares }) n
      (A.place e) (Function.update since e.ref ts) (Function.update slot e.ref s) F := by
  obtain ⟨hfree, hs, hrest⟩ := h.free
  have habsent := Book.find_eq_none.mp hnew
  have horders : (A.place e).orders = A.orders ++ [e] := by
    rw [Book.orders_place, Book.drop_of_absent habsent]
  have hmap : (A.place e).orders.map (fun f => Function.update slot e.ref s f.ref) =
      A.orders.map (fun f => slot f.ref) ++ [s] := by
    rw [horders, List.map_append, List.map_singleton, Function.update_self]
    exact congrArg (· ++ [s]) (List.map_congr_left fun f hf => Function.update_of_ne (habsent f hf) _ _)
  have hperm : (s :: F ++ A.orders.map fun f => slot f.ref).Perm
      (F ++ (A.place e).orders.map fun f => Function.update slot e.ref s f.ref) := by
    rw [hmap, ← List.append_assoc]
    exact (List.perm_append_singleton _ _).symm
  have hnodup := h.nodup
  rw [List.cons_append, List.nodup_cons] at hnodup
  set t' := ({ t with ix := ix, free := (t.slot s).next } : AgeTracker P).setSlot s
    { t.slot s with ts := ts, shares := e.shares } with ht'
  have hself : t'.slot s = { t.slot s with ts := ts, shares := e.shares } := Function.update_self _ _ _
  have hother : ∀ i, i ≠ s → t'.slot i = t.slot i := fun i hi =>
    Function.update_of_ne (fun hc => hi (UInt32.toNat_inj.mp hc)) _ _
  refine ⟨hix, fun r => ?_, fun f hf => ?_, ?_, hperm.nodup_iff.mp h.nodup, fun i => ?_, hcap ▸ h.room⟩
  · rw [horders, List.map_append, List.mem_append, List.map_singleton, List.mem_singleton, ← h.live_iff]
    by_cases hr : r = e.ref
    · rw [hr, Function.update_self]
      exact iff_of_true hs (.inr rfl)
    · rw [Function.update_of_ne hr]
      exact (or_iff_left hr).symm
  · rw [horders, List.mem_append, List.mem_singleton] at hf
    rcases hf with hf | rfl
    · have hne : slot f.ref ≠ s := fun hc =>
        hnodup.1 (List.mem_append_right _ (hc ▸ List.mem_map_of_mem hf))
      rw [Function.update_of_ne (habsent f hf), Function.update_of_ne (habsent f hf), hother _ hne]
      exact h.stores f hf
    · rw [Function.update_self, Function.update_self, hself]
      exact ⟨rfl, rfl⟩
  · refine hrest.congr fun i hi => congrArg AgeSlot.next (hother i fun hc => ?_)
    exact hnodup.1 (List.mem_append_left _ (hc ▸ hi))
  · rw [← hperm.mem_iff, h.slots]

/-- **Addition**, where there is room. -/
theorem add (h : Holds t n A since slot F) (e : Entry) (ts : ℕ)
    (hroom : (A.drop e.ref).orders.length < min n (2 ^ 32 - 1)) :
    ∃ t' slot' F', t.add e.ref ts e.shares = some t' ∧
      Holds t' n (A.place e) (Function.update since e.ref ts) slot' F' := by
  obtain ⟨t₁, F₁, herase, h₁⟩ := h.erase e.ref
  have hlen := h₁.free_length
  obtain ⟨s, F₂, rfl⟩ : ∃ s F₂, F₁ = s :: F₂ :=
    List.exists_cons_of_ne_nil (List.length_pos_iff.mp (by omega))
  obtain ⟨hfree, hs, -⟩ := h₁.free
  obtain ⟨ok, ix, hins, hcap, hok, -, htrue⟩ := h₁.index.insert e.ref s
  have hsize : t₁.ix.size = (A.drop e.ref).orders.length := by
    rw [h₁.index.size_eq_length (A.drop e.ref).unique h₁.live_iff, List.length_map]
  have htrue' : ok = true := by
    refine Bool.not_eq_false ok |>.mp fun hc => ?_
    have hroom' := h₁.room
    rcases hok.mp hc with hc | hc
    · exact hs hc
    · omega
  have henter := h₁.enter (e := e) (by rw [Book.find_drop, if_pos rfl]) ts (htrue htrue') hcap
  rw [Book.place_drop] at henter
  refine ⟨_, _, F₂, ?_, henter⟩
  unfold AgeTracker.add
  rw [herase, Option.bind_some]
  dsimp only
  rw [hfree, if_neg hs]
  change (t₁.ix.insert e.ref s).map _ = _
  rw [hins, Option.map_some]
  dsimp only
  rw [htrue', if_pos rfl]
  rfl

end Holds

/-- A new table is empty. -/
theorem holds_new {capacity : UInt64} (h : new P capacity = some t) :
    Holds t capacity.toNat Book.empty (fun _ => 0) (fun _ => kNoOrder) (FreeList.numbers capacity.toNat) := by
  unfold new at h
  split at h
  · cases h
  · rename_i hlt
    obtain ⟨ix, hix, rfl⟩ := Option.map_eq_some_iff.mp h
    obtain ⟨hvalid, hnone⟩ := OrderIndex.valid_new hix
    have hroom := OrderIndex.new_capacity hix (by omega)
    refine ⟨⟨hvalid, fun key value => iff_of_false (hnone key value) fun hc => hc.1 hc.2.symm⟩, fun r => ?_,
      fun e he => (by cases he), FreeList.seed_stack (fun _ _ => rfl) _ _, ?_, fun i => ?_, by dsimp only; omega⟩
    · exact iff_of_false (fun hc => hc rfl) (by rintro ⟨⟩)
    · change (FreeList.numbers _ ++ []).Nodup
      rw [List.append_nil]
      exact FreeList.nodup_numbers _
    · change i ∈ FreeList.numbers _ ++ [] ↔ _
      rw [List.append_nil, FreeList.mem_numbers]

end AgeTracker

end Carteret
