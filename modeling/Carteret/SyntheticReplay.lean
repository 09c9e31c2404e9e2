import Carteret.Synthetic

/-!
# The order flow of the synthetic session

The writer keeps no book, only the references that it has not deleted or replaced.

1. `Pass`: what one pass does to the references, and its message.
2. `Flow`: the book holds only orders that the writer still names, in round lots. One pass keeps it.
3. A session of such messages counts no duplicate add and no execution of more shares than there are.
4. `replayed`: in a book with room the replay gate can fail for its counts of crossed and locked observations only.
-/

namespace Carteret

/-! ## Regular messages -/

namespace Book

variable {A : Book}

/-- A message that adds no live reference, takes no more shares than there are, and brings shares. -/
def Regular (A : Book) : Message → Prop
  | .addOrder v => A.find v.orderRef = none ∧ v.shares ≠ 0
  | .addOrderMpid v => A.find v.orderRef = none ∧ v.shares ≠ 0
  | .orderExecuted v => ∀ e, A.find v.orderRef = some e → v.executedShares ≤ e.shares
  | .orderExecutedPrice v => ∀ e, A.find v.orderRef = some e → v.executedShares ≤ e.shares
  | .orderCancel v => ∀ e, A.find v.orderRef = some e → v.cancelledShares ≤ e.shares
  | .orderReplace v => (A.drop v.oldOrderRef).find v.newOrderRef = none ∧ v.shares ≠ 0
  | _ => True

theorem Regular.bringsShares {m : Message} (h : A.Regular m) : A.BringsShares m := by
  cases m with
  | addOrder v => exact h.2
  | addOrderMpid v => exact h.2
  | orderReplace v => exact fun _ => h.2
  | _ => trivial

/-- A regular message counts no duplicate and no excess. -/
theorem Regular.counted {m : Message} (h : A.Regular m) (afterHours : Bool) (c : SharedCounters) :
    (A.counted afterHours c m).duplicateAdd = c.duplicateAdd ∧
      (A.counted afterHours c m).overExecute = c.overExecute := by
  have hadd : ∀ (A : Book) (ref : Ref) (c : SharedCounters), A.find ref = none → A.countAdd ref c = c := by
    intro A ref c hf
    unfold countAdd
    rw [hf]
    rfl
  have hreduce : ∀ (ref : Ref) (qty : Shares) (orphan : SharedCounters → SharedCounters),
      (∀ c, (orphan c).duplicateAdd = c.duplicateAdd ∧ (orphan c).overExecute = c.overExecute) →
      (∀ e, A.find ref = some e → qty ≤ e.shares) → ∀ c : SharedCounters,
        (A.countReduce ref qty orphan c).duplicateAdd = c.duplicateAdd ∧
          (A.countReduce ref qty orphan c).overExecute = c.overExecute := by
    intro ref qty orphan horphan hle c
    unfold countReduce
    cases hf : A.find ref with
    | none => exact horphan c
    | some e =>
      dsimp only
      rw [if_neg (UInt32.not_lt.mpr (hle e hf))]
      split_ifs <;> exact ⟨rfl, rfl⟩
  cases m with
  | addOrder v => unfold Book.counted; dsimp only; rw [hadd _ _ _ h.1]; exact ⟨rfl, rfl⟩
  | addOrderMpid v => unfold Book.counted; dsimp only; rw [hadd _ _ _ h.1]; exact ⟨rfl, rfl⟩
  | orderExecuted v =>
    exact hreduce _ _ (fun c => { c with orphanExecute := c.orphanExecute + 1 }) (fun _ => ⟨rfl, rfl⟩) h
      (countTick afterHours c)
  | orderExecutedPrice v =>
    exact hreduce _ _ (fun c => { c with orphanExecutePrice := c.orphanExecutePrice + 1 }) (fun _ => ⟨rfl, rfl⟩) h
      (countTick afterHours c)
  | orderCancel v =>
    exact hreduce _ _ (fun c => { c with orphanCancel := c.orphanCancel + 1 }) (fun _ => ⟨rfl, rfl⟩) h
      (countTick afterHours c)
  | orderDelete v => unfold Book.counted; dsimp only; split_ifs <;> exact ⟨rfl, rfl⟩
  | orderReplace v =>
    unfold Book.counted
    dsimp only
    rw [hadd _ _ _ h.1]
    split_ifs <;> exact ⟨rfl, rfl⟩
  | crossTrade v => unfold Book.counted; dsimp only; split_ifs <;> exact ⟨rfl, rfl⟩
  | systemEvent | stockTradingAction | operationalHalt | stockDirectory | trade | brokenTrade => exact ⟨rfl, rfl⟩

end Book

namespace ReferenceBook

/-- A session of regular messages, in the reference book. -/
theorem regular_counters (code : UInt8) {ms : List Message}
    (h : Runs.Along Book.step Book.Regular Book.empty ms) :
    (run { venueMarketCode := code } ms).counters.duplicateAdd = 0 ∧
      (run { venueMarketCode := code } ms).counters.overExecute = 0 := by
  have hobserve : ∀ (is : List InsideKind) (c : SharedCounters),
      (is.foldl SharedCounters.observe c).duplicateAdd = c.duplicateAdd ∧
        (is.foldl SharedCounters.observe c).overExecute = c.overExecute := by
    intro is
    induction is with
    | nil => exact fun c => ⟨rfl, rfl⟩
    | cons i is ih =>
      intro c
      obtain ⟨hd, ho⟩ := ih (c.observe i)
      cases i <;> exact ⟨hd, ho⟩
  induction ms using List.reverseRecOn with
  | nil => exact ⟨rfl, rfl⟩
  | append_singleton ms m ih =>
    obtain ⟨hms, hm, -⟩ := Runs.along_append.mp h
    obtain ⟨hd, ho⟩ := ih hms
    have hrep := ReferenceBook.represents_venue code ms
    have hrun : run { venueMarketCode := code } (ms ++ [m]) = (run { venueMarketCode := code } ms).on m :=
      Runs.run_snoc _ _ _
    obtain ⟨hcounts, -⟩ := counts_on hrep m
    obtain ⟨hd', ho'⟩ := hobserve _ (Book.counted _ (run { venueMarketCode := code } ms).afterHours _ m)
    obtain ⟨hd'', ho''⟩ := hm.counted (run { venueMarketCode := code } ms).afterHours
      (run { venueMarketCode := code } ms).counters.shared
    rw [hrun]
    exact ⟨((congrArg SharedCounters.duplicateAdd hcounts).trans hd').trans (hd''.trans hd),
      ((congrArg SharedCounters.overExecute hcounts).trans ho').trans (ho''.trans ho)⟩

end ReferenceBook

/-! ## One pass -/

namespace Synthetic

/-- A quantity in round lots, up to ten. -/
def RoundLots (q : Shares) : Prop := 100 ∣ q.toNat ∧ 100 ≤ q.toNat ∧ q.toNat ≤ 1000

/-- One of the three symbols. -/
def Listed (locate : UInt16) : Prop := 1 ≤ locate.toNat ∧ locate.toNat ≤ 3

/-- What a pass does to the references, and the message that it emits. -/
inductive Pass (s s' : State) : Message → Prop
  | add (v : AddOrder) (href : v.orderRef = s.nextRef) (hshares : RoundLots v.shares) (hlocate : Listed v.locate)
      (hnext : s'.nextRef = s.nextRef + 1) (hlive : s'.live.Perm (s.nextRef :: s.live)) : Pass s s' (.addOrder v)
  | execute (v : OrderExecuted) (href : v.orderRef ∈ s.live) (hshares : v.executedShares = 100)
      (hnext : s'.nextRef = s.nextRef) (hlive : s'.live = s.live) : Pass s s' (.orderExecuted v)
  | cancel (v : OrderCancel) (href : v.orderRef ∈ s.live) (hshares : v.cancelledShares = 100)
      (hnext : s'.nextRef = s.nextRef) (hlive : s'.live = s.live) : Pass s s' (.orderCancel v)
  | delete (v : OrderDelete) (href : v.orderRef ∈ s.live) (hnext : s'.nextRef = s.nextRef)
      (hlive : s'.live.Perm (s.live.erase v.orderRef)) : Pass s s' (.orderDelete v)
  | replace (v : OrderReplace) (href : v.oldOrderRef ∈ s.live) (hnew : v.newOrderRef = s.nextRef)
      (hshares : RoundLots v.shares) (hnext : s'.nextRef = s.nextRef + 1)
      (hlive : s'.live.Perm (s.nextRef :: s.live.erase v.oldOrderRef)) : Pass s s' (.orderReplace v)

section

variable {α : Type*} {l : List α} {i : ℕ}

/-- The last element in the place of one that goes. -/
theorem swapRemove_perm (hi : i < l.length) (d : α) : ((l.set i (l.getLast?.getD d)).dropLast).Perm (l.eraseIdx i) := by
  have hne : l ≠ [] := List.ne_nil_of_length_pos (by omega)
  rw [List.getLast?_eq_some_getLast hne, Option.getD_some]
  have hset : l.set i (l.getLast hne) ≠ [] := by simpa using hne
  -- the list still ends with its last element
  have hlast : (l.set i (l.getLast hne)).getLast hset = l.getLast hne := by
    simp only [List.getLast_eq_getElem, List.length_set, List.getElem_set]
    split_ifs <;> rfl
  have hperm := List.set_perm_cons_eraseIdx hi (l.getLast hne)
  rw [← List.dropLast_append_getLast hset, hlast] at hperm
  exact (List.perm_cons _).mp ((List.perm_append_singleton _ _).symm.trans hperm)

end

theorem roundLots_shares (draw : ℕ) : RoundLots (shares draw) := by
  have hlt : 100 * (1 + draw % 10) < 2 ^ 32 := by omega
  have hnat : (shares draw).toNat = 100 * (1 + draw % 10) := UInt32.toNat_ofNat_of_lt' hlt
  unfold RoundLots
  rw [hnat]
  exact ⟨Dvd.intro _ rfl, by omega, by omega⟩

theorem listed_draw (draw : ℕ) : Listed (UInt16.ofNat (1 + draw % 3)) := by
  have hlt : 1 + draw % 3 < 2 ^ 16 := by omega
  unfold Listed
  rw [UInt16.toNat_ofNat_of_lt' hlt]
  omega

theorem pass_step (rng : ℕ → UInt32) (i : UInt64) {s : State} (hnodup : s.live.Nodup) :
    Pass s (step rng i s).1 (stepMessage rng s) := by
  unfold step stepMessage
  dsimp only
  by_cases hadd : (rng (s.pos + 2)).toNat % 100 < 45 ∨ s.live = []
  · rw [if_pos hadd, if_pos hadd]
    exact .add _ rfl (roundLots_shares _) (listed_draw _) rfl
      (List.perm_append_singleton _ _)
  · rw [if_neg hadd, if_neg hadd]
    have hlen : 0 < s.live.length := List.length_pos_iff.mpr fun h => hadd (.inr h)
    have hidx : (rng (s.pos + 3)).toNat % s.live.length < s.live.length := Nat.mod_lt _ hlen
    have hget : s.live.getD ((rng (s.pos + 3)).toNat % s.live.length) 0 =
        s.live[(rng (s.pos + 3)).toNat % s.live.length] := List.getD_eq_getElem _ _ hidx
    have herase := hnodup.erase_getElem _ hidx
    rw [hget]
    split_ifs
    · exact .execute _ (List.getElem_mem hidx) rfl rfl rfl
    · exact .cancel _ (List.getElem_mem hidx) rfl rfl rfl
    · exact .delete _ (List.getElem_mem hidx) rfl (herase ▸ swapRemove_perm hidx 0)
    · exact .replace _ (List.getElem_mem hidx) rfl (roundLots_shares _) rfl
        (herase ▸ List.set_perm_cons_eraseIdx hidx _)

/-! ## The book and the references -/

/-- The references of the writer after `k` passes. -/
structure Names (s : State) (k : ℕ) : Prop where
  next : s.nextRef.toNat ≤ k + 1
  used : ∀ r ∈ s.live, r.toNat < s.nextRef.toNat
  nodup : s.live.Nodup
  length : s.live.length ≤ k

/-- These orders have some of the names, and are round lots of the three symbols. -/
def Held (L : List Ref) (A : Book) : Prop := ∀ e ∈ A.orders, e.ref ∈ L ∧ RoundLots e.shares ∧ Listed e.locate

/-- The book holds only orders that the writer still names. -/
structure Flow (A : Book) (s : State) (k : ℕ) : Prop extends Names s k where
  held : Held s.live A

section

variable {A : Book} {s s' : State} {k : ℕ} {m : Message}

theorem RoundLots.ne_zero {q : Shares} (h : RoundLots q) : q ≠ 0 := by
  rintro rfl
  exact absurd h.2.1 (by decide)

theorem RoundLots.le {q : Shares} (h : RoundLots q) : 100 ≤ q := h.2.1

/-- A hundred shares off a round lot leave a round lot, or nothing. -/
theorem RoundLots.sub {q : Shares} (h : RoundLots q) (hne : q - taken 100 q ≠ 0) : RoundLots (q - taken 100 q) := by
  have hnat : (q - taken 100 q).toNat = q.toNat - 100 := toNat_sub_taken 100 q
  have hpos : (q - taken 100 q).toNat ≠ 0 := fun hc => hne (UInt32.toNat_inj.mp hc)
  obtain ⟨⟨c, hc⟩, hle, hge⟩ := h
  unfold RoundLots
  rw [hnat] at hpos ⊢
  exact ⟨⟨c - 1, by omega⟩, by omega, by omega⟩

/-- A hundred shares less of an order. -/
theorem Held.reduce {L : List Ref} (h : Held L A) (ref : Ref) : Held L (A.reduce ref 100) := by
  intro e' he'
  obtain ⟨e, he, hred⟩ := List.mem_filterMap.mp he'
  rw [Entry.ref_of_reduce hred]
  obtain ⟨hnamed, hlots, hlisted⟩ := h e he
  refine ⟨hnamed, ?_⟩
  unfold Entry.reduce at hred
  split_ifs at hred with href hzero
  · obtain rfl := Option.some.inj hred
    exact ⟨hlots.sub hzero, hlisted⟩
  · obtain rfl := Option.some.inj hred
    exact ⟨hlots, hlisted⟩

/-- The orders that a deletion leaves. -/
theorem Held.drop {L : List Ref} (h : Held L A) (hL : L.Nodup) (ref : Ref) : Held (L.erase ref) (A.drop ref) := by
  intro e he
  obtain ⟨hmem, hne⟩ := Book.mem_drop.mp he
  exact ⟨hL.mem_erase_iff.mpr ⟨hne, (h e hmem).1⟩, (h e hmem).2⟩

/-- A new order. -/
theorem Held.place {L : List Ref} (h : Held L A) {e : Entry} (hnew : e.ref ∉ L) (hshares : RoundLots e.shares)
    (hlocate : Listed e.locate) : Held (e.ref :: L) (A.place e) := by
  intro f hf
  rcases (Book.mem_place fun f hf hc => hnew (hc ▸ (h f hf).1)).mp hf with hf | rfl
  · exact ⟨List.mem_cons_of_mem _ (h f hf).1, (h f hf).2⟩
  · exact ⟨List.mem_cons_self, hshares, hlocate⟩

theorem Held.mono {L L' : List Ref} (h : Held L A) (hL : L ⊆ L') : Held L' A := fun e he => ⟨hL (h e he).1, (h e he).2⟩

theorem Held.find_eq_none {L : List Ref} (h : Held L A) {ref : Ref} (href : ref ∉ L) : A.find ref = none :=
  Book.find_eq_none.mpr fun e he hc => href (hc ▸ (h e he).1)

/-- The next reference is not in use. -/
theorem Names.fresh (h : Names s k) : s.nextRef ∉ s.live := fun hc => Nat.lt_irrefl _ (h.used _ hc)

/-- No new reference. -/
theorem Names.keep (h : Names s k) {L : List Ref} (hL : L.Sublist s.live) (hnext : s'.nextRef = s.nextRef)
    (hlive : s'.live.Perm L) : Names s' (k + 1) where
  next := hnext ▸ h.next.trans (Nat.le_succ _)
  used r hr := hnext ▸ h.used r (hL.subset (hlive.mem_iff.mp hr))
  nodup := hlive.nodup_iff.mpr (h.nodup.sublist hL)
  length := hlive.length_eq ▸ hL.length_le.trans (h.length.trans (Nat.le_succ _))

/-- The next reference, beside some of those in use. -/
theorem Names.push (h : Names s k) (hk : k + 2 < 2 ^ 64) {L : List Ref} (hL : L.Sublist s.live)
    (hnext : s'.nextRef = s.nextRef + 1) (hlive : s'.live.Perm (s.nextRef :: L)) : Names s' (k + 1) := by
  have hnat : (s.nextRef + 1).toNat = s.nextRef.toNat + 1 := by
    have hle := h.next
    rw [UInt64.toNat_add]
    exact Nat.mod_eq_of_lt (by change s.nextRef.toNat + 1 < 2 ^ 64; omega)
  refine ⟨?_, fun r hr => ?_, ?_, ?_⟩
  · rw [hnext, hnat]
    exact Nat.succ_le_succ h.next
  · rw [hnext, hnat]
    rcases List.mem_cons.mp (hlive.mem_iff.mp hr) with rfl | hr
    · exact Nat.lt_succ_self _
    · exact (h.used r (hL.subset hr)).trans (Nat.lt_succ_self _)
  · exact hlive.nodup_iff.mpr (List.nodup_cons.mpr ⟨fun hc => h.fresh (hL.subset hc), h.nodup.sublist hL⟩)
  · rw [hlive.length_eq, List.length_cons]
    exact Nat.succ_le_succ (hL.length_le.trans h.length)

/-- **One pass** of the writer, on a book that hears its message. -/
theorem Flow.step (h : Flow A s k) (hk : k + 2 < 2 ^ 64) (hp : Pass s s' m) :
    Flow (A.step m) s' (k + 1) ∧ A.Regular m := by
  have hreduce : ∀ (ref : Ref) (qty : Shares), qty = 100 → s'.nextRef = s.nextRef → s'.live = s.live →
      Flow (A.reduce ref qty) s' (k + 1) ∧ ∀ e, A.find ref = some e → qty ≤ e.shares := by
    rintro ref _ rfl hnext hlive
    refine ⟨⟨h.keep (List.Sublist.refl _) hnext (hlive ▸ .refl _), hlive ▸ h.held.reduce ref⟩, fun e he => ?_⟩
    exact (h.held e (Book.find_eq_some.mp he).1).2.1.le
  cases hp with
  | add v href hshares hlocate hnext hlive =>
    have hfresh : v.orderRef ∉ s.live := by
      rw [href]
      exact h.fresh
    have hplace := h.held.place (e := Book.added v []) hfresh hshares hlocate
    refine ⟨⟨h.push hk (List.Sublist.refl _) hnext hlive, ?_⟩, h.held.find_eq_none hfresh, hshares.ne_zero⟩
    exact hplace.mono fun r hr => hlive.mem_iff.mpr (href ▸ hr)
  | execute v href hshares hnext hlive => exact hreduce _ _ hshares hnext hlive
  | cancel v href hshares hnext hlive => exact hreduce _ _ hshares hnext hlive
  | delete v href hnext hlive =>
    refine ⟨⟨h.keep List.erase_sublist hnext hlive, ?_⟩, trivial⟩
    exact (h.held.drop h.nodup v.orderRef).mono hlive.symm.subset
  | replace v href hnew hshares hnext hlive =>
    have hnames := h.push hk List.erase_sublist hnext hlive
    have hdrop := h.held.drop h.nodup v.oldOrderRef
    have hfresh : v.newOrderRef ∉ s.live.erase v.oldOrderRef := fun hc => h.fresh (hnew ▸ List.mem_of_mem_erase hc)
    refine ⟨⟨hnames, ?_⟩, hdrop.find_eq_none hfresh, hshares.ne_zero⟩
    unfold Book.step
    dsimp only
    cases hfind : A.find v.oldOrderRef with
    | none =>
      -- an order that is gone is not replaced, and its name is
      rw [Book.drop_of_absent (Book.find_eq_none.mp hfind)] at hdrop
      exact hdrop.mono fun r hr => hlive.mem_iff.mpr (List.mem_cons_of_mem _ hr)
    | some e =>
      have hlisted := (h.held e (Book.find_eq_some.mp hfind).1).2.2
      have hplace := hdrop.place (e := Book.replacement v e) hfresh hshares hlisted
      exact hplace.mono fun r hr => hlive.mem_iff.mpr (hnew ▸ hr)

/-- There are no more orders than names. -/
theorem Held.length_le {L : List Ref} (h : Held L A) : A.orders.length ≤ L.length := by
  have hsub : (A.orders.map Entry.ref).Subperm L := by
    refine List.subperm_of_subset A.unique fun r hr => ?_
    obtain ⟨e, he, rfl⟩ := List.mem_map.mp hr
    exact (h e he).1
  simpa using hsub.length_le

/-- A book with room for the orders of all passes refuses none of them. -/
theorem Flow.not_refused (h : Flow A s k) (hp : Pass s s' m) {L : Limits} (hslots : k < L.slots)
    (hentries : k < L.entries) (hsymbols : 3 < L.symbols) : A.refused L m = none := by
  cases hp with
  | add v href hshares hlocate hnext hlive =>
    have hle : (A.drop v.orderRef).orders.length ≤ k :=
      (List.length_filter_le _ _).trans (h.held.length_le.trans h.length)
    have hlisted := hlocate.2
    show A.refusal L v.locate v.orderRef = none
    unfold Book.refusal
    rw [if_neg (by omega), if_neg (by omega), if_neg (by omega)]
  | execute => rfl
  | cancel => rfl
  | delete => rfl
  | replace => rfl

end

/-! ## The session -/

section

variable (rng : ℕ → UInt32) {n : ℕ} {L : Limits}

/-- What holds of every message of the session. -/
def Welcome (L : Limits) (A : Book) (m : Message) : Prop := A.Regular m ∧ A.refused L m = none

theorem flow_loop (hn : n + 1 < 2 ^ 64) (hslots : n ≤ L.slots) (hentries : n ≤ L.entries) (hsymbols : 3 < L.symbols) :
    ∀ k ≤ n, Flow (Runs.run Book.step Book.empty (loopMessages rng k)) (loop rng k).1 k ∧
      Runs.Along Book.step (Welcome L) Book.empty (loopMessages rng k)
  | 0, _ => by
    refine ⟨⟨⟨le_rfl, ?_, List.nodup_nil, le_rfl⟩, ?_⟩, trivial⟩
    · exact fun r hr => absurd hr List.not_mem_nil
    · exact fun e he => absurd he List.not_mem_nil
  | k + 1, hk => by
    obtain ⟨hflow, halong⟩ := flow_loop hn hslots hentries hsymbols k (by omega)
    have hpass := pass_step rng (UInt64.ofNat k) hflow.nodup
    obtain ⟨hnext, hregular⟩ := hflow.step (by omega) hpass
    have hroom := hflow.not_refused hpass (L := L) (by omega) (by omega) hsymbols
    unfold loopMessages
    rw [Runs.run_snoc, Runs.along_append]
    exact ⟨hnext, halong, ⟨hregular, hroom⟩, trivial⟩

theorem welcome_messages (hn : n + 1 < 2 ^ 64) (hslots : n ≤ L.slots) (hentries : n ≤ L.entries)
    (hsymbols : 3 < L.symbols) (writeEnd : Bool) :
    Runs.Along Book.step (Welcome L) Book.empty (messages rng n writeEnd) := by
  have hloop := (flow_loop rng hn hslots hentries hsymbols n le_rfl).2
  have hevent : ∀ (A : Book) (ts : UInt64) (code : UInt8), Welcome L A (eventMessage ts code) :=
    fun _ _ _ => ⟨trivial, rfl⟩
  have hdirectory : ∀ (A : Book) (i : UInt16) (ts : UInt64), Welcome L A (directoryMessage i ts) :=
    fun _ _ _ => ⟨trivial, rfl⟩
  unfold messages
  dsimp only
  rw [Runs.along_append]
  refine ⟨⟨hevent _ _ _, hdirectory _ _ _, hdirectory _ _ _, hdirectory _ _ _, hloop⟩, ?_⟩
  cases writeEnd
  · trivial
  · exact ⟨hevent _ _ _, trivial⟩

theorem not_stockTradingAction (writeEnd : Bool) :
    ∀ m ∈ messages rng n writeEnd, ∀ v, m ≠ .stockTradingAction v := by
  have hloop : ∀ m ∈ loopMessages rng n, ∀ v, m ≠ .stockTradingAction v := by
    intro m hm v
    obtain ⟨s, rfl⟩ := step_of_mem_loopMessages rng n hm
    unfold stepMessage
    dsimp only
    split_ifs <;> exact Message.noConfusion
  intro m hm v hc
  subst hc
  cases writeEnd <;> simp [messages, eventMessage, directoryMessage] at hm <;> exact hloop _ hm v rfl

/-- A book of this configuration has room for `n` orders of the three symbols. -/
structure Room (cfg : FastBookConfig) (n : ℕ) : Prop where
  orders : n ≤ cfg.maxOrders ∧ n < 2 ^ 32
  index : n ≤ cfg.indexHint.toNat ∧ cfg.indexHint.toNat ≤ 2 ^ 62
  symbols : 3 < cfg.maxSymbols

theorem Room.limits {P : HashPolicy} {W : Window} {cfg : FastBookConfig} {b₀ : FastBook P W} (h : Room cfg n)
    (hnew : FastBook.new P W cfg = some b₀) :
    n ≤ b₀.limits.slots ∧ n ≤ b₀.limits.entries ∧ 3 < b₀.limits.symbols := by
  obtain ⟨index, hindex, rfl⟩ := Option.map_eq_some_iff.mp hnew
  exact ⟨le_min h.orders.1 (Nat.le_sub_one_of_lt h.orders.2),
    h.index.1.trans (OrderIndex.new_capacity hindex h.index.2), h.symbols⟩

/-- **Replaying a synthetic session.** Whatever is drawn, books with room for as many orders as there are passes take
every message: no reference is added twice, no more shares are taken than there are, and every live order has shares
after every message. The gate then fails only for its counts of crossed and of locked observations. -/
theorem replayed (P : HashPolicy) (W : Window) (opt : Replay.Options) (writeEnd : Bool)
    (hmarket : Replay.marketFor opt.path opt.market ≠ 0) (hroom : Room opt.cfg n) :
    let ms := messages rng n writeEnd
    let r := ReferenceBook.run { venueMarketCode := Replay.marketFor opt.path opt.market } ms
    ∃ f, FastBook.run P W opt.cfg ms = some f ∧ f.Fits ∧
      r.counters.duplicateAdd = 0 ∧ r.counters.overExecute = 0 ∧
      (∀ pre, pre <+: ms → (Runs.run Book.step Book.empty pre).Stocked) ∧
      (Replay.run P W opt (file rng n writeEnd) = some 0 ↔
        r.counters.crossedObservations = f.counters.crossedObservations ∧
          r.counters.lockedObservations = f.counters.lockedObservations) := by
  dsimp only
  have hhint := hroom.index.2
  obtain ⟨b₀, hnew⟩ := Option.isSome_iff_exists.mp
    ((@FastBook.new_isSome P W opt.cfg).mpr (hhint.trans (Nat.pow_le_pow_right (by decide) (by decide))))
  obtain ⟨hslots, hentries, hsymbols⟩ := hroom.limits hnew
  have hlt := hroom.orders.2
  have hwelcome := welcome_messages rng (n := n) (by omega) hslots hentries hsymbols writeEnd
  have hregular := hwelcome.mono fun A m h => h.1
  obtain ⟨f, hf, -⟩ := FastBook.rep_run hnew (messages rng n writeEnd)
  have hfit : f.Fits := (FastBook.fits_run_iff hnew hf).mpr (hwelcome.mono fun A m h => h.2)
  obtain ⟨hduplicate, hexcess⟩ := ReferenceBook.regular_counters (Replay.marketFor opt.path opt.market) hregular
  have hstocked : ∀ pre, pre <+: messages rng n writeEnd → (Runs.run Book.step Book.empty pre).Stocked :=
    (Runs.prefixes_iff_along (P := Book.Stocked) (fun A m hA => Book.stocked_step hA m)
      (fun e he => absurd he List.not_mem_nil)).mpr (hregular.mono fun A m h => h.bringsShares)
  refine ⟨f, hf, hfit, hduplicate, hexcess, hstocked, ?_⟩
  -- what the parser hands to the harness
  obtain ⟨calls, hrun⟩ := run_file rng n writeEnd
  have hread := read_file rng n writeEnd
  have hms : calls.filterMap (HandlerCall.view (file rng n writeEnd)) = messages rng n writeEnd := by
    unfold Session.read Session.readAs at hread
    unfold Parser.run at hrun
    rw [hrun] at hread
    exact Option.some.inj hread
  rw [(Replay.run_of_parsed hmarket hnew hrun hms hf).1]
  obtain ⟨hcrossed, hlocked, hcapped⟩ := ReferenceBook.explained_of_no_action
    (Replay.marketFor opt.path opt.market) (not_stockTradingAction rng (n := n) writeEnd)
  refine ⟨fun h => h.agree, fun h => ⟨⟨?_, rfl⟩, hfit, fun pre m hpre _ _ => hstocked _ hpre,
    hstocked _ (List.prefix_refl _), ⟨hcrossed, hlocked⟩, hcapped, h⟩⟩
  cases writeEnd <;> exact ParseEnd.noConfusion

/-- A session of three passes. -/
theorem replayed_three :
    let ms := messages (fun _ => 7) 3 true
    let r := ReferenceBook.run { venueMarketCode := Replay.marketFor Replay.smallReplay.path 0 } ms
    ∃ f, FastBook.run multiplyShiftHash defaultWindow Replay.smallReplay.cfg ms = some f ∧ f.Fits ∧
      r.counters.duplicateAdd = 0 ∧ r.counters.overExecute = 0 ∧
      (∀ pre, pre <+: ms → (Runs.run Book.step Book.empty pre).Stocked) ∧
      (Replay.run multiplyShiftHash defaultWindow Replay.smallReplay (file (fun _ => 7) 3 true) = some 0 ↔
        r.counters.crossedObservations = f.counters.crossedObservations ∧
          r.counters.lockedObservations = f.counters.lockedObservations) := by
  have hroom : Room Replay.smallReplay.cfg 3 := ⟨by decide, by decide, by decide⟩
  exact replayed (fun _ => 7) multiplyShiftHash defaultWindow Replay.smallReplay true (by decide) hroom

end

end Synthetic

end Carteret
