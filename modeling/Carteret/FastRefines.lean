import Carteret.FastOperations
import Carteret.FreeList

/-!
# The fast book refines the reference book

1. A new book stands for the empty abstract book; its free list is the pool in order.
2. What the queries answer when `Rep` holds.
3. `rep_run`: any run stands for the run of the abstract book within the limits.
4. `fast_refines`: where nothing is refused, the fast book answers as the reference book does.
-/

namespace Carteret

open IntrusiveList

namespace FastBook

variable {P : HashPolicy} {W : Window} {b b' : FastBook P W} {A : Book} {slot : Ref → UInt32}
  {F : List UInt32} {locate : UInt16} {x : Bool}

/-! ## The constructor -/

theorem seed_eq : ∀ (n : ℕ) (pool : ℕ → FastOrder) (head : UInt32),
    seed n pool head = FreeList.seed (fun o h => { o with next := h }) n pool head
  | 0, _, _ => rfl
  | n + 1, pool, head => seed_eq n (Function.update pool n { pool n with next := head }) (UInt32.ofNat n)

/-- The free list of a new book. -/
theorem seed_stack (n : ℕ) :
    Stack (fun i => ((seed n (fun _ => {}) kNoOrder).1 i.toNat).next) kNoOrder
      (seed n (fun _ => {}) kNoOrder).2 (FreeList.numbers n) := by
  rw [seed_eq]
  exact FreeList.seed_stack (fun _ _ => rfl) n _

theorem holds_new {cfg : FastBookConfig} (h : new P W cfg = some b) :
    Holds true b Book.empty (fun _ => kNoOrder)
        (FreeList.numbers cfg.maxOrders) ∧
      b.cfg = cfg ∧ b.failures = fun _ => 0 := by
  obtain ⟨index, hindex, rfl⟩ := Option.map_eq_some_iff.mp h
  obtain ⟨hvalid, hnone⟩ := OrderIndex.valid_new hindex
  set b : FastBook P W :=
    { cfg := cfg
      index := index
      pool := (seed cfg.maxOrders (fun _ => {}) kNoOrder).1
      freeHead := (seed cfg.maxOrders (fun _ => {}) kNoOrder).2 }
  have hhalf : ∀ l d, b.half l d = {} := fun l d => by cases d <;> rfl
  have hlev : ∀ l d p, b.levelAt l d p = {} := fun l d p => by
    unfold levelAt; rw [hhalf, FastSide.levelAt_empty]
  refine ⟨⟨⟨fun e he => (by cases he), fun e he => (by cases he), fun l d => ?_, fun l d p => ?_,
    seed_stack cfg.maxOrders, ?_, fun i => ?_, fun e he => (by cases he), fun n _ => rfl⟩, ⟨hvalid, ?_⟩,
    fun ref => ?_, fun _ l d p => ?_⟩, rfl, by funext r; cases r <;> rfl⟩
  · rw [hhalf]; exact FastSide.valid_empty W
  · rw [hlev]; exact Queue.default b.pool
  · exact FreeList.nodup_numbers cfg.maxOrders
  · refine Iff.trans (or_iff_left ?_) FreeList.mem_numbers
    rintro ⟨e, he, -⟩
    cases he
  · exact fun key value => iff_of_false (hnone key value) fun hc => hc.1 hc.2.symm
  · exact iff_of_false (fun hc => hc rfl) (by rintro ⟨e, he, -⟩; cases he)
  · rw [hlev]; rfl

theorem new_isSome (cfg : FastBookConfig) :
    (new P W cfg).isSome ↔ cfg.indexHint.toNat ≤ 2 ^ 63 := by
  unfold new
  rw [Option.isSome_map]
  exact OrderIndex.new_isSome P cfg.indexHint

/-! ## What the queries answer -/

theorem level_nil_of_locate (h : Rep x b A) (hl : locate.toNat ≥ b.cfg.maxSymbols) (buy : Bool)
    (price : Price) : A.level locate buy price = [] := by
  obtain ⟨slot, F, h⟩ := h
  refine List.filter_eq_nil_iff.mpr fun e he hr => ?_
  have := h.core.locate_lt e he
  rw [(Entry.restsAt_iff.mp hr).1] at this
  omega

/-- The level at a price, as a search finds it. -/
theorem Rep.findLevel (h : Rep x b A) (locate : UInt16) (side : UInt8) (price : Price) :
    (((b.side locate side).findLevel W price).getD {} = b.levelAt locate (side == kBuy) price) ∧
      ((b.levelAt locate (side == kBuy) price).orders = 0 ↔
        A.level locate (side == kBuy) price = []) := by
  obtain ⟨slot, F, h⟩ := h
  rw [side_eq]
  exact ⟨(h.core.valid locate (side == kBuy)).findLevel_getD price, h.core.orders_eq_zero⟩

/-- The walk over a queue ends and visits the orders of the level. -/
theorem Holds.walkFrom_eq (h : Holds x b A slot F) (locate : UInt16) (buy : Bool) (price : Price) :
    b.walkFrom (b.levelAt locate buy price).head =
      some ((A.level locate buy price).map fun e => slot e.ref) := by
  have hq := h.core.queue locate buy price
  have hstack := hq.ring.stack
  have hhead : linkNext b.pool (b.levelAt locate buy price) kNoOrder =
      (b.levelAt locate buy price).head := if_pos rfl
  rw [hhead] at hstack
  refine (hstack.congr fun i hi => ?_).walk_eq hq.length_lt
  exact (if_neg (hq.ne_nil hi)).symm

/-- A query of a level answers from its orders. -/
theorem Rep.query {κ : Type} (h : Rep x b A) (locate : UInt16) (side : UInt8) (price : Price)
    (f : List Entry → κ) {absent : κ} {answer : FastLevel → κ} (hnil : absent = f [])
    (hsome : A.level locate (side == kBuy) price ≠ [] →
      answer (b.levelAt locate (side == kBuy) price) = f (A.level locate (side == kBuy) price)) :
    (if locate.toNat ≥ b.cfg.maxSymbols then absent
      else
        match (b.side locate side).findLevel W price with
        | none => absent
        | some lvl => if lvl.orders = 0 then absent else answer lvl) =
      f (A.level locate (side == kBuy) price) := by
  by_cases hl : locate.toNat ≥ b.cfg.maxSymbols
  · rw [if_pos hl, level_nil_of_locate h hl, hnil]
  · rw [if_neg hl]
    obtain ⟨hfind, hempty⟩ := h.findLevel locate side price
    cases hlvl : (b.side locate side).findLevel W price with
    | none =>
      rw [hlvl] at hfind
      rw [hempty.mp (by rw [← hfind]; rfl), hnil]
    | some lvl =>
      rw [hlvl, Option.getD_some] at hfind
      dsimp only
      rw [hfind]
      by_cases hz : (b.levelAt locate (side == kBuy) price).orders = 0
      · rw [if_pos hz, hempty.mp hz, hnil]
      · rw [if_neg hz]
        exact hsome fun hc => hz (hempty.mpr hc)

theorem Rep.level_query (h : Rep true b A) (locate : UInt16) (side : UInt8) (price : Price) :
    b.level locate side price = some (Book.snapshotOf (A.level locate (side == kBuy) price)) := by
  refine h.query locate side price (fun es => some (Book.snapshotOf es)) rfl fun hne => ?_
  obtain ⟨slot, F, h⟩ := h
  have hq := h.core.queue locate (side == kBuy) price
  rw [h.walkFrom_eq, Option.map_some]
  congr 1
  unfold Book.snapshotOf
  rw [h.exact_of rfl, Book.ofNat_total, hq.orders_eq, List.length_map, List.map_map]
  congr 1
  · simp [hne]
  · refine List.map_congr_left fun e he => ?_
    exact (h.core.stores e (Book.mem_level.mp he).1).ref_eq

/-- The inside is the best of the live orders. -/
theorem Rep.best_query (h : Rep x b A) (locate : UInt16) (side : UInt8) (price : Price) :
    b.best locate side = some price ↔ A.IsBest locate (side == kBuy) price := by
  unfold best
  by_cases hl : locate.toNat ≥ b.cfg.maxSymbols
  · rw [if_pos hl]
    refine iff_of_false (by simp) fun hc => ?_
    exact Book.level_ne_nil_iff.mpr hc.1 (level_nil_of_locate h hl _ _)
  · rw [if_neg hl]
    obtain ⟨slot, F, h⟩ := h
    have hne : ∀ q, ((b.half locate (side == kBuy)).levelAt W q).orders ≠ 0 ↔
        ∃ e ∈ A.orders, e.locate = locate ∧ e.buy = (side == kBuy) ∧ e.price = q := fun q => by
      rw [← Book.level_ne_nil_iff]
      exact not_congr h.core.orders_eq_zero
    rw [side_eq, (h.core.valid locate (side == kBuy)).best_eq_some_iff]
    unfold Book.IsBest
    rw [hne]
    refine and_congr_right fun _ => ?_
    have hdir : ∀ q, FastSide.AtLeast side price q ↔
        if (side == kBuy) then q ≤ price else price ≤ q := fun q => by
      unfold FastSide.AtLeast
      by_cases hs : side = kBuy
      · rw [if_pos hs, if_pos (by simpa using hs)]
      · rw [if_neg hs, if_neg (by simpa using hs)]
    constructor
    · intro hall e he h1 h2
      exact (hdir e.price).mp (hall e.price ((hne e.price).mpr ⟨e, he, h1, h2, rfl⟩))
    · intro hall q hq
      obtain ⟨e, he, h1, h2, rfl⟩ := (hne q).mp hq
      exact (hdir e.price).mpr (hall e he h1 h2)

theorem Rep.live_query (h : Rep x b A) : b.liveOrders = A.orders.length := by
  obtain ⟨slot, F, h⟩ := h
  exact h.size_eq

/-! ## Runs -/

theorem Rep.mono {y : Bool} (h : Rep x b A) (hy : y = true → x = true) : Rep y b A := by
  obtain ⟨slot, F, h⟩ := h
  exact ⟨slot, F, h.mono hy⟩

/-- The abstract book within the limits is followed whether the message is refused or not. -/
theorem Follows.stepWithin {m : Message} (h : Follows x b b' A m) :
    Rep (x && !b.leaks m) b' (A.stepWithin b.limits m) := by
  unfold Book.stepWithin
  by_cases hr : A.refused b.limits m = none
  · rw [if_pos hr]
    exact (h.done hr).mono fun hy => ((Bool.and_eq_true _ _).mp hy).1
  · rw [if_neg hr]
    exact h.refused hr

/-- The abstract book of a run, within limits. -/
def bounded (L : Limits) (ms : List Message) : Book := Runs.run (Book.stepWithin L) Book.empty ms

/-- No add of the run leaves shares behind. -/
def LeakFree (P : HashPolicy) (W : Window) (cfg : FastBookConfig) (ms : List Message) : Prop :=
  Runs.Along step (fun o m => ∀ b : FastBook P W, o = some b → b.leaks m = false) (new P W cfg) ms

theorem run_snoc {cfg : FastBookConfig} {ms : List Message} {b : FastBook P W} (hb : run P W cfg ms = some b)
    (m : Message) : run P W cfg (ms ++ [m]) = b.on m := by
  unfold run at hb ⊢
  rw [Runs.run_snoc, hb]
  rfl

/-- **Runs.** The fast book stands for the abstract book within its limits, with exact totals as long as
no add leaves shares behind. -/
theorem rep_run {cfg : FastBookConfig} {b₀ : FastBook P W} (h₀ : new P W cfg = some b₀)
    (ms : List Message) :
    ∃ b, run P W cfg ms = some b ∧ b.limits = b₀.limits ∧ Rep false b (bounded b₀.limits ms) ∧
      (LeakFree P W cfg ms → Rep true b (bounded b₀.limits ms)) := by
  obtain ⟨hnew, -, -⟩ := holds_new h₀
  induction ms using List.reverseRecOn with
  | nil =>
    exact ⟨b₀, h₀, rfl, ⟨_, _, hnew.mono fun hc => by cases hc⟩, fun _ => ⟨_, _, hnew⟩⟩
  | append_singleton ms m ih =>
    obtain ⟨b, hb, hlim, hrep, hexact⟩ := ih
    obtain ⟨b', hon, hfol⟩ := hrep.on m
    have hrun := (run_snoc hb m).trans hon
    have hbook : bounded b₀.limits (ms ++ [m]) = (bounded b₀.limits ms).stepWithin b.limits m := by
      rw [hlim]; exact Runs.run_snoc _ _ _
    refine ⟨b', hrun, hfol.limits_eq.trans hlim, hbook ▸ hfol.stepWithin, fun hclean => ?_⟩
    obtain ⟨hms, hm, -⟩ := Runs.along_append.mp hclean
    have hleak : b.leaks m = false := hm b hb
    obtain ⟨b'', hon', hfol'⟩ := (hexact hms).on m
    obtain rfl := Option.some.inj (hon.symm.trans hon')
    have hnext := hfol'.stepWithin
    rw [hleak] at hnext
    exact hbook ▸ hnext

/-- A run that returns started from a book. -/
theorem new_of_run {cfg : FastBookConfig} {ms : List Message} (hb : run P W cfg ms = some b) :
    ∃ b₀, new P W cfg = some b₀ := by
  have hnone : ∀ ms : List Message, Runs.run step (none : Option (FastBook P W)) ms = none := fun ms => by
    induction ms with
    | nil => rfl
    | cons m ms ih => exact ih
  by_contra hnew
  rw [not_exists, ← Option.eq_none_iff_forall_ne_some] at hnew
  rw [run, hnew, hnone] at hb
  cases hb

/-- Nothing was refused. -/
def Fits (b : FastBook P W) : Prop :=
  b.counters.poolExhausted = 0 ∧ b.counters.indexFailures = 0 ∧ b.counters.symbolOverflow = 0

instance (b : FastBook P W) : Decidable b.Fits := by unfold Fits; infer_instance

theorem Fits.not_refused (h : b'.Fits) {m : Message} (hf : Follows x b b' A m) :
    A.refused b.limits m = none := by
  by_contra hne
  obtain ⟨r, hr⟩ := Option.ne_none_iff_exists'.mp hne
  have hcount := congrFun hf.failures_eq r
  unfold bump at hcount
  rw [if_pos hr] at hcount
  obtain ⟨hp, hi, hs⟩ := h
  cases r
  · exact absurd (hcount.symm.trans hs) (Nat.succ_ne_zero _)
  · exact absurd (hcount.symm.trans hp) (Nat.succ_ne_zero _)
  · exact absurd (hcount.symm.trans hi) (Nat.succ_ne_zero _)

/-- Where nothing is refused, the fast book stands for the abstract book. -/
theorem rep_of_fits {cfg : FastBookConfig} (h₀ : (new P W cfg).isSome) {ms : List Message}
    (hfits : ∀ pre, pre <+: ms → ∀ b, run P W cfg pre = some b → b.Fits) :
    ∃ b, run P W cfg ms = some b ∧ b.cfg.maxSymbols = cfg.maxSymbols ∧
      Rep true b (Runs.run Book.step Book.empty ms) := by
  obtain ⟨b₀, h₀⟩ := Option.isSome_iff_exists.mp h₀
  obtain ⟨hnew, hcfg, -⟩ := holds_new h₀
  induction ms using List.reverseRecOn with
  | nil => exact ⟨b₀, h₀, by rw [hcfg], ⟨_, _, hnew⟩⟩
  | append_singleton ms m ih =>
    obtain ⟨b, hb, hmax, hrep⟩ := ih fun pre hpre => hfits pre (hpre.trans (List.prefix_append ms [m]))
    obtain ⟨b', hon, hfol⟩ := hrep.on m
    have hrun := (run_snoc hb m).trans hon
    have hfit := hfits _ (List.prefix_refl _) b' hrun
    have hsym := congrArg Limits.symbols hfol.limits_eq
    refine ⟨b', hrun, hsym.trans hmax, ?_⟩
    rw [Runs.run_snoc]
    exact hfol.done (hfit.not_refused hfol)

/-- The answers of the two books about the inside of a symbol. -/
def SameInside (b : FastBook P W) (r : ReferenceBook) (locate : UInt16) : Prop :=
  b.hasBid locate = (r.symbol locate).any RefSymbol.hasBid ∧
    b.hasAsk locate = (r.symbol locate).any RefSymbol.hasAsk ∧
    (b.hasBid locate = true → (r.symbol locate).bind RefSymbol.bestBid = some (b.bestBid locate)) ∧
    (b.hasAsk locate = true → (r.symbol locate).bind RefSymbol.bestAsk = some (b.bestAsk locate))

theorem isSome_bestBid (s : RefSymbol) : s.hasBid = s.bestBid.isSome := by
  unfold RefSymbol.hasBid RefSymbol.bestBid
  rw [← Std.TreeMap.maxKey?_eq_getLast?_keys, Std.TreeMap.isSome_maxKey?_eq_not_isEmpty]

theorem isSome_bestAsk (s : RefSymbol) : s.hasAsk = s.bestAsk.isSome := by
  unfold RefSymbol.hasAsk RefSymbol.bestAsk
  rw [← Std.TreeMap.minKey?_eq_head?_keys, Std.TreeMap.isSome_minKey?_eq_not_isEmpty]

theorem sameInside (h : Rep true b A) {r : ReferenceBook} (hr : r.Represents A) (locate : UInt16) :
    SameInside b r locate := by
  have hbid : b.best locate kBuy = (r.symbol locate).bind RefSymbol.bestBid := by
    ext p
    exact (h.best_query locate kBuy p).trans (hr.best_query locate p).1.symm
  have hask : b.best locate kSell = (r.symbol locate).bind RefSymbol.bestAsk := by
    ext p
    exact (h.best_query locate kSell p).trans (hr.best_query locate p).2.symm
  have hsome : ∀ {o : Option Price}, o.isSome = true → o = some (o.getD 0) := fun {o} ho => by
    cases o with
    | none => cases ho
    | some p => rfl
  unfold SameInside hasBid hasAsk bestBid bestAsk
  rw [hbid, hask]
  refine ⟨?_, ?_, hsome, hsome⟩
  · cases r.symbol locate with
    | none => rfl
    | some s => exact (isSome_bestBid s).symm
  · cases r.symbol locate with
    | none => rfl
    | some s => exact (isSome_bestAsk s).symm

/-- **The fast book refines the reference book.** After any messages for which no capacity ran out, every
level, the inside of every symbol and the number of live orders are those of the reference book. -/
theorem fast_refines (P : HashPolicy) (W : Window) (cfg : FastBookConfig) (ms : List Message)
    (hnew : (new P W cfg).isSome = true)
    (hfits : ∀ pre, pre <+: ms → ∀ b, run P W cfg pre = some b → b.Fits) :
    ∃ b, run P W cfg ms = some b ∧
      (∀ locate side price, locate.toNat < cfg.maxSymbols →
        b.level locate side price = some ((ReferenceBook.run {} ms).level locate side price)) ∧
      (∀ locate, locate.toNat < cfg.maxSymbols → SameInside b (ReferenceBook.run {} ms) locate) ∧
      b.liveOrders = (ReferenceBook.run {} ms).liveOrders := by
  obtain ⟨b, hb, -, hrep⟩ := rep_of_fits hnew hfits
  have href := ReferenceBook.represents_run ms
  refine ⟨b, hb, fun locate side price _ => ?_, fun locate _ => sameInside hrep href locate, ?_⟩
  · rw [hrep.level_query, href.level_query]
  · rw [hrep.live_query]
    exact href.size_eq.symm

/-- A whole-cent and a sub-cent order, and a replacement of the first by itself at another price. -/
def threeMessages : List Message :=
  [.addOrder
      { locate := 1, ts := 0, orderRef := 7, side := kBuy, shares := 5, stock := [], price := 10000 },
    .addOrder
      { locate := 1, ts := 0, orderRef := 8, side := kSell, shares := 0, stock := [], price := 10150 },
    .orderReplace
      { locate := 1, ts := 0, oldOrderRef := 7, newOrderRef := 7, shares := 9, price := 4000000 }]

theorem fast_refines_three :
    ∃ b, run multiplyShiftHash defaultWindow ⟨8, 4, 8⟩ threeMessages = some b ∧
      (∀ locate side price, locate.toNat < 4 →
        b.level locate side price =
          some ((ReferenceBook.run {} threeMessages).level locate side price)) ∧
      (∀ locate, locate.toNat < 4 →
        SameInside b (ReferenceBook.run {} threeMessages) locate) ∧
      b.liveOrders = (ReferenceBook.run {} threeMessages).liveOrders := by
  refine fast_refines multiplyShiftHash defaultWindow ⟨8, 4, 8⟩ threeMessages
    ((new_isSome _).mpr (by decide)) fun pre hpre b hb => ?_
  have hall : ∀ pre ∈ threeMessages.inits,
      (run multiplyShiftHash defaultWindow ⟨8, 4, 8⟩ pre).all (fun b => decide b.Fits) = true := by
    decide +kernel
  have hfit := hall pre ((List.mem_inits _ _).mpr hpre)
  rw [hb] at hfit
  exact of_decide_eq_true hfit

end FastBook

end Carteret
