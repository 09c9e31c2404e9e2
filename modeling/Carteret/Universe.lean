import Carteret.Lib.Ranking
import Carteret.ParserFrames
import Carteret.ParserRoundTrip

/-!
# The universe of a session

`export_features` and `strategy_pnl` run a first pass over the session that counts the book messages of every
symbol, and take the symbols with most of them. The tables are hash maps, so the order in which their entries are
visited is a parameter.

1. The first pass and the two selections.
2. What the tables hold after a pass (`messages_of`, `names_of`).
3. `strategyPnl_eq_exportFeatures_iff`: when the two lists are equal.
-/

namespace Carteret

namespace Universe

/-! ## The first pass -/

/-- `Census`, which both programs have. -/
structure Census where
  messages : ℕ → Option ℕ := fun _ => none
  names : ℕ → Option Bytes := fun _ => none

/-- `++messages[locate]`. -/
def Census.count (c : Census) (locate : ℕ) : Census :=
  { c with messages := Function.update c.messages locate (some ((c.messages locate).getD 0 + 1)) }

def Census.on (buf : Bytes) (c : Census) : HandlerCall → Census
  | .on .stockDirectory p => { c with names := Function.update c.names (be16 buf (p + 1)) (some (alpha buf (p + 11) 8)) }
  | .on .addOrder p => c.count (be16 buf (p + 1))
  | .on .addOrderMpid p => c.count (be16 buf (p + 1))
  | .on .orderExecuted p => c.count (be16 buf (p + 1))
  | .on .orderExecutedPrice p => c.count (be16 buf (p + 1))
  | .on .orderCancel p => c.count (be16 buf (p + 1))
  | .on .orderDelete p => c.count (be16 buf (p + 1))
  | .on .orderReplace p => c.count (be16 buf (p + 1))
  | _ => c

/-- The census after the calls of a run. -/
def Census.of (buf : Bytes) (calls : List HandlerCall) : Census := calls.foldl (Census.on buf) {}

/-! ## The selections -/

/-- `entries` are what a loop over the hash map visits. -/
structure Iterates {α β : Type*} (entries : List (α × β)) (m : α → Option β) : Prop where
  nodup : (entries.map Prod.fst).Nodup
  mem : ∀ e, e ∈ entries ↔ m e.1 = some e.2

/-- A pair of `rank`: the count first. -/
def ranking (e : ℕ × ℕ) : ℕ ×ₗ ℕ := toLex (e.2, e.1)

/-- The list that is sorted by `std::greater`, cut and read by its locates. -/
def select (rank : List (ℕ ×ₗ ℕ)) (nSymbols : ℕ) : List ℕ := (Ranking.top nSymbols rank).map fun r => (ofLex r).2

/-- The universe of `export_features`. -/
def exportFeatures (entries : List (ℕ × ℕ)) (names : ℕ → Option Bytes) (nSymbols : ℕ) : List ℕ :=
  select ((entries.filter fun e => (names e.1).isSome).map ranking) nSymbols

/-- The universe of `strategy_pnl`. -/
def strategyPnl (entries : List (ℕ × ℕ)) (nSymbols : ℕ) : List ℕ := select (entries.map ranking) nSymbols

/-! ## The messages of a session -/

/-- The messages that the census counts. -/
def isBook : MsgType → Bool
  | .addOrder | .addOrderMpid | .orderExecuted | .orderExecutedPrice | .orderCancel | .orderDelete | .orderReplace =>
    true
  | _ => false

def locateOf (m : MsgType × Bytes) : ℕ := be16 m.2 1

/-- The locates of the book messages, one for each. -/
def bookLocates (msgs : List (MsgType × Bytes)) : List ℕ := (msgs.filter fun m => isBook m.1).map locateOf

/-- A Stock Directory message of the locate. -/
def Listed (msgs : List (MsgType × Bytes)) (locate : ℕ) : Prop :=
  ∃ body, (MsgType.stockDirectory, body) ∈ msgs ∧ locateOf (.stockDirectory, body) = locate

/-- The locate `k` has more book messages than `l`, or as many and a greater number. -/
def Outranks (msgs : List (MsgType × Bytes)) (k l : ℕ) : Prop :=
  (bookLocates msgs).count l < (bookLocates msgs).count k ∨
    (bookLocates msgs).count l = (bookLocates msgs).count k ∧ l < k

instance (msgs : List (MsgType × Bytes)) (k l : ℕ) : Decidable (Outranks msgs k l) := by
  unfold Outranks; infer_instance

/-! ## The tables after a pass -/

section

variable {buf : Bytes} {calls : List HandlerCall}

theorem of_concat (c : HandlerCall) : Census.of buf (calls ++ [c]) = Census.on buf (Census.of buf calls) c :=
  List.foldl_append

theorem messages_concat (c : HandlerCall) : messages buf (calls ++ [c]) = messages buf calls ++ messages buf [c] := by
  unfold messages
  rw [List.filterMap_append, List.map_append]

theorem locateOf_slice (t : MsgType) (p : ℕ) : locateOf (t, slice buf p t.len) = be16 buf (p + 1) := by
  have hlen : 3 ≤ t.len := by cases t <;> decide
  unfold locateOf be16 byteAt
  dsimp only
  rw [getD_slice, getD_slice, if_pos (by omega), if_pos (by omega), ← Nat.add_assoc]

theorem bookLocates_append (ms ms' : List (MsgType × Bytes)) :
    bookLocates (ms ++ ms') = bookLocates ms ++ bookLocates ms' := by
  unfold bookLocates
  rw [List.filter_append, List.map_append]

/-- The locates of a message. -/
theorem bookLocates_singleton (t : MsgType) (p : ℕ) :
    bookLocates [(t, slice buf p t.len)] = if isBook t then [be16 buf (p + 1)] else [] := by
  unfold bookLocates
  cases hbook : isBook t with
  | true => rw [List.filter_cons_of_pos (by exact hbook), List.filter_nil, List.map_singleton, locateOf_slice, if_pos rfl]
  | false => rw [List.filter_cons_of_neg (by simp [hbook]), List.filter_nil, List.map_nil, if_neg Bool.false_ne_true]

theorem on_messages (c : Census) (t : MsgType) (p : ℕ) : (Census.on buf c (.on t p)).messages =
    if isBook t then (c.count (be16 buf (p + 1))).messages else c.messages := by
  cases t <;> rfl

theorem on_names (c : Census) (t : MsgType) (p : ℕ) : (Census.on buf c (.on t p)).names =
    if t = .stockDirectory then Function.update c.names (be16 buf (p + 1)) (some (alpha buf (p + 11) 8))
    else c.names := by
  cases t <;> rfl

/-- The count of a locate; a locate without book messages has no entry. -/
theorem messages_of (buf : Bytes) (calls : List HandlerCall) (l : ℕ) : (Census.of buf calls).messages l =
    if l ∈ bookLocates (messages buf calls) then some ((bookLocates (messages buf calls)).count l) else none := by
  induction calls using List.reverseRecOn with
  | nil => rfl
  | append_singleton calls c ih =>
    rw [of_concat, messages_concat, bookLocates_append]
    cases c with
    | onUnknownType m =>
      rw [show messages buf [.onUnknownType m] = [] from rfl, show bookLocates [] = [] from rfl, List.append_nil]
      exact ih
    | onLengthMismatch m =>
      rw [show messages buf [.onLengthMismatch m] = [] from rfl, show bookLocates [] = [] from rfl, List.append_nil]
      exact ih
    | on t p =>
      rw [show messages buf [.on t p] = [(t, slice buf p t.len)] from rfl, on_messages, bookLocates_singleton]
      cases isBook t with
      | false =>
        rw [if_neg Bool.false_ne_true, if_neg Bool.false_ne_true, List.append_nil]
        exact ih
      | true =>
        rw [if_pos rfl, if_pos rfl, Census.count]
        dsimp only
        by_cases hl : l = be16 buf (p + 1)
        · rw [hl, Function.update_self, if_pos (List.mem_append_right _ List.mem_cons_self), List.count_append,
            List.count_singleton_self, ← hl, ih]
          split_ifs with hmem
          · rfl
          · rw [List.count_eq_zero.mpr hmem]
            rfl
        · have hmem : l ∈ bookLocates (messages buf calls) ++ [be16 buf (p + 1)] ↔
              l ∈ bookLocates (messages buf calls) := by
            rw [List.mem_append, List.mem_singleton, or_iff_left hl]
          have hnone : [be16 buf (p + 1)].count l = 0 := List.count_eq_zero.mpr fun h => hl (List.mem_singleton.mp h)
          rw [Function.update_of_ne hl, ih, List.count_append, hnone, Nat.add_zero]
          exact if_congr hmem.symm rfl rfl

/-- The names cover the locates of the Stock Directory messages. -/
theorem names_of (buf : Bytes) (calls : List HandlerCall) (l : ℕ) :
    ((Census.of buf calls).names l).isSome = true ↔ Listed (messages buf calls) l := by
  induction calls using List.reverseRecOn with
  | nil => exact iff_of_false Bool.false_ne_true (by simp [Listed, messages])
  | append_singleton calls c ih =>
    rw [of_concat, messages_concat]
    cases c with
    | onUnknownType m => rw [show messages buf [.onUnknownType m] = [] from rfl, List.append_nil]; exact ih
    | onLengthMismatch m => rw [show messages buf [.onLengthMismatch m] = [] from rfl, List.append_nil]; exact ih
    | on t p =>
      rw [show messages buf [.on t p] = [(t, slice buf p t.len)] from rfl, on_names]
      by_cases ht : t = .stockDirectory ∧ l = be16 buf (p + 1)
      · obtain ⟨rfl, rfl⟩ := ht
        rw [if_pos rfl, Function.update_self]
        exact iff_of_true rfl ⟨_, List.mem_append_right _ List.mem_cons_self, locateOf_slice _ _⟩
      · have hsame : (if t = .stockDirectory then Function.update (Census.of buf calls).names (be16 buf (p + 1))
            (some (alpha buf (p + 11) 8)) else (Census.of buf calls).names) l = (Census.of buf calls).names l := by
          split_ifs with hdir
          · exact Function.update_of_ne (fun hl => ht ⟨hdir, hl⟩) _ _
          · rfl
        rw [hsame, ih]
        refine exists_congr fun body => and_congr_left fun hbody => ?_
        rw [List.mem_append, List.mem_singleton]
        refine (or_iff_left fun heq => ht ?_).symm
        obtain ⟨rfl, hslice⟩ := Prod.mk.inj heq
        exact ⟨rfl, by rw [← hbody, hslice, locateOf_slice]⟩

end

/-! ## The two lists -/

section

variable {buf : Bytes} {calls : List HandlerCall} {entries entries' : List (ℕ × ℕ)}

/-- Two loops over one map visit the same entries. -/
theorem Iterates.perm {m : ℕ → Option ℕ} (h : Iterates entries m) (h' : Iterates entries' m) : entries.Perm entries' :=
  (List.perm_ext_iff_of_nodup (List.Nodup.of_map _ h.nodup) (List.Nodup.of_map _ h'.nodup)).mpr fun e =>
    (h.mem e).trans (h'.mem e).symm

/-- The order of the visits makes no difference. -/
theorem strategyPnl_congr (h : entries.Perm entries') (n : ℕ) : strategyPnl entries n = strategyPnl entries' n := by
  unfold strategyPnl select Ranking.top
  rw [Ranking.ranked_congr (h.map ranking)]

theorem ranking_injective : Function.Injective ranking := by
  rintro ⟨a, b⟩ ⟨a', b'⟩ h
  obtain ⟨rfl, rfl⟩ := Prod.mk.inj (toLex.injective h)
  rfl

/-- An entry of the counts ranks by the messages of its locate. -/
theorem ranking_lt_iff (h : Iterates entries (Census.of buf calls).messages) {d e : ℕ × ℕ} (hd : d ∈ entries)
    (he : e ∈ entries) : ranking d < ranking e ↔ Outranks (messages buf calls) e.1 d.1 := by
  have hcount : ∀ e ∈ entries, (bookLocates (messages buf calls)).count e.1 = e.2 := by
    intro e he
    have hentry := (h.mem e).mp he
    rw [messages_of] at hentry
    split_ifs at hentry
    exact Option.some.inj hentry
  unfold ranking Outranks
  rw [Prod.Lex.toLex_lt_toLex, hcount d hd, hcount e he]

theorem mem_map_fst (h : Iterates entries (Census.of buf calls).messages) (l : ℕ) :
    l ∈ entries.map Prod.fst ↔ l ∈ bookLocates (messages buf calls) := by
  constructor
  · rintro hl
    obtain ⟨e, he, rfl⟩ := List.mem_map.mp hl
    have hentry := (h.mem e).mp he
    rw [messages_of] at hentry
    by_contra hl
    rw [if_neg hl] at hentry
    cases hentry
  · intro hl
    exact List.mem_map.mpr ⟨(l, _), (h.mem _).mpr ((messages_of buf calls l).trans (if_pos hl)), rfl⟩

/-- How many entries rank above one. -/
theorem countP_ranking (h : Iterates entries (Census.of buf calls).messages) {e : ℕ × ℕ} (he : e ∈ entries) :
    (entries.map ranking).countP (fun r => decide (ranking e < r)) =
      ((bookLocates (messages buf calls)).toFinset.filter fun k => Outranks (messages buf calls) k e.1).card := by
  have hset : (bookLocates (messages buf calls)).toFinset.filter (fun k => Outranks (messages buf calls) k e.1) =
      ((entries.map Prod.fst).filter fun k => decide (Outranks (messages buf calls) k e.1)).toFinset := by
    ext l
    rw [Finset.mem_filter, List.mem_toFinset, List.mem_toFinset, List.mem_filter, mem_map_fst h, decide_eq_true_eq]
  rw [hset, List.toFinset_card_of_nodup (h.nodup.filter _), ← List.countP_eq_length_filter, List.countP_map,
    List.countP_map]
  refine List.countP_congr fun d hd => ?_
  rw [Function.comp_apply, Function.comp_apply, decide_eq_true_eq, decide_eq_true_eq]
  exact ranking_lt_iff h he hd

/-- **The strategy trades the symbols of the features exactly when no symbol that it picks lacks a Stock Directory
message:** `export_features` leaves those out before the cut, `strategy_pnl` does not. -/
theorem strategyPnl_eq_exportFeatures_iff (buf : Bytes) (nSymbols : ℕ) : ∃ stats calls,
    Parser.run buf = some (stats, calls) ∧ ∀ entries entries',
      Iterates entries (Census.of buf calls).messages → Iterates entries' (Census.of buf calls).messages →
        (strategyPnl entries nSymbols = exportFeatures entries' (Census.of buf calls).names nSymbols ↔
          ∀ l ∈ bookLocates (messages buf calls),
            ((bookLocates (messages buf calls)).toFinset.filter fun k => Outranks (messages buf calls) k l).card <
              nSymbols → Listed (messages buf calls) l) := by
  obtain ⟨stats, calls, hrun, -⟩ := Parser.exists_runAs buf (detectFraming buf)
  refine ⟨stats, calls, hrun, fun entries entries' h h' => ?_⟩
  have hfilter : (entries'.filter fun e => ((Census.of buf calls).names e.1).isSome).map ranking =
      (entries'.map ranking).filter fun r => ((Census.of buf calls).names (ofLex r).2).isSome := by
    rw [List.filter_map]
    rfl
  have hnodup : (entries'.map ranking).Nodup := (List.Nodup.of_map _ h'.nodup).map ranking_injective
  rw [strategyPnl_congr (h.perm h')]
  unfold strategyPnl exportFeatures select
  rw [hfilter, eq_comm, Ranking.map_top_filter_eq_iff hnodup (fun r => (ofLex r).2)
    fun l => ((Census.of buf calls).names l).isSome]
  constructor
  · intro hall l hl hcard
    obtain ⟨e, he, rfl⟩ := List.mem_map.mp ((mem_map_fst h' l).mpr hl)
    rw [← names_of]
    exact hall (ranking e) (List.mem_map_of_mem he) ((countP_ranking h' he).trans_lt hcard)
  · intro hall r hr hcount
    obtain ⟨e, he, rfl⟩ := List.mem_map.mp hr
    exact (names_of buf calls e.1).mpr
      (hall e.1 ((mem_map_fst h' e.1).mp (List.mem_map_of_mem he)) ((countP_ranking h' he).symm.trans_lt hcount))

end

/-! ## Two sessions -/

/-- An Add Order of locate 7. -/
def addOrder : Bytes := 65 :: 0 :: 7 :: List.replicate 33 0

/-- A Stock Directory message of locate 7. -/
def stockDirectory : Bytes := 82 :: 0 :: 7 :: List.replicate 36 0

theorem iterates_single {buf : Bytes} {calls : List HandlerCall} {l : ℕ}
    (h : bookLocates (messages buf calls) = [l]) : Iterates [(l, 1)] (Census.of buf calls).messages := by
  refine ⟨List.nodup_singleton l, fun e => ?_⟩
  rw [messages_of, h, List.mem_singleton]
  by_cases hl : e.1 = l
  · rw [if_pos (List.mem_singleton.mpr hl), hl, List.count_singleton_self, Option.some_inj, Prod.ext_iff]
    exact ⟨fun he => he.2.symm, fun he => ⟨hl, he.symm⟩⟩
  · rw [if_neg (mt List.mem_singleton.mp hl)]
    exact iff_of_false (fun he => hl (congrArg Prod.fst he)) (Option.some_ne_none _).symm

/-- With no Stock Directory message the strategy picks a symbol and the features pick none. -/
theorem not_strategyPnl_eq_exportFeatures : ∃ stats calls,
    Parser.run (frame addOrder) = some (stats, calls) ∧
      Iterates [(7, 1)] (Census.of (frame addOrder) calls).messages ∧
        strategyPnl [(7, 1)] 50 = [7] ∧ exportFeatures [(7, 1)] (Census.of (frame addOrder) calls).names 50 = [] :=
  ⟨⟨1, 0, 0, 38, 0, .exhausted, .lengthPrefixed⟩, [.on .addOrder 2], by decide +kernel,
    iterates_single (by decide +kernel), by decide +kernel, by decide +kernel⟩

theorem strategyPnl_eq_exportFeatures_iff_listed : ∃ calls,
    strategyPnl [(7, 1)] 50 =
      exportFeatures [(7, 1)] (Census.of (frame stockDirectory ++ frame addOrder) calls).names 50 := by
  obtain ⟨stats, calls, hrun, h⟩ := strategyPnl_eq_exportFeatures_iff (frame stockDirectory ++ frame addOrder) 50
  have hcalls : Parser.run (frame stockDirectory ++ frame addOrder) =
      some (⟨2, 0, 0, 79, 0, .exhausted, .lengthPrefixed⟩, [.on .stockDirectory 2, .on .addOrder 43]) := by
    decide +kernel
  obtain ⟨-, rfl⟩ := Prod.mk.inj (Option.some.inj (hrun.symm.trans hcalls))
  have hentries := @iterates_single (frame stockDirectory ++ frame addOrder)
    [.on .stockDirectory 2, .on .addOrder 43] 7 (by decide +kernel)
  exact ⟨_, (h _ _ hentries hentries).mpr fun l hl _ =>
    (names_of _ _ l).mp (by rw [List.mem_singleton.mp hl]; decide +kernel)⟩

end Universe

end Carteret
