import Carteret.QueueCalls
import Carteret.QueueRule4

/-!
# The coins of the two arms

The orders of a simulator throw their coins from one generator, in the order in which they were placed. An order
that rule 4 has filled throws no more, so it leaves its outputs to the others.

1. Which orders draw at an event (`drawsCoin`). The loop for an event is a scan with the generator alone
   (`Sound.react_toss`).
2. The live orders stand in the order of their numbers (`ascending_invariant`).
3. While no order that rule 4 has filled would have drawn (`KeepsCoins`), the orders that draw are the same in both
   arms, and meet the same outputs (`CoinArms.react`).
4. `coins_paired`: what follows for whole runs, and `not_coinsPaired`: a run in which an output changes hands.
-/

namespace Carteret

open SyntheticOrder

/-! ## Draws -/

/-- At this event the order draws an output of the generator of the coins. -/
def drawsCoin (b : ReferenceBook) (ev : BookEvent) (o : SyntheticOrder) : Bool :=
  match ev with
  | .cancel r qty =>
    let a := if (o.models .bernoulliProportional).ahead < 0 then 0 else
      (o.models .bernoulliProportional).ahead
    atLevelOf r o && (o.models .bernoulliProportional).live && Sampler.draws ⌊a⌋₊ ⌊cancelBefore b o qty⌋₊
  | _ => false

/-- What an event does to the generator and to an order. -/
def toss (b : ReferenceBook) (ev : BookEvent) (rng : Sampler) (o : SyntheticOrder) : Sampler × SyntheticOrder :=
  ((coinOf b ev rng o).2, o.see b ev (coinOf b ev rng o).1)

section

variable {b : ReferenceBook} {ev : BookEvent} {o o' : SyntheticOrder}

theorem drawsCoin_dead (h : o.anyLive = false) : drawsCoin b ev o = false := by
  unfold drawsCoin atLevelOf
  cases ev <;> simp [h]

/-- An order that does not draw has a sure coin. -/
theorem coinOf_of_not_draws (h : drawsCoin b ev o = false) : ∃ hit, ∀ rng, coinOf b ev rng o = (hit, rng) := by
  cases ev with
  | cancel r qty =>
    have hcoin (rng : Sampler) : coinOf b (.cancel r qty) rng o =
        if atLevelOf r o then cancelCoin (cancelBefore b o qty) rng o else (false, rng) := rfl
    by_cases hat : atLevelOf r o = true
    · by_cases hc : (o.models .bernoulliProportional).live = true ∧ cancelBefore b o qty > 0
      · have hdraws : Sampler.draws ⌊if (o.models .bernoulliProportional).ahead < 0 then 0 else
            (o.models .bernoulliProportional).ahead⌋₊ ⌊cancelBefore b o qty⌋₊ = false := by
          simpa [drawsCoin, hat, hc.1] using h
        refine ⟨_, fun rng => Eq.trans ?_ (Sampler.bernoulli_of_not_draws hdraws rng)⟩
        rw [hcoin, if_pos hat, cancelCoin, if_pos hc]
      · refine ⟨false, fun rng => ?_⟩
        rw [hcoin, if_pos hat, cancelCoin, if_neg hc]
    · refine ⟨false, fun rng => ?_⟩
      rw [hcoin, if_neg hat]
  | _ => exact ⟨false, fun _ => rfl⟩

/-- **The coin depends on the Bernoulli model and on the placement.** -/
theorem SyntheticOrder.SameModel.coin (h : SameModel .bernoulliProportional o o') (hflag : o.Flagged)
    (hflag' : o'.Flagged) (b : ReferenceBook) (ev : BookEvent) :
    drawsCoin b ev o' = drawsCoin b ev o ∧ ∀ rng, coinOf b ev rng o' = coinOf b ev rng o := by
  cases ev with
  | cancel r qty =>
    have hloc : o'.locate = o.locate := congrArg Placement.locate h.placement
    have hside : o'.side = o.side := congrArg Placement.side h.placement
    have hprice : o'.price = o.price := congrArg Placement.price h.placement
    have hbefore : cancelBefore b o' qty = cancelBefore b o qty := by
      unfold cancelBefore
      rw [hloc, hside, hprice]
    unfold drawsCoin coinOf cancelCoin
    simp only [h.model, hbefore]
    cases hl : (o.models .bernoulliProportional).live with
    | true =>
      have hat : atLevelOf r o' = atLevelOf r o := by
        unfold atLevelOf
        rw [hflag.anyLive hl, hflag'.anyLive (m := .bernoulliProportional) (by rw [h.model, hl]), hloc, hside,
          hprice]
      rw [hat]
      exact ⟨rfl, fun _ => rfl⟩
    | false => simp
  | _ => exact ⟨rfl, fun _ => rfl⟩

end

namespace QueueSim

variable {s t : QueueSim}

/-- The loop for an event throws the coins one after the other. -/
theorem Sound.react_toss (h : Sound s) (ev : BookEvent) :
    Scan.scan (toss s.book ev) s.bernRng s.live = ((s.react ev).bernRng, (s.react ev).live) := by
  rw [h.react_eq]
  refine Scan.scan_part Ledger.bernRng fun L o ho => ?_
  have hflag := h.live_flagged o ho
  unfold toss
  rw [visitOf_rng _ _ _ _ hflag, visitOf_order hflag]

theorem toss_quiet (b : ReferenceBook) (ev : BookEvent) (rng : Sampler) (o : SyntheticOrder)
    (h : drawsCoin b ev o = false) : (toss b ev rng o).1 = rng := by
  obtain ⟨hit, hcoin⟩ := coinOf_of_not_draws h
  unfold toss
  rw [hcoin]

/-- Each order behind an event, with the generator that it met. -/
theorem Sound.exists_toss (h : Sound s) (ev : BookEvent) {o₁ : SyntheticOrder} (ho₁ : o₁ ∈ (s.react ev).orders) :
    ∃ o ∈ s.orders, ∃ rng, o₁ = o.see s.book ev (coinOf s.book ev rng o).1 ∧
      (drawsCoin s.book ev o = true →
        (rng, o) ∈ Scan.met (toss s.book ev) s.bernRng (s.live.filter (drawsCoin s.book ev))) := by
  have hretired : (s.react ev).retired = s.retired := by
    rw [h.react_eq]
    rfl
  rcases List.mem_append.mp ho₁ with hr | hl
  · rw [hretired] at hr
    have hdead := h.dead o₁ hr
    refine ⟨o₁, List.mem_append_left _ hr, s.bernRng, (see_dead hdead _).symm, fun hd => ?_⟩
    rw [drawsCoin_dead hdead] at hd
    cases hd
  · have hlive : (s.react ev).live = (Scan.scan (toss s.book ev) s.bernRng s.live).2 := by rw [h.react_toss]
    rw [hlive, Scan.scan_met] at hl
    obtain ⟨⟨rng, o⟩, hmet, rfl⟩ := List.mem_map.mp hl
    have ho : o ∈ s.live := by
      rw [← Scan.map_met (f := toss s.book ev) s.bernRng s.live]
      exact List.mem_map_of_mem hmet
    refine ⟨o, List.mem_append_right _ ho, rng, rfl, fun hd => ?_⟩
    rw [← Scan.met_filter (toss_quiet s.book ev)]
    exact List.mem_filter.mpr ⟨hmet, hd⟩

/-! ## The order of the draws -/

/-- The live orders stand in the order of their numbers. -/
def Ascending (s : QueueSim) : Prop := (s.live.map SyntheticOrder.seq).Pairwise (· < ·)

theorem Ascending.visitAll (h : Ascending s) (hs : Sound s) {f : Visit} (hf : Updates f) :
    Ascending (s.visitAll f) := by
  have hseqs : s.live.map SyntheticOrder.seq = (s.visitAll f).live.map SyntheticOrder.seq := by
    apply Scan.map_eq_map (hs.forall₂_updates hf).1
    rintro o _ ⟨models, refs, rfl⟩
    rfl
  unfold Ascending
  rw [← hseqs]
  exact h

theorem Ascending.compact (h : Ascending s) : Ascending s.compact :=
  List.Pairwise.sublist (List.filter_sublist.map SyntheticOrder.seq) h

theorem ascending_invariant : Invariant anyMessage fun s => Sound s ∧ Ascending s where
  clock := fun h hsame => by
    refine ⟨sound_invariant.clock h.1 hsame, ?_⟩
    unfold Ascending
    rw [hsame.live]
    exact h.2
  message := fun {s} msg _ h => by
    refine ⟨sound_invariant.message msg trivial h.1, ?_⟩
    have hbook : Sound { s with book := bookAfter s.book msg } := h.1.withBook _
    have hasc : Ascending { s with book := bookAfter s.book msg } := h.2
    rw [hbook.react_eq]
    exact hasc.visitAll hbook (updates_visitOf _ _ _)
  settle := fun ts h => ⟨sound_invariant.settle ts h.1, h.2⟩
  sweep := fun {s} ts h =>
    ⟨sound_invariant.sweep ts h.1, (h.2.visitAll h.1 (updates_sweep s.cfg ts)).compact⟩
  retire := fun locate h => by
    refine ⟨sound_invariant.retire locate h.1, ?_⟩
    rw [h.1.visitAt_eq]
    exact (h.2.visitAll h.1 (updates_retire.guard fun o => o.locate == locate)).compact
  push := fun {s locate side ts o} he h => by
    refine ⟨sound_invariant.push he h.1, ?_⟩
    show ((s.live ++ [o]).map SyntheticOrder.seq).Pairwise (· < ·)
    rw [List.map_append, List.pairwise_append]
    refine ⟨h.2, List.pairwise_singleton _ _, fun n hn k hk => ?_⟩
    obtain ⟨o₁, ho₁, rfl⟩ := List.mem_map.mp hn
    obtain rfl : k = o.seq := List.mem_singleton.mp hk
    rw [(entry_spec he).2.1]
    exact h.1.seq_lt (List.mem_append_right _ ho₁)

/-! ## The arms -/

/-- The Bernoulli models are in the same state, or rule 4 has filled the one of the second arm. -/
def SameOrRuled : SyntheticOrder → SyntheticOrder → Prop :=
  SameOrEnded (fun st => st.reason = .nonDisplayedPrint) .bernoulliProportional

/-- No order whose Bernoulli model rule 4 has filled in the second arm draws in the first one. -/
def KeepsCoinsAt (b : ReferenceBook) (ev : BookEvent) (s t : QueueSim) : Prop :=
  ∀ o ∈ s.live, ∀ o' ∈ t.orders, o'.seq = o.seq →
    (o'.models .bernoulliProportional).reason = .nonDisplayedPrint → drawsCoin b ev o = false

instance (b : ReferenceBook) (ev : BookEvent) (s t : QueueSim) : Decidable (KeepsCoinsAt b ev s t) :=
  inferInstanceAs (Decidable (∀ o ∈ s.live, ∀ o' ∈ t.orders, o'.seq = o.seq →
    (o'.models .bernoulliProportional).reason = .nonDisplayedPrint → drawsCoin b ev o = false))

/-- At the message no coin is left over. -/
def KeepsCoins (p : QueueSim × QueueSim) (e : SimStep) : Prop :=
  ∀ msg, e = .message msg → KeepsCoinsAt (bookAfter p.1.book msg) (eventOf p.1.cfg p.1.book msg) p.1 p.2

/-- The arm without rule 4 and the arm with it, and the coins are at the same output. -/
structure CoinArms (s t : QueueSim) : Prop where
  arms : Rule4Arms s t
  ascending : Ascending s
  ascending' : Ascending t
  coins : t.bernRng = s.bernRng
  paired : BySeq SameOrRuled s t

section React

variable {b : ReferenceBook} {ev ev' : BookEvent}

theorem Sound.mem_live_of_draws (h : Sound s) {o : SyntheticOrder} (ho : o ∈ s.orders)
    (hd : drawsCoin b ev o = true) : o ∈ s.live := by
  rcases List.mem_append.mp ho with ho | ho
  · rw [drawsCoin_dead (h.dead o ho)] at hd
    cases hd
  · exact ho

/-- Where one of two paired orders draws, their Bernoulli models are in the same state. -/
theorem CoinArms.same_of_draws (h : CoinArms s t) (hkeeps : KeepsCoinsAt b ev s t) {o o' : SyntheticOrder}
    (ho : o ∈ s.orders) (ho' : o' ∈ t.orders) (hseq : o'.seq = o.seq)
    (hd : drawsCoin b ev o = true ∨ drawsCoin b ev o' = true) : SameModel .bernoulliProportional o o' := by
  rcases h.paired o ho o' ho' hseq with hsame | ⟨-, hreason, hl⟩
  · exact hsame
  · rcases hd with hd | hd
    · rw [hkeeps o (h.arms.sound.mem_live_of_draws ho hd) o' ho' hseq hreason] at hd
      cases hd
    · -- what rule 4 has filled draws no more
      unfold drawsCoin at hd
      cases ev <;> simp [hl] at hd

/-- The orders that draw are the same in both arms, and draw alike. -/
theorem CoinArms.drawers (h : CoinArms s t) (hkeeps : KeepsCoinsAt b ev s t) :
    List.Forall₂ (fun o o' => o'.seq = o.seq ∧ ∀ rng, coinOf b ev rng o' = coinOf b ev rng o)
      (s.live.filter (drawsCoin b ev)) (t.live.filter (drawsCoin b ev)) := by
  have hcoin {o o' : SyntheticOrder} (ho : o ∈ s.orders) (ho' : o' ∈ t.orders) (hseq : o'.seq = o.seq)
      (hd : drawsCoin b ev o = true ∨ drawsCoin b ev o' = true) :
      drawsCoin b ev o' = drawsCoin b ev o ∧ ∀ rng, coinOf b ev rng o' = coinOf b ev rng o :=
    (h.same_of_draws hkeeps ho ho' hseq hd).coin (h.arms.sound.flagged o ho) (h.arms.sound'.flagged o' ho') b ev
  have hseqs : (s.live.filter (drawsCoin b ev)).map SyntheticOrder.seq =
      (t.live.filter (drawsCoin b ev)).map SyntheticOrder.seq := by
    refine (List.Pairwise.sublist (List.filter_sublist.map _) h.ascending).eq_of_mem_iff
      (List.Pairwise.sublist (List.filter_sublist.map _) h.ascending') fun n => ⟨fun hn => ?_, fun hn => ?_⟩
    · obtain ⟨o, ho, rfl⟩ := List.mem_map.mp hn
      obtain ⟨ho, hd⟩ := List.mem_filter.mp ho
      have hmem : o ∈ s.orders := List.mem_append_right _ ho
      obtain ⟨o', ho', hseq, -⟩ := h.paired.exists h.arms.sound h.arms.sound' h.arms.aligned hmem
      have hd' : drawsCoin b ev o' = true := (hcoin hmem ho' hseq (.inl hd)).1.trans hd
      exact List.mem_map.mpr ⟨o', List.mem_filter.mpr ⟨h.arms.sound'.mem_live_of_draws ho' hd', hd'⟩, hseq⟩
    · obtain ⟨o', ho', rfl⟩ := List.mem_map.mp hn
      obtain ⟨ho', hd'⟩ := List.mem_filter.mp ho'
      have hmem' : o' ∈ t.orders := List.mem_append_right _ ho'
      have hlt := h.arms.sound'.seq_lt hmem'
      rw [h.arms.aligned.placements] at hlt
      obtain ⟨o, ho, hseq⟩ := List.mem_map.mp (h.arms.sound.seqs.mem_iff.mpr (List.mem_range.mpr hlt))
      have hd : drawsCoin b ev o = true := (hcoin ho hmem' hseq.symm (.inr hd')).1.symm.trans hd'
      exact List.mem_map.mpr ⟨o, List.mem_filter.mpr ⟨h.arms.sound.mem_live_of_draws ho hd, hd⟩, hseq⟩
  have hpairs : List.Forall₂ (fun o o' => SyntheticOrder.seq o' = SyntheticOrder.seq o)
      (s.live.filter (drawsCoin b ev)) (t.live.filter (drawsCoin b ev)) :=
    (Scan.forall₂_of_map_eq_map hseqs).imp fun _ _ => Eq.symm
  refine List.forall₂_iff_zip.mpr ⟨hpairs.length_eq, fun {o o'} hzip => ?_⟩
  have hseq := (List.forall₂_iff_zip.mp hpairs).2 hzip
  obtain ⟨ho, ho'⟩ := List.of_mem_zip hzip
  obtain ⟨ho, hd⟩ := List.mem_filter.mp ho
  exact ⟨hseq, (hcoin (List.mem_append_right _ ho) (List.mem_append_right _ (List.mem_of_mem_filter ho')) hseq
    (.inl hd)).2⟩

/-- **An event in both arms.** The coins that are thrown in both arms come out alike. -/
theorem CoinArms.react (h : CoinArms s t) (hkeeps : KeepsCoinsAt s.book ev s t)
    (hev : ev' = ev ∨ ev = .quiet ∧ ∃ locate price ts, ev' = .print locate price ts) :
    (t.react ev').bernRng = (s.react ev).bernRng ∧ BySeq SameOrRuled (s.react ev) (t.react ev') := by
  have hs := h.arms.sound
  have ht := h.arms.sound'
  have hbook : t.book = s.book := h.arms.aligned.book
  have hdrawers : List.Forall₂
      (fun o o' => o'.seq = o.seq ∧ ∀ rng, coinOf s.book ev' rng o' = coinOf s.book ev rng o)
      (s.live.filter (drawsCoin s.book ev)) (t.live.filter (drawsCoin s.book ev')) := by
    rcases hev with rfl | ⟨rfl, locate, price, ts, rfl⟩
    · exact h.drawers hkeeps
    · -- nobody draws at a print
      have hnone (os : List SyntheticOrder) (e : BookEvent) (he : ∀ o, drawsCoin s.book e o = false) :
          os.filter (drawsCoin s.book e) = [] := List.filter_eq_nil_iff.mpr fun o _ => by simp [he o]
      rw [hnone s.live .quiet fun _ => rfl, hnone t.live (.print locate price ts) fun _ => rfl]
      exact .nil
  have hmet := Scan.forall₂_met hdrawers (f := toss s.book ev) (k := toss s.book ev')
    (fun rng o o' hsame => by unfold toss; rw [hsame.2 rng]) s.bernRng
  constructor
  · have hrng (u : QueueSim) (hu : Sound u) (e : BookEvent) : (u.react e).bernRng =
        (Scan.scan (toss u.book e) u.bernRng (u.live.filter (drawsCoin u.book e))).1 := by
      rw [Scan.scan_filter (toss_quiet u.book e), hu.react_toss]
    rw [hrng t ht, hrng s hs, hbook, h.coins]
    exact hmet.1
  · intro o₁ ho₁ o₁' ho₁' hseq
    obtain ⟨o, ho, rng, rfl, hdraw⟩ := hs.exists_toss ev ho₁
    obtain ⟨o', ho', rng', rfl, hdraw'⟩ := ht.exists_toss ev' ho₁'
    have hflag := hs.flagged o ho
    have hflag' := ht.flagged o' ho'
    rw [SameFate.see_seq hflag, SameFate.see_seq hflag'] at hseq
    rw [hbook, h.coins] at hdraw'
    rw [hbook]
    refine SameOrEnded.see (fun _ _ => rfl) (h.paired o ho o' ho' hseq) hflag hflag' coinOf_live coinOf_live hev ?_
    rintro - rfl hsame
    obtain ⟨hdraws, hcoin⟩ := hsame.coin hflag hflag' s.book ev'
    cases hd : drawsCoin s.book ev' o with
    | false =>
      obtain ⟨hit, hsure⟩ := coinOf_of_not_draws hd
      rw [hcoin, hsure, hsure]
    | true =>
      -- both meet the same output
      obtain ⟨⟨rng₂, o₂⟩, hmem₂, hrng, hseq₂, -⟩ := Scan.exists_right hmet.2 (hdraw hd)
      have hnodup : ((Scan.met (toss s.book ev') s.bernRng (t.live.filter (drawsCoin s.book ev'))).map
          fun x => x.2.seq).Nodup := by
        have hseqs := List.Pairwise.sublist (List.filter_sublist (p := drawsCoin s.book ev') |>.map _) h.ascending'
        rw [← Scan.map_met (f := toss s.book ev') s.bernRng (t.live.filter _), List.map_map] at hseqs
        exact hseqs.imp fun hlt => hlt.ne
      have heq := List.inj_on_of_nodup_map hnodup hmem₂ (hdraw' (hdraws.trans hd)) (hseq₂.trans hseq.symm)
      obtain rfl : rng₂ = rng' := congrArg Prod.fst heq
      obtain rfl : rng₂ = rng := hrng
      rw [hcoin]

end React

/-- A loop without coins. -/
theorem visitAll_rng {f : Visit} (hf : Preserves (fun L _ => L.bernRng = s.bernRng) f) :
    (s.visitAll f).compact.bernRng = s.bernRng :=
  ledger_visitAll (I := fun L => L.bernRng = s.bernRng) hf rfl

theorem settle_rng (b : ReferenceBook) (ts : UInt64) (L : Ledger) : (L.settle b ts).bernRng = L.bernRng :=
  settle_keeps Ledger.bernRng (fun _ _ => rfl) (fun _ _ => rfl) (fun _ _ _ _ _ => rfl) b ts L

/-- **Coins and the parts of a step.** -/
theorem coins_pairing : Pairing (fun s t msg => KeepsCoins (s, t) (.message msg)) CoinArms where
  aligned := fun h => h.arms.aligned
  clock := fun h hs ht ha =>
    { arms := rule4_pairing.clock h.arms hs ht ha
      ascending := (ascending_invariant.clock ⟨h.arms.sound, h.ascending⟩ hs).2
      ascending' := (ascending_invariant.clock ⟨h.arms.sound', h.ascending'⟩ ht).2
      coins := by rw [hs.ledger, ht.ledger, h.coins]
      paired := h.paired.congr hs ht }
  message := fun {s t} msg hc h => by
    have hbook : bookAfter t.book msg = bookAfter s.book msg := by rw [h.arms.aligned.book]
    have hbooks : CoinArms { s with book := bookAfter s.book msg } { t with book := bookAfter t.book msg } :=
      { arms :=
          { aligned := { h.arms.aligned with book := hbook }
            off := h.arms.off
            sound := h.arms.sound.withBook _
            sound' := h.arms.sound'.withBook _
            covers := h.arms.covers }
        ascending := h.ascending
        ascending' := h.ascending'
        coins := h.coins
        paired := h.paired }
    obtain ⟨hcoins, hpaired⟩ := hbooks.react (hc msg rfl) (h.arms.eventOf msg)
    exact
      { arms := rule4_pairing.message msg trivial h.arms
        ascending := (ascending_invariant.message msg trivial ⟨h.arms.sound, h.ascending⟩).2
        ascending' := (ascending_invariant.message msg trivial ⟨h.arms.sound', h.ascending'⟩).2
        coins := hcoins
        paired := hpaired }
  settle := fun {s t} ts h =>
    { arms := rule4_pairing.settle ts h.arms
      ascending := h.ascending
      ascending' := h.ascending'
      coins := (settle_rng t.book ts t.toLedger).trans (h.coins.trans (settle_rng s.book ts s.toLedger).symm)
      paired := h.paired }
  sweep := fun {s t} ts h => by
    have hlife : t.cfg.maxLifeNs = s.cfg.maxLifeNs := by rw [h.arms.aligned.cfg]
    refine ⟨rule4_pairing.sweep ts h.arms, (ascending_invariant.sweep ts ⟨h.arms.sound, h.ascending⟩).2,
      (ascending_invariant.sweep ts ⟨h.arms.sound', h.ascending'⟩).2, ?_, ?_⟩
    · rw [visitAll_rng ((steady_rng _).sweep t.cfg ts), visitAll_rng ((steady_rng _).sweep s.cfg ts), h.coins]
    · exact h.paired.sweep h.arms.sound h.arms.sound' ts fun o o' hflag hflag' hR =>
        SameOrEnded.sweep hR hflag hflag' hlife ts
  retire := fun {s t} locate h => by
    have hrng (u : QueueSim) (hu : Sound u) : (u.visitAt locate retireVisit).compact.bernRng = u.bernRng := by
      rw [hu.visitAt_eq]
      exact visitAll_rng ((steady_rng _).retire.ite preserves_id _)
    refine ⟨rule4_pairing.retire locate h.arms, (ascending_invariant.retire locate ⟨h.arms.sound, h.ascending⟩).2,
      (ascending_invariant.retire locate ⟨h.arms.sound', h.ascending'⟩).2, ?_, ?_⟩
    · rw [hrng t h.arms.sound', hrng s h.arms.sound, h.coins]
    · exact h.paired.retire h.arms.sound h.arms.sound' locate fun o o' hflag hflag' hR =>
        SameOrEnded.cancelSymbol hR hflag hflag' locate
  push := fun {s t locate side ts o} he h => by
    have he' : t.entry locate side ts = some o := by rw [h.arms.aligned.entry, he]
    exact
      { arms := rule4_pairing.push he h.arms
        ascending := (ascending_invariant.push he ⟨h.arms.sound, h.ascending⟩).2
        ascending' := (ascending_invariant.push he' ⟨h.arms.sound', h.ascending'⟩).2
        coins := h.coins
        paired := h.paired.push h.arms.sound h.arms.sound' h.arms.aligned he (sameOrEnded_refl _ o) }

theorem coins_init (P : Platform) (cfg : QueueSimConfig) :
    CoinArms (init P { cfg with rule4NonDisplayedFills := false })
      (init P { cfg with rule4NonDisplayedFills := true }) where
  arms := rule4_init P cfg
  ascending := .nil
  ascending' := .nil
  coins := rfl
  paired := fun o ho => by cases ho

/-! ## Outcomes -/

/-- An order that rule 4 fills in no model of the second arm is filled or not, for the same reason and at the same
time, in the Bernoulli model of both arms. -/
def CoinsPaired (off on : QueueSim) : Prop :=
  ∀ o ∈ off.orders, ∀ o' ∈ on.orders, o'.placement = o.placement →
    (∀ m, (o'.models m).reason ≠ .nonDisplayedPrint) →
      (o'.models .bernoulliProportional).filled = (o.models .bernoulliProportional).filled ∧
      (o'.models .bernoulliProportional).reason = (o.models .bernoulliProportional).reason ∧
      (o'.models .bernoulliProportional).fillTs = (o.models .bernoulliProportional).fillTs

theorem coinsPaired_of_bySeq (h : BySeq SameOrRuled s t) : CoinsPaired s t := by
  intro o ho o' ho' hp hnot
  rcases h o ho o' ho' (congrArg Placement.seq hp) with hsame | ⟨-, hreason, -⟩
  · rw [hsame.model]
    exact ⟨rfl, rfl, rfl⟩
  · exact absurd hreason (hnot _)

/-- At the end of the session every order is cancelled. -/
theorem Sound.exists_finish (h : Sound s) {o₁ : SyntheticOrder} (ho₁ : o₁ ∈ s.finish.orders) :
    ∃ o ∈ s.orders, o₁ = seeCancelSymbol o.locate o := by
  have hall : List.Forall₂ (fun o o' => o' = seeCancelSymbol o.locate o) s.orders (s.visitAll retireVisit).orders := by
    have hself (o : SyntheticOrder) : seeCancelSymbol o.locate o = o.seeRetire := if_pos rfl
    apply forall₂_visitAll
    · intro L o _
      rw [hself, retireVisit_order]
    · intro o ho
      rw [hself, seeRetire_dead (h.dead o ho)]
  rw [finish_orders] at ho₁
  exact Scan.exists_left hall ho₁

theorem CoinArms.finish (h : CoinArms s t) : BySeq SameOrRuled s.finish t.finish := by
  intro o₁ ho₁ o₁' ho₁' hseq
  obtain ⟨o, ho, rfl⟩ := h.arms.sound.exists_finish ho₁
  obtain ⟨o', ho', rfl⟩ := h.arms.sound'.exists_finish ho₁'
  have hkept (o : SyntheticOrder) : (seeCancelSymbol o.locate o).seq = o.seq :=
    congrArg Placement.seq (placement_seeCancelSymbol o.locate).1
  rw [hkept, hkept] at hseq
  have hR : SameOrRuled o o' := h.paired o ho o' ho' hseq
  have hloc : o'.locate = o.locate := congrArg Placement.locate (SameOrEnded.placement hR)
  rw [hloc]
  exact SameOrEnded.cancelSymbol hR (h.arms.sound.flagged o ho) (h.arms.sound'.flagged o' ho') o.locate

/-- **When the arms throw the same coins.** While no order whose Bernoulli model rule 4 has filled in the arm with
the rule draws a coin in the arm without it, the orders that rule 4 does not fill come to the same in both arms, all
along the session and at its end. -/
theorem coins_paired (P : Platform) (cfg : QueueSimConfig) {es : List SimStep}
    (h : Runs.Along (Runs.both step step) KeepsCoins
      (init P { cfg with rule4NonDisplayedFills := false }, init P { cfg with rule4NonDisplayedFills := true }) es) :
    ∀ pre, pre <+: es →
      let off := run P { cfg with rule4NonDisplayedFills := false } pre
      let on := run P { cfg with rule4NonDisplayedFills := true } pre
      CoinsPaired off on ∧ CoinsPaired off.finish on.finish := by
  intro pre hpre off on
  have hstep (p : QueueSim × QueueSim) (e : SimStep) (hc : KeepsCoins p e) (hp : CoinArms p.1 p.2) :
      CoinArms (Runs.both step step p e).1 (Runs.both step step p e).2 := by
    refine coins_pairing.step hp fun msg hmsg msg' hmsg' => ?_
    cases hmsg'
    exact hc msg hmsg
  have harms := (h.of_isPrefix hpre).invariant hstep (coins_init P cfg)
  rw [Runs.run_both] at harms
  exact ⟨coinsPaired_of_bySeq harms.paired, coinsPaired_of_bySeq harms.finish⟩

/-- The first outputs of the engine for the default seed and for the seed of its coins, and the gaps of the default
mean that follow from the second and the fourth. -/
def firstOutputs : Platform where
  engine seed n :=
    if seed = 20190130 then
      [20037040275179087, 2545896184327772380, 16657957222919501401, 4553885230644107868].getD n 0
    else [6752333917133040460, 2612337821778417671].getD n 0
  gap _ u := if u = 2545896184327772380 then 37128861 else 70878231

/-- One symbol, bids only. -/
def bidsOnly : QueueSimConfig := { eligible := [1], forceSide := kBuy }

/-- A bid is placed and a print goes by at its price; after `ms` another bid is placed at the level. A real order
joins behind them and is deleted, and the one in front is executed. -/
def twoBids (ms : List Message) : List Message :=
  [.addOrder { locate := 1, ts := 0, orderRef := 1, side := kBuy, shares := 100, stock := [], price := 10 },
    .addOrder { locate := 1, ts := 0, orderRef := 2, side := kSell, shares := 100, stock := [], price := 20 },
    .brokenTrade { locate := 1, ts := 34200000000000 },
    .trade { locate := 1, ts := 34200000000001, price := 10 }] ++ ms ++
  [.brokenTrade { locate := 1, ts := 34200037128862 },
    .addOrder { locate := 1, ts := 34200037128863, orderRef := 3, side := kBuy, shares := 200, stock := [], price := 10 },
    .orderDelete { locate := 1, ts := 34200037128864, orderRef := 3 },
    .orderExecuted { locate := 1, ts := 34200037128865, orderRef := 1, executedShares := 100 }]

/-- An execution through the level. -/
def throughLevel : List Message :=
  [.addOrder { locate := 1, ts := 34200000000002, orderRef := 4, side := kBuy, shares := 100, stock := [], price := 9 },
    .orderExecuted { locate := 1, ts := 34200000000003, orderRef := 4, executedShares := 100 }]

/-- An execution goes through the level before the coins are thrown. -/
theorem coins_paired_through :
    Runs.Along (Runs.both step step) KeepsCoins
        (init firstOutputs { bidsOnly with rule4NonDisplayedFills := false },
          init firstOutputs { bidsOnly with rule4NonDisplayedFills := true })
        ((twoBids throughLevel).map .message) ∧
      ∀ pre, pre <+: (twoBids throughLevel).map .message →
        let off := run firstOutputs { bidsOnly with rule4NonDisplayedFills := false } pre
        let on := run firstOutputs { bidsOnly with rule4NonDisplayedFills := true } pre
        CoinsPaired off on ∧ CoinsPaired off.finish on.finish := by
  have hkeeps : Runs.Along (Runs.both step step) KeepsCoins
      (init firstOutputs { bidsOnly with rule4NonDisplayedFills := false },
        init firstOutputs { bidsOnly with rule4NonDisplayedFills := true })
      ((twoBids throughLevel).map .message) := by
    refine ⟨?_, ?_, ?_, ?_, ?_, ?_, ?_, ?_, ?_, ?_, trivial⟩ <;> rintro msg ⟨⟩ <;> decide +kernel
  exact ⟨hkeeps, coins_paired firstOutputs bidsOnly hkeeps⟩

/-- At the delete the first bid draws the first output in the arm without rule 4, and the second bid the next one. In
the arm with it the second bid draws the first output, and is not filled. -/
theorem not_coinsPaired :
    ¬ CoinsPaired
      (run firstOutputs { bidsOnly with rule4NonDisplayedFills := false } ((twoBids []).map .message))
      (run firstOutputs { bidsOnly with rule4NonDisplayedFills := true } ((twoBids []).map .message)) := by
  intro hpaired
  have hstep (s t : QueueSim) (e : SimStep) (h : Rule4Arms s t) : Rule4Arms (s.step e) (t.step e) :=
    rule4_pairing.step h fun _ _ => trivial
  have harms := Runs.run_simulation hstep ((twoBids []).map .message) _ _ (rule4_init firstOutputs bidsOnly)
  obtain ⟨o, ho, o', ho', hseq, hnot, hf, hf'⟩ : ∃ o ∈
      (run firstOutputs { bidsOnly with rule4NonDisplayedFills := false } ((twoBids []).map .message)).orders,
      ∃ o' ∈
        (run firstOutputs { bidsOnly with rule4NonDisplayedFills := true } ((twoBids []).map .message)).orders,
      o'.seq = o.seq ∧ (∀ m, (o'.models m).reason ≠ .nonDisplayedPrint) ∧
        (o.models .bernoulliProportional).filled = true ∧ (o'.models .bernoulliProportional).filled = false := by
    decide +kernel
  have hsame := (hpaired o ho o' ho' (harms.covers o ho o' ho' hseq).placement hnot).1
  rw [hf, hf'] at hsame
  cases hsame

end QueueSim

end Carteret
