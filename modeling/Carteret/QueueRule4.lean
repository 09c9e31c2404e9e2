import Carteret.QueueArms

/-!
# Rule 4 only adds fills

Two simulators on the same messages, one without rule 4 and one with it. Their orders are placed alike, and what
the first has filled in a model that throws no coin, the second has filled.
-/

namespace Carteret

open SyntheticOrder

/-- Every model that throws no coin is covered. -/
def CoversAll (o o' : SyntheticOrder) : Prop := ∀ m, m ≠ .bernoulliProportional → Covers m o o'

theorem CoversAll.placement {o o' : SyntheticOrder} (h : CoversAll o o') : o'.placement = o.placement :=
  (h .exact (by decide)).placement

namespace QueueSim

/-- The arm without rule 4 and the arm with it. -/
structure Rule4Arms (s t : QueueSim) : Prop where
  aligned : Aligned s t
  off : s.cfg.rule4NonDisplayedFills = false
  sound : Sound s
  sound' : Sound t
  covers : BySeq CoversAll s t

variable {s t : QueueSim}

/-- Both arms make the same of a message, but for a print that only rule 4 reads. -/
theorem Rule4Arms.eventOf (h : Rule4Arms s t) (msg : Message) :
    eventOf t.cfg t.book msg = eventOf s.cfg s.book msg ∨
      eventOf s.cfg s.book msg = .quiet ∧ ∃ locate price ts, eventOf t.cfg t.book msg = .print locate price ts := by
  rw [h.aligned.book]
  cases msg with
  | trade v =>
    unfold Carteret.eventOf
    rw [h.off]
    cases t.cfg.rule4NonDisplayedFills with
    | false => exact .inl rfl
    | true => exact .inr ⟨rfl, _, _, _, rfl⟩
  | _ => exact .inl rfl

/-- What a loop over the orders leaves alone. -/
theorem Aligned.react (h : Aligned s t) (hs : Sound s) (ht : Sound t) (ev ev' : BookEvent) :
    Aligned (s.react ev) (t.react ev') := by
  rw [hs.react_eq, ht.react_eq]
  exact { h with }

theorem Rule4Arms.placed (h : Rule4Arms s t) {s' t' : QueueSim} (ha : Aligned s' t') (hcfg : s'.cfg = s.cfg)
    (hs : Sound s') (ht : Sound t') (hc : BySeq CoversAll s' t') : Rule4Arms s' t' :=
  ⟨ha, by rw [hcfg, h.off], hs, ht, hc⟩

/-- **Rule 4 and the parts of a step.** -/
theorem rule4_pairing : Pairing (fun _ _ _ => True) Rule4Arms where
  aligned := Rule4Arms.aligned
  clock := fun h hs ht ha => h.placed ha hs.cfg (sound_invariant.clock h.sound hs)
    (sound_invariant.clock h.sound' ht) (h.covers.congr hs ht)
  message := fun {s t} msg _ h => by
    have hs : Sound { s with book := bookAfter s.book msg } := h.sound.withBook _
    have ht : Sound { t with book := bookAfter t.book msg } := h.sound'.withBook _
    have hbook : Aligned { s with book := bookAfter s.book msg } { t with book := bookAfter t.book msg } :=
      { h.aligned with book := by rw [h.aligned.book] }
    have hcfg : (QueueSim.react { s with book := bookAfter s.book msg }
        (Carteret.eventOf s.cfg s.book msg)).cfg = s.cfg := by
      rw [hs.react_eq]
      rfl
    refine h.placed (hbook.react hs ht _ _) hcfg (sound_invariant.message msg trivial h.sound)
      (sound_invariant.message msg trivial h.sound') ?_
    intro o₁ ho₁ o₁' ho₁' hseq
    obtain ⟨o, ho, hit, hhit, rfl⟩ := Scan.exists_left (hs.react_orders _) ho₁
    obtain ⟨o', ho', hit', hhit', rfl⟩ := Scan.exists_left (ht.react_orders _) ho₁'
    have hflag := h.sound.flagged o ho
    have hflag' := h.sound'.flagged o' ho'
    rw [SameFate.see_seq hflag, SameFate.see_seq hflag'] at hseq
    intro m hm
    have hbefore := covers_iff.mp (h.covers o ho o' ho' hseq m hm)
    show Covers m (o.see (bookAfter s.book msg) _ hit) (o'.see (bookAfter t.book msg) _ hit')
    rw [show bookAfter t.book msg = bookAfter s.book msg by rw [h.aligned.book]]
    exact SameOrEnded.see (fun _ _ => rfl) hbefore hflag hflag' hhit hhit' (h.eventOf msg)
      fun hbern => absurd hbern hm
  settle := fun {s t} ts h => h.placed { h.aligned with } rfl (sound_invariant.settle ts h.sound)
    (sound_invariant.settle ts h.sound') h.covers
  sweep := fun {s t} ts h => by
    have hlife : t.cfg.maxLifeNs = s.cfg.maxLifeNs := by rw [h.aligned.cfg]
    refine h.placed { h.aligned with } rfl (sound_invariant.sweep ts h.sound)
      (sound_invariant.sweep ts h.sound') (h.covers.sweep h.sound h.sound' ts ?_)
    intro o o' hflag hflag' hR m hm
    exact (covers_iff.mp (hR m hm)).sweep hflag hflag' hlife ts
  retire := fun {s t} locate h => by
    have ha : Aligned (s.visitAt locate retireVisit).compact (t.visitAt locate retireVisit).compact :=
      { h.aligned with }
    refine h.placed ha rfl (sound_invariant.retire locate h.sound) (sound_invariant.retire locate h.sound')
      (h.covers.retire h.sound h.sound' locate ?_)
    intro o o' hflag hflag' hR m hm
    exact (covers_iff.mp (hR m hm)).cancelSymbol hflag hflag' locate
  push := fun {s t locate side ts o} he h => by
    have he' : t.entry locate side ts = some o := by rw [h.aligned.entry, he]
    have ha : Aligned (s.push o) (t.push o) :=
      { h.aligned with placements := congrArg (· + 1) h.aligned.placements }
    exact h.placed ha rfl (h.sound.push he) (h.sound'.push he')
      (h.covers.push h.sound h.sound' h.aligned he fun m _ => covers_refl m o)

/-- The two configurations. -/
theorem rule4_init (P : Platform) (cfg : QueueSimConfig) :
    Rule4Arms (init P { cfg with rule4NonDisplayedFills := false })
      (init P { cfg with rule4NonDisplayedFills := true }) where
  aligned := ⟨rfl, rfl, rfl, rfl, rfl, rfl, rfl, rfl, rfl, rfl, rfl⟩
  off := rfl
  sound := sound_init P _
  sound' := sound_init P _
  covers := fun o ho => by cases ho

/-- The orders of the two arms, by their placements. -/
theorem Rule4Arms.orders (h : Rule4Arms s t) :
    (∀ o ∈ s.orders, ∃ o' ∈ t.orders, o'.placement = o.placement ∧ CoversAll o o') ∧
      ∀ o' ∈ t.orders, ∃ o ∈ s.orders, o'.placement = o.placement := by
  refine ⟨fun o ho => ?_, fun o' ho' => ?_⟩
  · obtain ⟨o', ho', -, hR⟩ := h.covers.exists h.sound h.sound' h.aligned ho
    exact ⟨o', ho', hR.placement, hR⟩
  · have hlt := h.sound'.seq_lt ho'
    rw [h.aligned.placements] at hlt
    obtain ⟨o, ho, hseq⟩ := List.mem_map.mp (h.sound.seqs.mem_iff.mpr (List.mem_range.mpr hlt))
    exact ⟨o, ho, (h.covers o ho o' ho' hseq.symm).placement⟩

end QueueSim

end Carteret
