import Carteret.QueueBook
import Carteret.Lib.Doubles

/-!
# The denominator of a cancel

A cancel reads the level's depth after the book has applied the message and adds the removed shares back. A
replacement at an unchanged price has by then put its own shares into the level, so what comes out is the
depth before plus the new shares.

1. What a cancel, a delete and a replacement make of the level's shares (`sumShares_after`).
2. The reconstruction is right exactly when nothing joins the level with the same message and no double of it is
   rounded (`roundedBefore_iff`).
-/

namespace Carteret

/-! ## The level after the message -/

section

variable {b : ReferenceBook} {A : Book} {r : Resolved} {e : Entry} {qty : Shares} {v : OrderReplace}

/-- The shares that a message brings to the level of the order that it names. -/
def joining (r : Resolved) : Message → Shares
  | .orderReplace v => if v.price = r.price then v.shares else 0
  | _ => 0

/-- The order `q` is another order of the level of `r`. -/
def sharesLevel (r q : Resolved) : Prop :=
  q.ref ≠ r.ref ∧ q.locate = r.locate ∧ (q.side == kBuy) = (r.side == kBuy) ∧ q.price = r.price

instance (r q : Resolved) : Decidable (sharesLevel r q) := inferInstanceAs (Decidable (_ ∧ _ ∧ _ ∧ _))

/-- The shares of another order of that level which the message drops as a duplicate. -/
def displaced (b : ReferenceBook) (r : Resolved) : Message → Shares
  | .orderReplace v =>
    (resolve b v.newOrderRef).elim 0 fun q => if sharesLevel r q then q.shares else 0
  | _ => 0

theorem sumShares_drop (hf : A.find e.ref = some e) (hr : Resolves r e) :
    Book.sumShares ((A.drop e.ref).level r.locate (r.side == kBuy) r.price) =
      Book.sumShares (A.level r.locate (r.side == kBuy) r.price) - r.shares.toUInt64 := by
  rw [Book.sumShares_level_drop hf, if_pos hr.restsAt, hr.shares]

/-- Shares taken from an order leave its level. -/
theorem sumShares_reduce (hf : A.find e.ref = some e) (hr : Resolves r e) (hle : qty ≤ r.shares) :
    Book.sumShares ((A.reduce e.ref qty).level r.locate (r.side == kBuy) r.price) =
      Book.sumShares (A.level r.locate (r.side == kBuy) r.price) - qty.toUInt64 := by
  have htaken : taken qty e.shares = qty := by
    unfold taken
    rw [if_neg (by rw [hr.shares]; exact UInt32.not_lt.mpr hle)]
  rw [Book.reduce_eq hf, htaken]
  split
  · rename_i hz
    have hall : qty = r.shares := by
      rw [← hr.shares]
      exact (sub_eq_zero.mp hz).symm
    rw [sumShares_drop hf hr, hall]
  · have hsub : (e.shares - qty).toUInt64 = e.shares.toUInt64 - qty.toUInt64 := by
      have hall := ReferenceBook.toUInt64_sub_taken qty e.shares
      rwa [htaken] at hall
    rw [Book.sumShares_level_setShares hf, if_pos hr.restsAt, hsub]
    grind

/-- What a live order with the new reference takes with it. -/
theorem sumShares_displaced (h : ReferenceBook.Represents b A) (hr : Resolves r e) :
    Book.sumShares (((A.drop e.ref).drop v.newOrderRef).level r.locate (r.side == kBuy) r.price) =
      Book.sumShares ((A.drop e.ref).level r.locate (r.side == kBuy) r.price) -
        (displaced b r (.orderReplace v)).toUInt64 := by
  have hfind := Book.find_drop A e.ref v.newOrderRef
  have hkeep : (A.drop e.ref).find v.newOrderRef = none →
      (A.drop e.ref).drop v.newOrderRef = A.drop e.ref := fun hnone =>
    Book.drop_of_absent (Book.find_eq_none.mp hnone)
  have hdisplaced : displaced b r (.orderReplace v) =
      (resolve b v.newOrderRef).elim 0 fun q => if sharesLevel r q then q.shares else 0 := rfl
  have hzero (S : UInt64) : S = S - (0 : Shares).toUInt64 := (sub_zero S).symm
  cases hn : resolve b v.newOrderRef with
  | none =>
    rw [h.resolve_none hn, ite_self] at hfind
    rw [hkeep hfind, hdisplaced, hn]
    exact hzero _
  | some q =>
    obtain ⟨hqref, f, hff, hq⟩ := h.resolve hn
    rw [hdisplaced, hn, Option.elim_some]
    by_cases hsame : v.newOrderRef = e.ref
    · rw [if_pos hsame] at hfind
      have hnot : ¬ sharesLevel r q := fun hc => hc.1 (by rw [hqref, hsame, hr.ref])
      rw [hkeep hfind, if_neg hnot]
      exact hzero _
    · rw [if_neg hsame, hff] at hfind
      have hiff : f.restsAt r.locate (r.side == kBuy) r.price = true ↔ sharesLevel r q := by
        rw [Entry.restsAt_iff, Entry.buy, hq.locate, hq.side, hq.price]
        refine ⟨fun hc => ⟨?_, hc⟩, fun hc => hc.2⟩
        rw [hqref, ← hr.ref]
        exact hsame
      rw [Book.sumShares_level_drop hfind]
      by_cases hat : f.restsAt r.locate (r.side == kBuy) r.price = true
      · rw [if_pos hat, if_pos (hiff.mp hat), hq.shares]
      · rw [if_neg hat, if_neg (fun hc => hat (hiff.mpr hc))]
        exact hzero _

/-- The replacement joins the level when it keeps the price. -/
theorem sumShares_replacement (hr : Resolves r e) (hnew : ∀ f ∈ A.orders, f.ref ≠ v.newOrderRef) :
    Book.sumShares ((A.place (Book.replacement v e)).level r.locate (r.side == kBuy) r.price) =
      Book.sumShares (A.level r.locate (r.side == kBuy) r.price) +
        (joining r (.orderReplace v)).toUInt64 := by
  have hiff : (Book.replacement v e).restsAt r.locate (r.side == kBuy) r.price = true ↔
      v.price = r.price := by
    rw [Entry.restsAt_iff]
    exact ⟨fun hc => hc.2.2, fun hc => ⟨hr.locate, congrArg (· == kBuy) hr.side, hc⟩⟩
  rw [Book.sumShares_level_place (e := Book.replacement v e) hnew]
  have hjoining : joining r (.orderReplace v) = if v.price = r.price then v.shares else 0 := rfl
  rw [hjoining]
  by_cases hp : v.price = r.price
  · rw [if_pos (hiff.mpr hp), if_pos hp]
    rfl
  · rw [if_neg (fun hc => hp (hiff.mp hc)), if_neg hp]
    exact (add_zero _).symm

end

namespace QueueSim

open Doubles

variable {b : ReferenceBook} {A : Book} {cfg : QueueSimConfig} {msg : Message} {r : Resolved} {qty : Shares}

/-- The level of the named order after a cancel, a delete or a replacement. -/
theorem sumShares_after (h : ReferenceBook.Represents b A) (hev : eventOf cfg b msg = .cancel r qty)
    (hle : qty ≤ r.shares) :
    Book.sumShares ((A.step msg).level r.locate (r.side == kBuy) r.price) =
      Book.sumShares (A.level r.locate (r.side == kBuy) r.price) - qty.toUInt64 -
        (displaced b r msg).toUInt64 + (joining r msg).toUInt64 := by
  have hquiet (S : UInt64) : S = S - (0 : Shares).toUInt64 + (0 : Shares).toUInt64 :=
    ((add_zero _).trans (sub_zero S)).symm
  rcases eventOf_cancel hev with ⟨v, rfl, hr, rfl⟩ | ⟨v, rfl, hr, rfl⟩ | ⟨v, rfl, hr, rfl⟩
  · obtain ⟨href, e, hf, hres⟩ := h.resolve hr
    have heref : e.ref = v.orderRef := hres.ref.trans href
    rw [← heref] at hf
    have hstep : A.step (.orderCancel v) = A.reduce e.ref v.cancelledShares := by rw [heref]; rfl
    rw [hstep, sumShares_reduce hf hres hle]
    exact hquiet _
  · obtain ⟨href, e, hf, hres⟩ := h.resolve hr
    have heref : e.ref = v.orderRef := hres.ref.trans href
    rw [← heref] at hf
    have hstep : A.step (.orderDelete v) = A.drop e.ref := by rw [heref]; rfl
    rw [hstep, sumShares_drop hf hres]
    exact hquiet _
  · obtain ⟨href, e, hf, hres⟩ := h.resolve hr
    have heref : e.ref = v.oldOrderRef := hres.ref.trans href
    have hstep : A.step (.orderReplace v) =
        ((A.drop e.ref).drop v.newOrderRef).place (Book.replacement v e) := by
      have hplace := Book.place_drop (A.drop e.ref) (Book.replacement v e)
      rw [step_orderReplace hf, ← heref]
      exact hplace.symm
    have hfind : A.find e.ref = some e := by rw [heref]; exact hf
    rw [hstep, sumShares_replacement hres (fun f hf' => (Book.mem_drop.mp hf').2),
      sumShares_displaced h hres, sumShares_drop hfind hres]

/-- The reconstruction, on 64 bits. -/
theorem add_taken_iff {S q d a : UInt64} (hd : d.toNat < 2 ^ 32) (ha : a.toNat < 2 ^ 32) :
    (S - q - d + a).toNat + q.toNat = S.toNat ↔ q.toNat ≤ S.toNat ∧ a.toNat = d.toNat := by
  have hS := S.toNat_lt
  have hq := q.toNat_lt
  rw [UInt64.toNat_add, UInt64.toNat_sub, UInt64.toNat_sub]
  omega

/-- The removed shares, added back to what the message leaves, are the depth before the removal if and only if the
level's counter holds them and the message brings as many shares to the level as it displaces. -/
theorem depth_add_iff (P : Platform) (cfg : QueueSimConfig) (es : List SimStep) {msg : Message}
    {r : Resolved} {qty : Shares} {o : SyntheticOrder}
    (hev : eventOf cfg (run P cfg es).book msg = .cancel r qty) (hle : qty ≤ r.shares)
    (hat : atLevelOf r o = true) :
    ((bookAfter (run P cfg es).book msg).depthAt o.locate o.side o.price).shares.toNat + qty.toNat =
        ((run P cfg es).book.depthAt o.locate o.side o.price).shares.toNat ↔
      qty.toNat ≤ ((run P cfg es).book.depthAt o.locate o.side o.price).shares.toNat ∧
        joining r msg = displaced (run P cfg es).book r msg := by
  have h := represents_sim P cfg es
  generalize (run P cfg es).book = b at h hev ⊢
  obtain ⟨⟨⟨-, hl⟩, hs⟩, hp⟩ : ((o.anyLive = true ∧ o.locate = r.locate) ∧ o.side = r.side) ∧
      o.price = r.price := by simpa [atLevelOf] using hat
  have hafter := sumShares_after h hev hle
  rw [hl, hs, hp, (represents_bookAfter h msg).depth_shares, h.depth_shares, hafter]
  have hiff := add_taken_iff (S := Book.sumShares ((bookOf es).level r.locate (r.side == kBuy) r.price))
    (q := qty.toUInt64) (d := (displaced b r msg).toUInt64) (a := (joining r msg).toUInt64)
    (by rw [UInt32.toNat_toUInt64]; exact (displaced b r msg).toNat_lt)
    (by rw [UInt32.toNat_toUInt64]; exact (joining r msg).toNat_lt)
  simp only [UInt32.toNat_toUInt64] at hiff
  rw [← UInt32.toNat_inj, ← hiff]

/-- The denominator of a cancel as it is computed, on doubles. -/
def roundedBefore (round : ℕ → ℕ) (b : ReferenceBook) (o : SyntheticOrder) (qty : Shares) : ℕ :=
  round (round (b.depthAt o.locate o.side o.price).shares.toNat + round qty.toNat)

theorem isDouble_shares (qty : Shares) : IsDouble qty.toNat :=
  isDouble_of_le (qty.toNat_lt.le.trans (by norm_num))

/-- Where neither the depth nor the sum is rounded, the models divide by it. -/
theorem roundedBefore_eq {round : ℕ → ℕ} (h : Rounding round) {b : ReferenceBook} {o : SyntheticOrder} {qty : Shares}
    (hdepth : IsDouble (b.depthAt o.locate o.side o.price).shares.toNat)
    (hsum : IsDouble ((b.depthAt o.locate o.side o.price).shares.toNat + qty.toNat)) :
    (roundedBefore round b o qty : ℚ) = cancelBefore b o qty := by
  unfold roundedBefore cancelBefore
  rw [h.add_eq hdepth (isDouble_shares qty) hsum]
  exact Nat.cast_add _ _

/-- **The denominator of a cancel.** In every reachable state, for every cancel of no more than rests, delete
and replacement at a live order's symbol, side and price: what the cancel takes for the depth before the
removal is that depth, however the platform rounds, if and only if the level's counter holds the removed shares, the
message brings as many shares to the level as it displaces, and that depth and the depth less the removed shares are
doubles. -/
theorem roundedBefore_iff (P : Platform) (cfg : QueueSimConfig) (es : List SimStep) {msg : Message}
    {r : Resolved} {qty : Shares} {o : SyntheticOrder}
    (hev : eventOf cfg (run P cfg es).book msg = .cancel r qty) (hle : qty ≤ r.shares)
    (hat : atLevelOf r o = true) :
    (∀ round, Rounding round → roundedBefore round (bookAfter (run P cfg es).book msg) o qty =
        ((run P cfg es).book.depthAt o.locate o.side o.price).shares.toNat) ↔
      (qty.toNat ≤ ((run P cfg es).book.depthAt o.locate o.side o.price).shares.toNat ∧
        joining r msg = displaced (run P cfg es).book r msg) ∧
      IsDouble (((run P cfg es).book.depthAt o.locate o.side o.price).shares.toNat - qty.toNat) ∧
        IsDouble ((run P cfg es).book.depthAt o.locate o.side o.price).shares.toNat := by
  have hadd := depth_add_iff P cfg es hev hle hat
  unfold roundedBefore
  rw [forall_round_add_iff, hadd]
  refine and_congr_right fun hright => ?_
  have hsum := hadd.mpr hright
  rw [← Nat.eq_sub_of_add_eq hsum]
  exact ⟨fun h => ⟨h.1, h.2.2⟩, fun h => ⟨h.1, isDouble_shares qty, h.2⟩⟩

/-! ## A replacement at its own price -/

/-- An engine that always draws zero. -/
def silent : Platform := ⟨fun _ _ => 0, fun _ _ => 0⟩

/-- Placements come from outside. -/
def directed : QueueSimConfig := { timerPlacement := false }

/-- A bid of 100 shares, an offer, and a synthetic bid behind the first. -/
def behindOne : List SimStep :=
  [.message (.addOrder
      { locate := 1, ts := 0, orderRef := 1, side := kBuy, shares := 100, stock := [], price := 10 }),
    .message (.addOrder
      { locate := 1, ts := 0, orderRef := 2, side := kSell, shares := 100, stock := [], price := 20 }),
    .placeDirected 1 kBuy 0]

/-- The bid is replaced by 50 shares at the price of the message. -/
def replacedAt (price : Price) : OrderReplace :=
  { locate := 1, ts := 0, oldOrderRef := 1, newOrderRef := 3, shares := 50, price := price }

/-- The bid. -/
def bid : Resolved := { ref := 1, locate := 1, side := kBuy, price := 10, shares := 100 }

theorem eventOf_replacedAt (price : Price) :
    eventOf directed (run silent directed behindOne).book (.orderReplace (replacedAt price)) =
      .cancel bid 100 := by
  have hbid : resolve (run silent directed behindOne).book 1 = some bid := by decide +kernel
  have hev (b : ReferenceBook) : eventOf directed b (.orderReplace (replacedAt price)) =
      (resolve b 1).elim .quiet fun r => .cancel r r.shares := rfl
  rw [hev, hbid]
  rfl

/-- A cancel of 100 shares, 100 of which were there, is held to be out of 150. -/
theorem cancelBefore_replaced :
    eventOf directed (run silent directed behindOne).book (.orderReplace (replacedAt 10)) = .cancel bid 100 ∧
    ∃ o ∈ (run silent directed behindOne).live, atLevelOf bid o = true ∧
      (∀ round, Rounding round →
        roundedBefore round (bookAfter (run silent directed behindOne).book (.orderReplace (replacedAt 10))) o 100 =
          150) ∧
      ((run silent directed behindOne).book.depthAt o.locate o.side o.price).shares = 100 := by
  refine ⟨eventOf_replacedAt 10, ?_⟩
  obtain ⟨o, ho, hat, hafter, hbefore⟩ : ∃ o ∈ (run silent directed behindOne).live, atLevelOf bid o = true ∧
      ((bookAfter (run silent directed behindOne).book (.orderReplace (replacedAt 10))).depthAt
        o.locate o.side o.price).shares.toNat = 50 ∧
      ((run silent directed behindOne).book.depthAt o.locate o.side o.price).shares = 100 := by decide +kernel
  refine ⟨o, ho, hat, fun round hround => ?_, hbefore⟩
  unfold roundedBefore
  rw [hafter]
  exact hround.add_eq (isDouble_of_le (by norm_num)) (isDouble_shares 100) (isDouble_of_le (by decide))

/-- At another price the denominator is right. -/
theorem roundedBefore_moved : ∃ o ∈ (run silent directed behindOne).live, ∀ round, Rounding round →
    roundedBefore round (bookAfter (run silent directed behindOne).book (.orderReplace (replacedAt 9))) o 100 =
      ((run silent directed behindOne).book.depthAt o.locate o.side o.price).shares.toNat := by
  have hlevel : ∃ o ∈ (run silent directed behindOne).live, atLevelOf bid o = true ∧
      ((run silent directed behindOne).book.depthAt o.locate o.side o.price).shares.toNat = 100 := by
    decide +kernel
  have hjoin : joining bid (.orderReplace (replacedAt 9)) =
      displaced (run silent directed behindOne).book bid (.orderReplace (replacedAt 9)) := by
    decide +kernel
  obtain ⟨o, ho, hat, hdepth⟩ := hlevel
  refine ⟨o, ho, (roundedBefore_iff silent directed behindOne (eventOf_replacedAt 9) (by decide) hat).mpr ?_⟩
  rw [hdepth]
  exact ⟨⟨by decide, hjoin⟩, isDouble_of_le (by decide), isDouble_of_le (by norm_num)⟩

end QueueSim

end Carteret
