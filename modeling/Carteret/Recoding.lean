import Carteret.FeatureFeeds

/-!
# Other references, other prices, other sides

A `Recoding` replaces the references, the sides and the prices of a session. The book goes along with it
(`Book.step_recode`), and so does what is read of it.

`exporter_renamed`: with other references only, the exporter writes the same file.
-/

namespace Carteret

open QueueSim (tsOf represents_bookAfter)

/-! ## Recodings -/

/-- References that differ still differ. -/
structure Recoding where
  ref : Ref → Ref
  side : UInt8 → UInt8 := id
  price : Price → Price := id
  injective : Function.Injective ref

namespace Recoding

variable (R : Recoding)

def add (v : AddOrder) : AddOrder :=
  { v with orderRef := R.ref v.orderRef, side := R.side v.side, price := R.price v.price }

def message : Message → Message
  | .addOrder v => .addOrder (R.add v)
  | .addOrderMpid v => .addOrderMpid { R.add v.toAddOrder with attribution := v.attribution }
  | .orderExecuted v => .orderExecuted { v with orderRef := R.ref v.orderRef }
  | .orderExecutedPrice v => .orderExecutedPrice { v with orderRef := R.ref v.orderRef }
  | .orderCancel v => .orderCancel { v with orderRef := R.ref v.orderRef }
  | .orderDelete v => .orderDelete { v with orderRef := R.ref v.orderRef }
  | .orderReplace v =>
    .orderReplace
      { v with
        oldOrderRef := R.ref v.oldOrderRef
        newOrderRef := R.ref v.newOrderRef
        price := R.price v.price }
  | .trade v => .trade { v with price := R.price v.price }
  | m => m

def entry (e : Entry) : Entry := { e with ref := R.ref e.ref, side := R.side e.side, price := R.price e.price }

@[simp] theorem entry_ref (e : Entry) : (R.entry e).ref = R.ref e.ref := rfl

@[simp] theorem entry_shares (e : Entry) : (R.entry e).shares = e.shares := rfl

end Recoding

namespace Book

variable (R : Recoding) (A : Book)

/-- The signed size of an execution, by the live orders. -/
def signedQty (ref : Ref) (qty : Shares) : ℚ :=
  match A.find ref with
  | none => 0
  | some e => if e.side = kBuy then -(qty.toNat : ℚ) else (qty.toNat : ℚ)

def recode : Book where
  orders := A.orders.map R.entry
  unique := by
    have hmap : (A.orders.map R.entry).map Entry.ref = (A.orders.map Entry.ref).map R.ref := by
      rw [List.map_map, List.map_map]
      rfl
    rw [hmap]
    exact A.unique.map R.injective

theorem find_recode (ref : Ref) : (A.recode R).find (R.ref ref) = (A.find ref).map R.entry := by
  have hsame : ((fun e : Entry => e.ref == R.ref ref) ∘ R.entry) = fun e : Entry => e.ref == ref := by
    funext e
    simp [R.injective.eq_iff]
  unfold find recode
  rw [List.find?_map, hsame]

theorem drop_recode (ref : Ref) : (A.drop ref).recode R = (A.recode R).drop (R.ref ref) := by
  have hsame : ((fun e : Entry => e.ref != R.ref ref) ∘ R.entry) = fun e : Entry => e.ref != ref := by
    funext e
    simp [bne, R.injective.eq_iff]
  refine ext_orders ?_
  show (A.orders.filter _).map R.entry = (A.orders.map R.entry).filter _
  rw [List.filter_map, hsame]

theorem place_recode (e : Entry) : (A.place e).recode R = (A.recode R).place (R.entry e) := by
  refine ext_orders ?_
  rw [orders_place, R.entry_ref, ← drop_recode]
  exact List.map_append

theorem reduce_recode (ref : Ref) (qty : Shares) :
    (A.reduce ref qty).recode R = (A.recode R).reduce (R.ref ref) qty := by
  refine ext_orders ?_
  show (A.orders.filterMap _).map R.entry = (A.orders.map R.entry).filterMap _
  rw [List.map_filterMap, List.filterMap_map]
  congr 1
  funext e
  unfold Entry.reduce Recoding.entry
  simp only [Function.comp_apply, R.injective.eq_iff]
  split_ifs <;> rfl

/-- **The book goes along.** -/
theorem step_recode (m : Message) : (A.step m).recode R = (A.recode R).step (R.message m) := by
  cases m with
  | addOrder v => exact A.place_recode R _
  | addOrderMpid v => exact A.place_recode R _
  | orderExecuted v => exact A.reduce_recode R _ _
  | orderExecutedPrice v => exact A.reduce_recode R _ _
  | orderCancel v => exact A.reduce_recode R _ _
  | orderDelete v => exact A.drop_recode R _
  | orderReplace v =>
    simp only [Recoding.message, step, find_recode]
    cases A.find v.oldOrderRef with
    | none => rfl
    | some e =>
      dsimp only [Option.map_some]
      rw [place_recode, drop_recode]
      rfl
  | _ => rfl

/-- What rests at a price rests at the price that replaces it, on the side `σ` of its side. -/
theorem level_recode {σ : Bool → Bool} (hside : ∀ s, (R.side s == kBuy) = σ (s == kBuy))
    (hσ : Function.Injective σ) (hprice : Function.Injective R.price) (locate : UInt16) (buy : Bool) (p : Price) :
    ((A.recode R).level locate (σ buy) (R.price p)).map Entry.shares = (A.level locate buy p).map Entry.shares := by
  have hsame : (Entry.restsAt locate (σ buy) (R.price p) ∘ R.entry) = Entry.restsAt locate buy p := by
    funext e
    have hbuy : (R.entry e).buy = σ e.buy := hside e.side
    rw [Bool.eq_iff_iff, Function.comp_apply, Entry.restsAt_iff, Entry.restsAt_iff, hbuy, hσ.eq_iff]
    exact and_congr_right fun _ => and_congr_right fun _ => hprice.eq_iff
  unfold level recode
  rw [List.filter_map, hsame, List.map_map]
  rfl

end Book

theorem ReferenceBook.Represents.signedQty {b : ReferenceBook} {A : Book} (h : b.Represents A) (ref : Ref)
    (qty : Shares) : FeatureExporter.signedQty b ref qty = A.signedQty ref qty := by
  unfold FeatureExporter.signedQty Book.signedQty ReferenceBook.order
  rw [← h.find_eq]
  cases b.orders[ref]? <;> rfl

theorem ReferenceBook.Represents.recode {R : Recoding} {b' : ReferenceBook} {A : Book}
    (h : b'.Represents (A.recode R)) (m : Message) :
    (bookAfter b' (R.message m)).Represents ((A.step m).recode R) := by
  rw [A.step_recode R m]
  exact represents_bookAfter h (R.message m)

/-! ## Other references -/

/-- Other references only. -/
def Recoding.renamed {f : Ref → Ref} (hf : Function.Injective f) : Recoding := { ref := f, injective := hf }

section

variable {f : Ref → Ref} (hf : Function.Injective f)

/-- A message under other references feeds the exporter the same. -/
theorem feedOf_renamed {b b' : ReferenceBook} {A : Book} (h : b.Represents A)
    (h' : b'.Represents (A.recode (.renamed hf))) (m : Message) :
    feedOf b' ((Recoding.renamed hf).message m) = feedOf b m := by
  have hread : ∀ l, Inside.read (bookAfter b' ((Recoding.renamed hf).message m)) l =
      Inside.read (bookAfter b m) l := fun l =>
    ((h'.recode m).shows l).unique (((represents_bookAfter h m).shows l).congr fun buy p =>
      (A.step m).level_recode (.renamed hf) (fun _ => rfl) Function.injective_id Function.injective_id l buy p)
  have hsigned : ∀ ref qty, FeatureExporter.signedQty b' (f ref) qty = FeatureExporter.signedQty b ref qty :=
    fun ref qty => by
      rw [h'.signedQty, h.signedQty]
      unfold Book.signedQty
      rw [show f ref = (Recoding.renamed hf).ref ref from rfl, A.find_recode]
      cases A.find ref <;> rfl
  cases m with
  | systemEvent v => rfl
  | stockDirectory v => rfl
  | operationalHalt v => rfl
  | stockTradingAction v => rfl
  | orderExecuted v =>
    exact congrArg₂ (fun i q => Feed.touch v.locate (tsOf v.toHeader) i q v.executedShares.toNat) (hread _)
      (hsigned v.orderRef v.executedShares)
  | orderExecutedPrice v =>
    exact congrArg₂ (fun i q => Feed.touch v.locate (tsOf v.toHeader) i q v.executedShares.toNat) (hread _)
      (hsigned v.orderRef v.executedShares)
  | _ => exact congrArg (fun i => Feed.touch _ _ i 0 0) (hread _)

theorem feeds_renamed : ∀ (ms : List Message) {b b' : ReferenceBook} {A : Book},
    b.Represents A → b'.Represents (A.recode (.renamed hf)) →
      feeds b' (ms.map (Recoding.renamed hf).message) = feeds b ms
  | [], _, _, _, _, _ => rfl
  | m :: ms, _, _, _, h, h' => by
    rw [List.map_cons]
    exact congrArg₂ List.cons (feedOf_renamed hf h h' m) (feeds_renamed ms (represents_bookAfter h m) (h'.recode m))

/-- **References are names.** Whatever the orders of a session are called, the rows, the audit stream, the counts and
the state of every symbol are the same, in either mode. -/
theorem exporter_renamed (selected : Finset UInt16) (window : UInt32) (lag1 auditing : Bool) (ms : List Message) :
    (Runs.run FeatureExporter.on (FeatureExporter.init selected window lag1 auditing)
        (ms.map (Recoding.renamed hf).message)).rest =
      (Runs.run FeatureExporter.on (FeatureExporter.init selected window lag1 auditing) ms).rest := by
  rw [FeatureExporter.rest_run, FeatureExporter.rest_run]
  exact congrArg (Runs.run FeatureExporter.take _)
    (feeds_renamed hf ms ReferenceBook.represents_empty ReferenceBook.represents_empty)

end

/-- Every reference five higher, around the end of the range. -/
theorem exporter_renamed_twoUpdates :
    (Runs.run FeatureExporter.on (FeatureExporter.init {1} 1 true true)
        (twoUpdates.map (Recoding.renamed fun _ _ h => (add_left_injective (5 : Ref)) h).message)).rest =
      (Runs.run FeatureExporter.on (FeatureExporter.init {1} 1 true true) twoUpdates).rest :=
  exporter_renamed _ {1} 1 true true twoUpdates

end Carteret
