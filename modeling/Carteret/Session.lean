import Carteret.Census
import Carteret.DifferentialComplete
import Carteret.ParserSafety

/-!
# From the octets to the book

A book reads the fields of a message through its typed view. `Message.ofFields` takes the fields that the books
read from a decoded message, by the names of the accessors; `Session.read` is what a run of the parser hands to a
handler that has an `on` for the fourteen types of `Message`.

1. What a view shows depends on the octets of its own message only (`decodeMessage_slice`).
2. A run hands over the bodies of the frames, each decoded by itself (`readAs_frames`).
3. A written session is replayed to the book of its bodies, and a cut one to the book of the bodies that end before
   the cut (`replay_written`).
-/

namespace Carteret

/-! ## Views -/

def FieldValue.toNat : FieldValue → ℕ
  | int v => v
  | text _ => 0

def FieldValue.toText : FieldValue → Bytes
  | text s => s
  | int _ => []

namespace View

/-- The accessors of a view by name. -/
def names (t : MsgType) : List String := (header ++ body t).map Accessor.name

/-- What the accessor `name` returns, on the fields of the message. -/
def field (t : MsgType) (vs : List FieldValue) (name : String) : FieldValue :=
  vs.getD ((names t).idxOf name) (.int 0)

end View

namespace Message

/-- The view of a message, in the fields that the books read; `none` for the types that no book hears. -/
def ofFields (t : MsgType) (vs : List FieldValue) : Option Message :=
  let int := fun name => (View.field t vs name).toNat
  let text := fun name => (View.field t vs name).toText
  let header : Header := { locate := UInt16.ofNat (int "locate"), ts := BitVec.ofNat 48 (int "ts") }
  let add : AddOrder :=
    { toHeader := header, orderRef := UInt64.ofNat (int "order_ref"), side := UInt8.ofNat (int "side"),
      shares := UInt32.ofNat (int "shares"), stock := text "stock", price := UInt32.ofNat (int "price") }
  match t with
  | .systemEvent => some (.systemEvent { toHeader := header, eventCode := UInt8.ofNat (int "event_code") })
  | .stockDirectory =>
    some (.stockDirectory { toHeader := header, marketCategory := UInt8.ofNat (int "market_category") })
  | .stockTradingAction =>
    some (.stockTradingAction { toHeader := header, tradingState := UInt8.ofNat (int "trading_state") })
  | .operationalHalt =>
    some (.operationalHalt { toHeader := header, marketCode := UInt8.ofNat (int "market_code")
                             haltAction := UInt8.ofNat (int "halt_action") })
  | .addOrder => some (.addOrder add)
  | .addOrderMpid => some (.addOrderMpid { toAddOrder := add, attribution := text "attribution" })
  | .orderExecuted =>
    some (.orderExecuted { toHeader := header, orderRef := UInt64.ofNat (int "order_ref")
                           executedShares := UInt32.ofNat (int "executed_shares") })
  | .orderExecutedPrice =>
    some (.orderExecutedPrice { toHeader := header, orderRef := UInt64.ofNat (int "order_ref")
                                executedShares := UInt32.ofNat (int "executed_shares") })
  | .orderCancel =>
    some (.orderCancel { toHeader := header, orderRef := UInt64.ofNat (int "order_ref")
                         cancelledShares := UInt32.ofNat (int "cancelled_shares") })
  | .orderDelete => some (.orderDelete { toHeader := header, orderRef := UInt64.ofNat (int "order_ref") })
  | .orderReplace =>
    some (.orderReplace { toHeader := header, oldOrderRef := UInt64.ofNat (int "old_order_ref")
                          newOrderRef := UInt64.ofNat (int "new_order_ref")
                          shares := UInt32.ofNat (int "shares"), price := UInt32.ofNat (int "price") })
  | .trade => some (.trade { toHeader := header, price := UInt32.ofNat (int "price") })
  | .crossTrade => some (.crossTrade { toHeader := header, shares := UInt64.ofNat (int "shares") })
  | .brokenTrade => some (.brokenTrade header)
  | _ => none

/-- The message that a body is. -/
def ofBody (body : Bytes) : Option Message :=
  (bodyMessage body).bind fun e => ofFields e.1 (decodeMessage e.1 e.2 0)

end Message

/-- The message of the view that a call hands over. -/
def HandlerCall.view (buf : Bytes) : HandlerCall → Option Message
  | on t p => Message.ofFields t (decodeMessage t buf p)
  | _ => none

/-! ## Sessions -/

namespace Session

/-- The messages that a run in a given form hands to a book. -/
def readAs (buf : Bytes) (framing : Framing) : Option (List Message) :=
  (Parser.runAs buf framing).map fun r => r.2.filterMap (HandlerCall.view buf)

/-- The messages that a run hands to a book. -/
def read (buf : Bytes) : Option (List Message) := readAs buf (detectFraming buf)

/-- A run of the parser into a reference book for the venue. -/
def replay (code : UInt8) (buf : Bytes) : Option ReferenceBook :=
  (read buf).map (ReferenceBook.run { venueMarketCode := code })

end Session

/-! ## A view and its own octets -/

section

variable {buf : Bytes} {p : ℕ}

theorem byteAt_drop (buf : Bytes) (p i : ℕ) : byteAt (buf.drop p) i = byteAt buf (p + i) := by
  unfold byteAt
  rw [List.getD_eq_getElem?_getD, List.getElem?_drop, ← List.getD_eq_getElem?_getD]

theorem slice_drop (buf : Bytes) (p i n : ℕ) : slice (buf.drop p) i n = slice buf (p + i) n := by
  unfold slice
  rw [List.drop_drop]

theorem alpha_drop (buf : Bytes) (p i n : ℕ) : alpha (buf.drop p) i n = alpha buf (p + i) n := by
  have hlen : ∀ n, alphaLen (buf.drop p) i n = alphaLen buf (p + i) n := by
    intro n
    induction n with
    | zero => rfl
    | succ n ih =>
      unfold alphaLen
      rw [List.getD_eq_getElem?_getD, List.getElem?_drop, ← List.getD_eq_getElem?_getD, ih, Nat.add_assoc]
  unfold alpha
  rw [hlen, slice_drop]

/-- Moving the message to the front. -/
theorem Read.value_drop (r : Read) (buf : Bytes) (p : ℕ) : r.value (buf.drop p) 0 = r.value buf p := by
  cases r <;> simp only [Read.value, Carteret.be16, Carteret.be32, Carteret.be64, Carteret.tracking,
    Carteret.timestamp, headerTail, byteAt_drop, alpha_drop, Nat.zero_add, Nat.add_assoc]

/-- A view shows its own octets. -/
theorem decodeMessage_slice (t : MsgType) (h : p + t.len ≤ buf.length) :
    decodeMessage t (slice buf p t.len) 0 = decodeMessage t buf p := by
  unfold decodeMessage
  refine List.map_congr_left fun r hr => ?_
  have htouched := accessors_touched t r hr
  have hlen : (slice buf p t.len).length = t.len := length_slice h
  rw [← r.value_drop buf p]
  refine Read.value_congr (n := t.len) (by omega) (by rw [List.length_drop]; omega) ?_ htouched
  unfold slice
  rw [List.drop_zero, List.drop_zero, List.take_take, Nat.min_self]

end

/-- A call of `on` shows the message that its body is. -/
theorem view_on {buf : Bytes} {t : MsgType} {p : ℕ} (h : p + t.len ≤ buf.length) :
    (HandlerCall.on t p).view buf = Message.ofFields t (decodeMessage t (slice buf p t.len) 0) := by
  rw [decodeMessage_slice t h]
  rfl

namespace Session

section

variable {buf : Bytes} {framing : Framing} {n : ℕ}

/-! ## A run -/

/-- The views of the calls, from the octets that they cover. -/
theorem filterMap_view {calls : List HandlerCall}
    (h : ∀ e ∈ calls.filterMap HandlerCall.message, e.2 + e.1.len ≤ buf.length) :
    calls.filterMap (HandlerCall.view buf) =
      (messages buf calls).filterMap fun e => Message.ofFields e.1 (decodeMessage e.1 e.2 0) := by
  unfold messages
  rw [List.filterMap_map, List.filterMap_filterMap]
  refine List.filterMap_congr fun call hcall => ?_
  cases call with
  | on t p => exact view_on (h (t, p) (List.mem_filterMap.mpr ⟨_, hcall, rfl⟩))
  | onUnknownType m => rfl
  | onLengthMismatch m => rfl

/-- **A run hands over the bodies of the frames**, each decoded by itself. -/
theorem readAs_frames (buf : Bytes) (framing : Framing) :
    readAs buf framing = some (((frames framing buf).map (Frame.body buf)).filterMap Message.ofBody) := by
  obtain ⟨stop, rd', m', m'', -, hrun⟩ := Parser.runAs_frames buf framing
  have hin : ∀ e ∈ (Parser.callsFrom buf {} (frames framing buf)).filterMap HandlerCall.message,
      e.2 + e.1.len ≤ buf.length := by
    intro e he
    rw [Parser.callsFrom_message] at he
    obtain ⟨f, hf, hm⟩ := List.mem_filterMap.mp he
    obtain ⟨-, -, hstop⟩ := frameAt_spec (mem_framesFrom hf).1
    obtain ⟨h2, h1, -⟩ := Frame.message_spec hm
    rw [h2, h1]
    exact hstop
  unfold readAs
  rw [hrun, Option.map_some, filterMap_view hin, messages_frames, List.filterMap_filterMap]
  rfl

/-- A read is never stuck. -/
theorem read_frames (buf : Bytes) :
    read buf = some (((frames (detectFraming buf) buf).map (Frame.body buf)).filterMap Message.ofBody) :=
  readAs_frames buf (detectFraming buf)

/-- What a cut file hands over: the messages of the frames that end before the cut. -/
theorem readAs_take (hn : n ≤ buf.length) :
    readAs (buf.take n) framing = some
      ((((frames framing buf).filter (·.stop ≤ n)).map (Frame.body buf)).filterMap Message.ofBody) := by
  rw [readAs_frames, frames_take hn]
  congr 2
  refine List.map_congr_left fun f hf => ?_
  exact body_take (by simpa using (List.mem_filter.mp hf).2)

/-! ## Written sessions -/

/-- How many of the bodies end within `n` octets. -/
def whole (framing : Framing) : List Bytes → ℕ → ℕ
  | [], _ => 0
  | b :: bodies, n =>
    if (encodeFrame framing b).length ≤ n then whole framing bodies (n - (encodeFrame framing b).length) + 1 else 0

theorem whole_le (bodies : List Bytes) : ∀ n, whole framing bodies n ≤ bodies.length := by
  induction bodies with
  | nil => exact fun _ => le_rfl
  | cons b bodies ih =>
    intro n
    unfold whole
    split_ifs
    · exact Nat.succ_le_succ (ih _)
    · exact Nat.zero_le _

/-- The frames of written bodies that end within the cut. -/
theorem frames_cut {bodies : List Bytes} (hb : ∀ b ∈ bodies, Encodable framing b) :
    ∀ (pre tail buf : Bytes) (fuel n : ℕ), buf = pre ++ (bodies.flatMap (encodeFrame framing) ++ tail) →
      bodies.length < fuel →
      frameAt framing buf (pre.length + (bodies.flatMap (encodeFrame framing)).length) = none →
      ((framesFrom framing buf fuel pre.length).filter (·.stop ≤ pre.length + n)).map (Frame.body buf) =
        bodies.take (whole framing bodies n) := by
  induction bodies with
  | nil =>
    intro pre tail buf fuel n _ _ hend
    rw [framesFrom_none (by simpa using hend)]
    rfl
  | cons b bodies ih =>
    intro pre tail buf fuel n hbuf hfuel hend
    obtain ⟨fuel, rfl⟩ : ∃ k, fuel = k + 1 := ⟨fuel - 1, by simp at hfuel; omega⟩
    have hbuf' : buf = pre ++ (encodeFrame framing b ++ (bodies.flatMap (encodeFrame framing) ++ tail)) := by
      rw [hbuf, List.flatMap_cons, List.append_assoc]
    have hlen := length_encodeFrame framing b
    have hat := frameAt_encodeFrame (hb b (by simp)) pre (bodies.flatMap (encodeFrame framing) ++ tail)
    rw [← hbuf'] at hat
    have hstop : (Frame.mk pre.length b.length).stop = (pre ++ encodeFrame framing b).length := by
      show pre.length + 2 + b.length = _
      rw [List.length_append, hlen, Nat.add_assoc]
    have hrest := ih (fun b' hb' => hb b' (by simp [hb'])) (pre ++ encodeFrame framing b) tail buf fuel
      (n - (encodeFrame framing b).length) (by rw [hbuf', List.append_assoc]) (by simpa using hfuel)
      (by rw [List.length_append, Nat.add_assoc]; simpa [List.length_append] using hend)
    rw [framesFrom_some hat, List.filter_cons, hstop, List.length_append]
    unfold whole
    by_cases hfit : (encodeFrame framing b).length ≤ n
    · have hsum : pre.length + (encodeFrame framing b).length + (n - (encodeFrame framing b).length) =
          pre.length + n := by omega
      rw [List.length_append, hsum] at hrest
      rw [if_pos (by simpa using hfit), if_pos hfit, List.map_cons, hrest, List.take_succ_cons]
      congr 1
      show slice buf (pre.length + 2) b.length = b
      rw [hbuf']
      exact slice_encodeFrame framing pre b _
    · -- the later frames end behind the cut as well
      rw [if_neg (by simpa using hfit), if_neg hfit, List.take_zero]
      have hnone : (framesFrom framing buf fuel (pre.length + (encodeFrame framing b).length)).filter
          (·.stop ≤ pre.length + n) = [] := by
        refine List.filter_eq_nil_iff.mpr fun f hf => ?_
        have hlt := (mem_framesFrom hf).2
        have hfstop : f.stop = f.pos + 2 + f.len := rfl
        simp only [decide_eq_true_eq]
        omega
      rw [hnone]
      rfl

theorem whole_spec (framing : Framing) (bodies : List Bytes) : ∀ n,
    ((bodies.take (whole framing bodies n)).flatMap (encodeFrame framing)).length ≤ n ∧
      (whole framing bodies n < bodies.length →
        n < ((bodies.take (whole framing bodies n + 1)).flatMap (encodeFrame framing)).length) := by
  induction bodies with
  | nil => exact fun n => ⟨Nat.zero_le n, fun h => absurd h (Nat.lt_irrefl 0)⟩
  | cons b bodies ih =>
    intro n
    unfold whole
    split_ifs with hfit
    · obtain ⟨hle, hlt⟩ := ih (n - (encodeFrame framing b).length)
      simp only [List.take_succ_cons, List.flatMap_cons, List.length_append, List.length_cons] at hle hlt ⊢
      exact ⟨by omega, fun h => by have := hlt (by omega); omega⟩
    · refine ⟨Nat.zero_le n, fun _ => ?_⟩
      rw [List.take_succ_cons, List.flatMap_cons, List.length_append]
      omega

/-- The whole bodies of a session that is not cut. -/
theorem whole_of_le {bodies : List Bytes} {n : ℕ} (h : (bodies.flatMap (encodeFrame framing)).length ≤ n) :
    whole framing bodies n = bodies.length := by
  by_contra hne
  have hlt : whole framing bodies n < bodies.length := lt_of_le_of_ne (whole_le bodies n) hne
  have hcut := (whole_spec framing bodies n).2 hlt
  have hsub : ((bodies.take (whole framing bodies n + 1)).flatMap (encodeFrame framing)).length ≤
      (bodies.flatMap (encodeFrame framing)).length := by
    conv_rhs => rw [← List.take_append_drop (whole framing bodies n + 1) bodies, List.flatMap_append,
      List.length_append]
    exact Nat.le_add_right _ _
  omega

/-- What a cut file hands over when its form is known. -/
theorem readAs_cut {bodies : List Bytes} (hb : ∀ b ∈ bodies, Encodable framing b) {tail : Bytes}
    (hbuf : buf = bodies.flatMap (encodeFrame framing) ++ tail)
    (hclosed : frameAt framing buf (bodies.flatMap (encodeFrame framing)).length = none) (n : ℕ) :
    readAs (buf.take n) framing = some ((bodies.take (whole framing bodies n)).filterMap Message.ofBody) := by
  have hle := length_le_flatMap framing bodies
  have hlen : buf.length = (bodies.flatMap (encodeFrame framing)).length + tail.length := by
    rw [hbuf, List.length_append]
  have hframes : ∀ n, (((frames framing buf).filter (·.stop ≤ n)).map (Frame.body buf)) =
      bodies.take (whole framing bodies n) := fun n => by
    have hcut := frames_cut hb [] tail buf (buf.length + 1) n hbuf (by omega)
      (by rw [List.length_nil, Nat.zero_add]; exact hclosed)
    rwa [List.length_nil, Nat.zero_add] at hcut
  by_cases hn : n ≤ buf.length
  · rw [readAs_take hn, hframes]
  · have hall : whole framing bodies buf.length = whole framing bodies n := by
      rw [whole_of_le (by omega), whole_of_le (by omega)]
    have hread : readAs (buf.take buf.length) framing = _ := readAs_take le_rfl
    rwa [List.take_length, hframes, hall, ← List.take_of_length_le (by omega : buf.length ≤ n)] at hread

/-- The first prefix decides the form of a length-prefixed file, however it is cut. -/
theorem detectFraming_cut {bodies : List Bytes} (hb : ∀ b ∈ bodies, Encodable .lengthPrefixed b)
    {closing : Option Bytes} (hclosing : bodies = [] → closing.getD [] = []) (n : ℕ) :
    detectFraming ((bodies.flatMap frame ++ closingBytes closing).take n) = .lengthPrefixed := by
  refine detectFraming_lengthPrefixed fun h3 => ?_
  rw [List.length_take] at h3
  rw [be16_take (by omega)]
  cases bodies with
  | nil =>
    cases closing with
    | none => exact absurd h3 (by simp [closingBytes])
    | some junk =>
      obtain rfl : junk = [] := hclosing rfl
      exact absurd h3 (by simp [closingBytes])
  | cons b bodies =>
    have hbuf : (b :: bodies).flatMap frame ++ closingBytes closing =
        encodeFrame .lengthPrefixed b ++ (bodies.flatMap frame ++ closingBytes closing) :=
      List.append_assoc _ _ _
    rw [hbuf]
    exact be16_lengthPrefixed (hb b List.mem_cons_self) _

/-- A zero-prefixed file that is taken for a length-prefixed one hands over nothing. -/
theorem frames_mistaken {bodies : List Bytes} (hb : ∀ b ∈ bodies, WellFormed b) (n : ℕ) :
    frames .lengthPrefixed ((bodies.flatMap (encodeFrame .zeroPrefixed)).take n) = [] := by
  refine framesFrom_none (if_neg fun hc => ?_)
  obtain ⟨h2, hne, -⟩ := hc
  rw [List.length_take] at h2
  cases bodies with
  | nil => simp at h2
  | cons b bodies =>
    refine hne ?_
    rw [be16_take (by omega), List.flatMap_cons]
    exact be16_zeroPrefixed [] b _

/-- A session that is not cut. -/
theorem read_written {bodies : List Bytes} (hb : ∀ b ∈ bodies, 0 < b.length ∧ b.length < 2 ^ 16)
    {closing : Option Bytes} (hclosing : bodies = [] → closing.getD [] = []) :
    read (bodies.flatMap frame ++ closingBytes closing) = some (bodies.filterMap Message.ofBody) := by
  have hb' : ∀ b ∈ bodies, Encodable .lengthPrefixed b := hb
  have hdet := detectFraming_cut hb hclosing (bodies.flatMap frame ++ closingBytes closing).length
  have hread := readAs_cut hb' rfl (frameAt_closing closing) (bodies.flatMap frame ++ closingBytes closing).length
  have hwhole : whole .lengthPrefixed bodies (bodies.flatMap frame ++ closingBytes closing).length = bodies.length :=
    whole_of_le (by rw [List.length_append]; exact Nat.le_add_right _ _)
  rw [List.take_length] at hdet
  rw [hwhole, List.take_length] at hread
  unfold read
  rw [hdet, ← hread]
  exact congrArg (readAs · _) List.take_length.symm

/-! ## The replay -/

/-- **Replaying a written session.** The book of a session that was written to a file, and cut after any number of
octets, is the book of the bodies that end before the cut. A zero-prefixed file is replayed so if its form is still
detected after the cut, and to an empty book otherwise. -/
theorem replay_written (code : UInt8) (bodies : List Bytes) (closing : Option Bytes) (n : ℕ) :
    ((∀ b ∈ bodies, 0 < b.length ∧ b.length < 2 ^ 16) → (bodies = [] → closing.getD [] = []) →
      ∃ k ≤ bodies.length, ((bodies.take k).flatMap frame).length ≤ n ∧
        (k < bodies.length → n < ((bodies.take (k + 1)).flatMap frame).length) ∧
        ∃ b, replay code ((bodies.flatMap frame ++ closingBytes closing).take n) = some b ∧
          b.Represents (Runs.run Book.step Book.empty ((bodies.take k).filterMap Message.ofBody))) ∧
    ((∀ b ∈ bodies, WellFormed b) →
      ∃ k ≤ bodies.length, ((bodies.take k).flatMap (encodeFrame .zeroPrefixed)).length ≤ n ∧
        (k < bodies.length → n < ((bodies.take (k + 1)).flatMap (encodeFrame .zeroPrefixed)).length) ∧
        ∃ b, replay code ((bodies.flatMap (encodeFrame .zeroPrefixed)).take n) = some b ∧
          b.Represents (Runs.run Book.step Book.empty
            (if detectFraming ((bodies.flatMap (encodeFrame .zeroPrefixed)).take n) = .zeroPrefixed then
              (bodies.take k).filterMap Message.ofBody else []))) := by
  constructor
  · intro hb hclosing
    obtain ⟨hle, hlt⟩ := whole_spec .lengthPrefixed bodies n
    refine ⟨_, whole_le bodies n, hle, hlt, _, ?_, ReferenceBook.represents_venue code _⟩
    have hb' : ∀ b ∈ bodies, Encodable .lengthPrefixed b := hb
    have hread := readAs_cut hb' rfl (frameAt_closing closing) n
    unfold replay read
    rw [detectFraming_cut hb hclosing]
    exact congrArg (Option.map _) hread
  · intro hb
    have hb' : ∀ b ∈ bodies, Encodable .zeroPrefixed b := hb
    obtain ⟨hle, hlt⟩ := whole_spec .zeroPrefixed bodies n
    refine ⟨_, whole_le bodies n, hle, hlt, _, ?_, ReferenceBook.represents_venue code _⟩
    unfold replay read
    cases hdet : detectFraming ((bodies.flatMap (encodeFrame .zeroPrefixed)).take n) with
    | lengthPrefixed =>
      rw [readAs_frames, frames_mistaken hb]
      rfl
    | zeroPrefixed =>
      rw [readAs_cut hb' (List.append_nil _).symm (if_neg fun h => by omega)]
      rfl

end

/-- A bid of five shares. -/
def someBid : Bytes :=
  65 :: [0, 1] ++ List.replicate 8 0 ++ (List.replicate 7 0 ++ [1]) ++ [66] ++ [0, 0, 0, 5] ++
    List.replicate 8 32 ++ [0, 0, 39, 16]

def bidThenEvent : List Bytes := [someBid, Parser.someEvent]

theorem replay_written_cut :
    ∃ k ≤ bidThenEvent.length, ((bidThenEvent.take k).flatMap frame).length ≤ 40 ∧
      (k < bidThenEvent.length → 40 < ((bidThenEvent.take (k + 1)).flatMap frame).length) ∧
      ∃ b, replay 81 ((bidThenEvent.flatMap frame ++ closingBytes none).take 40) = some b ∧
        b.Represents (Runs.run Book.step Book.empty ((bidThenEvent.take k).filterMap Message.ofBody)) := by
  have hb : ∀ b ∈ bidThenEvent, 0 < b.length ∧ b.length < 2 ^ 16 := by decide
  exact (replay_written 81 bidThenEvent none 40).1 hb fun h => by cases h

example : Message.ofBody someBid = some (.addOrder
    { locate := 1, ts := 0, orderRef := 1, side := kBuy, shares := 5, stock := [], price := 10000 }) := by decide

end Session

end Carteret
