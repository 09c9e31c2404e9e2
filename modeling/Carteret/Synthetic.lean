import Carteret.Replay

/-!
# The synthetic session

`gen_synthetic` writes a session from a stream of random draws. `rng k` is draw `k`; a draw is counted by `pos`.

1. The writer and the loop of `main`.
2. The bodies are well formed and decode to the messages that were meant (`ofBody_step`).
3. `synthetic_file`: the file is parsed to exactly those messages, and the census accepts it unless it was asked to
   leave out the end.
-/

namespace Carteret

namespace Synthetic

/-! ## Writing fields -/

/-- The octets of `v` that the shifts select, behind `b`. -/
def put (shifts : List ℕ) (b : Bytes) (v : ℕ) : Bytes := b ++ shifts.map fun s => UInt8.ofNat (v >>> s)

def put16 (b : Bytes) (v : UInt16) : Bytes := put [8, 0] b v.toNat

def put32 (b : Bytes) (v : UInt32) : Bytes := put [24, 16, 8, 0] b v.toNat

def put48 (b : Bytes) (v : UInt64) : Bytes := put [40, 32, 24, 16, 8, 0] b v.toNat

def put64 (b : Bytes) (v : UInt64) : Bytes := put [56, 48, 40, 32, 24, 16, 8, 0] b v.toNat

/-- A name of at most `n` characters, padded with spaces. -/
def putalpha (b : Bytes) (s : Bytes) (n : ℕ) : Bytes := b ++ fillAlpha n s

/-- The header; the tracking number is zero. -/
def header (b : Bytes) (type : UInt8) (locate : UInt16) (ts : UInt64) : Bytes :=
  put48 (put16 (put16 (b ++ [type]) locate) 0) ts

/-! ## The loop -/

structure State where
  pos : ℕ := 0
  ts : UInt64 := 34200000000000
  nextRef : Ref := 1
  live : List Ref := []

/-- `AAPL`, `MSFT`, `INTC`. -/
def syms : List Bytes := [[65, 65, 80, 76], [77, 83, 70, 84], [73, 78, 84, 67]]

/-- A quantity from one draw. -/
def shares (draw : ℕ) : Shares := UInt32.ofNat (100 * (1 + draw % 10))

/-- A price in whole cents from one draw. -/
def price (draw : ℕ) : Price := UInt32.ofNat (1000000 + draw % 20000 * 100)

def addBody (locate : UInt16) (ts : UInt64) (ref : Ref) (side : UInt8) (shares : Shares) (price : Price) : Bytes :=
  put32 (putalpha (put32 (put64 (header [] 65 locate ts) ref ++ [side]) shares) (syms.getD (locate.toNat - 1) []) 8)
    price

def executeBody (locate : UInt16) (ts : UInt64) (ref : Ref) (shares : Shares) (matchNumber : UInt64) : Bytes :=
  put64 (put32 (put64 (header [] 69 locate ts) ref) shares) matchNumber

def cancelBody (locate : UInt16) (ts : UInt64) (ref : Ref) (shares : Shares) : Bytes :=
  put32 (put64 (header [] 88 locate ts) ref) shares

def deleteBody (locate : UInt16) (ts : UInt64) (ref : Ref) : Bytes := put64 (header [] 68 locate ts) ref

def replaceBody (locate : UInt16) (ts : UInt64) (ref nref : Ref) (shares : Shares) (price : Price) : Bytes :=
  put32 (put32 (put64 (put64 (header [] 85 locate ts) ref) nref) shares) price

def eventBody (ts : UInt64) (code : UInt8) : Bytes := header [] 83 0 ts ++ [code]

def directoryBody (i : UInt16) (ts : UInt64) : Bytes :=
  let b := putalpha (header [] 82 (i + 1) ts) (syms.getD i.toNat []) 8 ++ [81] ++ [78]
  let b := putalpha (put32 b 100 ++ [78] ++ [67]) [] 2 ++ [80] ++ [78] ++ [78] ++ [49] ++ [78]
  put32 b 1 ++ [78]

/-- One pass of the loop, with the body that it emits. -/
def step (rng : ℕ → UInt32) (i : UInt64) (s : State) : State × Bytes :=
  let draw := fun k => (rng (s.pos + k)).toNat
  let ts := s.ts + UInt64.ofNat (1 + draw 0 % 5000)
  let locate := UInt16.ofNat (1 + draw 1 % 3)
  let roll := draw 2 % 100
  if roll < 45 ∨ s.live = [] then
    ({ pos := s.pos + 6, ts := ts, nextRef := s.nextRef + 1, live := s.live ++ [s.nextRef] },
      addBody locate ts s.nextRef (if draw 3 % 2 ≠ 0 then 66 else 83) (shares (draw 4)) (price (draw 5)))
  else
    let idx := draw 3 % s.live.length
    let ref := s.live.getD idx 0
    if roll < 60 then
      ({ s with pos := s.pos + 4, ts := ts }, executeBody locate ts ref 100 (i + 1))
    else if roll < 70 then ({ s with pos := s.pos + 4, ts := ts }, cancelBody locate ts ref 100)
    else if roll < 90 then
      -- the last reference takes the place of the deleted one
      ({ s with pos := s.pos + 4, ts := ts, live := (s.live.set idx (s.live.getLast?.getD 0)).dropLast },
        deleteBody locate ts ref)
    else
      ({ pos := s.pos + 6, ts := ts, nextRef := s.nextRef + 1, live := s.live.set idx s.nextRef },
        replaceBody locate ts ref s.nextRef (shares (draw 4)) (price (draw 5)))

/-- The state and the bodies after `n` passes. -/
def loop (rng : ℕ → UInt32) : ℕ → State × List Bytes
  | 0 => ({}, [])
  | n + 1 =>
    let r := loop rng n
    let r' := step rng (UInt64.ofNat n) r.1
    (r'.1, r.2 ++ [r'.2])

/-- What comes before the loop: the start of messages and the directory. -/
def opening : List Bytes :=
  let s : State := {}
  eventBody s.ts 79 :: [0, 1, 2].map fun i => directoryBody i s.ts

/-- All bodies of the session. -/
def bodies (rng : ℕ → UInt32) (n : ℕ) (writeEnd : Bool) : List Bytes :=
  let r := loop rng n
  opening ++ r.2 ++ if writeEnd then [eventBody r.1.ts 67] else []

/-- The file. -/
def file (rng : ℕ → UInt32) (n : ℕ) (writeEnd : Bool) : Bytes :=
  (bodies rng n writeEnd).flatMap frame ++ if writeEnd then [0, 0] else []

/-! ## What was meant -/

/-- The header of a message of the session. -/
def headerOf (locate : UInt16) (ts : UInt64) : Header := { locate := locate, ts := BitVec.ofNat 48 ts.toNat }

/-- The message of one pass. -/
def stepMessage (rng : ℕ → UInt32) (s : State) : Message :=
  let draw := fun k => (rng (s.pos + k)).toNat
  let locate := UInt16.ofNat (1 + draw 1 % 3)
  let header := headerOf locate (s.ts + UInt64.ofNat (1 + draw 0 % 5000))
  let roll := draw 2 % 100
  let ref := s.live.getD (draw 3 % s.live.length) 0
  if roll < 45 ∨ s.live = [] then
    .addOrder { toHeader := header, orderRef := s.nextRef, side := if draw 3 % 2 ≠ 0 then 66 else 83
                shares := shares (draw 4), stock := syms.getD (locate.toNat - 1) [], price := price (draw 5) }
  else if roll < 60 then .orderExecuted { toHeader := header, orderRef := ref, executedShares := 100 }
  else if roll < 70 then .orderCancel { toHeader := header, orderRef := ref, cancelledShares := 100 }
  else if roll < 90 then .orderDelete { toHeader := header, orderRef := ref }
  else
    .orderReplace { toHeader := header, oldOrderRef := ref, newOrderRef := s.nextRef, shares := shares (draw 4)
                    price := price (draw 5) }

/-- The messages of `n` passes. -/
def loopMessages (rng : ℕ → UInt32) : ℕ → List Message
  | 0 => []
  | n + 1 => loopMessages rng n ++ [stepMessage rng (loop rng n).1]

def eventMessage (ts : UInt64) (code : UInt8) : Message :=
  .systemEvent { toHeader := headerOf 0 ts, eventCode := code }

def directoryMessage (i : UInt16) (ts : UInt64) : Message :=
  .stockDirectory { toHeader := headerOf (i + 1) ts, marketCategory := 81 }

/-- All messages of the session. -/
def messages (rng : ℕ → UInt32) (n : ℕ) (writeEnd : Bool) : List Message :=
  let s : State := {}
  eventMessage s.ts 79 :: [0, 1, 2].map (fun i => directoryMessage i s.ts) ++ loopMessages rng n ++
    if writeEnd then [eventMessage (loop rng n).1.ts 67] else []

/-! ## Fields -/

theorem put16_eq (b : Bytes) (v : UInt16) : put16 b v = b ++ BigEndian.bytes 2 v.toNat := by
  simp [put16, put, BigEndian.bytes, Nat.shiftRight_eq_div_pow]

theorem put32_eq (b : Bytes) (v : UInt32) : put32 b v = b ++ BigEndian.bytes 4 v.toNat := by
  simp [put32, put, BigEndian.bytes, Nat.shiftRight_eq_div_pow, Nat.div_div_eq_div_mul]

theorem put48_eq (b : Bytes) (v : UInt64) : put48 b v = b ++ BigEndian.bytes 6 (v.toNat % 2 ^ 48) := by
  have hmod : BigEndian.bytes 6 (v.toNat % 256 ^ 6) = BigEndian.bytes 6 v.toNat := BigEndian.bytes_mod 6 v.toNat
  rw [show (2 : ℕ) ^ 48 = 256 ^ 6 by norm_num, hmod]
  simp [put48, put, BigEndian.bytes, Nat.shiftRight_eq_div_pow, Nat.div_div_eq_div_mul]

theorem put64_eq (b : Bytes) (v : UInt64) : put64 b v = b ++ BigEndian.bytes 8 v.toNat := by
  simp [put64, put, BigEndian.bytes, Nat.shiftRight_eq_div_pow, Nat.div_div_eq_div_mul]

/-- The values of the header fields. -/
def headerFields (type : UInt8) (locate : UInt16) (ts : UInt64) : List FieldValue :=
  [.int type.toNat, .int locate.toNat, .int 0, .int (ts.toNat % 2 ^ 48)]

theorem header_eq (type : UInt8) (locate : UInt16) (ts : UInt64) : header [] type locate ts =
    BigEndian.bytes 1 type.toNat ++ BigEndian.bytes 2 locate.toNat ++ BigEndian.bytes 2 0 ++
      BigEndian.bytes 6 (ts.toNat % 2 ^ 48) := by
  have htype : BigEndian.bytes 1 type.toNat = [type] := by simp [BigEndian.bytes]
  have hzero : (0 : UInt16).toNat = 0 := rfl
  rw [header, put48_eq, put16_eq, put16_eq, htype, hzero, List.nil_append]

/-- A message that was written in layout order is the message of its fields. -/
theorem ofBody_encodeMessage {t : MsgType} {vs : List FieldValue} (hfits : List.Forall₂ Read.Fits (View.accessors t) vs)
    (htype : (encodeMessage t vs).getD 0 0 = t.byte) :
    WellFormed (encodeMessage t vs) ∧ Message.ofBody (encodeMessage t vs) = Message.ofFields t vs := by
  have hlen : (encodeMessage t vs).length = t.len := (encodeMessage_slice t hfits.length_eq.symm).2
  have hwell : WellFormed (encodeMessage t vs) := by
    refine ⟨?_, ?_⟩
    · rw [hlen]
      cases t <;> decide
    · rw [htype, hlen]
      rfl
  refine ⟨hwell, ?_⟩
  unfold Message.ofBody bodyMessage
  rw [if_pos (bodyStatus_wellFormed hwell), htype, MsgType.ofByte_byte, Option.map_some, Option.bind_some,
    decodeMessage_encodeMessage t hfits]

/-- A body of a header and the fields of its view. -/
theorem encodeMessage_header (t : MsgType) (locate : UInt16) (ts : UInt64) (vs : List FieldValue) :
    encodeMessage t (headerFields t.byte locate ts ++ vs) = header [] t.byte locate ts ++
      (((View.body t).map Accessor.read).zipWith Read.encode vs).flatten := by
  rw [header_eq]
  simp only [encodeMessage, View.accessors, View.header, headerFields, List.map_cons, List.cons_append,
    List.nil_append, List.zipWith_cons_cons, List.flatten_cons, List.append_assoc]
  rfl

theorem fits_header (type : UInt8) (locate : UInt16) (ts : UInt64) :
    List.Forall₂ Read.Fits (View.header.map Accessor.read) (headerFields type locate ts) := by
  have hfits : ∀ (r : Read) (v : ℕ), (∀ off n, r ≠ .alpha off n) → v < 256 ^ r.field.len → r.Fits (.int v) :=
    fun r v h h' => ⟨h, h'⟩
  refine .cons (hfits _ _ (by simp) ?_) (.cons (hfits _ _ (by simp) ?_) (.cons (hfits _ _ (by simp) ?_)
    (.cons (hfits _ _ (by simp) ?_) .nil)))
  · simpa [Read.field, Read.touched] using type.toNat_lt
  · simpa [Read.field, Read.touched] using locate.toNat_lt
  · decide
  · exact Nat.mod_lt _ (by decide)

/-- A body that is written as a header and the fields of its view is the message of these fields. -/
theorem ofBody_header {t : MsgType} (locate : UInt16) (ts : UInt64) {vs : List FieldValue}
    (hfits : List.Forall₂ Read.Fits ((View.body t).map Accessor.read) vs) :
    let body := header [] t.byte locate ts ++ (((View.body t).map Accessor.read).zipWith Read.encode vs).flatten
    WellFormed body ∧ Message.ofBody body = Message.ofFields t (headerFields t.byte locate ts ++ vs) := by
  dsimp only
  rw [← encodeMessage_header]
  refine ofBody_encodeMessage ?_ ?_
  · unfold View.accessors
    rw [List.map_append]
    exact List.rel_append (fits_header t.byte locate ts) hfits
  · rw [encodeMessage_header, header_eq]
    simp [BigEndian.bytes]

/-! ## The bodies -/

section

variable (locate : UInt16) (ts : UInt64)

/-- A body is well formed, and is this message. -/
def Means (body : Bytes) (m : Message) : Prop := WellFormed body ∧ Message.ofBody body = some m

@[simp] theorem ofNat_ts : BitVec.ofNat 48 (ts.toNat % 281474976710656) = BitVec.ofNat 48 ts.toNat := by
  refine BitVec.eq_of_toNat_eq ?_
  rw [BitVec.toNat_ofNat, BitVec.toNat_ofNat, show (281474976710656 : ℕ) = 2 ^ 48 by norm_num, Nat.mod_mod]

theorem byte_eq (v : UInt8) : [v] = BigEndian.bytes 1 v.toNat := by simp [BigEndian.bytes]

theorem fits_int {r : Read} {v : ℕ} (hr : ∀ off n, r ≠ .alpha off n) (hv : v < 256 ^ r.field.len) :
    r.Fits (.int v) := ⟨hr, hv⟩

theorem fits_text {off n : ℕ} {s : Bytes} (hlen : s.length ≤ n) (hlast : s.getLast? ≠ some 32) :
    (Read.alpha off n).Fits (.text s) := ⟨⟨off, n, rfl⟩, hlen, hlast⟩

/-- The symbols fit their field, and so does the empty name. -/
theorem syms_fit (i : ℕ) : (syms.getD i []).length ≤ 8 ∧ (syms.getD i []).getLast? ≠ some 32 := by
  rcases Nat.lt_or_ge i syms.length with hi | hi
  · have hall : ∀ s ∈ syms, s.length ≤ 8 ∧ s.getLast? ≠ some 32 := by decide
    rw [List.getD_eq_getElem _ _ hi]
    exact hall _ (List.getElem_mem hi)
  · rw [List.getD_eq_default _ _ hi]
    decide

-- the tables of a view, computed for one type
attribute [local simp] Means View.body Read.encode Read.field Read.touched Message.ofFields View.field View.names
  View.header headerFields List.idxOf_cons FieldValue.toNat FieldValue.toText headerOf MsgType.byte MsgType.code

theorem ofBody_add (ref : Ref) (side : UInt8) (shares : Shares) (price : Price) :
    Means (addBody locate ts ref side shares price) (.addOrder
      { toHeader := headerOf locate ts, orderRef := ref, side := side, shares := shares
        stock := syms.getD (locate.toNat - 1) [], price := price }) := by
  obtain ⟨hstock, hspace⟩ := syms_fit (locate.toNat - 1)
  have h := @ofBody_header .addOrder locate ts
    [.int ref.toNat, .int side.toNat, .int shares.toNat, .text (syms.getD (locate.toNat - 1) []), .int price.toNat]
    (.cons (fits_int (by simp) ref.toNat_lt) (.cons (fits_int (by simp) side.toNat_lt)
      (.cons (fits_int (by simp) shares.toNat_lt) (.cons (fits_text hstock hspace)
        (.cons (fits_int (by simp) price.toNat_lt) .nil)))))
  simpa [addBody, put32_eq, put64_eq, putalpha, byte_eq side] using h

theorem ofBody_execute (ref : Ref) (shares : Shares) (matchNumber : UInt64) :
    Means (executeBody locate ts ref shares matchNumber)
      (.orderExecuted { toHeader := headerOf locate ts, orderRef := ref, executedShares := shares }) := by
  have h := @ofBody_header .orderExecuted locate ts [.int ref.toNat, .int shares.toNat, .int matchNumber.toNat]
    (.cons (fits_int (by simp) ref.toNat_lt) (.cons (fits_int (by simp) shares.toNat_lt)
      (.cons (fits_int (by simp) matchNumber.toNat_lt) .nil)))
  simpa [executeBody, put32_eq, put64_eq] using h

theorem ofBody_cancel (ref : Ref) (shares : Shares) :
    Means (cancelBody locate ts ref shares)
      (.orderCancel { toHeader := headerOf locate ts, orderRef := ref, cancelledShares := shares }) := by
  have h := @ofBody_header .orderCancel locate ts [.int ref.toNat, .int shares.toNat]
    (.cons (fits_int (by simp) ref.toNat_lt) (.cons (fits_int (by simp) shares.toNat_lt) .nil))
  simpa [cancelBody, put32_eq, put64_eq] using h

theorem ofBody_delete (ref : Ref) :
    Means (deleteBody locate ts ref) (.orderDelete { toHeader := headerOf locate ts, orderRef := ref }) := by
  have h := @ofBody_header .orderDelete locate ts [.int ref.toNat] (.cons (fits_int (by simp) ref.toNat_lt) .nil)
  simpa [deleteBody, put64_eq] using h

theorem ofBody_replace (ref nref : Ref) (shares : Shares) (price : Price) :
    Means (replaceBody locate ts ref nref shares price) (.orderReplace
      { toHeader := headerOf locate ts, oldOrderRef := ref, newOrderRef := nref, shares := shares
        price := price }) := by
  have h := @ofBody_header .orderReplace locate ts
    [.int ref.toNat, .int nref.toNat, .int shares.toNat, .int price.toNat]
    (.cons (fits_int (by simp) ref.toNat_lt) (.cons (fits_int (by simp) nref.toNat_lt)
      (.cons (fits_int (by simp) shares.toNat_lt) (.cons (fits_int (by simp) price.toNat_lt) .nil))))
  simpa [replaceBody, put32_eq, put64_eq] using h

theorem ofBody_event (code : UInt8) :
    Means (eventBody ts code) (eventMessage ts code) := by
  have h := @ofBody_header .systemEvent 0 ts [.int code.toNat] (.cons (fits_int (by simp) code.toNat_lt) .nil)
  simpa [eventBody, eventMessage, byte_eq code] using h

theorem ofBody_directory (i : UInt16) :
    Means (directoryBody i ts) (directoryMessage i ts) := by
  obtain ⟨hstock, hspace⟩ := syms_fit i.toNat
  have h := @ofBody_header .stockDirectory (i + 1) ts
    [.text (syms.getD i.toNat []), .int 81, .int 78, .int 100, .int 78, .int 67, .text [], .int 80, .int 78, .int 78,
      .int 49, .int 78, .int 1, .int 78]
    (.cons (fits_text hstock hspace) (.cons (fits_int (by simp) (by decide)) (.cons (fits_int (by simp) (by decide))
      (.cons (fits_int (by simp) (by decide)) (.cons (fits_int (by simp) (by decide))
      (.cons (fits_int (by simp) (by decide)) (.cons (fits_text (by decide) (by decide))
      (.cons (fits_int (by simp) (by decide)) (.cons (fits_int (by simp) (by decide))
      (.cons (fits_int (by simp) (by decide)) (.cons (fits_int (by simp) (by decide))
      (.cons (fits_int (by simp) (by decide)) (.cons (fits_int (by simp) (by decide))
      (.cons (fits_int (by simp) (by decide)) .nil))))))))))))))
  simpa [directoryBody, directoryMessage, put32_eq, putalpha, BigEndian.bytes, -UInt16.toNat_add] using h

/-- A pass emits a well-formed body, which is the message that was meant. -/
theorem ofBody_step (rng : ℕ → UInt32) (i : UInt64) (s : State) : Means (step rng i s).2 (stepMessage rng s) := by
  unfold step stepMessage
  dsimp only
  by_cases hadd : (rng (s.pos + 2)).toNat % 100 < 45 ∨ s.live = []
  · rw [if_pos hadd, if_pos hadd]
    exact ofBody_add _ _ _ _ _ _
  · rw [if_neg hadd, if_neg hadd]
    split_ifs
    · exact ofBody_execute _ _ _ _ _
    · exact ofBody_cancel _ _ _ _
    · exact ofBody_delete _ _ _
    · exact ofBody_replace _ _ _ _ _ _

end

/-! ## The session -/

section

variable (rng : ℕ → UInt32) (n : ℕ) (writeEnd : Bool)

theorem forall₂_loop : List.Forall₂ Means
    (loop rng n).2 (loopMessages rng n) := by
  induction n with
  | zero => exact .nil
  | succ n ih => exact List.rel_append ih (.cons (ofBody_step rng _ _) .nil)

/-- The bodies of a session are its messages. -/
theorem forall₂_bodies : List.Forall₂ Means
    (bodies rng n writeEnd) (messages rng n writeEnd) := by
  have hend : List.Forall₂ Means
      (if writeEnd then [eventBody (loop rng n).1.ts 67] else [])
      (if writeEnd then [eventMessage (loop rng n).1.ts 67] else []) := by
    cases writeEnd
    · exact .nil
    · exact .cons (ofBody_event _ _) .nil
  refine List.rel_append (List.rel_append ?_ (forall₂_loop rng n)) hend
  exact .cons (ofBody_event _ _) (.cons (ofBody_directory _ 0) (.cons (ofBody_directory _ 1)
    (.cons (ofBody_directory _ 2) .nil)))

theorem wellFormed_bodies : ∀ b ∈ bodies rng n writeEnd, WellFormed b := by
  have hall := forall₂_bodies rng n writeEnd
  intro b hb
  obtain ⟨i, hi, rfl⟩ := List.mem_iff_getElem.mp hb
  exact ((List.forall₂_iff_get.mp hall).2 i hi (hall.length_eq ▸ hi)).1

theorem filterMap_bodies : (bodies rng n writeEnd).filterMap Message.ofBody = messages rng n writeEnd := by
  have hmap : ∀ {bs : List Bytes} {ms : List Message}, List.Forall₂ Means bs ms → bs.filterMap Message.ofBody = ms := by
    intro bs ms h
    induction h with
    | nil => rfl
    | cons hm _ ih => rw [List.filterMap_cons_some hm.2, ih]
  exact hmap (forall₂_bodies rng n writeEnd)

theorem length_loop : (loop rng n).2.length = n := by
  induction n with
  | zero => rfl
  | succ n ih => rw [loop, List.length_append, ih, List.length_singleton]

/-- A body that ends the messages shows it. -/
theorem ofBody_endsMessages {b : Bytes} (hb : WellFormed b) (hend : EndsMessages b) :
    ∃ h : Header, Message.ofBody b = some (.systemEvent { toHeader := h, eventCode := 67 }) := by
  have htype : MsgType.ofByte 83 = some .systemEvent := by decide
  have hmsg : ∀ code : ℕ, (View.field .systemEvent (decodeMessage .systemEvent b 0) "event_code").toNat = code →
      ∃ h : Header, Message.ofFields .systemEvent (decodeMessage .systemEvent b 0) =
        some (.systemEvent { toHeader := h, eventCode := UInt8.ofNat code }) := by
    rintro code rfl
    exact ⟨_, rfl⟩
  obtain ⟨h, hmsg⟩ := hmsg 67 (by
    show byteAt b 11 = 67
    rw [byteAt, hend.2]
    rfl)
  unfold Message.ofBody bodyMessage
  rw [if_pos (bodyStatus_wellFormed hb), hend.1, htype, Option.map_some, Option.bind_some, hmsg]
  exact ⟨h, rfl⟩

/-- What the loop writes is a step's message. -/
theorem step_of_mem_loopMessages {m : Message} : m ∈ loopMessages rng n → ∃ s, m = stepMessage rng s := by
  induction n with
  | zero => exact fun hm => absurd hm List.not_mem_nil
  | succ n ih =>
    intro hm
    rcases List.mem_append.mp hm with hm | hm
    · exact ih hm
    · exact ⟨_, List.mem_singleton.mp hm⟩

/-- No message before the end is the end. -/
theorem not_endsMessages : ∀ b ∈ bodies rng n false, ¬ EndsMessages b := by
  intro b hb hend
  obtain ⟨h, hm⟩ := ofBody_endsMessages (wellFormed_bodies rng n false b hb) hend
  have hmem : Message.systemEvent { toHeader := h, eventCode := 67 } ∈ messages rng n false := by
    rw [← filterMap_bodies]
    exact List.mem_filterMap.mpr ⟨b, hb, hm⟩
  simp [messages, eventMessage, directoryMessage] at hmem
  obtain ⟨s, hs⟩ := step_of_mem_loopMessages rng n hmem
  unfold stepMessage at hs
  dsimp only at hs
  split_ifs at hs

theorem file_eq : file rng n writeEnd =
    (bodies rng n writeEnd).flatMap frame ++ closingBytes (if writeEnd then some [] else none) := by
  cases writeEnd <;> rfl

theorem encodable_bodies : ∀ b ∈ bodies rng n writeEnd, Encodable .lengthPrefixed b :=
  fun b hb => encodable_of_wellFormed (wellFormed_bodies rng n writeEnd b hb)

theorem closing_eq : (if writeEnd then some [] else none : Option Bytes).getD [] = [] := by
  cases writeEnd <;> rfl

/-- What the parser counts in the file. -/
theorem run_file : ∃ calls, Parser.run (file rng n writeEnd) = some
    ({ dispatched := n + (if writeEnd then 5 else 4), unknown := 0, mismatch := 0
       bytes := (file rng n writeEnd).length, trailing := 0
       stop := if writeEnd then .zeroLengthPrefix else .exhausted, framing := .lengthPrefixed }, calls) := by
  have hwell := wellFormed_bodies rng n writeEnd
  have hok : (bodies rng n writeEnd).countP (bodyStatus · = .ok) = n + (if writeEnd then 5 else 4) := by
    have hall : (bodies rng n writeEnd).countP (bodyStatus · = .ok) = (bodies rng n writeEnd).length :=
      List.countP_eq_length.mpr fun b hmem => by simp [bodyStatus_wellFormed (hwell b hmem)]
    rw [hall]
    unfold bodies opening
    dsimp only
    rw [List.length_append, List.length_append, length_loop]
    cases writeEnd <;> simp <;> omega
  obtain ⟨calls, hrun, -⟩ := @Parser.run_frames _ (encodable_bodies rng n writeEnd) _ fun _ => closing_eq writeEnd
  refine ⟨calls, ?_⟩
  rw [file_eq, hrun, hok, countP_bodyStatus hwell (by decide), countP_bodyStatus hwell (by decide), List.length_append]
  cases writeEnd <;> rfl

/-- What a book is handed. -/
theorem read_file : Session.read (file rng n writeEnd) = some (messages rng n writeEnd) := by
  rw [file_eq, Session.read_written (encodable_bodies rng n writeEnd) fun _ => closing_eq writeEnd, filterMap_bodies]

/-- The end is missed when it was left out. -/
theorem census_file_false : census (file rng n false) = some false := by
  have hb := encodable_bodies rng n false
  have hfile : file rng n false = (bodies rng n false).flatMap frame ++ closingBytes none := file_eq rng n false
  obtain ⟨hframes, -, -⟩ := @frames_encoded .lengthPrefixed _ hb [] (closingBytes none) (file rng n false)
    ((file rng n false).length + 1) hfile
    (by rw [hfile, List.length_append]; exact Nat.lt_succ_of_le ((length_le_flatMap .lengthPrefixed _).trans
      (Nat.le_add_right _ _)))
    (by rw [List.length_nil, Nat.zero_add, hfile]; exact frameAt_closing none)
  have hdet : detectFraming (file rng n false) = .lengthPrefixed := by
    rw [hfile]
    exact detectFraming_frames hb fun _ => rfl
  refine census_of_no_end fun f hf => not_endsMessages rng n _ ?_
  rw [hdet] at hf
  exact hframes ▸ List.mem_map_of_mem hf

theorem census_file_true : census (file rng n true) = some true := by
  have hsplit : bodies rng n true = (opening ++ (loop rng n).2) ++ [eventBody (loop rng n).1.ts 67] := rfl
  have hlast : EndsMessages (eventBody (loop rng n).1.ts 67) := by
    unfold eventBody
    rw [header_eq]
    constructor <;> simp [BigEndian.bytes]
  have hwell := wellFormed_bodies rng n true
  have hfile := file_eq rng n true
  rw [hsplit] at hwell hfile
  rw [hfile]
  exact @census_complete _ _ hwell hlast .lengthPrefixed [0, 0] (.inr ⟨rfl, rfl⟩)

/-- **The synthetic session.** Whatever is drawn, and however long the session, the parser reads the file to its end
and understands all of it, a book is handed the messages that were meant, and the census accepts the file exactly when
the end was written. -/
theorem synthetic_file :
    (∃ calls, Parser.run (file rng n writeEnd) = some
      ({ dispatched := n + (if writeEnd then 5 else 4), unknown := 0, mismatch := 0
         bytes := (file rng n writeEnd).length, trailing := 0
         stop := if writeEnd then .zeroLengthPrefix else .exhausted, framing := .lengthPrefixed }, calls)) ∧
      Session.read (file rng n writeEnd) = some (messages rng n writeEnd) ∧
      census (file rng n writeEnd) = some writeEnd := by
  refine ⟨run_file rng n writeEnd, read_file rng n writeEnd, ?_⟩
  cases writeEnd
  · exact census_file_false rng n
  · exact census_file_true rng n

end

end Synthetic

end Carteret
