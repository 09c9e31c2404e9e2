import Carteret.MoldDelivery
import Carteret.Session

/-!
# The book behind a lossy line

1. Which messages survive loss, duplication and reordering: the first packet that reaches past a message decides
   (`survivors_exact`).
2. A handler that frames what it is given again, and ends the file, rebuilds the book of the survivors
   (`feeder_rebuilds`). If every message comes in time that is the book of the file itself (`feeder_lossless`).
-/

namespace Carteret

namespace MoldReceiver

/-! ## Which messages survive -/

/-- The packet moves the expected sequence past `k`. -/
def Reaches (k : ℕ) (p : Bytes) : Prop :=
  packetCount p ≠ kMoldEndOfSession ∧ k < packetSeq p + packetCount p

instance (k : ℕ) (p : Bytes) : Decidable (Reaches k p) := by unfold Reaches; infer_instance

/-- The first packet that reaches past `k` does not begin behind it. -/
def survives (packets : List Bytes) (k : ℕ) : Bool :=
  (packets.find? fun p => Reaches k p).any fun p => packetSeq p ≤ k

/-- The messages that survive, in order. -/
def survivors (packets ms : List Bytes) : List Bytes :=
  ((ms.zipIdx 1).filter fun e => survives packets e.2).map Prod.fst

theorem holds_iff {p : Bytes} {k : ℕ} : Holds p k ↔ Reaches k p ∧ packetSeq p ≤ k := by
  unfold Holds CarriesMessages Reaches
  constructor
  · rintro ⟨⟨hend, -⟩, hle, hlt⟩
    exact ⟨⟨hend, hlt⟩, hle⟩
  · rintro ⟨⟨hend, hlt⟩, hle⟩
    exact ⟨⟨hend, by omega⟩, hle, hlt⟩

/-- One packet more. -/
theorem survives_snoc (packets : List Bytes) (p : Bytes) (k : ℕ) :
    survives (packets ++ [p]) k = true ↔
      survives packets k = true ∨ (∀ q ∈ packets, ¬ Reaches k q) ∧ Holds p k := by
  unfold survives
  rw [List.find?_append, holds_iff]
  cases hfirst : packets.find? fun p => decide (Reaches k p) with
  | some q =>
    have hq : Reaches k q := by simpa using List.find?_some hfirst
    have hnot : ¬ ∀ q ∈ packets, ¬ Reaches k q := fun h => h q (List.mem_of_find?_eq_some hfirst) hq
    simp [hnot]
  | none =>
    have hnone : ∀ q ∈ packets, ¬ Reaches k q := by simpa using hfirst
    rw [Option.none_or, and_iff_right hnone]
    by_cases hp : Reaches k p
    · simp [hp]
    · simp [hp]

section

variable {r : MoldReceiver} {ms : List Bytes} {session filter p : Bytes} {packets : List Bytes}
  (hs : session.length = kMoldSessionLen) (hlen : ∀ m ∈ ms, m.length < 2 ^ 16) (hroom : ms.length + 1 < 2 ^ 64)

include hs hlen hroom

/-- One packet and the expected sequence. -/
theorem Tracks.nextExpected_sent (h : Tracks ms r) (hf : r.Follows session) (hp : Sent session ms p) {k : ℕ} :
    (r.step p).nextExpected ≤ k ↔ r.nextExpected ≤ k ∧ ¬ Reaches k p := by
  unfold Reaches
  rcases Sent.offers hs hlen hroom hp hf with ⟨hend, hsame⟩ | ⟨hne, g, h1, hle, hg, hcount, hsame⟩
  · rw [hsame.nextExpected]
    exact (and_iff_left fun hc => hc.1 hend).symm
  · rw [hsame.nextExpected, nextExpected_offer hroom h h1 hle hg, ← hcount, max_le_iff]
    refine and_congr_right fun _ => ?_
    rw [hcount]
    exact ⟨fun hk hc => by omega, fun hc => Nat.le_of_not_lt fun hlt => hc ⟨hne, hlt⟩⟩

theorem nextExpected_feed (hf : (new filter).Follows session) (hsent : ∀ p ∈ packets, Sent session ms p) {k : ℕ}
    (hk : 1 ≤ k) : ((new filter).feed packets).nextExpected ≤ k ↔ ∀ p ∈ packets, ¬ Reaches k p := by
  induction packets using List.reverseRecOn with
  | nil => exact iff_of_true hk (by simp)
  | append_singleton ps p ih =>
    have hps : ∀ q ∈ ps, Sent session ms q := fun q hq => hsent q (by simp [hq])
    obtain ⟨hf', ht⟩ := tracks_feed hs hlen hroom hf hps
    have hsnoc : (new filter).feed (ps ++ [p]) = ((new filter).feed ps).step p := Runs.run_snoc _ _ _
    rw [hsnoc, ht.nextExpected_sent hs hlen hroom hf' (hsent p (by simp)), ih hps]
    simp [or_imp, forall_and]

/-- **Which numbers are handed over.** -/
theorem mem_sequences_feed (hf : (new filter).Follows session) (hsent : ∀ p ∈ packets, Sent session ms p) {k : ℕ}
    (hk : 1 ≤ k) : k ∈ ((new filter).feed packets).sequences ↔ survives packets k = true := by
  induction packets using List.reverseRecOn with
  | nil => simp [feed, sequences, new, survives]
  | append_singleton ps p ih =>
    have hps : ∀ q ∈ ps, Sent session ms q := fun q hq => hsent q (by simp [hq])
    rw [(sent_at hs hlen hroom hf hsent rfl).2.2.2 k, ih hps, survives_snoc,
      nextExpected_feed hs hlen hroom hf hps hk]

end

/-- **What is handed over.** The numbers that survive, in order. -/
theorem sequences_feed {ms : List Bytes} {session filter : Bytes} {packets : List Bytes}
    (hs : session.length = kMoldSessionLen) (hlen : ∀ m ∈ ms, m.length < 2 ^ 16) (hroom : ms.length + 1 < 2 ^ 64)
    (hf : (new filter).Follows session) (hsent : ∀ p ∈ packets, Sent session ms p) {n : ℕ}
    (hn : ((new filter).feed packets).nextExpected ≤ n + 1) :
    ((new filter).feed packets).sequences = (List.range' 1 n).filter (survives packets) := by
  have ht := (tracks_feed hs hlen hroom hf hsent).2
  refine List.SortedLT.eq_of_mem_iff ht.increasing.sortedLT
    (List.Pairwise.filter _ List.pairwise_lt_range').sortedLT fun {k} => ?_
  rw [List.mem_filter, List.mem_range'_1]
  constructor
  · intro hk
    obtain ⟨c, hc, hseq⟩ := List.mem_filterMap.mp hk
    obtain ⟨b, stale, rfl⟩ : ∃ b stale, c = .onMoldMessage b k stale := by
      cases c with
      | onMoldMessage b n stale => exact ⟨b, stale, by rw [Option.some.inj hseq]⟩
      | onGap expected n => cases hseq
    have hpos := (ht.payloads b k stale hc).1
    have hlt := ht.below k hk
    exact ⟨⟨hpos, by omega⟩, (mem_sequences_feed hs hlen hroom hf hsent hpos).mp hk⟩
  · rintro ⟨⟨hpos, -⟩, hk⟩
    exact (mem_sequences_feed hs hlen hroom hf hsent hpos).mpr hk

/-- The messages handed over. -/
def delivered (r : MoldReceiver) : List Bytes :=
  r.calls.filterMap fun
    | .onMoldMessage b _ _ => some b
    | .onGap _ _ => none

/-- The messages by their numbers. -/
theorem filterMap_getElem? (q : ℕ → Bool) : ∀ (ms : List Bytes) (s : ℕ),
    ((List.range' s ms.length).filter q).filterMap (fun k => ms[k - s]?) =
      ((ms.zipIdx s).filter fun e => q e.2).map Prod.fst
  | [], _ => rfl
  | m :: ms, s => by
    have hrest : ((List.range' (s + 1) ms.length).filter q).filterMap (fun k => (m :: ms)[k - s]?) =
        ((List.range' (s + 1) ms.length).filter q).filterMap (fun k => ms[k - (s + 1)]?) := by
      refine List.filterMap_congr fun k hk => ?_
      have hle := (List.mem_range'_1.mp (List.mem_filter.mp hk).1).1
      rw [show k - s = k - (s + 1) + 1 by omega, List.getElem?_cons_succ]
    rw [List.length_cons, List.range'_succ, List.zipIdx_cons, List.filter_cons, List.filter_cons]
    by_cases hq : q s = true
    · rw [if_pos hq, if_pos hq, List.filterMap_cons, hrest, filterMap_getElem? q ms (s + 1), Nat.sub_self]
      rfl
    · rw [if_neg hq, if_neg hq, hrest, filterMap_getElem? q ms (s + 1)]

/-- The payloads are those of the numbers. -/
theorem Tracks.delivered_eq {r : MoldReceiver} {ms : List Bytes} (h : Tracks ms r) :
    r.delivered = r.sequences.filterMap fun k => ms[k - 1]? := by
  unfold delivered sequences
  rw [List.filterMap_filterMap]
  refine List.filterMap_congr fun c hc => ?_
  cases c with
  | onMoldMessage b k stale => exact (h.payloads b k stale hc).2.symm
  | onGap expected k => rfl

theorem delivered_feed {ms : List Bytes} {session filter : Bytes} {packets : List Bytes}
    (hs : session.length = kMoldSessionLen) (hlen : ∀ m ∈ ms, m.length < 2 ^ 16) (hroom : ms.length + 1 < 2 ^ 64)
    (hf : (new filter).Follows session) (hsent : ∀ p ∈ packets, Sent session ms p) :
    ((new filter).feed packets).delivered = survivors packets ms := by
  have ht := (tracks_feed hs hlen hroom hf hsent).2
  rw [ht.delivered_eq, sequences_feed hs hlen hroom hf hsent ht.next_le]
  exact filterMap_getElem? (survives packets) ms 1

/-- The count of messages handed over. -/
theorem messagesDelivered_feed {ms : List Bytes} {session filter : Bytes} {packets : List Bytes}
    (hs : session.length = kMoldSessionLen) (hlen : ∀ m ∈ ms, m.length < 2 ^ 16) (hroom : ms.length + 1 < 2 ^ 64)
    (hf : (new filter).Follows session) (hsent : ∀ p ∈ packets, Sent session ms p) :
    ((new filter).feed packets).stats.messagesDelivered = ((new filter).feed packets).sequences.length := by
  induction packets using List.reverseRecOn with
  | nil => rfl
  | append_singleton ps p ih =>
    have hps : ∀ q ∈ ps, Sent session ms q := fun q hq => hsent q (by simp [hq])
    obtain ⟨hf', ht⟩ := tracks_feed hs hlen hroom hf hps
    have hsnoc : (new filter).feed (ps ++ [p]) = ((new filter).feed ps).step p := Runs.run_snoc _ _ _
    have hprev := ih hps
    rw [hsnoc]
    rcases Sent.offers hs hlen hroom (hsent p (by simp)) hf' with ⟨-, hsame⟩ | ⟨-, g, h1, hle, hg, -, hsame⟩
    · rw [hsame.messagesDelivered, hsame.sequences, hprev]
    · have hj := ht.jump hle hroom
      have hfits := (offer_fits hroom ht hle hg h1).1
      have hdelivered : (((new filter).feed ps).jump (packetSeq p)).stats.messagesDelivered =
          ((new filter).feed ps).stats.messagesDelivered := by
        unfold MoldReceiver.jump; split <;> rfl
      have hacc := hj.account
      rw [hsame.messagesDelivered, hsame.sequences]
      unfold MoldReceiver.offer
      rw [(pushAll_spec _ _ hfits).2.2.1 (by omega), sequences_pushAll hfits, sequences_jump, hdelivered, hprev,
        List.length_append, List.length_range']

/-- **Exact loss.** On two lines with any loss, duplication and reordering, the messages handed over are those for
which the first packet that reaches past them does not begin behind them. The expected sequence is behind all that
was reached, and the loss counter counts the messages before it that did not survive. -/
theorem survivors_exact (session filter : Bytes) (framed : Span) (packets : List Bytes)
    (hfilter : filter = [] ∨ filter = session) (hlines : ∀ p ∈ packets, OnLines session framed p) :
    ((new filter).feed packets).sequences =
        (List.range' 1 (okFrames framed.bytes).length).filter (survives packets) ∧
      ((new filter).feed packets).delivered = survivors packets (okFrames framed.bytes) ∧
      (∀ k, 1 ≤ k → (k < ((new filter).feed packets).nextExpected ↔ ∃ p ∈ packets, Reaches k p)) ∧
      ((new filter).feed packets).stats.messagesLost =
        ((List.range' 1 (((new filter).feed packets).nextExpected - 1)).filter (!survives packets ·)).length := by
  have hs : (fillAlpha kMoldSessionLen session).length = kMoldSessionLen := fillAlpha_length _ _
  have hlen : ∀ m ∈ okFrames framed.bytes, m.length < 2 ^ 16 := fun m => length_lt_of_mem_okFrames
  have hroom := okFrames_room framed
  have hf := follows_new session filter hfilter
  have hsent : ∀ p ∈ packets, Sent (fillAlpha kMoldSessionLen session) (okFrames framed.bytes) p :=
    fun p hp => (hlines p hp).sent
  have ht := (tracks_feed hs hlen hroom hf hsent).2
  refine ⟨sequences_feed hs hlen hroom hf hsent ht.next_le, delivered_feed hs hlen hroom hf hsent,
    fun k hk => ?_, ?_⟩
  · rw [← not_le, nextExpected_feed hs hlen hroom hf hsent hk]
    simp
  · have hpos := ht.next_pos
    have hacc := ht.account
    have hcount := messagesDelivered_feed hs hlen hroom hf hsent
    rw [sequences_feed hs hlen hroom hf hsent (Nat.sub_add_cancel hpos).ge] at hcount
    have hsplit := List.length_eq_length_filter_add
      (l := List.range' 1 (((new filter).feed packets).nextExpected - 1)) (survives packets)
    rw [List.length_range'] at hsplit
    omega

/-- Two messages, each in a packet of its own. -/
def twoMessages : Span := ⟨oneMessage.bytes ++ oneMessage.bytes, by decide⟩

def twoPackets : List Bytes := ((MoldPacketizer.new [] 1).packetize twoMessages.bytes).1

theorem onLines_two : ∀ p ∈ twoPackets, OnLines [] twoMessages p :=
  fun _ hp => .inl ⟨1, by decide, by decide, hp⟩

/-- The first packet comes late: its message is lost. -/
theorem survivors_exact_two :
    ((new []).feed [twoPackets.getD 1 [], twoPackets.getD 0 []]).sequences = [2] ∧
      ((new []).feed [twoPackets.getD 1 [], twoPackets.getD 0 []]).stats.messagesLost = 1 := by
  have hlines : ∀ p ∈ [twoPackets.getD 1 [], twoPackets.getD 0 []], OnLines [] twoMessages p := by
    intro p hp
    refine onLines_two p ?_
    have hall : ∀ p ∈ [twoPackets.getD 1 [], twoPackets.getD 0 []], p ∈ twoPackets := by decide +kernel
    exact hall p hp
  obtain ⟨hseqs, -, -, hlost⟩ := survivors_exact [] [] twoMessages _ (.inl rfl) hlines
  exact ⟨hseqs.trans (by decide +kernel), hlost.trans (by decide +kernel)⟩

end MoldReceiver

/-! ## The frames of a stream -/

/-- What the loop over `next` accepts: the bodies of the right length. -/
theorem drain_bodies : ∀ (fuel : ℕ) (rd : FrameReader) (m : MsgView), rd.buf.length - rd.pos < fuel →
    (rd.drain fuel m).filterMap (okPayload rd.buf) =
      ((framesFrom rd.framing rd.buf fuel rd.pos).map (Frame.body rd.buf)).filter (bodyStatus · = .ok)
  | 0, _, _, h => absurd h (Nat.not_lt_zero _)
  | fuel + 1, rd, m, h => by
    rw [FrameReader.drain_succ]
    cases hf : frameAt rd.framing rd.buf rd.pos with
    | none =>
      have hend := FrameReader.next_end (m := m) hf
      have hnot : (rd.next m).1 ≠ .ok := fun hc => by rw [hc] at hend; cases hend
      have hrejected : okPayload rd.buf ((rd.next m).1, (rd.next m).2.2) = none := if_neg hnot
      rw [if_neg (by rw [hend]; exact Bool.false_ne_true), framesFrom_none hf, List.filterMap_cons, hrejected]
      rfl
    | some f =>
      have hlt := lt_stop hf
      obtain ⟨-, hlen, hle⟩ := frameAt_spec hf
      have hrest := drain_bodies fuel (rd.pass f) (if f.verdict rd.buf = .ok then f.view else m)
        (by show rd.buf.length - f.stop < fuel; omega)
      have hbody := Frame.verdict_eq hlen hle
      rw [FrameReader.next_frame hf, if_pos (Parser.verdict_continues rd.buf f), framesFrom_some hf, List.map_cons]
      by_cases hok : f.verdict rd.buf = .ok
      · have haccepted : okPayload rd.buf (f.verdict rd.buf, if f.verdict rd.buf = .ok then f.view else m) =
            some (f.body rd.buf) := by
          rw [if_pos hok]
          exact if_pos hok
        rw [List.filterMap_cons_some haccepted, List.filter_cons_of_pos (by rw [← hbody]; simpa using hok)]
        exact congrArg _ hrest
      · have hrejected : okPayload rd.buf (f.verdict rd.buf, if f.verdict rd.buf = .ok then f.view else m) = none :=
          if_neg hok
        rw [List.filterMap_cons_none hrejected, List.filter_cons_of_neg (by rw [← hbody]; simpa using hok)]
        exact hrest

theorem okFrames_bodies (buf : Bytes) :
    okFrames buf = ((frames .lengthPrefixed buf).map (Frame.body buf)).filter (bodyStatus · = .ok) :=
  drain_bodies (buf.length + 1) { buf := buf } {} (Nat.lt_succ_self _)

/-- A rejected body is no message. -/
theorem filterMap_ofBody (bodies : List Bytes) :
    (bodies.filter (bodyStatus · = .ok)).filterMap Message.ofBody = bodies.filterMap Message.ofBody := by
  rw [List.filterMap_filter]
  refine List.filterMap_congr fun b _ => ?_
  by_cases hok : bodyStatus b = .ok
  · rw [if_pos (by simpa using hok)]
  · have hnone : bodyMessage b = none := if_neg hok
    rw [if_neg (by simpa using hok), Message.ofBody, hnone]
    rfl

/-! ## The handler that frames what it is given -/

namespace BookFeeder

/-- `on_mold_message`; a gap is not its concern. -/
def onCall (framed : Bytes) : MoldCall → Bytes
  | .onMoldMessage b _ _ => framed ++ frame b
  | .onGap _ _ => framed

/-- The buffer of the handler. -/
def framed (r : MoldReceiver) : Bytes := r.calls.foldl onCall []

/-- The zero prefix that ends a session. -/
def frameEnd (buf : Bytes) : Bytes := buf ++ [0, 0]

/-- The book that is rebuilt from what the receiver handed over. -/
def replay (code : UInt8) (r : MoldReceiver) : Option ReferenceBook := Session.replay code (frameEnd (framed r))

theorem framed_eq (r : MoldReceiver) : framed r = r.delivered.flatMap frame := by
  have hfold : ∀ (calls : List MoldCall) (buf : Bytes), calls.foldl onCall buf = buf ++ (calls.filterMap fun
      | .onMoldMessage b _ _ => some b
      | .onGap _ _ => none).flatMap frame := by
    intro calls
    induction calls with
    | nil => exact fun buf => (List.append_nil buf).symm
    | cons c calls ih =>
      intro buf
      rw [List.foldl_cons, ih, List.filterMap_cons]
      cases c with
      | onMoldMessage b k stale => exact List.append_assoc _ _ _
      | onGap expected k => rfl
  exact hfold r.calls []

/-- What the book is rebuilt from. -/
theorem read_frameEnd {r : MoldReceiver} (h : ∀ b ∈ r.delivered, 0 < b.length ∧ b.length < 2 ^ 16) :
    Session.read (frameEnd (framed r)) = some (r.delivered.filterMap Message.ofBody) := by
  have hread := @Session.read_written _ h (some []) fun _ => rfl
  rw [framed_eq]
  exact hread

theorem mem_survivors {packets ms : List Bytes} {b : Bytes} (h : b ∈ MoldReceiver.survivors packets ms) :
    b ∈ ms := by
  obtain ⟨e, he, rfl⟩ := List.mem_map.mp h
  exact List.fst_mem_of_mem_zipIdx (List.mem_filter.mp he).1

/-- The messages that the receiver hands over have a length that frames. -/
theorem read_feed {session filter : Bytes} {framed : Span} {packets : List Bytes}
    (hfilter : filter = [] ∨ filter = session) (hlines : ∀ p ∈ packets, MoldReceiver.OnLines session framed p) :
    Session.read (frameEnd (BookFeeder.framed ((MoldReceiver.new filter).feed packets))) =
      some ((MoldReceiver.survivors packets (okFrames framed.bytes)).filterMap Message.ofBody) := by
  have hdelivered := MoldReceiver.delivered_feed (fillAlpha_length _ _)
    (fun m => MoldReceiver.length_lt_of_mem_okFrames) (MoldReceiver.okFrames_room framed)
    (MoldReceiver.follows_new session filter hfilter)
    fun p hp => (hlines p hp).sent
  rw [read_frameEnd, hdelivered]
  rw [hdelivered]
  intro b hb
  obtain ⟨hpos, hle⟩ := length_of_mem_okFrames (mem_survivors hb)
  exact ⟨hpos, by omega⟩

/-- **The book behind a lossy line** is the book of the messages that survive, in order. -/
theorem feeder_rebuilds (code : UInt8) (session filter : Bytes) (framed : Span) (packets : List Bytes)
    (hfilter : filter = [] ∨ filter = session) (hlines : ∀ p ∈ packets, MoldReceiver.OnLines session framed p) :
    ∃ b, replay code ((MoldReceiver.new filter).feed packets) = some b ∧
      b.Represents (Runs.run Book.step Book.empty
        ((MoldReceiver.survivors packets (okFrames framed.bytes)).filterMap Message.ofBody)) := by
  refine ⟨_, ?_, ReferenceBook.represents_venue code _⟩
  unfold replay Session.replay
  rw [read_feed hfilter hlines]
  rfl

/-- **Lossless delivery rebuilds the file's book.** -/
theorem feeder_lossless (code : UInt8) (session filter : Bytes) (framed : Span) (packets : List Bytes)
    (hfilter : filter = [] ∨ filter = session) (hlines : ∀ p ∈ packets, MoldReceiver.OnLines session framed p)
    (hin : MoldReceiver.InTime (okFrames framed.bytes).length packets)
    (hform : detectFraming framed.bytes = .lengthPrefixed) :
    replay code ((MoldReceiver.new filter).feed packets) = Session.replay code framed.bytes := by
  have hs : (fillAlpha kMoldSessionLen session).length = kMoldSessionLen := fillAlpha_length _ _
  have hlen : ∀ m ∈ okFrames framed.bytes, m.length < 2 ^ 16 := fun m => MoldReceiver.length_lt_of_mem_okFrames
  have hroom := MoldReceiver.okFrames_room framed
  have hf := MoldReceiver.follows_new session filter hfilter
  have hsent : ∀ p ∈ packets, Sent (fillAlpha kMoldSessionLen session) (okFrames framed.bytes) p :=
    fun p hp => (hlines p hp).sent
  -- all messages come in time, so all survive
  have hall : ((MoldReceiver.new filter).feed packets).delivered = okFrames framed.bytes := by
    rw [((MoldReceiver.tracks_feed hs hlen hroom hf hsent).2).delivered_eq,
      (MoldReceiver.complete_of_inTime hs hlen hroom hf hsent hin).1]
    have hevery := MoldReceiver.filterMap_getElem? (fun _ => true) (okFrames framed.bytes) 1
    rwa [List.filter_true, List.filter_true, List.zipIdx_map_fst] at hevery
  have hread : Session.read (frameEnd (BookFeeder.framed ((MoldReceiver.new filter).feed packets))) =
      Session.read framed.bytes := by
    rw [read_frameEnd, hall, Session.read_frames, hform, okFrames_bodies, filterMap_ofBody]
    intro b hb
    obtain ⟨hpos, hle⟩ := length_of_mem_okFrames (hall ▸ hb)
    exact ⟨hpos, by omega⟩
  unfold replay Session.replay
  rw [hread]

/-- The first order is lost. -/
theorem feeder_rebuilds_late :
    MoldReceiver.survivors MoldReceiver.lateArrivals (okFrames MoldReceiver.threeOrders.bytes) =
        [(MoldReceiver.orderFrame 2).drop 2, (MoldReceiver.orderFrame 3).drop 2] ∧
      ∃ b, replay 81 ((MoldReceiver.new []).feed MoldReceiver.lateArrivals) = some b ∧
        b.Represents (Runs.run Book.step Book.empty
          ((MoldReceiver.survivors MoldReceiver.lateArrivals (okFrames MoldReceiver.threeOrders.bytes)).filterMap
            Message.ofBody)) ∧
        (Runs.run Book.step Book.empty ([(MoldReceiver.orderFrame 2).drop 2,
          (MoldReceiver.orderFrame 3).drop 2].filterMap Message.ofBody)).orders.map Entry.ref = [2, 3] := by
  obtain ⟨b, hb, hrep⟩ := feeder_rebuilds 81 [] [] MoldReceiver.threeOrders MoldReceiver.lateArrivals (.inl rfl)
    MoldReceiver.onLines_arrivals.2
  exact ⟨by decide +kernel, b, hb, hrep, by decide +kernel⟩

/-- All three orders come in time. -/
theorem feeder_lossless_arrivals :
    replay 81 ((MoldReceiver.new []).feed MoldReceiver.arrivals) =
        Session.replay 81 MoldReceiver.threeOrders.bytes ∧
      (Session.read MoldReceiver.threeOrders.bytes).map List.length = some 3 :=
  ⟨feeder_lossless 81 [] [] MoldReceiver.threeOrders MoldReceiver.arrivals (.inl rfl) MoldReceiver.onLines_arrivals.1
    MoldReceiver.inTime_arrivals (by decide +kernel), by decide +kernel⟩

end BookFeeder

end Carteret
