import Carteret.Lib.Runs
import Carteret.Wire
import Carteret.MoldPacketizer

/-!
# MoldUDP64 receiver

`MoldReceiver.receive` arbitrates packets of one or two lines: first arrival wins, a forward jump of the
sequence is a gap. The handler is the list of calls made to it. Sequence numbers and the message counters
are 64-bit and wrap.

1. `step_cases` says once what a packet can do to the receiver: nothing, a gap, or a gap and then the
   delivery loop. Everything else about a call is counters.
2. `deliver_eq`: while the range of the packet stays below `2 ^ 64`, the delivery loop hands over exactly
   the messages from the expected one on, in order (`pushAll`).
-/

namespace Carteret

inductive PacketOutcome
  | delivered
  | duplicate
  | gap
  | heartbeat
  | endOfSession
  | malformed
  | wrongSession
  deriving DecidableEq

/-- `messagesLost` and `messagesDelivered` are kept modulo `2 ^ 64`. -/
structure MoldStats where
  packets : ℕ := 0
  delivered : ℕ := 0
  duplicates : ℕ := 0
  heartbeats : ℕ := 0
  malformed : ℕ := 0
  wrongSession : ℕ := 0
  gaps : ℕ := 0
  messagesLost : ℕ := 0
  messagesDelivered : ℕ := 0
  sawEndOfSession : Bool := false
  stale : Bool := false
  deriving DecidableEq

/-- A call to the handler. A handler without `on_gap` ignores the second kind. -/
inductive MoldCall
  | onMoldMessage (payload : Bytes) (seq : ℕ) (stale : Bool)
  | onGap (expected seq : ℕ)
  deriving DecidableEq

/-- The sequence number of a message call. -/
def MoldCall.seq? : MoldCall → Option ℕ
  | .onMoldMessage _ seq _ => some seq
  | .onGap _ _ => none

structure MoldReceiver where
  expectSession : Bytes
  hasSessionFilter : Bool
  nextExpected : ℕ := 1
  stats : MoldStats := {}
  calls : List MoldCall := []
  deriving DecidableEq

namespace MoldReceiver

/-- An empty session means no filter. -/
def new (session : Bytes) : MoldReceiver where
  expectSession := fillAlpha kMoldSessionLen session
  hasSessionFilter := !session.isEmpty

def noteGap (r : MoldReceiver) (seq : ℕ) : MoldReceiver :=
  { r with
    stats := { r.stats with
      gaps := r.stats.gaps + 1
      messagesLost := (r.stats.messagesLost + (seq - r.nextExpected)) % 2 ^ 64
      stale := true }
    calls := r.calls ++ [.onGap r.nextExpected seq]
    nextExpected := seq }

/-- One message handed to the handler. -/
def handOver (r : MoldReceiver) (payload : Bytes) (msgSeq : ℕ) : MoldReceiver :=
  { r with
    calls := r.calls ++ [.onMoldMessage payload msgSeq r.stats.stale]
    stats := { r.stats with messagesDelivered := (r.stats.messagesDelivered + 1) % 2 ^ 64 }
    nextExpected := (msgSeq + 1) % 2 ^ 64 }

/-- The first loop: offset and length of each block, or `none` when a block overruns the datagram. -/
def walkBlocks (packet : Bytes) : ℕ → ℕ → Option (List (ℕ × ℕ))
  | 0, _ => some []
  | n + 1, pos =>
    if pos + 2 > packet.length then none
    else
      let len := be16 packet pos
      if pos + 2 + len > packet.length then none
      else (walkBlocks packet n (pos + 2 + len)).map ((pos + 2, len) :: ·)

/-- The octets of a block. -/
def payload (packet : Bytes) (b : ℕ × ℕ) : Bytes := (packet.drop b.1).take b.2

/-- The second loop, from message `i` on: what is below the expected sequence is skipped. -/
def deliver (packet : Bytes) (seq : ℕ) : ℕ → List (ℕ × ℕ) → MoldReceiver → MoldReceiver
  | _, [], r => r
  | i, b :: bs, r =>
    let msgSeq := (seq + i) % 2 ^ 64
    if msgSeq < r.nextExpected then deliver packet seq (i + 1) bs r
    else deliver packet seq (i + 1) bs (r.handOver (payload packet b) msgSeq)

/-- A counter of `stats_` moves. -/
def count (r : MoldReceiver) (f : MoldStats → MoldStats) : MoldReceiver := { r with stats := f r.stats }

/-- `receive` once the packet is known to carry messages that are not all delivered: the jump is acted
upon, then the blocks are walked, then delivered. -/
def receiveBlocks (r : MoldReceiver) (packet : Bytes) (seq count : ℕ) :
    PacketOutcome × MoldReceiver :=
  let outcome := if seq > r.nextExpected then PacketOutcome.gap else .delivered
  let r := if seq > r.nextExpected then r.noteGap seq else r
  match walkBlocks packet count kMoldHeaderLen with
  | none => (.malformed, r.count fun s => { s with malformed := s.malformed + 1 })
  | some blocks =>
    let r := deliver packet seq 0 blocks r
    (outcome, r.count fun s => { s with delivered := s.delivered + 1 })

/-- `receive` once the header is whole and of the right session. -/
def receiveHeader (r : MoldReceiver) (packet : Bytes) : PacketOutcome × MoldReceiver :=
  let seq := be64 packet kMoldSessionLen
  let count := be16 packet 18
  if count = kMoldEndOfSession then
    (.endOfSession, r.count fun s => { s with sawEndOfSession := true })
  else if count = 0 then
    let r := r.count fun s => { s with heartbeats := s.heartbeats + 1 }
    (.heartbeat, if seq > r.nextExpected then r.noteGap seq else r)
  else if (seq + count) % 2 ^ 64 ≤ r.nextExpected then
    (.duplicate, r.count fun s => { s with duplicates := s.duplicates + 1 })
  else r.receiveBlocks packet seq count

def receive (r : MoldReceiver) (packet : Bytes) : PacketOutcome × MoldReceiver :=
  let r := r.count fun s => { s with packets := s.packets + 1 }
  if packet.length < kMoldHeaderLen then
    (.malformed, r.count fun s => { s with malformed := s.malformed + 1 })
  else if r.hasSessionFilter ∧ packet.take kMoldSessionLen ≠ r.expectSession then
    (.wrongSession, r.count fun s => { s with wrongSession := s.wrongSession + 1 })
  else r.receiveHeader packet

/-- One packet, as a step of the receiver. -/
def step (r : MoldReceiver) (packet : Bytes) : MoldReceiver := (r.receive packet).2

/-- The receiver after a sequence of packets. -/
def feed (r : MoldReceiver) (packets : List Bytes) : MoldReceiver := Runs.run step r packets

/-- The sequence numbers passed to `on_mold_message`, in order. -/
def sequences (r : MoldReceiver) : List ℕ := r.calls.filterMap MoldCall.seq?

end MoldReceiver

/-! ## Header fields of a packet -/

/-- The sequence number in the header. -/
def packetSeq (p : Bytes) : ℕ := be64 p kMoldSessionLen

/-- The count field. -/
def packetCount (p : Bytes) : ℕ := be16 p 18

/-- The count field announces messages. -/
def CarriesMessages (p : Bytes) : Prop := packetCount p ≠ kMoldEndOfSession ∧ packetCount p ≠ 0

instance (p : Bytes) : Decidable (CarriesMessages p) := by unfold CarriesMessages; infer_instance

/-- The header is whole and of the receiver's session. -/
def MoldReceiver.Accepts (r : MoldReceiver) (p : Bytes) : Prop :=
  kMoldHeaderLen ≤ p.length ∧ (r.hasSessionFilter = true → p.take kMoldSessionLen = r.expectSession)

instance (r : MoldReceiver) (p : Bytes) : Decidable (r.Accepts p) := by
  unfold MoldReceiver.Accepts; infer_instance

theorem packetSeq_lt (p : Bytes) : packetSeq p < 2 ^ 64 := be64_lt _ _

namespace MoldReceiver

/-! ## What a caller can see -/

/-- Two receivers that a caller of the queries and the handler cannot tell apart, and that check the
same session. The per-packet counters (`packets`, `malformed` and so on) may differ. -/
structure Same (r r' : MoldReceiver) : Prop where
  nextExpected : r'.nextExpected = r.nextExpected
  stale : r'.stats.stale = r.stats.stale
  gaps : r'.stats.gaps = r.stats.gaps
  messagesLost : r'.stats.messagesLost = r.stats.messagesLost
  messagesDelivered : r'.stats.messagesDelivered = r.stats.messagesDelivered
  calls : r'.calls = r.calls
  expectSession : r'.expectSession = r.expectSession
  hasSessionFilter : r'.hasSessionFilter = r.hasSessionFilter

variable {r r' r'' : MoldReceiver}

theorem Same.refl (r : MoldReceiver) : Same r r := ⟨rfl, rfl, rfl, rfl, rfl, rfl, rfl, rfl⟩

theorem Same.symm (h : Same r r') : Same r' r :=
  ⟨h.1.symm, h.2.symm, h.3.symm, h.4.symm, h.5.symm, h.6.symm, h.7.symm, h.8.symm⟩

theorem Same.trans (h : Same r r') (h' : Same r' r'') : Same r r'' :=
  ⟨h'.1.trans h.1, h'.2.trans h.2, h'.3.trans h.3, h'.4.trans h.4, h'.5.trans h.5, h'.6.trans h.6,
    h'.7.trans h.7, h'.8.trans h.8⟩

/-- Moving a counter that no query reports goes unseen. -/
theorem same_count (r : MoldReceiver) {f : MoldStats → MoldStats}
    (hf : (f r.stats).stale = r.stats.stale ∧ (f r.stats).gaps = r.stats.gaps ∧
      (f r.stats).messagesLost = r.stats.messagesLost ∧
      (f r.stats).messagesDelivered = r.stats.messagesDelivered) : Same r (r.count f) :=
  ⟨rfl, hf.1, hf.2.1, hf.2.2.1, hf.2.2.2, rfl, rfl, rfl⟩

theorem Same.noteGap (h : Same r r') (seq : ℕ) : Same (r.noteGap seq) (r'.noteGap seq) := by
  constructor <;> simp [MoldReceiver.noteGap, h.1, h.3, h.4, h.5, h.6, h.7, h.8]

theorem Same.handOver (h : Same r r') (b : Bytes) (n : ℕ) :
    Same (r.handOver b n) (r'.handOver b n) := by
  constructor <;> simp [MoldReceiver.handOver, h.2, h.3, h.4, h.5, h.6, h.7, h.8]

theorem Same.deliver (packet : Bytes) (seq i : ℕ) (bs : List (ℕ × ℕ)) (h : Same r r') :
    Same (r.deliver packet seq i bs) (r'.deliver packet seq i bs) := by
  induction bs generalizing i r r' with
  | nil => exact h
  | cons b bs ih =>
    unfold MoldReceiver.deliver
    simp only [h.nextExpected]
    split
    · exact ih (i + 1) h
    · exact ih (i + 1) (h.handOver _ _)

theorem Same.sequences (h : Same r r') : r'.sequences = r.sequences := by
  unfold MoldReceiver.sequences; rw [h.calls]

/-! ## What a packet can do -/

/-- The receiver that has acted on the jump to `seq`, if there is one. -/
def jump (r : MoldReceiver) (seq : ℕ) : MoldReceiver :=
  if seq > r.nextExpected then r.noteGap seq else r

theorem Same.jump (h : Same r r') (seq : ℕ) : Same (r.jump seq) (r'.jump seq) := by
  unfold MoldReceiver.jump
  rw [h.nextExpected]
  split
  · exact h.noteGap seq
  · exact h

section Branches

variable {p : Bytes}

theorem receive_reject (h : ¬ r.Accepts p) :
    Same r (r.step p) ∧ ((r.receive p).1 = .malformed ↔ p.length < kMoldHeaderLen) := by
  have h₀ := same_count r (f := fun s => { s with packets := s.packets + 1 }) ⟨rfl, rfl, rfl, rfl⟩
  unfold step
  by_cases hlen : p.length < kMoldHeaderLen
  · have hr : r.receive p = (.malformed, (r.count fun s => { s with packets := s.packets + 1 }).count
        fun s => { s with malformed := s.malformed + 1 }) := if_pos hlen
    rw [hr]
    dsimp only
    exact ⟨h₀.trans (same_count _ ⟨rfl, rfl, rfl, rfl⟩), iff_of_true rfl hlen⟩
  · have hs : r.hasSessionFilter = true ∧ p.take kMoldSessionLen ≠ r.expectSession := by
      by_contra hc
      refine h ⟨Nat.le_of_not_lt hlen, fun hf => ?_⟩
      by_contra hne
      exact hc ⟨hf, hne⟩
    have hr : r.receive p =
        (.wrongSession, (r.count fun s => { s with packets := s.packets + 1 }).count
          fun s => { s with wrongSession := s.wrongSession + 1 }) :=
      (if_neg hlen).trans (if_pos hs)
    rw [hr]
    dsimp only
    exact ⟨h₀.trans (same_count _ ⟨rfl, rfl, rfl, rfl⟩), iff_of_false (by simp) hlen⟩

/-- The first two tests passed. -/
theorem receive_accept (h : r.Accepts p) :
    ∃ r₀, Same r r₀ ∧ r.receive p = r₀.receiveHeader p := by
  have hs : ¬ (r.hasSessionFilter = true ∧ p.take kMoldSessionLen ≠ r.expectSession) :=
    fun hc => hc.2 (h.2 hc.1)
  exact ⟨r.count fun s => { s with packets := s.packets + 1 }, same_count r ⟨rfl, rfl, rfl, rfl⟩,
    (if_neg (Nat.not_lt.mpr h.1)).trans (if_neg hs)⟩

theorem receive_eos (h : r.Accepts p) (hc : packetCount p = kMoldEndOfSession) :
    (r.receive p).1 = .endOfSession ∧ Same r (r.step p) ∧
      (r.step p).stats.sawEndOfSession = true := by
  obtain ⟨r₀, h₀, hr⟩ := receive_accept h
  have hh : r₀.receiveHeader p =
      (.endOfSession, r₀.count fun s => { s with sawEndOfSession := true }) := if_pos hc
  unfold step
  rw [hr, hh]
  dsimp only
  exact ⟨rfl, h₀.trans (same_count r₀ ⟨rfl, rfl, rfl, rfl⟩), rfl⟩

theorem receive_heartbeat (h : r.Accepts p) (hc : packetCount p = 0) :
    (r.receive p).1 = .heartbeat ∧ Same (r.jump (packetSeq p)) (r.step p) := by
  obtain ⟨r₀, h₀, hr⟩ := receive_accept h
  have hne : packetCount p ≠ kMoldEndOfSession := by rw [hc]; decide
  have hh : r₀.receiveHeader p =
      (.heartbeat, (r₀.count fun s => { s with heartbeats := s.heartbeats + 1 }).jump
        (packetSeq p)) := (if_neg hne).trans (if_pos hc)
  unfold step
  rw [hr, hh]
  dsimp only
  exact ⟨rfl, (h₀.trans (same_count r₀ ⟨rfl, rfl, rfl, rfl⟩)).jump _⟩

theorem receive_duplicate (h : r.Accepts p) (hc : CarriesMessages p)
    (hd : (packetSeq p + packetCount p) % 2 ^ 64 ≤ r.nextExpected) :
    (r.receive p).1 = .duplicate ∧ Same r (r.step p) := by
  obtain ⟨r₀, h₀, hr⟩ := receive_accept h
  have hh : r₀.receiveHeader p =
      (.duplicate, r₀.count fun s => { s with duplicates := s.duplicates + 1 }) :=
    (if_neg hc.1).trans ((if_neg hc.2).trans (if_pos (h₀.nextExpected ▸ hd)))
  unfold step
  rw [hr, hh]
  dsimp only
  exact ⟨rfl, h₀.trans (same_count r₀ ⟨rfl, rfl, rfl, rfl⟩)⟩

/-- A packet that carries messages not all delivered reaches the block walk. -/
theorem receive_blocks (h : r.Accepts p) (hc : CarriesMessages p)
    (hd : r.nextExpected < (packetSeq p + packetCount p) % 2 ^ 64) :
    ∃ r₀, Same r r₀ ∧ r.receive p = r₀.receiveBlocks p (packetSeq p) (packetCount p) := by
  obtain ⟨r₀, h₀, hr⟩ := receive_accept h
  refine ⟨r₀, h₀, hr.trans ?_⟩
  exact (if_neg hc.1).trans ((if_neg hc.2).trans
    (if_neg (by rw [h₀.nextExpected]; exact Nat.not_le.mpr hd)))

theorem receive_overrun (h : r.Accepts p) (hc : CarriesMessages p)
    (hd : r.nextExpected < (packetSeq p + packetCount p) % 2 ^ 64)
    (hw : walkBlocks p (packetCount p) kMoldHeaderLen = none) :
    (r.receive p).1 = .malformed ∧ Same (r.jump (packetSeq p)) (r.step p) := by
  obtain ⟨r₀, h₀, hr⟩ := receive_blocks h hc hd
  unfold step
  rw [hr]
  unfold receiveBlocks
  rw [hw]
  dsimp only
  exact ⟨rfl, (h₀.jump _).trans (same_count _ ⟨rfl, rfl, rfl, rfl⟩)⟩

theorem receive_deliver (h : r.Accepts p) (hc : CarriesMessages p)
    (hd : r.nextExpected < (packetSeq p + packetCount p) % 2 ^ 64) {bs : List (ℕ × ℕ)}
    (hw : walkBlocks p (packetCount p) kMoldHeaderLen = some bs) :
    (r.receive p).1 = (if packetSeq p > r.nextExpected then .gap else .delivered) ∧
      Same ((r.jump (packetSeq p)).deliver p (packetSeq p) 0 bs) (r.step p) := by
  obtain ⟨r₀, h₀, hr⟩ := receive_blocks h hc hd
  unfold step
  rw [hr]
  unfold receiveBlocks
  rw [hw, ← h₀.nextExpected]
  dsimp only
  exact ⟨rfl, ((h₀.jump _).deliver p _ 0 bs).trans (same_count _ ⟨rfl, rfl, rfl, rfl⟩)⟩

end Branches

/-- **What a packet can do to the receiver**, up to its counters: nothing, act on a jump, or act on a
jump and run the delivery loop over its blocks. -/
theorem step_cases (r : MoldReceiver) (p : Bytes) :
    Same r (r.step p) ∨
    (r.Accepts p ∧ r.nextExpected < packetSeq p ∧ Same (r.noteGap (packetSeq p)) (r.step p)) ∨
    (r.Accepts p ∧ CarriesMessages p ∧
      r.nextExpected < (packetSeq p + packetCount p) % 2 ^ 64 ∧
      ∃ bs, walkBlocks p (packetCount p) kMoldHeaderLen = some bs ∧
        Same ((r.jump (packetSeq p)).deliver p (packetSeq p) 0 bs) (r.step p)) := by
  have hjump : r.Accepts p → Same (r.jump (packetSeq p)) (r.step p) →
      Same r (r.step p) ∨
      (r.Accepts p ∧ r.nextExpected < packetSeq p ∧
        Same (r.noteGap (packetSeq p)) (r.step p)) := by
    intro ha hj
    unfold jump at hj
    split at hj
    · rename_i hgt; exact .inr ⟨ha, hgt, hj⟩
    · exact .inl hj
  by_cases ha : r.Accepts p
  · by_cases he : packetCount p = kMoldEndOfSession
    · exact .inl (receive_eos ha he).2.1
    by_cases h0 : packetCount p = 0
    · rcases hjump ha (receive_heartbeat ha h0).2 with h | h
      · exact .inl h
      · exact .inr (.inl h)
    have hc : CarriesMessages p := ⟨he, h0⟩
    by_cases hd : (packetSeq p + packetCount p) % 2 ^ 64 ≤ r.nextExpected
    · exact .inl (receive_duplicate ha hc hd).2
    have hd' := Nat.lt_of_not_le hd
    cases hw : walkBlocks p (packetCount p) kMoldHeaderLen with
    | none =>
      rcases hjump ha (receive_overrun ha hc hd' hw).2 with h | h
      · exact .inl h
      · exact .inr (.inl h)
    | some bs => exact .inr (.inr ⟨ha, hc, hd', bs, rfl, (receive_deliver ha hc hd' hw).2⟩)
  · exact .inl (receive_reject ha).1

/-! ## The delivery loop -/

/-- The messages `bs` handed over in order, each with the expected sequence number. -/
def pushAll : List Bytes → MoldReceiver → MoldReceiver
  | [], r => r
  | b :: bs, r => pushAll bs (r.handOver b r.nextExpected)

/-- The calls that hand over `bs` from sequence `seq` on. -/
def numbered (stale : Bool) : ℕ → List Bytes → List MoldCall
  | _, [] => []
  | seq, b :: bs => .onMoldMessage b seq stale :: numbered stale (seq + 1) bs

@[simp] theorem filterMap_seq_numbered (stale : Bool) (bs : List Bytes) : ∀ seq,
    (numbered stale seq bs).filterMap MoldCall.seq? = List.range' seq bs.length := by
  induction bs with
  | nil => intro seq; rfl
  | cons b bs ih =>
    intro seq
    rw [List.length_cons, List.range'_succ, ← ih (seq + 1)]
    rfl

theorem walkBlocks_length {packet : Bytes} : ∀ {n pos : ℕ} {bs : List (ℕ × ℕ)},
    walkBlocks packet n pos = some bs → bs.length = n
  | 0, _, bs, h => by obtain rfl : [] = bs := by simpa [walkBlocks] using h
                      rfl
  | n + 1, pos, bs, h => by
    unfold walkBlocks at h
    split at h
    · cases h
    · simp only at h
      split at h
      · cases h
      · obtain ⟨bs', hbs, rfl⟩ := Option.map_eq_some_iff.mp h
        rw [List.length_cons, walkBlocks_length hbs]

/-- **The delivery loop.** Below `2 ^ 64` it skips what is below the expected sequence and hands over the
rest in order. -/
theorem deliver_eq (packet : Bytes) (seq : ℕ) (bs : List (ℕ × ℕ)) :
    ∀ (i : ℕ) (r : MoldReceiver), seq + i ≤ r.nextExpected → seq + i + bs.length < 2 ^ 64 →
      r.deliver packet seq i bs =
        pushAll ((bs.map (payload packet)).drop (r.nextExpected - (seq + i))) r := by
  induction bs with
  | nil => intro i r _ _; simp [deliver, pushAll]
  | cons b bs ih =>
    intro i r hle hroom
    rw [List.length_cons] at hroom
    have hmod : (seq + i) % 2 ^ 64 = seq + i := Nat.mod_eq_of_lt (by omega)
    unfold deliver
    simp only [hmod]
    by_cases hlt : seq + i < r.nextExpected
    · obtain ⟨k, hk⟩ : ∃ k, r.nextExpected - (seq + i) = k + 1 := ⟨r.nextExpected - (seq + i) - 1,
        by omega⟩
      rw [if_pos hlt, ih (i + 1) r (by omega) (by omega), hk, List.map_cons, List.drop_succ_cons,
        show r.nextExpected - (seq + (i + 1)) = k by omega]
    · have heq : r.nextExpected = seq + i := by omega
      have hnext : (r.handOver (payload packet b) (seq + i)).nextExpected = seq + i + 1 :=
        Nat.mod_eq_of_lt (by omega)
      rw [if_neg hlt, ih (i + 1) _ (by rw [hnext]; omega) (by omega), hnext, heq,
        show seq + i + 1 - (seq + (i + 1)) = 0 by omega, Nat.sub_self, List.drop_zero,
        List.drop_zero, List.map_cons]
      rw [pushAll, heq]

theorem deliver_append (packet : Bytes) (seq : ℕ) (as bs : List (ℕ × ℕ)) :
    ∀ (i : ℕ) (r : MoldReceiver), r.deliver packet seq i (as ++ bs) =
      (r.deliver packet seq i as).deliver packet seq (i + as.length) bs := by
  induction as with
  | nil => intro i r; rfl
  | cons a as ih =>
    intro i r
    rw [List.cons_append, List.length_cons, deliver, deliver]
    split
    · rw [ih, Nat.add_assoc, Nat.add_comm 1]
    · rw [ih, Nat.add_assoc, Nat.add_comm 1]

/-- The loop only adds calls. -/
theorem calls_prefix_deliver (packet : Bytes) (seq : ℕ) (bs : List (ℕ × ℕ)) :
    ∀ (i : ℕ) (r : MoldReceiver), r.calls <+: (r.deliver packet seq i bs).calls := by
  induction bs with
  | nil => intro i r; exact List.prefix_rfl
  | cons b bs ih =>
    intro i r
    rw [deliver]
    split
    · exact ih (i + 1) r
    · have hadd : r.calls <+: (r.handOver (payload packet b) ((seq + i) % 2 ^ 64)).calls :=
        List.prefix_append r.calls _
      exact hadd.trans (ih (i + 1) _)

theorem pushAll_spec (bs : List Bytes) : ∀ (r : MoldReceiver),
    r.nextExpected + bs.length < 2 ^ 64 →
      (pushAll bs r).nextExpected = r.nextExpected + bs.length ∧
      (pushAll bs r).calls = r.calls ++ numbered r.stats.stale r.nextExpected bs ∧
      (r.stats.messagesDelivered + bs.length < 2 ^ 64 →
        (pushAll bs r).stats.messagesDelivered = r.stats.messagesDelivered + bs.length) ∧
      (pushAll bs r).stats = { r.stats with
        messagesDelivered := (pushAll bs r).stats.messagesDelivered } ∧
      (pushAll bs r).expectSession = r.expectSession ∧
      (pushAll bs r).hasSessionFilter = r.hasSessionFilter := by
  induction bs with
  | nil => intro r _; exact ⟨rfl, by simp [pushAll, numbered], fun _ => rfl, rfl, rfl, rfl⟩
  | cons b bs ih =>
    intro r hroom
    rw [List.length_cons] at hroom
    have hnext : (r.handOver b r.nextExpected).nextExpected = r.nextExpected + 1 :=
      Nat.mod_eq_of_lt (by omega)
    obtain ⟨h1, h2, h3, h4, h5, h6⟩ := ih (r.handOver b r.nextExpected) (by rw [hnext]; omega)
    refine ⟨?_, ?_, ?_, ?_, h5, h6⟩
    · rw [pushAll, h1, hnext, List.length_cons]; omega
    · rw [pushAll, h2, hnext]; simp [handOver, numbered]
    · intro hd
      rw [List.length_cons] at hd
      have hone : (r.handOver b r.nextExpected).stats.messagesDelivered =
          r.stats.messagesDelivered + 1 := Nat.mod_eq_of_lt (by omega)
      rw [pushAll, h3 (by rw [hone]; omega), hone, List.length_cons]
      omega
    · rw [pushAll, h4]; rfl

/-! ## Counters -/

theorem deliver_counters (packet : Bytes) (seq : ℕ) (bs : List (ℕ × ℕ)) :
    ∀ (i : ℕ) (r : MoldReceiver),
      (r.deliver packet seq i bs).stats.malformed = r.stats.malformed ∧
        (r.deliver packet seq i bs).stats.sawEndOfSession = r.stats.sawEndOfSession := by
  induction bs with
  | nil => exact fun i r => ⟨rfl, rfl⟩
  | cons b bs ih =>
    intro i r
    rw [deliver]
    split
    · exact ih (i + 1) r
    · exact ih (i + 1) _

theorem receiveBlocks_counters (r : MoldReceiver) (packet : Bytes) (seq count : ℕ) :
    (r.receiveBlocks packet seq count).2.stats.malformed = r.stats.malformed +
        (if (r.receiveBlocks packet seq count).1 = .malformed then 1 else 0) ∧
      (r.receiveBlocks packet seq count).2.stats.sawEndOfSession = (r.stats.sawEndOfSession ||
        decide ((r.receiveBlocks packet seq count).1 = .endOfSession)) := by
  have hj : (if seq > r.nextExpected then r.noteGap seq else r).stats.malformed = r.stats.malformed ∧
      (if seq > r.nextExpected then r.noteGap seq else r).stats.sawEndOfSession =
        r.stats.sawEndOfSession := by
    split <;> exact ⟨rfl, rfl⟩
  have hout : (if seq > r.nextExpected then PacketOutcome.gap else .delivered) ≠ .malformed ∧
      (if seq > r.nextExpected then PacketOutcome.gap else .delivered) ≠ .endOfSession := by
    split <;> simp
  unfold receiveBlocks
  cases walkBlocks packet count kMoldHeaderLen with
  | none => simp [MoldReceiver.count, hj]
  | some bs =>
    obtain ⟨h1, h2⟩ := deliver_counters packet seq bs 0
      (if seq > r.nextExpected then r.noteGap seq else r)
    simp [MoldReceiver.count, h1, h2, hj, hout]

/-- The counters of malformed packets and of closed sessions move with the outcome. -/
theorem step_counters (r : MoldReceiver) (p : Bytes) :
    (r.step p).stats.malformed = r.stats.malformed +
        (if (r.receive p).1 = .malformed then 1 else 0) ∧
      (r.step p).stats.sawEndOfSession =
        (r.stats.sawEndOfSession || decide ((r.receive p).1 = .endOfSession)) := by
  unfold step receive
  simp only
  split
  · simp [count]
  split
  · simp [count]
  unfold receiveHeader
  simp only
  split
  · simp [count]
  split
  · split <;> simp [count, noteGap]
  split
  · simp [count]
  · exact receiveBlocks_counters _ _ _ _

end MoldReceiver

end Carteret
