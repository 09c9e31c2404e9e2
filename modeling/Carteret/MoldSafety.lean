import Carteret.MoldReceiver

/-!
# The receiver on arbitrary datagrams

1. `Safe`: the sequence numbers handed over are increasing and below the expected one, which accounts for
   every message delivered or lost. A packet keeps it (`Safe.step`) unless it is delivered although its
   range passes the last 64-bit sequence number (`Wraps`), and then it is lost for good.
2. A malformed datagram goes unseen exactly when its header announces no jump (`NoJump`): the jump is acted
   upon before the blocks are walked. Runs with such datagrams inserted are related by `Inserted`.
-/

namespace Carteret

namespace MoldReceiver

variable {r r' : MoldReceiver} {p : Bytes}

/-! ## Increasing sequences and balanced accounts -/

structure Safe (r : MoldReceiver) : Prop where
  increasing : r.sequences.Pairwise (· < ·)
  below : ∀ s ∈ r.sequences, s < r.nextExpected
  account : r.nextExpected = 1 + r.stats.messagesDelivered + r.stats.messagesLost
  next_lt : r.nextExpected < 2 ^ 64

theorem Safe.new (session : Bytes) : Safe (new session) :=
  ⟨List.Pairwise.nil, by simp [sequences, MoldReceiver.new], rfl, by simp [MoldReceiver.new]⟩

theorem Safe.same (h : Safe r) (hs : Same r r') : Safe r' := by
  refine ⟨?_, ?_, ?_, ?_⟩
  · rw [hs.sequences]; exact h.increasing
  · rw [hs.sequences, hs.nextExpected]; exact h.below
  · rw [hs.nextExpected, hs.messagesDelivered, hs.messagesLost]; exact h.account
  · rw [hs.nextExpected]; exact h.next_lt

theorem sequences_noteGap (r : MoldReceiver) (seq : ℕ) : (r.noteGap seq).sequences = r.sequences := by
  simp [sequences, noteGap, List.filterMap_append, MoldCall.seq?]

theorem Safe.noteGap (h : Safe r) {seq : ℕ} (hgt : r.nextExpected < seq) (hlt : seq < 2 ^ 64) :
    Safe (r.noteGap seq) := by
  have hacc := h.account
  refine ⟨?_, ?_, ?_, hlt⟩
  · rw [sequences_noteGap]; exact h.increasing
  · rw [sequences_noteGap]; exact fun s hs => (h.below s hs).trans hgt
  · change seq = 1 + r.stats.messagesDelivered +
      (r.stats.messagesLost + (seq - r.nextExpected)) % 2 ^ 64
    rw [Nat.mod_eq_of_lt (by omega)]
    omega

theorem Safe.jump (h : Safe r) {seq : ℕ} (hlt : seq < 2 ^ 64) : Safe (r.jump seq) := by
  unfold MoldReceiver.jump
  split
  · rename_i hgt; exact h.noteGap hgt hlt
  · exact h

theorem sequences_pushAll {bs : List Bytes} (hroom : r.nextExpected + bs.length < 2 ^ 64) :
    (pushAll bs r).sequences = r.sequences ++ List.range' r.nextExpected bs.length := by
  unfold sequences
  rw [(pushAll_spec bs r hroom).2.1, List.filterMap_append, filterMap_seq_numbered]

theorem Safe.pushAll (h : Safe r) {bs : List Bytes} (hroom : r.nextExpected + bs.length < 2 ^ 64) :
    Safe (pushAll bs r) := by
  obtain ⟨hnext, -, hdel, hstats, -, -⟩ := pushAll_spec bs r hroom
  have hacc := h.account
  have hseqs := sequences_pushAll hroom
  refine ⟨?_, ?_, ?_, by rw [hnext]; exact hroom⟩
  · rw [hseqs, List.pairwise_append]
    refine ⟨h.increasing, List.pairwise_lt_range', fun a ha b hb => ?_⟩
    have := (List.mem_range'_1.mp hb).1
    exact lt_of_lt_of_le (h.below a ha) this
  · intro s hs
    rw [hseqs] at hs
    rw [hnext]
    rcases List.mem_append.mp hs with hs | hs
    · have := h.below s hs; omega
    · exact (List.mem_range'_1.mp hs).2
  · have hlost : (MoldReceiver.pushAll bs r).stats.messagesLost = r.stats.messagesLost := by
      rw [hstats]
    rw [hnext, hlost, hdel (by omega)]
    omega

/-- The packet is delivered although its range passes the last 64-bit sequence number. -/
def Wraps (r : MoldReceiver) (p : Bytes) : Prop :=
  r.Accepts p ∧ CarriesMessages p ∧
    r.nextExpected < (packetSeq p + packetCount p) % 2 ^ 64 ∧
    (walkBlocks p (packetCount p) kMoldHeaderLen).isSome ∧
    2 ^ 64 ≤ packetSeq p + packetCount p

instance (r : MoldReceiver) (p : Bytes) : Decidable (r.Wraps p) := by
  unfold Wraps; infer_instance

theorem le_nextExpected_jump (r : MoldReceiver) (seq : ℕ) :
    r.nextExpected ≤ (r.jump seq).nextExpected ∧ seq ≤ (r.jump seq).nextExpected := by
  unfold MoldReceiver.jump
  split
  · rename_i hgt
    exact ⟨hgt.le, Nat.le_refl seq⟩
  · rename_i hle
    exact ⟨Nat.le_refl _, Nat.le_of_not_lt hle⟩

/-- **A packet that does not wrap keeps the receiver safe** and never moves it back. -/
theorem Safe.step (h : Safe r) (p : Bytes) (hw : ¬ r.Wraps p) :
    Safe (r.step p) ∧ r.nextExpected ≤ (r.step p).nextExpected := by
  rcases step_cases r p with hs | ⟨-, hgt, hs⟩ | ⟨ha, hc, hd, bs, hbs, hs⟩
  · exact ⟨h.same hs, hs.nextExpected.ge⟩
  · exact ⟨(h.noteGap hgt (packetSeq_lt p)).same hs, by rw [hs.nextExpected]; exact hgt.le⟩
  · have hroom : packetSeq p + packetCount p < 2 ^ 64 := by
      by_contra hge
      exact hw ⟨ha, hc, hd, by rw [hbs]; rfl, Nat.le_of_not_lt hge⟩
    have hlen := walkBlocks_length hbs
    obtain ⟨hmono, hseq⟩ := le_nextExpected_jump r (packetSeq p)
    have hj := h.jump (packetSeq_lt p)
    rw [deliver_eq p _ bs 0 _ (by omega) (by omega), Nat.add_zero] at hs
    set rest := (bs.map (payload p)).drop ((r.jump (packetSeq p)).nextExpected - packetSeq p)
    have hfit : (r.jump (packetSeq p)).nextExpected + rest.length < 2 ^ 64 := by
      have := hj.next_lt
      simp only [rest, List.length_drop, List.length_map]
      omega
    refine ⟨(hj.pushAll hfit).same hs, ?_⟩
    rw [hs.nextExpected, (pushAll_spec rest _ hfit).1]
    omega

/-! ## A packet that wraps -/

theorem sequences_handOver (r : MoldReceiver) (b : Bytes) (n : ℕ) :
    (r.handOver b n).sequences = r.sequences ++ [n] := by
  simp [sequences, handOver, List.filterMap_append, MoldCall.seq?]

/-- When the range passes `2 ^ 64` the loop hands over the last sequence number, then zero. -/
theorem deliver_wraps {seq : ℕ} {bs : List (ℕ × ℕ)} (hnext : r.nextExpected = seq)
    (hseq : seq < 2 ^ 64) (hover : 2 ^ 64 < seq + bs.length) :
    ¬ (r.deliver p seq 0 bs).sequences.Pairwise (· < ·) := by
  -- the blocks below the last number, the one with it, and the one that gets number zero
  obtain ⟨as, b, c, cs, rfl, hlen⟩ : ∃ as b c cs, bs = as ++ b :: c :: cs ∧
      seq + as.length + 1 = 2 ^ 64 := by
    refine ⟨bs.take (2 ^ 64 - 1 - seq), bs[2 ^ 64 - 1 - seq], bs[2 ^ 64 - 1 - seq + 1],
      bs.drop (2 ^ 64 - 1 - seq + 1 + 1), ?_, by rw [List.length_take]; omega⟩
    rw [← List.drop_eq_getElem_cons, ← List.drop_eq_getElem_cons, List.take_append_drop]
  have hlast : (seq + (0 + as.length)) % 2 ^ 64 = 2 ^ 64 - 1 := by
    rw [Nat.mod_eq_of_lt (by omega)]; omega
  have hzero : (seq + (0 + as.length + 1)) % 2 ^ 64 = 0 := by
    rw [show seq + (0 + as.length + 1) = 2 ^ 64 by omega, Nat.mod_self]
  obtain ⟨r₁, hr₁, hr₁next⟩ : ∃ r₁, r.deliver p seq 0 as = r₁ ∧ r₁.nextExpected = 2 ^ 64 - 1 := by
    refine ⟨_, deliver_eq p seq as 0 r (by omega) (by omega), ?_⟩
    rw [(pushAll_spec _ r (by simp only [List.length_drop, List.length_map]; omega)).1]
    simp only [List.length_drop, List.length_map]
    omega
  rw [deliver_append, hr₁, deliver]
  simp only [hlast, hr₁next, lt_irrefl, if_false]
  have hback : (r₁.handOver (payload p b) (2 ^ 64 - 1)).nextExpected = 0 := by
    change (2 ^ 64 - 1 + 1) % 2 ^ 64 = 0
    rfl
  rw [deliver]
  simp only [hzero, hback, lt_irrefl, if_false]
  intro hp
  -- what the two calls record is still there at the end
  set r₂ := (r₁.handOver (payload p b) (2 ^ 64 - 1)).handOver (payload p c) 0 with hr₂
  have hsub : r₂.sequences.Sublist (r₂.deliver p seq (0 + as.length + 1 + 1) cs).sequences :=
    (calls_prefix_deliver p seq cs _ r₂).sublist.filterMap _
  have hp₂ : r₂.sequences.Pairwise (· < ·) := hp.sublist hsub
  rw [hr₂, sequences_handOver, sequences_handOver, List.append_assoc, List.pairwise_append] at hp₂
  simp at hp₂

theorem sequences_sublist_step (r : MoldReceiver) (p : Bytes) :
    r.sequences.Sublist (r.step p).sequences := by
  rcases step_cases r p with hs | ⟨-, -, hs⟩ | ⟨-, -, -, bs, -, hs⟩
  · rw [hs.sequences]
  · rw [hs.sequences, sequences_noteGap]
  · rw [hs.sequences]
    have hj : (r.jump (packetSeq p)).sequences = r.sequences := by
      unfold jump; split
      · exact sequences_noteGap r _
      · rfl
    rw [← hj]
    exact (calls_prefix_deliver p _ bs 0 _).sublist.filterMap _

theorem Wraps.not_increasing (hw : r.Wraps p) : ¬ (r.step p).sequences.Pairwise (· < ·) := by
  obtain ⟨ha, hc, hd, hsome, hover⟩ := hw
  obtain ⟨bs, hbs⟩ := Option.isSome_iff_exists.mp hsome
  have hlen := walkBlocks_length hbs
  have hseq := packetSeq_lt p
  have hcount : packetCount p < 2 ^ 16 := be16_lt _ _
  -- the sum has wrapped to something small, so the packet is far ahead
  have hfar : r.nextExpected < packetSeq p := by omega
  have hj : r.jump (packetSeq p) = r.noteGap (packetSeq p) := if_pos hfar
  rw [(receive_deliver ha hc hd hbs).2.sequences, hj]
  exact deliver_wraps rfl hseq (by omega)

/-! ## Safety over whole runs -/

/-- The sequence numbers handed over in the run are increasing; at every packet the expected sequence
does not go back; in every state it accounts for the messages delivered and lost. -/
def SafeRun (session : Bytes) (packets : List Bytes) : Prop :=
  ((new session).feed packets).sequences.Pairwise (· < ·) ∧
  (∀ pre p post, packets = pre ++ p :: post →
    ((new session).feed pre).nextExpected ≤ ((new session).feed (pre ++ [p])).nextExpected) ∧
  ∀ pre post, packets = pre ++ post →
    ((new session).feed pre).nextExpected = 1 + ((new session).feed pre).stats.messagesDelivered +
      ((new session).feed pre).stats.messagesLost

theorem safe_feed {session : Bytes} {packets : List Bytes}
    (h : Runs.Along step (fun r p => ¬ r.Wraps p) (new session) packets) :
    Safe ((new session).feed packets) :=
  Runs.Along.invariant (fun _ p hw hs => (hs.step p hw).1) h (Safe.new session)

/-- **Receiver safety on arbitrary input.** A run is safe exactly when none of its packets is delivered
past the last sequence number. -/
theorem safeRun_iff (session : Bytes) (packets : List Bytes) :
    SafeRun session packets ↔
      Runs.Along step (fun r p => ¬ r.Wraps p) (new session) packets := by
  constructor
  · rintro ⟨hinc, -, -⟩
    induction packets using List.reverseRecOn with
    | nil => trivial
    | append_singleton ps p ih =>
      have hsnoc : (new session).feed (ps ++ [p]) = ((new session).feed ps).step p :=
        Runs.run_snoc _ _ _
      rw [hsnoc] at hinc
      have hps := ih (hinc.sublist (sequences_sublist_step _ p))
      exact Runs.along_append.mpr ⟨hps, fun hw => hw.not_increasing hinc, trivial⟩
  · intro h
    refine ⟨(safe_feed h).increasing, ?_, ?_⟩
    · rintro pre p post rfl
      have hpre := Runs.along_append.mp h
      have hsnoc : (new session).feed (pre ++ [p]) = ((new session).feed pre).step p :=
        Runs.run_snoc _ _ _
      rw [hsnoc]
      exact ((safe_feed hpre.1).step p hpre.2.1).2
    · rintro pre post rfl
      exact (safe_feed (Runs.along_append.mp h).1).account

/-- A packet of three empty messages that starts at the last sequence number. -/
def wrappingPacket : Bytes :=
  List.replicate 10 0 ++ List.replicate 8 255 ++ [0, 3] ++ List.replicate 6 0

theorem not_safeRun_wrappingPacket : ¬ SafeRun [] [wrappingPacket] := by
  rintro ⟨hinc, -, -⟩
  revert hinc
  decide +kernel

/-! ## Malformed datagrams -/

/-- The datagram is too short for a header, or its header announces no jump. -/
def NoJump (r : MoldReceiver) (p : Bytes) : Prop :=
  p.length < kMoldHeaderLen ∨ packetSeq p ≤ r.nextExpected

instance (r : MoldReceiver) (p : Bytes) : Decidable (r.NoJump p) := by
  unfold NoJump; infer_instance

/-- A malformed datagram is short, or its blocks overrun after the jump was acted upon. -/
theorem malformed_cases (h : (r.receive p).1 = .malformed) :
    (p.length < kMoldHeaderLen ∧ Same r (r.step p)) ∨
    (kMoldHeaderLen ≤ p.length ∧ Same (r.jump (packetSeq p)) (r.step p)) := by
  by_cases ha : r.Accepts p
  · refine .inr ⟨ha.1, ?_⟩
    by_cases he : packetCount p = kMoldEndOfSession
    · rw [(receive_eos ha he).1] at h; cases h
    by_cases h0 : packetCount p = 0
    · rw [(receive_heartbeat ha h0).1] at h; cases h
    have hc : CarriesMessages p := ⟨he, h0⟩
    by_cases hd : (packetSeq p + packetCount p) % 2 ^ 64 ≤ r.nextExpected
    · rw [(receive_duplicate ha hc hd).1] at h; cases h
    have hd' := Nat.lt_of_not_le hd
    cases hw : walkBlocks p (packetCount p) kMoldHeaderLen with
    | none => exact (receive_overrun ha hc hd' hw).2
    | some bs =>
      rw [(receive_deliver ha hc hd' hw).1] at h
      split at h <;> cases h
  · obtain ⟨hs, hiff⟩ := receive_reject ha
    exact .inl ⟨hiff.mp h, hs⟩

/-- A malformed datagram goes unseen exactly when its header announces no jump. -/
theorem same_step_iff (h : (r.receive p).1 = .malformed) : Same r (r.step p) ↔ r.NoJump p := by
  rcases malformed_cases h with ⟨hlen, hs⟩ | ⟨hlen, hs⟩
  · exact iff_of_true hs (.inl hlen)
  · by_cases hgt : packetSeq p > r.nextExpected
    · refine iff_of_false (fun hsame => ?_) fun hn => ?_
      · have hj : r.jump (packetSeq p) = r.noteGap (packetSeq p) := if_pos hgt
        have h1 := hs.gaps
        have h2 := hsame.gaps
        rw [hj] at h1
        change _ = r.stats.gaps + 1 at h1
        omega
      · rcases hn with hn | hn <;> omega
    · have hj : r.jump (packetSeq p) = r := if_neg hgt
      rw [hj] at hs
      exact iff_of_true hs (.inr (Nat.le_of_not_lt hgt))

theorem Same.accepts (h : Same r r') : r'.Accepts p ↔ r.Accepts p := by
  unfold Accepts
  rw [h.hasSessionFilter, h.expectSession]

/-- Receivers that cannot be told apart stay so under the same packet. -/
theorem Same.step (h : Same r r') (p : Bytes) : Same (r.step p) (r'.step p) := by
  by_cases ha : r.Accepts p
  · have ha' : r'.Accepts p := h.accepts.mpr ha
    by_cases he : packetCount p = kMoldEndOfSession
    · exact (receive_eos ha he).2.1.symm.trans (h.trans (receive_eos ha' he).2.1)
    by_cases h0 : packetCount p = 0
    · exact (receive_heartbeat ha h0).2.symm.trans
        ((h.jump _).trans (receive_heartbeat ha' h0).2)
    have hc : CarriesMessages p := ⟨he, h0⟩
    by_cases hd : (packetSeq p + packetCount p) % 2 ^ 64 ≤ r.nextExpected
    · have hd' : (packetSeq p + packetCount p) % 2 ^ 64 ≤ r'.nextExpected := h.nextExpected ▸ hd
      exact (receive_duplicate ha hc hd).2.symm.trans (h.trans (receive_duplicate ha' hc hd').2)
    have hlt := Nat.lt_of_not_le hd
    have hlt' : r'.nextExpected < (packetSeq p + packetCount p) % 2 ^ 64 := h.nextExpected ▸ hlt
    cases hw : walkBlocks p (packetCount p) kMoldHeaderLen with
    | none =>
      exact (receive_overrun ha hc hlt hw).2.symm.trans
        ((h.jump _).trans (receive_overrun ha' hc hlt' hw).2)
    | some bs =>
      exact (receive_deliver ha hc hlt hw).2.symm.trans
        (((h.jump _).deliver p _ 0 bs).trans (receive_deliver ha' hc hlt' hw).2)
  · have ha' : ¬ r'.Accepts p := fun hc => ha (h.accepts.mp hc)
    exact (receive_reject ha).1.symm.trans (h.trans (receive_reject ha').1)

/-- `Inserted r base all`: the packets `all`, given to `r`, are `base` with datagrams inserted that the
receiver finds malformed and that announce no jump when they arrive. -/
inductive Inserted : MoldReceiver → List Bytes → List Bytes → Prop
  | nil (r : MoldReceiver) : Inserted r [] []
  | keep {r : MoldReceiver} {p : Bytes} {base all : List Bytes} :
    Inserted (r.step p) base all → Inserted r (p :: base) (p :: all)
  | insert {r : MoldReceiver} {p : Bytes} {base all : List Bytes} :
    (r.receive p).1 = .malformed → r.NoJump p → Inserted (r.step p) base all →
    Inserted r base (p :: all)

theorem Inserted.same {base all : List Bytes} (hi : Inserted r base all) :
    ∀ {r' : MoldReceiver}, Same r' r → Same (r'.feed base) (r.feed all) := by
  induction hi with
  | nil r => exact fun h => h
  | keep _ ih => exact fun h => ih (h.step _)
  | insert hm hn _ ih => exact fun h => ih (h.trans ((same_step_iff hm).mpr hn))

/-- **Malformed datagrams.** In every reachable state a malformed datagram leaves the receiver as it was
exactly when its header announces no jump, and inserting such datagrams changes nothing later. -/
theorem malformed_unseen_iff (session : Bytes) :
    (∀ (packets : List Bytes) (p : Bytes),
      (((new session).feed packets).receive p).1 = .malformed →
        (Same ((new session).feed packets) (((new session).feed packets).step p) ↔
          ((new session).feed packets).NoJump p)) ∧
    ∀ base all, Inserted (new session) base all →
      Same ((new session).feed base) ((new session).feed all) :=
  ⟨fun _ _ h => same_step_iff h, fun _ _ h => h.same (Same.refl _)⟩

/-- A header for sequence 5 that announces one message, and no block. -/
def truncatedAhead : Bytes := List.replicate 10 0 ++ List.replicate 7 0 ++ [5, 0, 1]

/-- A whole packet with message `seq`. -/
def wholePacket (seq : UInt8) : Bytes := List.replicate 10 0 ++ List.replicate 7 0 ++ [seq, 0, 1, 0, 1, 83]

/-- A packet for message 2 that was cut within its block. -/
def truncatedNext : Bytes := (wholePacket 2).take 21

/-- The cut packet comes between the two whole ones, and a datagram without a header behind them. -/
theorem malformed_unseen_between :
    (((new []).feed [wholePacket 1]).receive truncatedNext).1 = .malformed ∧
      Same ((new []).feed [wholePacket 1]) (((new []).feed [wholePacket 1]).step truncatedNext) ∧
      Same ((new []).feed [wholePacket 1, wholePacket 2])
        ((new []).feed [wholePacket 1, truncatedNext, wholePacket 2, [0, 0, 0, 0]]) ∧
      ((new []).feed [wholePacket 1, truncatedNext, wholePacket 2, [0, 0, 0, 0]]).sequences = [1, 2] := by
  have hm : (((new []).feed [wholePacket 1]).receive truncatedNext).1 = .malformed := by decide +kernel
  have hn : ((new []).feed [wholePacket 1]).NoJump truncatedNext := .inr (by decide +kernel)
  have hlast : ∀ r : MoldReceiver, r.NoJump [0, 0, 0, 0] := fun r => .inl (by decide)
  refine ⟨hm, ((malformed_unseen_iff []).1 [wholePacket 1] _ hm).mpr hn,
    (malformed_unseen_iff []).2 [wholePacket 1, wholePacket 2] _ ?_, by decide +kernel⟩
  apply Inserted.keep
  apply Inserted.insert hm hn
  apply Inserted.keep
  exact .insert (by decide +kernel) (hlast _) (.nil _)

theorem truncatedAhead_seen :
    ((new []).receive truncatedAhead).1 = .malformed ∧
      ¬ Same (new []) ((new []).step truncatedAhead) ∧
      ((new []).feed [wholePacket 1]).sequences = [1] ∧
      ((new []).feed [truncatedAhead, wholePacket 1]).sequences = [] := by
  refine ⟨by decide +kernel, fun h => ?_, by decide +kernel, by decide +kernel⟩
  have h5 : ((new []).step truncatedAhead).nextExpected = 5 := by decide +kernel
  rw [h.nextExpected] at h5
  exact absurd h5 (by decide)

end MoldReceiver

end Carteret
