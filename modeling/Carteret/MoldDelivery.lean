import Carteret.MoldSafety
import Carteret.MoldSession

/-!
# Delivery of a session

1. `Tracks` relates a receiver to the messages of its session: what was handed over is right, and `stale`
   is false exactly while nothing below the expected sequence is missing.
2. A packet of the session offers a run of messages (`Sent.offers`), and an offer keeps `Tracks`.
3. `delivery_safe`: two lines with any packet sizes, any loss, duplication and reordering.
4. `endOfSession_caught_iff`: when a session that ends early is noticed.
-/

namespace Carteret

namespace MoldReceiver

variable {r r' : MoldReceiver} {ms : List Bytes}

/-! ## The receiver on a session -/

/-- The stale flag passed with a message is false iff everything before it was already handed over. -/
def FlagsRight (calls : List MoldCall) : Prop :=
  ∀ pre b k stale post, calls = pre ++ .onMoldMessage b k stale :: post →
    (stale = false ↔ ∀ j, 1 ≤ j → j < k → j ∈ pre.filterMap MoldCall.seq?)

/-- A message is handed over with its own number. -/
def PayloadsRight (ms : List Bytes) (calls : List MoldCall) : Prop :=
  ∀ b k stale, .onMoldMessage b k stale ∈ calls → 1 ≤ k ∧ ms[k - 1]? = some b

structure Tracks (ms : List Bytes) (r : MoldReceiver) : Prop extends Safe r where
  payloads : PayloadsRight ms r.calls
  flags : FlagsRight r.calls
  next_le : r.nextExpected ≤ ms.length + 1
  /-- While the receiver is not stale it has handed over everything below the expected sequence. -/
  fresh : r.stats.stale = false →
    r.sequences = List.range' 1 (r.nextExpected - 1) ∧ r.stats.gaps = 0 ∧ r.stats.messagesLost = 0
  /-- Once it is stale, something below is missing. -/
  missing : r.stats.stale = true → ∃ k, 1 ≤ k ∧ k < r.nextExpected ∧ k ∉ r.sequences

theorem Tracks.next_pos (h : Tracks ms r) : 1 ≤ r.nextExpected := by
  have := h.account; omega

theorem Tracks.new (ms : List Bytes) (filter : Bytes) : Tracks ms (new filter) where
  toSafe := Safe.new filter
  payloads := by intro b k stale h; cases h
  flags := by
    intro pre b k stale post h
    have := congrArg List.length h
    simp [MoldReceiver.new] at this
  next_le := by simp [MoldReceiver.new]
  fresh := fun _ => ⟨rfl, rfl, rfl⟩
  missing := fun h => by cases h

theorem Tracks.same (h : Tracks ms r) (hs : Same r r') : Tracks ms r' where
  toSafe := h.toSafe.same hs
  payloads := by rw [hs.calls]; exact h.payloads
  flags := by rw [hs.calls]; exact h.flags
  next_le := by rw [hs.nextExpected]; exact h.next_le
  fresh := by
    rw [hs.stale, hs.sequences, hs.nextExpected, hs.gaps, hs.messagesLost]; exact h.fresh
  missing := by rw [hs.stale, hs.sequences, hs.nextExpected]; exact h.missing

/-- The stale flag says exactly whether a message below the expected sequence is missing. -/
theorem Tracks.stale_iff (h : Tracks ms r) :
    r.stats.stale = false ↔ ∀ j, 1 ≤ j → j < r.nextExpected → j ∈ r.sequences := by
  constructor
  · intro hs j h1 hlt
    rw [(h.fresh hs).1, List.mem_range'_1]
    omega
  · intro hall
    by_contra hs
    obtain ⟨k, h1, hlt, hk⟩ := h.missing (by simpa using hs)
    exact hk (hall k h1 hlt)

theorem flagsRight_snoc {calls : List MoldCall} {c : MoldCall} (h : FlagsRight calls)
    (hc : ∀ b k stale, c = .onMoldMessage b k stale →
      (stale = false ↔ ∀ j, 1 ≤ j → j < k → j ∈ calls.filterMap MoldCall.seq?)) :
    FlagsRight (calls ++ [c]) := by
  intro pre b k stale post heq
  rcases List.eq_nil_or_concat post with rfl | ⟨post', x, rfl⟩
  · obtain ⟨rfl, hlast⟩ := List.append_inj' heq rfl
    exact hc b k stale (by simpa using hlast)
  · rw [List.concat_eq_append, ← List.cons_append, ← List.append_assoc] at heq
    exact h pre b k stale post' (List.append_inj' heq rfl).1

theorem Tracks.noteGap (h : Tracks ms r) {seq : ℕ} (hgt : r.nextExpected < seq)
    (hle : seq ≤ ms.length + 1) (hroom : ms.length + 1 < 2 ^ 64) : Tracks ms (r.noteGap seq) where
  toSafe := h.toSafe.noteGap hgt (by omega)
  payloads := by
    intro b k stale hmem
    rcases List.mem_append.mp hmem with hmem | hmem
    · exact h.payloads b k stale hmem
    · simp at hmem
  flags := flagsRight_snoc h.flags fun b k stale hc => by cases hc
  next_le := hle
  fresh := fun hs => by cases hs
  missing := fun _ => by
    refine ⟨r.nextExpected, h.next_pos, hgt, fun hmem => ?_⟩
    rw [sequences_noteGap] at hmem
    exact absurd (h.below _ hmem) (lt_irrefl _)

theorem Tracks.jump (h : Tracks ms r) {seq : ℕ} (hle : seq ≤ ms.length + 1)
    (hroom : ms.length + 1 < 2 ^ 64) : Tracks ms (r.jump seq) := by
  unfold MoldReceiver.jump
  split
  · rename_i hgt; exact h.noteGap hgt hle hroom
  · exact h

theorem Safe.handOver (h : Safe r) (b : Bytes) (hroom : r.nextExpected + [b].length < 2 ^ 64) :
    Safe (r.handOver b r.nextExpected) :=
  h.pushAll hroom

theorem Tracks.handOver (h : Tracks ms r) {b : Bytes} (hb : ms[r.nextExpected - 1]? = some b)
    (hroom : ms.length + 1 < 2 ^ 64) : Tracks ms (r.handOver b r.nextExpected) := by
  have hpos := h.next_pos
  obtain ⟨hlt, -⟩ := List.getElem?_eq_some_iff.mp hb
  have hnext : (r.handOver b r.nextExpected).nextExpected = r.nextExpected + 1 :=
    Nat.mod_eq_of_lt (by omega)
  have hstale : (r.handOver b r.nextExpected).stats.stale = r.stats.stale := rfl
  refine ⟨h.toSafe.handOver b (by rw [List.length_singleton]; omega), ?_, ?_, by omega, ?_, ?_⟩
  · intro b' k stale hmem
    rcases List.mem_append.mp hmem with hmem | hmem
    · exact h.payloads b' k stale hmem
    · obtain ⟨rfl, rfl, -⟩ : b' = b ∧ k = r.nextExpected ∧ stale = r.stats.stale := by
        simpa using hmem
      exact ⟨hpos, hb⟩
  · refine flagsRight_snoc h.flags fun b' k stale hc => ?_
    obtain ⟨-, rfl, rfl⟩ : b = b' ∧ r.nextExpected = k ∧ r.stats.stale = stale := by
      simpa using hc
    exact h.stale_iff
  · intro hs
    obtain ⟨hseqs, hrest⟩ := h.fresh hs
    refine ⟨?_, hrest⟩
    rw [sequences_handOver, hseqs, hnext,
      show r.nextExpected + 1 - 1 = r.nextExpected - 1 + 1 by omega, List.range'_1_concat,
      show 1 + (r.nextExpected - 1) = r.nextExpected by omega]
  · intro hs
    obtain ⟨k, h1, hk, hnot⟩ := h.missing hs
    refine ⟨k, h1, by omega, fun hmem => ?_⟩
    rw [sequences_handOver] at hmem
    rcases List.mem_append.mp hmem with hmem | hmem
    · exact hnot hmem
    · rw [List.mem_singleton.mp hmem] at hk; omega

/-- Handing over the next messages of the session, in order. -/
theorem Tracks.pushAll (hroom : ms.length + 1 < 2 ^ 64) (bs : List Bytes) :
    ∀ {r : MoldReceiver}, Tracks ms r → bs <+: ms.drop (r.nextExpected - 1) →
      Tracks ms (pushAll bs r) := by
  induction bs with
  | nil => exact fun h _ => h
  | cons b bs ih =>
    intro r h hpre
    obtain ⟨rest, hrest⟩ := hpre
    have hpos := h.next_pos
    have hb : ms[r.nextExpected - 1]? = some b := by
      have := congrArg (fun l => l[0]?) hrest
      simpa using this.symm
    have hlt := (List.getElem?_eq_some_iff.mp hb).1
    refine ih (h.handOver hb hroom) ⟨rest, ?_⟩
    have hnext : (r.handOver b r.nextExpected).nextExpected = r.nextExpected + 1 :=
      Nat.mod_eq_of_lt (by omega)
    have := congrArg (List.drop 1) hrest
    rw [hnext, show r.nextExpected + 1 - 1 = r.nextExpected - 1 + 1 by omega, ← List.drop_drop]
    simpa using this

/-! ## What a packet of the session does -/

/-- The packet carries message `k`. -/
def Holds (p : Bytes) (k : ℕ) : Prop :=
  CarriesMessages p ∧ packetSeq p ≤ k ∧ k < packetSeq p + packetCount p

theorem nextExpected_jump (r : MoldReceiver) (seq : ℕ) :
    (r.jump seq).nextExpected = max r.nextExpected seq := by
  unfold jump
  split
  · rename_i hgt; exact (max_eq_right hgt.le).symm
  · rename_i hle; exact (max_eq_left (Nat.le_of_not_lt hle)).symm

theorem sequences_jump (r : MoldReceiver) (seq : ℕ) : (r.jump seq).sequences = r.sequences := by
  unfold jump
  split
  · exact sequences_noteGap r seq
  · rfl

section Offer

variable {seq : ℕ} {g : List Bytes} (hroom : ms.length + 1 < 2 ^ 64)

include hroom

theorem offer_fits (h : Tracks ms r) (hle : seq ≤ ms.length + 1) (hg : g <+: ms.drop (seq - 1))
    (h1 : 1 ≤ seq) :
    (r.jump seq).nextExpected + (g.drop ((r.jump seq).nextExpected - seq)).length < 2 ^ 64 ∧
      seq + g.length ≤ ms.length + 1 := by
  have hlen := hg.length_le
  have hnext := (h.jump hle hroom).next_le
  rw [List.length_drop] at hlen ⊢
  omega

theorem Tracks.offer (h : Tracks ms r) (h1 : 1 ≤ seq) (hle : seq ≤ ms.length + 1)
    (hg : g <+: ms.drop (seq - 1)) : Tracks ms (r.offer seq g) := by
  have hj := h.jump hle hroom
  refine Tracks.pushAll hroom _ hj ?_
  have hge : seq ≤ (r.jump seq).nextExpected := by rw [nextExpected_jump]; exact le_max_right _ _
  have hdrop := hg.drop ((r.jump seq).nextExpected - seq)
  rwa [List.drop_drop,
    show seq - 1 + ((r.jump seq).nextExpected - seq) = (r.jump seq).nextExpected - 1 by omega]
    at hdrop

/-- After an offer the receiver expects what follows it, if it did not before. -/
theorem nextExpected_offer (h : Tracks ms r) (h1 : 1 ≤ seq) (hle : seq ≤ ms.length + 1)
    (hg : g <+: ms.drop (seq - 1)) :
    (r.offer seq g).nextExpected = max r.nextExpected (seq + g.length) := by
  have hfits := (offer_fits hroom h hle hg h1).1
  unfold MoldReceiver.offer
  rw [(pushAll_spec _ _ hfits).1, List.length_drop, nextExpected_jump]
  omega

/-- An offer hands over each of its messages that is not below the expected sequence. -/
theorem mem_sequences_offer (h : Tracks ms r) (h1 : 1 ≤ seq) (hle : seq ≤ ms.length + 1)
    (hg : g <+: ms.drop (seq - 1)) {k : ℕ} :
    k ∈ (r.offer seq g).sequences ↔
      k ∈ r.sequences ∨ (r.nextExpected ≤ k ∧ seq ≤ k ∧ k < seq + g.length) := by
  have hfits := (offer_fits hroom h hle hg h1).1
  unfold MoldReceiver.offer
  rw [sequences_pushAll hfits, List.mem_append, sequences_jump, List.mem_range'_1,
    List.length_drop, nextExpected_jump]
  refine or_congr_right ?_
  omega

end Offer

section Session

variable {session p : Bytes} (hs : session.length = kMoldSessionLen)
  (hlen : ∀ m ∈ ms, m.length < 2 ^ 16) (hroom : ms.length + 1 < 2 ^ 64)

include hs hlen hroom

/-- A packet of the session closes it, or offers a run of its messages (none, in a heartbeat). -/
theorem Sent.offers (hp : Sent session ms p) (hf : r.Follows session) :
    (packetCount p = kMoldEndOfSession ∧ Same r (r.step p)) ∨
    (packetCount p ≠ kMoldEndOfSession ∧ ∃ g, 1 ≤ packetSeq p ∧ packetSeq p ≤ ms.length + 1 ∧
      g <+: ms.drop (packetSeq p - 1) ∧ g.length = packetCount p ∧
      Same (r.offer (packetSeq p) g) (r.step p)) := by
  cases hp with
  | data k n hpos hlt hle =>
    have hn : ((ms.drop k).take n).length = n := by
      rw [List.length_take, List.length_drop]; omega
    have hend : kMoldEndOfSession = 65535 := rfl
    have hh := header_dataPacket (k := k) hs hlt hle hroom
    refine .inr ⟨by rw [hh.packetCount_eq]; omega, (ms.drop k).take n, ?_⟩
    rw [hh.packetSeq_eq, hh.packetCount_eq, Nat.add_sub_cancel]
    exact ⟨by omega, by omega, List.take_prefix n _, hn,
      (step_data hf hs (by omega) (by omega) (by omega)
        fun m hm => hlen m (List.mem_of_mem_drop (List.mem_of_mem_take hm))).1⟩
  | heartbeat hh h1 hle =>
    refine .inr ⟨by rw [hh.packetCount_eq]; decide, [], ?_⟩
    rw [hh.packetSeq_eq, hh.packetCount_eq, offer_nil]
    exact ⟨h1, hle, List.nil_prefix, rfl, step_heartbeat hf hh⟩
  | endOfSession =>
    have hh := header_eosBytes hs hroom
    exact .inl ⟨hh.packetCount_eq, (step_eos hf hs hroom).1⟩

/-- What one packet of the session preserves and achieves. -/
theorem Tracks.sent (h : Tracks ms r) (hf : r.Follows session) (hp : Sent session ms p) :
    (r.step p).Follows session ∧ Tracks ms (r.step p) ∧
      r.nextExpected ≤ (r.step p).nextExpected ∧
      (∀ k, Holds p k → k < (r.step p).nextExpected) ∧
      ∀ k, k ∈ (r.step p).sequences ↔ k ∈ r.sequences ∨ (r.nextExpected ≤ k ∧ Holds p k) := by
  rcases Sent.offers hs hlen hroom hp hf with ⟨hend, hsame⟩ | ⟨hne, g, h1, hle, hg, hcount, hsame⟩
  · have hnone : ∀ k, ¬ Holds p k := fun k hk => hk.1.1 hend
    refine ⟨hf.same hsame, h.same hsame, hsame.nextExpected.ge, fun k hk => absurd hk (hnone k),
      fun k => ?_⟩
    rw [hsame.sequences]
    simp [hnone]
  · have hholds : ∀ k, Holds p k ↔ packetSeq p ≤ k ∧ k < packetSeq p + g.length := by
      intro k
      unfold Holds CarriesMessages
      rw [hcount]
      refine ⟨fun hk => hk.2, fun hk => ⟨⟨hne, by omega⟩, hk⟩⟩
    have hnext := nextExpected_offer hroom h h1 hle hg
    refine ⟨?_, (h.offer hroom h1 hle hg).same hsame, ?_, fun k hk => ?_, fun k => ?_⟩
    · refine Follows.same (fun hfil => ?_) hsame
      obtain ⟨-, -, -, -, h5, h6⟩ := pushAll_spec (g.drop ((r.jump (packetSeq p)).nextExpected -
        packetSeq p)) (r.jump (packetSeq p)) (offer_fits hroom h hle hg h1).1
      have hj : (r.jump (packetSeq p)).expectSession = r.expectSession ∧
          (r.jump (packetSeq p)).hasSessionFilter = r.hasSessionFilter := by
        unfold MoldReceiver.jump; split <;> exact ⟨rfl, rfl⟩
      exact h5.trans (hj.1.trans (hf (hj.2 ▸ h6 ▸ hfil)))
    · rw [hsame.nextExpected, hnext]; exact le_max_left _ _
    · rw [hsame.nextExpected, hnext]
      exact lt_max_of_lt_right ((hholds k).mp hk).2
    · rw [hsame.sequences, mem_sequences_offer hroom h h1 hle hg, hholds]

/-- A packet other than the closing one makes the receiver stale when it is ahead of it. -/
theorem Tracks.stale_sent (h : Tracks ms r) (hf : r.Follows session) (hp : Sent session ms p) :
    (r.step p).stats.stale = true ↔ r.stats.stale = true ∨
      (packetCount p ≠ kMoldEndOfSession ∧ r.nextExpected < packetSeq p) := by
  rcases Sent.offers hs hlen hroom hp hf with ⟨hend, hsame⟩ | ⟨hne, g, h1, hle, hg, -, hsame⟩
  · rw [hsame.stale]
    simp [hend]
  · have hstale : (r.offer (packetSeq p) g).stats.stale = (r.jump (packetSeq p)).stats.stale := by
      unfold MoldReceiver.offer
      rw [(pushAll_spec _ _ (offer_fits hroom h hle hg h1).1).2.2.2.1]
    rw [hsame.stale, hstale]
    unfold MoldReceiver.jump
    split
    · rename_i hgt
      exact iff_of_true rfl (.inr ⟨hne, hgt⟩)
    · rename_i hle
      exact ⟨.inl, fun hor => hor.resolve_right fun hc => hle hc.2⟩

end Session

/-! ## Any schedule of two lines -/

section Runs

variable {session filter : Bytes} {packets : List Bytes} (hs : session.length = kMoldSessionLen)
  (hlen : ∀ m ∈ ms, m.length < 2 ^ 16) (hroom : ms.length + 1 < 2 ^ 64)

include hs hlen hroom

theorem tracks_feed (hf : (new filter).Follows session) (hsent : ∀ p ∈ packets, Sent session ms p) :
    ((new filter).feed packets).Follows session ∧ Tracks ms ((new filter).feed packets) := by
  induction packets using List.reverseRecOn with
  | nil => exact ⟨hf, Tracks.new ms filter⟩
  | append_singleton ps p ih =>
    obtain ⟨hf', ht⟩ := ih fun q hq => hsent q (by simp [hq])
    have hstep := ht.sent hs hlen hroom hf' (hsent p (by simp))
    have hsnoc : (new filter).feed (ps ++ [p]) = ((new filter).feed ps).step p := Runs.run_snoc _ _ _
    rw [hsnoc]
    exact ⟨hstep.1, hstep.2.1⟩

/-- The step of the run at a split of the packets. -/
theorem sent_at (hf : (new filter).Follows session) (hsent : ∀ p ∈ packets, Sent session ms p)
    {pre post : List Bytes} {p : Bytes} (hsplit : packets = pre ++ p :: post) :
    Tracks ms ((new filter).feed pre) ∧
      ((new filter).feed pre).nextExpected ≤ ((new filter).feed (pre ++ [p])).nextExpected ∧
      (∀ k, Holds p k → k < ((new filter).feed (pre ++ [p])).nextExpected) ∧
      ∀ k, k ∈ ((new filter).feed (pre ++ [p])).sequences ↔
        k ∈ ((new filter).feed pre).sequences ∨
          (((new filter).feed pre).nextExpected ≤ k ∧ Holds p k) := by
  have hpre : ∀ q ∈ pre, Sent session ms q := fun q hq => hsent q (by simp [hsplit, hq])
  obtain ⟨hf', ht⟩ := tracks_feed hs hlen hroom hf hpre
  obtain ⟨-, -, h1, h2, h3⟩ := ht.sent hs hlen hroom hf' (hsent p (by simp [hsplit]))
  have hsnoc : (new filter).feed (pre ++ [p]) = ((new filter).feed pre).step p := Runs.run_snoc _ _ _
  rw [hsnoc]
  exact ⟨ht, h1, h2, h3⟩

/-- The expected sequence never goes back along the session. -/
theorem nextExpected_mono (hf : (new filter).Follows session)
    (hsent : ∀ p ∈ packets, Sent session ms p) {pre : List Bytes} (hpre : pre <+: packets) :
    ((new filter).feed pre).nextExpected ≤ ((new filter).feed packets).nextExpected := by
  induction packets using List.reverseRecOn with
  | nil => rw [List.prefix_nil.mp hpre]
  | append_singleton ps p ih =>
    rcases List.prefix_concat_iff.mp hpre with rfl | hpre
    · exact le_rfl
    · exact (ih (fun q hq => hsent q (by simp [hq])) hpre).trans
        (sent_at hs hlen hroom hf hsent rfl).2.1

/-- What an earlier packet held is below the expected sequence. -/
theorem lt_nextExpected_of_holds (hf : (new filter).Follows session)
    (hsent : ∀ p ∈ packets, Sent session ms p) {p : Bytes} (hp : p ∈ packets) {k : ℕ}
    (hk : Holds p k) : k < ((new filter).feed packets).nextExpected := by
  obtain ⟨pre, post, hsplit⟩ := List.append_of_mem hp
  have hpre : pre ++ [p] <+: packets := ⟨post, by rw [hsplit]; simp⟩
  have hmono := nextExpected_mono hs hlen hroom hf hsent hpre
  exact lt_of_lt_of_le ((sent_at hs hlen hroom hf hsent hsplit).2.2.1 k hk) hmono

/-- Whatever was handed over was held by a packet. -/
theorem exists_holds_of_mem (hf : (new filter).Follows session)
    (hsent : ∀ p ∈ packets, Sent session ms p) {k : ℕ}
    (hk : k ∈ ((new filter).feed packets).sequences) : ∃ p ∈ packets, Holds p k := by
  induction packets using List.reverseRecOn with
  | nil => simp [feed, sequences, new] at hk
  | append_singleton ps p ih =>
    rcases ((sent_at hs hlen hroom hf hsent rfl).2.2.2 k).mp hk with hk | ⟨-, hk⟩
    · obtain ⟨q, hq, hqk⟩ := ih (fun q hq => hsent q (by simp [hq])) hk
      exact ⟨q, by simp [hq], hqk⟩
    · exact ⟨p, by simp, hk⟩

/-- The receiver is stale exactly when some packet was ahead of it on arrival. -/
theorem stale_feed_iff (hf : (new filter).Follows session)
    (hsent : ∀ p ∈ packets, Sent session ms p) :
    ((new filter).feed packets).stats.stale = true ↔
      ∃ pre p post, packets = pre ++ p :: post ∧ packetCount p ≠ kMoldEndOfSession ∧
        ((new filter).feed pre).nextExpected < packetSeq p := by
  induction packets using List.reverseRecOn with
  | nil => simp [feed, new]
  | append_singleton ps p ih =>
    have hps : ∀ q ∈ ps, Sent session ms q := fun q hq => hsent q (by simp [hq])
    obtain ⟨hf', ht⟩ := tracks_feed hs hlen hroom hf hps
    have hsnoc : (new filter).feed (ps ++ [p]) = ((new filter).feed ps).step p := Runs.run_snoc _ _ _
    rw [hsnoc, ht.stale_sent hs hlen hroom hf' (hsent p (by simp)), ih hps]
    constructor
    · rintro (⟨pre, q, post, rfl, hq⟩ | hp)
      · exact ⟨pre, q, post ++ [p], by simp, hq⟩
      · exact ⟨ps, p, [], rfl, hp⟩
    · rintro ⟨pre, q, post, heq, hq⟩
      rcases List.eq_nil_or_concat post with rfl | ⟨post', x, rfl⟩
      · obtain ⟨rfl, hlast⟩ := List.append_inj' heq rfl
        obtain rfl : p = q := by simpa using hlast
        exact .inr hq
      · rw [List.concat_eq_append, ← List.cons_append, ← List.append_assoc] at heq
        exact .inl ⟨pre, q, post', (List.append_inj' heq rfl).1, hq⟩

/-- Each message is held by a packet that comes before anything beyond the message. -/
def InTime (n : ℕ) (packets : List Bytes) : Prop :=
  ∀ k, 1 ≤ k → k ≤ n → ∃ pre p post, packets = pre ++ p :: post ∧ Holds p k ∧
    ∀ q ∈ pre, packetCount q = kMoldEndOfSession ∨ packetSeq q ≤ k

theorem fresh_of_inTime (hf : (new filter).Follows session)
    (hsent : ∀ p ∈ packets, Sent session ms p) (hin : InTime ms.length packets) :
    ((new filter).feed packets).stats.stale = false := by
  by_contra hstale
  obtain ⟨pre, p, post, hsplit, hne, hahead⟩ :=
    (stale_feed_iff hs hlen hroom hf hsent).mp (by simpa using hstale)
  have hsub : ∀ q ∈ pre, Sent session ms q := fun q hq => hsent q (by simp [hsplit, hq])
  obtain ⟨hf', ht⟩ := tracks_feed hs hlen hroom hf hsub
  have hle : packetSeq p ≤ ms.length + 1 := by
    rcases Sent.offers hs hlen hroom (hsent p (by simp [hsplit])) hf' with h | ⟨-, -, -, h, -⟩
    · exact absurd h.1 hne
    · exact h
  -- the message the receiver waits for came in time, so it came before `p`
  obtain ⟨pre', p', post', hsplit', hholds, hbefore⟩ :=
    hin ((new filter).feed pre).nextExpected ht.next_pos (by omega)
  rcases List.append_eq_append_iff.mp (hsplit.symm.trans hsplit') with
    ⟨as, rfl, has⟩ | ⟨as, rfl, has⟩
  · cases as with
    | nil =>
      obtain ⟨rfl, -⟩ : p = p' ∧ _ := by simpa using has
      exact absurd hholds.2.1 (Nat.not_le.mpr hahead)
    | cons a as =>
      obtain ⟨rfl, -⟩ : p = a ∧ _ := by simpa using has
      rcases hbefore p (by simp) with h | h
      · exact hne h
      · exact absurd h (Nat.not_le.mpr hahead)
  · cases as with
    | nil =>
      obtain ⟨rfl, -⟩ : p' = p ∧ _ := by simpa using has
      rw [List.append_nil] at hahead hholds
      exact absurd hholds.2.1 (Nat.not_le.mpr hahead)
    | cons a as =>
      obtain ⟨rfl, -⟩ : p' = a ∧ _ := by simpa using has
      exact absurd (lt_nextExpected_of_holds hs hlen hroom hf hsub (by simp) hholds)
        (lt_irrefl _)

theorem complete_of_inTime (hf : (new filter).Follows session)
    (hsent : ∀ p ∈ packets, Sent session ms p) (hin : InTime ms.length packets) :
    ((new filter).feed packets).sequences = List.range' 1 ms.length ∧
      ((new filter).feed packets).stats.gaps = 0 ∧
      ((new filter).feed packets).stats.stale = false := by
  have hstale := fresh_of_inTime hs hlen hroom hf hsent hin
  have ht := (tracks_feed hs hlen hroom hf hsent).2
  obtain ⟨hseqs, hgaps, -⟩ := ht.fresh hstale
  have hend : ((new filter).feed packets).nextExpected = ms.length + 1 := by
    refine Nat.le_antisymm ht.next_le ?_
    rcases Nat.eq_zero_or_pos ms.length with h0 | hpos
    · rw [h0]; exact ht.next_pos
    · obtain ⟨pre, p, post, hsplit, hholds, -⟩ := hin ms.length hpos le_rfl
      exact lt_nextExpected_of_holds hs hlen hroom hf hsent (by simp [hsplit]) hholds
  rw [hend, Nat.add_sub_cancel] at hseqs
  exact ⟨hseqs, hgaps, hstale⟩

/-- The end of the session leaves a short delivery unnoticed unless the last message came, or a packet
came ahead of a message that no earlier packet held. -/
def Caught (n : ℕ) (packets : List Bytes) : Prop :=
  n = 0 ∨ (∃ p ∈ packets, Holds p n) ∨
    ∃ pre p post, packets = pre ++ p :: post ∧ CarriesMessages p ∧
      ∃ k, 1 ≤ k ∧ k < packetSeq p ∧ ∀ q ∈ pre, ¬ Holds q k

theorem complete_or_stale_iff (hf : (new filter).Follows session)
    (hsent : ∀ p ∈ packets, Sent session ms p)
    (hdata : ∀ p ∈ packets, packetCount p ≠ kMoldEndOfSession → CarriesMessages p) :
    ((∀ k, 1 ≤ k → k ≤ ms.length → k ∈ ((new filter).feed packets).sequences) ∨
      ((new filter).feed packets).stats.stale = true) ↔ Caught ms.length packets := by
  have ht := (tracks_feed hs hlen hroom hf hsent).2
  constructor
  · rintro (hall | hstale)
    · rcases Nat.eq_zero_or_pos ms.length with h0 | hpos
      · exact .inl h0
      · exact .inr (.inl (exists_holds_of_mem hs hlen hroom hf hsent (hall _ hpos le_rfl)))
    · obtain ⟨pre, p, post, hsplit, hne, hahead⟩ :=
        (stale_feed_iff hs hlen hroom hf hsent).mp hstale
      have hsub : ∀ q ∈ pre, Sent session ms q := fun q hq => hsent q (by simp [hsplit, hq])
      refine .inr (.inr ⟨pre, p, post, hsplit, hdata p (by simp [hsplit]) hne, _,
        (tracks_feed hs hlen hroom hf hsub).2.next_pos, hahead, fun q hq hk => ?_⟩)
      exact absurd (lt_nextExpected_of_holds hs hlen hroom hf hsub hq hk) (lt_irrefl _)
  · intro hcaught
    by_cases hstale : ((new filter).feed packets).stats.stale = true
    · exact .inr hstale
    refine .inl fun k h1 hk => ?_
    have hfresh : ((new filter).feed packets).stats.stale = false := by simpa using hstale
    rcases hcaught with h0 | ⟨p, hp, hholds⟩ | ⟨pre, p, post, hsplit, hc, j, hj1, hjp, hnone⟩
    · omega
    · rw [(ht.fresh hfresh).1, List.mem_range'_1]
      have := lt_nextExpected_of_holds hs hlen hroom hf hsent hp hholds
      omega
    · exfalso
      have hsub : ∀ q ∈ pre, Sent session ms q := fun q hq => hsent q (by simp [hsplit, hq])
      have htpre := (tracks_feed hs hlen hroom hf hsub).2
      have hno := mt (stale_feed_iff hs hlen hroom hf hsent).mpr hstale
      -- nothing was ahead so far, so the receiver has all below the expected sequence
      have hpre : ((new filter).feed pre).stats.stale = false := by
        by_contra hs'
        obtain ⟨a, q, b, hab, hq⟩ := (stale_feed_iff hs hlen hroom hf hsub).mp (by simpa using hs')
        exact hno ⟨a, q, b ++ p :: post, by rw [hsplit, hab]; simp, hq⟩
      refine hno ⟨pre, p, post, hsplit, hc.1, lt_of_le_of_lt ?_ hjp⟩
      by_contra hlt
      obtain ⟨q, hq, hqj⟩ := exists_holds_of_mem hs hlen hroom hf hsub
        (htpre.stale_iff.mp hpre j hj1 (Nat.lt_of_not_le hlt))
      exact hnone q hq hqj

end Runs

/-! ## The packetizer's packets -/

theorem length_lt_of_mem_okFrames {framed m : Bytes} (h : m ∈ okFrames framed) :
    m.length < 2 ^ 16 := by
  have := (length_of_mem_okFrames h).2
  omega

theorem okFrames_room (framed : Span) : (okFrames framed.bytes).length + 1 < 2 ^ 64 := by
  have := okFrames_length_le framed.bytes
  have := framed.size_lt
  omega

/-- What may come in on either line: packets of any size, and heartbeats of the session. -/
def OnLines (session : Bytes) (framed : Span) (p : Bytes) : Prop :=
  (∃ max : UInt16, 1 ≤ max.toNat ∧ max.toNat ≤ 65534 ∧
    p ∈ ((MoldPacketizer.new session max).packetize framed.bytes).1) ∨
  ∃ seq, 1 ≤ seq ∧ seq ≤ (okFrames framed.bytes).length + 1 ∧
    PacketHeader p (fillAlpha kMoldSessionLen session) seq 0

theorem OnLines.sent {session p : Bytes} {framed : Span} (h : OnLines session framed p) :
    Sent (fillAlpha kMoldSessionLen session) (okFrames framed.bytes) p := by
  rcases h with ⟨max, -, hmax, hp⟩ | ⟨seq, h1, hle, hh⟩
  · exact sent_of_mem_packetize (Nat.lt_succ_of_le hmax) hp
  · exact Sent.heartbeat hh h1 hle

/-- **Delivery safety.** Whatever the two lines lose, duplicate or reorder: the sequence numbers handed
over increase, each with its own message and the right stale flag; the expected sequence accounts for
all messages; what a packet holds at or above it is handed over; and if every message comes in time, all
are delivered without a gap. -/
theorem delivery_safe (session filter : Bytes) (framed : Span) (packets : List Bytes)
    (hfilter : filter = [] ∨ filter = session) (hlines : ∀ p ∈ packets, OnLines session framed p) :
    ((new filter).feed packets).sequences.Pairwise (· < ·) ∧
    PayloadsRight (okFrames framed.bytes) ((new filter).feed packets).calls ∧
    FlagsRight ((new filter).feed packets).calls ∧
    (∀ pre post, packets = pre ++ post →
      ((new filter).feed pre).nextExpected = 1 + ((new filter).feed pre).stats.messagesDelivered +
        ((new filter).feed pre).stats.messagesLost) ∧
    (∀ pre p post, packets = pre ++ p :: post → ∀ k, Holds p k →
      ((new filter).feed pre).nextExpected ≤ k →
        k ∉ ((new filter).feed pre).sequences ∧
          k ∈ ((new filter).feed (pre ++ [p])).sequences) ∧
    (InTime (okFrames framed.bytes).length packets →
      ((new filter).feed packets).sequences = List.range' 1 (okFrames framed.bytes).length ∧
        ((new filter).feed packets).stats.gaps = 0 ∧
        ((new filter).feed packets).stats.stale = false) := by
  have hs : (fillAlpha kMoldSessionLen session).length = kMoldSessionLen := fillAlpha_length _ _
  have hlen : ∀ m ∈ okFrames framed.bytes, m.length < 2 ^ 16 := fun m => length_lt_of_mem_okFrames
  have hroom := okFrames_room framed
  have hf := follows_new session filter hfilter
  have hsent : ∀ p ∈ packets, Sent (fillAlpha kMoldSessionLen session) (okFrames framed.bytes) p :=
    fun p hp => (hlines p hp).sent
  have ht := (tracks_feed hs hlen hroom hf hsent).2
  refine ⟨ht.increasing, ht.payloads, ht.flags, ?_, ?_, complete_of_inTime hs hlen hroom hf hsent⟩
  · rintro pre post rfl
    exact (tracks_feed hs hlen hroom hf fun q hq => hsent q (by simp [hq])).2.account
  · intro pre p post hsplit k hk hle
    obtain ⟨htpre, -, -, hmem⟩ := sent_at hs hlen hroom hf hsent hsplit
    refine ⟨fun hin => absurd (htpre.below k hin) (Nat.not_lt.mpr hle), ?_⟩
    exact (hmem k).mpr (.inr ⟨hle, hk⟩)

instance (p : Bytes) (k : ℕ) : Decidable (Holds p k) := by unfold Holds; infer_instance

/-- A buffer with one system event message. -/
def oneMessage : Span := ⟨[0, 12, 83] ++ List.replicate 11 0, by decide⟩

def onePackets : List Bytes := ((MoldPacketizer.new [] 1).packetize oneMessage.bytes).1

/-- The frame of an order to buy 100 shares. -/
def orderFrame (ref : UInt8) : Bytes :=
  [0, 36, 65, 0, 1] ++ List.replicate 15 0 ++ [ref, 66, 0, 0, 0, 100] ++ List.replicate 8 32 ++ [0, 0, 0, ref]

/-- A buffer with three orders. -/
def threeOrders : Span := ⟨orderFrame 1 ++ orderFrame 2 ++ orderFrame 3, by decide⟩

/-- Packet `i` of a line that sends up to `max` messages at a time. -/
def onLine (max : UInt16) (i : ℕ) : Bytes :=
  ((MoldPacketizer.new [] max).packetize threeOrders.bytes).1.getD i []

/-- The heartbeat behind the three orders. -/
def threeHeartbeat : Bytes := fillAlpha kMoldSessionLen [] ++ be64Bytes 4 ++ be16Bytes 0 ++ []

theorem onLines_onLine {max : UInt16} (hpos : 1 ≤ max.toNat) (hmax : max.toNat ≤ 65534) {i : ℕ}
    (hi : i < ((MoldPacketizer.new [] max).packetize threeOrders.bytes).1.length) :
    OnLines [] threeOrders (onLine max i) := by
  refine .inl ⟨max, hpos, hmax, ?_⟩
  unfold onLine
  rw [List.getD_eq_getElem _ _ hi]
  exact List.getElem_mem hi

theorem length_threeOrders : (okFrames threeOrders.bytes).length = 3 := by decide +kernel

theorem onLines_threeHeartbeat : OnLines [] threeOrders threeHeartbeat := by
  refine .inr ⟨4, by decide, length_threeOrders ▸ le_rfl, ?_⟩
  exact header_fields (fillAlpha_length _ _) (by decide) (by decide) []

/-- The line of single messages loses the first one and swaps the others, the line of pairs closes the hole. -/
def arrivals : List Bytes := [onLine 2 0, onLine 1 2, onLine 1 1, threeHeartbeat, onLine 2 1]

/-- Without the pair the first message does not come. -/
def lateArrivals : List Bytes := [onLine 1 1, onLine 2 0, onLine 1 2, threeHeartbeat]

theorem onLines_arrivals : (∀ p ∈ arrivals, OnLines [] threeOrders p) ∧
    ∀ p ∈ lateArrivals, OnLines [] threeOrders p := by
  have hone : ∀ i < 3, OnLines [] threeOrders (onLine 1 i) := fun i hi =>
    onLines_onLine (by decide) (by decide) (hi.trans (by decide +kernel))
  have htwo : ∀ i < 2, OnLines [] threeOrders (onLine 2 i) := fun i hi =>
    onLines_onLine (by decide) (by decide) (hi.trans (by decide +kernel))
  unfold arrivals lateArrivals
  simp only [List.forall_mem_cons]
  exact ⟨⟨htwo 0 (by decide), hone 2 (by decide), hone 1 (by decide), onLines_threeHeartbeat, htwo 1 (by decide),
    List.forall_mem_nil _⟩, hone 1 (by decide), htwo 0 (by decide), hone 2 (by decide), onLines_threeHeartbeat,
    List.forall_mem_nil _⟩

theorem inTime_arrivals : InTime (okFrames threeOrders.bytes).length arrivals := by
  rw [length_threeOrders]
  intro k h1 h3
  by_cases hk : k ≤ 2
  · refine ⟨[], _, _, rfl, ?_, fun q hq => absurd hq List.not_mem_nil⟩
    have hseq : CarriesMessages (onLine 2 0) ∧ packetSeq (onLine 2 0) = 1 ∧ packetCount (onLine 2 0) = 2 := by
      decide +kernel
    exact ⟨hseq.1, by omega, by omega⟩
  · obtain rfl : k = 3 := by omega
    exact ⟨[onLine 2 0], _, _, rfl, by decide +kernel, by decide +kernel⟩

theorem delivery_safe_arrivals :
    (((new []).feed arrivals).sequences = List.range' 1 3 ∧ ((new []).feed arrivals).stats.gaps = 0) ∧
      ((new []).feed lateArrivals).sequences.Pairwise (· < ·) ∧ FlagsRight ((new []).feed lateArrivals).calls ∧
      ((new []).feed lateArrivals).nextExpected =
        1 + ((new []).feed lateArrivals).stats.messagesDelivered + ((new []).feed lateArrivals).stats.messagesLost ∧
      ((new []).feed lateArrivals).stats.messagesLost = 1 := by
  obtain ⟨-, -, -, -, -, hall⟩ := delivery_safe [] [] threeOrders arrivals (.inl rfl) onLines_arrivals.1
  obtain ⟨hinc, -, hflags, hacc, -⟩ := delivery_safe [] [] threeOrders lateArrivals (.inl rfl) onLines_arrivals.2
  obtain ⟨hseqs, hgaps, -⟩ := hall inTime_arrivals
  rw [length_threeOrders] at hseqs
  exact ⟨⟨hseqs, hgaps⟩, hinc, hflags, hacc lateArrivals [] (List.append_nil _).symm, by decide +kernel⟩

/-- **The end of a session.** When the closing packet comes last, a short delivery is noticed exactly
when the last message came or some data packet came ahead of a message that no earlier packet held. -/
theorem endOfSession_caught_iff (session filter : Bytes) (framed : Span) (max : UInt16)
    (packets : List Bytes) (e : Bytes) (hfilter : filter = [] ∨ filter = session)
    (hmax : 1 ≤ max.toNat ∧ max.toNat ≤ 65534)
    (hpackets : ∀ p ∈ packets, p ∈ ((MoldPacketizer.new session max).packetize framed.bytes).1)
    (he : e ∈ ((MoldPacketizer.new session max).packetize framed.bytes).1)
    (hend : packetCount e = kMoldEndOfSession) :
    (((new filter).feed packets).receive e).1 = .endOfSession ∧
    (((∀ k, 1 ≤ k → k ≤ (okFrames framed.bytes).length →
        k ∈ ((new filter).feed (packets ++ [e])).sequences) ∨
      ((new filter).feed (packets ++ [e])).stats.stale = true) ↔
        Caught (okFrames framed.bytes).length packets) := by
  have hs : (fillAlpha kMoldSessionLen session).length = kMoldSessionLen := fillAlpha_length _ _
  have hlen : ∀ m ∈ okFrames framed.bytes, m.length < 2 ^ 16 := fun m => length_lt_of_mem_okFrames
  have hroom := okFrames_room framed
  have hf := follows_new session filter hfilter
  have hsent : ∀ p ∈ packets, Sent (fillAlpha kMoldSessionLen session) (okFrames framed.bytes) p :=
    fun p hp => sent_of_mem_packetize (Nat.lt_succ_of_le hmax.2) (hpackets p hp)
  have hdata : ∀ p ∈ packets, packetCount p ≠ kMoldEndOfSession → CarriesMessages p := by
    intro p hp hne
    refine ⟨hne, ?_⟩
    rcases mem_packetize_cases (Nat.lt_succ_of_le hmax.2) (hpackets p hp) with
      rfl | ⟨k, n, hpos, hlt, hle, rfl⟩
    · exact absurd (header_eosBytes hs hroom).packetCount_eq hne
    · rw [(header_dataPacket hs hlt hle hroom).packetCount_eq]; omega
  have hsent_e := sent_of_mem_packetize (Nat.lt_succ_of_le hmax.2) he
  obtain ⟨seq, count, hh⟩ := hsent_e.header hs hroom
  obtain ⟨hout, hsame, -⟩ :=
    receive_eos ((tracks_feed hs hlen hroom hf hsent).1.accepts hh) hend
  have hsnoc : (new filter).feed (packets ++ [e]) = ((new filter).feed packets).step e :=
    Runs.run_snoc _ _ _
  rw [hsnoc, hsame.sequences, hsame.stale]
  exact ⟨hout, complete_or_stale_iff hs hlen hroom hf hsent hdata⟩

/-- The second of three orders is lost, and the third shows it. -/
theorem endOfSession_caught_three :
    (((new []).feed [onLine 1 0, onLine 1 2]).receive (onLine 1 3)).1 = .endOfSession ∧
      Caught (okFrames threeOrders.bytes).length [onLine 1 0, onLine 1 2] ∧
      ((∀ k, 1 ≤ k → k ≤ (okFrames threeOrders.bytes).length →
          k ∈ ((new []).feed ([onLine 1 0, onLine 1 2] ++ [onLine 1 3])).sequences) ∨
        ((new []).feed ([onLine 1 0, onLine 1 2] ++ [onLine 1 3])).stats.stale = true) := by
  have hin : ∀ p ∈ [onLine 1 0, onLine 1 2], p ∈ ((MoldPacketizer.new [] 1).packetize threeOrders.bytes).1 := by
    decide +kernel
  obtain ⟨hend, hiff⟩ := endOfSession_caught_iff [] [] threeOrders 1 [onLine 1 0, onLine 1 2] (onLine 1 3) (.inl rfl)
    (by decide) hin (by decide +kernel) (by decide +kernel)
  have hcaught : Caught (okFrames threeOrders.bytes).length [onLine 1 0, onLine 1 2] := by
    rw [length_threeOrders]
    exact .inr (.inl ⟨onLine 1 2, by simp, by decide +kernel⟩)
  exact ⟨hend, hcaught, hiff.mpr hcaught⟩

/-- Only the closing packet of a session of one message arrives. -/
theorem endOfSession_uncaught :
    onePackets.getLastD [] ∈ onePackets ∧
      ((new []).receive (onePackets.getLastD [])).1 = .endOfSession ∧
      ¬ ((∀ k, 1 ≤ k → k ≤ (okFrames oneMessage.bytes).length →
          k ∈ ((new []).feed [onePackets.getLastD []]).sequences) ∨
        ((new []).feed [onePackets.getLastD []]).stats.stale = true) := by
  refine ⟨by decide +kernel, by decide +kernel, ?_⟩
  rintro (h | h)
  · have h1 := h 1 le_rfl (by decide +kernel)
    revert h1
    decide +kernel
  · revert h
    decide +kernel

end MoldReceiver

end Carteret
