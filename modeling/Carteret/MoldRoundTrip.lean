import Carteret.MoldDelivery

/-!
# Packetize, then receive

`RoundTrip` says that the packets of `packetize`, received in order, give back the accepted frames.

1. `clean_dataPackets`: packets of fewer than 65535 messages are delivered whole, one after the other.
2. A packet of 65535 messages has the count that closes a session (`receive_sentinel`).
3. `roundTrip_iff`: the round trip fails exactly for packets of that size.
-/

namespace Carteret

namespace MoldReceiver

variable {r : MoldReceiver} {session : Bytes}

theorem numbered_append (stale : Bool) (as bs : List Bytes) : ∀ seq,
    numbered stale seq (as ++ bs) = numbered stale seq as ++ numbered stale (seq + as.length) bs := by
  induction as with
  | nil => exact fun seq => rfl
  | cons a as ih =>
    intro seq
    rw [List.cons_append, numbered, numbered, ih, List.length_cons, List.cons_append,
      Nat.add_assoc, Nat.add_comm 1]

/-- The receiver after the messages `ms` of its session, none lost. -/
structure Clean (session : Bytes) (ms : List Bytes) (r : MoldReceiver) : Prop where
  follows : r.Follows session
  next_eq : r.nextExpected = 1 + ms.length
  calls_eq : r.calls = numbered false 1 ms
  stale_eq : r.stats.stale = false
  gaps_eq : r.stats.gaps = 0
  malformed_eq : r.stats.malformed = 0
  open_eq : r.stats.sawEndOfSession = false

theorem Clean.new {filter : Bytes} (hf : (new filter).Follows session) :
    Clean session [] (new filter) := ⟨hf, rfl, rfl, rfl, rfl, rfl, rfl⟩

/-- The next data packet of the session. -/
theorem Clean.data {ms g : List Bytes} (h : Clean session ms r)
    (hs : session.length = kMoldSessionLen) (hpos : 0 < g.length) (hlt : g.length < kMoldEndOfSession)
    (hroom : 1 + ms.length + g.length < 2 ^ 64) (hlen : ∀ m ∈ g, m.length < 2 ^ 16) :
    Clean session (ms ++ g) (r.step (dataPacket session (1 + ms.length) g)) := by
  obtain ⟨hsame, hmal, hend⟩ := step_data h.follows hs hpos hlt (by omega) hlen
  obtain ⟨hcm, hce⟩ := step_counters r (dataPacket session (1 + ms.length) g)
  have hjump : r.jump (1 + ms.length) = r := if_neg (by rw [h.next_eq]; omega)
  have hoffer : r.offer (1 + ms.length) g = pushAll g r := by
    unfold offer
    rw [hjump, h.next_eq, Nat.sub_self, List.drop_zero]
  rw [hoffer] at hsame
  obtain ⟨h1, h2, -, h4, h5, h6⟩ := pushAll_spec g r (by rw [h.next_eq]; omega)
  have hfollows : (pushAll g r).Follows session := by
    unfold Follows; rw [h5, h6]; exact h.follows
  refine ⟨hfollows.same hsame, ?_, ?_, ?_, ?_, ?_, ?_⟩
  · rw [hsame.nextExpected, h1, h.next_eq, List.length_append, Nat.add_assoc]
  · rw [hsame.calls, h2, h.calls_eq, h.stale_eq, h.next_eq, numbered_append]
  · rw [hsame.stale, h4]; exact h.stale_eq
  · rw [hsame.gaps, h4]; exact h.gaps_eq
  · rw [hcm, if_neg hmal, h.malformed_eq]
  · rw [hce, h.open_eq, decide_eq_false hend]; rfl

/-- Consecutive data packets, all below the sentinel, are delivered whole. -/
theorem clean_dataPackets (hs : session.length = kMoldSessionLen) (gs : List (List Bytes)) :
    ∀ {ms : List Bytes} {r : MoldReceiver}, Clean session ms r →
      (∀ g ∈ gs, 0 < g.length ∧ g.length < kMoldEndOfSession ∧ ∀ m ∈ g, m.length < 2 ^ 16) →
      1 + ms.length + gs.flatten.length < 2 ^ 64 →
        Clean session (ms ++ gs.flatten) (r.feed (dataPackets session (1 + ms.length) gs)) := by
  induction gs with
  | nil => intro ms r h _ _; rw [List.flatten_nil, List.append_nil]; exact h
  | cons g gs ih =>
    intro ms r h hgs hroom
    rw [List.flatten_cons, List.length_append] at hroom
    obtain ⟨hpos, hlt, hlen⟩ := hgs g (by simp)
    have hstep := h.data hs hpos hlt (by omega) hlen
    have hrest := ih hstep (fun g' hg' => hgs g' (by simp [hg']))
      (by rw [List.length_append]; omega)
    rw [List.length_append, ← Nat.add_assoc, List.append_assoc] at hrest
    exact hrest

/-- A packet with the sentinel count closes the session, whatever it carries. -/
theorem receive_sentinel (hf : r.Follows session) (hs : session.length = kMoldSessionLen) {seq : ℕ}
    (hseq : seq < 2 ^ 64) {g : List Bytes} (hg : g.length = kMoldEndOfSession) :
    (r.step (dataPacket session seq g)).stats.sawEndOfSession = true := by
  have hcount : g.length < 2 ^ 16 := by rw [hg]; decide
  have hh := header_fields hs hseq hcount (g.flatMap block)
  exact (receive_eos (hf.accepts hh) (by rw [hh.packetCount_eq, hg])).2.2

/-! ## The round trip -/

/-- Fed the packets of `packetize` in order, a fresh receiver hands over exactly the accepted frames,
numbered from 1, counts no gap and no malformed packet, and sees the end of the session at the last
packet only. -/
def RoundTrip (session filter : Bytes) (framed : Span) (max : UInt16) : Prop :=
  let packets := ((MoldPacketizer.new session max).packetize framed.bytes).1
  let r := (new filter).feed packets
  r.calls = numbered false 1 (okFrames framed.bytes) ∧
  r.stats.gaps = 0 ∧ r.stats.malformed = 0 ∧ r.stats.stale = false ∧
  r.stats.sawEndOfSession = true ∧
  ∀ pre p post, packets = pre ++ p :: post →
    ((new filter).feed pre).stats.sawEndOfSession = false

variable {filter : Bytes} {framed : Span} {max : UInt16}

/-- Once set, the end-of-session flag stays. -/
theorem sawEndOfSession_feed (ps : List Bytes) : ∀ {r : MoldReceiver},
    r.stats.sawEndOfSession = true → (r.feed ps).stats.sawEndOfSession = true := by
  induction ps with
  | nil => exact fun h => h
  | cons p ps ih =>
    intro r h
    refine ih (r := r.step p) ?_
    rw [(step_counters r p).2, h, Bool.true_or]

theorem roundTrip_of_small (hfilter : filter = [] ∨ filter = session)
    (h : ¬ (max.toNat = kMoldEndOfSession ∧ kMoldEndOfSession ≤ (okFrames framed.bytes).length)) :
    RoundTrip session filter framed max := by
  have hs : (fillAlpha kMoldSessionLen session).length = kMoldSessionLen := fillAlpha_length _ _
  have hf := follows_new session filter hfilter
  have hroom := okFrames_room framed
  obtain ⟨gs, hg, heq⟩ := packetize_groups session max framed
  have hflat := congrArg List.length hg.flatten_eq
  have hgs : ∀ g ∈ gs, 0 < g.length ∧ g.length < kMoldEndOfSession ∧
      ∀ m ∈ g, m.length < 2 ^ 16 := by
    intro g hmem
    have hle : g.length ≤ if max.toNat ≠ 0 then max.toNat else 1 := hg.le g hmem
    have hall : g.length ≤ gs.flatten.length := (List.sublist_flatten_of_mem hmem).length_le
    have hmax := max.toNat_lt
    have hend : kMoldEndOfSession = 65535 := rfl
    refine ⟨hg.pos g hmem, ?_, fun m hm => ?_⟩
    · split at hle <;> omega
    · have hm' : m ∈ okFrames framed.bytes := by
        rw [← hg.flatten_eq]; exact List.mem_flatten_of_mem hmem hm
      exact length_lt_of_mem_okFrames hm'
  have hclean := clean_dataPackets hs gs (Clean.new hf) hgs
    (by rw [hflat, List.length_nil]; omega)
  rw [List.nil_append, hg.flatten_eq, List.length_nil, Nat.add_zero] at hclean
  have hlast := step_eos hclean.follows hs hroom
  set e := MoldPacketizer.eosBytes (fillAlpha kMoldSessionLen session)
    ((okFrames framed.bytes).length + 1)
  obtain ⟨hcm, hce⟩ := step_counters
    ((new filter).feed (dataPackets (fillAlpha kMoldSessionLen session) 1 gs)) e
  unfold RoundTrip
  simp only [heq]
  have hsnoc : (new filter).feed (dataPackets (fillAlpha kMoldSessionLen session) 1 gs ++ [e]) =
      ((new filter).feed (dataPackets (fillAlpha kMoldSessionLen session) 1 gs)).step e :=
    Runs.run_snoc _ _ _
  rw [hsnoc]
  refine ⟨?_, ?_, ?_, ?_, ?_, ?_⟩
  · rw [hlast.1.calls]; exact hclean.calls_eq
  · rw [hlast.1.gaps]; exact hclean.gaps_eq
  · rw [hcm, hlast.2]; exact hclean.malformed_eq
  · rw [hlast.1.stale]; exact hclean.stale_eq
  · rw [hce, hlast.2]; simp
  · intro pre p post hsplit
    by_contra hsaw
    -- what was seen before the last packet would still be there after the data packets
    have hpre : pre <+: dataPackets (fillAlpha kMoldSessionLen session) 1 gs := by
      rcases List.eq_nil_or_concat post with rfl | ⟨post', x, rfl⟩
      · rw [(List.append_inj' hsplit rfl).1]
      · rw [List.concat_eq_append, ← List.cons_append, ← List.append_assoc] at hsplit
        exact ⟨p :: post', (List.append_inj' hsplit rfl).1.symm⟩
    obtain ⟨rest, hrest⟩ := hpre
    have hlate := sawEndOfSession_feed rest (r := (new filter).feed pre) (by simpa using hsaw)
    have hopen := hclean.open_eq
    rw [← hrest] at hopen
    unfold feed at hlate hopen
    rw [Runs.run_append] at hopen
    rw [hopen] at hlate
    cases hlate

theorem not_roundTrip_of_full (hfilter : filter = [] ∨ filter = session)
    (hmax : max.toNat = kMoldEndOfSession)
    (hn : kMoldEndOfSession ≤ (okFrames framed.bytes).length) :
    ¬ RoundTrip session filter framed max := by
  have hs : (fillAlpha kMoldSessionLen session).length = kMoldSessionLen := fillAlpha_length _ _
  have hf := follows_new session filter hfilter
  obtain ⟨gs, hg, heq⟩ := packetize_groups session max framed
  have hmaxMsgs : (MoldPacketizer.new session max).maxMsgs = kMoldEndOfSession := by
    change (if max.toNat ≠ 0 then max.toNat else 1) = kMoldEndOfSession
    rw [hmax]; rfl
  rintro ⟨-, -, -, -, -, honly⟩
  cases gs with
  | nil =>
    have := congrArg List.length hg.flatten_eq
    rw [← this] at hn
    exact absurd hn (by decide)
  | cons g gs =>
    have hfull := hg.first_full g gs rfl (by rw [hmaxMsgs]; exact hn)
    have hone : 1 < 2 ^ 64 := by decide
    have hsaw := receive_sentinel hf hs hone (hfull.trans hmaxMsgs)
    rw [heq] at honly
    cases hrest : dataPackets (fillAlpha kMoldSessionLen session) (1 + g.length) gs with
    | nil =>
      have hopen := honly [dataPacket (fillAlpha kMoldSessionLen session) 1 g] _ []
        (by rw [dataPackets, hrest])
      rw [feed, Runs.run_cons, Runs.run_nil, hsaw] at hopen
      cases hopen
    | cons q qs =>
      have hopen := honly [dataPacket (fillAlpha kMoldSessionLen session) 1 g] q
        (qs ++ [_]) (by rw [dataPackets, hrest]; rfl)
      rw [feed, Runs.run_cons, Runs.run_nil, hsaw] at hopen
      cases hopen

/-- **Packetize, then receive.** The stream comes back whole unless packets are allowed 65535 messages
and the stream fills one. -/
theorem roundTrip_iff (session filter : Bytes) (framed : Span) (max : UInt16)
    (hfilter : filter = [] ∨ filter = session) :
    RoundTrip session filter framed max ↔
      ¬ (max.toNat = kMoldEndOfSession ∧ kMoldEndOfSession ≤ (okFrames framed.bytes).length) :=
  ⟨fun h hc => not_roundTrip_of_full hfilter hc.1 hc.2 h, roundTrip_of_small hfilter⟩

/-- Three orders with a frame of an unknown type among them. -/
def mixedOrders : Span := ⟨orderFrame 1 ++ [0, 2, 126, 0] ++ orderFrame 2 ++ orderFrame 3, by decide⟩

/-- The three orders go out in two packets. -/
theorem roundTrip_mixed : RoundTrip [] [] mixedOrders 2 ∧ (okFrames mixedOrders.bytes).length = 3 ∧
    ((MoldPacketizer.new [] 2).packetize mixedOrders.bytes).1.length = 3 := by
  refine ⟨(roundTrip_iff [] [] mixedOrders 2 (.inl rfl)).mpr fun h => ?_, by decide +kernel, by decide +kernel⟩
  exact absurd h.1 (by decide)

/-- A system event message. -/
def systemEvent : Bytes := 83 :: List.replicate 11 0

theorem length_flatMap_frame_replicate (n : ℕ) :
    ((List.replicate n systemEvent).flatMap frame).length = 14 * n := by
  induction n with
  | zero => rfl
  | succ n ih =>
    rw [List.replicate_succ, List.flatMap_cons, List.length_append, ih]
    have : (frame systemEvent).length = 14 := by decide
    omega

/-- A buffer of 65535 system events. -/
def fullBuffer : Span :=
  ⟨(List.replicate kMoldEndOfSession systemEvent).flatMap frame, by
    rw [length_flatMap_frame_replicate]; decide⟩

theorem not_roundTrip_fullBuffer : ¬ RoundTrip [] [] fullBuffer 65535 := by
  refine not_roundTrip_of_full (.inl rfl) (by decide) ?_
  have hwf : ∀ b ∈ List.replicate kMoldEndOfSession systemEvent, WellFormed b := by
    intro b hb
    rw [List.eq_of_mem_replicate hb]
    exact ⟨by decide, by decide⟩
  have hframes : okFrames fullBuffer.bytes = List.replicate kMoldEndOfSession systemEvent :=
    okFrames_flatMap_frame hwf
  rw [hframes, List.length_replicate]

end MoldReceiver

end Carteret
