import Carteret.MoldReceiver

/-!
# The packets of a session at the receiver

1. `header_fields` and `walkBlocks_blocks` read back what the packetizer wrote.
2. `step_data`, `step_heartbeat`, `step_eos`: a packet of the session acts on the jump to its sequence
   number, then hands over the messages it carries from the expected one on.
3. `Sent` lists the packets of a session; `sent_of_mem_packetize` puts every packet of `packetize` into it,
   whatever the packet size.
-/

namespace Carteret

/-! ## Reading back a packet -/

theorem be64_be64Bytes {seq : ℕ} (h : seq < 2 ^ 64) (pre post : Bytes) :
    be64 (pre ++ (be64Bytes seq ++ post)) pre.length = seq := by
  have hbyte : ∀ i < 8, byteAt (pre ++ (be64Bytes seq ++ post)) (pre.length + i) =
      seq / 2 ^ (56 - 8 * i) % 256 := by
    intro i hi
    rw [byteAt_append_right (by omega), Nat.add_sub_cancel_left, byteAt_append_left (by simp [hi])]
    unfold byteAt be64Bytes
    rw [List.getD_eq_getElem _ _ (by simp [hi])]
    simp [Nat.shiftRight_eq_div_pow]
  have hall : be64 (pre ++ (be64Bytes seq ++ post)) pre.length =
      (List.range 8).foldl (fun v i => v * 256 + seq / 2 ^ (56 - 8 * i) % 256) 0 := by
    refine List.foldl_ext _ _ _ fun v i hi => ?_
    rw [hbyte i (List.mem_range.mp hi)]
  rw [hall]
  simp only [List.range, List.range.loop, List.foldl_cons, List.foldl_nil]
  omega

/-- A packet with this session, sequence number and count. -/
structure PacketHeader (p session : Bytes) (seq count : ℕ) : Prop where
  length_le : kMoldHeaderLen ≤ p.length
  session_eq : p.take kMoldSessionLen = session
  packetSeq_eq : packetSeq p = seq
  packetCount_eq : packetCount p = count

theorem header_fields {session : Bytes} (hs : session.length = kMoldSessionLen) {seq count : ℕ}
    (hseq : seq < 2 ^ 64) (hcount : count < 2 ^ 16) (body : Bytes) :
    PacketHeader (session ++ be64Bytes seq ++ be16Bytes count ++ body) session seq count := by
  refine ⟨?_, ?_, ?_, ?_⟩
  · simp [hs, kMoldSessionLen, kMoldHeaderLen]
    omega
  · rw [List.append_assoc, List.append_assoc, ← hs, List.take_left]
  · unfold packetSeq
    rw [List.append_assoc, List.append_assoc, ← hs]
    exact be64_be64Bytes hseq _ _
  · unfold packetCount
    have h18 : (session ++ be64Bytes seq).length = 18 := by simp [hs, kMoldSessionLen]
    rw [List.append_assoc (session ++ be64Bytes seq), ← h18]
    exact be16_be16Bytes hcount _ _

/-- The block walk finds the payloads where they were written. -/
theorem walkBlocks_blocks (post : Bytes) (ms : List Bytes) : ∀ (pre : Bytes),
    (∀ m ∈ ms, m.length < 2 ^ 16) →
    ∃ bs, MoldReceiver.walkBlocks (pre ++ ms.flatMap block ++ post) ms.length pre.length = some bs ∧
      bs.map (MoldReceiver.payload (pre ++ ms.flatMap block ++ post)) = ms := by
  induction ms with
  | nil => exact fun pre _ => ⟨[], rfl, rfl⟩
  | cons m ms ih =>
    intro pre hlen
    have hm := hlen m (by simp)
    set packet := pre ++ (m :: ms).flatMap block ++ post with hp
    have hblock : (block m).length = 2 + m.length := by simp [block]
    have hassoc : packet = (pre ++ block m) ++ ms.flatMap block ++ post := by
      rw [hp, List.flatMap_cons]; simp
    have hfront : packet = pre ++ (be16Bytes m.length ++ (m ++ (ms.flatMap block ++ post))) := by
      rw [hassoc, block]; simp
    obtain ⟨bs, hbs, hmap⟩ := ih (pre ++ block m) fun m' h' => hlen m' (by simp [h'])
    rw [← hassoc] at hbs hmap
    have hsize : pre.length + 2 + m.length ≤ packet.length := by
      rw [hfront]; simp only [List.length_append, be16Bytes_length]; omega
    have hlen16 : be16 packet pre.length = m.length := by
      rw [hfront]; exact be16_be16Bytes hm _ _
    have hnext : pre.length + 2 + m.length = (pre ++ block m).length := by
      rw [List.length_append, hblock]; omega
    refine ⟨(pre.length + 2, m.length) :: bs, ?_, ?_⟩
    · rw [List.length_cons, MoldReceiver.walkBlocks, if_neg (by omega)]
      simp only [hlen16]
      rw [if_neg (by omega), hnext, hbs]
      rfl
    · rw [List.map_cons, hmap]
      have hpay : MoldReceiver.payload packet (pre.length + 2, m.length) = m := by
        have hdrop : packet.drop (pre.length + 2) = m ++ (ms.flatMap block ++ post) := by
          rw [hfront, ← List.append_assoc]
          exact List.drop_left' (by simp)
        unfold MoldReceiver.payload
        rw [hdrop, List.take_left]
      rw [hpay]

theorem walkBlocks_dataPacket {session : Bytes} (hs : session.length = kMoldSessionLen) (seq : ℕ)
    {ms : List Bytes} (hlen : ∀ m ∈ ms, m.length < 2 ^ 16) :
    ∃ bs, MoldReceiver.walkBlocks (dataPacket session seq ms) ms.length kMoldHeaderLen = some bs ∧
      bs.map (MoldReceiver.payload (dataPacket session seq ms)) = ms := by
  have h20 : (session ++ be64Bytes seq ++ be16Bytes ms.length).length = kMoldHeaderLen := by
    simp [hs, kMoldSessionLen, kMoldHeaderLen]
  have h := walkBlocks_blocks [] ms (session ++ be64Bytes seq ++ be16Bytes ms.length) hlen
  rw [List.append_nil, h20] at h
  exact h

namespace MoldReceiver

/-! ## One packet of a session -/

/-- The receiver checks no session, or this one. -/
def Follows (r : MoldReceiver) (session : Bytes) : Prop :=
  r.hasSessionFilter = true → r.expectSession = session

variable {r r' : MoldReceiver} {p session : Bytes} {seq count : ℕ}

theorem Follows.same (h : r.Follows session) (hs : Same r r') : r'.Follows session := by
  unfold Follows
  rw [hs.hasSessionFilter, hs.expectSession]
  exact h

theorem Follows.accepts (h : r.Follows session) (hp : PacketHeader p session seq count) : r.Accepts p :=
  ⟨hp.length_le, fun hf => hp.session_eq.trans (h hf).symm⟩

theorem follows_new (session filter : Bytes) (h : filter = [] ∨ filter = session) :
    (new filter).Follows (fillAlpha kMoldSessionLen session) := by
  intro hf
  rcases h with rfl | rfl
  · simp [new] at hf
  · rfl

/-- What a packet hands over: the messages `ms`, the first with sequence `seq`, from the expected
sequence on, once the jump to `seq` is acted upon. -/
def offer (r : MoldReceiver) (seq : ℕ) (ms : List Bytes) : MoldReceiver :=
  pushAll (ms.drop ((r.jump seq).nextExpected - seq)) (r.jump seq)

theorem offer_nil (r : MoldReceiver) (seq : ℕ) : r.offer seq [] = r.jump seq := by
  unfold offer; rw [List.drop_nil]; rfl

/-- **A data packet of the session**, a duplicate included, hands over what is not yet delivered. -/
theorem step_data (hf : r.Follows session) (hs : session.length = kMoldSessionLen) {ms : List Bytes}
    (hpos : 0 < ms.length) (hlt : ms.length < kMoldEndOfSession) (hseq : seq + ms.length < 2 ^ 64)
    (hlen : ∀ m ∈ ms, m.length < 2 ^ 16) :
    Same (r.offer seq ms) (r.step (dataPacket session seq ms)) ∧
      (r.receive (dataPacket session seq ms)).1 ≠ .malformed ∧
      (r.receive (dataPacket session seq ms)).1 ≠ .endOfSession := by
  have hend : kMoldEndOfSession = 65535 := rfl
  have hh : PacketHeader (dataPacket session seq ms) session seq ms.length :=
    header_fields hs (by omega) (by omega) _
  have ha := hf.accepts hh
  have hc : CarriesMessages (dataPacket session seq ms) := by
    unfold CarriesMessages; rw [hh.packetCount_eq]; omega
  have hsum : (packetSeq (dataPacket session seq ms) +
      packetCount (dataPacket session seq ms)) % 2 ^ 64 = seq + ms.length := by
    rw [hh.packetSeq_eq, hh.packetCount_eq, Nat.mod_eq_of_lt hseq]
  by_cases hd : seq + ms.length ≤ r.nextExpected
  · obtain ⟨hout, hsame⟩ := receive_duplicate ha hc (by rw [hsum]; exact hd)
    have hjump : r.jump seq = r := if_neg (by omega)
    have hoffer : r.offer seq ms = r := by
      unfold offer
      rw [hjump, List.drop_eq_nil_of_le (by omega)]
      rfl
    rw [hoffer, hout]
    exact ⟨hsame, by simp, by simp⟩
  · obtain ⟨bs, hbs, hmap⟩ := walkBlocks_dataPacket hs seq hlen
    have hblen := walkBlocks_length hbs
    obtain ⟨hout, hsame⟩ := receive_deliver ha hc (by rw [hsum]; omega)
      (by rw [hh.packetCount_eq]; exact hbs)
    rw [hh.packetSeq_eq] at hsame
    have hge : seq ≤ (r.jump seq).nextExpected := by
      unfold jump
      split
      · exact le_rfl
      · omega
    rw [deliver_eq _ _ bs 0 _ hge (by omega), hmap, Nat.add_zero] at hsame
    refine ⟨hsame, ?_, ?_⟩ <;> rw [hout] <;> split <;> simp

theorem step_heartbeat (hf : r.Follows session) (hh : PacketHeader p session seq 0) :
    Same (r.jump seq) (r.step p) := by
  have h := (receive_heartbeat (hf.accepts hh) hh.packetCount_eq).2
  rwa [hh.packetSeq_eq] at h

theorem header_eosBytes (hs : session.length = kMoldSessionLen) (hseq : seq < 2 ^ 64) :
    PacketHeader (MoldPacketizer.eosBytes session seq) session seq kMoldEndOfSession := by
  have hcount : kMoldEndOfSession < 2 ^ 16 := by decide
  have h := header_fields hs hseq hcount []
  rwa [List.append_nil, ← eosBytes_eq hs] at h

theorem step_eos (hf : r.Follows session) (hs : session.length = kMoldSessionLen)
    (hseq : seq < 2 ^ 64) :
    Same r (r.step (MoldPacketizer.eosBytes session seq)) ∧
      (r.receive (MoldPacketizer.eosBytes session seq)).1 = .endOfSession := by
  have hh := header_eosBytes hs hseq
  have h := receive_eos (hf.accepts hh) hh.packetCount_eq
  exact ⟨h.2.1, h.1⟩

end MoldReceiver

/-! ## The packets of a session -/

/-- The packets that may be on either line of a session with messages `ms`: any run of them as a data
packet, a heartbeat, the closing packet. -/
inductive Sent (session : Bytes) (ms : List Bytes) : Bytes → Prop
  | data (k n : ℕ) : 0 < n → n < kMoldEndOfSession → k + n ≤ ms.length →
    Sent session ms (dataPacket session (k + 1) ((ms.drop k).take n))
  | heartbeat {p : Bytes} {seq : ℕ} : PacketHeader p session seq 0 → 1 ≤ seq → seq ≤ ms.length + 1 →
    Sent session ms p
  | endOfSession : Sent session ms (MoldPacketizer.eosBytes session (ms.length + 1))

/-- The groups of a session are runs of its messages. -/
theorem mem_dataPackets {session p : Bytes} (gs : List (List Bytes)) : ∀ {seq : ℕ},
    p ∈ dataPackets session seq gs →
      ∃ as g bs, gs = as ++ g :: bs ∧ p = dataPacket session (seq + as.flatten.length) g := by
  induction gs with
  | nil => intro seq h; cases h
  | cons g gs ih =>
    intro seq h
    rcases List.mem_cons.mp h with rfl | h
    · exact ⟨[], g, gs, rfl, rfl⟩
    · obtain ⟨as, g', bs, rfl, rfl⟩ := ih h
      refine ⟨g :: as, g', bs, rfl, ?_⟩
      rw [List.flatten_cons, List.length_append, Nat.add_assoc]

theorem dataPacket_of_group {session : Bytes} {ms as bs : List Bytes} {g : List Bytes}
    (h : ms = as ++ g ++ bs) :
    dataPacket session (1 + as.length) g =
      dataPacket session (as.length + 1) ((ms.drop as.length).take g.length) := by
  rw [h, List.append_assoc, List.drop_left, List.take_left, Nat.add_comm]

/-- What a fresh packetizer of this session and size emits. -/
theorem packetize_groups (session : Bytes) (max : UInt16) (framed : Span) :
    ∃ gs, MoldPacketizer.Groups (.new session max) (okFrames framed.bytes) gs ∧
      ((MoldPacketizer.new session max).packetize framed.bytes).1 =
        dataPackets (fillAlpha kMoldSessionLen session) 1 gs ++
          [MoldPacketizer.eosBytes (fillAlpha kMoldSessionLen session)
            ((okFrames framed.bytes).length + 1)] := by
  have hn := okFrames_length_le framed.bytes
  have hsize := framed.size_lt
  obtain ⟨gs, hg, heq⟩ := (MoldPacketizer.new session max).packetize_eq framed.bytes (by
    change 1 + _ < _; omega)
  refine ⟨gs, hg, ?_⟩
  rw [heq, Nat.add_comm (okFrames framed.bytes).length]
  rfl

/-- A packet of `packetize` is the closing one or carries a run of the messages. -/
theorem mem_packetize_cases {session p : Bytes} {max : UInt16} {framed : Span}
    (hmax : max.toNat < kMoldEndOfSession)
    (h : p ∈ ((MoldPacketizer.new session max).packetize framed.bytes).1) :
    p = MoldPacketizer.eosBytes (fillAlpha kMoldSessionLen session)
        ((okFrames framed.bytes).length + 1) ∨
      ∃ k n, 0 < n ∧ n < kMoldEndOfSession ∧ k + n ≤ (okFrames framed.bytes).length ∧
        p = dataPacket (fillAlpha kMoldSessionLen session) (k + 1)
          (((okFrames framed.bytes).drop k).take n) := by
  obtain ⟨gs, hg, heq⟩ := packetize_groups session max framed
  rw [heq] at h
  rcases List.mem_append.mp h with h | h
  · obtain ⟨as, g, bs, rfl, rfl⟩ := mem_dataPackets gs h
    have hflat : okFrames framed.bytes = as.flatten ++ g ++ bs.flatten := by
      rw [← hg.flatten_eq]; simp
    have hle : g.length ≤ if max.toNat ≠ 0 then max.toNat else 1 := hg.le g (by simp)
    refine .inr ⟨_, _, hg.pos g (by simp), ?_, ?_, dataPacket_of_group hflat⟩
    · have : kMoldEndOfSession = 65535 := rfl
      split at hle <;> omega
    · rw [hflat]; simp
  · exact .inl (List.mem_singleton.mp h)

theorem sent_of_mem_packetize {session p : Bytes} {max : UInt16} {framed : Span}
    (hmax : max.toNat < kMoldEndOfSession)
    (h : p ∈ ((MoldPacketizer.new session max).packetize framed.bytes).1) :
    Sent (fillAlpha kMoldSessionLen session) (okFrames framed.bytes) p := by
  rcases mem_packetize_cases hmax h with rfl | ⟨k, n, hpos, hlt, hle, rfl⟩
  · exact Sent.endOfSession
  · exact Sent.data k n hpos hlt hle

theorem header_dataPacket {session : Bytes} (hs : session.length = kMoldSessionLen) {ms : List Bytes}
    {k n : ℕ} (hlt : n < kMoldEndOfSession) (hle : k + n ≤ ms.length)
    (hroom : ms.length + 1 < 2 ^ 64) :
    PacketHeader (dataPacket session (k + 1) ((ms.drop k).take n)) session (k + 1) n := by
  have hn : ((ms.drop k).take n).length = n := by
    rw [List.length_take, List.length_drop]; omega
  have hend : kMoldEndOfSession = 65535 := rfl
  have hseq : k + 1 < 2 ^ 64 := by omega
  have hcount : n < 2 ^ 16 := by omega
  have := header_fields hs hseq hcount (((ms.drop k).take n).flatMap block)
  unfold dataPacket
  rwa [hn]

theorem Sent.header {session p : Bytes} {ms : List Bytes} (h : Sent session ms p)
    (hs : session.length = kMoldSessionLen) (hroom : ms.length + 1 < 2 ^ 64) :
    ∃ seq count, PacketHeader p session seq count := by
  cases h with
  | data k n hpos hlt hle => exact ⟨_, _, header_dataPacket hs hlt hle hroom⟩
  | heartbeat hh => exact ⟨_, _, hh⟩
  | endOfSession => exact ⟨_, _, MoldReceiver.header_eosBytes hs hroom⟩

end Carteret
