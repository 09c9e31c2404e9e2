import Carteret.Wire

/-!
# MoldUDP64 packetizer

`MoldPacketizer.packetize` splits a framed buffer into packets, each with the sequence number of its
first message, and closes the session with a packet whose count is `0xFFFF`.

1. `packStep` is the body of the reading loop, `flush` the local lambda that emits the open packet.
2. A packet is characterised by its first sequence number and its messages (`dataPacket`); `Packing.Inv`
   says what the packets emitted so far and the open one hold.
3. `packetize_eq`: the packets are the accepted frames cut into consecutive groups, all full but the
   last, followed by the closing packet.
-/

namespace Carteret

def kMoldSessionLen : ℕ := 10

def kMoldHeaderLen : ℕ := 20

def kMoldEndOfSession : ℕ := 0xFFFF

/-- The session field is padded to its width; zero messages per packet is taken as one. -/
structure MoldPacketizer where
  session : Bytes
  session_length : session.length = kMoldSessionLen
  maxMsgs : ℕ
  maxMsgs_pos : 0 < maxMsgs
  maxMsgs_lt : maxMsgs < 2 ^ 16
  nextSeq : ℕ := 1

def MoldPacketizer.new (session : Bytes) (maxMessagesPerPacket : UInt16) : MoldPacketizer where
  session := fillAlpha kMoldSessionLen session
  session_length := fillAlpha_length _ _
  maxMsgs := if maxMessagesPerPacket.toNat ≠ 0 then maxMessagesPerPacket.toNat else 1
  maxMsgs_pos := by split <;> omega
  maxMsgs_lt := by have := maxMessagesPerPacket.toNat_lt; split <;> omega

/-- The eight octets of a sequence number. -/
def be64Bytes (seq : ℕ) : Bytes := (List.range 8).map fun i => UInt8.ofNat (seq >>> (56 - 8 * i))

def headerBytes (session : Bytes) (seq : ℕ) : Bytes := session ++ be64Bytes seq ++ [0, 0]

/-- The locals of `packetize`: packets emitted, the open packet, its message count, `next_seq_`. -/
structure Packing where
  out : List Bytes := []
  packet : Bytes := []
  inPacket : ℕ := 0
  nextSeq : ℕ

/-- `packet[18] = count >> 8; packet[19] = count`. -/
def setCount (packet : Bytes) (count : ℕ) : Bytes :=
  (packet.set 18 (UInt8.ofNat (count >>> 8))).set 19 (UInt8.ofNat count)

def Packing.flush (st : Packing) : Packing :=
  if st.inPacket = 0 then st
  else
    { out := st.out ++ [setCount st.packet st.inPacket]
      packet := []
      inPacket := 0
      nextSeq := (st.nextSeq + st.inPacket) % 2 ^ 64 }

namespace MoldPacketizer

/-- The body of the loop for an accepted frame. -/
def push (pk : MoldPacketizer) (st : Packing) (len : ℕ) (data : Bytes) : Packing :=
  let packet := if st.inPacket = 0 then headerBytes pk.session st.nextSeq else st.packet
  let st :=
    { st with packet := packet ++ be16Bytes len ++ data, inPacket := (st.inPacket + 1) % 2 ^ 16 }
  if st.inPacket = pk.maxMsgs then st.flush else st

/-- The body of the loop: bad frames are skipped, and nothing is done on the result that ends it. -/
def packStep (pk : MoldPacketizer) (framed : Bytes) (st : Packing) (r : FrameStatus × MsgView) :
    Packing :=
  match r.1 with
  | .ok => pk.push st r.2.len (r.2.bytes framed)
  | _ => st

/-- The end-of-session packet: count `0xFFFF`, no message blocks. -/
def eosBytes (session : Bytes) (seq : ℕ) : Bytes :=
  ((headerBytes session seq).set 18 0xFF).set 19 0xFF

def packetize (pk : MoldPacketizer) (framed : Bytes) : List Bytes × MoldPacketizer :=
  let st := (readFrames framed .lengthPrefixed).foldl (pk.packStep framed) { nextSeq := pk.nextSeq }
  let st := st.flush
  (st.out ++ [eosBytes pk.session st.nextSeq], { pk with nextSeq := st.nextSeq })

end MoldPacketizer

/-! ## Packets by content -/

/-- A message block: its length and its payload. -/
def block (m : Bytes) : Bytes := be16Bytes m.length ++ m

/-- The packet that carries the messages `ms`, the first with sequence `seq`. -/
def dataPacket (session : Bytes) (seq : ℕ) (ms : List Bytes) : Bytes :=
  session ++ be64Bytes seq ++ be16Bytes ms.length ++ ms.flatMap block

/-- The packets of consecutive groups of messages from sequence `seq` on. -/
def dataPackets (session : Bytes) : ℕ → List (List Bytes) → List Bytes
  | _, [] => []
  | seq, g :: gs => dataPacket session seq g :: dataPackets session (seq + g.length) gs

theorem dataPackets_append (session : Bytes) (seq : ℕ) (gs hs : List (List Bytes)) :
    dataPackets session seq (gs ++ hs) =
      dataPackets session seq gs ++ dataPackets session (seq + gs.flatten.length) hs := by
  induction gs generalizing seq with
  | nil => simp [dataPackets]
  | cons g gs ih => simp [dataPackets, ih, Nat.add_assoc]

@[simp] theorem be64Bytes_length (seq : ℕ) : (be64Bytes seq).length = 8 := by simp [be64Bytes]

/-- Writing the count into an open packet gives the packet of its messages. -/
theorem setCount_header {session : Bytes} (h : session.length = kMoldSessionLen) (seq count : ℕ)
    (body : Bytes) :
    setCount (headerBytes session seq ++ body) count =
      session ++ be64Bytes seq ++ be16Bytes count ++ body := by
  have hlen : (session ++ be64Bytes seq).length = 18 := by simp [h, kMoldSessionLen]
  unfold setCount headerBytes be16Bytes
  generalize session ++ be64Bytes seq = pre at hlen
  rw [List.append_assoc, List.set_append_right _ _ (by omega), hlen,
    List.set_append_right _ _ (by omega), hlen]
  simp

theorem eosBytes_eq {session : Bytes} (h : session.length = kMoldSessionLen) (seq : ℕ) :
    MoldPacketizer.eosBytes session seq =
      session ++ be64Bytes seq ++ be16Bytes kMoldEndOfSession := by
  have := setCount_header h seq kMoldEndOfSession []
  rwa [List.append_nil, List.append_nil] at this

/-! ## What the loop emits -/

/-- After the messages `gs.flatten ++ g`: `gs` are the full packets emitted, `g` the open one. -/
structure Packing.Inv (pk : MoldPacketizer) (st : Packing) (gs : List (List Bytes))
    (g : List Bytes) : Prop where
  out_eq : st.out = dataPackets pk.session pk.nextSeq gs
  full : ∀ h ∈ gs, h.length = pk.maxMsgs
  inPacket_eq : st.inPacket = g.length
  open_lt : g.length < pk.maxMsgs
  packet_eq : g ≠ [] → st.packet = headerBytes pk.session st.nextSeq ++ g.flatMap block
  nextSeq_eq : st.nextSeq = pk.nextSeq + gs.flatten.length

namespace MoldPacketizer

variable {pk : MoldPacketizer} {st : Packing} {gs : List (List Bytes)} {g : List Bytes}

theorem inv_start (pk : MoldPacketizer) : Packing.Inv pk { nextSeq := pk.nextSeq } [] [] :=
  ⟨rfl, by simp, rfl, pk.maxMsgs_pos, by simp, rfl⟩

/-- The open packet with one more message. -/
theorem push_packet (h : Packing.Inv pk st gs g) (b : Bytes) :
    (if st.inPacket = 0 then headerBytes pk.session st.nextSeq else st.packet) ++
        be16Bytes b.length ++ b =
      headerBytes pk.session st.nextSeq ++ (g ++ [b]).flatMap block := by
  by_cases hg : g = []
  · rw [if_pos (by rw [h.inPacket_eq, hg]; rfl), hg]
    simp [block]
  · have hne : st.inPacket ≠ 0 := by
      rw [h.inPacket_eq]; exact fun h0 => hg (List.length_eq_zero_iff.mp h0)
    rw [if_neg hne, h.packet_eq hg]
    simp [block]

/-- Emitting a packet of messages `g` extends the full ones. -/
theorem flush_eq (hout : st.out = dataPackets pk.session pk.nextSeq gs)
    (hin : st.inPacket = g.length) (hg : g ≠ [])
    (hp : st.packet = headerBytes pk.session st.nextSeq ++ g.flatMap block)
    (hseq : st.nextSeq = pk.nextSeq + gs.flatten.length) :
    st.flush =
      { out := dataPackets pk.session pk.nextSeq (gs ++ [g])
        packet := []
        inPacket := 0
        nextSeq := (st.nextSeq + g.length) % 2 ^ 64 } := by
  have hne : st.inPacket ≠ 0 := by
    rw [hin]; exact fun h0 => hg (List.length_eq_zero_iff.mp h0)
  unfold Packing.flush
  rw [if_neg hne, hout, hp, hin, setCount_header pk.session_length, dataPackets_append, hseq]
  rfl

theorem inv_push (h : Packing.Inv pk st gs g) (b : Bytes)
    (hroom : pk.nextSeq + gs.flatten.length + g.length + 1 < 2 ^ 64) :
    ∃ gs' g', gs'.flatten ++ g' = gs.flatten ++ g ++ [b] ∧
      Packing.Inv pk (pk.push st b.length b) gs' g' := by
  have hlt := pk.maxMsgs_lt
  have hopen := h.open_lt
  have hcount : (st.inPacket + 1) % 2 ^ 16 = (g ++ [b]).length := by
    rw [h.inPacket_eq, List.length_append, List.length_singleton, Nat.mod_eq_of_lt (by omega)]
  unfold push
  simp only [push_packet h b, hcount]
  by_cases hfull : (g ++ [b]).length = pk.maxMsgs
  · rw [if_pos hfull]
    refine ⟨gs ++ [g ++ [b]], [], by simp, ?_⟩
    have hne : g ++ [b] ≠ [] := by simp
    let st' : Packing :=
      { st with
        packet := headerBytes pk.session st.nextSeq ++ (g ++ [b]).flatMap block
        inPacket := (g ++ [b]).length }
    have hseq : st'.nextSeq = st.nextSeq := rfl
    have hflush : st'.flush = _ := flush_eq h.out_eq rfl hne rfl h.nextSeq_eq
    rw [hflush]
    refine ⟨rfl, ?_, rfl, pk.maxMsgs_pos, by simp, ?_⟩
    · intro x hx
      rcases List.mem_append.mp hx with hx | hx
      · exact h.full x hx
      · rw [List.mem_singleton.mp hx]; exact hfull
    · have := h.nextSeq_eq
      simp only [List.flatten_append, List.length_append, List.flatten_cons, List.flatten_nil,
        List.length_nil, List.length_singleton] at *
      rw [Nat.mod_eq_of_lt (by omega)]
      omega
  · rw [if_neg hfull]
    refine ⟨gs, g ++ [b], by simp, h.out_eq, h.full, rfl, ?_, fun _ => rfl, h.nextSeq_eq⟩
    simp only [List.length_append, List.length_singleton] at *
    omega

theorem inv_foldl (bs : List Bytes) : ∀ {st : Packing} {gs : List (List Bytes)} {g : List Bytes},
    Packing.Inv pk st gs g →
    pk.nextSeq + gs.flatten.length + g.length + bs.length < 2 ^ 64 →
      ∃ gs' g', gs'.flatten ++ g' = gs.flatten ++ g ++ bs ∧
        Packing.Inv pk (bs.foldl (fun st b => pk.push st b.length b) st) gs' g' := by
  induction bs with
  | nil => intro st gs g h _; exact ⟨gs, g, by simp, h⟩
  | cons b bs ih =>
    intro st gs g h hroom
    rw [List.length_cons] at hroom
    obtain ⟨gs₁, g₁, heq₁, h₁⟩ := inv_push h b (by omega)
    have hlen := congrArg List.length heq₁
    simp only [List.length_append, List.length_singleton] at hlen
    obtain ⟨gs₂, g₂, heq₂, h₂⟩ := ih h₁ (by omega)
    exact ⟨gs₂, g₂, by rw [heq₂, heq₁]; simp, h₂⟩

/-- The loop over the reader's results is the loop over the accepted payloads. -/
theorem foldl_packStep (pk : MoldPacketizer) (framed : Bytes) (rs : List (FrameStatus × MsgView))
    (hlen : ∀ r ∈ rs, r.1 = .ok → (r.2.bytes framed).length = r.2.len) (st : Packing) :
    rs.foldl (pk.packStep framed) st =
      (rs.filterMap (okPayload framed)).foldl (fun st b => pk.push st b.length b) st := by
  induction rs generalizing st with
  | nil => rfl
  | cons r rs ih =>
    have ih' := ih (fun q hq => hlen q (List.mem_cons_of_mem _ hq))
    rw [List.foldl_cons, List.filterMap_cons]
    by_cases hok : r.1 = .ok
    · have hpay : okPayload framed r = some (r.2.bytes framed) := if_pos hok
      have hstep : pk.packStep framed st r = pk.push st r.2.len (r.2.bytes framed) := by
        unfold packStep; rw [hok]
      rw [hpay, hstep, ih', List.foldl_cons, hlen r (by simp) hok]
    · have hpay : okPayload framed r = none := if_neg hok
      have hstep : pk.packStep framed st r = st := by
        unfold packStep
        cases h : r.1 <;> first | rfl | exact absurd h hok
      rw [hpay, hstep, ih']

/-- What a session looks like on the wire: the groups are full but for the last, and every message
of the stream is in one of them, in order. -/
structure Groups (pk : MoldPacketizer) (ms : List Bytes) (gs : List (List Bytes)) : Prop where
  flatten_eq : gs.flatten = ms
  pos : ∀ g ∈ gs, 0 < g.length
  le : ∀ g ∈ gs, g.length ≤ pk.maxMsgs
  first_full : ∀ g rest, gs = g :: rest → pk.maxMsgs ≤ ms.length → g.length = pk.maxMsgs

/-- **The packets of a session.** They carry the accepted frames in consecutive groups; the closing
packet carries the sequence number after the last message. -/
theorem packetize_eq (pk : MoldPacketizer) (framed : Bytes)
    (hroom : pk.nextSeq + (okFrames framed).length < 2 ^ 64) :
    ∃ gs, Groups pk (okFrames framed) gs ∧
      (pk.packetize framed).1 = dataPackets pk.session pk.nextSeq gs ++
        [eosBytes pk.session (pk.nextSeq + (okFrames framed).length)] := by
  have hsize : ∀ r ∈ readFrames framed .lengthPrefixed, r.1 = .ok →
      (r.2.bytes framed).length = r.2.len :=
    fun r hr hok => (FrameReader.drain_ok _ _ _ (Nat.zero_le _) r hr hok).1
  have hfold := foldl_packStep pk framed _ hsize { nextSeq := pk.nextSeq }
  obtain ⟨gs, g, heq, h⟩ := inv_foldl (okFrames framed) (inv_start pk) (by simpa using hroom)
  have hlen := congrArg List.length heq
  simp only [List.flatten_nil, List.length_append, List.length_nil, Nat.zero_add] at hlen
  simp only [List.flatten_nil, List.nil_append] at heq
  have hopen := h.open_lt
  have hout : (pk.packetize framed).1 =
      (((okFrames framed).foldl (fun st b => pk.push st b.length b)
        { nextSeq := pk.nextSeq }).flush).out ++
      [eosBytes pk.session (((okFrames framed).foldl (fun st b => pk.push st b.length b)
        { nextSeq := pk.nextSeq }).flush).nextSeq] := by
    unfold packetize
    rw [hfold]
    rfl
  rw [hout]
  generalize (okFrames framed).foldl (fun st b => pk.push st b.length b)
    { nextSeq := pk.nextSeq } = st at h ⊢
  by_cases hg : g = []
  · have h0 : st.inPacket = 0 := by rw [h.inPacket_eq, hg]; rfl
    have hflush : st.flush = st := by unfold Packing.flush; rw [if_pos h0]
    rw [hg, List.append_nil] at heq
    rw [hg, List.length_nil, Nat.add_zero] at hlen
    refine ⟨gs, ⟨heq, ?_, fun x hx => (h.full x hx).le, ?_⟩, ?_⟩
    · intro x hx; rw [h.full x hx]; exact pk.maxMsgs_pos
    · rintro x rest rfl _; exact h.full x (by simp)
    · rw [hflush, h.out_eq, h.nextSeq_eq, hlen]
  · rw [flush_eq h.out_eq h.inPacket_eq hg (h.packet_eq hg) h.nextSeq_eq]
    have hpos := List.length_pos_iff.mpr hg
    refine ⟨gs ++ [g], ⟨by simpa using heq, ?_, ?_, ?_⟩, ?_⟩
    · intro x hx
      rcases List.mem_append.mp hx with hx | hx
      · rw [h.full x hx]; exact pk.maxMsgs_pos
      · rw [List.mem_singleton.mp hx]; exact hpos
    · intro x hx
      rcases List.mem_append.mp hx with hx | hx
      · exact (h.full x hx).le
      · rw [List.mem_singleton.mp hx]; exact hopen.le
    · intro x rest hx hmax
      cases gs with
      | nil => simp only [List.flatten_nil, List.length_nil] at hlen; omega
      | cons y ys =>
        obtain ⟨rfl, -⟩ : y = x ∧ _ := by simpa using hx
        exact h.full y (by simp)
    · have hseq := h.nextSeq_eq
      rw [Nat.mod_eq_of_lt (by omega), show st.nextSeq + g.length =
        pk.nextSeq + (okFrames framed).length by omega]

end MoldPacketizer

end Carteret
