import Carteret.Messages

/-!
# Parser

The framing loop with typed dispatch. A handler is seen through the calls it gets: `on` of a view type with
the message's offset, and the two hooks for rejected frames with the raw view. `loop` has fuel; with one
round for each byte of the buffer and one more it ends by its own break (`exists_runAs`).
-/

namespace Carteret

inductive ParseEnd
  | zeroLengthPrefix
  | exhausted
  | truncated
  deriving DecidableEq

/-- The status of `next` at this end. -/
def ParseEnd.status : ParseEnd → FrameStatus
  | zeroLengthPrefix => .zeroLengthPrefix
  | exhausted => .exhausted
  | truncated => .truncated

theorem ParseEnd.status_injective : Function.Injective ParseEnd.status := by
  intro a b h
  cases a <;> cases b <;> first | rfl | cases h

structure ParseStats where
  dispatched : ℕ := 0
  unknown : ℕ := 0
  mismatch : ℕ := 0
  bytes : ℕ := 0
  trailing : ℕ := 0
  stop : ParseEnd := .truncated
  framing : Framing := .lengthPrefixed
  deriving DecidableEq

/-- A call that a handler gets. -/
inductive HandlerCall
  | on (t : MsgType) (p : ℕ)
  | onUnknownType (m : MsgView)
  | onLengthMismatch (m : MsgView)
  deriving DecidableEq

namespace HandlerCall

/-- The message that a call of `on` hands over. -/
def message : HandlerCall → Option (MsgType × ℕ)
  | on t p => some (t, p)
  | _ => none

def isHook : HandlerCall → Bool
  | on _ _ => false
  | _ => true

/-- The hook for a status. -/
def hookCalls : FrameStatus → MsgView → List HandlerCall
  | .unknownType, m => [onUnknownType m]
  | .lengthMismatch, m => [onLengthMismatch m]
  | _, _ => []

end HandlerCall

/-! ## Detecting the framing -/

/-- How many messages `detect_framing` probes. -/
def kProbe : ℕ := 64

/-- The loop of `walks`, `n` messages before its end. -/
def walks (buf : Bytes) (f : Framing) : ℕ → ℕ → Bool
  | 0, _ => true
  | n + 1, pos =>
    let progress := decide (n + 1 < kProbe)
    if pos + 3 > buf.length then progress
    else
      let pfx := be16 buf pos
      let implied := kMsgLen (buf.getD (pos + 2) 0)
      if implied = 0 then false
      else
        let next := if pos + 2 + implied > buf.length then false else walks buf f n (pos + 2 + implied)
        match f with
        | .lengthPrefixed => if pfx = 0 then progress else if pfx ≠ implied then false else next
        | .zeroPrefixed => if pfx ≠ 0 then false else next

def detectFraming (buf : Bytes) : Framing :=
  if walks buf .lengthPrefixed kProbe 0 then .lengthPrefixed
  else if walks buf .zeroPrefixed kProbe 0 then .zeroPrefixed
  else .lengthPrefixed

/-! ## The loop -/

namespace Parser

/-- The switch over the type byte of the message at `p`. -/
def dispatch (buf : Bytes) (p : ℕ) : List HandlerCall :=
  match MsgType.ofByte (buf.getD p 0) with
  | some t => [.on t p]
  | none => []

/-- The end of the loop. -/
structure Rounds where
  stop : ParseEnd
  rd : FrameReader
  dispatched : ℕ
  calls : List HandlerCall

/-- A round that makes some calls and goes on. -/
def Rounds.after (calls : List HandlerCall) (dispatched : ℕ) (k : Rounds) : Rounds :=
  { k with dispatched := dispatched + k.dispatched, calls := calls ++ k.calls }

def loop : ℕ → FrameReader → MsgView → Option Rounds
  | 0, _, _ => none
  | fuel + 1, rd, m =>
    let r := rd.next m
    match r.1 with
    | .zeroLengthPrefix => some ⟨.zeroLengthPrefix, r.2.1, 0, []⟩
    | .exhausted => some ⟨.exhausted, r.2.1, 0, []⟩
    | .truncated => some ⟨.truncated, r.2.1, 0, []⟩
    | .unknownType => (loop fuel r.2.1 r.2.2).map (.after [.onUnknownType r.2.2] 0)
    | .lengthMismatch => (loop fuel r.2.1 r.2.2).map (.after [.onLengthMismatch r.2.2] 0)
    | .ok => (loop fuel r.2.1 r.2.2).map (.after (r.2.2.data.elim [] (dispatch rd.buf)) 1)

/-- What `run` returns, and the calls that the handler gets; `none` when the loop does not end. -/
def runAs (buf : Bytes) (framing : Framing) : Option (ParseStats × List HandlerCall) :=
  (loop (buf.length + 1) { buf := buf, framing := framing } {}).map fun k =>
    ({ dispatched := k.dispatched
       unknown := k.rd.unknown
       mismatch := k.rd.mismatch
       bytes := k.rd.pos
       trailing := buf.length - k.rd.pos
       stop := k.stop
       framing := framing }, k.calls)

def run (buf : Bytes) : Option (ParseStats × List HandlerCall) := runAs buf (detectFraming buf)

/-! ## One round -/

variable {fuel : ℕ} {rd rd' : FrameReader} {m m' : MsgView} {k : Rounds}

/-- The calls of a round after which the loop goes on. -/
def roundCalls (buf : Bytes) (st : FrameStatus) (m : MsgView) : List HandlerCall :=
  if st = .ok then m.data.elim [] (dispatch buf) else HandlerCall.hookCalls st m

theorem loop_continue (h : (rd.next m).1.continues = true) :
    loop (fuel + 1) rd m = (loop fuel (rd.next m).2.1 (rd.next m).2.2).map
      (.after (roundCalls rd.buf (rd.next m).1 (rd.next m).2.2) (if (rd.next m).1 = .ok then 1 else 0)) := by
  conv_lhs => rw [loop]
  cases hst : (rd.next m).1 with
  | ok => rfl
  | unknownType => rfl
  | lengthMismatch => rfl
  | zeroLengthPrefix => rw [hst] at h; cases h
  | exhausted => rw [hst] at h; cases h
  | truncated => rw [hst] at h; cases h

/-- The last round makes no call and leaves the reader as `next` does. -/
theorem loop_stop (fuel : ℕ) (h : (rd.next m).1.continues = false) :
    ∃ stop, loop (fuel + 1) rd m = some ⟨stop, (rd.next m).2.1, 0, []⟩ ∧
      (rd.next m).1 = stop.status := by
  rw [loop]
  cases hst : (rd.next m).1 with
  | ok => rw [hst] at h; cases h
  | unknownType => rw [hst] at h; cases h
  | lengthMismatch => rw [hst] at h; cases h
  | zeroLengthPrefix => exact ⟨_, rfl, rfl⟩
  | exhausted => exact ⟨_, rfl, rfl⟩
  | truncated => exact ⟨_, rfl, rfl⟩

end Parser

end Carteret
