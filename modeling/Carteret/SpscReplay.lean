import Carteret.ParserFrames
import Carteret.SpscRing

/-!
# The replay over two threads

The producer parses and publishes a pointer to each message of eleven types, then a null pointer. The consumer pops
pointers, applies each to the handler, and stops at the null one. In every interleaving the handler has been called
as by a run of the parser on one thread, up to some message; and it gets all calls when both threads keep stepping.
-/

namespace Carteret

/-- A pointer into the buffer, or the null one. -/
abbrev RingItem := Option ℕ

/-- The types that the handlers have an `on` for. -/
def BookHandler.hasOn : MsgType → Bool
  | .systemEvent | .addOrder | .addOrderMpid | .orderExecuted | .orderExecutedPrice | .orderCancel | .orderDelete
  | .orderReplace | .trade | .crossTrade | .brokenTrade => true
  | _ => false

/-- The calls that reach such a handler in a run of the parser; it has no hooks. -/
def BookHandler.handled (calls : List HandlerCall) : List HandlerCall :=
  calls.filter fun
    | .on t _ => BookHandler.hasOn t
    | _ => false

/-- What `Publisher` pushes at a call. -/
def Publisher.on : HandlerCall → Option RingItem
  | .on .systemEvent p => some p
  | .on .addOrder p => some p
  | .on .addOrderMpid p => some p
  | .on .orderExecuted p => some p
  | .on .orderExecutedPrice p => some p
  | .on .orderCancel p => some p
  | .on .orderDelete p => some p
  | .on .orderReplace p => some p
  | .on .trade p => some p
  | .on .crossTrade p => some p
  | .on .brokenTrade p => some p
  | _ => none

namespace Spsc

/-- `apply`: the switch over the type byte at `p`. -/
def apply (buf : Bytes) (p : ℕ) : List HandlerCall :=
  match buf.getD p 0 with
  | 83 => [.on .systemEvent p]
  | 65 => [.on .addOrder p]
  | 70 => [.on .addOrderMpid p]
  | 69 => [.on .orderExecuted p]
  | 67 => [.on .orderExecutedPrice p]
  | 88 => [.on .orderCancel p]
  | 68 => [.on .orderDelete p]
  | 85 => [.on .orderReplace p]
  | 80 => [.on .trade p]
  | 81 => [.on .crossTrade p]
  | 66 => [.on .brokenTrade p]
  | _ => []

/-- What the producer pushes in `run_spsc`, when its parser makes these calls. -/
def items (calls : List HandlerCall) : List RingItem := calls.filterMap Publisher.on ++ [none]

/-- The consumer breaks at the null pointer. -/
def stop (popped : List RingItem) : Bool := popped.getLast? == some none

/-- The calls that the consumer made on its handler. -/
def applied (buf : Bytes) (popped : List RingItem) : List HandlerCall :=
  popped.flatMap fun p => p.elim [] (apply buf)

/-- The two threads of `run_spsc` after a schedule. -/
def run (c : RingCapacity) (calls : List HandlerCall) (schedule : List RingAgent) : RingThreads RingItem :=
  Runs.run (RingThreads.step c stop) (RingThreads.start (items calls)) schedule

/-- The consumer is past its loop. -/
def Finished (s : RingThreads RingItem) : Prop := s.pop = .load ∧ stop s.popped = true

/-! ## The two switches agree -/

variable {buf : Bytes} {calls : List HandlerCall} {popped : List RingItem}

theorem apply_of_ofByte {t : MsgType} {p : ℕ} (h : MsgType.ofByte (buf.getD p 0) = some t) :
    apply buf p = if BookHandler.hasOn t then [.on t p] else [] := by
  unfold apply
  rw [← MsgType.byte_of_ofByte h]
  cases t <;> rfl

theorem publish_on (t : MsgType) (p : ℕ) :
    Publisher.on (.on t p) = if BookHandler.hasOn t then some (some p) else none := by
  cases t <;> rfl

/-- The pointers are applied to the calls that they were published at. -/
theorem applied_published (h : Parser.Typed buf calls) :
    applied buf (calls.filterMap Publisher.on) = BookHandler.handled calls := by
  induction calls with
  | nil => rfl
  | cons call calls ih =>
    have hcalls : Parser.Typed buf calls := fun e he =>
      h e (by rw [← List.singleton_append, List.filterMap_append]; exact List.mem_append_right _ he)
    unfold applied BookHandler.handled at ih ⊢
    rw [List.filterMap_cons, List.filter_cons]
    cases call with
    | on t p =>
      have ht : MsgType.ofByte (buf.getD p 0) = some t := h (t, p) List.mem_cons_self
      rw [publish_on]
      by_cases hon : BookHandler.hasOn t = true
      · rw [if_pos hon, if_pos hon, List.flatMap_cons, ih hcalls, Option.elim_some, apply_of_ofByte ht, if_pos hon]
        rfl
      · rw [if_neg hon, if_neg hon]
        exact ih hcalls
    | onUnknownType m => exact ih hcalls
    | onLengthMismatch m => exact ih hcalls

theorem applied_items (h : Parser.Typed buf calls) : applied buf (items calls) = BookHandler.handled calls := by
  unfold items
  rw [← applied_published h]
  unfold applied
  rw [List.flatMap_append]
  exact List.append_nil _

theorem applied_mono (h : popped <+: items calls) : applied buf popped <+: applied buf (items calls) := by
  obtain ⟨rest, hrest⟩ := h
  rw [← hrest]
  unfold applied
  rw [List.flatMap_append]
  exact List.prefix_append _ _

/-- No pointer to a message is null. -/
theorem publish_ne_null {call : HandlerCall} {item : RingItem} (h : Publisher.on call = some item) : item ≠ none := by
  cases call with
  | on t p =>
    rw [publish_on] at h
    split_ifs at h
    obtain rfl := Option.some.inj h
    exact Option.some_ne_none p
  | onUnknownType m => cases h
  | onLengthMismatch m => cases h

/-- The consumer breaks when all is popped, and not before. -/
theorem stop_iff (h : popped <+: items calls) : stop popped = true ↔ popped = items calls := by
  unfold stop
  rw [beq_iff_eq]
  rcases List.prefix_concat_iff.mp h with rfl | hp
  · exact iff_of_true List.getLast?_concat rfl
  · refine iff_of_false (fun hlast => ?_) fun heq => ?_
    · obtain ⟨call, -, hcall⟩ := List.mem_filterMap.mp (hp.subset (List.mem_of_getLast? hlast))
      exact publish_ne_null hcall rfl
    · have hle := hp.length_le
      rw [heq, items, List.length_append, List.length_singleton] at hle
      omega

/-! ## The replay -/

/-- **The split preserves the replay.** For a ring of any capacity, any values and any interleaving: what is popped
is a prefix of what was pushed, no slot is written before its last value was read, and the counters stay in order.
So the consumer makes on its handler the calls that a run on one thread makes, in order; all of them when it is
past its loop, and there it is once both threads have had enough turns. -/
theorem run_spsc_exact (c : RingCapacity) :
    (∀ (α : Type) [Inhabited α] (stop : List α → Bool) (values : List α) (schedule : List RingAgent),
      let s := Runs.run (RingThreads.step c stop) (RingThreads.start values) schedule
      s.popped <+: s.pushed ∧ s.pushed <+: values ∧
        (∀ v h, s.push = .check v h → ¬ h - s.ring.tailCache ≥ c.n →
          s.written.filter (·.1 = c.slot h) = s.read.filter (·.1 = c.slot h)) ∧
        s.ring.tail - s.ring.tailCache ≤ s.ring.headCache - s.ring.tailCache ∧
        s.ring.headCache - s.ring.tailCache ≤ s.ring.head - s.ring.tailCache ∧
        s.ring.head - s.ring.tailCache ≤ c.n) ∧
    ∀ buf, ∃ st calls, Parser.run buf = some (st, calls) ∧
      (∀ schedule, applied buf (run c calls schedule).popped <+: BookHandler.handled calls ∧
        (Finished (run c calls schedule) →
          applied buf (run c calls schedule).popped = BookHandler.handled calls)) ∧
      ∀ rounds : List (List RingAgent), (∀ r ∈ rounds, .producer ∈ r ∧ .consumer ∈ r) →
        8 * (items calls).length ≤ rounds.length → Finished (run c calls rounds.flatten) := by
  constructor
  · intro α _ stop values schedule
    obtain ⟨tc, hc, hs⟩ := RingThreads.counted_run c stop values schedule
    exact ⟨hs.popped_pushed, hs.pushed_prefix, fun v h => hs.read_before_write, hs.ordered⟩
  · intro buf
    obtain ⟨st, calls, hrun, htyped⟩ := Parser.exists_runAs buf (detectFraming buf)
    refine ⟨st, calls, hrun, fun schedule => ?_, fun rounds hboth hlen => ?_⟩
    · obtain ⟨tc, hc, hs⟩ := RingThreads.counted_run c stop (items calls) schedule
      have hpre := hs.popped_pushed.trans hs.pushed_prefix
      rw [← applied_items htyped]
      refine ⟨applied_mono hpre, fun hfinished => ?_⟩
      exact congrArg _ ((stop_iff hpre).mp hfinished.2)
    · obtain ⟨hpc, hpopped⟩ := RingThreads.popped_of_rounds c (fun vs hvs => stop_iff hvs) hboth hlen
      refine ⟨hpc, ?_⟩
      exact (stop_iff (hpopped ▸ List.prefix_rfl)).mpr hpopped

/-- An order, a frame of an unknown type, and a deletion. -/
def addAndDelete : Bytes :=
  0 :: 36 :: 65 :: List.replicate 35 0 ++ [0, 1, 126] ++ 0 :: 19 :: 68 :: List.replicate 18 0

/-- A ring of two slots, and three pointers. -/
theorem run_spsc_exact_addAndDelete :
    ∃ st calls, Parser.run addAndDelete = some (st, calls) ∧
      BookHandler.handled calls = [.on .addOrder 2, .on .orderDelete 43] ∧
      let s := run (.ofPow 1 (by decide) (by decide)) calls (List.replicate 24 [.consumer, .producer]).flatten
      Finished s ∧ applied addAndDelete s.popped = BookHandler.handled calls := by
  obtain ⟨st, calls, hrun, hall, hrounds⟩ := (run_spsc_exact (.ofPow 1 (by decide) (by decide))).2 addAndDelete
  have hcalls : (Parser.run addAndDelete).map (fun r => BookHandler.handled r.2) =
      some [.on .addOrder 2, .on .orderDelete 43] := by decide +kernel
  have hitems : (Parser.run addAndDelete).map (fun r => (items r.2).length) = some 3 := by decide +kernel
  rw [hrun] at hcalls hitems
  have hlen : (items calls).length = 3 := Option.some.inj hitems
  have hfinished := hrounds (List.replicate 24 [.consumer, .producer])
    (fun r hr => by rw [List.eq_of_mem_replicate hr]; simp) (by rw [hlen, List.length_replicate])
  exact ⟨st, calls, hrun, Option.some.inj hcalls, hfinished, (hall _).2 hfinished⟩

end Spsc

end Carteret
