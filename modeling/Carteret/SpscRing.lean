import Carteret.Lib.Runs

/-!
# The single-producer single-consumer ring

One producer makes a list of `push` calls and one consumer makes `pop` calls on a ring of `2 ^ k` slots; the
steps of the two are taken in any order. Each load and store of an index and each access of a slot is a step,
with the comparison before it, which reads private words only.

1. The capacity, the ring, and the two threads.
2. Indices modulo `2 ^ 64` and their slots.
3. The invariant, kept by every step (`Indexed.producerStep`, `Indexed.consumerStep`).
4. What it says of every state: `popped_pushed`, `read_before_write`, `ordered`.
5. A consumer that stops when it has all values gets them (`popped_of_rounds`).
-/

namespace Carteret

/-- A capacity that the static assertion accepts. -/
structure RingCapacity where
  n : UInt64
  two_le : 2 ≤ n
  mask : n &&& (n - 1) = 0

structure SpscRing (α : Type*) where
  head : UInt64 := 0
  tailCache : UInt64 := 0
  tail : UInt64 := 0
  headCache : UInt64 := 0
  buf : UInt64 → α

/-- Where the producer is: between two calls of `push`, at the comparison with the head loaded, or past the write
of the slot. -/
inductive PushPc (α : Type*)
  | load
  | check (v : α) (h : UInt64)
  | store (v : α) (h : UInt64)

/-- Where the consumer is. -/
inductive PopPc (α : Type*)
  | load
  | check (t : UInt64)
  | store (v : α) (t : UInt64)

/-- The ring and its two threads: the calls of `push` still to make, and the history. `pushed` and `popped` have the
values of the calls that returned; `written` and `read` have the accesses of slots. -/
structure RingThreads (α : Type*) where
  ring : SpscRing α
  push : PushPc α := .load
  pop : PopPc α := .load
  todo : List α
  pushed : List α := []
  popped : List α := []
  written : List (UInt64 × α) := []
  read : List (UInt64 × α) := []

inductive RingAgent
  | producer
  | consumer
  deriving DecidableEq

/-- The slot of an index. -/
def RingCapacity.slot (c : RingCapacity) (i : UInt64) : UInt64 := i &&& (c.n - 1)

namespace RingThreads

variable {α : Type*}

/-- A step of `push`. -/
def producerStep (c : RingCapacity) (s : RingThreads α) : RingThreads α :=
  match s.push with
  | .load =>
    match s.todo with
    | [] => s
    | v :: todo => { s with push := .check v s.ring.head, todo := todo }
  | .check v h =>
    if h - s.ring.tailCache ≥ c.n then { s with ring := { s.ring with tailCache := s.ring.tail } }
    else
      { s with
        ring := { s.ring with buf := Function.update s.ring.buf (c.slot h) v }
        push := .store v h
        written := s.written ++ [(c.slot h, v)] }
  | .store v h => { s with ring := { s.ring with head := h + 1 }, push := .load, pushed := s.pushed ++ [v] }

/-- A step of `pop`. Between two calls the consumer stops when `stop` says so of the values it has. -/
def consumerStep (c : RingCapacity) (stop : List α → Bool) (s : RingThreads α) : RingThreads α :=
  match s.pop with
  | .load => if stop s.popped then s else { s with pop := .check s.ring.tail }
  | .check t =>
    if t = s.ring.headCache then { s with ring := { s.ring with headCache := s.ring.head } }
    else
      { s with
        pop := .store (s.ring.buf (c.slot t)) t
        read := s.read ++ [(c.slot t, s.ring.buf (c.slot t))] }
  | .store v t => { s with ring := { s.ring with tail := t + 1 }, pop := .load, popped := s.popped ++ [v] }

def step (c : RingCapacity) (stop : List α → Bool) (s : RingThreads α) : RingAgent → RingThreads α
  | .producer => s.producerStep c
  | .consumer => s.consumerStep c stop

/-- An empty ring, and the calls of `push` to make. -/
def start [Inhabited α] (values : List α) : RingThreads α := { ring := { buf := fun _ => default }, todo := values }

end RingThreads

/-! ## Indices and slots -/

namespace RingCapacity

variable {c : RingCapacity} {i j : ℕ}

theorem two_le_toNat (c : RingCapacity) : 2 ≤ c.n.toNat := UInt64.le_iff_toNat_le.mp c.two_le

/-- The capacity is a power of two. -/
theorem exists_two_pow (c : RingCapacity) : ∃ k, c.n.toNat = 2 ^ k := by
  have hn := c.two_le_toNat
  have hmask : c.n.toNat &&& (c.n.toNat - 1) = 0 := by
    have h := congrArg UInt64.toNat c.mask
    rwa [UInt64.toNat_and, UInt64.toNat_sub_of_le _ _ (UInt64.le_iff_toNat_le.mpr (by
      rw [UInt64.toNat_one]; omega)), UInt64.toNat_one, UInt64.toNat_zero] at h
  exact (Nat.and_sub_one_eq_zero_iff_isPowerOfTwo (by omega)).mp hmask

/-- Every power of two from 2 on that a word can hold is a capacity. -/
def ofPow (k : ℕ) (hpos : 0 < k) (hlt : k < 64) : RingCapacity where
  n := .ofNat (2 ^ k)
  two_le := by
    have hk : 2 ^ k < 2 ^ 64 := Nat.pow_lt_pow_right (by decide) hlt
    rw [UInt64.le_iff_toNat_le, UInt64.toNat_ofNat_of_lt' hk]
    exact Nat.le_self_pow (by omega) 2
  mask := by
    have hk : 2 ^ k < 2 ^ 64 := Nat.pow_lt_pow_right (by decide) hlt
    have hone : 1 ≤ 2 ^ k := Nat.one_le_two_pow
    rw [← UInt64.toNat_inj, UInt64.toNat_and, UInt64.toNat_sub_of_le _ _ (UInt64.le_iff_toNat_le.mpr (by
      rw [UInt64.toNat_one, UInt64.toNat_ofNat_of_lt' hk]; exact hone)), UInt64.toNat_one,
      UInt64.toNat_ofNat_of_lt' hk, UInt64.toNat_zero, Nat.and_sub_one_eq_zero_iff_isPowerOfTwo (by omega)]
    exact ⟨k, rfl⟩

theorem toNat_slot (c : RingCapacity) (i : ℕ) : (c.slot (.ofNat i)).toNat = i % c.n.toNat := by
  obtain ⟨k, hk⟩ := c.exists_two_pow
  have hn := c.two_le_toNat
  have hlt : c.n.toNat < 2 ^ 64 := c.n.toNat_lt
  have hk64 : k ≤ 64 := (Nat.pow_le_pow_iff_right (by decide)).mp (hk ▸ hlt.le)
  unfold slot
  rw [UInt64.toNat_and, UInt64.toNat_sub_of_le _ _ (UInt64.le_iff_toNat_le.mpr (by
    rw [UInt64.toNat_one]; omega)), UInt64.toNat_one, hk, Nat.and_two_pow_sub_one_eq_mod, UInt64.toNat_ofNat']
  exact Nat.mod_mod_of_dvd _ (Nat.pow_dvd_pow 2 hk64)

theorem slot_lt (c : RingCapacity) (i : ℕ) : c.slot (.ofNat i) < c.n := by
  rw [UInt64.lt_iff_toNat_lt, c.toNat_slot]
  exact Nat.mod_lt _ (by have := c.two_le_toNat; omega)

/-- Two indices less than a turn apart have different slots. -/
theorem slot_ne (hij : i < j) (hj : j < i + c.n.toNat) : c.slot (.ofNat i) ≠ c.slot (.ofNat j) := by
  intro h
  have hmod : i % c.n.toNat = j % c.n.toNat := by rw [← c.toNat_slot, ← c.toNat_slot, h]
  have hdvd := (Nat.modEq_iff_dvd' hij.le).mp hmod
  have hle := Nat.le_of_dvd (by omega) hdvd
  omega

/-- The distance of two counts that are not further apart than the capacity. -/
theorem toNat_distance (hij : i ≤ j) (hj : j ≤ i + c.n.toNat) :
    (UInt64.ofNat j - UInt64.ofNat i).toNat = j - i := by
  have hlt : c.n.toNat < 2 ^ 64 := c.n.toNat_lt
  obtain ⟨d, rfl⟩ := Nat.exists_eq_add_of_le hij
  rw [UInt64.ofNat_add, add_comm, add_sub_cancel_right, UInt64.toNat_ofNat_of_lt' (by
    change d < 2 ^ 64; omega), Nat.add_sub_cancel_left]

theorem ofNat_inj_of_le (hij : i ≤ j) (hj : j ≤ i + c.n.toNat) : UInt64.ofNat i = .ofNat j ↔ i = j := by
  refine ⟨fun h => ?_, congrArg _⟩
  have hd := toNat_distance hij hj
  rw [h, sub_self, UInt64.toNat_zero] at hd
  omega

end RingCapacity

/-! ## The invariant -/

section Invariant

variable {α : Type*}

/-- The values that are written and whose `push` has not returned. -/
@[simp] def PushPc.stored : PushPc α → List α
  | .load | .check _ _ => []
  | .store v _ => [v]

/-- The values of the call of `push` in progress. -/
@[simp] def PushPc.inFlight : PushPc α → List α
  | .load => []
  | .check v _ | .store v _ => [v]

/-- The index that `push` loaded. -/
@[simp] def PushPc.index : PushPc α → Option UInt64
  | .load => none
  | .check _ h | .store _ h => some h

/-- The values that are read and whose `pop` has not returned. -/
@[simp] def PopPc.held : PopPc α → List α
  | .load | .check _ => []
  | .store v _ => [v]

/-- The index that `pop` loaded. -/
@[simp] def PopPc.index : PopPc α → Option UInt64
  | .load => none
  | .check t | .store _ t => some t

/-- The accesses of the slots of the indices from 0, in order. -/
def RingCapacity.slotted (c : RingCapacity) (vs : List α) : List (UInt64 × α) :=
  vs.mapIdx fun i v => (c.slot (.ofNat i), v)

theorem RingCapacity.slotted_concat (c : RingCapacity) (vs : List α) (v : α) :
    c.slotted (vs ++ [v]) = c.slotted vs ++ [(c.slot (.ofNat vs.length), v)] := List.mapIdx_concat

namespace RingThreads

/-- The words are counts modulo `2 ^ 64`: `head` and `tail` of the calls that returned, and the private copies of
counts `tc` and `hc` between them. -/
structure Indexed (c : RingCapacity) (stop : List α → Bool) (values : List α) (tc hc : ℕ) (s : RingThreads α) :
    Prop where
  head : s.ring.head = .ofNat s.pushed.length
  tail : s.ring.tail = .ofNat s.popped.length
  tailCache : s.ring.tailCache = .ofNat tc
  headCache : s.ring.headCache = .ofNat hc
  tc_le : tc ≤ s.popped.length
  le_hc : (s.popped ++ s.pop.held).length ≤ hc
  hc_le : hc ≤ s.pushed.length
  room : (s.pushed ++ s.push.stored).length ≤ tc + c.n.toNat
  push_index : ∀ h ∈ s.push.index, h = .ofNat s.pushed.length
  pop_index : ∀ t ∈ s.pop.index, t = .ofNat s.popped.length
  goes_on : s.pop.index.isSome → stop s.popped = false
  conserved : s.pushed ++ s.push.inFlight ++ s.todo = values
  popped_prefix : s.popped ++ s.pop.held <+: s.pushed
  written : s.written = c.slotted (s.pushed ++ s.push.stored)
  read : s.read = c.slotted (s.popped ++ s.pop.held)
  contents : ∀ j v, s.popped.length ≤ j → (s.pushed ++ s.push.stored)[j]? = some v →
    s.ring.buf (c.slot (.ofNat j)) = v

variable {c : RingCapacity} {stop : List α → Bool} {values : List α} {tc hc : ℕ} {s : RingThreads α}

theorem indexed_start [Inhabited α] (c : RingCapacity) (stop : List α → Bool) (values : List α) :
    Indexed c stop values 0 0 (start values) where
  head := rfl
  tail := rfl
  tailCache := rfl
  headCache := rfl
  tc_le := le_rfl
  le_hc := le_rfl
  hc_le := le_rfl
  room := Nat.zero_le _
  push_index _ h := nomatch h
  pop_index _ h := nomatch h
  goes_on h := nomatch h
  conserved := rfl
  popped_prefix := List.prefix_rfl
  written := rfl
  read := rfl
  contents _ _ _ h := by cases h

/-- The comparison of `push`, on counts. -/
theorem Indexed.full_iff (hs : Indexed c stop values tc hc s) {h : UInt64} (hh : h = .ofNat s.pushed.length) :
    h - s.ring.tailCache ≥ c.n ↔ s.pushed.length = tc + c.n.toNat := by
  have hroom := hs.room
  have horder := hs.tc_le.trans ((Nat.le_add_right _ _).trans (List.length_append ▸ hs.le_hc) |>.trans hs.hc_le)
  rw [List.length_append] at hroom
  rw [ge_iff_le, UInt64.le_iff_toNat_le, hh, hs.tailCache, @RingCapacity.toNat_distance c _ _ horder (by omega)]
  omega

/-- The comparison of `pop`, on counts. -/
theorem Indexed.empty_iff (hs : Indexed c stop values tc hc s) {t : UInt64} (ht : t = .ofNat s.popped.length) :
    t = s.ring.headCache ↔ s.popped.length = hc := by
  have hroom := hs.room
  have hle := hs.le_hc
  have htc := hs.tc_le
  have hhc := hs.hc_le
  rw [List.length_append] at hroom hle
  rw [ht, hs.headCache, @RingCapacity.ofNat_inj_of_le c _ _ (by omega) (by omega)]

/-- The write of a slot leaves the unread values. -/
theorem Indexed.contents_write (hs : Indexed c stop values tc hc s) (hroom : s.pushed.length < tc + c.n.toNat)
    (hstored : s.push.stored = []) (v : α) : ∀ j w, s.popped.length ≤ j → (s.pushed ++ [v])[j]? = some w →
      Function.update s.ring.buf (c.slot (.ofNat s.pushed.length)) v (c.slot (.ofNat j)) = w := by
  intro j w hj hw
  have hlt : j < s.pushed.length + 1 := by
    have h := (List.getElem?_eq_some_iff.mp hw).1
    rwa [List.length_append] at h
  rcases Nat.lt_succ_iff_lt_or_eq.mp hlt with hlt | rfl
  · have htc := hs.tc_le
    rw [Function.update_of_ne (RingCapacity.slot_ne hlt (by omega))]
    rw [List.getElem?_append_left hlt] at hw
    refine hs.contents j w hj ?_
    rw [hstored, List.append_nil]
    exact hw
  · rw [List.getElem?_concat_length] at hw
    rw [Function.update_self]
    exact Option.some.inj hw

theorem Indexed.producerStep (hs : Indexed c stop values tc hc s) :
    ∃ tc', Indexed c stop values tc' hc (s.producerStep c) := by
  unfold RingThreads.producerStep
  split
  · next hpc =>
    split
    · exact ⟨tc, hs⟩
    · next v todo htodo =>
      refine ⟨tc, { hs with room := ?_, push_index := ?_, conserved := ?_, written := ?_, contents := ?_ }⟩
      · simpa [hpc] using hs.room
      · rintro h ⟨⟩
        exact hs.head
      · simpa [hpc, htodo] using hs.conserved
      · simpa [hpc] using hs.written
      · simpa [hpc] using hs.contents
  · next v h hpc =>
    have hh := hs.push_index h (by rw [hpc]; rfl)
    have hstored : s.push.stored = [] := by rw [hpc]; rfl
    have hroom := hs.room
    have hwritten := hs.written
    rw [hstored, List.append_nil] at hroom hwritten
    split
    · have htc := hs.tc_le
      refine ⟨s.popped.length, { hs with tailCache := hs.tail, tc_le := le_rfl, room := ?_ }⟩
      rw [hstored, List.append_nil]
      change s.pushed.length ≤ s.popped.length + c.n.toNat
      omega
    · next hfull =>
      rw [hs.full_iff hh] at hfull
      subst hh
      refine ⟨tc, { hs with
        room := ?_, push_index := ?_, conserved := ?_, written := ?_
        contents := hs.contents_write (by omega) hstored v }⟩
      · change (s.pushed ++ [v]).length ≤ _
        rw [List.length_append, List.length_singleton]
        omega
      · rintro h ⟨⟩
        rfl
      · simpa [hpc] using hs.conserved
      · change s.written ++ _ = c.slotted (s.pushed ++ [v])
        rw [c.slotted_concat, hwritten]
  · next v h hpc =>
    have hh := hs.push_index h (by rw [hpc]; rfl)
    refine ⟨tc, { hs with
      head := ?_, hc_le := ?_, room := ?_, push_index := ?_, conserved := ?_, popped_prefix := ?_
      written := ?_, contents := ?_ }⟩
    · change h + 1 = .ofNat (s.pushed ++ [v]).length
      rw [hh, List.length_append, UInt64.ofNat_add]
      rfl
    · exact hs.hc_le.trans (by simp)
    · simpa [hpc] using hs.room
    · exact fun _ h => nomatch h
    · simpa [hpc] using hs.conserved
    · exact hs.popped_prefix.trans (List.prefix_append _ _)
    · simpa [hpc] using hs.written
    · simpa [hpc] using hs.contents

theorem Indexed.consumerStep (hs : Indexed c stop values tc hc s) :
    ∃ hc', Indexed c stop values tc hc' (s.consumerStep c stop) := by
  unfold RingThreads.consumerStep
  split
  · next hpc =>
    split
    · exact ⟨hc, hs⟩
    · next hstop =>
      refine ⟨hc, { hs with le_hc := ?_, pop_index := ?_, goes_on := ?_, popped_prefix := ?_, read := ?_ }⟩
      · simpa [hpc] using hs.le_hc
      · rintro t ⟨⟩
        exact hs.tail
      · exact fun _ => Bool.eq_false_iff.mpr hstop
      · simpa [hpc] using hs.popped_prefix
      · simpa [hpc] using hs.read
  · next t hpc =>
    have ht := hs.pop_index t (by rw [hpc]; rfl)
    have hheld : s.pop.held = [] := by rw [hpc]; rfl
    have hle := hs.le_hc
    have hhc := hs.hc_le
    have hpre := hs.popped_prefix
    have hread := hs.read
    rw [hheld, List.append_nil] at hle hpre hread
    split
    · refine ⟨s.pushed.length, { hs with headCache := hs.head, le_hc := ?_, hc_le := le_rfl }⟩
      rw [hheld, List.append_nil]
      exact hle.trans hhc
    · next hempty =>
      rw [hs.empty_iff ht] at hempty
      have hlt : s.popped.length < s.pushed.length := by omega
      have hvalue : s.ring.buf (c.slot t) = s.pushed[s.popped.length] := by
        rw [ht]
        refine hs.contents _ _ le_rfl ?_
        rw [List.getElem?_append_left hlt, List.getElem?_eq_getElem hlt]
      refine ⟨hc, { hs with le_hc := ?_, pop_index := ?_, goes_on := ?_, popped_prefix := ?_, read := ?_ }⟩
      · change (s.popped ++ [_]).length ≤ hc
        rw [List.length_append, List.length_singleton]
        omega
      · rintro t' ⟨⟩
        exact ht
      · exact fun _ => hs.goes_on (by rw [hpc]; rfl)
      · change s.popped ++ [_] <+: s.pushed
        rw [hvalue]
        exact List.concat_get_prefix hpre hlt
      · change s.read ++ _ = c.slotted (s.popped ++ [_])
        rw [c.slotted_concat, hread, ht]
  · next v t hpc =>
    have ht := hs.pop_index t (by rw [hpc]; rfl)
    refine ⟨hc, { hs with
      tail := ?_, tc_le := ?_, le_hc := ?_, pop_index := ?_, goes_on := ?_, popped_prefix := ?_
      read := ?_, contents := ?_ }⟩
    · change t + 1 = .ofNat (s.popped ++ [v]).length
      rw [ht, List.length_append, UInt64.ofNat_add]
      rfl
    · exact hs.tc_le.trans (by simp)
    · simpa [hpc] using hs.le_hc
    · exact fun _ h => nomatch h
    · exact fun h => nomatch h
    · simpa [hpc] using hs.popped_prefix
    · simpa [hpc] using hs.read
    · refine fun j w hj hw => hs.contents j w ?_ hw
      exact le_trans (by simp) hj

/-- The invariant. -/
def Counted (c : RingCapacity) (stop : List α → Bool) (values : List α) (s : RingThreads α) : Prop :=
  ∃ tc hc, Indexed c stop values tc hc s

theorem Counted.step (h : Counted c stop values s) (agent : RingAgent) :
    Counted c stop values (s.step c stop agent) := by
  obtain ⟨tc, hc, hs⟩ := h
  cases agent with
  | producer => exact (hs.producerStep).elim fun tc' h => ⟨tc', hc, h⟩
  | consumer => exact ⟨tc, hs.consumerStep⟩

theorem counted_start [Inhabited α] (c : RingCapacity) (stop : List α → Bool) (values : List α) :
    Counted c stop values (start values) := ⟨0, 0, indexed_start c stop values⟩

theorem counted_run [Inhabited α] (c : RingCapacity) (stop : List α → Bool) (values : List α)
    (schedule : List RingAgent) : Counted c stop values (Runs.run (step c stop) (start values) schedule) :=
  Runs.run_invariant (fun _ agent h => h.step agent) schedule _ (counted_start c stop values)

/-! ## What holds in every state -/

theorem Indexed.pushed_prefix (hs : Indexed c stop values tc hc s) : s.pushed <+: values :=
  ⟨s.push.inFlight ++ s.todo, by rw [← List.append_assoc]; exact hs.conserved⟩

theorem Indexed.popped_pushed (hs : Indexed c stop values tc hc s) : s.popped <+: s.pushed :=
  (List.prefix_append _ _).trans hs.popped_prefix

/-- When `push` is about to write a slot, what was written to it has been read. -/
theorem Indexed.read_before_write (hs : Indexed c stop values tc hc s) {v : α} {h : UInt64}
    (hpc : s.push = .check v h) (hfree : ¬ h - s.ring.tailCache ≥ c.n) :
    s.written.filter (·.1 = c.slot h) = s.read.filter (·.1 = c.slot h) := by
  have hh := hs.push_index h (by rw [hpc]; rfl)
  rw [hs.full_iff hh] at hfree
  have hroom := hs.room
  have htc := hs.tc_le
  obtain ⟨rest, hrest⟩ := hs.popped_prefix
  have hlen := congrArg List.length hrest
  have hwritten := hs.written
  rw [hpc, PushPc.stored, List.append_nil] at hwritten hroom
  rw [List.length_append, List.length_append] at hlen
  rw [hwritten, hs.read, ← hrest]
  unfold RingCapacity.slotted
  rw [List.mapIdx_append, List.filter_append, List.append_right_eq_self, List.filter_eq_nil_iff]
  intro e he
  obtain ⟨j, hj, rfl⟩ := List.mem_mapIdx.mp he
  rw [decide_eq_true_eq, hh, List.length_append]
  exact RingCapacity.slot_ne (by omega) (by omega)

/-- The four counters are in order, as distances from `tailCache`. -/
theorem Indexed.ordered (hs : Indexed c stop values tc hc s) :
    s.ring.tail - s.ring.tailCache ≤ s.ring.headCache - s.ring.tailCache ∧
      s.ring.headCache - s.ring.tailCache ≤ s.ring.head - s.ring.tailCache ∧
      s.ring.head - s.ring.tailCache ≤ c.n := by
  have hroom := hs.room
  have hle := hs.le_hc
  have htc := hs.tc_le
  have hhc := hs.hc_le
  rw [List.length_append] at hroom hle
  have hdist : ∀ j, tc ≤ j → j ≤ s.pushed.length → (UInt64.ofNat j - .ofNat tc).toNat = j - tc := fun j hj hj' =>
    @RingCapacity.toNat_distance c tc j hj (by omega)
  rw [hs.head, hs.tail, hs.tailCache, hs.headCache]
  simp only [UInt64.le_iff_toNat_le]
  rw [hdist _ htc (by omega), hdist hc (by omega) hhc, hdist s.pushed.length (by omega) le_rfl]
  omega

/-! ## The ring is drained -/

/-- How many steps of `push` remain that move the state. -/
def producerRank (c : RingCapacity) (s : RingThreads α) : ℕ :=
  4 * s.todo.length + match s.push with
    | .load => 0
    | .check _ h => if h - s.ring.tailCache ≥ c.n then 3 else 2
    | .store _ _ => 1

/-- How many steps of `pop` remain that move the state, when `values` are popped. -/
def consumerRank (values : List α) (s : RingThreads α) : ℕ :=
  match s.pop with
  | .load => 4 * (values.length - s.popped.length)
  | .check t => 4 * (values.length - (s.popped.length + 1)) + if t = s.ring.headCache then 3 else 2
  | .store _ _ => 4 * (values.length - (s.popped.length + 1)) + 1

def rank (c : RingCapacity) (values : List α) (s : RingThreads α) : ℕ := s.producerRank c + s.consumerRank values

theorem Indexed.producerRank_lt (hs : Indexed c stop values tc hc s) :
    s.producerStep c = s ∨ rank c values (s.producerStep c) < rank c values s := by
  unfold RingThreads.producerStep
  split
  · next hpc =>
    split
    · exact Or.inl rfl
    · next v todo htodo =>
      refine Or.inr ?_
      simp only [rank, producerRank, consumerRank, hpc, htodo, List.length_cons]
      split_ifs <;> omega
  · next v h hpc =>
    split
    · next hfull =>
      by_cases heq : s.ring.tail = s.ring.tailCache
      · exact Or.inl (by rw [heq])
      · refine Or.inr ?_
        have hh := hs.push_index h (by rw [hpc]; rfl)
        have hlt : ¬ h - s.ring.tail ≥ c.n := by
          rw [hs.full_iff hh] at hfull
          have htc : tc ≠ s.popped.length := fun htc => heq (by rw [hs.tail, hs.tailCache, htc])
          have hle := hs.tc_le
          have hlen := hs.popped_pushed.length_le
          rw [ge_iff_le, UInt64.le_iff_toNat_le, hh, hs.tail,
            @RingCapacity.toNat_distance c _ _ hlen (by omega)]
          omega
        simp only [rank, producerRank, consumerRank, hpc, if_pos hfull, if_neg hlt]
        omega
    · next hfull =>
      refine Or.inr ?_
      simp only [rank, producerRank, consumerRank, hpc, if_neg hfull]
      omega
  · next v h hpc =>
    refine Or.inr ?_
    simp only [rank, producerRank, consumerRank, hpc]
    omega

section Drained

variable (hstop : ∀ vs, vs <+: values → (stop vs = true ↔ vs = values))

include hstop

/-- A consumer that goes on has values to pop. -/
theorem Indexed.length_lt (hs : Indexed c stop values tc hc s) (h : stop s.popped = false) :
    s.popped.length < values.length := by
  have hpre := hs.popped_pushed.trans hs.pushed_prefix
  refine hpre.length_le.lt_of_ne fun hlen => ?_
  rw [(hstop _ hpre).mpr (hpre.eq_of_length hlen)] at h
  cases h

theorem Indexed.consumerRank_lt (hs : Indexed c stop values tc hc s) :
    s.consumerStep c stop = s ∨ rank c values (s.consumerStep c stop) < rank c values s := by
  unfold RingThreads.consumerStep
  split
  · next hpc =>
    split
    · exact Or.inl rfl
    · next hgo =>
      have hlt := hs.length_lt hstop (Bool.eq_false_iff.mpr hgo)
      refine Or.inr ?_
      simp only [rank, producerRank, consumerRank, hpc]
      split_ifs <;> omega
  · next t hpc =>
    split
    · next hempty =>
      by_cases heq : s.ring.head = s.ring.headCache
      · exact Or.inl (by rw [heq])
      · have hne : t ≠ s.ring.head := fun h => heq (h.symm.trans hempty)
        refine Or.inr ?_
        simp only [rank, producerRank, consumerRank, hpc, if_pos hempty, if_neg hne]
        omega
    · next hempty =>
      refine Or.inr ?_
      simp only [rank, producerRank, consumerRank, hpc, if_neg hempty]
      omega
  · next v t hpc =>
    refine Or.inr ?_
    simp only [rank, producerRank, consumerRank, hpc, List.length_append, List.length_singleton]
    omega

/-- Where neither thread can move, all values are popped. -/
theorem Indexed.drained (hs : Indexed c stop values tc hc s) (hfixed : ∀ agent, step c stop s agent = s) :
    s.pop = .load ∧ s.popped = values := by
  have hproducer : s.producerStep c = s := hfixed .producer
  have hconsumer : s.consumerStep c stop = s := hfixed .consumer
  unfold RingThreads.consumerStep at hconsumer
  split at hconsumer
  · next hpc =>
    split at hconsumer
    · next hgo => exact ⟨hpc, (hstop _ (hs.popped_pushed.trans hs.pushed_prefix)).mp hgo⟩
    · have h := congrArg RingThreads.pop hconsumer
      rw [hpc] at h
      cases h
  · next t hpc =>
    have ht := hs.pop_index t (by rw [hpc]; rfl)
    have hlt := hs.length_lt hstop (hs.goes_on (by rw [hpc]; rfl))
    have hroom := hs.room
    have htc := hs.tc_le
    have hn := c.two_le_toNat
    rw [List.length_append] at hroom
    split at hconsumer
    · next hempty =>
      -- the ring is empty, so `push` is neither done nor waiting
      have hhead : s.ring.head = s.ring.headCache := congrArg (fun s => s.ring.headCache) hconsumer
      have hlen : s.popped.length = s.pushed.length := by
        rw [← hhead, hs.head, ht] at hempty
        exact (@RingCapacity.ofNat_inj_of_le c _ _ hs.popped_pushed.length_le (by omega)).mp hempty
      unfold RingThreads.producerStep at hproducer
      split at hproducer
      · next hpush =>
        split at hproducer
        · next htodo =>
          have h := congrArg List.length hs.conserved
          rw [hpush, htodo, PushPc.inFlight, List.append_nil, List.append_nil] at h
          omega
        · have h := congrArg RingThreads.push hproducer
          rw [hpush] at h
          cases h
      · next v h hpush =>
        split at hproducer
        · next hfull =>
          have htail : s.ring.tail = s.ring.tailCache := congrArg (fun s => s.ring.tailCache) hproducer
          have hh := hs.push_index h (by rw [hpush]; rfl)
          rw [← htail, hs.tail, hh, hlen, sub_self] at hfull
          have hle := UInt64.le_iff_toNat_le.mp hfull
          rw [UInt64.toNat_zero] at hle
          omega
        · have h := congrArg RingThreads.push hproducer
          rw [hpush] at h
          cases h
      · next v h hpush =>
        have h := congrArg RingThreads.push hproducer
        rw [hpush] at h
        cases h
    · have h := congrArg RingThreads.pop hconsumer
      rw [hpc] at h
      cases h
  · next v t hpc =>
    have h := congrArg RingThreads.pop hconsumer
    rw [hpc] at h
    cases h

end Drained

/-- A consumer that stops when it has all values gets them: in a schedule that has eight rounds for each value and in
each round both threads, however often and in whatever order, all values are popped. -/
theorem popped_of_rounds [Inhabited α] (c : RingCapacity) {stop : List α → Bool} {values : List α}
    (hstop : ∀ vs, vs <+: values → (stop vs = true ↔ vs = values)) {rounds : List (List RingAgent)}
    (hboth : ∀ r ∈ rounds, .producer ∈ r ∧ .consumer ∈ r) (hlen : 8 * values.length ≤ rounds.length) :
    (Runs.run (step c stop) (start values) rounds.flatten).pop = .load ∧
      (Runs.run (step c stop) (start values) rounds.flatten).popped = values := by
  obtain ⟨tc, hc, hs⟩ := counted_run c stop values rounds.flatten
  have hall : ∀ r ∈ rounds, ∀ agent, agent ∈ r := by
    rintro r hr (_ | _)
    · exact (hboth r hr).1
    · exact (hboth r hr).2
  have hrank : ∀ s agent, Counted c stop values s →
      step c stop s agent = s ∨ rank c values (step c stop s agent) < rank c values s := by
    rintro s (_ | _) ⟨tc, hc, hs⟩
    · exact hs.producerRank_lt
    · exact hs.consumerRank_lt hstop
  have hstart : rank c values (start values) ≤ rounds.length := by
    refine le_trans (le_of_eq ?_) hlen
    change 4 * values.length + 0 + 4 * (values.length - 0) = 8 * values.length
    omega
  exact hs.drained hstop fun agent => Runs.fixed_of_rounds (fun _ agent h => h.step agent) hrank hall
    (counted_start c stop values) hstart agent

end RingThreads

end Invariant

end Carteret
