import Carteret.FreeList

/-!
# The chained order index

`OrderIndex<ChainedMultiplyShift>` keeps, for each bucket of the multiply-shift hash, a list of nodes from a pool.

1. `chase` is the loop of `find` and `insert`, `eraseFrom` that of `erase`, with the link that it follows. Both are
   `none` when they do not end within as many turns as there are nodes.
2. `Chains`: the lists of the buckets hold the entries of a map, and the free list the other nodes.
3. `find_eq`, `insert_spec` and `erase_spec` say what the operations make of the map.
-/

namespace Carteret

open IntrusiveList

/-! ## The index -/

structure Node where
  key : UInt64 := 0
  value : UInt32 := kNoOrder
  next : UInt32 := kNoOrder
  deriving DecidableEq

/-- As many buckets as nodes, a power of two from 16 on. The probe statistics are left out. -/
structure ChainedIndex where
  logCap : ℕ
  logCap_ge : 4 ≤ logCap
  logCap_lt : logCap < 64
  heads : ℕ → UInt32 := fun _ => kNoOrder
  nodes : ℕ → Node := fun _ => {}
  free : UInt32 := kNoOrder
  size : ℕ := 0
  insertFailures : ℕ := 0

/-- `std::bit_ceil` gives this power of two. -/
def bitCeilLog (n : ℕ) : ℕ := Nat.clog 2 n

namespace ChainedIndex

/-- What the constructor rounds up. -/
def atLeast16 (hint : ℕ) : ℕ := if hint < 16 then 16 else hint

theorem bitCeilLog_ge (hint : ℕ) : 4 ≤ bitCeilLog (atLeast16 hint) := by
  refine (Nat.lt_clog_iff_pow_lt (by decide)).mpr ?_
  unfold atLeast16
  split <;> omega

theorem bitCeilLog_lt {hint : ℕ} (h : hint ≤ 2 ^ 63) : bitCeilLog (atLeast16 hint) < 64 := by
  refine Nat.lt_succ_of_le ((Nat.clog_le_iff_le_pow (by decide)).mpr ?_)
  unfold atLeast16
  split <;> omega

/-- The nodes of a new pool, and the head of their list. -/
def seed (cap : ℕ) : (ℕ → Node) × UInt32 :=
  FreeList.seed (fun nd i => { nd with next := i }) cap (fun _ => {}) kNoOrder

/-- The constructor. The result of `std::bit_ceil` is not defined for hints above `2 ^ 63`. -/
def new (capacityHint : UInt64) : Option ChainedIndex :=
  if h : capacityHint.toNat ≤ 2 ^ 63 then
    let logCap := bitCeilLog (atLeast16 capacityHint.toNat)
    some
      { logCap := logCap
        logCap_ge := bitCeilLog_ge _
        logCap_lt := bitCeilLog_lt h
        nodes := (seed (2 ^ logCap)).1
        free := (seed (2 ^ logCap)).2 }
  else none

variable (x : ChainedIndex)

def capacity : ℕ := 2 ^ x.logCap

/-- `64 - countr_zero(cap)`. -/
def shift : ℕ := 64 - x.logCap

def bucket (key : UInt64) : ℕ := (key * kPhi).toNat >>> x.shift

def node (i : UInt32) : Node := x.nodes i.toNat

/-- The node with the key, from node `i` on; `kNoOrder` when the list ends without it. -/
def chase (key : UInt64) : ℕ → UInt32 → Option UInt32
  | 0, _ => none
  | fuel + 1, i =>
    if i = kNoOrder then some kNoOrder
    else if (x.node i).key = key then some i
    else chase key fuel (x.node i).next

/-- The search of `find` and of `insert`. -/
def search (key : UInt64) : Option UInt32 := x.chase key (x.capacity + 1) (x.heads (x.bucket key))

def find (key : UInt64) : Option UInt32 :=
  (x.search key).map fun i => if i = kNoOrder then kNoOrder else (x.node i).value

def setNode (i : UInt32) (nd : Node) : ChainedIndex := { x with nodes := Function.update x.nodes i.toNat nd }

def insert (key : UInt64) (value : UInt32) : Option (Bool × ChainedIndex) :=
  if value = kNoOrder then some (false, x)
  else
    (x.search key).map fun i =>
      if i ≠ kNoOrder then (true, x.setNode i { x.node i with value := value })
      else if x.free = kNoOrder then (false, { x with insertFailures := x.insertFailures + 1 })
      else
        let n := x.free
        let head := x.heads (x.bucket key)
        (true,
          { x.setNode n { key := key, value := value, next := head } with
            free := (x.node n).next
            heads := Function.update x.heads (x.bucket key) n
            size := x.size + 1 })

/-- What the pointer `link` of `erase` points to. -/
inductive Link
  | head (bucket : ℕ)
  | next (node : UInt32)
  deriving DecidableEq

def read : Link → UInt32
  | .head b => x.heads b
  | .next i => (x.node i).next

def write (i : UInt32) : Link → ChainedIndex
  | .head b => { x with heads := Function.update x.heads b i }
  | .next p => x.setNode p { x.node p with next := i }

/-- Node `n` leaves the list at `link` and becomes the head of the free list. -/
def unlink (link : Link) (n : UInt32) : ChainedIndex :=
  let y := x.write (x.node n).next link
  { y.setNode n { y.node n with value := kNoOrder, next := y.free } with free := n, size := y.size - 1 }

def eraseFrom (key : UInt64) : ℕ → Link → Option (UInt32 × ChainedIndex)
  | 0, _ => none
  | fuel + 1, link =>
    let n := x.read link
    if n = kNoOrder then some (kNoOrder, x)
    else if (x.node n).key = key then some ((x.node n).value, x.unlink link n)
    else eraseFrom key fuel (.next n)

def erase (key : UInt64) : Option (UInt32 × ChainedIndex) :=
  x.eraseFrom key (x.capacity + 1) (.head (x.bucket key))

def apply : OrderIndex.IndexOp → Option (OrderIndex.IndexResult × ChainedIndex)
  | .find key => (x.find key).map fun v => (.found v, x)
  | .insert key value => (x.insert key value).map fun r => (.inserted r.1, r.2)
  | .erase key => (x.erase key).map fun r => (.found r.1, r.2)

/-- The operations in order, with their results. -/
def run (x : ChainedIndex) : List OrderIndex.IndexOp →
    Option (List (OrderIndex.IndexOp × OrderIndex.IndexResult) × ChainedIndex)
  | [] => some ([], x)
  | op :: ops => (x.apply op).bind fun r => (run r.2 ops).map fun h => ((op, r.1) :: h.1, h.2)

/-- How many entries fit. -/
def limit : ℕ := min x.capacity (2 ^ 32 - 1)

variable {x} {i j : UInt32} {nd : Node} {key : UInt64} {value : UInt32} {b : ℕ}

@[simp] theorem node_setNode : (x.setNode i nd).node j = if j = i then nd else x.node j := by
  show Function.update x.nodes i.toNat nd j.toNat = _
  rw [Function.update_apply]
  simp only [UInt32.toNat_inj]
  rfl

/-! ## The lists -/

/-- The link of a node. -/
def next (x : ChainedIndex) (i : UInt32) : UInt32 := (x.node i).next

/-- The lists of the buckets hold the entries of `m`, the free list `F` holds the nodes that are left. -/
structure Chains (x : ChainedIndex) (chain : ℕ → List UInt32) (F : List UInt32) (m : UInt64 → UInt32) : Prop where
  list : ∀ b, Stack x.next kNoOrder (x.heads b) (chain b)
  nodup : ∀ b, (chain b).Nodup
  named : ∀ b, ∀ i ∈ chain b, i ∈ FreeList.numbers x.capacity
  home : ∀ b, ∀ i ∈ chain b, x.bucket (x.node i).key = b
  held : ∀ b, ∀ i ∈ chain b, (x.node i).value ≠ kNoOrder ∧ m (x.node i).key = (x.node i).value
  unique : ∀ b, ∀ i ∈ chain b, ∀ j ∈ chain b, (x.node i).key = (x.node j).key → i = j
  present : ∀ k, m k ≠ kNoOrder → ∃ i ∈ chain (x.bucket k), (x.node i).key = k
  free : Stack x.next kNoOrder x.free F
  freeNodup : F.Nodup
  freeNamed : ∀ i ∈ F, i ∈ FreeList.numbers x.capacity
  apart : ∀ b, ∀ i ∈ chain b, i ∉ F
  count : x.size + F.length = x.limit
  finite : {k | m k ≠ kNoOrder}.Finite
  size_eq : x.size = {k | m k ≠ kNoOrder}.ncard

variable {chain : ℕ → List UInt32} {F : List UInt32} {m : UInt64 → UInt32}

theorem Chains.length_lt (h : Chains x chain F m) (b : ℕ) : (chain b).length < x.capacity + 1 := by
  have hsub : (chain b).Subperm (FreeList.numbers x.capacity) :=
    List.subperm_of_subset (h.nodup b) fun i hi => h.named b i hi
  have hle := hsub.length_le
  rw [FreeList.numbers, List.length_map, List.length_range] at hle
  omega

/-- The search of a list ends. -/
theorem chase_spec (key : UInt64) : ∀ {fuel : ℕ} {i : UInt32} {L : List UInt32}, Stack x.next kNoOrder i L →
    L.length < fuel →
      ((∀ j ∈ L, (x.node j).key ≠ key) ∧ x.chase key fuel i = some kNoOrder) ∨
        ∃ j ∈ L, (x.node j).key = key ∧ j ≠ kNoOrder ∧ x.chase key fuel i = some j
  | 0, _, _, _, hfuel => absurd hfuel (Nat.not_lt_zero _)
  | fuel + 1, i, [], hs, _ => .inl ⟨by simp, if_pos hs⟩
  | fuel + 1, i, j :: L, ⟨hij, hne, hs⟩, hfuel => by
    subst hij
    rw [chase, if_neg hne]
    by_cases hkey : (x.node i).key = key
    · rw [if_pos hkey]
      exact .inr ⟨i, List.mem_cons_self, hkey, hne, rfl⟩
    · rw [if_neg hkey]
      obtain ⟨hall, hend⟩ | ⟨j, hj, hfound⟩ := chase_spec key hs (Nat.lt_of_succ_lt_succ hfuel)
      · refine .inl ⟨fun j hj => ?_, hend⟩
        rcases List.mem_cons.mp hj with rfl | hj
        · exact hkey
        · exact hall j hj
      · exact .inr ⟨j, List.mem_cons_of_mem _ hj, hfound⟩

/-- The search finds the key, or there is none. -/
theorem Chains.search_spec (h : Chains x chain F m) (key : UInt64) :
    (m key = kNoOrder ∧ x.search key = some kNoOrder ∧ ∀ j ∈ chain (x.bucket key), (x.node j).key ≠ key) ∨
      (m key ≠ kNoOrder ∧ ∃ i ∈ chain (x.bucket key), (x.node i).key = key ∧ i ≠ kNoOrder ∧
        x.search key = some i) := by
  obtain ⟨hall, hend⟩ | ⟨i, hi, hkey, hne, hfound⟩ :=
    chase_spec key (h.list (x.bucket key)) (h.length_lt _)
  · refine .inl ⟨?_, hend, hall⟩
    by_contra hm
    obtain ⟨i, hi, hkey⟩ := h.present key hm
    exact hall i hi hkey
  · refine .inr ⟨?_, i, hi, hkey, hne, hfound⟩
    obtain ⟨hvalue, hm⟩ := h.held _ i hi
    rw [← hkey, hm]
    exact hvalue

theorem Chains.find_eq (h : Chains x chain F m) (key : UInt64) : x.find key = some (m key) := by
  unfold find
  obtain ⟨hm, hs, -⟩ | ⟨-, i, hi, hkey, hne, hs⟩ := h.search_spec key
  · rw [hs, Option.map_some, if_pos rfl, hm]
  · rw [hs, Option.map_some, if_neg hne, ← (h.held _ i hi).2, hkey]

/-! ## Insertion -/

/-- The references with a value. -/
theorem support_update (hv : value ≠ kNoOrder) :
    {k | Function.update m key value k ≠ kNoOrder} = Insert.insert key {k | m k ≠ kNoOrder} := by
  ext k
  rw [Set.mem_insert_iff, Set.mem_ofPred_eq, Set.mem_ofPred_eq, Function.update_apply]
  by_cases hk : k = key
  · simp [hk, hv]
  · simp [hk]

/-- A new value for a key that is there. -/
theorem Chains.overwrite (h : Chains x chain F m) (hi : i ∈ chain (x.bucket key)) (hkey : (x.node i).key = key)
    (hv : value ≠ kNoOrder) :
    Chains (x.setNode i { x.node i with value := value }) chain F (Function.update m key value) := by
  set y := x.setNode i { x.node i with value := value } with hy
  have hnode : ∀ j, (y.node j).key = (x.node j).key ∧ (y.node j).next = (x.node j).next ∧
      (y.node j).value = if j = i then value else (x.node j).value := by
    intro j
    rw [hy, node_setNode]
    by_cases hj : j = i
    · rw [if_pos hj, if_pos hj, hj]
      exact ⟨rfl, rfl, rfl⟩
    · rw [if_neg hj, if_neg hj]
      exact ⟨rfl, rfl, rfl⟩
  have hnext : ∀ j, y.next j = x.next j := fun j => (hnode j).2.1
  have hmem : m key ≠ kNoOrder := by
    rw [← hkey, (h.held _ i hi).2]
    exact (h.held _ i hi).1
  have hsupport : {k | Function.update m key value k ≠ kNoOrder} = {k | m k ≠ kNoOrder} := by
    rw [support_update hv]
    exact Set.insert_eq_of_mem hmem
  refine ⟨fun b => (h.list b).congr fun a _ => hnext a, h.nodup, h.named, fun b j hj => ?_, fun b j hj => ?_,
    fun b j hj k hk heq => ?_, fun k hk => ?_, h.free.congr fun a _ => hnext a, h.freeNodup, h.freeNamed, h.apart,
    h.count, by rw [hsupport]; exact h.finite, by rw [hsupport]; exact h.size_eq⟩
  · rw [(hnode j).1]
    exact h.home b j hj
  · rw [(hnode j).1, (hnode j).2.2]
    by_cases hji : j = i
    · rw [if_pos hji, hji, hkey, Function.update_self]
      exact ⟨hv, rfl⟩
    · have hother : (x.node j).key ≠ key := by
        intro hjkey
        have hb : b = x.bucket key := by rw [← h.home b j hj, hjkey]
        subst hb
        exact hji (h.unique _ j hj i hi (hjkey.trans hkey.symm))
      rw [if_neg hji, Function.update_of_ne hother]
      exact h.held b j hj
  · rw [(hnode j).1, (hnode k).1] at heq
    exact h.unique b j hj k hk heq
  · have hk' : m k ≠ kNoOrder := by
      have hin : k ∈ {k | Function.update m key value k ≠ kNoOrder} := hk
      rw [hsupport] at hin
      exact hin
    obtain ⟨j, hj, hjk⟩ := h.present k hk'
    exact ⟨j, hj, (hnode j).1.trans hjk⟩

/-- A new key takes the first free node, at the head of its list. -/
theorem Chains.push (h : Chains x chain (i :: F) m) (hm : m key = kNoOrder) (hv : value ≠ kNoOrder) :
    Chains
      { x.setNode i { key := key, value := value, next := x.heads (x.bucket key) } with
        free := (x.node i).next
        heads := Function.update x.heads (x.bucket key) i
        size := x.size + 1 }
      (Function.update chain (x.bucket key) (i :: chain (x.bucket key))) F (Function.update m key value) := by
  obtain ⟨-, hne, hfree⟩ := h.free
  obtain ⟨hiF, hnodupF⟩ := List.nodup_cons.mp h.freeNodup
  have hout : ∀ b, i ∉ chain b := fun b hi => h.apart b i hi List.mem_cons_self
  set nd : Node := { key := key, value := value, next := x.heads (x.bucket key) }
  set y : ChainedIndex :=
    { x.setNode i nd with
      free := (x.node i).next
      heads := Function.update x.heads (x.bucket key) i
      size := x.size + 1 }
  have hnode : ∀ j, y.node j = if j = i then nd else x.node j := fun j => node_setNode
  have hself : y.node i = nd := (hnode i).trans (if_pos rfl)
  have hold : ∀ {j}, j ≠ i → y.node j = x.node j := fun hj => (hnode _).trans (if_neg hj)
  have hin : ∀ {b j}, j ∈ chain b → y.node j = x.node j := by
    intro b j hj
    refine hold ?_
    rintro rfl
    exact hout b hj
  have hinF : ∀ {j}, j ∈ F → y.node j = x.node j := by
    intro j hj
    refine hold ?_
    rintro rfl
    exact hiF hj
  have hmem : ∀ {b j}, j ∈ Function.update chain (x.bucket key) (i :: chain (x.bucket key)) b →
      (j = i ∧ b = x.bucket key) ∨ j ∈ chain b := by
    intro b j hj
    by_cases hb : b = x.bucket key
    · subst hb
      rw [Function.update_self] at hj
      exact (List.mem_cons.mp hj).imp_left fun hji => ⟨hji, rfl⟩
    · rw [Function.update_of_ne hb] at hj
      exact .inr hj
  have habsent : ∀ {b j}, j ∈ chain b → (x.node j).key ≠ key := by
    intro b j hj heq
    obtain ⟨hvalue, hmj⟩ := h.held b j hj
    rw [heq, hm] at hmj
    exact hvalue hmj.symm
  have hkeyout : key ∉ {k | m k ≠ kNoOrder} := fun hk => hk hm
  refine ⟨fun b => ?_, fun b => ?_, fun b j hj => ?_, fun b j hj => ?_, fun b j hj => ?_, fun b j hj k hk heq => ?_,
    fun k hk => ?_, ?_, hnodupF, fun j hj => h.freeNamed j (List.mem_cons_of_mem _ hj), fun b j hj => ?_, ?_, ?_, ?_⟩
  · show Stack y.next kNoOrder (Function.update x.heads (x.bucket key) i b) _
    have hlist : ∀ b, Stack y.next kNoOrder (x.heads b) (chain b) := fun b =>
      (h.list b).congr fun a ha => congrArg Node.next (hin ha)
    by_cases hb : b = x.bucket key
    · subst hb
      rw [Function.update_self, Function.update_self]
      refine ⟨rfl, hne, ?_⟩
      rw [show y.next i = x.heads (x.bucket key) from congrArg Node.next hself]
      exact hlist _
    · rw [Function.update_of_ne hb, Function.update_of_ne hb]
      exact hlist b
  · by_cases hb : b = x.bucket key
    · subst hb
      rw [Function.update_self]
      exact List.nodup_cons.mpr ⟨hout _, h.nodup _⟩
    · rw [Function.update_of_ne hb]
      exact h.nodup b
  · obtain ⟨rfl, -⟩ | hj := hmem hj
    · exact h.freeNamed _ List.mem_cons_self
    · exact h.named b j hj
  · obtain ⟨rfl, rfl⟩ | hj := hmem hj
    · rw [hself]
      rfl
    · rw [hin hj]
      exact h.home b j hj
  · obtain ⟨rfl, -⟩ | hj := hmem hj
    · rw [hself]
      exact ⟨hv, Function.update_self ..⟩
    · rw [hin hj, Function.update_of_ne (habsent hj)]
      exact h.held b j hj
  · obtain ⟨rfl, -⟩ | hj' := hmem hj
    · obtain ⟨rfl, -⟩ | hk' := hmem hk
      · rfl
      · rw [hself, hin hk'] at heq
        exact absurd heq.symm (habsent hk')
    · obtain ⟨rfl, -⟩ | hk' := hmem hk
      · rw [hself, hin hj'] at heq
        exact absurd heq (habsent hj')
      · rw [hin hj', hin hk'] at heq
        exact h.unique b j hj' k hk' heq
  · show ∃ j ∈ Function.update chain (x.bucket key) (i :: chain (x.bucket key)) (x.bucket k), (y.node j).key = k
    by_cases hkk : k = key
    · subst hkk
      rw [Function.update_self]
      exact ⟨i, List.mem_cons_self, congrArg Node.key hself⟩
    · rw [Function.update_of_ne hkk] at hk
      obtain ⟨j, hj, hjk⟩ := h.present k hk
      have hj' : j ∈ Function.update chain (x.bucket key) (i :: chain (x.bucket key)) (x.bucket k) := by
        by_cases hb : x.bucket k = x.bucket key
        · rw [hb, Function.update_self, ← hb]
          exact List.mem_cons_of_mem _ hj
        · rw [Function.update_of_ne hb]
          exact hj
      exact ⟨j, hj', by rw [hin hj, hjk]⟩
  · exact hfree.congr fun a ha => congrArg Node.next (hinF ha)
  · intro hjF
    obtain ⟨rfl, -⟩ | hj := hmem hj
    · exact hiF hjF
    · exact h.apart b j hj (List.mem_cons_of_mem _ hjF)
  · show x.size + 1 + F.length = x.limit
    have hcount := h.count
    rw [List.length_cons] at hcount
    omega
  · rw [support_update hv]
    exact h.finite.insert key
  · rw [support_update hv, Set.ncard_insert_of_notMem hkeyout h.finite, ← h.size_eq]

/-! ## Deletion -/

/-- The link behind these nodes. -/
def linkAfter (link : Link) (mid : List UInt32) : Link :=
  match mid.getLast? with
  | none => link
  | some p => .next p

theorem linkAfter_cons (link : Link) (n : UInt32) (mid : List UInt32) :
    linkAfter link (n :: mid) = linkAfter (.next n) mid := by
  unfold linkAfter
  rw [List.getLast?_cons]
  cases mid.getLast? <;> rfl

/-- The loop of `erase` ends: at the node with the key, with the link to it, or behind the list. -/
theorem eraseFrom_spec (key : UInt64) : ∀ {fuel : ℕ} (link : Link) {L : List UInt32},
    Stack x.next kNoOrder (x.read link) L → L.length < fuel →
      ((∀ j ∈ L, (x.node j).key ≠ key) ∧ x.eraseFrom key fuel link = some (kNoOrder, x)) ∨
        ∃ mid i post, L = mid ++ i :: post ∧ (x.node i).key = key ∧
          x.eraseFrom key fuel link = some ((x.node i).value, x.unlink (linkAfter link mid) i)
  | 0, _, _, _, hfuel => absurd hfuel (Nat.not_lt_zero _)
  | fuel + 1, link, [], hs, _ => .inl ⟨by simp, if_pos hs⟩
  | fuel + 1, link, j :: L, ⟨hij, hne, hs⟩, hfuel => by
    rw [eraseFrom]
    simp only [hij]
    rw [if_neg hne]
    by_cases hkey : (x.node j).key = key
    · rw [if_pos hkey]
      exact .inr ⟨[], j, L, rfl, hkey, rfl⟩
    · rw [if_neg hkey]
      obtain ⟨hall, hend⟩ | ⟨mid, i, post, hL, hi, hfound⟩ :=
        eraseFrom_spec key (.next j) hs (Nat.lt_of_succ_lt_succ hfuel)
      · refine .inl ⟨fun a ha => ?_, hend⟩
        rcases List.mem_cons.mp ha with rfl | ha
        · exact hkey
        · exact hall a ha
      · exact .inr ⟨j :: mid, i, post, by rw [hL]; rfl, hi, by rw [linkAfter_cons]; exact hfound⟩

theorem write_node (v : UInt32) (link : Link) (j : UInt32) :
    ((x.write v link).node j).key = (x.node j).key ∧ ((x.write v link).node j).value = (x.node j).value ∧
      ((x.write v link).node j).next = if link = .next j then v else (x.node j).next := by
  cases link with
  | head b => exact ⟨rfl, rfl, rfl⟩
  | next p =>
    rw [write, node_setNode]
    by_cases hj : j = p
    · rw [if_pos hj, if_pos (by rw [hj]), hj]
      exact ⟨rfl, rfl, rfl⟩
    · rw [if_neg hj, if_neg fun hc => hj (Link.next.inj hc).symm]
      exact ⟨rfl, rfl, rfl⟩

theorem unlink_self (link : Link) :
    (x.unlink link i).node i = { key := (x.node i).key, value := kNoOrder, next := x.free } := by
  have hkey := (write_node (x := x) (x.node i).next link i).1
  have hfree : (x.write (x.node i).next link).free = x.free := by cases link <;> rfl
  refine (node_setNode (x := x.write (x.node i).next link)).trans ?_
  rw [if_pos rfl, hkey, hfree]

theorem unlink_other (link : Link) (hj : j ≠ i) :
    (x.unlink link i).node j = (x.write (x.node i).next link).node j :=
  (node_setNode (x := x.write (x.node i).next link)).trans (if_neg hj)

theorem support_erase :
    {k | Function.update m key kNoOrder k ≠ kNoOrder} = {k | m k ≠ kNoOrder} \ {key} := by
  ext k
  rw [Set.mem_sdiff, Set.mem_ofPred_eq, Set.mem_ofPred_eq, Set.mem_singleton_iff, Function.update_apply]
  by_cases hk : k = key
  · simp [hk]
  · simp [hk]

/-- The lists when node `i` has left the one of `b`. -/
theorem Chains.list_unlink {mid post : List UInt32} (h : Chains x chain F m) (hchain : chain b = mid ++ i :: post)
    (b' : ℕ) :
    Stack (x.unlink (linkAfter (.head b) mid) i).next kNoOrder ((x.unlink (linkAfter (.head b) mid) i).heads b')
      (Function.update chain b (mid ++ post) b') := by
  have hi : i ∈ chain b := by rw [hchain]; simp
  have hnodup : (mid ++ i :: post).Nodup := hchain ▸ h.nodup b
  have hout : i ∉ mid ++ post := by
    have := List.nodup_middle.mp hnodup
    exact (List.nodup_cons.mp this).1
  have hapart : ∀ {c j}, j ∈ chain b → c ≠ b → j ∉ chain c := by
    intro c j hj hc hjc
    exact hc ((h.home c j hjc).symm.trans (h.home b j hj))
  have hlist := h.list b
  rw [hchain] at hlist
  have hnext : ∀ link, ∀ j ≠ i, (x.unlink link i).next j =
      if link = .next j then x.next i else x.next j := by
    intro link j hj
    rw [next, unlink_other link hj]
    exact (write_node _ _ _).2.2
  -- the link is that of the bucket when the node is the first one
  obtain rfl | ⟨mid, p, rfl⟩ := mid.eq_nil_or_concat'
  · have hlink : linkAfter (.head b) [] = .head b := rfl
    rw [hlink]
    show Stack _ _ (Function.update x.heads b (x.node i).next b') _
    have hsame : ∀ j ≠ i, (x.unlink (.head b) i).next j = x.next j := fun j hj =>
      (hnext _ j hj).trans (if_neg (by simp))
    by_cases hb : b' = b
    · subst hb
      rw [Function.update_self, Function.update_self]
      refine hlist.2.2.congr fun a ha => hsame a ?_
      rintro rfl
      exact hout ha
    · rw [Function.update_of_ne hb, Function.update_of_ne hb]
      refine (h.list b').congr fun a ha => hsame a ?_
      rintro rfl
      exact hapart hi hb ha
  · have hlink : linkAfter (.head b) (mid ++ [p]) = .next p := by
      unfold linkAfter
      rw [List.getLast?_concat]
    have hp : p ∈ chain b := by rw [hchain]; simp
    rw [hlink]
    show Stack _ _ (x.heads b') _
    by_cases hb : b' = b
    · subst hb
      rw [List.append_assoc, List.singleton_append] at hlist hnodup
      have hunlinked := hlist.unlink hnodup
      rw [Function.update_self, List.append_assoc, List.singleton_append]
      refine hunlinked.congr fun a ha => ?_
      have hai : a ≠ i := by
        rintro rfl
        exact hout (by rw [List.append_assoc, List.singleton_append]; exact ha)
      rw [hnext _ a hai, Function.update_apply]
      simp only [Link.next.injEq, eq_comm]
    · rw [Function.update_of_ne hb]
      refine (h.list b').congr fun a ha => ?_
      have hai : a ≠ i := by
        rintro rfl
        exact hapart hi hb ha
      have hap : p ≠ a := by
        rintro rfl
        exact hapart hp hb ha
      rw [hnext _ a hai, if_neg fun hc => hap (Link.next.inj hc)]

theorem unlink_fields (link : Link) (i : UInt32) :
    (x.unlink link i).free = i ∧ (x.unlink link i).size = x.size - 1 ∧ (x.unlink link i).logCap = x.logCap ∧
      (x.unlink link i).insertFailures = x.insertFailures := by
  cases link <;> exact ⟨rfl, rfl, rfl, rfl⟩

/-- A node leaves its list with its key. -/
theorem Chains.unlink {mid post : List UInt32} (h : Chains x chain F m)
    (hchain : chain (x.bucket key) = mid ++ i :: post) (hkey : (x.node i).key = key) :
    Chains (x.unlink (linkAfter (.head (x.bucket key)) mid) i) (Function.update chain (x.bucket key) (mid ++ post))
      (i :: F) (Function.update m key kNoOrder) := by
  have hlists := h.list_unlink hchain
  set y := x.unlink (linkAfter (.head (x.bucket key)) mid) i with hy
  obtain ⟨hfree, hsize, hlog, -⟩ := unlink_fields (x := x) (linkAfter (.head (x.bucket key)) mid) i
  rw [← hy] at hfree hsize hlog
  have hi : i ∈ chain (x.bucket key) := by rw [hchain]; simp
  have hcap : y.capacity = x.capacity := congrArg (2 ^ ·) hlog
  have hbucket : y.bucket = x.bucket := by
    funext k
    unfold bucket shift
    rw [hlog]
  have hlimit : y.limit = x.limit := by
    unfold limit
    rw [hcap]
  have hself : y.node i = { key := (x.node i).key, value := kNoOrder, next := x.free } := unlink_self _
  have hkv : ∀ {j}, j ≠ i → (y.node j).key = (x.node j).key ∧ (y.node j).value = (x.node j).value := by
    intro j hj
    rw [hy, unlink_other _ hj]
    exact ⟨(write_node _ _ _).1, (write_node _ _ _).2.1⟩
  have hmid : (i :: (mid ++ post)).Nodup := List.nodup_middle.mp (hchain ▸ h.nodup _)
  -- the entries that are left are the old ones but for `i`
  have hmem : ∀ {c j}, j ∈ Function.update chain (x.bucket key) (mid ++ post) c ↔ j ∈ chain c ∧ j ≠ i := by
    intro c j
    by_cases hc : c = x.bucket key
    · subst hc
      rw [Function.update_self, hchain]
      constructor
      · intro hj
        refine ⟨by simp only [List.mem_append, List.mem_cons] at hj ⊢; tauto, ?_⟩
        rintro rfl
        exact (List.nodup_cons.mp hmid).1 hj
      · rintro ⟨hj, hne⟩
        simp only [List.mem_append, List.mem_cons] at hj ⊢
        tauto
    · rw [Function.update_of_ne hc]
      refine ⟨fun hj => ⟨hj, ?_⟩, And.left⟩
      rintro rfl
      exact hc ((h.home c j hj).symm.trans (by rw [hkey]))
  have hother : ∀ {c j}, j ∈ chain c → j ≠ i → (x.node j).key ≠ key := by
    intro c j hj hne hjk
    have hc : c = x.bucket key := (h.home c j hj).symm.trans (by rw [hjk])
    subst hc
    exact hne (h.unique _ j hj i hi (hjk.trans hkey.symm))
  refine ⟨hlists, fun c => ?_, fun c j hj => ?_, fun c j hj => ?_, fun c j hj => ?_, fun c j hj k hk heq => ?_,
    fun k hk => ?_, ?_, List.nodup_cons.mpr ⟨h.apart _ i hi, h.freeNodup⟩, fun j hj => ?_, fun c j hj => ?_, ?_, ?_, ?_⟩
  · by_cases hc : c = x.bucket key
    · subst hc
      rw [Function.update_self]
      exact (List.nodup_cons.mp hmid).2
    · rw [Function.update_of_ne hc]
      exact h.nodup c
  · rw [hcap]
    exact h.named c j (hmem.mp hj).1
  · rw [hbucket, (hkv (hmem.mp hj).2).1]
    exact h.home c j (hmem.mp hj).1
  · obtain ⟨hj, hne⟩ := hmem.mp hj
    rw [(hkv hne).1, (hkv hne).2, Function.update_of_ne (hother hj hne)]
    exact h.held c j hj
  · obtain ⟨hj, hji⟩ := hmem.mp hj
    obtain ⟨hk, hki⟩ := hmem.mp hk
    rw [(hkv hji).1, (hkv hki).1] at heq
    exact h.unique c j hj k hk heq
  · have hkk : k ≠ key := by
      rintro rfl
      exact hk (Function.update_self ..)
    rw [Function.update_of_ne hkk] at hk
    obtain ⟨j, hj, hjk⟩ := h.present k hk
    have hji : j ≠ i := by
      rintro rfl
      exact hkk (hjk.symm.trans hkey)
    rw [hbucket]
    exact ⟨j, hmem.mpr ⟨hj, hji⟩, by rw [(hkv hji).1, hjk]⟩
  · refine ⟨hfree, ?_, ?_⟩
    · exact ((FreeList.mem_numbers).mp (h.named _ i hi)).1
    · rw [show y.next i = x.free from congrArg Node.next hself]
      refine h.free.congr fun a ha => ?_
      have hai : a ≠ i := by
        rintro rfl
        exact h.apart _ a hi ha
      rw [hy, next, unlink_other _ hai, (write_node _ _ _).2.2]
      refine if_neg fun hc => ?_
      obtain hnil | ⟨mid, p, rfl⟩ := mid.eq_nil_or_concat'
      · rw [hnil] at hc
        cases hc
      · unfold linkAfter at hc
        rw [List.getLast?_concat] at hc
        obtain rfl := Link.next.inj hc
        exact h.apart (x.bucket key) p (by rw [hchain]; simp) ha
  · rw [hcap]
    rcases List.mem_cons.mp hj with rfl | hj
    · exact h.named _ j hi
    · exact h.freeNamed j hj
  · obtain ⟨hj, hji⟩ := hmem.mp hj
    rw [List.mem_cons, not_or]
    exact ⟨hji, h.apart c j hj⟩
  · have hpos : 0 < x.size := by
      rw [h.size_eq]
      refine (Set.ncard_pos h.finite).mpr ⟨key, ?_⟩
      rw [Set.mem_ofPred_eq, ← hkey, (h.held _ i hi).2]
      exact (h.held _ i hi).1
    rw [hsize, hlimit, List.length_cons, ← h.count]
    omega
  · rw [support_erase]
    exact h.finite.subset Set.sdiff_subset
  · have hin : key ∈ {k | m k ≠ kNoOrder} := by
      rw [Set.mem_ofPred_eq, ← hkey, (h.held _ i hi).2]
      exact (h.held _ i hi).1
    rw [hsize, support_erase, Set.ncard_sdiff_singleton_of_mem hin, ← h.size_eq]

/-! ## The operations on the map -/

/-- The index holds the map. -/
def Represents (x : ChainedIndex) (m : UInt64 → UInt32) : Prop := ∃ chain F, Chains x chain F m

theorem Represents.find_eq (h : x.Represents m) (key : UInt64) : x.find key = some (m key) := by
  obtain ⟨chain, F, h⟩ := h
  exact h.find_eq key

theorem Represents.size_eq (h : x.Represents m) : x.size = {k | m k ≠ kNoOrder}.ncard := by
  obtain ⟨chain, F, h⟩ := h
  exact h.size_eq

/-- An insertion fails for a value that cannot be stored, and for a new key when all nodes are in use. -/
theorem Represents.insert_spec (h : x.Represents m) (key : UInt64) (value : UInt32) :
    ∃ b y, x.insert key value = some (b, y) ∧ y.logCap = x.logCap ∧
      (b = true ↔ value ≠ kNoOrder ∧ (m key ≠ kNoOrder ∨ x.size < x.limit)) ∧
      y.insertFailures = x.insertFailures + (if value ≠ kNoOrder ∧ b = false then 1 else 0) ∧
      y.Represents (if b then Function.update m key value else m) := by
  obtain ⟨chain, F, h⟩ := h
  unfold insert
  by_cases hv : value = kNoOrder
  · rw [if_pos hv]
    exact ⟨false, x, rfl, rfl, iff_of_false Bool.false_ne_true fun hc => hc.1 hv,
      by rw [if_neg fun hc => hc.1 hv, Nat.add_zero], chain, F, h⟩
  rw [if_neg hv]
  obtain ⟨hm, hs, -⟩ | ⟨hm, i, hi, hkey, hne, hs⟩ := h.search_spec key
  · rw [hs, Option.map_some, if_neg (not_not.mpr rfl)]
    cases F with
    | nil =>
      have hcount : x.size + 0 = x.limit := h.count
      rw [if_pos (show x.free = kNoOrder from h.free)]
      refine ⟨false, _, rfl, rfl, iff_of_false Bool.false_ne_true ?_, by rw [if_pos ⟨hv, rfl⟩], chain, [],
        { h with }⟩
      rintro ⟨-, hc | hc⟩
      · exact hc hm
      · omega
    | cons i F =>
      have hcount : x.size + (F.length + 1) = x.limit := h.count
      obtain ⟨rfl, hne, -⟩ := h.free
      rw [if_neg hne]
      exact ⟨true, _, rfl, rfl, iff_of_true rfl ⟨hv, .inr (by omega)⟩, by simp [setNode], _, F, h.push hm hv⟩
  · rw [hs, Option.map_some, if_pos hne]
    exact ⟨true, _, rfl, rfl, iff_of_true rfl ⟨hv, .inl hm⟩, by simp [setNode], chain, F, h.overwrite hi hkey hv⟩

theorem Represents.erase_spec (h : x.Represents m) (key : UInt64) :
    ∃ y, x.erase key = some (m key, y) ∧ y.logCap = x.logCap ∧ y.insertFailures = x.insertFailures ∧
      y.Represents (Function.update m key kNoOrder) := by
  obtain ⟨chain, F, h⟩ := h
  unfold erase
  obtain ⟨hall, hend⟩ | ⟨mid, i, post, hchain, hkey, hfound⟩ :=
    eraseFrom_spec (x := x) key (.head (x.bucket key)) (h.list _) (h.length_lt _)
  · have hm : m key = kNoOrder := by
      by_contra hm
      obtain ⟨i, hi, hkey⟩ := h.present key hm
      exact hall i hi hkey
    have hsame : Function.update m key kNoOrder = m := by rw [← hm, Function.update_eq_self]
    rw [hend, hm, hsame]
    exact ⟨x, rfl, rfl, rfl, chain, F, h⟩
  · have hm : m key = (x.node i).value := by
      rw [← hkey]
      exact (h.held (x.bucket key) i (by rw [hchain]; simp)).2
    rw [hfound, hm]
    obtain ⟨-, -, hlog, hfail⟩ := unlink_fields (x := x) (linkAfter (.head (x.bucket key)) mid) i
    exact ⟨_, rfl, hlog, hfail, _, _, h.unlink hchain hkey⟩

theorem represents_new {hint : UInt64} (h : new hint = some x) :
    x.Represents (fun _ => kNoOrder) ∧ x.logCap = bitCeilLog (atLeast16 hint.toNat) ∧ x.insertFailures = 0 := by
  unfold new at h
  split at h
  swap
  · cases h
  obtain rfl := Option.some.inj h
  refine ⟨⟨fun _ => [], FreeList.numbers (2 ^ bitCeilLog (atLeast16 hint.toNat)), ?_⟩, rfl, rfl⟩
  have hstack := @FreeList.seed_stack Node (fun nd i => { nd with next := i }) Node.next (fun _ _ => rfl)
    (2 ^ bitCeilLog (atLeast16 hint.toNat)) (fun _ => {})
  have hnone : {k : UInt64 | (fun _ => kNoOrder) k ≠ kNoOrder} = ∅ :=
    Set.eq_empty_of_forall_notMem fun k hk => hk rfl
  refine ⟨fun b => rfl, fun b => List.nodup_nil, fun b i hi => (by cases hi), fun b i hi => (by cases hi),
    fun b i hi => (by cases hi), fun b i hi => (by cases hi), fun k hk => absurd rfl hk, hstack,
    FreeList.nodup_numbers _, fun i hi => hi, fun b i hi => (by cases hi), ?_, ?_, ?_⟩
  · show 0 + (FreeList.numbers _).length = min _ _
    rw [FreeList.numbers, List.length_map, List.length_range, Nat.zero_add]
    rfl
  · rw [hnone]
    exact Set.finite_empty
  · rw [hnone, Set.ncard_empty]

end ChainedIndex

end Carteret
