import Mathlib

/-!
# Intrusive lists

Lists that are threaded through their nodes by index. A value `nil` ends them.

1. `Ring next prev nil L`: a doubly linked list, with the head at `next nil` and the tail at `prev nil`, so
   that the ends need no cases. `Ring.push` and `Ring.remove` are its two updates.
2. `Stack next nil h F`: a singly linked list from `h`, with push and pop at the front.
3. `walk` follows the links; with enough fuel it lists the nodes.
-/

namespace IntrusiveList

variable {ι : Type*} {next prev next' prev' : ι → ι} {nil x : ι} {L F : List ι}

/-! ## Chains -/

/-- `b` follows `a`, as both of them say. -/
def Linked (next prev : ι → ι) (a b : ι) : Prop := next a = b ∧ prev b = a

/-- A chain stays one when its links are read the same. -/
theorem isChain_congr : ∀ {M : List ι}, (∀ a ∈ M.dropLast, next' a = next a) →
    (∀ b ∈ M.tail, prev' b = prev b) → M.IsChain (Linked next prev) → M.IsChain (Linked next' prev')
  | [], _, _, _ => List.IsChain.nil
  | [_], _, _, _ => List.IsChain.singleton _
  | a :: b :: M, hn, hp, h => by
    obtain ⟨⟨hab, hba⟩, hrest⟩ := List.isChain_cons_cons.mp h
    refine List.isChain_cons_cons.mpr ⟨⟨?_, ?_⟩, isChain_congr (fun c hc => hn c ?_) (fun c hc => hp c ?_) hrest⟩
    · rw [hn a (by simp), hab]
    · rw [hp b (by simp), hba]
    · rw [List.dropLast_cons_of_ne_nil (by simp)]
      exact List.mem_cons_of_mem _ hc
    · exact List.mem_cons_of_mem _ hc

/-! ## Doubly linked lists -/

/-- The nodes `L`, linked both ways; `nil` stands before the first and after the last. -/
structure Ring (next prev : ι → ι) (nil : ι) (L : List ι) : Prop where
  chain : (nil :: (L ++ [nil])).IsChain (Linked next prev)
  nodup : (nil :: L).Nodup

theorem ring_nil : Ring next prev nil [] ↔ next nil = nil ∧ prev nil = nil := by
  constructor
  · intro h
    exact (List.isChain_cons_cons.mp h.chain).1
  · intro h
    exact ⟨List.isChain_cons_cons.mpr ⟨h, List.IsChain.singleton _⟩, by simp⟩

theorem Ring.nil_notMem (h : Ring next prev nil L) : nil ∉ L := (List.nodup_cons.mp h.nodup).1

/-- Only the links of the nodes and of `nil` count. -/
theorem Ring.congr (h : Ring next prev nil L) (hn : ∀ a, a = nil ∨ a ∈ L → next' a = next a)
    (hp : ∀ b, b = nil ∨ b ∈ L → prev' b = prev b) : Ring next' prev' nil L := by
  refine ⟨isChain_congr (fun a ha => hn a ?_) (fun b hb => hp b ?_) h.chain, h.nodup⟩
  · rw [← List.cons_append, List.dropLast_concat] at ha
    exact List.mem_cons.mp ha
  · rw [List.tail_cons, List.mem_append, List.mem_singleton] at hb
    exact hb.symm

/-- A node goes to the back: it points to `nil` and to the old tail, which point to it. -/
theorem Ring.push [DecidableEq ι] (h : Ring next prev nil L) (hx : x ≠ nil) (hxL : x ∉ L)
    (hnx : next' x = nil) (hpx : prev' x = prev nil)
    (hn : ∀ a, a = nil ∨ a ∈ L → next' a = if a = prev nil then x else next a)
    (hpn : prev' nil = x) (hp : ∀ b ∈ L, prev' b = prev b) : Ring next' prev' nil (L ++ [x]) := by
  refine ⟨?_, ?_⟩
  · -- the chain up to the old tail `t`, then the new node
    obtain ⟨M, t, hM⟩ : ∃ M t, nil :: L = M ++ [t] :=
      ⟨_, _, (List.dropLast_append_getLast (by simp)).symm⟩
    have hchain := h.chain
    have hnodup := h.nodup
    rw [← List.cons_append, hM, List.append_assoc, List.singleton_append, List.isChain_split] at hchain
    obtain ⟨hfront, hback⟩ := hchain
    have ht : prev nil = t := (List.isChain_cons_cons.mp hback).1.2
    have hmem : ∀ a ∈ M ++ [t], a = nil ∨ a ∈ L := fun a ha => by
      rw [← hM] at ha; exact List.mem_cons.mp ha
    rw [hM] at hnodup
    have htM : t ∉ M := fun hc => (List.nodup_append.mp hnodup).2.2 t hc t (by simp) rfl
    rw [List.append_assoc, List.singleton_append, ← List.cons_append, hM, List.append_assoc,
      List.singleton_append, List.isChain_split]
    refine ⟨isChain_congr (fun a ha => ?_) (fun b hb => ?_) hfront,
      List.isChain_cons_cons.mpr ⟨⟨?_, ?_⟩, List.isChain_cons_cons.mpr ⟨⟨hnx, hpn⟩, List.IsChain.singleton _⟩⟩⟩
    · rw [List.dropLast_concat] at ha
      rw [hn a (hmem a (List.mem_append_left _ ha)), if_neg]
      rw [ht]; rintro rfl; exact htM ha
    · refine hp b ?_
      rw [← hM] at hb
      exact hb
    · rw [hn t (hmem t (by simp)), ht, if_pos rfl]
    · rw [hpx, ht]
  · rw [← List.cons_append, List.nodup_append]
    refine ⟨h.nodup, by simp, fun a ha b hb => ?_⟩
    rw [List.mem_singleton.mp hb]
    rintro rfl
    rcases List.mem_cons.mp ha with ha | ha
    · exact hx ha
    · exact hxL ha

/-- A node between the chain up to its predecessor and the chain from its successor on. -/
structure Between (next prev : ι → ι) (nil x : ι) (L₁ L₂ M N : List ι) (a b : ι) : Prop where
  front_eq : nil :: L₁ = M ++ [a]
  back_eq : L₂ ++ [nil] = b :: N
  front : (M ++ [a]).IsChain (Linked next prev)
  back : (b :: N).IsChain (Linked next prev)
  pred : Linked next prev a x
  succ : Linked next prev x b

theorem Ring.between {L₁ L₂ : List ι} (h : Ring next prev nil (L₁ ++ x :: L₂)) :
    ∃ M N a b, Between next prev nil x L₁ L₂ M N a b := by
  obtain ⟨M, a, hM⟩ : ∃ M a, nil :: L₁ = M ++ [a] :=
    ⟨_, _, (List.dropLast_append_getLast (by simp)).symm⟩
  obtain ⟨b, N, hN⟩ : ∃ b N, L₂ ++ [nil] = b :: N := by
    cases L₂ with
    | nil => exact ⟨_, _, rfl⟩
    | cons b L₂ => exact ⟨_, _, rfl⟩
  have hchain := h.chain
  rw [List.append_assoc, List.cons_append, hN, ← List.cons_append, hM, List.append_assoc,
    List.singleton_append, List.isChain_split] at hchain
  obtain ⟨hpred, hmid⟩ := List.isChain_cons_cons.mp hchain.2
  obtain ⟨hsucc, hback⟩ := List.isChain_cons_cons.mp hmid
  exact ⟨M, N, a, b, hM, hN, hchain.1, hback, hpred, hsucc⟩

/-- A node leaves: what points to it points past it. -/
theorem Ring.remove [DecidableEq ι] {L₁ L₂ : List ι} (h : Ring next prev nil (L₁ ++ x :: L₂))
    (hn : ∀ a, a = nil ∨ a ∈ L₁ ++ L₂ → next' a = if a = prev x then next x else next a)
    (hp : ∀ b, b = nil ∨ b ∈ L₁ ++ L₂ → prev' b = if b = next x then prev x else prev b) :
    Ring next' prev' nil (L₁ ++ L₂) := by
  have hnodup : (nil :: (L₁ ++ L₂)).Nodup :=
    h.nodup.sublist (((List.sublist_cons_self x L₂).append_left L₁).cons_cons nil)
  refine ⟨?_, hnodup⟩
  -- `a` stands before the node and `b` after it
  obtain ⟨M, N, a, b, hM, hN, hfront, hback, ⟨hax, hxa⟩, hxb, hbx⟩ := h.between
  have hfirst : nil :: (L₁ ++ L₂) = M ++ a :: L₂ := by
    rw [← List.cons_append, hM, List.append_assoc]; rfl
  have hlast : L₁ ++ L₂ ++ [nil] = L₁ ++ b :: N := by rw [List.append_assoc, hN]
  have hmem_first : ∀ c ∈ M ++ a :: L₂, c = nil ∨ c ∈ L₁ ++ L₂ := fun c hc => by
    rw [← hfirst] at hc; exact List.mem_cons.mp hc
  have hmem_last : ∀ c ∈ L₁ ++ b :: N, c = nil ∨ c ∈ L₁ ++ L₂ := fun c hc => by
    rw [← hlast, List.mem_append, List.mem_singleton] at hc; exact hc.symm
  have hnodup_first : (M ++ a :: L₂).Nodup := hfirst ▸ hnodup
  have hnodup_last : (L₁ ++ b :: N).Nodup := by
    rw [← hlast, List.nodup_append]
    refine ⟨(List.nodup_cons.mp hnodup).2, by simp, fun c hc d hd => ?_⟩
    rw [List.mem_singleton.mp hd]
    rintro rfl
    exact (List.nodup_cons.mp hnodup).1 hc
  have haM : a ∉ M := fun hc => (List.nodup_append.mp hnodup_first).2.2 a hc a (by simp) rfl
  have haL : a ∉ L₂ := (List.nodup_cons.mp (List.nodup_append.mp hnodup_first).2.1).1
  have hbL : b ∉ L₁ := fun hc => (List.nodup_append.mp hnodup_last).2.2 b hc b (by simp) rfl
  have hbN : b ∉ N := (List.nodup_cons.mp (List.nodup_append.mp hnodup_last).2.1).1
  rw [List.append_assoc, hN, ← List.cons_append, hM, List.append_assoc, List.singleton_append,
    List.isChain_split]
  refine ⟨isChain_congr (fun c hc => ?_) (fun c hc => ?_) hfront, List.isChain_cons_cons.mpr
    ⟨⟨?_, ?_⟩, isChain_congr (fun c hc => ?_) (fun c hc => ?_) hback⟩⟩
  · rw [List.dropLast_concat] at hc
    rw [hn c (hmem_first c (List.mem_append_left _ hc)), if_neg]
    rw [hxa]; rintro rfl; exact haM hc
  · have hcL : c ∈ L₁ := by rw [← hM] at hc; exact hc
    rw [hp c (hmem_last c (List.mem_append_left _ hcL)), if_neg]
    rw [hxb]; rintro rfl; exact hbL hcL
  · rw [hn a (hmem_first a (by simp)), hxa, if_pos rfl, hxb]
  · rw [hp b (hmem_last b (by simp)), hxb, if_pos rfl, hxa]
  · have hcL : c ∈ L₂ := by rw [← hN, List.dropLast_concat] at hc; exact hc
    rw [hn c (hmem_first c (by simp [hcL])), if_neg]
    rw [hxa]; rintro rfl; exact haL hcL
  · have hcN : c ∈ N := hc
    rw [hp c (hmem_last c (by simp [hcN])), if_neg]
    rw [hxb]; rintro rfl; exact hbN hcN

/-- The neighbours of a node. -/
theorem Ring.next_mem (h : Ring next prev nil L) (hx : x ∈ L) :
    (next x = nil ∨ next x ∈ L) ∧ (prev x = nil ∨ prev x ∈ L) := by
  obtain ⟨L₁, L₂, rfl⟩ := List.append_of_mem hx
  obtain ⟨M, N, a, b, hM, hN, -, -, ⟨-, hxa⟩, hxb, -⟩ := h.between
  constructor
  · have hb : b ∈ L₂ ++ [nil] := by rw [hN]; simp
    rw [hxb]
    rcases List.mem_append.mp hb with hb | hb
    · exact .inr (by simp [hb])
    · exact .inl (List.mem_singleton.mp hb)
  · have ha : a ∈ nil :: L₁ := by rw [hM]; simp
    rw [hxa]
    rcases List.mem_cons.mp ha with ha | ha
    · exact .inl ha
    · exact .inr (by simp [ha])

theorem Ring.tail_mem (h : Ring next prev nil L) : prev nil = nil ∨ prev nil ∈ L := by
  obtain ⟨M, t, hM⟩ : ∃ M t, nil :: L = M ++ [t] :=
    ⟨_, _, (List.dropLast_append_getLast (by simp)).symm⟩
  have hchain := h.chain
  rw [← List.cons_append, hM, List.append_assoc, List.singleton_append, List.isChain_split] at hchain
  have ht : prev nil = t := (List.isChain_cons_cons.mp hchain.2).1.2
  rw [ht]
  have hmem : t ∈ nil :: L := by rw [hM]; simp
  exact List.mem_cons.mp hmem

/-! ## Singly linked lists -/

/-- The nodes `F` from `h` on. -/
def Stack (next : ι → ι) (nil : ι) : ι → List ι → Prop
  | h, [] => h = nil
  | h, x :: F => h = x ∧ x ≠ nil ∧ Stack next nil (next x) F

theorem Stack.congr : ∀ {h : ι} {F : List ι}, Stack next nil h F → (∀ a ∈ F, next' a = next a) →
    Stack next' nil h F
  | _, [], hs, _ => hs
  | _, x :: F, ⟨rfl, hne, hs⟩, hn =>
    ⟨rfl, hne, by rw [hn _ (by simp)]; exact hs.congr fun a ha => hn a (List.mem_cons_of_mem _ ha)⟩

theorem Stack.eq_nil_iff {h : ι} : ∀ {F : List ι}, Stack next nil h F → (h = nil ↔ F = [])
  | [], hs => iff_of_true hs rfl
  | _ :: _, ⟨hx, hne, _⟩ => iff_of_false (hx ▸ hne) (by simp)

theorem Stack.nil_notMem : ∀ {h : ι} {F : List ι}, Stack next nil h F → nil ∉ F
  | _, [], _ => by simp
  | _, _ :: _, ⟨_, hne, hs⟩ => by
    rw [List.mem_cons, not_or]
    exact ⟨hne.symm, hs.nil_notMem⟩

/-- What follows a node of the list. -/
theorem Stack.split : ∀ {h : ι} {F G : List ι}, Stack next nil h (F ++ x :: G) →
    x ≠ nil ∧ Stack next nil (next x) G
  | _, [], _, ⟨_, hne, hs⟩ => ⟨hne, hs⟩
  | _, _ :: _, _, ⟨_, _, hs⟩ => hs.split

/-- The node behind `p` leaves the list. -/
theorem Stack.unlink [DecidableEq ι] {p : ι} : ∀ {h : ι} {F G : List ι}, Stack next nil h (F ++ p :: x :: G) →
    (F ++ p :: x :: G).Nodup → Stack (Function.update next p (next x)) nil h (F ++ p :: G)
  | h, [], G, ⟨hp, hne, hx, hxne, hs⟩, hnodup => by
    obtain ⟨hpx, -⟩ := List.nodup_cons.mp hnodup
    refine ⟨hp, hne, ?_⟩
    rw [Function.update_self]
    refine hs.congr fun a ha => Function.update_of_ne ?_ _ _
    rintro rfl
    exact hpx (List.mem_cons_of_mem _ ha)
  | h, a :: F, G, ⟨ha, hne, hs⟩, hnodup => by
    obtain ⟨haF, hrest⟩ := List.nodup_cons.mp hnodup
    refine ⟨ha, hne, ?_⟩
    have hap : a ≠ p := by
      rintro rfl
      exact haF (by simp)
    rw [Function.update_of_ne hap]
    exact hs.unlink hrest

/-- A ring, read forward, is a stack. -/
theorem Ring.stack (h : Ring next prev nil L) : Stack next nil (next nil) L := by
  have key : ∀ (L : List ι) (a : ι), nil ∉ L → (a :: (L ++ [nil])).IsChain (Linked next prev) →
      Stack next nil (next a) L := by
    intro L
    induction L with
    | nil => exact fun a _ hc => (List.isChain_cons_cons.mp hc).1.1
    | cons x L ih =>
      intro a hnil hc
      obtain ⟨⟨hax, -⟩, hrest⟩ := List.isChain_cons_cons.mp hc
      rw [List.mem_cons, not_or] at hnil
      exact ⟨hax, Ne.symm hnil.1, ih x hnil.2 hrest⟩
  exact key L nil h.nil_notMem h.chain

/-! ## Following the links -/

variable [DecidableEq ι]

/-- The nodes from `i` on; `none` when they do not end within the fuel. -/
def walk (next : ι → ι) (nil : ι) : ℕ → ι → Option (List ι)
  | 0, _ => none
  | fuel + 1, i => if i = nil then some [] else (walk next nil fuel (next i)).map (i :: ·)

theorem Stack.walk_eq : ∀ {fuel : ℕ} {h : ι} {F : List ι}, Stack next nil h F → F.length < fuel →
    walk next nil fuel h = some F
  | _ + 1, _, [], hs, _ => if_pos hs
  | fuel + 1, h, x :: F, ⟨hx, hne, hs⟩, hf => by
    rw [walk, if_neg (hx ▸ hne), hx, hs.walk_eq (Nat.lt_of_succ_lt_succ hf)]
    rfl

end IntrusiveList
