import Mathlib.Data.List.Chain
import Mathlib.Order.Bounds.Basic
import ShellSyntax.Proofs.Tree.Traversal

/-!
# The depth of a tree is its height

* `Node.height_le_iff`: the height of a node through those of its children;
* `Node.IsChain`: a chain of nodes down from a node, each a child of the one before; every length up
  to the height is that of a chain (`exists_chain`), and no other is (`length_le_height`);
* `Sounding`: a count of levels under way, which takes the children of a node in any order; a round
  keeps how deep the pending trees go (`Step.within_iff`) and takes one node off what is left
  (`Step.remaining_eq`);
* `depth_longest_chain`: so the count ends with the height, whatever the order.
-/

namespace ShellSyntax

/-! ### Height -/

theorem foldl_max_le_iff {l : List Nat} {a k : Nat} :
    l.foldl max a ≤ k ↔ a ≤ k ∧ ∀ x ∈ l, x ≤ k := by
  induction l generalizing a with
  | nil => simp
  | cons x rest ih => rw [List.foldl_cons, ih, Nat.max_le, List.forall_mem_cons, and_assoc]

namespace Node

theorem height_eq (n : Node) : n.height = 1 + (n.children.map height).foldl max 0 := by
  rw [height, List.map_attach_eq_pmap, List.pmap_eq_map]

theorem height_le_iff {n : Node} {k : Nat} :
    n.height ≤ k ↔ 0 < k ∧ ∀ c ∈ n.children, c.height < k := by
  rw [height_eq]
  constructor
  · intro h
    obtain ⟨-, hchildren⟩ := foldl_max_le_iff.mp (Nat.le_sub_of_add_le' h)
    refine ⟨by omega, fun c hc => ?_⟩
    have := hchildren c.height (List.mem_map_of_mem hc)
    omega
  · rintro ⟨hpos, hchildren⟩
    have hmax : (n.children.map height).foldl max 0 ≤ k - 1 := by
      refine foldl_max_le_iff.mpr ⟨Nat.zero_le _, fun x hx => ?_⟩
      obtain ⟨c, hc, rfl⟩ := List.mem_map.mp hx
      exact Nat.le_sub_one_of_lt (hchildren c hc)
    omega

theorem sizeAll_perm {l m : List Node} (h : l.Perm m) : sizeAll l = sizeAll m := by
  induction h with
  | nil => rfl
  | cons n _ ih => rw [sizeAll_cons, sizeAll_cons, ih]
  | swap n m l => simp only [sizeAll_cons, Nat.add_left_comm]
  | trans _ _ ih ih' => exact ih.trans ih'

/-! ### Chains -/

/-- The nodes lead down from `n`, each of them a child of the one before. -/
def IsChain (n : Node) (chain : List Node) : Prop :=
  chain.head? = some n ∧ chain.IsChain fun m c => c ∈ m.children

theorem isChain_cons_cons {n m c : Node} {rest : List Node} :
    n.IsChain (m :: c :: rest) ↔ m = n ∧ c ∈ m.children ∧ c.IsChain (c :: rest) := by
  simp [IsChain]

theorem length_le_height {n : Node} {chain : List Node} (h : n.IsChain chain) :
    chain.length ≤ n.height := by
  induction chain generalizing n with
  | nil => simp [IsChain] at h
  | cons m rest ih =>
    cases rest with
    | nil => exact (height_le_iff.mp (Nat.le_refl n.height)).1
    | cons c rest =>
      obtain ⟨rfl, hc, hrest⟩ := isChain_cons_cons.mp h
      exact Nat.lt_of_le_of_lt (ih hrest) ((height_le_iff.mp (Nat.le_refl m.height)).2 c hc)

theorem exists_chain {n : Node} {k : Nat} (hpos : 0 < k) (h : k ≤ n.height) :
    ∃ chain, n.IsChain chain ∧ chain.length = k := by
  induction k generalizing n with
  | zero => exact absurd hpos (Nat.lt_irrefl 0)
  | succ k ih =>
    by_cases hk : k = 0
    · exact ⟨[n], by simp [IsChain], by simp [hk]⟩
    · -- A node that reaches below level `k` has a child from which `k` levels are left.
      have hdeep : ¬n.height ≤ k := by omega
      rw [height_le_iff] at hdeep
      obtain ⟨c, hc, hheight⟩ : ∃ c ∈ n.children, k ≤ c.height := by
        by_contra hno
        push Not at hno
        exact hdeep ⟨by omega, hno⟩
      obtain ⟨chain, hchain, rfl⟩ := ih (by omega) hheight
      cases chain with
      | nil => exact absurd rfl hk
      | cons m rest =>
        obtain rfl : m = c := by simpa using hchain.1
        exact ⟨n :: m :: rest, isChain_cons_cons.mpr ⟨rfl, hc, hchain⟩, rfl⟩

end Node

/-! ### Counting levels -/

/-- A count of levels under way: the deepest level met so far, and the stack of the nodes that wait,
each with its level. -/
structure Sounding where
  deepest : Nat
  pending : List (Node × Nat)

namespace Sounding

/-- One round: the top of the stack is met, and its children take its place in some order. -/
inductive Step : Sounding → Sounding → Prop where
  | visit (deepest : Nat) (n : Node) (level : Nat) (pending : List (Node × Nat))
      {below : List Node} (h : below.Perm n.children) :
      Step ⟨deepest, (n, level) :: pending⟩
        ⟨max deepest level, below.map (·, level + 1) ++ pending⟩

/-- A number of rounds, one after the other. -/
inductive Run : Nat → Sounding → Sounding → Prop where
  | stop (s : Sounding) : Run 0 s s
  | round {k : Nat} {s t u : Sounding} (first : Step s t) (rest : Run k t u) : Run (k + 1) s u

/-- No level below `k` has been met or is still to be met. -/
def Within (s : Sounding) (k : Nat) : Prop :=
  s.deepest ≤ k ∧ ∀ p ∈ s.pending, p.2 + p.1.height ≤ k + 1

/-- The number of nodes that are not yet met. -/
def remaining (s : Sounding) : Nat := Node.sizeAll (s.pending.map Prod.fst)

theorem remaining_below (below : List Node) (level : Nat) (pending : List (Node × Nat)) :
    Node.sizeAll ((below.map (·, level) ++ pending).map Prod.fst)
      = Node.sizeAll below + Node.sizeAll (pending.map Prod.fst) := by
  simp [Function.comp_def]

/-- A tree goes no deeper than its root and the trees below, which begin one level further down. -/
theorem level_add_height_le_iff {n : Node} {level k : Nat} :
    level + n.height ≤ k + 1 ↔ level ≤ k ∧ ∀ c ∈ n.children, level + 1 + c.height ≤ k + 1 := by
  have hheight := Node.height_le_iff (n := n) (k := k + 1 - level)
  constructor
  · intro h
    obtain ⟨hpos, hchildren⟩ := hheight.mp (by omega)
    refine ⟨by omega, fun c hc => ?_⟩
    have := hchildren c hc
    omega
  · rintro ⟨hlevel, hchildren⟩
    have := hheight.mpr ⟨by omega, fun c hc => by have := hchildren c hc; omega⟩
    omega

theorem Step.within_iff {s t : Sounding} (h : Step s t) (k : Nat) : t.Within k ↔ s.Within k := by
  obtain ⟨deepest, n, level, pending, hbelow⟩ := h
  simp only [Within, Nat.max_le, List.mem_append, List.mem_map, or_imp, forall_and,
    List.forall_mem_cons, forall_exists_index, and_imp, forall_apply_eq_imp_iff₂, hbelow.mem_iff,
    level_add_height_le_iff (n := n)]
  tauto

theorem Step.remaining_eq {s t : Sounding} (h : Step s t) : s.remaining = t.remaining + 1 := by
  obtain @⟨deepest, n, level, pending, below, hbelow⟩ := h
  have hsize := n.size_eq
  have hperm := Node.sizeAll_perm hbelow
  simp only [remaining, remaining_below, List.map_cons, Node.sizeAll_cons]
  omega

theorem Run.within_iff {j : Nat} {s t : Sounding} (h : Run j s t) (k : Nat) :
    t.Within k ↔ s.Within k := by
  induction h with
  | stop => exact Iff.rfl
  | round first rest ih => exact ih.trans (first.within_iff k)

theorem Run.remaining_eq {j : Nat} {s t : Sounding} (h : Run j s t) :
    s.remaining = t.remaining + j := by
  induction h with
  | stop => rfl
  | round first rest ih =>
    have := first.remaining_eq
    omega

/-- Nothing is left only when the stack is empty, since every tree has a node. -/
theorem remaining_eq_zero_iff {s : Sounding} : s.remaining = 0 ↔ s.pending = [] := by
  obtain ⟨deepest, _ | ⟨⟨n, level⟩, pending⟩⟩ := s
  · simp [remaining]
  · have := n.size_eq
    simp only [remaining, List.map_cons, Node.sizeAll_cons, reduceCtorEq, iff_false]
    omega

theorem exists_step {s : Sounding} (h : s.remaining ≠ 0) : ∃ t, Step s t := by
  obtain ⟨deepest, _ | ⟨⟨n, level⟩, pending⟩⟩ := s
  · exact absurd rfl h
  · exact ⟨_, .visit deepest n level pending (.refl _)⟩

/-- At the start, the whole tree is still to be met, and its root is at the first level. -/
theorem within_start_iff {n : Node} {k : Nat} :
    Within ⟨0, [(n, 1)]⟩ k ↔ n.height ≤ k := by
  simp [Within, Nat.add_comm 1]

/-- At the end, the deepest level that was met is the height of the tree. -/
theorem Run.deepest_eq {j deepest : Nat} {n : Node} (h : Run j ⟨0, [(n, 1)]⟩ ⟨deepest, []⟩) :
    deepest = n.height := by
  refine eq_of_forall_ge_iff fun k => ?_
  rw [← within_start_iff, ← h.within_iff k]
  simp [Within]

end Sounding

namespace Node

/-- The loop takes the children of each node last to first, and ends when all nodes are met. -/
theorem run_depthFrom (deepest : Nat) (pending : List (Node × Nat)) :
    Sounding.Run (sizeAll (pending.map Prod.fst)) ⟨deepest, pending⟩
      ⟨depthFrom deepest pending, []⟩ := by
  induction deepest, pending using depthFrom.induct with
  | case1 deepest =>
    rw [depthFrom]
    exact .stop _
  | case2 deepest n level pending ih =>
    have hstep := Sounding.Step.visit deepest n level pending n.children.reverse_perm
    have hleft : sizeAll (((n, level) :: pending).map Prod.fst)
        = sizeAll ((n.children.reverse.map (·, level + 1) ++ pending).map Prod.fst) + 1 :=
      hstep.remaining_eq
    rw [depthFrom, hleft]
    exact .round hstep ih

theorem depth_eq_height (n : Node) : n.depth = n.height :=
  (run_depthFrom 0 [(n, 1)]).deepest_eq

/-- A count of levels that begins with the whole tree goes on for as many rounds as the tree has
nodes, and then ends with the depth, in whatever order it takes the children of each node; the loop
of the depth is one such count. The depth is one more than the greatest depth of a child, and the
length of a longest chain of nodes down from the root. -/
theorem depth_longest_chain (n : Node) :
    (∀ k s, Sounding.Run k ⟨0, [(n, 1)]⟩ s → k ≤ n.size ∧ (k < n.size → ∃ t, Sounding.Step s t) ∧
      (k = n.size → s = ⟨n.depth, []⟩)) ∧
    Sounding.Run n.size ⟨0, [(n, 1)]⟩ ⟨n.depth, []⟩ ∧
    n.depth = 1 + (n.children.map depth).foldl max 0 ∧
    IsGreatest {k | ∃ chain, n.IsChain chain ∧ chain.length = k} n.depth := by
  have hstart : Sounding.remaining ⟨0, [(n, 1)]⟩ = n.size := by
    simp [Sounding.remaining]
  refine ⟨fun k s hrun => ?_, ?_, ?_, ?_, ?_⟩
  · have hleft := hrun.remaining_eq
    rw [hstart] at hleft
    refine ⟨by omega, fun hk => Sounding.exists_step (by omega), fun hk => ?_⟩
    have hmet : s.remaining = 0 := by omega
    obtain ⟨deepest, pending⟩ := s
    obtain rfl : pending = [] := Sounding.remaining_eq_zero_iff.mp hmet
    rw [hrun.deepest_eq, depth_eq_height]
  · have hrun := run_depthFrom 0 [(n, 1)]
    rwa [show sizeAll ([(n, 1)].map Prod.fst) = n.size from hstart] at hrun
  · rw [funext depth_eq_height, n.height_eq]
  · rw [depth_eq_height]
    exact exists_chain (height_le_iff.mp (Nat.le_refl n.height)).1 (Nat.le_refl _)
  · rintro k ⟨chain, hchain, rfl⟩
    rw [depth_eq_height]
    exact length_le_height hchain

end Node

end ShellSyntax
