import Mathlib.Data.List.Perm.Basic
import Mathlib.Logic.Function.Iterate
import ShellSyntax.Proofs.Tree.Traversal
import ShellSyntax.Schema.Fields

/-!
# A walk visits what is stored

* `Visit`: a walk under way; each round keeps the order that is still to come (`order_next`) and
  takes one node off what is left (`remaining_next`);
* `Node.stored`: the nodes of a tree, read off the fields of each node;
* `walk_preorder`: the loop ends with the nodes in preorder, each stored node once.
-/

namespace ShellSyntax

namespace Node

theorem preorder_eq (n : Node) : n.preorder = n :: n.children.flatMap preorder := by
  rw [preorder]
  simp

theorem walk_eq_preorder (n : Node) : n.walk = n.preorder := by
  induction n using children_induction with
  | h n ih =>
    rw [walk_eq, preorder_eq, List.flatMap_def, List.map_congr_left ih, ← List.flatMap_def]

end Node

/-! ### The loop -/

/-- A walk under way: the nodes visited so far, and the stack of those that wait, its top first. -/
@[ext]
structure Visit where
  seen : List Node
  pending : List Node

namespace Visit

/-- One round: the top of the stack is visited, and its children wait in its place. -/
def next : Visit → Visit
  | ⟨seen, []⟩ => ⟨seen, []⟩
  | ⟨seen, n :: pending⟩ => ⟨seen ++ [n], n.children ++ pending⟩

/-- The visited nodes, and then the trees that wait, each in preorder. -/
def order (v : Visit) : List Node := v.seen ++ v.pending.flatMap Node.preorder

/-- The number of nodes that are not yet visited. -/
def remaining (v : Visit) : Nat := Node.sizeAll v.pending

theorem order_next (v : Visit) : v.next.order = v.order := by
  obtain ⟨seen, _ | ⟨n, pending⟩⟩ := v
  · rfl
  · simp [next, order, n.preorder_eq]

theorem remaining_next (v : Visit) : v.next.remaining = v.remaining - 1 := by
  obtain ⟨seen, _ | ⟨n, pending⟩⟩ := v
  · rfl
  · have := n.size_eq
    simp only [next, remaining, Node.sizeAll_append, Node.sizeAll_cons]
    omega

theorem order_iterate (v : Visit) (k : Nat) : (next^[k] v).order = v.order := by
  induction k generalizing v with
  | zero => rfl
  | succ k ih => rw [Function.iterate_succ_apply, ih, order_next]

theorem remaining_iterate (v : Visit) (k : Nat) : (next^[k] v).remaining = v.remaining - k := by
  induction k generalizing v with
  | zero => rfl
  | succ k ih =>
    rw [Function.iterate_succ_apply, ih, remaining_next]
    omega

/-- Nothing is left only when the stack is empty, since every tree has a node. -/
theorem pending_eq_nil_iff {v : Visit} : v.pending = [] ↔ v.remaining = 0 := by
  obtain ⟨seen, _ | ⟨n, pending⟩⟩ := v
  · simp [remaining]
  · have := n.size_eq
    simp only [remaining, Node.sizeAll_cons, reduceCtorEq, false_iff]
    omega

theorem seen_of_pending_eq_nil {v : Visit} (h : v.pending = []) : v.seen = v.order := by
  simp [order, h]

end Visit

/-! ### The nodes in the fields -/

namespace Node

/-- The node, then the nodes stored in its fields and below them. -/
def stored (n : Node) : List Node :=
  n :: n.fields.attach.flatMap fun v => v.1.held.attach.flatMap fun c => stored c.1
termination_by n.size
decreasing_by exact size_lt_of_mem_fields v.2 c.2

theorem stored_eq (n : Node) :
    n.stored = n :: (n.fields.flatMap FieldValue.held).flatMap stored := by
  rw [stored, List.flatMap_assoc]
  simp

theorem mem_stored_self (n : Node) : n ∈ n.stored := by
  rw [stored_eq]
  exact List.mem_cons_self

theorem walk_perm_stored (n : Node) : n.walk.Perm n.stored := by
  induction n using children_induction with
  | h n ih =>
    rw [walk_eq, stored_eq]
    exact (n.held_perm_children.symm.flatMap ih).cons n

theorem mem_stored_iff {n m : Node} : m ∈ n.stored ↔ m ∈ n.walk :=
  n.walk_perm_stored.mem_iff.symm

/-- The loop of a walk ends after as many rounds as the tree has nodes, and not before. By then it
has visited the tree in preorder. The children of a node are the nodes in its fields, so every node
that is stored in the tree, at any depth, is visited once for each place that holds it. -/
theorem walk_preorder (n : Node) :
    (∀ k, (Visit.next^[k] ⟨[], [n]⟩).pending = [] ↔ n.size ≤ k) ∧
    Visit.next^[n.size] ⟨[], [n]⟩ = ⟨n.walk, []⟩ ∧
    n.walk = n.preorder ∧
    n.preorder = n :: n.children.flatMap preorder ∧
    n.children.Perm (n.fields.flatMap FieldValue.held) ∧
    n.walk.Perm n.stored := by
  have hend (k : Nat) : (Visit.next^[k] ⟨[], [n]⟩).pending = [] ↔ n.size ≤ k := by
    rw [Visit.pending_eq_nil_iff, Visit.remaining_iterate]
    simp only [Visit.remaining, sizeAll_cons, sizeAll_nil]
    omega
  have hpending := (hend n.size).mpr (Nat.le_refl _)
  have hseen : (Visit.next^[n.size] ⟨[], [n]⟩).seen = n.walk := by
    rw [Visit.seen_of_pending_eq_nil hpending, Visit.order_iterate, walk_eq_preorder]
    simp [Visit.order]
  exact ⟨hend, Visit.ext hseen hpending, n.walk_eq_preorder, n.preorder_eq,
    n.held_perm_children.symm, n.walk_perm_stored⟩

end Node

end ShellSyntax
