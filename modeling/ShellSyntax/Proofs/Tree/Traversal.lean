import ShellSyntax.Check

/-!
# The order of a traversal

* `walk_eq`: a walk visits the node, then the tree below each child in turn;
* `children_induction`: induction on a tree by way of its children;
* `check_ok_iff`: a check on its own accepts a tree when no node of the walk breaks a rule.
-/

namespace ShellSyntax

namespace Node

/-- What is pending is visited one tree after the other. -/
theorem walkFrom_append (l m : List Node) : walkFrom (l ++ m) = walkFrom l ++ walkFrom m := by
  induction l using walkFrom.induct with
  | case1 => simp [walkFrom]
  | case2 n pending ih =>
    rw [List.cons_append, walkFrom, walkFrom, List.cons_append, ← ih, List.append_assoc]

theorem walkFrom_eq_flatMap (l : List Node) : walkFrom l = l.flatMap walk := by
  induction l with
  | nil => rw [walkFrom, List.flatMap_nil]
  | cons n rest ih => rw [List.flatMap_cons, ← ih, walk, ← walkFrom_append, List.singleton_append]

theorem walk_eq (n : Node) : n.walk = n :: n.children.flatMap walk := by
  rw [walk, walkFrom, List.append_nil, walkFrom_eq_flatMap]

/-- What holds of a whole tree holds of its root and of the trees below. -/
theorem forall_mem_walk_iff {P : Node → Prop} {n : Node} :
    (∀ m ∈ n.walk, P m) ↔ P n ∧ ∀ c ∈ n.children, ∀ m ∈ c.walk, P m := by
  rw [walk_eq, List.forall_mem_cons]
  simp only [List.mem_flatMap, forall_exists_index, and_imp]
  exact and_congr_right fun _ => ⟨fun h c hc m hm => h m c hc hm, fun h m c hc hm => h c hc m hm⟩

/-- What holds of a node whenever it holds of its children holds of every node. -/
theorem children_induction {P : Node → Prop} (h : ∀ n : Node, (∀ c ∈ n.children, P c) → P n)
    (n : Node) : P n :=
  h n fun c _ => children_induction h c
termination_by n.size
decreasing_by exact size_lt_of_mem_children ‹_›

end Node

/-! ### What a check accepts -/

theorem Violation.when_eq_nil_iff {v : Violation} {p : Prop} [Decidable p] :
    v.when p = [] ↔ ¬p := by
  unfold when
  split <;> simp [*]

namespace Node

theorem findings_eq_nil_iff {n : Node} : n.findings = [] ↔ ∀ m ∈ n.walk, m.violations = [] := by
  simp [findings, diagnoses, List.flatMap_eq_nil_iff]

theorem check_ok_iff {n : Node} {r : Reporter} :
    (n.check r).ok = true ↔ ∀ m ∈ n.walk, m.violations = [] := by
  rw [← findings_eq_nil_iff]
  simp [check, Checker.check]

end Node

end ShellSyntax
