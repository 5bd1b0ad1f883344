import ShellSyntax.Proofs.Tree.Stored
import ShellSyntax.Tree.Print

/-!
# What a check demands

* `Rule`: the rules for trees that stand for a program, `Rule.BrokenBy`: the nodes that break one;
* `violations_eq_nil_iff`: a node has no violation when it breaks no rule;
* `check_ok_iff_unbroken`: so a check accepts a tree when nothing stored in it breaks a rule.
-/

namespace ShellSyntax

/-- The rules for trees that stand for a program. -/
inductive Rule where
  | negation | patterns | caseWord | paramName | shortForm | quoteMark | target | redirectOp
  | appendName | identifier | functionName | loopName | expansionOp | operands | postfixOp
  deriving DecidableEq, Repr

/-- The node is of a kind that the rule is about, and breaks it. -/
def Rule.BrokenBy : Rule → Node → Prop
  | .negation, .stmt s => s.negated = true ∧ s.command = none
  | .patterns, .caseItem i => i.patterns = []
  | .caseWord, .command (.caseClause word _ _ _) => word.parts = []
  | .paramName, .part (.param e) => e.param.value = ""
  | .shortForm, .part (.param e) =>
    e.short = true ∧
      (e.length = true ∨ e.index ≠ none ∨ e.replace ≠ none ∨ e.operation ≠ none)
  | .quoteMark, .part (.quoted quote _ _) => quote ∉ Token.quotes
  | .target, .redirect r => r.word.parts = []
  | .redirectOp, .redirect r => r.op ∉ Token.redirects
  | .appendName, .assign a => a.append = true ∧ a.name = none
  | .identifier, .assign a => ∃ name, a.name = some name ∧ ¬IsName name.value
  | .functionName, .command (.function name _ _ _) => name.value = ""
  | .loopName, .forHead (.words name _) => name.value = ""
  | .expansionOp, .expansion e => e.op ∉ Token.expansions
  | .operands, .arith (.unary _ operand _ _) => operand = none
  | .operands, .arith (.binary _ left right _) => left = none ∨ right = none
  | .postfixOp, .arith (.unary op _ postfixed _) => postfixed = true ∧ op ∉ Token.postfixes
  | _, _ => False

theorem Rule.forall_iff {P : Rule → Prop} : (∀ rule, P rule) ↔
    P .negation ∧ P .patterns ∧ P .caseWord ∧ P .paramName ∧ P .shortForm ∧ P .quoteMark ∧
      P .target ∧ P .redirectOp ∧ P .appendName ∧ P .identifier ∧ P .functionName ∧ P .loopName ∧
      P .expansionOp ∧ P .operands ∧ P .postfixOp := by
  constructor
  · intro h
    exact ⟨h _, h _, h _, h _, h _, h _, h _, h _, h _, h _, h _, h _, h _, h _, h _⟩
  · rintro ⟨_, _, _, _, _, _, _, _, _, _, _, _, _, _, _⟩ rule
    cases rule <;> assumption

namespace Node

theorem violations_eq_nil_iff (n : Node) :
    n.violations = [] ↔ ∀ rule : Rule, ¬rule.BrokenBy n := by
  rw [Rule.forall_iff]
  cases n with
  | part p =>
    cases p with
    | param e =>
      simp [violations, Rule.BrokenBy, ParamExp.violations, ParamExp.isLong,
        Violation.when_eq_nil_iff, and_assoc]
    | _ => simp [violations, Rule.BrokenBy, Violation.when_eq_nil_iff]
  | arith a =>
    cases a with
    | unary op operand postfixed pos =>
      cases operand <;>
        simp [violations, Rule.BrokenBy, Arith.violations, Violation.when_eq_nil_iff]
    | _ => simp [violations, Rule.BrokenBy, Arith.violations, Violation.when_eq_nil_iff]
  | assign a =>
    obtain ⟨value, name, append⟩ := a
    cases name <;> simp [violations, Rule.BrokenBy, Assign.violations, Violation.when_eq_nil_iff]
  | command c =>
    cases c <;> simp [violations, Rule.BrokenBy, Command.violations, Violation.when_eq_nil_iff]
  | forHead h =>
    cases h <;> simp [violations, Rule.BrokenBy, Violation.when_eq_nil_iff]
  | redirect r =>
    simp [violations, Rule.BrokenBy, Redirect.violations, Violation.when_eq_nil_iff, and_comm]
  | _ => simp [violations, Rule.BrokenBy, Violation.when_eq_nil_iff]

theorem mem_stored_of_mem_children {n c : Node} (h : c ∈ n.children) : c ∈ n.stored := by
  rw [mem_stored_iff, walk_eq]
  exact List.mem_cons_of_mem _ (List.mem_flatMap.mpr ⟨c, h, mem_stored_iff.mp c.mem_stored_self⟩)

/-- What is stored below a node of the tree is stored in the tree. -/
theorem mem_stored_trans {n m k : Node} (hm : m ∈ n.stored) (hk : k ∈ m.stored) : k ∈ n.stored := by
  rw [mem_stored_iff] at hm hk ⊢
  induction n using children_induction with
  | h n ih =>
    rw [walk_eq] at hm ⊢
    rcases List.mem_cons.mp hm with rfl | hm
    · rwa [walk_eq] at hk
    · obtain ⟨c, hc, hm⟩ := List.mem_flatMap.mp hm
      exact List.mem_cons_of_mem _ (List.mem_flatMap.mpr ⟨c, hc, ih c hc hm⟩)

theorem check_ok_iff_stored {n : Node} {r : Reporter} :
    (n.check r).ok = true ↔ ∀ m ∈ n.stored, ∀ rule : Rule, ¬rule.BrokenBy m := by
  simp only [check_ok_iff, mem_stored_iff, violations_eq_nil_iff]

theorem findings_eq_nil_iff_unbroken {n : Node} :
    n.findings = [] ↔ ∀ m ∈ n.stored, ∀ rule : Rule, ¬rule.BrokenBy m := by
  rw [← check_ok_iff_stored (r := {})]
  simp [check, Checker.check]

/-- What is logged is what was found, and it counts as accepted when that is nothing. -/
theorem backlog_check_eq_iff {n : Node} {r : Reporter} :
    (n.check r).reporter.backlog = r.backlog ↔ (n.check r).ok = true := by
  simp [check, Checker.check, Reporter.logAll]

end Node

/-- A check accepts a tree exactly if no node stored in it, at any depth, breaks a rule. It leaves
the backlog alone exactly if it accepts, and accepts a tree only with every tree inside it. -/
theorem check_ok_iff_unbroken (n : Node) (r : Reporter) :
    ((n.check r).ok = true ↔ ∀ m ∈ n.stored, ∀ rule : Rule, ¬rule.BrokenBy m) ∧
    ((n.check r).reporter.backlog = r.backlog ↔ (n.check r).ok = true) ∧
    ((n.check r).ok = true → ∀ m ∈ n.stored, ∀ other : Reporter, (m.check other).ok = true) := by
  refine ⟨Node.check_ok_iff_stored, Node.backlog_check_eq_iff, fun h m hm other => ?_⟩
  rw [Node.check_ok_iff_stored] at h ⊢
  intro k hk
  exact h k (Node.mem_stored_trans hm hk)

/-- The redirection of an accepted statement is accepted on its own. -/
theorem check_ok_iff_unbroken_redirect : ∃ n m : Node,
    n.print = "X+=1 cat 2>F" ∧ m.print = "2>F" ∧ (n.check {}).ok = true ∧ m ∈ n.stored ∧
      (∀ rule : Rule, ¬rule.BrokenBy m) ∧ (m.check {}).ok = true := by
  let redirect : Redirect :=
    { op := .greater, word := .ofLit "F", descriptor := some ⟨"2", {}⟩ }
  let n : Node := .stmt
    { command := some (.simple [.ofLit "cat"])
      assigns := [⟨.ofLit "1", some ⟨"X", {}⟩, true⟩]
      redirs := [redirect] }
  have accepted : (n.check {}).ok = true := by
    decide +kernel
  have inside : Node.redirect redirect ∈ n.stored :=
    Node.mem_stored_of_mem_children (by simp [n, Node.children])
  obtain ⟨unbroken, -, below⟩ := check_ok_iff_unbroken n {}
  exact ⟨n, .redirect redirect, by decide, by decide, accepted, inside,
    unbroken.mp accepted _ inside, below accepted _ inside {}⟩

end ShellSyntax
