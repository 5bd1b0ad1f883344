import ShellSyntax.Proofs.Tree.Rules

/-!
# What a check tells

A node may break several rules at once, and a check tells each of them, but for one that an absent
operand hides.

* `Node.breaches`: the nodes of a tree, each with every rule that it breaks; `Node.told`: the nodes
  with the violations that are told of them (`map_told`);
* `backlog_check`: a check logs a diagnosis for each of these;
* `check_tells_breaches`: so as many errors are logged as rules are broken, less the hidden ones.
-/

namespace ShellSyntax

/-! ### The rules that a node breaks -/

namespace Rule

/-- The rules in the order in which a node is examined. -/
def all : List Rule :=
  [.negation, .paramName, .shortForm, .quoteMark, .expansionOp, .appendName, .identifier,
   .redirectOp, .target, .caseWord, .patterns, .functionName, .loopName, .operands, .postfixOp]

theorem mem_all (rule : Rule) : rule ∈ all := by
  cases rule <;> decide

instance (rule : Rule) (n : Node) : Decidable (rule.BrokenBy n) := by
  unfold BrokenBy
  split <;> infer_instance

/-- The operator of a unary expression without an operand is not looked at. -/
def HiddenIn : Rule → Node → Prop
  | .postfixOp, .arith (.unary _ none _ _) => True
  | _, _ => False

instance (rule : Rule) (n : Node) : Decidable (rule.HiddenIn n) := by
  unfold HiddenIn
  split <;> infer_instance

end Rule

/-- The rule that is broken. -/
@[simp] def Violation.rule : Violation → Rule
  | .negatedNothing => .negation
  | .unnamedParam => .paramName
  | .longShort _ => .shortForm
  | .notAQuote _ => .quoteMark
  | .notAnExpansion _ => .expansionOp
  | .unnamedAppend => .appendName
  | .notAName _ => .identifier
  | .notARedirect _ => .redirectOp
  | .noTarget _ => .target
  | .noCaseWord => .caseWord
  | .noPatterns => .patterns
  | .unnamedFunction => .functionName
  | .unnamedLoop => .loopName
  | .noOperand _ | .missingOperand _ => .operands
  | .notPostfix _ => .postfixOp

@[simp] theorem Violation.map_rule_when (v : Violation) (p : Prop) [Decidable p] :
    (v.when p).map rule = if p then [v.rule] else [] := by
  unfold when
  split <;> rfl

theorem Rule.filter_cons_eq_append (P : Rule → Prop) [DecidablePred P] (rule : Rule)
    (l : List Rule) : (rule :: l).filter (fun rule => P rule)
      = (if P rule then [rule] else []) ++ l.filter fun rule => P rule := by
  by_cases h : P rule <;> simp [h]

namespace Node

/-- The rules that the node breaks. -/
def broken (n : Node) : List Rule := Rule.all.filter fun rule => rule.BrokenBy n

/-- The violations of a node are one for each rule that it breaks, but for a hidden one. -/
theorem map_rule_violations (n : Node) :
    n.violations.map Violation.rule = n.broken.filter fun rule => ¬rule.HiddenIn n := by
  have hfilter : (n.broken.filter fun rule => ¬rule.HiddenIn n)
      = Rule.all.filter fun rule => ¬rule.HiddenIn n ∧ rule.BrokenBy n := by
    simp [broken, List.filter_filter]
  rw [hfilter, Rule.all]
  simp only [Rule.filter_cons_eq_append, List.filter_nil]
  cases n with
  | part p =>
    cases p with
    | param e =>
      simp [violations, ParamExp.violations, ParamExp.isLong, Rule.BrokenBy, Rule.HiddenIn,
        or_assoc, Option.isSome_iff_ne_none]
    | _ => simp [violations, Rule.BrokenBy, Rule.HiddenIn]
  | arith a =>
    cases a with
    | unary op operand postfixed pos =>
      cases operand <;> simp [violations, Arith.violations, Rule.BrokenBy, Rule.HiddenIn]
    | _ => simp [violations, Arith.violations, Rule.BrokenBy, Rule.HiddenIn]
  | assign a =>
    obtain ⟨value, name, append⟩ := a
    cases name <;> simp [violations, Assign.violations, Rule.BrokenBy, Rule.HiddenIn]
  | command c => cases c <;> simp [violations, Command.violations, Rule.BrokenBy, Rule.HiddenIn]
  | forHead h => cases h <;> simp [violations, Rule.BrokenBy, Rule.HiddenIn]
  | redirect r => simp [violations, Redirect.violations, Rule.BrokenBy, Rule.HiddenIn]
  | _ => simp [violations, Rule.BrokenBy, Rule.HiddenIn]

/-- A violation is of a rule that the node breaks. -/
theorem brokenBy_of_mem_violations {n : Node} {v : Violation} (hv : v ∈ n.violations) :
    v.rule.BrokenBy n := by
  have hrule : v.rule ∈ n.broken.filter fun rule => ¬rule.HiddenIn n := by
    rw [← map_rule_violations]
    exact List.mem_map_of_mem hv
  exact of_decide_eq_true (List.mem_filter.mp (List.mem_filter.mp hrule).1).2

/-! ### The rules that a tree breaks -/

/-- The nodes of the tree in the order of a walk, each with every rule that it breaks. -/
def breaches (n : Node) : List (Node × Rule) := n.walk.flatMap fun m => m.broken.map (m, ·)

/-- The nodes of the tree in the same order, with the violations that are told of them. -/
def told (n : Node) : List (Node × Violation) := n.walk.flatMap fun m => m.violations.map (m, ·)

/-- What is told of a violation. -/
def diagnosis (n : Node) (v : Violation) : Diagnostic :=
  { message := v.message, construct := n.kind.name, pos := n.faultPos }

theorem mem_breaches_iff {n m : Node} {rule : Rule} :
    (m, rule) ∈ n.breaches ↔ m ∈ n.walk ∧ rule.BrokenBy m := by
  simp [breaches, broken, Rule.mem_all]

theorem mem_told_iff {n m : Node} {v : Violation} :
    (m, v) ∈ n.told ↔ m ∈ n.walk ∧ v ∈ m.violations := by
  simp [told]

/-- A breach is told in its place, unless it is hidden. -/
theorem map_told (n : Node) : (n.told.map fun (m, v) => (m, v.rule))
    = n.breaches.filter fun (m, rule) => ¬rule.HiddenIn m := by
  have hnode : ∀ m : Node, ((m.violations.map (m, ·)).map fun (m, v) => (m, v.rule))
      = (m.broken.map (m, ·)).filter fun (m, rule) => ¬rule.HiddenIn m := by
    intro m
    have hrules : ((m.violations.map (m, ·)).map fun (m, v) => (m, v.rule))
        = (m.violations.map Violation.rule).map (m, ·) := by
      simp
    rw [hrules, map_rule_violations, List.filter_map]
    rfl
  rw [told, breaches, List.map_flatMap, List.filter_flatMap]
  exact List.flatMap_congr fun m _ => hnode m

theorem findings_eq (n : Node) : n.findings = n.told.map fun (m, v) => m.diagnosis v := by
  rw [findings, told, List.map_flatMap]
  exact List.flatMap_congr fun m _ => by simp [diagnoses, diagnosis]

theorem backlog_check (n : Node) (r : Reporter) : (n.check r).reporter.backlog
    = r.backlog ++ n.told.map fun (m, v) => r.tagged (m.diagnosis v).render := by
  simp [check, Checker.check, Reporter.logAll, findings_eq, Function.comp_def]

end Node

/-- A check logs one error for each node and each rule that the node breaks, in the order of the
walk, except that a postfix operator in the place of another is not told of where there is no
operand either. So the number of errors is that of the breaches exactly if no node has both
faults. -/
theorem check_tells_breaches (n : Node) (r : Reporter) :
    (n.check r).reporter.backlog
      = r.backlog ++ (n.told.map fun (m, v) => r.tagged (m.diagnosis v).render) ∧
    (n.told.map fun (m, v) => (m, v.rule)) = (n.breaches.filter fun (m, rule) => ¬rule.HiddenIn m) ∧
    (n.check r).reporter.backlog.length
        + (n.breaches.filter fun (m, rule) => rule.HiddenIn m).length
      = r.backlog.length + n.breaches.length ∧
    ((n.check r).reporter.backlog.length = r.backlog.length + n.breaches.length ↔
      ∀ op pos, .arith (.unary op none true pos) ∈ n.walk → op ∈ Token.postfixes) := by
  have hlength : n.told.length = (n.breaches.filter fun (m, rule) => ¬rule.HiddenIn m).length := by
    simpa using congrArg List.length n.map_told
  have hsplit := List.length_eq_length_filter_add (l := n.breaches) fun (m, rule) => rule.HiddenIn m
  have hcount : (n.check r).reporter.backlog.length
      + (n.breaches.filter fun (m, rule) => rule.HiddenIn m).length
        = r.backlog.length + n.breaches.length := by
    simp only [n.backlog_check r, List.length_append, List.length_map, hlength, hsplit,
      decide_not]
    omega
  refine ⟨n.backlog_check r, n.map_told, hcount, ?_⟩
  have hnone : (n.check r).reporter.backlog.length = r.backlog.length + n.breaches.length ↔
      (n.breaches.filter fun (m, rule) => rule.HiddenIn m) = [] := by
    rw [← List.length_eq_zero_iff]
    omega
  rw [hnone, List.filter_eq_nil_iff]
  constructor
  · intro h op pos hm
    by_contra hop
    have hbroken : Rule.postfixOp.BrokenBy (.arith (.unary op none true pos)) := ⟨rfl, hop⟩
    exact h _ (Node.mem_breaches_iff.mpr ⟨hm, hbroken⟩) (decide_eq_true trivial)
  · rintro h ⟨m, rule⟩ hb hhidden
    obtain ⟨hm, hbroken⟩ := Node.mem_breaches_iff.mp hb
    have hhidden : rule.HiddenIn m := of_decide_eq_true hhidden
    unfold Rule.HiddenIn at hhidden
    split at hhidden
    · obtain ⟨rfl, hop⟩ := hbroken
      exact hop (h _ _ hm)
    · exact hhidden

/-- A minus sign behind an operand that is not there breaks two rules, and one is told. -/
theorem absent_operand_hides_operator : ∃ n : Node,
    n.breaches.map Prod.snd = [.operands, .postfixOp] ∧
      (n.check {}).reporter.backlog
        = ["\x7bNone\x7d \t| unary `-' without an operand in \x7bUnaryExpr\x7d"] :=
  ⟨.arith (.unary .minus none true {}), by decide +kernel, by decide +kernel⟩

end ShellSyntax
