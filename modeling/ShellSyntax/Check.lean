import ShellSyntax.Arith.Lexeme
import ShellSyntax.Reporter
import ShellSyntax.Tree.Anchor
import ShellSyntax.Tree.Kind
import ShellSyntax.Tree.Walk

/-!
# Structural checks

The printer takes any tree; a tree that stands for a program keeps the rules below.

* `Violation`: the ways in which a node may break them;
* `Node.violations`: those of one node, `Node.findings`: the diagnoses of a whole tree, in the order
  of `Node.walk`;
* `Checker`: keeps what it found in earlier trees, and logs all of it each time.
-/

namespace ShellSyntax

inductive Violation where
  | negatedNothing
  | unnamedParam
  /-- A short expansion with more than a parameter. -/
  | longShort (param : String)
  | notAQuote (op : Token)
  | notAnExpansion (op : Token)
  | unnamedAppend
  | notAName (name : String)
  | notARedirect (op : Token)
  | noTarget (op : Token)
  | noCaseWord
  | noPatterns
  | unnamedFunction
  | unnamedLoop
  | noOperand (op : Token)
  | notPostfix (op : Token)
  | missingOperand (op : Token)
  deriving DecidableEq, Repr

def Violation.message : Violation → String
  | .negatedNothing => "negated statement without a command"
  | .unnamedParam => "parameter expansion without a parameter name"
  | .longShort param =>
    "short parameter expansion $" ++ param
      ++ " cannot carry a length, index, replace or operator"
  | .notAQuote op => "`" ++ op.spelling ++ "' does not open a quoted string"
  | .notAnExpansion op => "`" ++ op.spelling ++ "' is not a parameter expansion operator"
  | .unnamedAppend => "appending assignment without a name"
  | .notAName name => "invalid variable name `" ++ name ++ "'"
  | .notARedirect op => "`" ++ op.spelling ++ "' is not a redirection operator"
  | .noTarget op => "redirection `" ++ op.spelling ++ "' without a target"
  | .noCaseWord => "case statement without a word"
  | .noPatterns => "case pattern list without patterns"
  | .unnamedFunction => "function declaration without a name"
  | .unnamedLoop => "for loop without a variable name"
  | .noOperand op => "unary `" ++ op.spelling ++ "' without an operand"
  | .notPostfix op => "`" ++ op.spelling ++ "' cannot be a postfix operator"
  | .missingOperand op => "binary `" ++ op.spelling ++ "' with a missing operand"

/-- The violation, if the condition holds. -/
def Violation.when (v : Violation) (p : Prop) [Decidable p] : List Violation :=
  if p then [v] else []

namespace ParamExp

/-- The expansion has a length mark, index, replacement or operator. -/
def isLong (e : ParamExp) : Bool :=
  e.length || e.index.isSome || e.replace.isSome || e.operation.isSome

def violations (e : ParamExp) : List Violation :=
  Violation.unnamedParam.when (e.param.value = "")
    ++ (Violation.longShort e.param.value).when (e.short ∧ e.isLong)

end ParamExp

def Assign.violations (a : Assign) : List Violation :=
  match a.name with
  | none => Violation.unnamedAppend.when a.append
  | some name => (Violation.notAName name.value).when ¬IsName name.value

def Redirect.violations (r : Redirect) : List Violation :=
  (Violation.notARedirect r.op).when (r.op ∉ Token.redirects)
    ++ (Violation.noTarget r.op).when r.word.parts.isEmpty

/-- An absent operand hides what else is wrong with a unary expression. -/
def Arith.violations : Arith → List Violation
  | .unary op none _ _ => [.noOperand op]
  | .unary op (some _) postfixed _ =>
    (Violation.notPostfix op).when (postfixed ∧ op ∉ Token.postfixes)
  | .binary op left right _ => (Violation.missingOperand op).when (left.isNone ∨ right.isNone)
  | .word _ | .paren .. => []

def Command.violations : Command → List Violation
  | .caseClause word _ _ _ => Violation.noCaseWord.when word.parts.isEmpty
  | .function name _ _ _ => Violation.unnamedFunction.when (name.value = "")
  | _ => []

namespace Node

def violations : Node → List Violation
  | .stmt s => Violation.negatedNothing.when (s.negated ∧ s.command.isNone)
  | .part (.param e) => e.violations
  | .part (.quoted quote _ _) => (Violation.notAQuote quote).when (quote ∉ Token.quotes)
  | .expansion e => (Violation.notAnExpansion e.op).when (e.op ∉ Token.expansions)
  | .assign a => a.violations
  | .redirect r => r.violations
  | .command c => c.violations
  | .caseItem i => Violation.noPatterns.when i.patterns.isEmpty
  | .forHead (.words name _) => Violation.unnamedLoop.when (name.value = "")
  | .arith a => a.violations
  | _ => []

/-- Where a violation of the node is reported: for a binary expression at its operator. -/
def faultPos : Node → Pos
  | .arith (.binary _ _ _ pos) => pos
  | n => n.pos

def diagnoses (n : Node) : List Diagnostic :=
  n.violations.map fun v =>
    { message := v.message, construct := n.kind.name, pos := n.faultPos }

/-- The diagnoses of all nodes of the tree. -/
def findings (n : Node) : List Diagnostic := n.walk.flatMap diagnoses

end Node

/-- A checker with what it found so far. -/
structure Checker where
  found : List Diagnostic := []
  deriving DecidableEq, Repr

/-- The outcome of a check: whether nothing was ever found, the checker, and the reporter. -/
structure Checked where
  ok : Bool
  checker : Checker
  reporter : Reporter
  deriving DecidableEq, Repr

namespace Checker

/-- Checks a tree. Whatever was found in it or before is logged. -/
def check (c : Checker) (r : Reporter) (n : Node) : Checked :=
  let found := c.found ++ n.findings
  { ok := found.isEmpty, checker := { found }, reporter := r.logAll found }

end Checker

/-- Checks a tree on its own. -/
def Node.check (n : Node) (r : Reporter) : Checked := Checker.check {} r n

end ShellSyntax
