import ShellSyntax.Schema.Basic
import ShellSyntax.Schema.Component
import ShellSyntax.Tree.Walk

/-!
# A node as a record of fields

* `Item.fields`: the values of the fields of a node or position, in the order of `Shape.fields`;
* `Item.ofFields?`: the node or position with the given field values, which undoes `fields`
  (`ofFields?_fields`);
* `Node.held_perm_children`: the nodes that stand in the fields of a node are its children;
* `Default.value`: the value that a default stands for, and `Default.holds`, the test for it.
-/

namespace ShellSyntax

inductive FieldValue where
  | absent
  | bool (value : Bool)
  | int (value : Int)
  | text (value : String)
  | token (value : Token)
  | pos (value : Pos)
  | node (value : Node)
  | nodes (values : List Node)

/-- A node or a position. -/
inductive Item where
  | pos (value : Pos)
  | node (value : Node)

namespace FieldValue

/-- The nodes that stand in the field. -/
def held : FieldValue → List Node
  | .node n => [n]
  | .nodes l => l
  | _ => []

variable {α : Type} [Component α]

def one (a : α) : FieldValue := .node (Component.toNode a)

def opt : Option α → FieldValue
  | none => .absent
  | some a => one a

def many (l : List α) : FieldValue := .nodes (l.map Component.toNode)

@[simp] theorem held_bool (b : Bool) : (FieldValue.bool b).held = [] := rfl

@[simp] theorem held_text (t : String) : (text t).held = [] := rfl

@[simp] theorem held_token (t : Token) : (token t).held = [] := rfl

@[simp] theorem held_pos (p : Pos) : (FieldValue.pos p).held = [] := rfl

@[simp] theorem held_one (a : α) : (one a).held = [Component.toNode a] := rfl

@[simp] theorem held_opt (a : Option α) : (opt a).held = (a.map Component.toNode).toList := by
  cases a <;> rfl

@[simp] theorem held_many (l : List α) : (many l).held = l.map Component.toNode := rfl

end FieldValue

/-! ### The fields of a node -/

section Fields

open FieldValue

def Part.fields : Part → List FieldValue
  | .lit t => [.text t.value, .pos t.pos]
  | .singleQuoted value p => [.text value, .pos p]
  | .quoted quote parts p => [.token quote, many parts, .pos p]
  | .param e =>
    [one e.param, .bool e.short, .bool e.length, opt e.index, opt e.replace, opt e.operation,
     .pos e.dollar]
  | .cmdSubst stmts backquotes left right => [many stmts, .bool backquotes, .pos left, .pos right]
  | .arithExp expr dollar rparen => [opt expr, .pos dollar, .pos rparen]
  | .array items lparen rparen => [many items, .pos lparen, .pos rparen]
  | .cmdInput stmts less rparen => [many stmts, .pos less, .pos rparen]

def Arith.fields : Arith → List FieldValue
  | .word w => [many w.parts]
  | .unary op operand postfixed p => [.token op, opt operand, .bool postfixed, .pos p]
  | .binary op left right p => [.token op, opt left, opt right, .pos p]
  | .paren inner lparen rparen => [opt inner, .pos lparen, .pos rparen]

def Command.fields : Command → List FieldValue
  | .simple args => [many args]
  | .subshell stmts lparen rparen => [many stmts, .pos lparen, .pos rparen]
  | .block stmts lbrace rbrace => [many stmts, .pos lbrace, .pos rbrace]
  | .ifClause cond thenStmts elifs elseStmts ifPos fiPos =>
    [opt cond, many thenStmts, many elifs, many elseStmts, .pos ifPos, .pos fiPos]
  | .whileLoop cond body whilePos donePos => [opt cond, many body, .pos whilePos, .pos donePos]
  | .untilLoop cond body untilPos donePos => [opt cond, many body, .pos untilPos, .pos donePos]
  | .forLoop head body forPos donePos => [opt head, many body, .pos forPos, .pos donePos]
  | .caseClause word items casePos esacPos => [one word, many items, .pos casePos, .pos esacPos]
  | .function name body keyword p => [one name, one body, .bool keyword, .pos p]
  | .declaration assigns options isLocal p =>
    [many assigns, many options, .bool isLocal, .pos p]

def Cond.fields : Cond → List FieldValue
  | .list stmts => [many stmts]
  | .test expr lparen rparen => [opt expr, .pos lparen, .pos rparen]

def ForHead.fields : ForHead → List FieldValue
  | .words name items => [one name, many items]
  | .count l => [opt l.init, opt l.cond, opt l.step, .pos l.lparen, .pos l.rparen]

def Node.fields : Node → List FieldValue
  | .part p => p.fields
  | .index i => [one i.word]
  | .replace r => [one r.pattern, one r.substitute, .bool r.every]
  | .expansion e => [.token e.op, one e.word]
  | .arith a => a.fields
  | .assign a => [one a.value, opt a.name, .bool a.append]
  | .redirect r => [.token r.op, one r.word, opt r.descriptor, .pos r.pos]
  | .stmt s =>
    [opt s.command, .bool s.negated, many s.assigns, many s.redirs, .bool s.background,
     .pos s.pos]
  | .command c => c.fields
  | .cond c => c.fields
  | .elif e => [opt e.cond, many e.thenStmts, .pos e.pos]
  | .forHead h => h.fields
  | .caseItem i => [many i.patterns, many i.stmts]
  | .file f => [many f.stmts, .text f.name]

end Fields

/-- The nodes that stand in the fields of a node are its children, in some order. -/
theorem Node.held_perm_children (n : Node) : (n.fields.flatMap FieldValue.held).Perm n.children := by
  cases n with
  | part p => cases p <;> simp [fields, Part.fields, children, Part.children]
  | arith a => cases a <;> simp [fields, Arith.fields, children, Arith.children]
  | cond c => cases c <;> simp [fields, Cond.fields, children, Cond.children]
  | forHead h =>
    cases h <;> simp [fields, ForHead.fields, children, ForHead.children]
  | command c =>
    cases c with
    | declaration =>
      simpa [fields, Command.fields, children, Command.children] using List.perm_append_comm
    | _ => simp [fields, Command.fields, children, Command.children]
  | assign a => simpa [fields, children] using (List.perm_append_singleton _ _).symm
  | redirect r => simpa [fields, children] using (List.perm_append_singleton _ _).symm
  | stmt s => simpa [fields, children] using List.perm_append_comm_assoc ..
  | _ => simp [fields, children]

theorem Node.size_lt_of_mem_fields {n c : Node} {v : FieldValue} (hv : v ∈ n.fields)
    (hc : c ∈ v.held) : c.size < n.size :=
  size_lt_of_mem_children
    (n.held_perm_children.mem_iff.mp (List.mem_flatMap.mpr ⟨v, hv, hc⟩))

/-! ### A node from its fields -/

namespace FieldValue

def bool? : FieldValue → Option Bool
  | .bool b => some b
  | _ => none

def int? : FieldValue → Option Int
  | .int n => some n
  | _ => none

def text? : FieldValue → Option String
  | .text s => some s
  | _ => none

def token? : FieldValue → Option Token
  | .token t => some t
  | _ => none

def pos? : FieldValue → Option Pos
  | .pos p => some p
  | _ => none

variable {α : Type} [Component α]

/-- The single node of the field. -/
def one? : FieldValue → Option α
  | .node n => Component.ofNode? n
  | _ => none

/-- The node of the field, if it is present. -/
def opt? : FieldValue → Option (Option α)
  | .absent => some none
  | .node n => (Component.ofNode? n).map some
  | _ => none

def many? : FieldValue → Option (List α)
  | .nodes l => l.mapM Component.ofNode?
  | _ => none

@[simp] theorem bool?_bool (b : Bool) : (FieldValue.bool b).bool? = some b := rfl

@[simp] theorem text?_text (t : String) : (text t).text? = some t := rfl

@[simp] theorem token?_token (t : Token) : (token t).token? = some t := rfl

@[simp] theorem pos?_pos (p : Pos) : (FieldValue.pos p).pos? = some p := rfl

@[simp] theorem one?_one (a : α) : (one a).one? = some a := by
  simp [one, one?]

@[simp] theorem opt?_opt (a : Option α) : (opt a).opt? = some a := by
  cases a <;> simp [opt, one, opt?]

@[simp] theorem many?_many (l : List α) : (many l).many? = some l := by
  simp only [many, many?]
  induction l with
  | nil => rfl
  | cons a rest ih => simp [ih]

end FieldValue

namespace Item

open FieldValue

def shape : Item → Shape
  | .pos _ => .pos
  | .node n => .node n.kind

def fields : Item → List FieldValue
  | .pos p => [.int p.line, .int p.column, .int p.offset]
  | .node n => n.fields

/-- The node of a kind with the given field values, or nothing if they do not fit. -/
def nodeOfFields? : Kind → List FieldValue → Option Node
  | .lit, [value, p] => return .lit ⟨← value.text?, ← p.pos?⟩
  | .word, [parts] => return .word ⟨← parts.many?⟩
  | .singleQuoted, [value, p] => return .part (.singleQuoted (← value.text?) (← p.pos?))
  | .quoted, [quote, parts, p] =>
    return .part (.quoted (← quote.token?) (← parts.many?) (← p.pos?))
  | .index, [word] => return .index ⟨← word.one?⟩
  | .replace, [pattern, substitute, every] =>
    return .replace ⟨← pattern.one?, ← substitute.one?, ← every.bool?⟩
  | .expansion, [op, word] => return .expansion ⟨← op.token?, ← word.one?⟩
  | .param, [param, short, length, index, replace, operation, dollar] =>
    return .part (.param
      ⟨← param.one?, ← short.bool?, ← length.bool?, ← index.opt?, ← replace.opt?,
       ← operation.opt?, ← dollar.pos?⟩)
  | .cmdSubst, [stmts, backquotes, left, right] =>
    return .part (.cmdSubst (← stmts.many?) (← backquotes.bool?) (← left.pos?) (← right.pos?))
  | .arithExp, [expr, dollar, rparen] =>
    return .part (.arithExp (← expr.opt?) (← dollar.pos?) (← rparen.pos?))
  | .array, [items, lparen, rparen] =>
    return .part (.array (← items.many?) (← lparen.pos?) (← rparen.pos?))
  | .cmdInput, [stmts, less, rparen] =>
    return .part (.cmdInput (← stmts.many?) (← less.pos?) (← rparen.pos?))
  | .unary, [op, operand, postfixed, p] =>
    return .arith (.unary (← op.token?) (← operand.opt?) (← postfixed.bool?) (← p.pos?))
  | .binary, [op, left, right, p] =>
    return .arith (.binary (← op.token?) (← left.opt?) (← right.opt?) (← p.pos?))
  | .paren, [inner, lparen, rparen] =>
    return .arith (.paren (← inner.opt?) (← lparen.pos?) (← rparen.pos?))
  | .countLoop, [init, cond, step, lparen, rparen] =>
    return .countLoop
      ⟨← init.opt?, ← cond.opt?, ← step.opt?, ← lparen.pos?, ← rparen.pos?⟩
  | .assign, [value, name, append] =>
    return .assign ⟨← value.one?, ← name.opt?, ← append.bool?⟩
  | .redirect, [op, word, descriptor, p] =>
    return .redirect ⟨← op.token?, ← word.one?, ← descriptor.opt?, ← p.pos?⟩
  | .stmt, [command, negated, assigns, redirs, background, p] =>
    return .stmt
      ⟨← command.opt?, ← negated.bool?, ← assigns.many?, ← redirs.many?, ← background.bool?,
       ← p.pos?⟩
  | .file, [stmts, name] => return .file ⟨← stmts.many?, ← name.text?⟩
  | .simple, [args] => return .command (.simple (← args.many?))
  | .subshell, [stmts, lparen, rparen] =>
    return .command (.subshell (← stmts.many?) (← lparen.pos?) (← rparen.pos?))
  | .block, [stmts, lbrace, rbrace] =>
    return .command (.block (← stmts.many?) (← lbrace.pos?) (← rbrace.pos?))
  | .listCond, [stmts] => return .cond (.list (← stmts.many?))
  | .testCond, [expr, lparen, rparen] =>
    return .cond (.test (← expr.opt?) (← lparen.pos?) (← rparen.pos?))
  | .elif, [cond, thenStmts, p] =>
    return .elif ⟨← cond.opt?, ← thenStmts.many?, ← p.pos?⟩
  | .ifClause, [cond, thenStmts, elifs, elseStmts, ifPos, fiPos] =>
    return .command (.ifClause (← cond.opt?) (← thenStmts.many?) (← elifs.many?)
      (← elseStmts.many?) (← ifPos.pos?) (← fiPos.pos?))
  | .whileLoop, [cond, body, whilePos, donePos] =>
    return .command
      (.whileLoop (← cond.opt?) (← body.many?) (← whilePos.pos?) (← donePos.pos?))
  | .untilLoop, [cond, body, untilPos, donePos] =>
    return .command
      (.untilLoop (← cond.opt?) (← body.many?) (← untilPos.pos?) (← donePos.pos?))
  | .forWords, [name, items] => return .forHead (.words (← name.one?) (← items.many?))
  | .forLoop, [head, body, forPos, donePos] =>
    return .command (.forLoop (← head.opt?) (← body.many?) (← forPos.pos?) (← donePos.pos?))
  | .caseItem, [patterns, stmts] => return .caseItem ⟨← patterns.many?, ← stmts.many?⟩
  | .caseClause, [word, items, casePos, esacPos] =>
    return .command
      (.caseClause (← word.one?) (← items.many?) (← casePos.pos?) (← esacPos.pos?))
  | .function, [name, body, keyword, p] =>
    return .command (.function (← name.one?) (← body.one?) (← keyword.bool?) (← p.pos?))
  | .declaration, [assigns, options, isLocal, p] =>
    return .command
      (.declaration (← assigns.many?) (← options.many?) (← isLocal.bool?) (← p.pos?))
  | _, _ => none

/-- The node or position with the given field values, or nothing if they do not fit. -/
def ofFields? : Shape → List FieldValue → Option Item
  | .pos, [line, column, offset] =>
    return .pos ⟨← line.int?, ← column.int?, ← offset.int?⟩
  | .pos, _ => none
  | .node kind, values => (nodeOfFields? kind values).map .node

theorem ofFields?_fields (i : Item) : ofFields? i.shape i.fields = some i := by
  cases i with
  | pos p => rfl
  | node n =>
    suffices nodeOfFields? n.kind n.fields = some n by simp [ofFields?, shape, fields, this]
    cases n with
    | part p =>
      cases p with
      | param e => cases e; simp [Node.kind, Part.kind, Node.fields, Part.fields, nodeOfFields?]
      | _ => simp [Node.kind, Part.kind, Node.fields, Part.fields, nodeOfFields?]
    | arith a =>
      cases a with
      | word w => cases w; simp [Node.kind, Arith.kind, Node.fields, Arith.fields, nodeOfFields?]
      | _ => simp [Node.kind, Arith.kind, Node.fields, Arith.fields, nodeOfFields?]
    | forHead h =>
      cases h with
      | count l =>
        cases l; simp [Node.kind, ForHead.kind, Node.fields, ForHead.fields, nodeOfFields?]
      | _ => simp [Node.kind, ForHead.kind, Node.fields, ForHead.fields, nodeOfFields?]
    | command c =>
      cases c <;> simp [Node.kind, Command.kind, Node.fields, Command.fields, nodeOfFields?]
    | cond c =>
      cases c <;> simp [Node.kind, Cond.kind, Node.fields, Cond.fields, nodeOfFields?]
    | index x | replace x | expansion x | assign x | redirect x | stmt x | elif x | caseItem x
    | file x => cases x; simp [Node.kind, Node.fields, nodeOfFields?]

end Item

/-! ### Defaults -/

namespace Default

def value : Default → FieldValue
  | .absent => .absent
  | .no => .bool false
  | .zero => .int 0
  | .emptyText => .text ""
  | .token t => .token t
  | .nowhere => .pos {}
  | .emptyList => .nodes []
  | .emptyWord => .node (.word {})
  | .emptyLit => .node (.lit {})
  | .emptyStmt => .node (.stmt {})

/-- Whether the default stands for the value. -/
def holds : Default → FieldValue → Bool
  | .absent, .absent => true
  | .no, .bool b => b = false
  | .zero, .int n => n = 0
  | .emptyText, .text s => s = ""
  | .token t, .token u => t = u
  | .nowhere, .pos p => p = {}
  | .emptyList, .nodes [] => true
  | .emptyWord, .node (.word ⟨[]⟩) => true
  | .emptyLit, .node (.lit l) => l = {}
  | .emptyStmt, .node (.stmt ⟨none, false, [], [], false, p⟩) => p = {}
  | _, _ => false

theorem holds_iff {d : Default} {v : FieldValue} : d.holds v = true ↔ v = d.value := by
  constructor
  · intro h
    unfold holds at h
    split at h <;> simp_all [value]
  · rintro rfl
    cases d <;> simp [holds, value]

end Default

end ShellSyntax
