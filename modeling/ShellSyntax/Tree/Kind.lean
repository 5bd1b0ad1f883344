import ShellSyntax.Tree.Basic

/-!
# Kinds of nodes

* `Kind`: the closed set of node kinds;
* `Kind.name`: the name of a kind in encoded trees and in diagnoses;
* `Node.kind`: the kind of a node.
-/

namespace ShellSyntax

inductive Kind where
  | lit | word | singleQuoted | quoted | index | replace | expansion | param
  | cmdSubst | arithExp | array | cmdInput
  | unary | binary | paren | countLoop
  | assign | redirect | stmt | file
  | simple | subshell | block | listCond | testCond | elif | ifClause | whileLoop | untilLoop
  | forWords | forLoop | caseItem | caseClause | function | declaration
  deriving DecidableEq, Repr

namespace Kind

def all : List Kind :=
  [.lit, .word, .singleQuoted, .quoted, .index, .replace, .expansion, .param,
   .cmdSubst, .arithExp, .array, .cmdInput,
   .unary, .binary, .paren, .countLoop,
   .assign, .redirect, .stmt, .file,
   .simple, .subshell, .block, .listCond, .testCond, .elif, .ifClause, .whileLoop, .untilLoop,
   .forWords, .forLoop, .caseItem, .caseClause, .function, .declaration]

theorem mem_all (k : Kind) : k ∈ all := by
  cases k <;> decide

def name : Kind → String
  | .lit => "Lit"
  | .word => "Word"
  | .singleQuoted => "SglQuoted"
  | .quoted => "Quoted"
  | .index => "Index"
  | .replace => "Replace"
  | .expansion => "Expansion"
  | .param => "ParamExp"
  | .cmdSubst => "CmdSubst"
  | .arithExp => "ArithmExpr"
  | .array => "ArrayExpr"
  | .cmdInput => "CmdInput"
  | .unary => "UnaryExpr"
  | .binary => "BinaryExpr"
  | .paren => "ParenExpr"
  | .countLoop => "CStyleLoop"
  | .assign => "Assign"
  | .redirect => "Redirect"
  | .stmt => "Stmt"
  | .file => "File"
  | .simple => "Command"
  | .subshell => "Subshell"
  | .block => "Block"
  | .listCond => "StmtCond"
  | .testCond => "CStyleCond"
  | .elif => "Elif"
  | .ifClause => "IfStmt"
  | .whileLoop => "WhileStmt"
  | .untilLoop => "UntilStmt"
  | .forWords => "WordIter"
  | .forLoop => "ForStmt"
  | .caseItem => "PatternList"
  | .caseClause => "CaseStmt"
  | .function => "FuncDecl"
  | .declaration => "DeclStmt"

end Kind

def Part.kind : Part → Kind
  | .lit _ => .lit
  | .singleQuoted .. => .singleQuoted
  | .quoted .. => .quoted
  | .param _ => .param
  | .cmdSubst .. => .cmdSubst
  | .arithExp .. => .arithExp
  | .array .. => .array
  | .cmdInput .. => .cmdInput

def Arith.kind : Arith → Kind
  | .word _ => .word
  | .unary .. => .unary
  | .binary .. => .binary
  | .paren .. => .paren

def Command.kind : Command → Kind
  | .simple _ => .simple
  | .subshell .. => .subshell
  | .block .. => .block
  | .ifClause .. => .ifClause
  | .whileLoop .. => .whileLoop
  | .untilLoop .. => .untilLoop
  | .forLoop .. => .forLoop
  | .caseClause .. => .caseClause
  | .function .. => .function
  | .declaration .. => .declaration

def Cond.kind : Cond → Kind
  | .list _ => .listCond
  | .test .. => .testCond

def ForHead.kind : ForHead → Kind
  | .words .. => .forWords
  | .count _ => .countLoop

def Node.kind : Node → Kind
  | .part p => p.kind
  | .index _ => .index
  | .replace _ => .replace
  | .expansion _ => .expansion
  | .arith a => a.kind
  | .assign _ => .assign
  | .redirect _ => .redirect
  | .stmt _ => .stmt
  | .command c => c.kind
  | .cond c => c.kind
  | .elif _ => .elif
  | .forHead h => h.kind
  | .caseItem _ => .caseItem
  | .file _ => .file

end ShellSyntax
