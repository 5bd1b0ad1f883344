import ShellSyntax.Pos
import ShellSyntax.Token

/-!
# Shell syntax trees

* `Word`: a concatenation of `Part`s (literal text, quoted text, expansions, substitutions);
* `Arith`: arithmetic expressions over words;
* `Stmt`: a `Command` with its negation, assignments, redirections and background marker;
* `File`: a sequence of statements with a name;
* `Node`: any of these, the unit that is traversed, checked and encoded.

Quote delimiters are not stored; the printer adds them. Every construct keeps the positions of its
own tokens, `Pos` zero where there is none.
-/

namespace ShellSyntax

/-- Literal text. -/
structure Lit where
  value : String := ""
  pos : Pos := {}
  deriving DecidableEq, Repr

mutual

/-- A concatenation of parts, with no separator. -/
structure Word where
  parts : List Part := []

inductive Part where
  | lit (text : Lit)
  | singleQuoted (value : String) (pos : Pos)
  /-- Text between `quote` and the quote that closes it. -/
  | quoted (quote : Token) (parts : List Part) (pos : Pos)
  | param (expansion : ParamExp)
  /-- The output of a command list, `$(…)` or between backquotes. -/
  | cmdSubst (stmts : List Stmt) (backquotes : Bool) (left right : Pos)
  /-- An arithmetic expansion, `$((…))`. -/
  | arithExp (expr : Option Arith) (dollar rparen : Pos)
  | array (items : List Word) (lparen rparen : Pos)
  /-- A command list read as a file, `<(…)`. -/
  | cmdInput (stmts : List Stmt) (less rparen : Pos)

/-- `$name`, or `${…}` with an optional length mark, index, replacement and operator. -/
structure ParamExp where
  param : Lit := {}
  short : Bool := false
  length : Bool := false
  index : Option Index := none
  replace : Option Replace := none
  operation : Option Expansion := none
  dollar : Pos := {}

structure Index where
  word : Word

/-- `/pattern/substitute`, or `//pattern/substitute` for every match. -/
structure Replace where
  pattern : Word
  substitute : Word
  every : Bool

structure Expansion where
  op : Token
  word : Word

inductive Arith where
  | word (w : Word)
  | unary (op : Token) (operand : Option Arith) (postfixed : Bool) (pos : Pos)
  | binary (op : Token) (left right : Option Arith) (pos : Pos)
  | paren (inner : Option Arith) (lparen rparen : Pos)

/-- The head `((init; cond; step))` of a counting loop. -/
structure CountLoop where
  init : Option Arith := none
  cond : Option Arith := none
  step : Option Arith := none
  lparen : Pos := {}
  rparen : Pos := {}

/-- `name=value` or `name+=value`; without a name, a bare word. -/
structure Assign where
  value : Word
  name : Option Lit := none
  append : Bool := false

/-- A redirection of file descriptor `descriptor`, or of the operator's own. -/
structure Redirect where
  op : Token
  word : Word
  descriptor : Option Lit := none
  pos : Pos := {}

/-- A command with its modifiers. -/
structure Stmt where
  command : Option Command := none
  negated : Bool := false
  assigns : List Assign := []
  redirs : List Redirect := []
  background : Bool := false
  pos : Pos := {}

inductive Command where
  | simple (args : List Word)
  | subshell (stmts : List Stmt) (lparen rparen : Pos)
  | block (stmts : List Stmt) (lbrace rbrace : Pos)
  | ifClause (cond : Option Cond) (thenStmts : List Stmt) (elifs : List Elif)
      (elseStmts : List Stmt) (ifPos fiPos : Pos)
  | whileLoop (cond : Option Cond) (body : List Stmt) (whilePos donePos : Pos)
  | untilLoop (cond : Option Cond) (body : List Stmt) (untilPos donePos : Pos)
  | forLoop (head : Option ForHead) (body : List Stmt) (forPos donePos : Pos)
  | caseClause (word : Word) (items : List CaseItem) (casePos esacPos : Pos)
  | function (name : Lit) (body : Stmt) (keyword : Bool) (pos : Pos)
  | declaration (assigns : List Assign) (options : List Word) (isLocal : Bool) (pos : Pos)

inductive Cond where
  /-- A statement list used as a test. -/
  | list (stmts : List Stmt)
  /-- An arithmetic test, `((…))`. -/
  | test (expr : Option Node) (lparen rparen : Pos)

structure Elif where
  cond : Option Cond
  thenStmts : List Stmt
  pos : Pos

inductive ForHead where
  /-- A variable that runs through words, or through the arguments when there are none. -/
  | words (name : Lit) (items : List Word)
  | count (loop : CountLoop)

/-- An entry of a case clause: patterns and the statements they select. -/
structure CaseItem where
  patterns : List Word
  stmts : List Stmt

structure File where
  stmts : List Stmt := []
  name : String := ""

/-- Any node of a syntax tree. A literal is a `Part`, a word an `Arith`. -/
inductive Node where
  | part (p : Part)
  | index (i : Index)
  | replace (r : Replace)
  | expansion (e : Expansion)
  | arith (a : Arith)
  | assign (a : Assign)
  | redirect (r : Redirect)
  | stmt (s : Stmt)
  | command (c : Command)
  | cond (c : Cond)
  | elif (e : Elif)
  | forHead (h : ForHead)
  | caseItem (i : CaseItem)
  | file (f : File)

end

namespace Node

@[match_pattern] abbrev lit (l : Lit) : Node := .part (.lit l)

@[match_pattern] abbrev word (w : Word) : Node := .arith (.word w)

@[match_pattern] abbrev countLoop (l : CountLoop) : Node := .forHead (.count l)

end Node

/-- The word that is the single literal `value`. -/
def Word.ofLit (value : String) (pos : Pos := {}) : Word := { parts := [.lit { value, pos }] }

/-- A here-document among the redirections asks for a line break after the statement. -/
def Stmt.hasHeredoc (s : Stmt) : Bool := s.redirs.any fun r => decide (r.op ∈ Token.heredocs)

end ShellSyntax
