import ShellSyntax.Tree.Basic

/-!
# Where a node stands

`Node.pos` projects the stored positions. A construct with tokens of its own stands at the first of
them, except a block, which stands at its closing brace; one without stands where its first part
does, and nowhere (`Pos` zero) when it is empty.
-/

namespace ShellSyntax

def Part.pos : Part → Pos
  | .lit text => text.pos
  | .singleQuoted _ pos => pos
  | .quoted _ _ pos => pos
  | .param e => e.dollar
  | .cmdSubst _ _ left _ => left
  | .arithExp _ dollar _ => dollar
  | .array _ lparen _ => lparen
  | .cmdInput _ less _ => less

def Word.pos (w : Word) : Pos := (w.parts.head?.map Part.pos).getD {}

def Index.pos (i : Index) : Pos := i.word.pos

def Replace.pos (r : Replace) : Pos := r.pattern.pos

def Expansion.pos (e : Expansion) : Pos := e.word.pos

/-- A binary expression stands where its left operand does. -/
def Arith.pos : Arith → Pos
  | .word w => w.pos
  | .unary _ _ _ pos => pos
  | .binary _ (some left) _ _ => left.pos
  | .binary _ none _ _ => {}
  | .paren _ lparen _ => lparen

def Assign.pos (a : Assign) : Pos := (a.name.map Lit.pos).getD a.value.pos

/-- The position of the descriptor, or else of the operator. -/
def Redirect.anchor (r : Redirect) : Pos := (r.descriptor.map Lit.pos).getD r.pos

/-- Where the first of the statements stands. -/
def Stmt.firstPos (stmts : List Stmt) : Pos := (stmts.head?.map Stmt.pos).getD {}

/-- Where the first of the words stands. -/
def Word.firstPos (words : List Word) : Pos := (words.head?.map Word.pos).getD {}

def Command.pos : Command → Pos
  | .simple args => Word.firstPos args
  | .subshell _ lparen _ => lparen
  | .block _ _ rbrace => rbrace
  | .ifClause _ _ _ _ ifPos _ => ifPos
  | .whileLoop _ _ whilePos _ => whilePos
  | .untilLoop _ _ untilPos _ => untilPos
  | .forLoop _ _ forPos _ => forPos
  | .caseClause _ _ casePos _ => casePos
  | .function _ _ _ pos => pos
  | .declaration _ _ _ pos => pos

def Cond.pos : Cond → Pos
  | .list stmts => Stmt.firstPos stmts
  | .test _ lparen _ => lparen

def ForHead.pos : ForHead → Pos
  | .words name _ => name.pos
  | .count loop => loop.lparen

def CaseItem.pos (i : CaseItem) : Pos := Word.firstPos i.patterns

def File.pos (f : File) : Pos := Stmt.firstPos f.stmts

namespace Node

def pos : Node → Pos
  | .part p => p.pos
  | .index i => i.pos
  | .replace r => r.pos
  | .expansion e => e.pos
  | .arith a => a.pos
  | .assign a => a.pos
  | .redirect r => r.anchor
  | .stmt s => s.pos
  | .command c => c.pos
  | .cond c => c.pos
  | .elif e => e.pos
  | .forHead h => h.pos
  | .caseItem i => i.pos
  | .file f => f.pos

/-- Where the first of the nodes stands. -/
def firstPos (nodes : List Node) : Pos := (nodes.head?.map pos).getD {}

end Node

end ShellSyntax
