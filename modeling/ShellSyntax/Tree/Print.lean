import ShellSyntax.Tree.Basic

/-!
# Canonical text

`Node.print` writes any tree as shell text; `Word.print`, `Arith.print`, `Stmt.print` and the others
do so for one kind of tree.

* Statements of a list are separated by `; `, and a statement with a here-document is followed by a
  line break instead (`Line.join`);
* a list that a keyword or brace encloses is never empty: it has at least a `; ` (`Line.body`);
* signs and redirection operators keep a blank from what they would run together with
  (`signed`, `Redirect.print`).
-/

namespace ShellSyntax

/-- Whether the text begins with one of the characters. -/
def beginsIn (chars : List Char) (text : String) : Bool := text.toList.head?.any (· ∈ chars)

/-- Whether the text ends with one of the characters. -/
def endsIn (chars : List Char) (text : String) : Bool := text.toList.getLast?.any (· ∈ chars)

/-- The present parts, separated by blanks. -/
def spaced (parts : List String) : String := " ".intercalate (parts.filter (· ≠ ""))

/-- The text of one statement, and whether a line break must end it. -/
structure Line where
  text : String
  heredoc : Bool
  deriving DecidableEq, Repr

namespace Line

/-- What separates the line from the next one. -/
def separator (l : Line) : String := if l.heredoc then "\n" else "; "

/-- What ends the line when it is the last. -/
def ending (closed : Bool) (l : Line) : String := if closed && l.heredoc then "\n" else ""

/-- The lines of a statement list in one text; `closed` asks for the line break that a here-document
in the last one needs. -/
def join (closed : Bool) : List Line → String
  | [] => ""
  | [l] => l.text ++ l.ending closed
  | l :: m :: rest => l.text ++ l.separator ++ join closed (m :: rest)

/-- The list between a keyword or brace and the next. -/
def body : List Line → String
  | [] => "; "
  | l :: rest =>
    let text := join true (l :: rest)
    if endsIn ['\n'] text then " " ++ text else " " ++ text ++ "; "

end Line

/-- An operator before or after its operand. Two signs that would run together are kept apart. -/
def signed (op : Token) (postfixed : Bool) (operand : String) : String :=
  if postfixed then
    operand ++ (if endsIn ['+', '-'] operand then " " else "") ++ op.spelling
  else
    op.spelling ++ (if op ∈ Token.signs && beginsIn ['+', '-'] operand then " " else "") ++ operand

/-- An operator between its operands; a comma follows the left one at once. -/
def infixed (op : Token) (left right : String) : String :=
  if op = .comma then left ++ ", " ++ right else left ++ " " ++ op.spelling ++ " " ++ right

/-- Items between parentheses, which keep a blank when there are none. -/
def bracketed (isEmpty : Bool) (text : String) : String :=
  if isEmpty then "( )" else "(" ++ text ++ ")"

mutual

def Word.print : Word → String
  | ⟨parts⟩ => String.join (Part.printAll parts)

def Word.printAll : List Word → List String
  | [] => []
  | w :: rest => w.print :: Word.printAll rest

def Part.print : Part → String
  | .lit text => text.value
  | .singleQuoted value _ => "'" ++ value ++ "'"
  | .quoted quote parts _ =>
    quote.spelling ++ String.join (Part.printAll parts) ++ quote.closing.spelling
  | .param e => e.print
  | .cmdSubst stmts backquotes _ _ =>
    if backquotes then "`" ++ Line.join true (Stmt.printAll stmts) ++ "`"
    else "$(" ++ Line.join true (Stmt.printAll stmts) ++ ")"
  | .arithExp expr _ _ => "$((" ++ Arith.print? expr ++ "))"
  | .array items _ _ => bracketed items.isEmpty (" ".intercalate (Word.printAll items))
  | .cmdInput stmts _ _ => "<(" ++ Line.join true (Stmt.printAll stmts) ++ ")"

def Part.printAll : List Part → List String
  | [] => []
  | p :: rest => p.print :: Part.printAll rest

def ParamExp.print : ParamExp → String
  | ⟨param, short, length, index, replace, operation, _⟩ =>
    if short then "$" ++ param.value
    else
      "$\x7b" ++ (if length then "#" else "") ++ param.value ++ Index.print? index
        ++ Replace.print? replace ++ Expansion.print? operation ++ "\x7d"

def Index.print : Index → String
  | ⟨word⟩ => "[" ++ word.print ++ "]"

def Index.print? : Option Index → String
  | none => ""
  | some i => i.print

def Replace.print : Replace → String
  | ⟨pattern, substitute, every⟩ =>
    (if every then "//" else "/") ++ pattern.print ++ "/" ++ substitute.print

def Replace.print? : Option Replace → String
  | none => ""
  | some r => r.print

def Expansion.print : Expansion → String
  | ⟨op, word⟩ => op.spelling ++ word.print

def Expansion.print? : Option Expansion → String
  | none => ""
  | some e => e.print

def Arith.print : Arith → String
  | .word w => w.print
  | .unary op operand postfixed _ => signed op postfixed (Arith.print? operand)
  | .binary op left right _ => infixed op (Arith.print? left) (Arith.print? right)
  | .paren inner _ _ => "(" ++ Arith.print? inner ++ ")"

def Arith.print? : Option Arith → String
  | none => ""
  | some a => a.print

def CountLoop.print : CountLoop → String
  | ⟨init, cond, step, _, _⟩ =>
    "((" ++ Arith.print? init ++ "; " ++ Arith.print? cond ++ "; " ++ Arith.print? step ++ "))"

def Assign.print : Assign → String
  | ⟨value, none, _⟩ => value.print
  | ⟨value, some name, append⟩ =>
    name.value ++ (if append then "+=" else "=") ++ value.print

def Assign.printAll : List Assign → List String
  | [] => []
  | a :: rest => a.print :: Assign.printAll rest

/-- The target follows the operator at once, unless it begins like one. -/
def Redirect.print : Redirect → String
  | ⟨op, word, descriptor, _⟩ =>
    (descriptor.map Lit.value).getD "" ++ op.spelling
      ++ (if beginsIn ['<'] word.print then " " else "") ++ word.print

def Redirect.printAll : List Redirect → List String
  | [] => []
  | r :: rest => r.print :: Redirect.printAll rest

def Stmt.print : Stmt → String
  | ⟨command, negated, assigns, redirs, background, _⟩ =>
    spaced ((if negated then ["!"] else []) ++ Assign.printAll assigns ++ [Command.print? command]
      ++ Redirect.printAll redirs ++ (if background then ["&"] else []))

def Stmt.printAll : List Stmt → List Line
  | [] => []
  | s :: rest => ⟨s.print, s.hasHeredoc⟩ :: Stmt.printAll rest

def Command.print : Command → String
  | .simple args => " ".intercalate (Word.printAll args)
  | .subshell stmts _ _ => bracketed stmts.isEmpty (Line.join true (Stmt.printAll stmts))
  | .block stmts _ _ => "\x7b" ++ Line.body (Stmt.printAll stmts) ++ "\x7d"
  | .ifClause cond thenStmts elifs elseStmts _ _ =>
    "if" ++ Cond.print? cond ++ "then" ++ Line.body (Stmt.printAll thenStmts)
      ++ String.join (Elif.printAll elifs)
      ++ (if elseStmts.isEmpty then "" else "else" ++ Line.body (Stmt.printAll elseStmts)) ++ "fi"
  | .whileLoop cond body _ _ =>
    "while" ++ Cond.print? cond ++ "do" ++ Line.body (Stmt.printAll body) ++ "done"
  | .untilLoop cond body _ _ =>
    "until" ++ Cond.print? cond ++ "do" ++ Line.body (Stmt.printAll body) ++ "done"
  | .forLoop head body _ _ =>
    "for " ++ ForHead.print? head ++ "; do" ++ Line.body (Stmt.printAll body) ++ "done"
  | .caseClause word items _ _ =>
    "case " ++ word.print ++ " in" ++ ";;".intercalate (CaseItem.printAll items) ++ "; esac"
  | .function name body keyword _ =>
    (if keyword then "function " else "") ++ name.value ++ "() " ++ body.print
  | .declaration assigns options isLocal _ =>
    spaced ((if isLocal then "local" else "declare") :: Word.printAll options
      ++ Assign.printAll assigns)

def Command.print? : Option Command → String
  | none => ""
  | some c => c.print

def Cond.print : Cond → String
  | .list stmts => Line.body (Stmt.printAll stmts)
  | .test expr _ _ => " ((" ++ Node.print? expr ++ ")); "

/-- An absent condition keeps its separator. -/
def Cond.print? : Option Cond → String
  | none => "; "
  | some c => c.print

def Elif.print : Elif → String
  | ⟨cond, thenStmts, _⟩ =>
    "elif" ++ Cond.print? cond ++ "then" ++ Line.body (Stmt.printAll thenStmts)

def Elif.printAll : List Elif → List String
  | [] => []
  | e :: rest => e.print :: Elif.printAll rest

def ForHead.print : ForHead → String
  | .words name items =>
    if items.isEmpty then name.value
    else name.value ++ " in " ++ " ".intercalate (Word.printAll items)
  | .count loop => loop.print

def ForHead.print? : Option ForHead → String
  | none => ""
  | some h => h.print

def CaseItem.print : CaseItem → String
  | ⟨patterns, stmts⟩ =>
    " " ++ " | ".intercalate (Word.printAll patterns) ++ ") " ++ Line.join true (Stmt.printAll stmts)

def CaseItem.printAll : List CaseItem → List String
  | [] => []
  | i :: rest => i.print :: CaseItem.printAll rest

def File.print : File → String
  | ⟨stmts, _⟩ => Line.join true (Stmt.printAll stmts)

def Node.print : Node → String
  | .part p => p.print
  | .index i => i.print
  | .replace r => r.print
  | .expansion e => e.print
  | .arith a => a.print
  | .assign a => a.print
  | .redirect r => r.print
  | .stmt s => s.print
  | .command c => c.print
  | .cond c => c.print
  | .elif e => e.print
  | .forHead h => h.print
  | .caseItem i => i.print
  | .file f => f.print

def Node.print? : Option Node → String
  | none => ""
  | some n => n.print

end

/-- The line that a statement contributes to a list. -/
def Stmt.line (s : Stmt) : Line := ⟨s.print, s.hasHeredoc⟩

theorem Stmt.printAll_eq (l : List Stmt) : Stmt.printAll l = l.map Stmt.line := by
  induction l with
  | nil => rfl
  | cons s rest ih => simp [Stmt.printAll, Stmt.line, ih]

theorem Word.printAll_eq (l : List Word) : Word.printAll l = l.map Word.print := by
  induction l with
  | nil => rfl
  | cons w rest ih => simp [Word.printAll, ih]

theorem Part.printAll_eq (l : List Part) : Part.printAll l = l.map Part.print := by
  induction l with
  | nil => rfl
  | cons p rest ih => simp [Part.printAll, ih]

theorem Assign.printAll_eq (l : List Assign) : Assign.printAll l = l.map Assign.print := by
  induction l with
  | nil => rfl
  | cons a rest ih => simp [Assign.printAll, ih]

theorem Redirect.printAll_eq (l : List Redirect) :
    Redirect.printAll l = l.map Redirect.print := by
  induction l with
  | nil => rfl
  | cons r rest ih => simp [Redirect.printAll, ih]

theorem Elif.printAll_eq (l : List Elif) : Elif.printAll l = l.map Elif.print := by
  induction l with
  | nil => rfl
  | cons e rest ih => simp [Elif.printAll, ih]

theorem CaseItem.printAll_eq (l : List CaseItem) :
    CaseItem.printAll l = l.map CaseItem.print := by
  induction l with
  | nil => rfl
  | cons i rest ih => simp [CaseItem.printAll, ih]

/-- A statement list in one text. -/
def Stmt.join (closed : Bool) (stmts : List Stmt) : String := Line.join closed (stmts.map Stmt.line)

/-- A statement list between a keyword or brace and the next. -/
def Stmt.body (stmts : List Stmt) : String := Line.body (stmts.map Stmt.line)

/-- The texts of the nodes with a separator between them. -/
def Node.join (separator : String) (nodes : List Node) : String :=
  separator.intercalate (nodes.map Node.print)

end ShellSyntax
