import ShellSyntax.Arith.Level
import ShellSyntax.Arith.Lexeme
import ShellSyntax.Diagnostic
import ShellSyntax.Tree.Print

/-!
# Reading arithmetic expressions

`Arith.parse` reads an expression, `CountLoop.parse` the three parts of a counting loop, which a
semicolon separates; a part may be empty.

A `Stack` holds the operators that wait for their right operand and the open parentheses. A lexeme
either goes onto it (`Stack.shift`), after the waiting operators that bind tighter have taken the
operand at hand (`settle`), or does not fit. Then the stack is emptied, the lexeme dropped, and
reading goes on with the next one; the three lexemes after an error report none themselves
(`Progress.refuse`).
-/

namespace ShellSyntax

inductive ArithError where
  | illegal (c : Char) (pos : Pos)
  | unexpected (l : Lexeme) (pos : Pos)
  | unexpectedEnd
  /-- An assignment to something other than one name. -/
  | notAssignable (op : Token) (target : Arith) (pos : Pos)

namespace ArithError

def diagnostic : ArithError → Diagnostic
  | .illegal c pos =>
    { message := "lexer: illegal character '" ++ c.toString ++ "' -- skipping", pos }
  | .unexpected l pos => { message := "syntax error at `" ++ l.value ++ "'", pos }
  | .unexpectedEnd => { message := "syntax error at end of expression" }
  | .notAssignable op target pos =>
    { message := "cannot assign with `" ++ op.spelling ++ "' to a non-variable"
      construct := target.print
      pos }

end ArithError

/-- A word of one literal that does not begin with a digit. -/
def Arith.assignable : Arith → Bool
  | .word ⟨[.lit l]⟩ => !l.value.toList.head?.any Char.isDigit
  | _ => false

/-- An operator that waits for its right operand. -/
inductive Waiting where
  | prefixOp (op : Token) (pos : Pos)
  | infixOp (left : Arith) (op : Token) (pos : Pos)

namespace Waiting

def level? : Waiting → Option Level
  | .prefixOp op _ => op.prefixLevel?
  | .infixOp _ op _ => op.infixLevel?

/-- The expression that the operator forms with its operand. -/
def apply : Waiting → Arith → Arith
  | .prefixOp op pos, x => .unary op (some x) false pos
  | .infixOp left op pos, x => .binary op (some left) (some x) pos

/-- What is wrong with the expression once it is formed. -/
def errors : Waiting → List ArithError
  | .prefixOp _ _ => []
  | .infixOp left op pos =>
    if op ∈ Token.assignments ∧ left.assignable = false then [.notAssignable op left pos] else []

/-- The operator takes its operand before an operator of the level that follows. -/
def Before (w : Waiting) (next : Level) : Prop :=
  match w.level? with
  | none => False
  | some level => level.Before next

instance (w : Waiting) (next : Level) : Decidable (w.Before next) := by
  unfold Before; split <;> infer_instance

end Waiting

inductive Frame where
  | waiting (w : Waiting)
  | paren (lparen : Pos)

/-- What has been read so far: the parts before the last semicolon, the open frames, innermost first,
and the operand at hand. Without an operand, one is expected. -/
structure Stack where
  parts : List (Option Arith) := []
  frames : List Frame := []
  operand : Option Arith := none

/-- The outcome of settling: the frames left, the operand formed, and what was wrong on the way. -/
structure Settled where
  frames : List Frame
  operand : Arith
  errors : List ArithError := []

/-- The waiting operators take the operand, innermost first, as long as `ready` holds; a parenthesis
stops them. -/
def settle (ready : Waiting → Bool) : List Frame → Arith → Settled
  | [], x => { frames := [], operand := x }
  | .paren lparen :: rest, x => { frames := .paren lparen :: rest, operand := x }
  | .waiting w :: rest, x =>
    if ready w then
      let s := settle ready rest (w.apply x)
      { s with errors := w.errors ++ s.errors }
    else { frames := .waiting w :: rest, operand := x }

/-- The outcome of a lexeme: what was wrong before it was reached, and the stack with the lexeme on
it if it fits. -/
structure Shift where
  errors : List ArithError := []
  stack : Option Stack := none

namespace Stack

/-- A lexeme where an operand is expected. -/
def shiftOperand (parts : Nat) (s : Stack) (pos : Pos) : Lexeme → Shift
  | .name text | .number text =>
    { stack := some { s with operand := some (.word (.ofLit text pos)) } }
  | .param text =>
    let e : ParamExp := { param := ⟨text, pos.right 1⟩, short := true, dollar := pos }
    { stack := some { s with operand := some (.word ⟨[.param e]⟩) } }
  | .op t =>
    if t = .leftParen then { stack := some { s with frames := .paren pos :: s.frames } }
    else if t.prefixLevel?.isSome then
      { stack := some { s with frames := .waiting (.prefixOp t pos) :: s.frames } }
    else if t = .semicolon ∧ s.frames.isEmpty ∧ s.parts.length + 1 < parts then
      { stack := some { parts := s.parts ++ [none] } }
    else {}

/-- A lexeme behind the operand `x`. -/
def shiftOperator (parts : Nat) (s : Stack) (x : Arith) (pos : Pos) : Lexeme → Shift
  | .op t =>
    match t.infixLevel? with
    | some level =>
      let r := settle (fun w => w.Before level) s.frames x
      { errors := r.errors
        stack := some
          { s with frames := .waiting (.infixOp r.operand t pos) :: r.frames, operand := none } }
    | none =>
      if t ∈ Token.postfixes then
        let r := settle (fun w => w.Before .ofPostfix) s.frames x
        { errors := r.errors
          stack := some
            { s with frames := r.frames, operand := some (.unary t (some r.operand) true pos) } }
      else if t = .rightParen then
        let r := settle (fun _ => true) s.frames x
        match r.frames with
        | .paren lparen :: rest =>
          { errors := r.errors
            stack := some
              { s with frames := rest, operand := some (.paren (some r.operand) lparen pos) } }
        | _ => { errors := r.errors }
      else if t = .semicolon ∧ 1 < parts then
        let r := settle (fun _ => true) s.frames x
        if r.frames.isEmpty ∧ s.parts.length + 1 < parts then
          { errors := r.errors, stack := some { parts := s.parts ++ [some r.operand] } }
        else { errors := r.errors }
      else {}
  | _ => {}

/-- Puts a lexeme onto the stack; `parts` is the number of parts of the whole. -/
def shift (parts : Nat) (s : Stack) (l : Lexeme) (pos : Pos) : Shift :=
  match s.operand with
  | none => s.shiftOperand parts pos l
  | some x => s.shiftOperator parts x pos l

/-- The parts of the whole, if the text may end here, and what was wrong before its end. -/
def finish (parts : Nat) (s : Stack) : List ArithError × Option (List (Option Arith)) :=
  match s.operand with
  | none =>
    ([], if s.frames.isEmpty ∧ s.parts.length + 1 = parts then some (s.parts ++ [none]) else none)
  | some x =>
    let r := settle (fun _ => true) s.frames x
    (r.errors,
      if r.frames.isEmpty ∧ s.parts.length + 1 = parts then some (s.parts ++ [some r.operand])
      else none)

end Stack

/-- The state of a run over a text: the stack, the errors so far, and how many lexemes must still
pass before a syntax error is reported again. -/
structure Progress where
  stack : Stack := {}
  quiet : Nat := 0
  errors : List ArithError := []

namespace Progress

/-- Logs a syntax error unless one was just reported, and starts anew behind it. -/
def refuse (p : Progress) (error : ArithError) : Progress where
  quiet := 3
  errors := if p.quiet = 0 then p.errors ++ [error] else p.errors

def step (parts : Nat) (p : Progress) : Scanned → Progress
  | .illegal c pos => { p with errors := p.errors ++ [.illegal c pos] }
  | .lexeme l pos =>
    let r := p.stack.shift parts l pos
    let p := { p with errors := p.errors ++ r.errors }
    match r.stack with
    | some stack => { p with stack, quiet := p.quiet - 1 }
    | none => p.refuse (.unexpected l pos)

end Progress

/-- The result of reading a text: the tree that was built, if the text could be read to its end, and
all that was wrong. -/
structure Reading (α : Type) where
  built : Option α
  errors : List ArithError

/-- The tree, if nothing was wrong. -/
def Reading.tree {α : Type} (r : Reading α) : Option α := if r.errors.isEmpty then r.built else none

/-- Reads the parts of a text of `parts` parts. -/
def readParts (parts : Nat) (text : String) : Reading (List (Option Arith)) :=
  let p := (scan text).foldl (Progress.step parts) {}
  match p.stack.finish parts with
  | (errors, some l) => { built := some l, errors := p.errors ++ errors }
  | (errors, none) =>
    { built := none
      errors := ({ p with errors := p.errors ++ errors }.refuse .unexpectedEnd).errors }

/-- Reads an expression. A blank text has no tree and no error. -/
def Arith.parse (text : String) : Reading Arith :=
  let r := readParts 1 text
  { built := r.built.bind fun l => l.head?.bind id, errors := r.errors }

/-- Reads the head of a counting loop, without its parentheses. -/
def CountLoop.parse (text : String) : Reading CountLoop :=
  let r := readParts 3 text
  { built := r.built.bind fun
      | [init, cond, step] => some { init, cond, step }
      | _ => none
    errors := r.errors }

end ShellSyntax
