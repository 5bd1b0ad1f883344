import ShellSyntax.Tree.Print

/-!
# Trees without their positions

`Node.unplaced` forgets every stored position. Two trees are equal in everything but their positions
when they are equal without them; then they also have one text (`print_unplaced`).
-/

namespace ShellSyntax

def Lit.unplaced (l : Lit) : Lit := { value := l.value }

@[simp] theorem Lit.unplaced_value (l : Lit) : l.unplaced.value = l.value := rfl

mutual

@[simp] def Word.unplaced : Word → Word
  | ⟨parts⟩ => ⟨Part.unplacedAll parts⟩

@[simp] def Word.unplacedAll : List Word → List Word
  | [] => []
  | w :: rest => w.unplaced :: Word.unplacedAll rest

@[simp] def Part.unplaced : Part → Part
  | .lit text => .lit text.unplaced
  | .singleQuoted value _ => .singleQuoted value {}
  | .quoted quote parts _ => .quoted quote (Part.unplacedAll parts) {}
  | .param e => .param e.unplaced
  | .cmdSubst stmts backquotes _ _ => .cmdSubst (Stmt.unplacedAll stmts) backquotes {} {}
  | .arithExp expr _ _ => .arithExp (Arith.unplaced? expr) {} {}
  | .array items _ _ => .array (Word.unplacedAll items) {} {}
  | .cmdInput stmts _ _ => .cmdInput (Stmt.unplacedAll stmts) {} {}

@[simp] def Part.unplacedAll : List Part → List Part
  | [] => []
  | p :: rest => p.unplaced :: Part.unplacedAll rest

@[simp] def ParamExp.unplaced : ParamExp → ParamExp
  | ⟨param, short, length, index, replace, operation, _⟩ =>
    ⟨param.unplaced, short, length, Index.unplaced? index, Replace.unplaced? replace,
     Expansion.unplaced? operation, {}⟩

@[simp] def Index.unplaced : Index → Index
  | ⟨word⟩ => ⟨word.unplaced⟩

@[simp] def Index.unplaced? : Option Index → Option Index
  | none => none
  | some i => some i.unplaced

@[simp] def Replace.unplaced : Replace → Replace
  | ⟨pattern, substitute, every⟩ => ⟨pattern.unplaced, substitute.unplaced, every⟩

@[simp] def Replace.unplaced? : Option Replace → Option Replace
  | none => none
  | some r => some r.unplaced

@[simp] def Expansion.unplaced : Expansion → Expansion
  | ⟨op, word⟩ => ⟨op, word.unplaced⟩

@[simp] def Expansion.unplaced? : Option Expansion → Option Expansion
  | none => none
  | some e => some e.unplaced

@[simp] def Arith.unplaced : Arith → Arith
  | .word w => .word w.unplaced
  | .unary op operand postfixed _ => .unary op (Arith.unplaced? operand) postfixed {}
  | .binary op left right _ => .binary op (Arith.unplaced? left) (Arith.unplaced? right) {}
  | .paren inner _ _ => .paren (Arith.unplaced? inner) {} {}

@[simp] def Arith.unplaced? : Option Arith → Option Arith
  | none => none
  | some a => some a.unplaced

@[simp] def CountLoop.unplaced : CountLoop → CountLoop
  | ⟨init, cond, step, _, _⟩ =>
    ⟨Arith.unplaced? init, Arith.unplaced? cond, Arith.unplaced? step, {}, {}⟩

@[simp] def Assign.unplaced : Assign → Assign
  | ⟨value, name, append⟩ => ⟨value.unplaced, name.map Lit.unplaced, append⟩

@[simp] def Assign.unplacedAll : List Assign → List Assign
  | [] => []
  | a :: rest => a.unplaced :: Assign.unplacedAll rest

@[simp] def Redirect.unplaced : Redirect → Redirect
  | ⟨op, word, descriptor, _⟩ => ⟨op, word.unplaced, descriptor.map Lit.unplaced, {}⟩

@[simp] def Redirect.unplacedAll : List Redirect → List Redirect
  | [] => []
  | r :: rest => r.unplaced :: Redirect.unplacedAll rest

@[simp] def Stmt.unplaced : Stmt → Stmt
  | ⟨command, negated, assigns, redirs, background, _⟩ =>
    ⟨Command.unplaced? command, negated, Assign.unplacedAll assigns, Redirect.unplacedAll redirs,
     background, {}⟩

@[simp] def Stmt.unplacedAll : List Stmt → List Stmt
  | [] => []
  | s :: rest => s.unplaced :: Stmt.unplacedAll rest

@[simp] def Command.unplaced : Command → Command
  | .simple args => .simple (Word.unplacedAll args)
  | .subshell stmts _ _ => .subshell (Stmt.unplacedAll stmts) {} {}
  | .block stmts _ _ => .block (Stmt.unplacedAll stmts) {} {}
  | .ifClause cond thenStmts elifs elseStmts _ _ =>
    .ifClause (Cond.unplaced? cond) (Stmt.unplacedAll thenStmts) (Elif.unplacedAll elifs)
      (Stmt.unplacedAll elseStmts) {} {}
  | .whileLoop cond body _ _ => .whileLoop (Cond.unplaced? cond) (Stmt.unplacedAll body) {} {}
  | .untilLoop cond body _ _ => .untilLoop (Cond.unplaced? cond) (Stmt.unplacedAll body) {} {}
  | .forLoop head body _ _ => .forLoop (ForHead.unplaced? head) (Stmt.unplacedAll body) {} {}
  | .caseClause word items _ _ => .caseClause word.unplaced (CaseItem.unplacedAll items) {} {}
  | .function name body keyword _ => .function name.unplaced body.unplaced keyword {}
  | .declaration assigns options isLocal _ =>
    .declaration (Assign.unplacedAll assigns) (Word.unplacedAll options) isLocal {}

@[simp] def Command.unplaced? : Option Command → Option Command
  | none => none
  | some c => some c.unplaced

@[simp] def Cond.unplaced : Cond → Cond
  | .list stmts => .list (Stmt.unplacedAll stmts)
  | .test expr _ _ => .test (Node.unplaced? expr) {} {}

@[simp] def Cond.unplaced? : Option Cond → Option Cond
  | none => none
  | some c => some c.unplaced

@[simp] def Elif.unplaced : Elif → Elif
  | ⟨cond, thenStmts, _⟩ => ⟨Cond.unplaced? cond, Stmt.unplacedAll thenStmts, {}⟩

@[simp] def Elif.unplacedAll : List Elif → List Elif
  | [] => []
  | e :: rest => e.unplaced :: Elif.unplacedAll rest

@[simp] def ForHead.unplaced : ForHead → ForHead
  | .words name items => .words name.unplaced (Word.unplacedAll items)
  | .count loop => .count loop.unplaced

@[simp] def ForHead.unplaced? : Option ForHead → Option ForHead
  | none => none
  | some h => some h.unplaced

@[simp] def CaseItem.unplaced : CaseItem → CaseItem
  | ⟨patterns, stmts⟩ => ⟨Word.unplacedAll patterns, Stmt.unplacedAll stmts⟩

@[simp] def CaseItem.unplacedAll : List CaseItem → List CaseItem
  | [] => []
  | i :: rest => i.unplaced :: CaseItem.unplacedAll rest

@[simp] def File.unplaced : File → File
  | ⟨stmts, name⟩ => ⟨Stmt.unplacedAll stmts, name⟩

@[simp] def Node.unplaced : Node → Node
  | .part p => .part p.unplaced
  | .index i => .index i.unplaced
  | .replace r => .replace r.unplaced
  | .expansion e => .expansion e.unplaced
  | .arith a => .arith a.unplaced
  | .assign a => .assign a.unplaced
  | .redirect r => .redirect r.unplaced
  | .stmt s => .stmt s.unplaced
  | .command c => .command c.unplaced
  | .cond c => .cond c.unplaced
  | .elif e => .elif e.unplaced
  | .forHead h => .forHead h.unplaced
  | .caseItem i => .caseItem i.unplaced
  | .file f => .file f.unplaced

@[simp] def Node.unplaced? : Option Node → Option Node
  | none => none
  | some n => some n.unplaced

end

theorem Redirect.any_heredoc_unplacedAll (l : List Redirect) :
    ((Redirect.unplacedAll l).any fun r => decide (r.op ∈ Token.heredocs))
      = l.any fun r => decide (r.op ∈ Token.heredocs) := by
  induction l with
  | nil => rfl
  | cons r rest ih =>
    obtain ⟨op, word, descriptor, pos⟩ := r
    simp [ih]

theorem Stmt.hasHeredoc_unplaced (s : Stmt) : s.unplaced.hasHeredoc = s.hasHeredoc := by
  obtain ⟨command, negated, assigns, redirs, background, pos⟩ := s
  exact Redirect.any_heredoc_unplacedAll redirs

theorem Stmt.isEmpty_unplacedAll (l : List Stmt) : (Stmt.unplacedAll l).isEmpty = l.isEmpty := by
  cases l <;> rfl

theorem Word.isEmpty_unplacedAll (l : List Word) : (Word.unplacedAll l).isEmpty = l.isEmpty := by
  cases l <;> rfl

/-! ### The text depends on no position -/

mutual

theorem Word.print_unplaced : (w : Word) → w.unplaced.print = w.print
  | ⟨parts⟩ => by simp [Word.print, Part.printAll_unplaced parts]

theorem Word.printAll_unplaced : (l : List Word) →
    Word.printAll (Word.unplacedAll l) = Word.printAll l
  | [] => rfl
  | w :: rest => by simp [Word.printAll, w.print_unplaced, Word.printAll_unplaced rest]

theorem Part.print_unplaced : (p : Part) → p.unplaced.print = p.print
  | .lit _ => rfl
  | .singleQuoted _ _ => rfl
  | .quoted _ parts _ => by simp [Part.print, Part.printAll_unplaced parts]
  | .param e => by simp [Part.print, e.print_unplaced]
  | .cmdSubst stmts _ _ _ => by simp [Part.print, Stmt.printAll_unplaced stmts]
  | .arithExp expr _ _ => by simp [Part.print, Arith.print?_unplaced expr]
  | .array items _ _ => by
    simp [Part.print, Word.printAll_unplaced items, Word.isEmpty_unplacedAll items]
  | .cmdInput stmts _ _ => by simp [Part.print, Stmt.printAll_unplaced stmts]

theorem Part.printAll_unplaced : (l : List Part) →
    Part.printAll (Part.unplacedAll l) = Part.printAll l
  | [] => rfl
  | p :: rest => by simp [Part.printAll, p.print_unplaced, Part.printAll_unplaced rest]

theorem ParamExp.print_unplaced : (e : ParamExp) → e.unplaced.print = e.print
  | ⟨_, _, _, index, replace, operation, _⟩ => by
    simp [ParamExp.print, Index.print?_unplaced index, Replace.print?_unplaced replace,
      Expansion.print?_unplaced operation]

theorem Index.print_unplaced : (i : Index) → i.unplaced.print = i.print
  | ⟨word⟩ => by simp [Index.print, word.print_unplaced]

theorem Index.print?_unplaced : (i : Option Index) →
    Index.print? (Index.unplaced? i) = Index.print? i
  | none => rfl
  | some i => by simp [Index.print?, i.print_unplaced]

theorem Replace.print_unplaced : (r : Replace) → r.unplaced.print = r.print
  | ⟨pattern, substitute, _⟩ => by
    simp [Replace.print, pattern.print_unplaced, substitute.print_unplaced]

theorem Replace.print?_unplaced : (r : Option Replace) →
    Replace.print? (Replace.unplaced? r) = Replace.print? r
  | none => rfl
  | some r => by simp [Replace.print?, r.print_unplaced]

theorem Expansion.print_unplaced : (e : Expansion) → e.unplaced.print = e.print
  | ⟨_, word⟩ => by simp [Expansion.print, word.print_unplaced]

theorem Expansion.print?_unplaced : (e : Option Expansion) →
    Expansion.print? (Expansion.unplaced? e) = Expansion.print? e
  | none => rfl
  | some e => by simp [Expansion.print?, e.print_unplaced]

theorem Arith.print_unplaced : (a : Arith) → a.unplaced.print = a.print
  | .word w => by simp [Arith.print, w.print_unplaced]
  | .unary _ operand _ _ => by simp [Arith.print, Arith.print?_unplaced operand]
  | .binary _ left right _ => by
    simp [Arith.print, Arith.print?_unplaced left, Arith.print?_unplaced right]
  | .paren inner _ _ => by simp [Arith.print, Arith.print?_unplaced inner]

theorem Arith.print?_unplaced : (a : Option Arith) →
    Arith.print? (Arith.unplaced? a) = Arith.print? a
  | none => rfl
  | some a => by simp [Arith.print?, a.print_unplaced]

theorem CountLoop.print_unplaced : (l : CountLoop) → l.unplaced.print = l.print
  | ⟨init, cond, step, _, _⟩ => by
    simp [CountLoop.print, Arith.print?_unplaced init, Arith.print?_unplaced cond,
      Arith.print?_unplaced step]

theorem Assign.print_unplaced : (a : Assign) → a.unplaced.print = a.print
  | ⟨value, none, _⟩ => by simp [Assign.print, value.print_unplaced]
  | ⟨value, some _, _⟩ => by simp [Assign.print, value.print_unplaced]

theorem Assign.printAll_unplaced : (l : List Assign) →
    Assign.printAll (Assign.unplacedAll l) = Assign.printAll l
  | [] => rfl
  | a :: rest => by simp [Assign.printAll, a.print_unplaced, Assign.printAll_unplaced rest]

theorem Redirect.print_unplaced : (r : Redirect) → r.unplaced.print = r.print
  | ⟨_, word, none, _⟩ => by simp [Redirect.print, word.print_unplaced]
  | ⟨_, word, some _, _⟩ => by simp [Redirect.print, word.print_unplaced]

theorem Redirect.printAll_unplaced : (l : List Redirect) →
    Redirect.printAll (Redirect.unplacedAll l) = Redirect.printAll l
  | [] => rfl
  | r :: rest => by simp [Redirect.printAll, r.print_unplaced, Redirect.printAll_unplaced rest]

theorem Stmt.print_unplaced : (s : Stmt) → s.unplaced.print = s.print
  | ⟨command, _, assigns, redirs, _, _⟩ => by
    simp [Stmt.print, Assign.printAll_unplaced assigns, Command.print?_unplaced command,
      Redirect.printAll_unplaced redirs]

theorem Stmt.printAll_unplaced : (l : List Stmt) →
    Stmt.printAll (Stmt.unplacedAll l) = Stmt.printAll l
  | [] => rfl
  | s :: rest => by
    simp [Stmt.printAll, s.print_unplaced, s.hasHeredoc_unplaced, Stmt.printAll_unplaced rest]

theorem Command.print_unplaced : (c : Command) → c.unplaced.print = c.print
  | .simple args => by simp [Command.print, Word.printAll_unplaced args]
  | .subshell stmts _ _ => by
    simp [Command.print, Stmt.printAll_unplaced stmts, Stmt.isEmpty_unplacedAll stmts]
  | .block stmts _ _ => by simp [Command.print, Stmt.printAll_unplaced stmts]
  | .ifClause cond thenStmts elifs elseStmts _ _ => by
    simp only [Command.unplaced, Command.print, Cond.print?_unplaced cond,
      Stmt.printAll_unplaced thenStmts, Elif.printAll_unplaced elifs,
      Stmt.printAll_unplaced elseStmts, Stmt.isEmpty_unplacedAll elseStmts]
  | .whileLoop cond body _ _ => by
    simp [Command.print, Cond.print?_unplaced cond, Stmt.printAll_unplaced body]
  | .untilLoop cond body _ _ => by
    simp [Command.print, Cond.print?_unplaced cond, Stmt.printAll_unplaced body]
  | .forLoop head body _ _ => by
    simp [Command.print, ForHead.print?_unplaced head, Stmt.printAll_unplaced body]
  | .caseClause word items _ _ => by
    simp [Command.print, word.print_unplaced, CaseItem.printAll_unplaced items]
  | .function _ body _ _ => by simp [Command.print, body.print_unplaced]
  | .declaration assigns options _ _ => by
    simp [Command.print, Assign.printAll_unplaced assigns, Word.printAll_unplaced options]

theorem Command.print?_unplaced : (c : Option Command) →
    Command.print? (Command.unplaced? c) = Command.print? c
  | none => rfl
  | some c => by simp [Command.print?, c.print_unplaced]

theorem Cond.print_unplaced : (c : Cond) → c.unplaced.print = c.print
  | .list stmts => by simp [Cond.print, Stmt.printAll_unplaced stmts]
  | .test expr _ _ => by simp [Cond.print, Node.print?_unplaced expr]

theorem Cond.print?_unplaced : (c : Option Cond) →
    Cond.print? (Cond.unplaced? c) = Cond.print? c
  | none => rfl
  | some c => by simp [Cond.print?, c.print_unplaced]

theorem Elif.print_unplaced : (e : Elif) → e.unplaced.print = e.print
  | ⟨cond, thenStmts, _⟩ => by
    simp [Elif.print, Cond.print?_unplaced cond, Stmt.printAll_unplaced thenStmts]

theorem Elif.printAll_unplaced : (l : List Elif) →
    Elif.printAll (Elif.unplacedAll l) = Elif.printAll l
  | [] => rfl
  | e :: rest => by simp [Elif.printAll, e.print_unplaced, Elif.printAll_unplaced rest]

theorem ForHead.print_unplaced : (h : ForHead) → h.unplaced.print = h.print
  | .words _ items => by
    simp only [ForHead.unplaced, ForHead.print, Word.printAll_unplaced items,
      Word.isEmpty_unplacedAll items, Lit.unplaced_value]
  | .count loop => by simp [ForHead.print, loop.print_unplaced]

theorem ForHead.print?_unplaced : (h : Option ForHead) →
    ForHead.print? (ForHead.unplaced? h) = ForHead.print? h
  | none => rfl
  | some h => by simp [ForHead.print?, h.print_unplaced]

theorem CaseItem.print_unplaced : (i : CaseItem) → i.unplaced.print = i.print
  | ⟨patterns, stmts⟩ => by
    simp [CaseItem.print, Word.printAll_unplaced patterns, Stmt.printAll_unplaced stmts]

theorem CaseItem.printAll_unplaced : (l : List CaseItem) →
    CaseItem.printAll (CaseItem.unplacedAll l) = CaseItem.printAll l
  | [] => rfl
  | i :: rest => by simp [CaseItem.printAll, i.print_unplaced, CaseItem.printAll_unplaced rest]

theorem File.print_unplaced : (f : File) → f.unplaced.print = f.print
  | ⟨stmts, _⟩ => by simp [File.print, Stmt.printAll_unplaced stmts]

theorem Node.print_unplaced : (n : Node) → n.unplaced.print = n.print
  | .part p => by simp [Node.print, p.print_unplaced]
  | .index i => by simp [Node.print, i.print_unplaced]
  | .replace r => by simp [Node.print, r.print_unplaced]
  | .expansion e => by simp [Node.print, e.print_unplaced]
  | .arith a => by simp [Node.print, a.print_unplaced]
  | .assign a => by simp [Node.print, a.print_unplaced]
  | .redirect r => by simp [Node.print, r.print_unplaced]
  | .stmt s => by simp [Node.print, s.print_unplaced]
  | .command c => by simp [Node.print, c.print_unplaced]
  | .cond c => by simp [Node.print, c.print_unplaced]
  | .elif e => by simp [Node.print, e.print_unplaced]
  | .forHead h => by simp [Node.print, h.print_unplaced]
  | .caseItem i => by simp [Node.print, i.print_unplaced]
  | .file f => by simp [Node.print, f.print_unplaced]

theorem Node.print?_unplaced : (n : Option Node) →
    Node.print? (Node.unplaced? n) = Node.print? n
  | none => rfl
  | some n => by simp [Node.print?, n.print_unplaced]

end

end ShellSyntax
