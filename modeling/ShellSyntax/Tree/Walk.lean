import ShellSyntax.Tree.Basic

/-!
# Traversal

* `Node.children`: the direct children, in the order in which they are printed;
* `Node.size`: the number of nodes of a tree, `1` more than that of its children (`size_eq`), which
  bounds every traversal (`size_lt_of_mem_children`);
* `Node.preorder` and `Node.height`: the nodes, parents first, and the longest chain down to a
  descendant, by recursion on the children;
* `Node.walk` and `Node.depth`: loops over a stack of pending nodes, for trees of any depth.
-/

namespace ShellSyntax

/-! ### Children -/

def Part.children : Part → List Node
  | .lit _ => []
  | .singleQuoted _ _ => []
  | .quoted _ parts _ => parts.map .part
  | .param e =>
    .lit e.param :: (e.index.map .index).toList ++ (e.replace.map .replace).toList
      ++ (e.operation.map .expansion).toList
  | .cmdSubst stmts _ _ _ => stmts.map .stmt
  | .arithExp expr _ _ => (expr.map .arith).toList
  | .array items _ _ => items.map .word
  | .cmdInput stmts _ _ => stmts.map .stmt

def Arith.children : Arith → List Node
  | .word w => w.parts.map .part
  | .unary _ operand _ _ => (operand.map .arith).toList
  | .binary _ left right _ => (left.map .arith).toList ++ (right.map .arith).toList
  | .paren inner _ _ => (inner.map .arith).toList

def Command.children : Command → List Node
  | .simple args => args.map .word
  | .subshell stmts _ _ => stmts.map .stmt
  | .block stmts _ _ => stmts.map .stmt
  | .ifClause cond thenStmts elifs elseStmts _ _ =>
    (cond.map .cond).toList ++ thenStmts.map .stmt ++ elifs.map .elif ++ elseStmts.map .stmt
  | .whileLoop cond body _ _ => (cond.map .cond).toList ++ body.map .stmt
  | .untilLoop cond body _ _ => (cond.map .cond).toList ++ body.map .stmt
  | .forLoop head body _ _ => (head.map .forHead).toList ++ body.map .stmt
  | .caseClause word items _ _ => .word word :: items.map .caseItem
  | .function name body _ _ => [.lit name, .stmt body]
  | .declaration assigns options _ _ => options.map .word ++ assigns.map .assign

def Cond.children : Cond → List Node
  | .list stmts => stmts.map .stmt
  | .test expr _ _ => expr.toList

def ForHead.children : ForHead → List Node
  | .words name items => .lit name :: items.map .word
  | .count loop =>
    (loop.init.map .arith).toList ++ (loop.cond.map .arith).toList
      ++ (loop.step.map .arith).toList

def Node.children : Node → List Node
  | .part p => p.children
  | .index i => [.word i.word]
  | .replace r => [.word r.pattern, .word r.substitute]
  | .expansion e => [.word e.word]
  | .arith a => a.children
  | .assign a => (a.name.map .lit).toList ++ [.word a.value]
  | .redirect r => (r.descriptor.map .lit).toList ++ [.word r.word]
  | .stmt s =>
    s.assigns.map .assign ++ (s.command.map .command).toList ++ s.redirs.map .redirect
  | .command c => c.children
  | .cond c => c.children
  | .elif e => (e.cond.map .cond).toList ++ e.thenStmts.map .stmt
  | .forHead h => h.children
  | .caseItem i => i.patterns.map .word ++ i.stmts.map .stmt
  | .file f => f.stmts.map .stmt

/-! ### Size -/

mutual

@[simp] def Word.size : Word → Nat
  | ⟨parts⟩ => 1 + Part.sizeAll parts

@[simp] def Word.sizeAll : List Word → Nat
  | [] => 0
  | w :: rest => w.size + Word.sizeAll rest

@[simp] def Part.size : Part → Nat
  | .lit _ => 1
  | .singleQuoted _ _ => 1
  | .quoted _ parts _ => 1 + Part.sizeAll parts
  | .param e => e.size
  | .cmdSubst stmts _ _ _ => 1 + Stmt.sizeAll stmts
  | .arithExp expr _ _ => 1 + Arith.size? expr
  | .array items _ _ => 1 + Word.sizeAll items
  | .cmdInput stmts _ _ => 1 + Stmt.sizeAll stmts

@[simp] def Part.sizeAll : List Part → Nat
  | [] => 0
  | p :: rest => p.size + Part.sizeAll rest

@[simp] def ParamExp.size : ParamExp → Nat
  | ⟨_, _, _, index, replace, operation, _⟩ =>
    2 + Index.size? index + Replace.size? replace + Expansion.size? operation

@[simp] def Index.size : Index → Nat
  | ⟨word⟩ => 1 + word.size

@[simp] def Index.size? : Option Index → Nat
  | none => 0
  | some i => i.size

@[simp] def Replace.size : Replace → Nat
  | ⟨pattern, substitute, _⟩ => 1 + pattern.size + substitute.size

@[simp] def Replace.size? : Option Replace → Nat
  | none => 0
  | some r => r.size

@[simp] def Expansion.size : Expansion → Nat
  | ⟨_, word⟩ => 1 + word.size

@[simp] def Expansion.size? : Option Expansion → Nat
  | none => 0
  | some e => e.size

@[simp] def Arith.size : Arith → Nat
  | .word w => w.size
  | .unary _ operand _ _ => 1 + Arith.size? operand
  | .binary _ left right _ => 1 + Arith.size? left + Arith.size? right
  | .paren inner _ _ => 1 + Arith.size? inner

@[simp] def Arith.size? : Option Arith → Nat
  | none => 0
  | some a => a.size

@[simp] def CountLoop.size : CountLoop → Nat
  | ⟨init, cond, step, _, _⟩ => 1 + Arith.size? init + Arith.size? cond + Arith.size? step

@[simp] def Assign.size : Assign → Nat
  | ⟨value, none, _⟩ => 1 + value.size
  | ⟨value, some _, _⟩ => 2 + value.size

@[simp] def Assign.sizeAll : List Assign → Nat
  | [] => 0
  | a :: rest => a.size + Assign.sizeAll rest

@[simp] def Redirect.size : Redirect → Nat
  | ⟨_, word, none, _⟩ => 1 + word.size
  | ⟨_, word, some _, _⟩ => 2 + word.size

@[simp] def Redirect.sizeAll : List Redirect → Nat
  | [] => 0
  | r :: rest => r.size + Redirect.sizeAll rest

@[simp] def Stmt.size : Stmt → Nat
  | ⟨command, _, assigns, redirs, _, _⟩ =>
    1 + Assign.sizeAll assigns + Command.size? command + Redirect.sizeAll redirs

@[simp] def Stmt.sizeAll : List Stmt → Nat
  | [] => 0
  | s :: rest => s.size + Stmt.sizeAll rest

@[simp] def Command.size : Command → Nat
  | .simple args => 1 + Word.sizeAll args
  | .subshell stmts _ _ => 1 + Stmt.sizeAll stmts
  | .block stmts _ _ => 1 + Stmt.sizeAll stmts
  | .ifClause cond thenStmts elifs elseStmts _ _ =>
    1 + Cond.size? cond + Stmt.sizeAll thenStmts + Elif.sizeAll elifs + Stmt.sizeAll elseStmts
  | .whileLoop cond body _ _ => 1 + Cond.size? cond + Stmt.sizeAll body
  | .untilLoop cond body _ _ => 1 + Cond.size? cond + Stmt.sizeAll body
  | .forLoop head body _ _ => 1 + ForHead.size? head + Stmt.sizeAll body
  | .caseClause word items _ _ => 1 + word.size + CaseItem.sizeAll items
  | .function _ body _ _ => 2 + body.size
  | .declaration assigns options _ _ => 1 + Word.sizeAll options + Assign.sizeAll assigns

@[simp] def Command.size? : Option Command → Nat
  | none => 0
  | some c => c.size

@[simp] def Cond.size : Cond → Nat
  | .list stmts => 1 + Stmt.sizeAll stmts
  | .test expr _ _ => 1 + Node.size? expr

@[simp] def Cond.size? : Option Cond → Nat
  | none => 0
  | some c => c.size

@[simp] def Elif.size : Elif → Nat
  | ⟨cond, thenStmts, _⟩ => 1 + Cond.size? cond + Stmt.sizeAll thenStmts

@[simp] def Elif.sizeAll : List Elif → Nat
  | [] => 0
  | e :: rest => e.size + Elif.sizeAll rest

@[simp] def ForHead.size : ForHead → Nat
  | .words _ items => 2 + Word.sizeAll items
  | .count loop => loop.size

@[simp] def ForHead.size? : Option ForHead → Nat
  | none => 0
  | some h => h.size

@[simp] def CaseItem.size : CaseItem → Nat
  | ⟨patterns, stmts⟩ => 1 + Word.sizeAll patterns + Stmt.sizeAll stmts

@[simp] def CaseItem.sizeAll : List CaseItem → Nat
  | [] => 0
  | i :: rest => i.size + CaseItem.sizeAll rest

@[simp] def File.size : File → Nat
  | ⟨stmts, _⟩ => 1 + Stmt.sizeAll stmts

/-- The number of nodes of the tree. -/
@[simp] def Node.size : Node → Nat
  | .part p => p.size
  | .index i => i.size
  | .replace r => r.size
  | .expansion e => e.size
  | .arith a => a.size
  | .assign a => a.size
  | .redirect r => r.size
  | .stmt s => s.size
  | .command c => c.size
  | .cond c => c.size
  | .elif e => e.size
  | .forHead h => h.size
  | .caseItem i => i.size
  | .file f => f.size

@[simp] def Node.size? : Option Node → Nat
  | none => 0
  | some n => n.size

end

namespace Node

/-- The number of nodes of several trees. -/
def sizeAll : List Node → Nat
  | [] => 0
  | n :: rest => n.size + sizeAll rest

@[simp] theorem sizeAll_nil : sizeAll [] = 0 := rfl

@[simp] theorem sizeAll_cons (n : Node) (l : List Node) :
    sizeAll (n :: l) = n.size + sizeAll l := rfl

@[simp] theorem sizeAll_append (l m : List Node) :
    sizeAll (l ++ m) = sizeAll l + sizeAll m := by
  induction l with
  | nil => simp
  | cons n rest ih => simp [ih, Nat.add_assoc]

@[simp] theorem sizeAll_reverse (l : List Node) : sizeAll l.reverse = sizeAll l := by
  induction l with
  | nil => rfl
  | cons n rest ih => simp [ih, Nat.add_comm]

@[simp] theorem sizeAll_map_part (l : List Part) : sizeAll (l.map .part) = Part.sizeAll l := by
  induction l with
  | nil => rfl
  | cons p rest ih => simp [ih]

@[simp] theorem sizeAll_map_word (l : List Word) :
    sizeAll (l.map (.arith <| .word ·)) = Word.sizeAll l := by
  induction l with
  | nil => rfl
  | cons w rest ih => simp [ih]

@[simp] theorem sizeAll_map_stmt (l : List Stmt) : sizeAll (l.map .stmt) = Stmt.sizeAll l := by
  induction l with
  | nil => rfl
  | cons s rest ih => simp [ih]

@[simp] theorem sizeAll_map_assign (l : List Assign) :
    sizeAll (l.map .assign) = Assign.sizeAll l := by
  induction l with
  | nil => rfl
  | cons a rest ih => simp [ih]

@[simp] theorem sizeAll_map_redirect (l : List Redirect) :
    sizeAll (l.map .redirect) = Redirect.sizeAll l := by
  induction l with
  | nil => rfl
  | cons r rest ih => simp [ih]

@[simp] theorem sizeAll_map_elif (l : List Elif) : sizeAll (l.map .elif) = Elif.sizeAll l := by
  induction l with
  | nil => rfl
  | cons e rest ih => simp [ih]

@[simp] theorem sizeAll_map_caseItem (l : List CaseItem) :
    sizeAll (l.map .caseItem) = CaseItem.sizeAll l := by
  induction l with
  | nil => rfl
  | cons i rest ih => simp [ih]

end Node

theorem Part.size_eq (p : Part) : p.size = 1 + Node.sizeAll p.children := by
  cases p with
  | param e =>
    obtain ⟨param, short, length, index, replace, operation, dollar⟩ := e
    cases index <;> cases replace <;> cases operation <;> simp [children] <;> omega
  | arithExp expr => cases expr <;> simp [children]
  | _ => simp [children]

theorem Arith.size_eq (a : Arith) : a.size = 1 + Node.sizeAll a.children := by
  cases a with
  | word w => obtain ⟨parts⟩ := w; simp [children]
  | unary _ operand => cases operand <;> simp [children]
  | binary _ left right =>
    cases left <;> cases right <;> simp +arith [children]
  | paren inner => cases inner <;> simp [children]

theorem Cond.size_eq (c : Cond) : c.size = 1 + Node.sizeAll c.children := by
  cases c with
  | list => simp [children]
  | test expr => cases expr <;> simp [children]

theorem ForHead.size_eq (h : ForHead) : h.size = 1 + Node.sizeAll h.children := by
  cases h with
  | words => simp [children]; omega
  | count loop =>
    obtain ⟨init, cond, step, _, _⟩ := loop
    cases init <;> cases cond <;> cases step <;>
      simp [children] <;> omega

theorem Command.size_eq (c : Command) : c.size = 1 + Node.sizeAll c.children := by
  cases c with
  | ifClause cond =>
    cases cond <;> simp [children] <;> omega
  | whileLoop cond => cases cond <;> simp +arith [children]
  | untilLoop cond => cases cond <;> simp +arith [children]
  | forLoop head => cases head <;> simp +arith [children]
  | caseClause => simp [children]; omega
  | function => simp [children]; omega
  | declaration => simp [children]; omega
  | _ => simp [children]

namespace Node

/-- A node counts one more than its children. -/
theorem size_eq (n : Node) : n.size = 1 + sizeAll n.children := by
  cases n with
  | part p => simp only [size, children, p.size_eq]
  | arith a => simp only [size, children, a.size_eq]
  | command c => simp only [size, children, c.size_eq]
  | cond c => simp only [size, children, c.size_eq]
  | forHead h => simp only [size, children, h.size_eq]
  | index i => obtain ⟨word⟩ := i; simp [children]
  | replace r =>
    obtain ⟨pattern, substitute, every⟩ := r
    simp [children]
    omega
  | expansion e =>
    obtain ⟨op, word⟩ := e
    simp [children]
  | assign a =>
    obtain ⟨value, name, append⟩ := a
    cases name <;> simp +arith [children]
  | redirect r =>
    obtain ⟨op, word, descriptor, pos⟩ := r
    cases descriptor <;> simp +arith [children]
  | stmt s =>
    obtain ⟨command, negated, assigns, redirs, background, pos⟩ := s
    cases command <;> simp [children] <;> omega
  | elif e =>
    obtain ⟨cond, thenStmts, pos⟩ := e
    cases cond <;> simp +arith [children]
  | caseItem i =>
    obtain ⟨patterns, stmts⟩ := i
    simp [children]
    omega
  | file f => obtain ⟨stmts, name⟩ := f; simp [children]

theorem size_le_sizeAll {n : Node} {l : List Node} (h : n ∈ l) : n.size ≤ sizeAll l := by
  induction l with
  | nil => simp at h
  | cons m rest ih =>
    simp only [sizeAll_cons]
    rcases List.mem_cons.mp h with rfl | h
    · omega
    · have := ih h; omega

theorem size_lt_of_mem_children {n c : Node} (h : c ∈ n.children) : c.size < n.size := by
  have := size_le_sizeAll h
  have := n.size_eq
  omega

/-! ### Order and height -/

/-- The node, then the nodes below each child in turn. -/
def preorder (n : Node) : List Node :=
  n :: n.children.attach.flatMap fun c => preorder c.1
termination_by n.size
decreasing_by exact size_lt_of_mem_children c.2

/-- The number of nodes on the longest chain from the node down to a descendant. -/
def height (n : Node) : Nat :=
  1 + (n.children.attach.map fun c => height c.1).foldl max 0
termination_by n.size
decreasing_by exact size_lt_of_mem_children c.2

/-- Visits the first pending node and puts its children in front of the others. -/
def walkFrom : List Node → List Node
  | [] => []
  | n :: pending => n :: walkFrom (n.children ++ pending)
termination_by pending => sizeAll pending
decreasing_by
  have := n.size_eq
  simp
  omega

/-- The nodes of the tree, parents before children. -/
def walk (n : Node) : List Node := walkFrom [n]

/-- The deepest level among the pending nodes, each paired with its own, and what lies below them.
The children of a node are visited last to first. -/
def depthFrom (deepest : Nat) : List (Node × Nat) → Nat
  | [] => deepest
  | (n, level) :: pending =>
    depthFrom (max deepest level) (n.children.reverse.map (·, level + 1) ++ pending)
termination_by pending => sizeAll (pending.map Prod.fst)
decreasing_by
  have := n.size_eq
  simp [Function.comp_def]
  omega

/-- The number of levels of the tree. -/
def depth (n : Node) : Nat := depthFrom 0 [(n, 1)]

end Node

end ShellSyntax
