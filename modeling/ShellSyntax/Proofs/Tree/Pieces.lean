import ShellSyntax.Proofs.Tree.Content

/-!
# The pieces of a text

A node writes its children in order, with text of its own around them.

* `Node.pieces`: these pieces; they make up the text of the node (`texts_pieces`), and the nodes
  among them are its children (`nodes_pieces`);
* `Node.Shows`: a node stands in the text of a tree behind and in front of given texts
  (`Shows.print_eq`), as every node of a tree does (`exists_shows`).
-/

namespace ShellSyntax

/-- What ends the statement in a list, as the last of it or not. -/
def Stmt.terminator (s : Stmt) (last : Bool) : String :=
  if s.hasHeredoc then "\n" else if last then "" else "; "

theorem Stmt.separator_line (s : Stmt) : s.line.separator = s.terminator false := rfl

theorem Stmt.ending_line (s : Stmt) : s.line.ending true = s.terminator true := by
  simp [Line.ending, line, terminator]

/-- A piece of the text of a node: text of its own, or that of a child. -/
inductive Piece where
  | own (text : String)
  | child (n : Node)

namespace Piece

def text : Piece → String
  | .own text => text
  | .child n => n.print

def node? : Piece → Option Node
  | .own _ => none
  | .child n => some n

/-- The pieces in one text. -/
def texts (l : List Piece) : String := String.join (l.map text)

/-- The children among the pieces. -/
def nodes (l : List Piece) : List Node := l.filterMap node?

section Lemmas

variable {p : Piece} {l m : List Piece}

@[simp] theorem text_own (s : String) : (own s).text = s := rfl

@[simp] theorem text_child (n : Node) : (child n).text = n.print := rfl

@[simp] theorem node?_own (s : String) : (own s).node? = none := rfl

@[simp] theorem node?_child (n : Node) : (child n).node? = some n := rfl

@[simp] theorem texts_nil : texts [] = "" := by simp [texts]

@[simp] theorem texts_cons : texts (p :: l) = p.text ++ texts l := by simp [texts]

@[simp] theorem texts_append : texts (l ++ m) = texts l ++ texts m := by simp [texts]

@[simp] theorem nodes_nil : nodes [] = [] := rfl

@[simp] theorem nodes_cons : nodes (p :: l) = p.node?.toList ++ nodes l := by
  cases p <;> rfl

@[simp] theorem nodes_append : nodes (l ++ m) = nodes l ++ nodes m := by simp [nodes]

end Lemmas

/-! ### Ways of joining pieces -/

/-- The nodes, one right behind the other. -/
def each (l : List Node) : List Piece := l.map .child

/-- The nodes with a separator between them. -/
def between (separator : String) (l : List Node) : List Piece :=
  (each l).intersperse (.own separator)

/-- The pieces with a blank in front of each that has a text, but for the first such. -/
def blanks (behind : Bool) : List Piece → List Piece
  | [] => []
  | p :: rest =>
    .own (if behind && p.text ≠ "" then " " else "") :: p :: blanks (behind || p.text ≠ "") rest

/-- The statements of a list, each with what ends it. -/
def lines : List Stmt → List Piece
  | [] => []
  | s :: rest => .child (.stmt s) :: .own (s.terminator rest.isEmpty) :: lines rest

/-- A statement list between a keyword or brace and the next. -/
def body (stmts : List Stmt) : List Piece :=
  if stmts.isEmpty then [.own "; "]
  else
    .own " " :: lines stmts
      ++ [.own (if endsIn ['\n'] (Stmt.join true stmts) then "" else "; ")]

/-- Pieces between parentheses, which keep a blank when there are none. -/
def parenthesized (l : List Piece) : List Piece :=
  if l.isEmpty then [.own "( )"] else .own "(" :: l ++ [.own ")"]

/-- A condition, or the separator that stands for an absent one. -/
def condition : Option Cond → List Piece
  | none => [.own "; "]
  | some c => [.child (.cond c)]

section Lemmas

variable {l : List Node} {pieces : List Piece} {stmts : List Stmt}

@[simp] theorem each_nil : each [] = [] := rfl

@[simp] theorem each_cons {n : Node} : each (n :: l) = .child n :: each l := rfl

theorem texts_each : texts (each l) = String.join (l.map Node.print) := by
  simp [texts, each, Function.comp_def, text]

@[simp] theorem nodes_each : nodes (each l) = l := by
  simp [nodes, each, List.filterMap_map, Function.comp_def, node?]

theorem texts_between {separator : String} :
    texts (between separator l) = separator.intercalate (l.map Node.print) := by
  induction l with
  | nil => simp [between, each]
  | cons n rest ih =>
    cases rest with
    | nil => simp [between, each]
    | cons m rest =>
      simp only [between, each, List.map_cons, List.intersperse_cons_cons, texts_cons,
        String.intercalate_cons_cons] at ih ⊢
      rw [ih, text_child, text_own, String.append_assoc]

@[simp] theorem nodes_between {separator : String} : nodes (between separator l) = l := by
  induction l with
  | nil => rfl
  | cons n rest ih =>
    cases rest with
    | nil => rfl
    | cons m rest =>
      simp only [between, each, List.map_cons, List.intersperse_cons_cons, nodes_cons] at ih ⊢
      rw [ih]
      rfl

@[simp] theorem isEmpty_between {separator : String} :
    (between separator l).isEmpty = l.isEmpty := by
  cases l with
  | nil => rfl
  | cons n rest => cases rest <;> rfl

/-- The text of pieces that stand behind others needs a blank, unless it is empty. -/
theorem texts_blanks (behind : Bool) : texts (blanks behind pieces)
    = (if behind ∧ (pieces.map text).filter (· ≠ "") ≠ [] then " " else "")
        ++ spaced (pieces.map text) := by
  induction pieces generalizing behind with
  | nil => simp [blanks, spaced]
  | cons p rest ih =>
    rw [blanks, texts_cons, texts_cons, ih, spaced, spaced, List.map_cons]
    by_cases h : p.text = ""
    · simp [h]
    · rw [List.filter_cons_of_pos (by simpa using h)]
      cases (rest.map text).filter (· ≠ "") with
      | nil => simp [h]
      | cons s shown => simp [h, String.append_assoc]

@[simp] theorem texts_blanks_false : texts (blanks false pieces) = spaced (pieces.map text) := by
  simp [texts_blanks]

@[simp] theorem nodes_blanks {behind : Bool} : nodes (blanks behind pieces) = nodes pieces := by
  induction pieces generalizing behind with
  | nil => rfl
  | cons p rest ih => cases p <;> simp [blanks, ih]

@[simp] theorem texts_lines : texts (lines stmts) = Stmt.join true stmts := by
  induction stmts with
  | nil => simp [lines, Stmt.join, Line.join]
  | cons s rest ih =>
    cases rest with
    | nil =>
      rw [lines, texts_cons, texts_cons, text_own, List.isEmpty_nil, ← Stmt.ending_line]
      simp [lines, Stmt.join, Line.join, Stmt.line, Node.print]
    | cons t rest =>
      rw [lines, texts_cons, texts_cons, ih, text_own, List.isEmpty_cons, ← Stmt.separator_line,
        ← String.append_assoc]
      rfl

@[simp] theorem nodes_lines : nodes (lines stmts) = stmts.map .stmt := by
  induction stmts with
  | nil => rfl
  | cons s rest ih => simp [lines, ih]

@[simp] theorem isEmpty_lines : (lines stmts).isEmpty = stmts.isEmpty := by
  cases stmts <;> rfl

@[simp] theorem texts_body : texts (body stmts) = Stmt.body stmts := by
  cases stmts with
  | nil => simp [body, Stmt.body, Line.body]
  | cons s rest =>
    simp only [body, Stmt.body, Line.body, List.isEmpty_cons, Bool.false_eq_true, if_false,
      texts_append, texts_cons, texts_nil, texts_lines, text_own, String.append_empty]
    change _ = if endsIn ['\n'] (Stmt.join true (s :: rest)) then _ else _
    split <;> simp [Stmt.join]

@[simp] theorem nodes_body : nodes (body stmts) = stmts.map .stmt := by
  cases stmts <;> simp [body]

@[simp] theorem texts_parenthesized :
    texts (parenthesized pieces) = bracketed pieces.isEmpty (texts pieces) := by
  cases pieces <;> simp [parenthesized, bracketed, String.append_assoc]

@[simp] theorem nodes_parenthesized : nodes (parenthesized pieces) = nodes pieces := by
  cases pieces <;> simp [parenthesized]

@[simp] theorem texts_condition (c : Option Cond) : texts (condition c) = Cond.print? c := by
  cases c <;> simp [condition, Cond.print?, Node.print]

@[simp] theorem nodes_condition (c : Option Cond) : nodes (condition c) = (c.map .cond).toList := by
  cases c <;> rfl

end Lemmas

end Piece

/-! ### The pieces of a node -/

section Pieces

open Piece

def Part.pieces : Part → List Piece
  | .lit l => [.own l.value]
  | .singleQuoted value _ => [.own ("'" ++ value ++ "'")]
  | .quoted quote parts _ =>
    .own quote.spelling :: each (parts.map .part) ++ [.own quote.closing.spelling]
  | .param e =>
    if e.short then [.own "$", .child (.lit e.param)]
    else
      .own ("$\x7b" ++ if e.length then "#" else "") :: .child (.lit e.param)
        :: each (e.index.map .index).toList ++ each (e.replace.map .replace).toList
        ++ each (e.operation.map .expansion).toList ++ [.own "\x7d"]
  | .cmdSubst stmts backquotes _ _ =>
    if backquotes then .own "`" :: lines stmts ++ [.own "`"]
    else .own "$(" :: lines stmts ++ [.own ")"]
  | .arithExp expr _ _ => .own "$((" :: each (expr.map .arith).toList ++ [.own "))"]
  | .array items _ _ => parenthesized (between " " (items.map .word))
  | .cmdInput stmts _ _ => .own "<(" :: lines stmts ++ [.own ")"]

def Arith.pieces : Arith → List Piece
  | .word w => each (w.parts.map .part)
  | .unary op operand postfixed _ =>
    let x := each (operand.map .arith).toList
    if postfixed then
      x ++ [.own ((if endsIn ['+', '-'] (texts x) then " " else "") ++ op.spelling)]
    else
      .own (op.spelling ++ if op ∈ Token.signs && beginsIn ['+', '-'] (texts x) then " " else "")
        :: x
  | .binary op left right _ =>
    each (left.map .arith).toList
      ++ .own (if op = .comma then ", " else " " ++ op.spelling ++ " ")
      :: each (right.map .arith).toList
  | .paren inner _ _ => .own "(" :: each (inner.map .arith).toList ++ [.own ")"]

def Command.pieces : Command → List Piece
  | .simple args => between " " (args.map .word)
  | .subshell stmts _ _ => parenthesized (lines stmts)
  | .block stmts _ _ => .own "\x7b" :: body stmts ++ [.own "\x7d"]
  | .ifClause cond thenStmts elifs elseStmts _ _ =>
    .own "if" :: condition cond ++ .own "then" :: body thenStmts ++ each (elifs.map .elif)
      ++ (if elseStmts.isEmpty then [] else .own "else" :: body elseStmts) ++ [.own "fi"]
  | .whileLoop cond stmts _ _ =>
    .own "while" :: condition cond ++ .own "do" :: body stmts ++ [.own "done"]
  | .untilLoop cond stmts _ _ =>
    .own "until" :: condition cond ++ .own "do" :: body stmts ++ [.own "done"]
  | .forLoop head stmts _ _ =>
    .own "for " :: each (head.map .forHead).toList ++ .own "; do" :: body stmts ++ [.own "done"]
  | .caseClause word items _ _ =>
    .own "case " :: .child (.word word) :: .own " in" :: between ";;" (items.map .caseItem)
      ++ [.own "; esac"]
  | .function name stmt keyword _ =>
    [.own (if keyword then "function " else ""), .child (.lit name), .own "() ",
     .child (.stmt stmt)]
  | .declaration assigns options isLocal _ =>
    blanks false (.own (if isLocal then "local" else "declare") :: each (options.map .word)
      ++ each (assigns.map .assign))

def Cond.pieces : Cond → List Piece
  | .list stmts => body stmts
  | .test expr _ _ => .own " ((" :: each expr.toList ++ [.own ")); "]

def ForHead.pieces : ForHead → List Piece
  | .words name items =>
    .child (.lit name)
      :: if items.isEmpty then [] else .own " in " :: between " " (items.map .word)
  | .count loop =>
    .own "((" :: each (loop.init.map .arith).toList
      ++ .own "; " :: each (loop.cond.map .arith).toList
      ++ .own "; " :: each (loop.step.map .arith).toList ++ [.own "))"]

/-- What the node writes: its own text, and its children where they stand in it. -/
def Node.pieces : Node → List Piece
  | .part p => p.pieces
  | .index i => [.own "[", .child (.word i.word), .own "]"]
  | .replace r =>
    [.own (if r.every then "//" else "/"), .child (.word r.pattern), .own "/",
     .child (.word r.substitute)]
  | .expansion e => [.own e.op.spelling, .child (.word e.word)]
  | .arith a => a.pieces
  | .assign a =>
    (match a.name with
      | none => []
      | some name => [.child (.lit name), .own (if a.append then "+=" else "=")])
      ++ [.child (.word a.value)]
  | .redirect r =>
    each (r.descriptor.map .lit).toList
      ++ [.own (r.op.spelling ++ if beginsIn ['<'] r.word.print then " " else ""),
          .child (.word r.word)]
  | .stmt s =>
    blanks false ((if s.negated then [.own "!"] else []) ++ each (s.assigns.map .assign)
      ++ each (s.command.map .command).toList ++ each (s.redirs.map .redirect)
      ++ (if s.background then [.own "&"] else []))
  | .command c => c.pieces
  | .cond c => c.pieces
  | .elif e => .own "elif" :: condition e.cond ++ .own "then" :: body e.thenStmts
  | .forHead h => h.pieces
  | .caseItem i =>
    .own " " :: between " | " (i.patterns.map .word) ++ .own ") " :: lines i.stmts
  | .file f => lines f.stmts

end Pieces

/-! ### The pieces make up the text -/

namespace Piece

@[simp] theorem texts_parts (l : List Part) :
    texts (each (l.map .part)) = String.join (Part.printAll l) := by
  simp [texts_each, Part.printAll_eq, Function.comp_def, Node.print]

@[simp] theorem texts_elifs (l : List Elif) :
    texts (each (l.map .elif)) = String.join (Elif.printAll l) := by
  simp [texts_each, Elif.printAll_eq, Function.comp_def, Node.print]

@[simp] theorem texts_words (separator : String) (l : List Word) :
    texts (between separator (l.map .word)) = separator.intercalate (Word.printAll l) := by
  simp [texts_between, Word.printAll_eq, Function.comp_def, Node.print, Arith.print]

@[simp] theorem texts_caseItems (separator : String) (l : List CaseItem) :
    texts (between separator (l.map .caseItem))
      = separator.intercalate (CaseItem.printAll l) := by
  simp [texts_between, CaseItem.printAll_eq, Function.comp_def, Node.print]

@[simp] theorem texts_optional (n : Option Node) : texts (each n.toList) = Node.print? n := by
  cases n <;> simp [Node.print?]

@[simp] theorem map_text_words (l : List Word) :
    (each (l.map .word)).map text = Word.printAll l := by
  simp [each, Word.printAll_eq, Function.comp_def, Node.print, Arith.print]

@[simp] theorem map_text_assigns (l : List Assign) :
    (each (l.map .assign)).map text = Assign.printAll l := by
  simp [each, Assign.printAll_eq, Function.comp_def, Node.print]

@[simp] theorem map_text_redirects (l : List Redirect) :
    (each (l.map .redirect)).map text = Redirect.printAll l := by
  simp [each, Redirect.printAll_eq, Function.comp_def, Node.print]

end Piece

namespace Node

@[simp] theorem print?_index (i : Option Index) : print? (i.map .index) = Index.print? i := by
  cases i <;> rfl

@[simp] theorem print?_replace (r : Option Replace) :
    print? (r.map .replace) = Replace.print? r := by
  cases r <;> rfl

@[simp] theorem print?_expansion (e : Option Expansion) :
    print? (e.map .expansion) = Expansion.print? e := by
  cases e <;> rfl

@[simp] theorem print?_arith (a : Option Arith) : print? (a.map .arith) = Arith.print? a := by
  cases a <;> rfl

@[simp] theorem print?_forHead (h : Option ForHead) :
    print? (h.map .forHead) = ForHead.print? h := by
  cases h <;> rfl

end Node

open Piece

theorem Part.texts_pieces (p : Part) : texts p.pieces = p.print := by
  cases p with
  | param e =>
    obtain ⟨param, short, length, index, replace, operation, dollar⟩ := e
    cases short <;> simp [pieces, print, ParamExp.print, Node.print, String.append_assoc]
  | cmdSubst stmts backquotes left right =>
    cases backquotes <;> simp [pieces, print, Stmt.join, Stmt.printAll_eq, String.append_assoc]
  | _ => simp [pieces, print, Stmt.join, Stmt.printAll_eq, String.append_assoc]

theorem Arith.texts_pieces (a : Arith) : texts a.pieces = a.print := by
  cases a with
  | word w =>
    obtain ⟨parts⟩ := w
    simp [pieces, print, Word.print]
  | unary op operand postfixed pos =>
    cases postfixed <;> simp [pieces, print, signed, String.append_assoc]
  | binary op left right pos =>
    simp only [pieces, print, infixed]
    split <;> simp [String.append_assoc]
  | paren inner lparen rparen => simp [pieces, print, String.append_assoc]

theorem Cond.texts_pieces (c : Cond) : texts c.pieces = c.print := by
  cases c <;> simp [pieces, print, Stmt.body, Stmt.printAll_eq, String.append_assoc]

theorem ForHead.texts_pieces (h : ForHead) : texts h.pieces = h.print := by
  cases h with
  | words name items =>
    cases items with
    | nil => simp [pieces, print, Node.print, Part.print]
    | cons w rest =>
      have := texts_words " " (w :: rest)
      simp_all [pieces, print, Node.print, Part.print, String.append_assoc]
  | count loop =>
    obtain ⟨init, cond, step, lparen, rparen⟩ := loop
    simp [pieces, print, CountLoop.print, String.append_assoc]

theorem Command.texts_pieces (c : Command) : texts c.pieces = c.print := by
  cases c with
  | ifClause cond thenStmts elifs elseStmts ifPos fiPos =>
    simp only [pieces, print]
    split <;> simp [Stmt.body, Stmt.printAll_eq, String.append_assoc]
  | _ =>
    simp [pieces, print, Stmt.body, Stmt.join, Stmt.printAll_eq, String.append_assoc, Node.print,
      Part.print, Arith.print]

/-- The pieces of a node are its text. -/
theorem Node.texts_pieces (n : Node) : texts n.pieces = n.print := by
  cases n with
  | part p => exact p.texts_pieces
  | arith a => exact a.texts_pieces
  | command c => exact c.texts_pieces
  | cond c => exact c.texts_pieces
  | forHead h => exact h.texts_pieces
  | index i =>
    obtain ⟨word⟩ := i
    simp [pieces, print, Index.print, Arith.print, String.append_assoc]
  | replace r =>
    obtain ⟨pattern, substitute, every⟩ := r
    simp [pieces, print, Replace.print, Arith.print, String.append_assoc]
  | expansion e =>
    obtain ⟨op, word⟩ := e
    simp [pieces, print, Expansion.print, Arith.print]
  | assign a =>
    obtain ⟨value, name, append⟩ := a
    cases name <;>
      simp [pieces, print, Assign.print, Arith.print, Part.print, String.append_assoc]
  | redirect r =>
    obtain ⟨op, word, descriptor, pos⟩ := r
    cases descriptor <;>
      simp [pieces, print, Redirect.print, Arith.print, Part.print, String.append_assoc]
  | stmt s =>
    obtain ⟨command, negated, assigns, redirs, background, pos⟩ := s
    -- An absent command prints as an empty part, which is skipped.
    cases negated <;> cases background <;> cases command <;>
      simp [pieces, print, Stmt.print, Command.print?, spaced]
  | elif e =>
    obtain ⟨cond, thenStmts, pos⟩ := e
    simp [pieces, print, Elif.print, Stmt.body, Stmt.printAll_eq, String.append_assoc]
  | caseItem i =>
    obtain ⟨patterns, stmts⟩ := i
    simp [pieces, print, CaseItem.print, Stmt.join, Stmt.printAll_eq, String.append_assoc]
  | file f =>
    obtain ⟨stmts, name⟩ := f
    simp [pieces, print, File.print, Stmt.join, Stmt.printAll_eq]

/-! ### The children among the pieces -/

theorem Part.nodes_pieces (p : Part) (h : (Node.part p).ShownWhole) :
    nodes p.pieces = p.children := by
  cases p with
  | param e =>
    obtain ⟨param, short, length, index, replace, operation, dollar⟩ := e
    cases short with
    | true =>
      obtain ⟨rfl, rfl, rfl⟩ := h rfl
      simp [pieces, children]
    | false => simp [pieces, children]
  | cmdSubst stmts backquotes left right => cases backquotes <;> simp [pieces, children]
  | _ => simp [pieces, children]

theorem Arith.nodes_pieces (a : Arith) : nodes a.pieces = a.children := by
  cases a with
  | unary op operand postfixed pos => cases postfixed <;> simp [pieces, children]
  | _ => simp [pieces, children]

theorem Cond.nodes_pieces (c : Cond) : nodes c.pieces = c.children := by
  cases c <;> simp [pieces, children]

theorem ForHead.nodes_pieces (h : ForHead) : nodes h.pieces = h.children := by
  cases h with
  | words name items => cases items <;> simp [pieces, children]
  | count loop => simp [pieces, children]

theorem Command.nodes_pieces (c : Command) : nodes c.pieces = c.children := by
  cases c with
  | ifClause cond thenStmts elifs elseStmts ifPos fiPos =>
    cases elseStmts <;> simp [pieces, children]
  | _ => simp [pieces, children]

namespace Node

/-- The children of a node stand among its pieces, in order. -/
theorem nodes_pieces (n : Node) (h : n.ShownWhole) : nodes n.pieces = n.children := by
  cases n with
  | part p => exact p.nodes_pieces h
  | arith a => exact a.nodes_pieces
  | command c => exact c.nodes_pieces
  | cond c => exact c.nodes_pieces
  | forHead head => exact head.nodes_pieces
  | assign a =>
    obtain ⟨value, name, append⟩ := a
    cases name <;> simp [pieces, children]
  | stmt s =>
    obtain ⟨command, negated, assigns, redirs, background, pos⟩ := s
    cases negated <;> cases background <;> simp [pieces, children]
  | _ => simp [pieces, children]

/-! ### Where a node stands in a text -/

/-- `n.Shows m before after`: `m` stands in the text of `n`, behind `before` and in front of
`after`. -/
inductive Shows : Node → Node → String → String → Prop
  | self (n : Node) : Shows n n "" ""
  | child {n c m : Node} {front back : List Piece} {before after : String}
      (hpieces : n.pieces = front ++ .child c :: back) (hchild : Shows c m before after) :
      Shows n m (texts front ++ before) (after ++ texts back)

theorem Shows.print_eq {n m : Node} {before after : String} (h : n.Shows m before after) :
    n.print = before ++ m.print ++ after := by
  induction h with
  | self n => simp
  | child hpieces _ ih =>
    rw [← texts_pieces, hpieces, texts_append, texts_cons, text_child, ih]
    simp only [String.append_assoc]

theorem exists_pieces_of_mem_children {n c : Node} (h : n.ShownWhole) (hc : c ∈ n.children) :
    ∃ front back, n.pieces = front ++ .child c :: back := by
  rw [← n.nodes_pieces h] at hc
  obtain ⟨p, hp, hn⟩ := List.mem_filterMap.mp hc
  cases p with
  | own s => cases hn
  | child m =>
    cases hn
    exact List.append_of_mem hp

/-- Every node of a tree stands somewhere in its text. -/
theorem exists_shows {n : Node} (h : ∀ m ∈ n.walk, m.ShownWhole) :
    ∀ m ∈ n.walk, ∃ before after, n.Shows m before after := by
  induction n using children_induction with
  | h n ih =>
    obtain ⟨hself, hbelow⟩ := forall_mem_walk_iff.mp h
    rw [forall_mem_walk_iff]
    refine ⟨⟨"", "", .self n⟩, fun c hc m hm => ?_⟩
    obtain ⟨before, after, hshows⟩ := ih c hc (hbelow c hc) m hm
    obtain ⟨front, back, hpieces⟩ := exists_pieces_of_mem_children hself hc
    exact ⟨_, _, .child hpieces hshows⟩

end Node

end ShellSyntax
