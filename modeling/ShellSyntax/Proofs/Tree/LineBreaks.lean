import ShellSyntax.Proofs.Tree.Pieces

/-!
# Line breaks in a text

* `ownBreaks_pieces`: the line breaks of a node's own text are those of its literal text and one for
  each statement with a here-document in its lists;
* `Node.links`: the nodes below the root, in the order of a walk, each beside its parent;
* `lineBreaks_print`: so a text has one line break for each here-document statement of a list.
-/

namespace ShellSyntax

def lineBreaks (s : String) : Nat := s.toList.count '\n'

@[simp] theorem lineBreaks_append (s t : String) :
    lineBreaks (s ++ t) = lineBreaks s + lineBreaks t := by
  simp [lineBreaks]

@[simp] theorem lineBreaks_empty : lineBreaks "" = 0 := rfl

@[simp] theorem lineBreaks_spelling (t : Token) : lineBreaks t.spelling = 0 := by
  cases t <;> rfl

/-- A fixed text has no line break, which is decided. -/
theorem lineBreaks_fixed {s : String} (h : s.toList.all (· ≠ '\n') = true) : lineBreaks s = 0 := by
  rw [lineBreaks, List.count_eq_zero]
  intro hbreak
  simpa using List.all_eq_true.mp h '\n' hbreak

@[simp] theorem lineBreaks_ite (p : Prop) [Decidable p] (s t : String) :
    lineBreaks (if p then s else t) = if p then lineBreaks s else lineBreaks t := by
  split <;> rfl

namespace Node

/-- The line breaks of several nodes. -/
def lineBreaksAll : List Node → Nat
  | [] => 0
  | n :: rest => lineBreaks n.print + lineBreaksAll rest

end Node

namespace Piece

/-- The line breaks that the pieces have themselves, without those of the children. -/
def ownBreaks : List Piece → Nat
  | [] => 0
  | .own s :: rest => lineBreaks s + ownBreaks rest
  | .child _ :: rest => ownBreaks rest

theorem lineBreaks_texts (l : List Piece) :
    lineBreaks (texts l) = ownBreaks l + Node.lineBreaksAll (nodes l) := by
  induction l with
  | nil => rfl
  | cons p rest ih => cases p <;> simp [ownBreaks, Node.lineBreaksAll, ih] <;> omega

section Joins

variable {l m : List Piece} {nodes : List Node}

@[simp] theorem ownBreaks_nil : ownBreaks [] = 0 := rfl

@[simp] theorem ownBreaks_own (s : String) : ownBreaks (.own s :: l) = lineBreaks s + ownBreaks l :=
  rfl

@[simp] theorem ownBreaks_child (n : Node) : ownBreaks (.child n :: l) = ownBreaks l := rfl

@[simp] theorem ownBreaks_append : ownBreaks (l ++ m) = ownBreaks l + ownBreaks m := by
  induction l with
  | nil => simp
  | cons p rest ih => cases p <;> simp [ih, Nat.add_assoc]

@[simp] theorem ownBreaks_ite (p : Prop) [Decidable p] :
    ownBreaks (if p then l else m) = if p then ownBreaks l else ownBreaks m := by
  split <;> rfl

@[simp] theorem ownBreaks_each : ownBreaks (each nodes) = 0 := by
  induction nodes with
  | nil => rfl
  | cons n rest ih => simpa using ih

@[simp] theorem ownBreaks_between {separator : String} (h : lineBreaks separator = 0) :
    ownBreaks (between separator nodes) = 0 := by
  induction nodes with
  | nil => rfl
  | cons n rest ih =>
    cases rest with
    | nil => rfl
    | cons m rest => simpa [between, h] using ih

@[simp] theorem ownBreaks_blanks {behind : Bool} : ownBreaks (blanks behind l) = ownBreaks l := by
  induction l generalizing behind with
  | nil => rfl
  | cons p rest ih => cases p <;> simp (disch := decide) [blanks, ih, lineBreaks_fixed]

/-- Each statement with a here-document is ended by a line break, and no other. -/
@[simp] theorem ownBreaks_lines (stmts : List Stmt) :
    ownBreaks (lines stmts) = stmts.countP Stmt.hasHeredoc := by
  induction stmts with
  | nil => rfl
  | cons s rest ih =>
    have hterminator : lineBreaks (s.terminator rest.isEmpty) = if s.hasHeredoc then 1 else 0 := by
      cases h : s.hasHeredoc <;> cases rest <;> simp [Stmt.terminator, h] <;> rfl
    rw [lines, ownBreaks_child, ownBreaks_own, hterminator, ih, List.countP_cons, Nat.add_comm]

@[simp] theorem ownBreaks_body (stmts : List Stmt) :
    ownBreaks (body stmts) = stmts.countP Stmt.hasHeredoc := by
  cases stmts with
  | nil => rfl
  | cons s rest => simp (disch := decide) [body, -List.cons_append, lineBreaks_fixed]

@[simp] theorem ownBreaks_parenthesized : ownBreaks (parenthesized l) = ownBreaks l := by
  cases l with
  | nil => rfl
  | cons p l =>
    have h : parenthesized (p :: l) = [.own "("] ++ (p :: l) ++ [.own ")"] := rfl
    rw [h, ownBreaks_append, ownBreaks_append]
    simp (disch := decide) [lineBreaks_fixed]

@[simp] theorem ownBreaks_condition (c : Option Cond) : ownBreaks (condition c) = 0 := by
  cases c <;> rfl

end Joins

end Piece

/-! ### One node -/

namespace Node

def hasHeredoc : Node → Bool
  | .stmt s => s.hasHeredoc
  | _ => false

def isFunction : Node → Bool
  | .command (.function ..) => true
  | _ => false

def isTest : Node → Bool
  | .cond (.test ..) => true
  | _ => false

/-- A node and one of its children, which is a statement with a here-document and stands in a
statement list of the node. -/
def endsLine : Node × Node → Bool
  | (parent, c) => c.hasHeredoc && !parent.isFunction && !parent.isTest

theorem countP_endsLine (n : Node) (l : List Node) : (l.countP fun c => endsLine (n, c))
    = if n.isFunction || n.isTest then 0 else l.countP hasHeredoc := by
  cases hf : n.isFunction <;> cases ht : n.isTest <;> simp [endsLine, hf, ht]

end Node

section OneNode

open Piece Node

theorem Part.ownBreaks_pieces (p : Part) :
    ownBreaks p.pieces = lineBreaks (Node.part p).leafText + p.children.countP hasHeredoc := by
  cases p <;>
    simp (disch := decide) [pieces, leafText, children, lineBreaks_fixed, hasHeredoc,
      List.countP_map, Function.comp_def, List.countP_cons, Option.toList_map]

theorem Arith.ownBreaks_pieces (a : Arith) :
    ownBreaks a.pieces = a.children.countP hasHeredoc := by
  cases a <;>
    simp (disch := decide) [pieces, children, lineBreaks_fixed, hasHeredoc, Function.comp_def,
      Option.toList_map]

theorem Command.ownBreaks_pieces (c : Command) (h : (Node.command c).isFunction = false) :
    ownBreaks c.pieces = c.children.countP hasHeredoc := by
  cases c with
  | function => cases h
  | ifClause cond thenStmts elifs elseStmts ifPos fiPos =>
    have helse : ownBreaks (if elseStmts.isEmpty then [] else .own "else" :: body elseStmts)
        = elseStmts.countP Stmt.hasHeredoc := by
      cases elseStmts <;> simp (disch := decide) [lineBreaks_fixed]
    simp only [pieces, ownBreaks_append, helse]
    simp (disch := decide) [children, lineBreaks_fixed, hasHeredoc, List.countP_map,
      Function.comp_def, Option.toList_map]
  | _ =>
    simp (disch := decide) [pieces, children, lineBreaks_fixed, hasHeredoc, List.countP_map,
      Function.comp_def, List.countP_cons, Option.toList_map]

theorem ForHead.ownBreaks_pieces (h : ForHead) :
    ownBreaks h.pieces = h.children.countP hasHeredoc := by
  cases h <;>
    simp (disch := decide) [pieces, children, lineBreaks_fixed, hasHeredoc, Function.comp_def,
      List.countP_cons, Option.toList_map]

/-- The text that a node has itself breaks lines where its literal text does, and behind each
statement with a here-document in one of its lists. -/
theorem Node.ownBreaks_pieces (n : Node) :
    ownBreaks n.pieces = lineBreaks n.leafText + n.children.countP fun c => endsLine (n, c) := by
  rw [countP_endsLine]
  cases n with
  | part p => exact p.ownBreaks_pieces
  | arith a => simp [pieces, children, a.ownBreaks_pieces, isFunction, isTest, leafText]
  | forHead h => simp [pieces, children, h.ownBreaks_pieces, isFunction, isTest, leafText]
  | command c =>
    cases c with
    | function =>
      simp (disch := decide) [pieces, Command.pieces, leafText, lineBreaks_fixed, isFunction]
    | _ =>
      simpa [pieces, children, leafText, isFunction, isTest] using Command.ownBreaks_pieces _ rfl
  | cond c =>
    cases c <;>
      simp (disch := decide) [pieces, Cond.pieces, leafText, children, Cond.children,
        lineBreaks_fixed, hasHeredoc, isFunction, isTest, List.countP_map, Function.comp_def]
  | assign a =>
    obtain ⟨value, name, append⟩ := a
    cases name <;>
      simp (disch := decide) [pieces, leafText, children, lineBreaks_fixed, hasHeredoc, isFunction,
        isTest, List.countP_cons]
  | _ =>
    simp (disch := decide) [pieces, leafText, children, lineBreaks_fixed, hasHeredoc, isFunction,
      isTest, List.countP_map, Function.comp_def, List.countP_cons, Option.toList_map]

end OneNode

/-! ### A tree -/

namespace Node

/-- The nodes below the node in the order of a walk, each with its parent in front. -/
def links (n : Node) : List (Node × Node) :=
  n.children.attach.flatMap fun c => (n, c.1) :: links c.1
termination_by n.size
decreasing_by exact size_lt_of_mem_children c.2

theorem links_eq (n : Node) : n.links = n.children.flatMap fun c => (n, c) :: c.links := by
  rw [links]
  simp

/-- A walk visits the node, and then each node that has a parent in the tree. -/
theorem walk_eq_links (n : Node) : n.walk = n :: n.links.map Prod.snd := by
  induction n using children_induction with
  | h n ih =>
    rw [walk_eq, links_eq, List.map_flatMap, List.flatMap_def, List.map_congr_left ih,
      ← List.flatMap_def]
    rfl

theorem countP_links (p : Node × Node → Bool) (n : Node) : n.links.countP p
    = n.children.countP (fun c => p (n, c)) + (n.children.flatMap links).countP p := by
  rw [links_eq]
  induction n.children with
  | nil => rfl
  | cons c rest ih =>
    simp only [List.flatMap_cons, List.cons_append, List.countP_cons, List.countP_append, ih]
    omega

theorem lineBreaksAll_eq {p : Node × Node → Bool} {l : List Node}
    (h : ∀ c ∈ l, lineBreaks c.print
      = lineBreaks (String.join (c.walk.map leafText)) + c.links.countP p) :
    lineBreaksAll l
      = lineBreaks (String.join ((l.flatMap walk).map leafText)) + (l.flatMap links).countP p := by
  induction l with
  | nil => rfl
  | cons c rest ih =>
    have hrest := ih fun d hd => h d (List.mem_cons_of_mem _ hd)
    simp only [lineBreaksAll, h c List.mem_cons_self, hrest, List.flatMap_cons, List.map_append,
      String.join_append, lineBreaks_append, List.countP_append]
    omega

/-- A line break comes from a leaf or from a here-document of a listed statement. -/
theorem lineBreaks_print_of_shownWhole {n : Node} (h : ∀ m ∈ n.walk, m.ShownWhole) :
    lineBreaks n.print = lineBreaks (String.join (n.walk.map leafText))
      + n.links.countP endsLine := by
  induction n using children_induction with
  | h n ih =>
    obtain ⟨hself, hbelow⟩ := forall_mem_walk_iff.mp h
    have hchildren := lineBreaksAll_eq (l := n.children) fun c hc => ih c hc (hbelow c hc)
    rw [← texts_pieces, Piece.lineBreaks_texts, n.ownBreaks_pieces, n.nodes_pieces hself, hchildren,
      walk_eq, countP_links]
    simp only [List.map_cons, String.join_cons, lineBreaks_append]
    omega

end Node

/-- Line breaks come from here-documents only, one each. When no leaf holds a line break, the text
of an accepted tree has as many as there are statements with a here-document below the root, those
left out that are the body of a function or the operand of an arithmetic test. -/
theorem lineBreaks_print (n : Node) (r : Reporter) (accepted : (n.check r).ok = true)
    (plain : ∀ m ∈ n.walk, '\n' ∉ m.leafText.toList) :
    n.walk = n :: n.links.map Prod.snd ∧
    lineBreaks n.print = n.links.countP fun (parent, c) =>
      c.hasHeredoc && !parent.isFunction && !parent.isTest := by
  refine ⟨n.walk_eq_links, ?_⟩
  have whole : ∀ m ∈ n.walk, m.ShownWhole := fun m hm =>
    Node.shownWhole_of_violations (Node.check_ok_iff.mp accepted m hm)
  have hleaves : lineBreaks (String.join (n.walk.map Node.leafText)) = 0 := by
    rw [lineBreaks, List.count_eq_zero, String.toList_join]
    simpa using plain
  rw [Node.lineBreaks_print_of_shownWhole whole, hleaves, Nat.zero_add]
  rfl

/-- The body of the function adds no line break, the statement in the substitution adds one. -/
theorem lineBreaks_print_substitution : ∃ n : Node,
    n.print = "f() cat <<E; X=$(cat <<E\n)" ∧ (n.check {}).ok = true ∧
      (∀ m ∈ n.walk, '\n' ∉ m.leafText.toList) ∧ lineBreaks n.print = 1 ∧
      lineBreaks n.print = n.links.countP fun (parent, c) =>
        c.hasHeredoc && !parent.isFunction && !parent.isTest := by
  let s : Stmt :=
    { command := some (.simple [.ofLit "cat"])
      redirs := [{ op := .lessLess, word := .ofLit "E" }] }
  let value : Word := ⟨[.cmdSubst [s] false {} {}]⟩
  let n : Node := .file
    { stmts :=
        [{ command := some (.function ⟨"f", {}⟩ s false {}) },
         { assigns := [⟨value, some ⟨"X", {}⟩, false⟩] }] }
  have accepted : (n.check {}).ok = true := by
    decide +kernel
  have plain : ∀ m ∈ n.walk, '\n' ∉ m.leafText.toList := by
    decide +kernel
  exact ⟨n, by decide, accepted, plain, by decide, (lineBreaks_print n {} accepted plain).2⟩

/-- An arithmetic test may hold any node, and it does not end the line of a statement there. -/
theorem heredoc_of_test_unbroken : ∃ f : File,
    ((Node.file f).check {}).ok = true ∧
      (∀ m ∈ (Node.file f).walk, '\n' ∉ m.leafText.toList) ∧
      f.print = "while ((cat <<E)); do; done" ∧ lineBreaks f.print = 0 ∧
      ((Node.file f).links.countP fun (parent, c) => c.hasHeredoc && !parent.isFunction) = 1 := by
  let s : Stmt :=
    { command := some (.simple [.ofLit "cat"])
      redirs := [{ op := .lessLess, word := .ofLit "E" }] }
  let loop : Command := .whileLoop (some (.test (some (.stmt s)) {} {})) [] {} {}
  exact ⟨{ stmts := [{ command := some loop }] }, by decide +kernel, by decide +kernel, by decide,
    by decide, by decide +kernel⟩

end ShellSyntax
