import ShellSyntax.Proofs.Tree.Pieces

/-!
# Statement lists in a text

* `Node.stmtLists`: the statement lists of a node, and `Node.slots`: where they stand among its
  pieces (`pieces_of_mem_slots`);
* `Node.Lists`: a statement list of a tree stands in its text behind and in front of given texts
  (`Lists.print_eq`), as every list of a tree does (`exists_lists`).
-/

namespace ShellSyntax

open Piece

/-! ### One list -/

/-- The statements in front of another one. -/
def Stmt.lead (stmts : List Stmt) : String :=
  String.join (stmts.map fun s => s.print ++ s.terminator false)

/-- What stands in front of a statement is written alike whatever the statement is. -/
theorem Stmt.join_lead (closed : Bool) (front back : List Stmt) (s : Stmt) :
    join closed (front ++ s :: back) = lead front ++ join closed (s :: back) := by
  induction front with
  | nil => simp [lead]
  | cons t front ih =>
    obtain ⟨u, more, hmore⟩ := List.exists_cons_of_ne_nil (show front ++ s :: back ≠ [] by simp)
    rw [hmore] at ih
    rw [List.cons_append, hmore, join, List.map_cons, List.map_cons, Line.join, ← List.map_cons,
      ← join, ih, Stmt.separator_line]
    simp [lead, line, String.append_assoc]

theorem Stmt.join_append_cons (front back : List Stmt) (s : Stmt) :
    Stmt.join true (front ++ s :: back)
      = lead front ++ s.print ++ s.terminator back.isEmpty ++ Stmt.join true back := by
  rw [join_lead, ← texts_lines, ← texts_lines, lines, texts_cons, texts_cons]
  simp [Node.print, String.append_assoc]

/-! ### The lists of a node -/

/-- A statement list of a node, between the pieces of the node around it. -/
structure Slot where
  front : List Piece
  stmts : List Stmt
  back : List Piece

namespace Slot

def pieces (slot : Slot) : List Piece := slot.front ++ lines slot.stmts ++ slot.back

/-- A list that keywords or braces enclose. -/
def body (front : List Piece) (stmts : List Stmt) (back : List Piece) : Slot :=
  if stmts.isEmpty then ⟨front, [], .own "; " :: back⟩
  else
    ⟨front ++ [.own " "], stmts,
      .own (if endsIn ['\n'] (Stmt.join true stmts) then "" else "; ") :: back⟩

/-- A list that parentheses enclose. -/
def parenthesized (stmts : List Stmt) : Slot :=
  if stmts.isEmpty then ⟨[], [], [.own "( )"]⟩ else ⟨[.own "("], stmts, [.own ")"]⟩

section Lemmas

variable {front back : List Piece} {stmts : List Stmt}

@[simp] theorem pieces_body :
    (body front stmts back).pieces = front ++ Piece.body stmts ++ back := by
  cases stmts <;> simp [body, pieces, Piece.body, lines]

@[simp] theorem stmts_body : (body front stmts back).stmts = stmts := by
  cases stmts <;> rfl

@[simp] theorem pieces_parenthesized :
    (parenthesized stmts).pieces = Piece.parenthesized (lines stmts) := by
  cases stmts <;> rfl

@[simp] theorem stmts_parenthesized : (parenthesized stmts).stmts = stmts := by
  cases stmts <;> rfl

end Lemmas

end Slot

namespace Node

/-- The statement lists of the node itself. The body of a function is a statement and no list. -/
def stmtLists : Node → List (List Stmt)
  | .part (.cmdSubst stmts _ _ _) => [stmts]
  | .part (.cmdInput stmts _ _) => [stmts]
  | .command (.subshell stmts _ _) => [stmts]
  | .command (.block stmts _ _) => [stmts]
  | .command (.ifClause _ thenStmts _ elseStmts _ _) => [thenStmts, elseStmts]
  | .command (.whileLoop _ body _ _) => [body]
  | .command (.untilLoop _ body _ _) => [body]
  | .command (.forLoop _ body _ _) => [body]
  | .cond (.list stmts) => [stmts]
  | .elif e => [e.thenStmts]
  | .caseItem i => [i.stmts]
  | .file f => [f.stmts]
  | _ => []

/-- Where these lists stand among the pieces of the node. -/
def slots : Node → List Slot
  | .part (.cmdSubst stmts backquotes _ _) =>
    if backquotes then [⟨[.own "`"], stmts, [.own "`"]⟩] else [⟨[.own "$("], stmts, [.own ")"]⟩]
  | .part (.cmdInput stmts _ _) => [⟨[.own "<("], stmts, [.own ")"]⟩]
  | .command (.subshell stmts _ _) => [.parenthesized stmts]
  | .command (.block stmts _ _) => [.body [.own "\x7b"] stmts [.own "\x7d"]]
  | .command (.ifClause test thenStmts elifs elseStmts _ _) =>
    let front := .own "if" :: condition test ++ [.own "then"]
    let elifs := each (elifs.map .elif)
    [.body front thenStmts
        (elifs ++ (if elseStmts.isEmpty then [] else .own "else" :: body elseStmts) ++ [.own "fi"]),
      if elseStmts.isEmpty then ⟨front ++ body thenStmts ++ elifs, [], [.own "fi"]⟩
      else .body (front ++ body thenStmts ++ elifs ++ [.own "else"]) elseStmts [.own "fi"]]
  | .command (.whileLoop test body _ _) =>
    [.body (.own "while" :: condition test ++ [.own "do"]) body [.own "done"]]
  | .command (.untilLoop test body _ _) =>
    [.body (.own "until" :: condition test ++ [.own "do"]) body [.own "done"]]
  | .command (.forLoop head body _ _) =>
    [.body (.own "for " :: each (head.map .forHead).toList ++ [.own "; do"]) body [.own "done"]]
  | .cond (.list stmts) => [.body [] stmts []]
  | .elif e => [.body (.own "elif" :: condition e.cond ++ [.own "then"]) e.thenStmts []]
  | .caseItem i =>
    [⟨.own " " :: between " | " (i.patterns.map .word) ++ [.own ") "], i.stmts, []⟩]
  | .file f => [⟨[], f.stmts, []⟩]
  | _ => []

theorem stmtLists_eq (n : Node) : n.stmtLists = n.slots.map Slot.stmts := by
  cases n with
  | part p =>
    cases p with
    | cmdSubst stmts backquotes left right => cases backquotes <;> rfl
    | _ => rfl
  | command c =>
    cases c with
    | ifClause cond thenStmts elifs elseStmts ifPos fiPos =>
      cases elseStmts <;> simp [stmtLists, slots]
    | _ => simp [stmtLists, slots]
  | cond c => cases c <;> simp [stmtLists, slots]
  | _ => simp [stmtLists, slots]

theorem pieces_of_mem_slots {n : Node} {slot : Slot} (h : slot ∈ n.slots) :
    n.pieces = slot.pieces := by
  cases n with
  | part p =>
    cases p with
    | cmdSubst stmts backquotes left right =>
      cases backquotes <;> obtain rfl := List.mem_singleton.mp h <;> rfl
    | cmdInput => obtain rfl := List.mem_singleton.mp h; rfl
    | _ => cases h
  | command c =>
    cases c with
    | ifClause cond thenStmts elifs elseStmts ifPos fiPos =>
      rcases List.mem_cons.mp h with rfl | h
      · simp [pieces, Command.pieces]
      · obtain rfl := List.mem_singleton.mp h
        cases elseStmts with
        | nil => simp [pieces, Command.pieces, Slot.pieces, lines]
        | cons => simp [pieces, Command.pieces]
    | subshell | block | whileLoop | untilLoop | forLoop =>
      obtain rfl := List.mem_singleton.mp h
      simp [pieces, Command.pieces]
    | _ => cases h
  | cond c =>
    cases c with
    | list stmts =>
      obtain rfl := List.mem_singleton.mp h
      simp [pieces, Cond.pieces]
    | test => cases h
  | elif e =>
    obtain rfl := List.mem_singleton.mp h
    simp [pieces]
  | caseItem | file =>
    obtain rfl := List.mem_singleton.mp h
    simp [pieces, Slot.pieces]
  | _ => cases h

/-! ### The lists of a tree -/

/-- `n.Lists stmts before after`: a node of the tree has the list, which stands in the text of `n`
behind `before` and in front of `after`. -/
inductive Lists : Node → List Stmt → String → String → Prop
  | intro {n m : Node} {slot : Slot} {before after : String}
      (shows : n.Shows m before after) (own : slot ∈ m.slots) :
      Lists n slot.stmts (before ++ texts slot.front) (texts slot.back ++ after)

theorem Lists.print_eq {n : Node} {stmts : List Stmt} {before after : String}
    (h : n.Lists stmts before after) : n.print = before ++ Stmt.join true stmts ++ after := by
  obtain ⟨hshows, hslot⟩ := h
  rw [hshows.print_eq, ← texts_pieces, pieces_of_mem_slots hslot]
  simp [Slot.pieces, String.append_assoc]

theorem exists_lists {n m : Node} {stmts : List Stmt} (h : ∀ m ∈ n.walk, m.ShownWhole)
    (hm : m ∈ n.walk) (hs : stmts ∈ m.stmtLists) : ∃ before after, n.Lists stmts before after := by
  obtain ⟨before, after, hshows⟩ := exists_shows h m hm
  rw [stmtLists_eq] at hs
  obtain ⟨slot, hslot, rfl⟩ := List.mem_map.mp hs
  exact ⟨_, _, .intro hshows hslot⟩

end Node

end ShellSyntax
