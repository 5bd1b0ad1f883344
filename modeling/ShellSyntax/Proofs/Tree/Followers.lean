import ShellSyntax.Proofs.Tree.Edges

/-!
# What follows a statement list

* `Node.followers`: a child that may end with a statement list is followed by a keyword, separator
  or parenthesis of its parent (`followed_pieces`);
* `slot_cases`: the text of a node behind a list of its own;
* `Node.ListsBody`, `Node.ListsEntry`: the lists that keywords or braces enclose, and those of the
  entries of a case clause; only behind these may a semicolon stand (`Lists.follows`).
-/

namespace ShellSyntax

open Piece

/-! ### Behind a child -/

namespace Node

/-- The text of the node may end with that of a statement list. -/
def endsOpen : Node → Bool
  | .cond _ | .elif _ | .caseItem _ | .file _ => true
  | _ => false

/-- What may stand first behind a child that ends with a statement list. -/
def followers (parent : Node) : Node → List Char
  | .cond _ => ['t', 'd', ')']
  | .elif _ => ['e', 'f', ')']
  | .file _ => [')']
  | .caseItem _ =>
    match parent with
    | .command _ => [';']
    | _ => [')']
  | _ => []

end Node

namespace Piece

/-- Each child that may end with a statement list is followed as its parent prescribes. -/
def Followed (parent : Node) : List Piece → Prop
  | [] => True
  | .own _ :: rest => Followed parent rest
  | .child c :: rest =>
    (c.endsOpen = true → beginsIn (parent.followers c) (texts rest) = true) ∧ Followed parent rest

section Lemmas

variable {parent : Node} {l m : List Piece} {chars : List Char} {s : String}

@[simp] theorem followed_nil : Followed parent [] := trivial

@[simp] theorem followed_own : Followed parent (.own s :: l) ↔ Followed parent l := Iff.rfl

theorem followed_end : Followed parent [.own s] := trivial

@[simp] theorem followed_child {c : Node} : Followed parent (.child c :: l) ↔
    (c.endsOpen = true → beginsIn (parent.followers c) (texts l) = true) ∧ Followed parent l :=
  Iff.rfl

/-- Children that do not end with a list may stand anywhere. -/
theorem followed_append (h : ∀ c ∈ nodes l, c.endsOpen = false) :
    Followed parent (l ++ m) ↔ Followed parent m := by
  induction l with
  | nil => rfl
  | cons p rest ih =>
    cases p with
    | own s => exact ih h
    | child c =>
      have hc : c.endsOpen = false := h c List.mem_cons_self
      have hrest := ih fun d hd => h d (List.mem_cons_of_mem _ hd)
      simp [hc, hrest]

theorem followed_of_nodes (h : ∀ c ∈ nodes l, c.endsOpen = false) : Followed parent l := by
  rw [← List.append_nil l, followed_append h]
  trivial

theorem Followed.behind {c : Node} (h : Followed parent (l ++ .child c :: m))
    (hc : c.endsOpen = true) : beginsIn (parent.followers c) (texts m) = true := by
  induction l with
  | nil => exact h.1 hc
  | cons p l ih =>
    cases p with
    | own s => exact ih h
    | child d => exact ih h.2

theorem begins_own (h : beginsIn chars s = true) : beginsIn chars (texts (.own s :: l)) = true := by
  rw [texts_cons]
  exact begins_append h _

end Lemmas

end Piece

namespace Node

variable {chars : List Char} {rest : List Piece}

theorem begins_elifs (h : beginsIn ['e', 'f', ')'] (texts rest) = true) (l : List Elif) :
    beginsIn ['e', 'f', ')'] (texts (each (l.map .elif) ++ rest)) = true := by
  cases l with
  | nil => exact h
  | cons e l =>
    obtain ⟨test, thenStmts, pos⟩ := e
    have helif : beginsIn ['e', 'f', ')'] (Node.elif ⟨test, thenStmts, pos⟩).print = true := by
      simp only [print, Elif.print, String.append_assoc]
      exact begins_append (by decide) _
    rw [List.map_cons, each_cons, List.cons_append, texts_cons]
    exact begins_append helif _

theorem followed_elifs {parent : Node} (hrest : Followed parent rest)
    (h : beginsIn ['e', 'f', ')'] (texts rest) = true) (l : List Elif) :
    Followed parent (each (l.map .elif) ++ rest) := by
  induction l with
  | nil => exact hrest
  | cons e l ih => exact ⟨fun _ => begins_elifs h l, ih⟩

theorem followed_caseItems {k : Command} (hrest : Followed (.command k) rest)
    (h : beginsIn [';'] (texts rest) = true) (l : List CaseItem) :
    Followed (.command k) (between ";;" (l.map .caseItem) ++ rest) := by
  induction l with
  | nil => exact hrest
  | cons i l ih =>
    cases l with
    | nil => exact ⟨fun _ => h, hrest⟩
    | cons j l =>
      have hseparator : beginsIn [';'] ";;" = true := by
        decide
      exact ⟨fun _ => begins_own hseparator, ih⟩

theorem followed_condition {parent : Node} (hrest : Followed parent rest)
    (h : beginsIn ['t', 'd', ')'] (texts rest) = true) (test : Option Cond) :
    Followed parent (condition test ++ rest) := by
  cases test with
  | none => exact hrest
  | some test => exact ⟨fun _ => h, hrest⟩

theorem followed_of_children {n : Node} (h : ∀ c ∈ n.children, c.endsOpen = false) :
    Followed n n.pieces :=
  followed_of_nodes fun c hc => h c (n.nodes_subset_children hc)

/-- A list that ends a node is followed by a keyword or separator of the parent. -/
theorem followed_pieces (n : Node) : Followed n n.pieces := by
  have hstmts : ∀ {stmts : List Stmt}, ∀ c ∈ nodes (body stmts), c.endsOpen = false := by
    simp [endsOpen]
  cases n with
  | part p =>
    apply followed_of_children
    cases p <;> simp [children, Part.children, endsOpen, or_imp, forall_and]
  | arith a =>
    apply followed_of_children
    cases a <;> simp [children, Arith.children, endsOpen, or_imp, forall_and]
  | forHead h =>
    apply followed_of_children
    cases h <;> simp [children, ForHead.children, endsOpen, or_imp, forall_and]
  | command c =>
    cases c with
    | ifClause test thenStmts elifs elseStmts ifPos fiPos =>
      simp only [pieces, Command.pieces, List.append_assoc, List.cons_append, followed_own]
      refine followed_condition ?_ (begins_own (by decide)) test
      rw [followed_own, followed_append hstmts]
      cases elseStmts with
      | nil => exact followed_elifs followed_end (by decide) elifs
      | cons s rest =>
        refine followed_elifs ?_ (begins_own (by decide)) elifs
        rw [followed_own, List.append_eq, followed_append hstmts]
        exact followed_end
    | whileLoop test body first last | untilLoop test body first last =>
      simp only [pieces, Command.pieces, List.append_assoc, List.cons_append, followed_own]
      refine followed_condition ?_ (begins_own (by decide)) test
      rw [followed_own, followed_append hstmts]
      exact followed_end
    | caseClause word items casePos esacPos =>
      simp only [pieces, Command.pieces, List.cons_append, followed_own]
      refine ⟨fun h => absurd h Bool.false_ne_true, ?_⟩
      exact followed_caseItems followed_end (by decide) items
    | _ =>
      apply followed_of_children
      simp [children, Command.children, endsOpen, or_imp, forall_and]
  | cond c =>
    cases c with
    | list stmts =>
      apply followed_of_children
      simp [children, Cond.children, endsOpen]
    | test expr lparen rparen =>
      cases expr with
      | none => trivial
      | some m =>
        refine ⟨fun hopen => begins_own ?_, trivial⟩
        cases m <;> first | rfl | cases hopen
  | elif e =>
    simp only [pieces, List.cons_append, followed_own]
    refine followed_condition ?_ (begins_own (by decide)) e.cond
    rw [followed_own]
    exact followed_of_nodes hstmts
  | _ =>
    apply followed_of_children
    simp [children, endsOpen, or_imp, forall_and]

end Node

/-! ### Behind a list -/

/-- What closes a list where no separator does: a parenthesis, quote or brace, or the first letter of
a keyword. -/
def closers : List Char := ['`', ')', '\x7d', 'd', 'e', 'f', 't']

/-- The text is empty or begins like that. -/
def ClosesList (s : String) : Prop := s = "" ∨ beginsIn closers s = true

section Lemmas

variable {front back : List Piece} {stmts : List Stmt} {chars : List Char} {c : Char} {s : String}

theorem closesList_of_begins (h : beginsIn chars s = true) (hchars : chars ⊆ closers) :
    ClosesList s :=
  .inr (begins_of_subset h hchars)

theorem ClosesList.not_begins (h : ClosesList s) (hc : c ∉ closers) : beginsIn [c] s = false := by
  rcases h with rfl | h
  · rfl
  · obtain ⟨d, hd, hhead⟩ := beginsIn_iff.mp h
    rw [beginsIn, hhead, Option.any_some, decide_eq_false_iff_not, List.mem_singleton]
    rintro rfl
    exact hc hd

theorem Slot.back_body (h : (Slot.body front stmts back).stmts ≠ []) :
    (Slot.body front stmts back).back
      = .own (if endsIn ['\n'] (Stmt.join true (Slot.body front stmts back).stmts) then ""
          else "; ") :: back := by
  cases stmts with
  | nil => exact absurd rfl h
  | cons s rest => rfl

end Lemmas

namespace Node

/-- The lists of the node stand between keywords or braces. -/
def hasBody : Node → Bool
  | .command (.block ..) | .command (.ifClause ..) | .command (.whileLoop ..)
  | .command (.untilLoop ..) | .command (.forLoop ..) | .cond (.list _) | .elif _ => true
  | _ => false

section Slots

variable {n : Node} {slot : Slot}

/-- Such a list ends with a semicolon, unless a line break ends it. -/
theorem back_of_hasBody (hbody : n.hasBody = true) (h : slot ∈ n.slots) (hne : slot.stmts ≠ []) :
    ∃ back, slot.back
        = .own (if endsIn ['\n'] (Stmt.join true slot.stmts) then "" else "; ") :: back ∧
      (beginsIn closers (texts back) = true ∨ back = [] ∧ n.endsOpen = true) := by
  cases n with
  | command k =>
    cases k with
    | ifClause test thenStmts elifs elseStmts ifPos fiPos =>
      rcases List.mem_cons.mp h with rfl | h
      · refine ⟨_, Slot.back_body hne, .inl ?_⟩
        rw [List.append_assoc]
        apply begins_of_subset (begins_elifs ?_ elifs) (by decide)
        cases elseStmts <;> exact begins_own (by decide)
      · obtain rfl := List.mem_singleton.mp h
        cases elseStmts with
        | nil => exact absurd rfl hne
        | cons s rest => exact ⟨[.own "fi"], rfl, .inl (by decide)⟩
    | block | whileLoop | untilLoop | forLoop =>
      obtain rfl := List.mem_singleton.mp h
      exact ⟨_, Slot.back_body hne, .inl (begins_own (by decide))⟩
    | _ => cases hbody
  | cond c =>
    cases c with
    | list stmts =>
      obtain rfl := List.mem_singleton.mp h
      exact ⟨_, Slot.back_body hne, .inr ⟨rfl, rfl⟩⟩
    | test => cases hbody
  | elif e =>
    obtain rfl := List.mem_singleton.mp h
    exact ⟨_, Slot.back_body hne, .inr ⟨rfl, rfl⟩⟩
  | _ => cases hbody

/-- Other lists have the closing mark of their node behind them, or end it. -/
theorem back_of_not_hasBody (hbody : n.hasBody = false) (h : slot ∈ n.slots)
    (hne : slot.stmts ≠ []) :
    beginsIn closers (texts slot.back) = true ∨ slot.back = [] ∧ n.endsOpen = true := by
  cases n with
  | part p =>
    left
    cases p with
    | cmdSubst stmts backquotes left right =>
      cases backquotes <;> obtain rfl := List.mem_singleton.mp h <;> exact begins_own (by decide)
    | cmdInput =>
      obtain rfl := List.mem_singleton.mp h
      exact begins_own (by decide)
    | _ => cases h
  | command k =>
    cases k with
    | subshell stmts lparen rparen =>
      obtain rfl := List.mem_singleton.mp h
      cases stmts with
      | nil => exact absurd rfl hne
      | cons s rest => exact .inl (begins_own (by decide))
    | block | ifClause | whileLoop | untilLoop | forLoop => cases hbody
    | _ => cases h
  | cond c =>
    cases c with
    | list => cases hbody
    | test => cases h
  | elif => cases hbody
  | caseItem | file =>
    obtain rfl := List.mem_singleton.mp h
    exact .inr ⟨rfl, rfl⟩
  | _ => cases h

end Slots

variable {n m : Node} {stmts : List Stmt} {before after : String}

theorem begins_behind {p : Node} {front back : List Piece}
    (hpieces : p.pieces = front ++ .child m :: back) (hopen : m.endsOpen = true) :
    beginsIn (p.followers m) (texts back) = true :=
  (hpieces ▸ p.followed_pieces).behind hopen

/-- Only an entry of a case clause has a semicolon behind it. -/
theorem followers_cases (parent m : Node) : parent.followers m ⊆ closers ∨
    ∃ k i, parent = .command k ∧ m = .caseItem i := by
  cases m with
  | caseItem i =>
    cases parent with
    | command k => exact .inr ⟨k, i, rfl, rfl⟩
    | _ => exact .inl (List.cons_subset.mpr ⟨by decide, List.nil_subset _⟩)
  | cond | elif | file =>
    left
    simp [followers, closers]
  | _ => exact .inl (List.nil_subset _)

theorem Shows.closes_or_entry (h : n.Shows m before after) (hopen : m.endsOpen = true) :
    ClosesList after ∨ ∃ k i front back outer outer', m = .caseItem i ∧
      n.Shows (.command k) outer outer' ∧ k.pieces = front ++ .child (.caseItem i) :: back ∧
      before = outer ++ texts front ∧ after = texts back ++ outer' := by
  rcases h.parent with ⟨-, -, rfl⟩ | ⟨p, front, back, outer, outer', hshows, hpieces, rfl, rfl⟩
  · exact .inl (.inl rfl)
  · rcases p.followers_cases m with hsub | ⟨k, i, rfl, rfl⟩
    · exact .inl (closesList_of_begins (begins_append (begins_behind hpieces hopen) _) hsub)
    · exact .inr ⟨k, i, front, back, outer, outer', rfl, hshows, hpieces, rfl, rfl⟩

/-- `n.ListsBody stmts before after`: the list stands there between keywords or braces. -/
inductive ListsBody (n : Node) : List Stmt → String → String → Prop
  | intro {m : Node} {slot : Slot} {before after : String} (shows : n.Shows m before after)
      (own : slot ∈ m.slots) (hbody : m.hasBody = true) :
      ListsBody n slot.stmts (before ++ texts slot.front) (texts slot.back ++ after)

/-- `n.ListsEntry stmts before after`: the list stands there in an entry of a case clause. -/
inductive ListsEntry (n : Node) : List Stmt → String → String → Prop
  | intro {k : Command} {i : CaseItem} {slot : Slot} {front back : List Piece}
      {before after : String} (shows : n.Shows (.command k) before after)
      (hpieces : k.pieces = front ++ .child (.caseItem i) :: back)
      (own : slot ∈ (Node.caseItem i).slots) :
      ListsEntry n slot.stmts (before ++ texts front ++ texts slot.front)
        (texts slot.back ++ (texts back ++ after))

theorem ListsBody.follows (h : n.ListsBody stmts before after) (hne : stmts ≠ []) :
    ∃ rest, after = (if endsIn ['\n'] (Stmt.join true stmts) then "" else "; ") ++ rest ∧
      ClosesList rest := by
  obtain @⟨m, slot, before, after, hshows, hslot, hbody⟩ := h
  obtain ⟨back, hslotback, hback⟩ := back_of_hasBody hbody hslot hne
  refine ⟨texts back ++ after, by rw [hslotback, texts_cons, text_own, String.append_assoc], ?_⟩
  rcases hback with hback | ⟨rfl, hopen⟩
  · exact .inr (begins_append hback _)
  · rw [texts_nil, String.empty_append]
    rcases hshows.closes_or_entry hopen with hcloses | ⟨k, i, _, _, _, _, rfl, -⟩
    · exact hcloses
    · cases hbody

theorem ListsEntry.follows (h : n.ListsEntry stmts before after) :
    beginsIn [';'] after = true := by
  obtain @⟨k, i, slot, front, back, before, after, hshows, hpieces, hslot⟩ := h
  obtain rfl := List.mem_singleton.mp hslot
  have hback : beginsIn [';'] (texts back) = true :=
    begins_behind (p := .command k) hpieces rfl
  rw [texts_nil, String.empty_append]
  exact begins_append hback _

/-- Behind any other list its node or the parent has a closing mark. -/
theorem Lists.follows (h : n.Lists stmts before after) (hne : stmts ≠ []) :
    n.ListsBody stmts before after ∨ n.ListsEntry stmts before after ∨ ClosesList after := by
  obtain @⟨m, slot, before, after, hshows, hslot⟩ := h
  cases hbody : m.hasBody with
  | true => exact .inl (.intro hshows hslot hbody)
  | false =>
    right
    rcases back_of_not_hasBody hbody hslot hne with hback | ⟨hback, hopen⟩
    · exact .inr (.inr (begins_append hback _))
    · rw [hback, texts_nil, String.empty_append]
      rcases hshows.closes_or_entry hopen
        with hcloses | ⟨k, i, front, back, outer, outer', rfl, hclause, hpieces, rfl, rfl⟩
      · exact .inr hcloses
      · have hentry := ListsEntry.intro hclause hpieces hslot
        rw [hback, texts_nil, String.empty_append] at hentry
        exact .inl hentry

end Node

end ShellSyntax
