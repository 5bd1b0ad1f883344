import ShellSyntax.Proofs.Tree.Edges

/-!
# Parentheses in front of a text

* `Node.OpensAt`: a subshell or an array stands behind a given text in that of a node;
* `Node.opensAt_of_begins`: a statement begins with a parenthesis only if such a node stands at its
  front, and never with a semicolon;
* `alike_only_behind_parentheses`: so a command substitution may be read as an arithmetic expansion,
  and a list as an arithmetic test, only if its first statement begins with such nodes.
-/

namespace ShellSyntax

open Piece

namespace Node

/-- A subshell or an array: the node puts its items between parentheses. -/
def isParenthesized : Node → Bool
  | .command (.subshell ..) | .part (.array ..) => true
  | _ => false

/-- Such a node stands behind `before` in the text of the node. -/
def OpensAt (n : Node) (before : String) : Prop :=
  ∃ m after, m.isParenthesized = true ∧ n.Shows m before after

/-- The tree keeps the rules, and no literal text of it has the character. -/
def Without (c : Char) (n : Node) : Prop :=
  ∀ m ∈ n.walk, m.violations = [] ∧ c ∉ m.leafText.toList

section Lemmas

variable {c : Char} {n m : Node}

theorem Without.root (h : Without c n) : n.violations = [] ∧ c ∉ n.leafText.toList :=
  (forall_mem_walk_iff.mp h).1

theorem Without.child (h : Without c n) (hm : m ∈ n.children) : Without c m :=
  (forall_mem_walk_iff.mp h).2 m hm

/-- Behind `front`, the first text that begins with the character is that of a child. -/
theorem opensAt_behind {front rest : List Piece} (hpieces : n.pieces = front ++ rest)
    (hown : Owns (fun s => beginsIn [c] s = false) rest)
    (hchild : ∀ m ∈ nodes rest, beginsIn [c] m.print = true → m.OpensAt "")
    (h : beginsIn [c] (texts rest) = true) : n.OpensAt (texts front) := by
  obtain ⟨before, p, back, rfl, hbefore, hp⟩ := exists_front h
  cases p with
  | own s => simp [hown s (by simp)] at hp
  | child m =>
    obtain ⟨k, after, hk, hshows⟩ := hchild m (by simp) hp
    rw [← List.append_assoc] at hpieces
    have hplace := (Shows.of_pieces hpieces).trans hshows
    rw [texts_append, hbefore, String.append_empty, String.append_empty] at hplace
    exact ⟨k, _, hk, hplace⟩

theorem opensAt_of_children (hown : Owns (fun s => beginsIn [c] s = false) n.pieces)
    (hchild : ∀ m ∈ nodes n.pieces, beginsIn [c] m.print = true → m.OpensAt "")
    (h : beginsIn [c] n.print = true) : n.OpensAt "" := by
  rw [← texts_pieces] at h
  have hopens := opensAt_behind (List.nil_append _).symm hown hchild h
  rwa [texts_nil] at hopens

end Lemmas

end Node

/-! ### A statement -/

section Begins

variable {c : Char} (hc : c ∈ ['(', ';'])
include hc

theorem not_begins {s t : String} (hs : s ≠ "") (hs' : beginsIn ['(', ';'] s = false) :
    beginsIn [c] (s ++ t) = false := by
  rw [beginsIn_fixed hs]
  cases h : beginsIn [c] s with
  | false => rfl
  | true =>
    obtain ⟨d, hd, hhead⟩ := beginsIn_iff.mp h
    obtain rfl := List.mem_singleton.mp hd
    rw [beginsIn_iff.mpr ⟨d, hc, hhead⟩] at hs'
    cases hs'

theorem not_begins_fixed {s : String} (hs : beginsIn ['(', ';'] s = false) :
    beginsIn [c] s = false := by
  by_cases hempty : s = ""
  · rw [hempty]
    rfl
  · simpa using not_begins hc (t := "") hempty hs

theorem Part.opensAt {p : Part} (h : Node.Without c (.part p))
    (hbegins : beginsIn [c] p.print = true) : (Node.part p).OpensAt "" := by
  obtain ⟨hrules, hleaf⟩ := h.root
  cases p with
  | lit l => exact absurd (mem_of_beginsIn hbegins) hleaf
  | array items lparen rparen => exact ⟨_, "", rfl, .self _⟩
  | quoted quote parts pos =>
    have hquote : quote ∈ Token.quotes := by
      simpa [Node.violations, Violation.when_eq_nil_iff] using hrules
    have hspelling : ∀ q ∈ Token.quotes,
        q.spelling ≠ "" ∧ beginsIn ['(', ';'] q.spelling = false := by
      decide
    obtain ⟨hne, hmark⟩ := hspelling quote hquote
    rw [Part.print, String.append_assoc, not_begins hc hne hmark] at hbegins
    cases hbegins
  | singleQuoted | arithExp | cmdInput =>
    simp (disch := decide) [Part.print, String.append_assoc, not_begins hc] at hbegins
  | param e =>
    obtain ⟨param, short, length, index, replace, operation, dollar⟩ := e
    cases short <;>
      simp (disch := decide) [Part.print, ParamExp.print, String.append_assoc, not_begins hc]
        at hbegins
  | cmdSubst stmts backquotes left right =>
    cases backquotes <;>
      simp (disch := decide) [Part.print, String.append_assoc, not_begins hc] at hbegins

theorem Assign.owns_pieces (a : Assign) :
    Owns (fun s => beginsIn [c] s = false) (Node.assign a).pieces := by
  obtain ⟨value, name, append⟩ := a
  have hsign : beginsIn [c] (if append then "+=" else "=") = false := by
    cases append <;> exact not_begins_fixed hc (by decide)
  cases name <;> simp [Node.pieces, hsign]

theorem Redirect.owns_pieces {r : Redirect} (hrules : (Node.redirect r).violations = []) :
    Owns (fun s => beginsIn [c] s = false) (Node.redirect r).pieces := by
  obtain ⟨op, word, descriptor, pos⟩ := r
  have hop : op ∈ Token.redirects := by
    simp only [Node.violations, Redirect.violations, List.append_eq_nil_iff,
      Violation.when_eq_nil_iff, Decidable.not_not] at hrules
    exact hrules.1
  have hspelling : ∀ t ∈ Token.redirects,
      t.spelling ≠ "" ∧ beginsIn ['(', ';'] t.spelling = false := by
    decide
  obtain ⟨hne, hsign⟩ := hspelling op hop
  simp [Node.pieces, not_begins hc hne hsign]

theorem Stmt.owns_pieces (s : Stmt) :
    Owns (fun s => beginsIn [c] s = false) (Node.stmt s).pieces := by
  have hbang := not_begins_fixed hc (s := "!") (by decide)
  have hamp := not_begins_fixed hc (s := "&") (by decide)
  have hblank := not_begins_fixed hc (s := " ") (by decide)
  apply owns_blanks (P := fun s => beginsIn [c] s = false) rfl hblank
  cases s.negated <;> cases s.background <;> simp [hbang, hamp]

theorem Command.owns_pieces_simple (args : List Word) :
    Owns (fun s => beginsIn [c] s = false) (Command.simple args).pieces :=
  owns_between (not_begins_fixed hc (by decide)) _

/-- A command that is no list of words begins with a keyword, a brace or a name, unless it is a
subshell. -/
theorem Command.eq_simple_of_begins {k : Command} (h : Node.Without c (.command k))
    (hbegins : beginsIn [c] k.print = true) :
    (Node.command k).isParenthesized = true ∨ ∃ args, k = .simple args := by
  cases k with
  | simple args => exact .inr ⟨args, rfl⟩
  | subshell stmts lparen rparen => exact .inl rfl
  | function name body keyword pos =>
    have hname : name.value ≠ "" := by
      simpa [Node.violations, Command.violations, Violation.when_eq_nil_iff] using h.root.1
    cases keyword with
    | true =>
      simp (disch := decide) [Command.print, String.append_assoc, not_begins hc] at hbegins
    | false =>
      have hlit : beginsIn [c] name.value = true := by
        simpa [Command.print, String.append_assoc, beginsIn_fixed hname] using hbegins
      have hchild : Node.Without c (.lit name) :=
        h.child (by simp [Node.children, Command.children])
      exact absurd (mem_of_beginsIn hlit) hchild.root.2
  | declaration assigns options isLocal pos =>
    have hword : (if isLocal then "local" else "declare") ≠ "" ∧
        beginsIn ['(', ';'] (if isLocal then "local" else "declare") = false := by
      cases isLocal <;> decide
    obtain ⟨rest, hrest⟩ :=
      exists_spaced_cons hword.1 (Word.printAll options ++ Assign.printAll assigns)
    rw [Command.print, List.cons_append, hrest, not_begins hc hword.1 hword.2] at hbegins
    cases hbegins
  | _ =>
    simp (disch := decide) [Command.print, String.append_assoc, not_begins hc] at hbegins

/-- The nodes that a statement may begin with. -/
def Node.inStatement : Node → Bool
  | .part _ | .word _ | .assign _ | .redirect _ | .command _ | .stmt _ => true
  | _ => false

/-- Only parentheses put the character in front of a statement: by induction on the tree, since a
statement begins with one of its children. -/
theorem Node.opensAt_of_begins {n : Node} (hn : n.inStatement = true) (h : n.Without c)
    (hbegins : beginsIn [c] n.print = true) : n.OpensAt "" := by
  induction n using children_induction with
  | h n ih =>
    have hchildren (hin : ∀ m ∈ n.children, m.inStatement = true) :
        ∀ m ∈ nodes n.pieces, beginsIn [c] m.print = true → m.OpensAt "" := by
      intro m hm hbegins
      have hmem := n.nodes_subset_children hm
      exact ih m hmem (hin m hmem) (h.child hmem) hbegins
    cases n with
    | part p => exact Part.opensAt hc h hbegins
    | arith a =>
      cases a with
      | word w =>
        apply opensAt_of_children ?_ (hchildren ?_) hbegins
        · simp [pieces, Arith.pieces]
        · simp [children, Arith.children, inStatement]
      | _ => cases hn
    | assign a =>
      apply opensAt_of_children (a.owns_pieces hc) (hchildren ?_) hbegins
      simp [children, inStatement, or_imp, forall_and]
    | redirect r =>
      apply opensAt_of_children (Redirect.owns_pieces hc h.root.1) (hchildren ?_) hbegins
      simp [children, inStatement, or_imp, forall_and]
    | stmt s =>
      apply opensAt_of_children (s.owns_pieces hc) (hchildren ?_) hbegins
      simp [children, inStatement, or_imp, forall_and]
    | command k =>
      rcases Command.eq_simple_of_begins hc h hbegins with hparen | ⟨args, rfl⟩
      · exact ⟨_, "", hparen, .self _⟩
      · apply opensAt_of_children (Command.owns_pieces_simple hc args) (hchildren ?_) hbegins
        simp [children, Command.children, inStatement]
    | _ => cases hn

end Begins

/-! ### Substitutions and conditions -/

namespace Node

variable {n m : Node} {before after rest : String} {l : List Piece} {stmts : List Stmt}

theorem Without.of_shows {c : Char} (h : n.Without c) (hshows : n.Shows m before after) :
    m.Without c := by
  induction hshows with
  | self n => exact h
  | child hpieces _ ih => exact ih (h.child (mem_children_of_pieces hpieces))

theorem exists_print_of_parenthesized (h : m.isParenthesized = true) : ∃ t, m.print = "(" ++ t := by
  have hbracketed (isEmpty : Bool) (text : String) : ∃ t, bracketed isEmpty text = "(" ++ t := by
    cases isEmpty with
    | true => exact ⟨" )", rfl⟩
    | false => exact ⟨text ++ ")", by simp [bracketed, String.append_assoc]⟩
  cases m with
  | part p =>
    cases p with
    | array => exact hbracketed _ _
    | _ => cases h
  | command k =>
    cases k with
    | subshell => exact hbracketed _ _
    | _ => cases h
  | _ => cases h

theorem OpensAt.exists_print (h : n.OpensAt before) : ∃ rest, n.print = before ++ "(" ++ rest := by
  obtain ⟨m, after, hm, hshows⟩ := h
  obtain ⟨t, ht⟩ := exists_print_of_parenthesized hm
  exact ⟨t ++ after, by rw [hshows.print_eq, ht]; simp only [String.append_assoc]⟩

theorem begins_parenthesis (t : String) : beginsIn ['('] ("(" ++ t) = true := by
  rw [beginsIn_fixed (by decide)]
  decide

/-- A second parenthesis behind the first is that of a node inside. -/
theorem opensAt_inside (hpieces : n.pieces = parenthesized l)
    (hown : Owns (fun s => beginsIn ['('] s = false) l)
    (hchild : ∀ m ∈ nodes l, beginsIn ['('] m.print = true → m.OpensAt "")
    (h : n.print ++ after = "((" ++ rest) : n.OpensAt "(" := by
  rw [← texts_pieces] at h
  cases l with
  | nil => simp [hpieces, parenthesized, String.ext_iff] at h
  | cons p l =>
    have hsplit : n.pieces = [.own "("] ++ (p :: l ++ [.own ")"]) := hpieces
    have hinside : texts (p :: l ++ [.own ")"]) ++ after = "(" ++ rest := by
      apply (String.append_right_inj "(").mp
      rw [← String.append_assoc, ← String.append_assoc]
      simpa [hsplit, String.append_assoc] using h
    have hne : texts (p :: l ++ [.own ")"]) ≠ "" := by
      simp
    have hopen : beginsIn ['('] (texts (p :: l ++ [.own ")"])) = true := by
      rw [← beginsIn_fixed hne, hinside]
      exact begins_parenthesis rest
    have hopens := opensAt_behind hsplit (owns_append.mpr ⟨hown, by simp [Owns]; decide⟩)
      (by simpa using hchild) hopen
    simpa using hopens

/-- The statements of a list that open with a parenthesis have such a node in front. -/
theorem opensAt_of_stmts (h : ∀ s ∈ stmts, (Node.stmt s).Without '(') :
    ∀ m ∈ nodes (lines stmts), beginsIn ['('] m.print = true → m.OpensAt "" := by
  intro m hm hbegins
  rw [nodes_lines] at hm
  obtain ⟨s, hs, rfl⟩ := List.mem_map.mp hm
  exact opensAt_of_begins (by decide) rfl (h s hs) hbegins

theorem owns_lines_parenthesis (stmts : List Stmt) :
    Owns (fun s => beginsIn ['('] s = false) (lines stmts) :=
  owns_lines (P := fun s => beginsIn ['('] s = false) rfl (by decide) (by decide) stmts

theorem opensAt_inside_of_parenthesized (hm : m.isParenthesized = true) (h : m.Without '(')
    (hprint : m.print ++ after = "((" ++ rest) : m.OpensAt "(" := by
  cases m with
  | part p =>
    cases p with
    | array items lparen rparen =>
      apply opensAt_inside (l := between " " (items.map .word)) rfl ?_ ?_ hprint
      · exact owns_between (by decide) _
      · intro w hw hbegins
        rw [nodes_between] at hw
        obtain ⟨item, -, rfl⟩ := List.mem_map.mp hw
        exact opensAt_of_begins (by decide) rfl (h.child hw) hbegins
    | _ => cases hm
  | command k =>
    cases k with
    | subshell stmts lparen rparen =>
      apply opensAt_inside (l := lines stmts) rfl (owns_lines_parenthesis stmts) ?_ hprint
      apply opensAt_of_stmts
      intro s hs
      exact h.child (List.mem_map_of_mem hs)
    | _ => cases hm
  | _ => cases hm

/-- A list whose text begins with a parenthesis has a node with parentheses in front. -/
theorem opensAt_list {lead close : String} (h : n.Without '(')
    (hpieces : n.pieces = [.own lead] ++ (lines stmts ++ [.own close]))
    (hclose : beginsIn ['('] close = false) (hprint : n.print = lead ++ ("(" ++ rest)) :
    n.OpensAt lead := by
  have hstmts : ∀ s ∈ stmts, (Node.stmt s).Without '(' := by
    intro s hs
    apply h.child
    apply n.nodes_subset_children
    simp [hpieces, hs]
  have hown : Owns (fun s => beginsIn ['('] s = false) (lines stmts ++ [.own close]) := by
    simp [owns_lines_parenthesis, hclose]
  have hbehind : texts (lines stmts ++ [.own close]) = "(" ++ rest := by
    apply (String.append_right_inj lead).mp
    rw [← hprint, ← texts_pieces, hpieces, texts_append]
    simp
  have hopens := opensAt_behind hpieces hown (by simpa using opensAt_of_stmts hstmts)
    (by rw [hbehind]; exact begins_parenthesis rest)
  simpa using hopens

/-- Behind a first parenthesis, a second one is that of a node inside the first. -/
theorem OpensAt.next {lead : String} (h : n.Without '(') (hopens : n.OpensAt lead)
    (hprint : n.print = lead ++ ("((" ++ rest)) : n.OpensAt (lead ++ "(") := by
  obtain ⟨m, after, hm, hshows⟩ := hopens
  have hbehind : m.print ++ after = "((" ++ rest := by
    apply (String.append_right_inj lead).mp
    rw [← hprint, hshows.print_eq, String.append_assoc]
  obtain ⟨k, after', hk, hinside⟩ :=
    opensAt_inside_of_parenthesized hm (h.of_shows hshows) hbehind
  exact ⟨k, _, hk, hshows.trans hinside⟩

/-- A command substitution is written like an arithmetic expansion if its list is written like the
expression in parentheses. -/
theorem substitution_alike_iff {left right dollar rparen : Pos} {expr : Option Arith} :
    (Node.part (.cmdSubst stmts false left right)).print
        = (Node.part (.arithExp expr dollar rparen)).print ↔
      Stmt.join true stmts = "(" ++ Arith.print? expr ++ ")" := by
  have hlist : (Node.part (.cmdSubst stmts false left right)).print
      = "$(" ++ (Stmt.join true stmts ++ ")") := by
    simp [print, Part.print, Stmt.join, Stmt.printAll_eq, String.append_assoc]
  have hexpr : (Node.part (.arithExp expr dollar rparen)).print
      = "$(" ++ ("(" ++ Arith.print? expr ++ ")" ++ ")") := by
    apply String.toList_inj.mp
    simp [print, Part.print]
  rw [hlist, hexpr, String.append_right_inj, String.append_left_inj]

/-- A list is written like an arithmetic test if it is written like the operand in two pairs of
parentheses. -/
theorem condition_alike_iff {lparen rparen : Pos} {expr : Option Node} :
    (Node.cond (.list stmts)).print = (Node.cond (.test expr lparen rparen)).print ↔
      Stmt.join true stmts = "((" ++ Node.print? expr ++ "))" := by
  have hlist : (Node.cond (.list stmts)).print = Stmt.body stmts := by
    simp [print, Cond.print, Stmt.body, Stmt.printAll_eq]
  have htest : (Node.cond (.test expr lparen rparen)).print
      = " " ++ ("((" ++ Node.print? expr ++ "))") ++ "; " := by
    apply String.toList_inj.mp
    simp [print, Cond.print]
  rw [hlist, htest]
  cases stmts with
  | nil => simp [Stmt.body, Line.body, Stmt.join, Line.join, String.ext_iff]
  | cons s stmts =>
    have hbody : Stmt.body (s :: stmts) =
        if endsIn ['\n'] (Stmt.join true (s :: stmts)) then " " ++ Stmt.join true (s :: stmts)
        else " " ++ Stmt.join true (s :: stmts) ++ "; " := rfl
    rw [hbody]
    by_cases hbreak : endsIn ['\n'] (Stmt.join true (s :: stmts)) = true
    · rw [if_pos hbreak]
      apply iff_of_false
      · intro h
        -- The list ends with a line break, the test with a blank.
        have hends := congrArg (endsIn ['\n']) h
        rw [endsIn_append, if_neg (by rintro hempty; simp [hempty, endsIn] at hbreak), hbreak,
          endsIn_fixed (by decide)] at hends
        exact absurd hends (by decide)
      · intro h
        rw [h, endsIn_fixed (by decide)] at hbreak
        exact absurd hbreak (by decide)
    · rw [if_neg hbreak, String.append_left_inj, String.append_right_inj]

theorem without_of_check {r : Reporter} {c : Char} (accepted : (n.check r).ok = true)
    (plain : ∀ m ∈ n.walk, c ∉ m.leafText.toList) : n.Without c := by
  intro m hm
  exact ⟨check_ok_iff.mp accepted m hm, plain m hm⟩

/-- What a command substitution begins with. -/
theorem substitution_begins_iff {left right : Pos}
    (h : (Node.part (.cmdSubst stmts false left right)).Without '(') :
    (∃ rest, (Node.part (.cmdSubst stmts false left right)).print = "$((" ++ rest) ↔
      (Node.part (.cmdSubst stmts false left right)).OpensAt "$(" := by
  constructor
  · rintro ⟨rest, hprint⟩
    have hpieces : (Node.part (.cmdSubst stmts false left right)).pieces
        = [.own "$("] ++ (lines stmts ++ [.own ")"]) := rfl
    apply opensAt_list h hpieces (by decide)
    rwa [← String.append_assoc]
  · exact OpensAt.exists_print

/-- What a list used as a test begins with. -/
theorem condition_begins_iff (h : (Node.cond (.list stmts)).Without '(') :
    (∃ rest, (Node.cond (.list stmts)).print = " ((" ++ rest) ↔
      (Node.cond (.list stmts)).OpensAt " " ∧ (Node.cond (.list stmts)).OpensAt " (" := by
  constructor
  · rintro ⟨rest, hprint⟩
    cases stmts with
    | nil => simp [print, Cond.print, Stmt.printAll, Line.body, String.ext_iff] at hprint
    | cons s stmts =>
      have hpieces : (Node.cond (.list (s :: stmts))).pieces = [.own " "] ++ (lines (s :: stmts)
          ++ [.own (if endsIn ['\n'] (Stmt.join true (s :: stmts)) then "" else "; ")]) := rfl
      have hclose (p : Prop) [Decidable p] : beginsIn ['('] (if p then "" else "; ") = false := by
        split <;> decide
      have hlead : (Node.cond (.list (s :: stmts))).print = " " ++ ("(" ++ ("(" ++ rest)) := by
        rw [hprint, ← String.append_assoc, ← String.append_assoc]
        rfl
      have hfirst := opensAt_list h hpieces (hclose _) hlead
      have hboth : (Node.cond (.list (s :: stmts))).print = " " ++ ("((" ++ rest) := by
        rw [hprint, ← String.append_assoc]
        rfl
      exact ⟨hfirst, hfirst.next h hboth⟩
  · rintro ⟨-, hsecond⟩
    exact hsecond.exists_print

end Node

/-- A command substitution reads like an arithmetic expansion in front only if a subshell or an
array begins its list, and a list used as a test like an arithmetic test only if a second one begins
inside the first. Then nothing keeps them apart: they are written alike exactly if the list is
written like the expression in parentheses. -/
theorem alike_only_behind_parentheses (stmts : List Stmt) (left right : Pos) (r : Reporter) :
    let substitution := Node.part (.cmdSubst stmts false left right)
    let list := Node.cond (.list stmts)
    ((substitution.check r).ok = true → (∀ m ∈ substitution.walk, '(' ∉ m.leafText.toList) →
      ((∃ rest, substitution.print = "$((" ++ rest) ↔ substitution.OpensAt "$(") ∧
      ∀ expr dollar rparen,
        (substitution.print = (Node.part (.arithExp expr dollar rparen)).print ↔
          Stmt.join true stmts = "(" ++ Arith.print? expr ++ ")") ∧
        (substitution.print = (Node.part (.arithExp expr dollar rparen)).print →
          substitution.OpensAt "$(")) ∧
    ((list.check r).ok = true → (∀ m ∈ list.walk, '(' ∉ m.leafText.toList) →
      ((∃ rest, list.print = " ((" ++ rest) ↔ list.OpensAt " " ∧ list.OpensAt " (") ∧
      ∀ expr lparen rparen,
        (list.print = (Node.cond (.test expr lparen rparen)).print ↔
          Stmt.join true stmts = "((" ++ Node.print? expr ++ "))") ∧
        (list.print = (Node.cond (.test expr lparen rparen)).print →
          list.OpensAt " " ∧ list.OpensAt " (")) := by
  intro substitution list
  constructor
  · intro accepted plain
    have hbegins := Node.substitution_begins_iff (Node.without_of_check accepted plain)
    refine ⟨hbegins, fun expr dollar rparen => ⟨Node.substitution_alike_iff, fun h => ?_⟩⟩
    apply hbegins.mp
    exact ⟨_, by rw [h, Node.print, Part.print, String.append_assoc]⟩
  · intro accepted plain
    have hbegins := Node.condition_begins_iff (Node.without_of_check accepted plain)
    refine ⟨hbegins, fun expr lparen rparen => ⟨Node.condition_alike_iff, fun h => ?_⟩⟩
    apply hbegins.mp
    exact ⟨_, by rw [h, Node.print, Cond.print, String.append_assoc]⟩

/-- A list whose first command is in parentheses, and one that is in parentheses as a whole. -/
theorem alike_only_behind_parentheses_list : ∃ (stmts inner : List Stmt),
    (Node.part (.cmdSubst stmts false {} {})).print = "$((a); b)" ∧
      (Node.part (.cmdSubst stmts false {} {})).OpensAt "$(" ∧
      (Node.cond (.list inner)).print = " ((a); b); " ∧
      (Node.cond (.list inner)).OpensAt " " ∧ (Node.cond (.list inner)).OpensAt " (" := by
  let a : Stmt := { command := some (.simple [.ofLit "a"]) }
  let b : Stmt := { command := some (.simple [.ofLit "b"]) }
  let stmts : List Stmt := [{ command := some (.subshell [a] {} {}) }, b]
  let inner : List Stmt := [{ command := some (.subshell stmts {} {}) }]
  obtain ⟨substitution, -⟩ := alike_only_behind_parentheses stmts {} {} {}
  obtain ⟨-, condition⟩ := alike_only_behind_parentheses inner {} {} {}
  have hfirst := (substitution (by decide +kernel) (by decide +kernel)).1.mp
    ⟨"a); b)", by decide⟩
  have hboth := (condition (by decide +kernel) (by decide +kernel)).1.mp
    ⟨"a); b); ", by decide⟩
  exact ⟨stmts, inner, by decide, hfirst, by decide, hboth⟩

/-- A subshell at the front of a command substitution reads like an arithmetic expansion, and one in
another at the front of a list like an arithmetic test. -/
theorem subshell_read_as_arithmetic : ∃ (stmts inner : List Stmt) (x : Arith),
    let substitution := Node.part (.cmdSubst stmts false {} {})
    let expansion := Node.part (.arithExp (some x) {} {})
    let condition := Node.cond (.list inner)
    let test := Node.cond (.test (some (.arith x)) {} {})
    (∀ n ∈ [substitution, expansion, condition, test], (n.check {}).ok = true ∧
      ∀ m ∈ n.walk, m.leafText.toList.all Char.isAlphanum = true ∧
        (m.kind ∈ [.lit, .singleQuoted] → m.leafText ≠ "")) ∧
    substitution.print = "$((a))" ∧ expansion.print = "$((a))" ∧
    condition.print = " ((a)); " ∧ test.print = " ((a)); " := by
  let a : Stmt := { command := some (.simple [.ofLit "a"]) }
  let stmts : List Stmt := [{ command := some (.subshell [a] {} {}) }]
  exact ⟨stmts, [{ command := some (.subshell stmts {} {}) }], .word (.ofLit "a"),
    by decide +kernel, by decide, by decide, by decide, by decide⟩

end ShellSyntax
