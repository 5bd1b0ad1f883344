import ShellSyntax.Proofs.Tree.Traversal
import ShellSyntax.Tree.Print

/-!
# What a text shows of its tree

Keywords, operators and blanks have no digit and no upper-case letter, so these characters of a text,
its marks, all come from literal text.

* `marks_print`: a node shows its own text, then its children in order;
* `marks_print_eq_walk`: so a whole tree shows each leaf once, in the order of `Node.walk`.
-/

namespace ShellSyntax

/-- An ASCII digit or upper-case letter. -/
def isMark (c : Char) : Bool := c.isDigit || c.isUpper

/-- The marks of a text, in order. -/
def marks (s : String) : List Char := s.toList.filter isMark

@[simp] theorem marks_append (s t : String) : marks (s ++ t) = marks s ++ marks t := by
  simp [marks]

@[simp] theorem marks_join (l : List String) : marks (String.join l) = l.flatMap marks := by
  simp only [marks, String.toList_join, List.filter_flatMap]
  rfl

/-- A fixed text has no marks, which is decided. -/
theorem marks_fixed {s : String} (h : s.toList.all (fun c => !isMark c) = true) : marks s = [] := by
  simpa [marks] using h

@[simp] theorem marks_spelling (t : Token) : marks t.spelling = [] := by
  cases t <;> rfl

/-! ### Separators -/

theorem marks_intercalate {separator : String} (h : marks separator = []) (l : List String) :
    marks (separator.intercalate l) = l.flatMap marks := by
  induction l with
  | nil => simp [marks]
  | cons s rest ih =>
    cases rest with
    | nil => simp
    | cons t rest =>
      rw [String.intercalate_cons_cons, marks_append, marks_append, h, List.append_nil, ih]
      rfl

@[simp] theorem marks_spaced (l : List String) : marks (spaced l) = l.flatMap marks := by
  rw [spaced, marks_intercalate (by decide)]
  induction l with
  | nil => rfl
  | cons s rest ih =>
    rw [List.filter_cons]
    split
    · rw [List.flatMap_cons, List.flatMap_cons, ih]
    · rename_i h
      have hs : s = "" := by simpa using h
      rw [ih, hs]
      rfl

@[simp] theorem marks_ending (l : Line) (closed : Bool) : marks (l.ending closed) = [] := by
  unfold Line.ending
  split <;> rfl

@[simp] theorem marks_separator (l : Line) : marks l.separator = [] := by
  unfold Line.separator
  split <;> rfl

@[simp] theorem marks_lines (closed : Bool) (l : List Line) :
    marks (Line.join closed l) = l.flatMap fun line => marks line.text := by
  induction l with
  | nil => rfl
  | cons l rest ih =>
    cases rest with
    | nil => simp [Line.join]
    | cons m rest =>
      rw [Line.join, marks_append, marks_append, marks_separator, List.append_nil, ih]
      rfl

@[simp] theorem marks_body (l : List Line) :
    marks (Line.body l) = l.flatMap fun line => marks line.text := by
  cases l with
  | nil => rfl
  | cons l rest =>
    simp only [Line.body]
    split <;> simp (disch := decide) [marks_fixed]

@[simp] theorem marks_signed (op : Token) (postfixed : Bool) (x : String) :
    marks (signed op postfixed x) = marks x := by
  have blank (p : Prop) [Decidable p] : marks (if p then " " else "") = [] := by
    split <;> rfl
  simp only [signed]
  split <;> simp [blank]

@[simp] theorem marks_infixed (op : Token) (x y : String) :
    marks (infixed op x y) = marks x ++ marks y := by
  simp only [infixed]
  split <;> simp (disch := decide) [marks_fixed]

theorem marks_bracketed {isEmpty : Bool} {text : String} (h : isEmpty = true → marks text = []) :
    marks (bracketed isEmpty text) = marks text := by
  cases isEmpty with
  | true => simp (disch := decide) [bracketed, marks_fixed, h rfl]
  | false => simp (disch := decide) [bracketed, marks_fixed]

/-! ### Lists of nodes -/

@[simp] theorem marks_parts (l : List Part) :
    (Part.printAll l).flatMap marks = (l.map Node.part).flatMap fun c => marks c.print := by
  simp [Part.printAll_eq, List.flatMap_map, Node.print]

@[simp] theorem marks_words (l : List Word) :
    (Word.printAll l).flatMap marks = (l.map Node.word).flatMap fun c => marks c.print := by
  simp [Word.printAll_eq, List.flatMap_map, Node.print, Arith.print]

@[simp] theorem marks_assigns (l : List Assign) :
    (Assign.printAll l).flatMap marks = (l.map Node.assign).flatMap fun c => marks c.print := by
  simp [Assign.printAll_eq, List.flatMap_map, Node.print]

@[simp] theorem marks_redirects (l : List Redirect) :
    (Redirect.printAll l).flatMap marks = (l.map Node.redirect).flatMap fun c => marks c.print := by
  simp [Redirect.printAll_eq, List.flatMap_map, Node.print]

@[simp] theorem marks_elifs (l : List Elif) :
    (Elif.printAll l).flatMap marks = (l.map Node.elif).flatMap fun c => marks c.print := by
  simp [Elif.printAll_eq, List.flatMap_map, Node.print]

@[simp] theorem marks_caseItems (l : List CaseItem) :
    (CaseItem.printAll l).flatMap marks = (l.map Node.caseItem).flatMap fun c => marks c.print := by
  simp [CaseItem.printAll_eq, List.flatMap_map, Node.print]

@[simp] theorem marks_stmts (l : List Stmt) :
    ((Stmt.printAll l).flatMap fun line => marks line.text)
      = (l.map Node.stmt).flatMap fun c => marks c.print := by
  simp [Stmt.printAll_eq, Stmt.line, List.flatMap_map, Node.print]

/-! ### One node -/

namespace Node

/-- The literal text that the node itself holds. -/
def leafText : Node → String
  | .part (.lit l) => l.value
  | .part (.singleQuoted value _) => value
  | _ => ""

/-- A short expansion has nothing that its text leaves out. -/
def ShownWhole : Node → Prop
  | .part (.param e) => e.short = true → e.index = none ∧ e.replace = none ∧ e.operation = none
  | _ => True

end Node

theorem Part.marks_print (p : Part) (h : (Node.part p).ShownWhole) :
    marks p.print = marks (Node.part p).leafText ++ p.children.flatMap fun c => marks c.print := by
  cases p with
  | lit l => simp [Part.print, Node.leafText, children]
  | singleQuoted value pos =>
    simp (disch := decide) [Part.print, Node.leafText, children, marks_fixed]
  | quoted quote parts pos =>
    simp (disch := decide) [Part.print, Node.leafText, children, marks_fixed]
  | param e =>
    obtain ⟨param, short, length, index, replace, operation, dollar⟩ := e
    cases short with
    | true =>
      obtain ⟨rfl, rfl, rfl⟩ := h rfl
      simp (disch := decide) [Part.print, ParamExp.print, Node.print, Node.leafText, children,
        marks_fixed]
    | false =>
      have hash : marks (if length then "#" else "") = [] := by
        cases length <;> rfl
      cases index <;> cases replace <;> cases operation <;>
        simp (disch := decide) [Part.print, ParamExp.print, Index.print?, Replace.print?,
          Expansion.print?, Node.print, Node.leafText, children, marks_fixed, hash]
  | cmdSubst stmts backquotes left right =>
    simp only [Part.print, Node.leafText, children]
    split <;> simp (disch := decide) [marks_fixed]
  | arithExp expr dollar rparen =>
    cases expr <;>
      simp (disch := decide) [Part.print, Arith.print?, Node.print, Node.leafText, children,
        marks_fixed]
  | array items lparen rparen =>
    have hempty : items.isEmpty = true → marks (" ".intercalate (Word.printAll items)) = [] := by
      intro he
      rw [List.isEmpty_iff.mp he]
      rfl
    simp (disch := decide) [Part.print, Node.leafText, children, marks_fixed,
      marks_bracketed hempty, marks_intercalate]
  | cmdInput stmts less rparen =>
    simp (disch := decide) [Part.print, Node.leafText, children, marks_fixed]

theorem Arith.marks_print (a : Arith) :
    marks a.print = a.children.flatMap fun c => marks c.print := by
  cases a with
  | word w =>
    obtain ⟨parts⟩ := w
    simp [print, Word.print, children]
  | unary op operand postfixed pos =>
    cases operand <;> simp (disch := decide) [print, print?, Node.print, children, marks_fixed]
  | binary op left right pos =>
    cases left <;> cases right <;>
      simp (disch := decide) [print, print?, Node.print, children, marks_fixed]
  | paren inner lparen rparen =>
    cases inner <;> simp (disch := decide) [print, print?, Node.print, children, marks_fixed]

theorem Cond.marks_print (c : Cond) :
    marks c.print = c.children.flatMap fun c => marks c.print := by
  cases c with
  | list stmts => simp [print, children]
  | test expr lparen rparen =>
    cases expr <;> simp (disch := decide) [print, Node.print?, children, marks_fixed]

theorem Cond.marks_print? (c : Option Cond) :
    marks (Cond.print? c) = (c.map Node.cond).toList.flatMap fun c => marks c.print := by
  cases c with
  | none => rfl
  | some c => simp [print?, Node.print]

theorem ForHead.marks_print (h : ForHead) :
    marks h.print = h.children.flatMap fun c => marks c.print := by
  cases h with
  | words name items =>
    cases items with
    | nil => simp [print, Node.print, Part.print, children]
    | cons w rest =>
      simp (disch := decide) [print, Node.print, Part.print, children, marks_fixed,
        marks_intercalate, Word.printAll_eq, List.flatMap_map, Arith.print]
  | count loop =>
    obtain ⟨init, cond, step, lparen, rparen⟩ := loop
    cases init <;> cases cond <;> cases step <;>
      simp (disch := decide) [print, CountLoop.print, Arith.print?, Node.print, children,
        marks_fixed]

theorem Command.marks_print (c : Command) :
    marks c.print = c.children.flatMap fun c => marks c.print := by
  cases c with
  | simple args => simp (disch := decide) [print, children, marks_intercalate]
  | subshell stmts lparen rparen =>
    have hempty : stmts.isEmpty = true → marks (Line.join true (Stmt.printAll stmts)) = [] := by
      intro he
      rw [List.isEmpty_iff.mp he]
      rfl
    simp [print, children, marks_bracketed hempty]
  | block stmts lbrace rbrace => simp (disch := decide) [print, children, marks_fixed]
  | ifClause cond thenStmts elifs elseStmts ifPos fiPos =>
    -- The keyword goes with its statements, so the two cases differ.
    cases elseStmts <;> simp (disch := decide) [print, children, marks_fixed, Cond.marks_print?]
  | whileLoop cond body whilePos donePos =>
    simp (disch := decide) [print, children, marks_fixed, Cond.marks_print?]
  | untilLoop cond body untilPos donePos =>
    simp (disch := decide) [print, children, marks_fixed, Cond.marks_print?]
  | forLoop head body forPos donePos =>
    cases head <;>
      simp (disch := decide) [print, ForHead.print?, Node.print, children, marks_fixed]
  | caseClause word items casePos esacPos =>
    simp (disch := decide) [print, children, marks_fixed, marks_intercalate, Node.print,
      Arith.print]
  | function name body keyword pos =>
    have hkeyword : marks (if keyword then "function " else "") = [] := by
      cases keyword <;> rfl
    simp (disch := decide) [print, children, marks_fixed, hkeyword, Node.print, Part.print]
  | declaration assigns options isLocal pos =>
    have hword : marks (if isLocal then "local" else "declare") = [] := by
      cases isLocal <;> rfl
    simp [print, children, hword]

namespace Node

/-- A node shows its own literal text, then each child in turn. -/
theorem marks_print (n : Node) (h : n.ShownWhole) :
    marks n.print = marks n.leafText ++ n.children.flatMap fun c => marks c.print := by
  cases n with
  | part p => exact p.marks_print h
  | arith a => exact a.marks_print
  | command c => exact c.marks_print
  | cond c => exact c.marks_print
  | forHead head => exact head.marks_print
  | index i =>
    obtain ⟨word⟩ := i
    simp (disch := decide) [print, Index.print, leafText, children, marks_fixed, Arith.print]
  | replace r =>
    obtain ⟨pattern, substitute, every⟩ := r
    have hslash : marks (if every then "//" else "/") = [] := by
      cases every <;> rfl
    simp (disch := decide) [print, Replace.print, leafText, children, marks_fixed, Arith.print,
      hslash]
  | expansion e =>
    obtain ⟨op, word⟩ := e
    simp (disch := decide) [print, Expansion.print, leafText, children, marks_fixed, Arith.print]
  | assign a =>
    obtain ⟨value, name, append⟩ := a
    have hsign : marks (if append then "+=" else "=") = [] := by
      cases append <;> rfl
    cases name <;>
      simp (disch := decide) [print, Assign.print, leafText, children, marks_fixed, Arith.print,
        Part.print, hsign]
  | redirect r =>
    obtain ⟨op, word, descriptor, pos⟩ := r
    have hblank : marks (if beginsIn ['<'] word.print then " " else "") = [] := by
      split <;> rfl
    cases descriptor <;>
      simp (disch := decide) [print, Redirect.print, leafText, children, marks_fixed, Arith.print,
        Part.print, hblank]
  | stmt s =>
    obtain ⟨command, negated, assigns, redirs, background, pos⟩ := s
    have hbang : (if negated then ["!"] else []).flatMap marks = [] := by
      cases negated <;> rfl
    have hamp : (if background then ["&"] else []).flatMap marks = [] := by
      cases background <;> rfl
    cases command <;>
      simp (disch := decide) [print, Stmt.print, Command.print?, leafText, children, marks_fixed,
        hbang, hamp]
  | elif e =>
    obtain ⟨cond, thenStmts, pos⟩ := e
    simp (disch := decide) [print, Elif.print, leafText, children, marks_fixed,
      Cond.marks_print?]
  | caseItem i =>
    obtain ⟨patterns, stmts⟩ := i
    simp (disch := decide) [print, CaseItem.print, leafText, children, marks_fixed,
      marks_intercalate]
  | file f =>
    obtain ⟨stmts, name⟩ := f
    simp (disch := decide) [print, File.print, leafText, children, marks_fixed]

/-- A tree shows what its leaves hold, in the order of a walk. -/
theorem marks_print_of_shownWhole (n : Node) (h : ∀ m ∈ n.walk, m.ShownWhole) :
    marks n.print = n.walk.flatMap fun m => marks m.leafText := by
  induction n using children_induction with
  | h n ih =>
    obtain ⟨hself, hbelow⟩ := forall_mem_walk_iff.mp h
    have hchildren : ∀ c ∈ n.children, marks c.print = c.walk.flatMap fun m => marks m.leafText :=
      fun c hc => ih c hc (hbelow c hc)
    rw [n.marks_print hself, walk_eq, List.flatMap_cons, List.flatMap_assoc, List.flatMap_def,
      List.map_congr_left hchildren, ← List.flatMap_def]

theorem shownWhole_of_violations {n : Node} (h : n.violations = []) : n.ShownWhole := by
  cases n with
  | part p =>
    cases p with
    | param e =>
      intro hshort
      have hrules : e.violations = [] := h
      simp only [ParamExp.violations, List.append_eq_nil_iff, Violation.when_eq_nil_iff] at hrules
      have hlong : e.isLong = false := by
        cases hl : e.isLong with
        | false => rfl
        | true => exact absurd ⟨hshort, hl⟩ hrules.2
      simp only [ParamExp.isLong, Bool.or_eq_false_iff, Option.isSome_eq_false_iff,
        Option.isNone_iff_eq_none] at hlong
      exact ⟨hlong.1.1.2, hlong.1.2, hlong.2⟩
    | _ => trivial
  | _ => trivial

theorem shownWhole_of_check {n : Node} {r : Reporter} (accepted : (n.check r).ok = true) :
    ∀ m ∈ n.walk, m.ShownWhole := by
  intro m hm
  exact shownWhole_of_violations (check_ok_iff.mp accepted m hm)

end Node

/-- The text of a tree and a walk through it agree on content and order: no leaf is left out, printed
twice or printed out of turn. A short expansion must not hold what its text leaves out, which a check
ensures. -/
theorem marks_print_eq_marks_walk :
    (∀ n : Node, (∀ m ∈ n.walk, m.ShownWhole) →
      marks n.print = marks (String.join (n.walk.map Node.leafText))) ∧
    (∀ (n : Node) (r : Reporter), (n.check r).ok = true → ∀ m ∈ n.walk, m.ShownWhole) := by
  constructor
  · intro n h
    rw [n.marks_print_of_shownWhole h, marks_join, List.flatMap_map]
  · intro n r h m hm
    exact Node.shownWhole_of_violations (Node.check_ok_iff.mp h m hm)

/-- Names, quoted text, parameters and file descriptors all come from leaves. -/
theorem marks_print_eq_marks_walk_command : ∃ n : Node,
    n.print = "X=1 E 'A2'$B3 2>F &" ∧ (n.check {}).ok = true ∧ (∀ m ∈ n.walk, m.ShownWhole) ∧
      marks n.print = "X1EA2B32F".toList ∧
      marks n.print = marks (String.join (n.walk.map Node.leafText)) := by
  let command : Command :=
    .simple [.ofLit "E", ⟨[.singleQuoted "A2" {}, .param { param := ⟨"B3", {}⟩, short := true }]⟩]
  let n : Node := .stmt
    { command := some command
      assigns := [⟨.ofLit "1", some ⟨"X", {}⟩, false⟩]
      redirs := [{ op := .greater, word := .ofLit "F", descriptor := some ⟨"2", {}⟩ }]
      background := true }
  have checked : (n.check {}).ok = true := by
    decide +kernel
  have whole : ∀ m ∈ n.walk, m.ShownWhole := marks_print_eq_marks_walk.2 n {} checked
  exact ⟨n, by decide, checked, whole, by decide, marks_print_eq_marks_walk.1 n whole⟩

end ShellSyntax
