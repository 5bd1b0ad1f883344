import ShellSyntax.Proofs.Tree.Edges
import ShellSyntax.Tree.Kind

/-!
# Keywords and what they enclose

A compound command is a row of clauses, a keyword with a condition, head or body behind it, and a
keyword at the end.

* `Enclosed.begins_text`, `Enclosed.ends_text`: what stands between two keywords keeps both apart;
* `Node.construct?`: the clauses of a node, which make up its text (`text_of_construct?`);
* `Construct.occurrences`: its keywords, each between the text before and after it;
* `keywords_apart`: so no keyword runs together with what it introduces, or with what stands before.
-/

namespace ShellSyntax

/-! ### Between two keywords -/

/-- A body is led by a blank, or is the bare separator. -/
theorem Stmt.begins_body (stmts : List Stmt) :
    beginsIn [' '] (body stmts) = true ∨ body stmts = "; " := by
  cases stmts with
  | nil => exact .inr rfl
  | cons s rest =>
    left
    simp only [body, Line.body, List.map_cons]
    split
    · exact begins_append (by decide) _
    · exact begins_append (begins_append (by decide) _) _

/-- A body is ended by the separator, or by the line break of a here-document. -/
theorem Stmt.exists_end_body (stmts : List Stmt) :
    (∃ text, body stmts = text ++ "; ") ∨ ∃ text, body stmts = text ++ "\n" := by
  cases stmts with
  | nil => exact .inl ⟨"", rfl⟩
  | cons s rest =>
    simp only [body, Line.body, List.map_cons]
    split
    · rename_i hbreak
      right
      obtain ⟨text, htext⟩ := exists_of_endsIn hbreak
      exact ⟨" " ++ text, by rw [htext, String.append_assoc]⟩
    · exact .inl ⟨_, rfl⟩

theorem Stmt.begins_body_or (stmts : List Stmt) : beginsIn [' ', ';'] (body stmts) = true := by
  rcases begins_body stmts with hblank | hbare
  · exact begins_of_subset hblank (by simp)
  · rw [hbare]
    decide

theorem Stmt.ends_body (stmts : List Stmt) : endsIn [' ', '\n'] (body stmts) = true := by
  rcases exists_end_body stmts with ⟨text, htext⟩ | ⟨text, htext⟩
  · rw [htext]
    exact ends_append (by decide) text
  · rw [htext]
    exact ends_append (by decide) text

/-- What stands between a keyword or brace and the next. -/
inductive Enclosed where
  | body (stmts : List Stmt)
  | condition (cond : Option Cond)
  | loopHead (head : Option ForHead)

namespace Enclosed

def text : Enclosed → String
  | .body stmts => Stmt.body stmts
  | .condition cond => Cond.print? cond
  | .loopHead head => " " ++ ForHead.print? head ++ "; "

theorem text_list (stmts : List Stmt) :
    (condition (some (.list stmts))).text = Stmt.body stmts := by
  rw [text, Cond.print?, Cond.print, Stmt.printAll_eq, Stmt.body]

theorem text_test (expr : Option Node) (lparen rparen : Pos) :
    (condition (some (.test expr lparen rparen))).text
      = " ((" ++ Node.print? expr ++ ")); " := by
  rw [text, Cond.print?, Cond.print]

theorem begins_text (e : Enclosed) : beginsIn [' ', ';'] e.text = true := by
  cases e with
  | body stmts => exact Stmt.begins_body_or stmts
  | condition cond =>
    cases cond with
    | none => decide
    | some c =>
      cases c with
      | list stmts => exact text_list stmts ▸ Stmt.begins_body_or stmts
      | test expr =>
        rw [text_test]
        exact begins_append (begins_append (by decide) _) _
  | loopHead head => exact begins_append (begins_append (by decide) _) _

theorem ends_text (e : Enclosed) : endsIn [' ', '\n'] e.text = true := by
  cases e with
  | body stmts => exact Stmt.ends_body stmts
  | condition cond =>
    cases cond with
    | none => decide
    | some c =>
      cases c with
      | list stmts => exact text_list stmts ▸ Stmt.ends_body stmts
      | test expr =>
        rw [text_test]
        exact ends_append (by decide) _
  | loopHead head => exact ends_append (by decide) _

end Enclosed

/-! ### The clauses of a construct -/

/-- A keyword or brace, and what it introduces. -/
structure Clause where
  keyword : Token
  inner : Enclosed

def Clause.text (c : Clause) : String := c.keyword.spelling ++ c.inner.text

/-- A row of clauses, and the keyword or brace that closes it, if there is one. -/
structure Construct where
  clauses : List Clause
  closing : Option Token := none

/-- A keyword or brace with the text before and after it. -/
structure Occurrence where
  before : String
  keyword : Token
  after : String
  deriving DecidableEq, Repr

namespace Construct

/-- What the closing keyword writes. -/
def tail (c : Construct) : String := (c.closing.map Token.spelling).getD ""

def text (c : Construct) : String := String.join (c.clauses.map Clause.text) ++ c.tail

def keywords (c : Construct) : List Token := c.clauses.map Clause.keyword ++ c.closing.toList

/-- The keywords of a construct behind the given text. -/
def occurrencesFrom (closing : Option Token) (before : String) : List Clause → List Occurrence
  | [] => closing.toList.map fun t => ⟨before, t, ""⟩
  | c :: rest =>
    ⟨before, c.keyword, c.inner.text ++ text ⟨rest, closing⟩⟩
      :: occurrencesFrom closing (before ++ c.text) rest

def occurrences (c : Construct) : List Occurrence := occurrencesFrom c.closing "" c.clauses

section Occurrences

variable {closing : Option Token} {before : String} {clauses : List Clause} {o : Occurrence}

theorem keyword_occurrencesFrom : (occurrencesFrom closing before clauses).map Occurrence.keyword
    = keywords ⟨clauses, closing⟩ := by
  induction clauses generalizing before with
  | nil => cases closing <;> rfl
  | cons c rest ih => simp [occurrencesFrom, keywords, ih]

theorem text_occurrencesFrom (h : o ∈ occurrencesFrom closing before clauses) :
    o.before ++ o.keyword.spelling ++ o.after = before ++ text ⟨clauses, closing⟩ := by
  induction clauses generalizing before with
  | nil =>
    obtain ⟨t, ht, rfl⟩ := List.mem_map.mp h
    obtain rfl := Option.mem_toList.mp ht
    simp [text, tail]
  | cons c rest ih =>
    rcases List.mem_cons.mp h with rfl | h
    · simp [text, tail, Clause.text, String.append_assoc]
    · rw [ih h]
      simp [text, tail, String.append_assoc]

/-- A keyword is followed by what it introduces, unless it closes the construct. -/
theorem begins_after (h : o ∈ occurrencesFrom closing before clauses) :
    beginsIn [' ', ';'] o.after = true ∨ o.keyword ∈ closing := by
  induction clauses generalizing before with
  | nil =>
    obtain ⟨t, ht, rfl⟩ := List.mem_map.mp h
    exact .inr (Option.mem_toList.mp ht)
  | cons c rest ih =>
    rcases List.mem_cons.mp h with rfl | h
    · exact .inl (begins_append c.inner.begins_text _)
    · exact ih h

/-- Behind a text that keeps the next keyword apart, each keyword is kept apart. -/
theorem ends_before (hbefore : before = "" ∨ endsIn [' ', '\n'] before = true)
    (h : o ∈ occurrencesFrom closing before clauses) :
    o.before = "" ∨ endsIn [' ', '\n'] o.before = true := by
  -- `before` grows by a clause in each step, and so ends with what that clause encloses.
  induction clauses generalizing before with
  | nil =>
    obtain ⟨t, ht, rfl⟩ := List.mem_map.mp h
    exact hbefore
  | cons c rest ih =>
    rcases List.mem_cons.mp h with rfl | h
    · exact hbefore
    · exact ih (.inr (ends_append (ends_append c.inner.ends_text _) _)) h

end Occurrences

end Construct

def Elif.clauses (e : Elif) : List Clause :=
  [⟨.elifWord, .condition e.cond⟩, ⟨.thenWord, .body e.thenStmts⟩]

def Command.construct? : Command → Option Construct
  | .block stmts _ _ => some ⟨[⟨.leftBrace, .body stmts⟩], some .rightBrace⟩
  | .ifClause cond thenStmts elifs elseStmts _ _ =>
    some
      ⟨⟨.ifWord, .condition cond⟩ :: ⟨.thenWord, .body thenStmts⟩ :: elifs.flatMap Elif.clauses
        ++ (if elseStmts.isEmpty then [] else [⟨.elseWord, .body elseStmts⟩]), some .fiWord⟩
  | .whileLoop cond stmts _ _ =>
    some ⟨[⟨.whileWord, .condition cond⟩, ⟨.doWord, .body stmts⟩], some .doneWord⟩
  | .untilLoop cond stmts _ _ =>
    some ⟨[⟨.untilWord, .condition cond⟩, ⟨.doWord, .body stmts⟩], some .doneWord⟩
  | .forLoop head stmts _ _ =>
    some ⟨[⟨.forWord, .loopHead head⟩, ⟨.doWord, .body stmts⟩], some .doneWord⟩
  | _ => none

namespace Node

/-- The node as a row of clauses, if it is a compound command or a branch of one. -/
def construct? : Node → Option Construct
  | .command c => c.construct?
  | .elif e => some { clauses := e.clauses }
  | _ => none

end Node

theorem Elif.text_clauses (e : Elif) : String.join (e.clauses.map Clause.text) = e.print := by
  obtain ⟨cond, thenStmts, pos⟩ := e
  simp [clauses, Clause.text, Enclosed.text, Token.spelling, print, Stmt.body, Stmt.printAll_eq,
    String.append_assoc]

theorem Elif.text_flatMap_clauses (elifs : List Elif) :
    String.join ((elifs.flatMap Elif.clauses).map Clause.text)
      = String.join (Elif.printAll elifs) := by
  induction elifs with
  | nil => rfl
  | cons e rest ih => simp [Elif.printAll, ih, e.text_clauses]

theorem Command.text_of_construct? {c : Command} {construct : Construct}
    (h : c.construct? = some construct) : c.print = construct.text := by
  cases c with
  | block | whileLoop | untilLoop =>
    cases h
    simp [print, Construct.text, Construct.tail, Clause.text, Enclosed.text, Token.spelling,
      Stmt.body, Stmt.printAll_eq, String.append_assoc]
  | forLoop head stmts forPos donePos =>
    cases h
    have hfor : "for " = "for" ++ " " := rfl
    have hdo : "; do" = "; " ++ "do" := rfl
    rw [print, hfor, hdo]
    simp [-String.reduceAppend, Construct.text, Construct.tail, Clause.text, Enclosed.text,
      Token.spelling, Stmt.body, Stmt.printAll_eq, String.append_assoc]
  | ifClause cond thenStmts elifs elseStmts ifPos fiPos =>
    cases h
    cases elseStmts <;>
      simp [print, Construct.text, Construct.tail, Clause.text, Enclosed.text, Token.spelling,
        Stmt.body, Stmt.printAll_eq, String.append_assoc, Elif.text_flatMap_clauses]
  | _ => cases h

namespace Node

/-- The clauses of a construct are its text. -/
theorem text_of_construct? {n : Node} {c : Construct} (h : n.construct? = some c) :
    n.print = c.text := by
  cases n with
  | command command => exact Command.text_of_construct? h
  | elif e =>
    cases h
    simp [print, Construct.text, Construct.tail, e.text_clauses]
  | _ => cases h

theorem isSome_construct?_iff (n : Node) : n.construct?.isSome = true ↔
    n.kind ∈ [.ifClause, .elif, .whileLoop, .untilLoop, .forLoop, .block] := by
  cases n with
  | command c => cases c <;> simp [construct?, Command.construct?, kind, Command.kind]
  | part x | arith x | cond x | forHead x =>
    cases x <;> simp [construct?, kind, Part.kind, Arith.kind, Cond.kind, ForHead.kind]
  | _ => simp [construct?, kind]

theorem closing_of_construct? {n : Node} {c : Construct} (h : n.construct? = some c) :
    ∀ t ∈ c.closing, t ∈ [.fiWord, .doneWord, .rightBrace] := by
  cases n with
  | command command =>
    cases command with
    | block | ifClause | whileLoop | untilLoop | forLoop => cases h; simp
    | _ => cases h
  | elif e => cases h; simp
  | _ => cases h

end Node

/-- A body is never empty, begins with a blank or is the bare separator, and ends with the separator
or with a line break. In the text of a compound command or a branch of one, a keyword or brace that
does not close it is followed by a blank or semicolon, and one that does not begin it is preceded by
a blank or line break. -/
theorem keywords_apart :
    (∀ stmts : List Stmt, Stmt.body stmts ≠ "" ∧
      (beginsIn [' '] (Stmt.body stmts) = true ∨ Stmt.body stmts = "; ") ∧
      ((∃ text, Stmt.body stmts = text ++ "; ") ∨ ∃ text, Stmt.body stmts = text ++ "\n")) ∧
    ∀ n : Node,
      (n.construct?.isSome = true ↔
        n.kind ∈ [.ifClause, .elif, .whileLoop, .untilLoop, .forLoop, .block]) ∧
      ∀ c ∈ n.construct?,
        n.print = c.text ∧ c.occurrences.map Occurrence.keyword = c.keywords ∧
        ∀ o ∈ c.occurrences,
          n.print = o.before ++ o.keyword.spelling ++ o.after ∧
          (o.keyword ∉ [.fiWord, .doneWord, .rightBrace] →
            beginsIn [' ', ';'] o.after = true) ∧
          (o.before ≠ "" → endsIn [' ', '\n'] o.before = true) := by
  refine ⟨fun stmts => ⟨?_, Stmt.begins_body stmts, Stmt.exists_end_body stmts⟩, fun n => ?_⟩
  · intro hempty
    have hbegins := Stmt.begins_body_or stmts
    rw [hempty] at hbegins
    exact absurd hbegins (by decide)
  · refine ⟨n.isSome_construct?_iff, fun c hc => ?_⟩
    have htext := Node.text_of_construct? hc
    refine ⟨htext, Construct.keyword_occurrencesFrom, fun o ho => ⟨?_, fun hopens => ?_, ?_⟩⟩
    · rw [Construct.text_occurrencesFrom ho, htext, String.empty_append]
    · rcases Construct.begins_after ho with hbegins | hcloses
      · exact hbegins
      · exact absurd (Node.closing_of_construct? hc _ hcloses) hopens
    · exact (Construct.ends_before (.inl rfl) ho).resolve_left

/-- A branch behind a here-document, with a test and an empty body. -/
theorem keywords_apart_branch : ∃ n : Node, ∃ c ∈ n.construct?, ∃ o ∈ c.occurrences,
    n.print = "if; then cat <<E\nelif (()); then; fi" ∧
    c.keywords = [.ifWord, .thenWord, .elifWord, .thenWord, .fiWord] ∧
    o = ⟨"if; then cat <<E\n", .elifWord, " (()); then; fi"⟩ ∧
    o.keyword ∉ [.fiWord, .doneWord, .rightBrace] ∧ o.before ≠ "" ∧
    beginsIn [' ', ';'] o.after = true ∧ endsIn [' ', '\n'] o.before = true := by
  let heredoc : Stmt :=
    { command := some (.simple [.ofLit "cat"])
      redirs := [{ op := .lessLess, word := .ofLit "E" }] }
  let n : Node := .command
    (.ifClause none [heredoc] [⟨some (.test none {} {}), [], {}⟩] [] {} {})
  let o : Occurrence := ⟨"if; then cat <<E\n", .elifWord, " (()); then; fi"⟩
  obtain ⟨-, nodes⟩ := keywords_apart
  obtain ⟨-, constructs⟩ := nodes n
  obtain ⟨-, -, occurrences⟩ := constructs _ rfl
  have inside : o ∈ (n.construct?.get rfl).occurrences := by
    decide
  obtain ⟨-, begins, ends⟩ := occurrences o inside
  exact ⟨n, _, rfl, o, inside, by decide, by decide, rfl, by decide, by decide,
    begins (by decide), ends (by decide)⟩

end ShellSyntax
