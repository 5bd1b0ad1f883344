import ShellSyntax.Proofs.Tree.Heredocs

/-!
# Statements in the background

* `Stmt.exists_print_background`: the text of a statement in the background ends with its marker;
* `semicolon_behind_background`: the marker is followed by a semicolon like the end of any other
  statement, unless a here-document ends the line or neither a statement nor a separator follows;
* `background_marker_terminated`: so two of them are separated by both.
-/

namespace ShellSyntax

theorem Stmt.exists_print_background {s : Stmt} (h : s.background = true) :
    ∃ text, s.print = text ++ "&" := by
  obtain ⟨command, negated, assigns, redirs, background, pos⟩ := s
  obtain rfl : background = true := h
  exact exists_spaced_concat (by decide) _

namespace Node

variable {n : Node} {front back : List Stmt} {s : Stmt} {before after : String}

/-- The text of a list with such a statement at its end does not end with a line break. -/
theorem endsIn_join_background (hs : s.background = true) (hheredoc : s.hasHeredoc = false) :
    endsIn ['\n'] (Stmt.join true (front ++ [s])) = false := by
  obtain ⟨text, htext⟩ := Stmt.exists_print_background hs
  rw [Stmt.join_concat, Stmt.terminator_of_not_heredoc hheredoc, String.append_empty, htext,
    ← String.append_assoc, endsIn_fixed (by decide)]
  decide

/-- Behind the last statement of a list a semicolon stands if its node or the parent separates it
from what follows. -/
theorem Lists.semicolon_behind_last (h : n.Lists (front ++ [s]) before after)
    (hs : s.background = true) (hheredoc : s.hasHeredoc = false) :
    beginsIn [';'] after = true ↔
      n.ListsBody (front ++ [s]) before after ∨ n.ListsEntry (front ++ [s]) before after := by
  have hne : front ++ [s] ≠ [] := by
    simp
  constructor
  · intro hafter
    rcases h.follows hne with hbody | hentry | hcloses
    · exact .inl hbody
    · exact .inr hentry
    · rw [hcloses.not_begins (by decide)] at hafter
      cases hafter
  · rintro (hbody | hentry)
    · obtain ⟨rest, rfl, -⟩ := hbody.follows hne
      rw [endsIn_join_background hs hheredoc]
      exact begins_append (by decide) rest
    · exact hentry.follows

end Node

/-- In an accepted tree every statement list has its place in the text. There a semicolon follows the
marker of a statement in the background if another statement follows, or if the list is the body
between keywords or braces or an entry of a case clause. Only a here-document, or a parenthesis,
quote or the end of the file behind the list, keeps it away. -/
theorem semicolon_behind_background (n : Node) (r : Reporter) (accepted : (n.check r).ok = true) :
    (∀ m ∈ n.walk, ∀ stmts ∈ m.stmtLists, ∃ before after, n.Lists stmts before after) ∧
    ∀ stmts before after, n.Lists stmts before after →
      ∀ front s back, stmts = front ++ s :: back → s.background = true →
      ∃ text behind, s.print = text ++ "&" ∧
        n.print = before ++ Stmt.lead front ++ text ++ "&" ++ behind ∧
        (beginsIn [';'] behind = true ↔ s.hasHeredoc = false ∧
          (back ≠ [] ∨ n.ListsBody stmts before after ∨ n.ListsEntry stmts before after)) := by
  have whole := Node.shownWhole_of_check accepted
  refine ⟨fun m hm stmts hs => Node.exists_lists whole hm hs, ?_⟩
  rintro stmts before after hlists front s back rfl hs
  obtain ⟨text, htext⟩ := Stmt.exists_print_background hs
  refine ⟨text, (if s.hasHeredoc then "\n" else if back = [] then "" else "; ")
    ++ Stmt.join true back ++ after, htext, ?_, ?_⟩
  · rw [hlists.print_around, htext]
    simp only [String.append_assoc]
  · cases hheredoc : s.hasHeredoc with
    | true =>
      rw [if_pos rfl, String.append_assoc, beginsIn_fixed (by decide)]
      exact iff_of_false (by decide) (by simp)
    | false =>
      rw [if_neg Bool.false_ne_true]
      cases back with
      | nil =>
        simpa using hlists.semicolon_behind_last hs hheredoc
      | cons t back =>
        rw [if_neg (List.cons_ne_nil t back), String.append_assoc, beginsIn_fixed (by decide)]
        exact iff_of_true (by decide) ⟨rfl, .inl (List.cons_ne_nil t back)⟩

/-- The brace behind the list keeps its semicolon. -/
theorem semicolon_behind_background_block : ∃ (n : Node) (s : Stmt) (before after : String),
    n.print = "\x7b a &; \x7d" ∧ (n.check {}).ok = true ∧ n.Lists [s] before after ∧
      s.background = true ∧ s.hasHeredoc = false ∧ n.ListsBody [s] before after ∧
      ∃ text behind, s.print = text ++ "&" ∧
        n.print = before ++ Stmt.lead [] ++ text ++ "&" ++ behind ∧
        beginsIn [';'] behind = true := by
  let s : Stmt := { command := some (.simple [.ofLit "a"]), background := true }
  let n : Node := .command (.block [s] {} {})
  have accepted : (n.check {}).ok = true := by
    decide +kernel
  have place := Node.Lists.intro (.self n) (List.mem_singleton_self _)
  have body := Node.ListsBody.intro (.self n) (List.mem_singleton_self _) rfl
  obtain ⟨text, behind, htext, hprint, hsemicolon⟩ :=
    (semicolon_behind_background n {} accepted).2 _ _ _ place [] s [] rfl rfl
  exact ⟨n, s, _, _, by decide, accepted, place, rfl, rfl, body, text, behind, htext, hprint,
    hsemicolon.mpr ⟨rfl, .inr (.inl body)⟩⟩

/-- In a list, between braces and in a case clause, the marker that ends the statement is followed
by a semicolon. -/
theorem background_marker_terminated : ∃ s t : Stmt,
    let file : Node := .file { stmts := [s, t] }
    let block : Node := .command (.block [s] {} {})
    let clause : Node := .command (.caseClause (.ofLit "x") [⟨[.ofLit "x"], [s]⟩] {} {})
    (∀ n ∈ [file, block, clause], (n.check {}).ok = true) ∧
      s.background = true ∧ s.print = "a &" ∧ t.print = "b" ∧
      Stmt.join true [s, t] = "a &; b" ∧ file.print = "a &; b" ∧
      block.print = "\x7b a &; \x7d" ∧ clause.print = "case x in x) a &; esac" :=
  ⟨{ command := some (.simple [.ofLit "a"]), background := true },
    { command := some (.simple [.ofLit "b"]) }, by decide +kernel, rfl, by decide, by decide,
    by decide, by decide, by decide, by decide⟩

end ShellSyntax
