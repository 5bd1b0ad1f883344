import ShellSyntax.Proofs.Tree.Statements

/-!
# Statement lists one behind the other

* `Stmt.join_concat_cons`: a list in two parts, at the last statement of the first;
* `Stmt.join_append`: so joining two lists joins each of them, with a line break in between if a
  here-document ends the first, and `; ` otherwise.
-/

namespace ShellSyntax

namespace Stmt

variable {s : Stmt}

theorem hasHeredoc_iff :
    s.hasHeredoc = true ↔ ∃ r ∈ s.redirs, r.op = .lessLess ∨ r.op = .lessLessDash := by
  simp [hasHeredoc, Token.heredocs]

/-- Nothing ends a list that is left open. -/
theorem join_false_concat (front : List Stmt) (s : Stmt) :
    join false (front ++ [s]) = lead front ++ s.print := by
  rw [join_lead]
  simp [join, Line.join, Line.ending, line]

theorem join_true_concat (front : List Stmt) (s : Stmt) :
    join true (front ++ [s]) = join false (front ++ [s]) ++ if s.hasHeredoc then "\n" else "" := by
  rw [join_false_concat, join_lead, String.append_assoc]
  simp [join, Line.join, Line.ending, line]

/-- Behind its first part, a list goes on as its second part alone. -/
theorem join_concat_cons (closed : Bool) (front back : List Stmt) (s t : Stmt) :
    join closed (front ++ [s] ++ t :: back)
      = join false (front ++ [s]) ++ (if s.hasHeredoc then "\n" else "; ")
        ++ join closed (t :: back) := by
  rw [List.append_assoc, List.singleton_append, join_lead, join_false_concat]
  simp [join, Line.join, Line.separator, line, String.append_assoc]

/-- Two lists, one behind the other, are joined as each of them is, the first of them left open: a
line break follows its last statement if that has a here-document, and `; ` otherwise. A list that
is closed gets a line break more than one that is left open, and nothing else, exactly if its last
statement has a here-document. -/
theorem join_append {xs ys : List Stmt} (hx : xs ≠ []) (hy : ys ≠ []) (closed : Bool) :
    let last := xs.getLast hx
    (last.hasHeredoc = true ↔ ∃ r ∈ last.redirs, r.op = .lessLess ∨ r.op = .lessLessDash) ∧
    join closed (xs ++ ys)
      = join false xs ++ (if last.hasHeredoc then "\n" else "; ") ++ join closed ys ∧
    join true xs = join false xs ++ (if last.hasHeredoc then "\n" else "") ∧
    (join true xs = join false xs ++ "\n" ↔ last.hasHeredoc = true) := by
  intro last
  obtain ⟨t, back, rfl⟩ := List.exists_cons_of_ne_nil hy
  have hxs : xs.dropLast ++ [last] = xs := List.dropLast_concat_getLast hx
  have hends : join true xs = join false xs ++ if last.hasHeredoc then "\n" else "" := by
    rw [← hxs]
    exact join_true_concat _ _
  refine ⟨hasHeredoc_iff, ?_, hends, ?_⟩
  · rw [← hxs]
    exact join_concat_cons closed _ back last t
  · cases hlast : last.hasHeredoc with
    | true => simp [hends, hlast]
    | false =>
      simp only [hends, hlast, Bool.false_eq_true, if_false, iff_false]
      intro hsame
      simpa using congrArg String.length hsame

/-- Each of the two lists ends with a here-document, the second behind the first. -/
theorem join_append_heredocs :
    let a : Stmt := { command := some (.simple [.ofLit "a"]) }
    let b : Stmt := { a with redirs := [{ op := .lessLess, word := .ofLit "E" }] }
    [a, b] ≠ [] ∧ [b] ≠ [] ∧ b.hasHeredoc = true ∧ join false [a, b] = "a; a <<E" ∧
      join true [b] = "a <<E\n" ∧ join true ([a, b] ++ [b]) = "a; a <<E" ++ "\n" ++ "a <<E\n" ∧
      join true [a, b] = "a; a <<E" ++ "\n" := by
  intro a b
  have hab : [a, b] ≠ [] := List.cons_ne_nil a [b]
  have hb : [b] ≠ [] := List.cons_ne_nil b []
  have hopen : join false [a, b] = "a; a <<E" := by
    decide
  have hclosed : join true [b] = "a <<E\n" := by
    decide
  obtain ⟨-, hjoin, -, hends⟩ := join_append hab hb true
  rw [hopen, hclosed] at hjoin
  rw [hopen] at hends
  exact ⟨hab, hb, rfl, hopen, hclosed, hjoin, hends.mpr rfl⟩

end Stmt

end ShellSyntax
