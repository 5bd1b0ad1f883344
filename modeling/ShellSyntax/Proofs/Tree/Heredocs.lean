import ShellSyntax.Proofs.Tree.Followers

/-!
# Here-documents in a statement list

* `Lists.continues_behind`: what stands behind a statement list does not begin with a line break;
* `print_around_statement`: so a line break stands behind a statement of a list exactly if the
  statement itself has a here-document, whatever the body of a function that it declares may have.
-/

namespace ShellSyntax

/-! ### Behind a list -/

/-- The text begins with a character that is no line break. -/
def continues (s : String) : Bool := s.toList.head?.any (· ≠ '\n')

theorem continues_append {s : String} (h : continues s = true) (t : String) :
    continues (s ++ t) = true := by
  rw [continues, String.toList_append]
  rw [continues] at h
  cases hs : s.toList with
  | nil => simp [hs] at h
  | cons c l => simpa [hs] using h

theorem ne_of_continues {s : String} (h : continues s = true) (rest : String) :
    s ≠ "\n" ++ rest := by
  rintro rfl
  simp [continues] at h

theorem continues_of_begins {chars : List Char} {s : String} (h : beginsIn chars s = true)
    (hbreak : '\n' ∉ chars) : continues s = true := by
  obtain ⟨c, hc, hhead⟩ := beginsIn_iff.mp h
  rw [continues, hhead, Option.any_some, decide_eq_true_iff]
  rintro rfl
  exact hbreak hc

/-- A separator, a keyword or a closing mark stands behind a list, or nothing. -/
theorem Node.Lists.continues_behind {n : Node} {stmts : List Stmt} {before after : String}
    (h : n.Lists stmts before after) (hne : stmts ≠ []) : continues after = true ∨ after = "" := by
  have closing {s : String} (hs : ClosesList s) : continues s = true ∨ s = "" :=
    hs.symm.imp_left fun hbegins => continues_of_begins hbegins (by decide)
  rcases h.follows hne with hbody | hentry | hafter
  · obtain ⟨rest, rfl, hrest⟩ := hbody.follows hne
    split
    · simpa using closing hrest
    · exact .inl (continues_append (by decide) _)
  · exact .inl (continues_of_begins hentry.follows (by decide))
  · exact closing hafter

/-! ### Here-documents -/

/-- The statement has a here-document, or is a function whose body carries one. -/
inductive Stmt.CarriesHeredoc : Stmt → Prop
  | own {s : Stmt} (h : s.hasHeredoc = true) : CarriesHeredoc s
  | function {s body : Stmt} {name : Lit} {keyword : Bool} {pos : Pos}
      (h : s.command = some (.function name body keyword pos)) (hbody : CarriesHeredoc body) :
      CarriesHeredoc s

/-- The text of the tree around a statement of one of its lists. -/
theorem Node.Lists.print_around {n : Node} {front back : List Stmt} {s : Stmt}
    {before after : String} (h : n.Lists (front ++ s :: back) before after) :
    n.print = before ++ Stmt.lead front ++ s.print
      ++ (if s.hasHeredoc then "\n" else if back = [] then "" else "; ")
      ++ Stmt.join true back ++ after := by
  rw [h.print_eq, Stmt.join_append_cons]
  simp only [Stmt.terminator, List.isEmpty_iff, String.append_assoc]

/-- Behind a statement without a here-document the text does not break. -/
theorem Node.Lists.continues_behind_statement {n : Node} {front back : List Stmt} {s : Stmt}
    {before after : String} (h : n.Lists (front ++ s :: back) before after) :
    let behind := (if back = [] then "" else "; ") ++ Stmt.join true back ++ after
    continues behind = true ∨ behind = "" := by
  cases back with
  | nil =>
    simpa using h.continues_behind (by simp)
  | cons t back =>
    rw [if_neg (List.cons_ne_nil t back), String.append_assoc]
    exact .inl (continues_append (by decide) _)

/-- In an accepted tree every statement list has its place in the text. There a statement with a
here-document is followed by a line break. Any other is followed by a semicolon and blank, or by the
end of the list: so a line break stands behind a statement only if it has a here-document itself,
even if it is a function whose body carries one. -/
theorem print_around_statement (n : Node) (r : Reporter) (accepted : (n.check r).ok = true) :
    (∀ m ∈ n.walk, ∀ stmts ∈ m.stmtLists, ∃ before after, n.Lists stmts before after) ∧
    ∀ stmts before after, n.Lists stmts before after → ∀ front s back, stmts = front ++ s :: back →
      n.print = before ++ Stmt.lead front ++ s.print
        ++ (if s.hasHeredoc then "\n" else if back = [] then "" else "; ")
        ++ Stmt.join true back ++ after ∧
      ((∃ rest, n.print = before ++ Stmt.lead front ++ s.print ++ "\n" ++ rest) ↔
        s.hasHeredoc = true) := by
  constructor
  · intro m hm stmts hs
    have whole : ∀ m ∈ n.walk, m.ShownWhole := fun m hm =>
      Node.shownWhole_of_violations (Node.check_ok_iff.mp accepted m hm)
    exact Node.exists_lists whole hm hs
  · rintro stmts before after hlists front s back rfl
    have hprint := hlists.print_around
    refine ⟨hprint, ?_⟩
    cases hs : s.hasHeredoc with
    | true =>
      refine iff_of_true ⟨Stmt.join true back ++ after, ?_⟩ rfl
      rw [hprint, if_pos hs, String.append_assoc]
    | false =>
      refine iff_of_false ?_ Bool.false_ne_true
      rintro ⟨rest, hrest⟩
      have hbehind : (if back = [] then "" else "; ") ++ Stmt.join true back ++ after
          = "\n" ++ rest := by
        simpa [hprint, hs, String.append_assoc] using hrest
      rcases hlists.continues_behind_statement with hcontinues | hempty
      · exact ne_of_continues hcontinues rest hbehind
      · simp [hempty, String.ext_iff] at hbehind

/-- The here-document in a block ends its line there. -/
theorem print_around_statement_block : ∃ (n : Node) (s t : Stmt) (before after : String),
    n.print = "\x7b cat <<EOF\nb; \x7d" ∧ (n.check {}).ok = true ∧ n.Lists [s, t] before after ∧
      s.hasHeredoc = true ∧
      n.print = before ++ Stmt.lead [] ++ s.print ++ "\n" ++ Stmt.join true [t] ++ after := by
  let s : Stmt :=
    { command := some (.simple [.ofLit "cat"])
      redirs := [{ op := .lessLess, word := .ofLit "EOF" }] }
  let t : Stmt := { command := some (.simple [.ofLit "b"]) }
  let block : Command := .block [s, t] {} {}
  let n : Node := .stmt { command := some block }
  have accepted : (n.check {}).ok = true := by
    decide +kernel
  have inside : Node.command block ∈ n.walk := by
    rw [Node.walk_eq]
    refine List.mem_cons_of_mem _ (List.mem_flatMap.mpr ⟨_, List.mem_singleton_self _, ?_⟩)
    rw [Node.walk_eq]
    exact List.mem_cons_self
  obtain ⟨lists, behind⟩ := print_around_statement n {} accepted
  obtain ⟨before, after, hlists⟩ := lists _ inside [s, t] (List.mem_singleton_self _)
  exact ⟨n, s, t, before, after, by decide, accepted, hlists, rfl,
    (behind [s, t] before after hlists [] s [t] rfl).1⟩

/-- The first statement reads like the second and ends in a here-document like it, but only the
second is followed by a line break: there the statement has the here-document, not the body. -/
theorem heredoc_of_body_unbroken : ∃ (n : Node) (s t : Stmt),
    (n.check {}).ok = true ∧ n.Lists [s, t] "" "" ∧ s.CarriesHeredoc ∧ t.CarriesHeredoc ∧
      s.print = "f() cat <<EOF" ∧ t.print = "f() cat <<EOF" ∧
      n.print = s.print ++ "; " ++ t.print ++ "\n" := by
  let heredoc : Redirect := { op := .lessLess, word := .ofLit "EOF" }
  let cat : Command := .simple [.ofLit "cat"]
  let body : Stmt := { command := some cat, redirs := [heredoc] }
  let s : Stmt := { command := some (.function ⟨"f", {}⟩ body false {}) }
  let t : Stmt :=
    { command := some (.function ⟨"f", {}⟩ { command := some cat } false {}), redirs := [heredoc] }
  let n : Node := .file { stmts := [s, t] }
  have place : n.Lists [s, t] "" "" := by
    simpa using Node.Lists.intro (.self n) (List.mem_singleton_self _)
  exact ⟨n, s, t, by decide +kernel, place, .function rfl (.own rfl), .own rfl, by decide,
    by decide, by decide⟩

end ShellSyntax
