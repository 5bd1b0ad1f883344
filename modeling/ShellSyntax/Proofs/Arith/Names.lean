import Mathlib.Tactic.TFAE
import ShellSyntax.Proofs.Arith.Grouping
import ShellSyntax.Proofs.Tree.Traversal

/-!
# Names of variables

* `check_assign_ok_iff`: the texts that a check takes as the name of an assignment;
* `scan_eq_name_iff`: the texts that are scanned as one name;
* `parse_assigned_name`, `isName_of_parse_assigned`: the texts that can be assigned to;
* `name_tfae`: these are the same texts.
-/

namespace ShellSyntax

/-! ### In a check -/

theorem check_assign_ok_iff {a : Assign} {name : Lit} (h : a.name = some name) (r : Reporter) :
    ((Node.assign a).check r).ok = true ↔
      IsName name.value ∧ ((Node.word a.value).check r).ok = true := by
  have hname : ∀ m ∈ (Node.lit name).walk, m.violations = [] := by
    simp [Node.walk_eq, Node.children, Part.children, Node.violations]
  have hself : (Node.assign a).violations = [] ↔ IsName name.value := by
    simp [Node.violations, Assign.violations, h, Violation.when_eq_nil_iff]
  have hchildren : (Node.assign a).children = [.lit name, .word a.value] := by
    simp [Node.children, h]
  rw [Node.check_ok_iff, Node.check_ok_iff, Node.forall_mem_walk_iff, hself, hchildren,
    List.forall_mem_cons, List.forall_mem_singleton]
  exact and_congr_right fun _ => and_iff_right hname

/-! ### In a scan -/

theorem scan_eq_name_iff {s : String} :
    (∃ pos, scan s = [.lexeme (.name s) pos]) ↔ IsName s := by
  constructor
  · rintro ⟨pos, hscan⟩
    exact wellSpelled_of_scan (hscan ▸ List.mem_singleton_self _)
  · intro hs
    have hspells : Spells [.name s] s.toList := by
      simpa [Lexeme.spelling, Lexeme.value] using
        Spells.lexeme (l := .name s) hs (by simp [Lexeme.EndsAt]) .nil
    obtain ⟨l, hscan, hl⟩ := scan_of_spells hspells
    obtain ⟨⟨lexeme, pos⟩, rfl, rfl⟩ := List.map_eq_singleton_iff.mp hl
    exact ⟨pos, hscan⟩

/-! ### In an assignment -/

/-- In front of `=1`, a name, number or parameter ends. -/
theorem spells_assigned {l : Lexeme} (hl : l.WellSpelled) (hno : ∀ op, l ≠ .op op) :
    Spells [l, .op .equal, .number "1"] (l.spelling ++ "=1").toList := by
  have hone : Spells [.number "1"] ['1'] :=
    .lexeme (l := .number "1") (.inl (by decide)) (by simp [Lexeme.EndsAt]) .nil
  have hassign : (Lexeme.op .equal).EndsAt ['1'] := by
    apply Lexeme.endsAt_of_followers
    intro c hc
    obtain rfl : '1' = c := Option.some.inj hc
    decide
  have hequal : Spells [.op .equal, .number "1"] ['=', '1'] :=
    .lexeme (l := .op .equal) (List.elem_iff.mp rfl) hassign hone
  have hstop : isNameChar '=' = false := by
    decide
  have hends : l.EndsAt ['=', '1'] := by
    intro c hc
    obtain rfl : '=' = c := Option.some.inj hc
    cases l with
    | op t => exact absurd rfl (hno t)
    | name | number | param => exact hstop
  rw [String.toList_append]
  exact .lexeme hl hends hequal

theorem scan_assigned {l : Lexeme} (hl : l.WellSpelled) (hno : ∀ op, l ≠ .op op) :
    ∃ p o q, scan (l.spelling ++ "=1")
      = Placed.scanned [(l, p), (.op .equal, o), (.number "1", q)] := by
  obtain ⟨placed, hscan, hplaced⟩ := scan_of_spells (spells_assigned hl hno)
  obtain ⟨⟨first, p⟩, more, rfl, rfl, hmore⟩ := List.map_eq_cons_iff.mp hplaced
  obtain ⟨⟨second, o⟩, last, rfl, rfl, hlast⟩ := List.map_eq_cons_iff.mp hmore
  obtain ⟨⟨third, q⟩, rfl, rfl⟩ := List.map_eq_singleton_iff.mp hlast
  exact ⟨p, o, q, hscan⟩

/-- Such a text is read as an assignment, which may be at fault. -/
theorem parse_assigned {text : String} {l : Lexeme} {x : Arith} {p o q : Pos}
    (hl : l.operand? p = some x)
    (hscan : scan text = Placed.scanned [(l, p), (.op .equal, o), (.number "1", q)]) :
    Arith.parse text =
      { built := some (.binary .equal (some x) (some (.word (.ofLit "1" q))) o)
        errors := (Waiting.infixOp x .equal o).errors } := by
  have hreads : Reads 1 {} [(l, p), (.op .equal, o), (.number "1", q)] ([] ++ ([] ++ []))
      ⟨[], [.waiting (.infixOp x .equal o)], some (.word (.ofLit "1" q))⟩ :=
    .cons (.operand hl) (.cons (.infixed rfl rfl) (.single (.operand rfl)))
  rw [Arith.parse, readParts_of_reads hscan hreads rfl]
  simp [settle, Waiting.apply]

/-- The target is one name exactly if the assignment is not at fault. -/
theorem errors_assigned_eq_nil_iff {s : String} {p o : Pos} :
    (Waiting.infixOp (.word (.ofLit s p)) .equal o).errors = [] ↔ Lexeme.ofValue s = .name s := by
  simp [Waiting.errors, Arith.assignable, Word.ofLit, Lexeme.ofValue, Token.assignments]

theorem parse_assigned_name {s : String} (hs : IsName s) : ∃ p o q, Arith.parse (s ++ "=1") =
    { built := some (.binary .equal (some (.word (.ofLit s p))) (some (.word (.ofLit "1" q))) o)
      errors := [] } := by
  obtain ⟨p, o, q, hscan⟩ := scan_assigned (l := .name s) hs (by simp)
  refine ⟨p, o, q, ?_⟩
  rw [← errors_assigned_eq_nil_iff.mpr (Lexeme.ofValue_name hs)]
  exact parse_assigned rfl hscan

/-- A literal in front of `=1` is a name or a number, and a number is nothing to assign to. -/
theorem isName_of_parse_assigned {l : Lit} {op : Token} {right : Option Arith} {pos : Pos}
    (h : (Arith.parse (l.value ++ "=1")).tree
      = some (.binary op (some (.word ⟨[.lit l]⟩)) right pos)) : IsName l.value := by
  have hparse := Reading.tree_eq_some_iff.mp h
  obtain ⟨legal, -⟩ := Arith.whole_of_parse hparse
  obtain ⟨t, hw, hspelled⟩ : ∃ t, Word.token? ⟨[.lit l]⟩ = some t ∧ t.1.WellSpelled := by
    cases legal with
    | binary _ hx _ =>
      cases hx with
      | word hw hspelled => exact ⟨_, hw, hspelled⟩
  obtain ⟨hprint, hno⟩ := Word.print_of_token? hw
  obtain rfl : t = (.ofValue l.value, l.pos) := (Option.some.inj hw).symm
  have hspelling : (Lexeme.ofValue l.value).spelling = l.value := by
    simpa [Word.print, Part.printAll, Part.print] using hprint.symm
  obtain ⟨p, o, q, hscan⟩ := scan_assigned hspelled hno
  have hx : (Lexeme.ofValue l.value).operand? p = some (.word (.ofLit l.value p)) := by
    unfold Lexeme.ofValue
    split <;> rfl
  have hfree : (Waiting.infixOp (.word (.ofLit l.value p)) .equal o).errors = [] := by
    rw [hspelling] at hscan
    exact congrArg Reading.errors ((parse_assigned hx hscan).symm.trans hparse)
  rw [errors_assigned_eq_nil_iff.mp hfree] at hspelled
  exact hspelled

/-! ### The three notions -/

/-- Of a text, these are the same: a check accepts some assignment with this name, and every one
with a value that it accepts; the text is scanned as one name, and the name is the whole text; with
`=1` behind it, the text is read as an operator with this text as its left operand, and then as the
assignment of `1` to it. -/
theorem name_tfae (s : String) : List.TFAE
    [∃ a : Assign, a.name.map Lit.value = some s ∧ ((Node.assign a).check {}).ok = true,
      ∀ a : Assign, a.name.map Lit.value = some s → ((Node.word a.value).check {}).ok = true →
        ((Node.assign a).check {}).ok = true,
      ∃ pos, scan s = [.lexeme (.name s) pos],
      ∃ l op right pos, l.value = s ∧ (Arith.parse (s ++ "=1")).tree
        = some (.binary op (some (.word ⟨[.lit l]⟩)) right pos),
      ∃ p o q, Arith.parse (s ++ "=1") =
        { built := some (.binary .equal (some (.word (.ofLit s p))) (some (.word (.ofLit "1" q))) o)
          errors := [] }] := by
  tfae_have 1 → 3 := by
    rintro ⟨a, ha, hok⟩
    obtain ⟨name, hname, rfl⟩ := Option.map_eq_some_iff.mp ha
    exact scan_eq_name_iff.mpr ((check_assign_ok_iff hname {}).mp hok).1
  tfae_have 3 → 2 := by
    intro hscan a ha hvalue
    obtain ⟨name, hname, rfl⟩ := Option.map_eq_some_iff.mp ha
    exact (check_assign_ok_iff hname {}).mpr ⟨scan_eq_name_iff.mp hscan, hvalue⟩
  tfae_have 2 → 1 := by
    intro hall
    have hempty : ((Node.word {}).check {}).ok = true := by
      decide +kernel
    exact ⟨{ value := {}, name := some { value := s } }, rfl, hall _ rfl hempty⟩
  tfae_have 3 → 5 := by
    intro hscan
    exact parse_assigned_name (scan_eq_name_iff.mp hscan)
  tfae_have 5 → 4 := by
    rintro ⟨p, o, q, hparse⟩
    exact ⟨⟨s, p⟩, _, _, _, rfl, Reading.tree_eq_some_iff.mpr hparse⟩
  tfae_have 4 → 3 := by
    rintro ⟨l, op, right, pos, rfl, htree⟩
    exact scan_eq_name_iff.mpr (isName_of_parse_assigned htree)
  tfae_finish

end ShellSyntax
