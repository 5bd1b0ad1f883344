import ShellSyntax.Proofs.Arith.Completeness

/-!
# Reading what was printed

The text of an expression that was read is read as the same expression, and so is the head of a
counting loop (`parse_print`). Only the positions may differ.
-/

namespace ShellSyntax

namespace Arith

theorem spells_print? {p : Option Arith} (hp : ∀ x ∈ p, x.Legal) {ls : List Lexeme}
    {rest : List Char} (hr : Spells ls rest) (hc : Closes rest) :
    Spells (lexemes? p ++ ls) ((print? p).toList ++ rest) := by
  cases p with
  | none => exact hr
  | some x => exact spells_print (hp x rfl) hr hc

end Arith

theorem spells_semicolon {ls : List Lexeme} {rest : List Char} (h : Spells ls rest) :
    Spells (.op .semicolon :: ls) (';' :: ' ' :: rest) :=
  .lexeme (l := .op .semicolon) (List.elem_iff.mp rfl) (Lexeme.endsAt_of_final _ (by decide))
    (.blank (by simp) h)

namespace CountLoop

/-- The text of the loop without its parentheses. -/
def inner (l : CountLoop) : String :=
  Arith.print? l.init ++ "; " ++ Arith.print? l.cond ++ "; " ++ Arith.print? l.step

theorem print_eq (l : CountLoop) : l.print = "((" ++ l.inner ++ "))" := by
  cases l
  simp only [print, inner, String.append_assoc]

theorem spells_inner {l : CountLoop} (h : Arith.SoundParts [l.init, l.cond, l.step]) :
    Spells (Arith.separated [l.init, l.cond] ++ Arith.lexemes? l.step) l.inner.toList := by
  have legal : ∀ p ∈ [l.init, l.cond, l.step], ∀ x ∈ p, x.Legal := fun p hp x hx => (h p hp x hx).1
  have hstep : Spells (Arith.lexemes? l.step ++ []) ((Arith.print? l.step).toList ++ []) :=
    Arith.spells_print? (legal _ (by simp)) .nil (by simp [Closes])
  rw [List.append_nil, List.append_nil] at hstep
  have hcond := Arith.spells_print? (legal l.cond (by simp)) (spells_semicolon hstep)
    (by simp [Closes])
  have hinit := Arith.spells_print? (legal l.init (by simp)) (spells_semicolon hcond)
    (by simp [Closes])
  simpa [Arith.separated, inner] using hinit

end CountLoop

/-- What is read is read again from its text, without complaint and up to its positions. -/
theorem parse_print :
    (∀ (text : String) (t : Arith), (Arith.parse text).tree = some t →
      ∃ u, Arith.parse t.print = { built := some u, errors := [] } ∧ u.unplaced = t.unplaced ∧
        u.print = t.print) ∧
    (∀ (text : String) (l : CountLoop), (CountLoop.parse text).tree = some l →
      ∃ inner u, l.print = "((" ++ inner ++ "))" ∧
        CountLoop.parse inner = { built := some u, errors := [] } ∧ u.unplaced = l.unplaced ∧
        u.print = l.print) := by
  constructor
  · intro text t h
    obtain ⟨legal, grouped, faults, -⟩ := Arith.whole_of_parse (Reading.tree_eq_some_iff.mp h)
    have hspells := Arith.spells_print legal .nil (by simp [Closes])
    rw [List.append_nil, List.append_nil] at hspells
    obtain ⟨lexemes, hscan, hlexemes⟩ := scan_of_spells hspells
    obtain ⟨u, hparse, hu⟩ := Arith.parse_of_scan legal grouped faults hscan hlexemes
    refine ⟨u, hparse, hu, ?_⟩
    rw [← u.print_unplaced, hu, t.print_unplaced]
  · intro text l h
    obtain ⟨sound, faults⟩ := CountLoop.whole_of_parse (Reading.tree_eq_some_iff.mp h)
    obtain ⟨lexemes, hscan, hlexemes⟩ := scan_of_spells (CountLoop.spells_inner sound)
    obtain ⟨u, hparse, hu⟩ := CountLoop.parse_of_scan sound faults hscan hlexemes
    refine ⟨l.inner, u, l.print_eq, hparse, hu, ?_⟩
    rw [← u.print_unplaced, hu, l.print_unplaced]

/-- A sign in front of a sign keeps its blank, and empty parts keep their semicolons. -/
theorem parse_print_signs :
    (∃ t, (Arith.parse "- -a++").tree = some t ∧
      ∃ u, Arith.parse t.print = { built := some u, errors := [] } ∧ u.unplaced = t.unplaced ∧
        u.print = t.print) ∧
    (∃ l, (CountLoop.parse ";; i++ ++").tree = some l ∧
      ∃ inner u, l.print = "((" ++ inner ++ "))" ∧
        CountLoop.parse inner = { built := some u, errors := [] } ∧ u.unplaced = l.unplaced ∧
        u.print = l.print) := by
  have signs : scan "- -a++" = Placed.scanned
      [(.op .minus, ⟨1, 1, 0⟩), (.op .minus, ⟨1, 3, 2⟩), (.name "a", ⟨1, 4, 3⟩),
       (.op .plusPlus, ⟨1, 5, 4⟩)] := by
    decide +kernel
  have expression : (Arith.parse "- -a++").tree = some
      (.unary .minus
        (some (.unary .minus
          (some (.unary .plusPlus (some (.word (.ofLit "a" ⟨1, 4, 3⟩))) true ⟨1, 5, 4⟩))
          false ⟨1, 3, 2⟩))
        false ⟨1, 1, 0⟩) := by
    rw [Arith.parse, readParts, signs]
    rfl
  have parts : scan ";; i++ ++" = Placed.scanned
      [(.op .semicolon, ⟨1, 1, 0⟩), (.op .semicolon, ⟨1, 2, 1⟩), (.name "i", ⟨1, 4, 3⟩),
       (.op .plusPlus, ⟨1, 5, 4⟩), (.op .plusPlus, ⟨1, 8, 7⟩)] := by
    decide +kernel
  have loop : (CountLoop.parse ";; i++ ++").tree = some
      { step := some (.unary .plusPlus (some (.unary .plusPlus
          (some (.word (.ofLit "i" ⟨1, 4, 3⟩))) true ⟨1, 5, 4⟩)) true ⟨1, 8, 7⟩) } := by
    rw [CountLoop.parse, readParts, parts]
    rfl
  exact ⟨⟨_, expression, parse_print.1 _ _ expression⟩, ⟨_, loop, parse_print.2 _ _ loop⟩⟩

end ShellSyntax
