import ShellSyntax.Proofs.Arith.Tokens

/-!
# The text of lexemes

How an expression is nested does not show in its text: `layout` writes lexemes one after the other,
and the text of an expression is the layout of its lexemes (`layout_lexemes`). So expressions with the
same lexemes have the same text (`print_eq_of_lexemes`).
-/

namespace ShellSyntax

/-- Whether a character at the edge of a text is a sign. -/
def isSign (edge : Option Char) : Bool := edge.any (· ∈ ['+', '-'])

/-- The text of lexemes where an operand is expected (`none`), or behind an operand, of which is
known whether it ends in a sign. -/
def layout : Option Bool → List Lexeme → List Char
  | _, [] => []
  | none, .op t :: rest =>
    let text := layout none rest
    t.spelling.toList ++ ((if t ∈ Token.signs && isSign text.head? then [' '] else []) ++ text)
  | some ends, .op t :: rest =>
    if t.infixLevel?.isSome then
      (if t = .comma then [','] else ' ' :: t.spelling.toList) ++ ' ' :: layout none rest
    else if t ∈ Token.postfixes then
      (if ends then [' '] else []) ++ (t.spelling.toList ++ layout (some true) rest)
    else t.spelling.toList ++ layout (some false) rest
  | _, l :: rest => l.spelling.toList ++ layout (some false) rest

theorem layout_operand {l : Lexeme} (hno : ∀ t, l ≠ .op t) (rest : List Lexeme) :
    layout none (l :: rest) = l.spelling.toList ++ layout (some false) rest := by
  cases l with
  | op t => exact absurd rfl (hno t)
  | name text | number text | param text => rw [layout] <;> simp

/-- No name, number or parameter ends in a sign. -/
theorem Lexeme.isSign_getLast_operand {l : Lexeme} (hl : l.WellSpelled) (hno : ∀ t, l ≠ .op t) :
    isSign l.spelling.toList.getLast? = false := by
  cases hc : l.spelling.toList.getLast? with
  | none => rfl
  | some c =>
    have hmem := isNameChar_of_mem_operand hl hno c (List.mem_of_getLast? hc)
    cases hs : isSign (some c) with
    | false => rfl
    | true =>
      have hsign : c = '+' ∨ c = '-' := by simpa [isSign] using hs
      rcases hsign with rfl | rfl <;> revert hmem <;> decide

theorem getLast?_append_of_ne_nil (front : List Char) {back : List Char} (h : back ≠ []) :
    (front ++ back).getLast? = back.getLast? := by
  rw [List.getLast?_append, List.getLast?_eq_some_getLast h]
  rfl

namespace Arith

/-- The layout of the lexemes of an expression, where an operand is expected, is its text. -/
theorem layout_lexemes {t : Arith} (h : t.Legal) (rest : List Lexeme) :
    layout none (t.lexemes ++ rest)
      = t.print.toList ++ layout (some (isSign t.print.toList.getLast?)) rest := by
  induction h generalizing rest with
  | @word w t hw ht =>
    have hno := (Word.print_of_token? hw).2
    rw [lexemes_word hw, print_word hw, List.singleton_append, layout_operand hno,
      Lexeme.isSign_getLast_operand ht hno]
  | @prefixed op x pos ho hx ih =>
    obtain ⟨c, more, hc, -⟩ := print_head hx
    have hbegins : beginsIn ['+', '-'] x.print = isSign (some c) := by
      rw [beginsIn, hc]
      rfl
    have hlast (blank : List Char) :
        (op.spelling.toList ++ (blank ++ c :: more)).getLast? = (c :: more).getLast? := by
      rw [getLast?_append_of_ne_nil _ (by simp), getLast?_append_of_ne_nil _ (by simp)]
    rw [lexemes_prefixed, print_prefixed, List.cons_append, layout, ih rest, hbegins, hc, hlast]
    simp
  | @postfixed op x pos ho hx ih =>
    have hlevel : op.infixLevel?.isSome = false := by
      revert ho
      cases op <;> decide
    have hends : endsIn ['+', '-'] x.print = isSign x.print.toList.getLast? := rfl
    -- The operator is itself a sign, whatever its operand ends in.
    have hall : ∀ t ∈ Token.postfixes,
        t.spelling.toList ≠ [] ∧ isSign t.spelling.toList.getLast? = true := by
      decide
    have hlast (blank : List Char) :
        isSign (x.print.toList ++ (blank ++ op.spelling.toList)).getLast? = true := by
      rw [← List.append_assoc, getLast?_append_of_ne_nil _ (hall op ho).1]
      exact (hall op ho).2
    rw [lexemes_postfixed, print_postfixed, List.append_assoc, ih, List.singleton_append, layout,
      if_neg (by simp [hlevel]), if_pos ho, hends, hlast]
    simp
  | @binary op x y pos ho hx hy ihx ihy =>
    obtain ⟨c, more, hc, -⟩ := print_head hy
    have hlast (front sign : List Char) :
        (front ++ (sign ++ ' ' :: c :: more)).getLast? = (c :: more).getLast? := by
      rw [getLast?_append_of_ne_nil _ (by simp), getLast?_append_of_ne_nil _ (by simp)]
      simp
    rw [lexemes_binary, print_binary, List.append_assoc, ihx, List.cons_append, layout, if_pos ho,
      ihy, hc, hlast]
    simp
  | @paren x lparen rparen hx ih =>
    have hlast : isSign ('(' :: (x.print.toList ++ [')'])).getLast? = false := by
      rw [← List.cons_append, getLast?_append_of_ne_nil _ (by simp)]
      rfl
    rw [lexemes_paren, print_paren, List.cons_append, layout, List.append_assoc, ih, hlast]
    simp [layout, Token.infixLevel?, Token.signs, Token.postfixes, Token.spelling]

/-- Nesting does not show. -/
theorem print_eq_of_lexemes {t u : Arith} (ht : t.Legal) (hu : u.Legal)
    (h : t.lexemes = u.lexemes) : t.print = u.print := by
  have htext := layout_lexemes ht []
  rw [h, layout_lexemes hu []] at htext
  apply String.toList_inj.mp
  simpa [layout] using htext.symm

end Arith

end ShellSyntax
