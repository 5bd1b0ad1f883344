import ShellSyntax.Arith.Level
import ShellSyntax.Proofs.Arith.Scanning
import ShellSyntax.Tree.Print

/-!
# The lexemes of an expression

* `Arith.tokens`: the operands, operators and parentheses of an expression, as its text has them;
* `Arith.Legal`: every operand is present and spelled as one, every operator stands where it may;
* `spells_print`: the text of a legal expression spells its lexemes, so signs, operators and operands
  never run together.
-/

namespace ShellSyntax

/-- The lexeme that a literal of this text stands for. -/
def Lexeme.ofValue (text : String) : Lexeme :=
  if text.toList.head?.any Char.isDigit then .number text else .name text

theorem Lexeme.ofValue_name {text : String} (h : IsName text) : ofValue text = .name text := by
  have hd : text.toList.head?.any Char.isDigit = false := by
    unfold IsName at h
    split at h
    · exact absurd h id
    · rename_i c more hc
      rw [hc, List.head?_cons, Option.any_some]
      cases hd : c.isDigit with
      | false => rfl
      | true => exact absurd h.1 (by simp [isNameStart_eq_false_of_isDigit hd])
  rw [ofValue, hd]
  rfl

theorem Lexeme.ofValue_number {text : String} (h : IsNumber text) :
    ofValue text = .number text := by
  have hd : text.toList.head?.any Char.isDigit = true := by
    rcases h with ⟨hne, hd⟩ | ⟨x, digits, -, -, -, hc⟩
    · cases hc : text.toList with
      | nil => exact absurd (by simpa using hc) hne
      | cons c more =>
        rw [hc, List.all_cons, Bool.and_eq_true] at hd
        exact hd.1
    · rw [hc]
      rfl
  rw [ofValue, if_pos hd]

/-- The lexeme that a word stands for, if it is a literal or a parameter without braces. -/
def Word.token? : Word → Option Placed
  | ⟨[.lit l]⟩ => some (.ofValue l.value, l.pos)
  | ⟨[.param ⟨name, true, false, none, none, none, dollar⟩]⟩ => some (.param name.value, dollar)
  | _ => none

namespace Arith

mutual

/-- The lexemes of the expression in order, each at the position that is stored for it. -/
@[simp] def tokens : Arith → List Placed
  | .word w => w.token?.toList
  | .unary op operand postfixed pos =>
    if postfixed then tokens? operand ++ [(.op op, pos)] else (.op op, pos) :: tokens? operand
  | .binary op left right pos => tokens? left ++ (.op op, pos) :: tokens? right
  | .paren inner lparen rparen =>
    (.op .leftParen, lparen) :: tokens? inner ++ [(.op .rightParen, rparen)]

@[simp] def tokens? : Option Arith → List Placed
  | none => []
  | some a => a.tokens

end

/-- The lexemes of the expression in order. -/
def lexemes (a : Arith) : List Lexeme := a.tokens.map Prod.fst

inductive Legal : Arith → Prop where
  | word {w : Word} {t : Placed} (hw : w.token? = some t) (ht : t.1.WellSpelled) : Legal (.word w)
  | prefixed {op : Token} {x : Arith} {pos : Pos} (ho : op.prefixLevel?.isSome = true)
      (hx : x.Legal) : Legal (.unary op (some x) false pos)
  | postfixed {op : Token} {x : Arith} {pos : Pos} (ho : op ∈ Token.postfixes)
      (hx : x.Legal) : Legal (.unary op (some x) true pos)
  | binary {op : Token} {x y : Arith} {pos : Pos} (ho : op.infixLevel?.isSome = true)
      (hx : x.Legal) (hy : y.Legal) : Legal (.binary op (some x) (some y) pos)
  | paren {x : Arith} {lparen rparen : Pos} (hx : x.Legal) : Legal (.paren (some x) lparen rparen)

@[simp] theorem lexemes_prefixed (op : Token) (x : Arith) (pos : Pos) :
    (unary op (some x) false pos).lexemes = .op op :: x.lexemes := by
  simp [lexemes]

@[simp] theorem lexemes_postfixed (op : Token) (x : Arith) (pos : Pos) :
    (unary op (some x) true pos).lexemes = x.lexemes ++ [.op op] := by
  simp [lexemes]

@[simp] theorem lexemes_binary (op : Token) (x y : Arith) (pos : Pos) :
    (binary op (some x) (some y) pos).lexemes = x.lexemes ++ .op op :: y.lexemes := by
  simp [lexemes]

@[simp] theorem lexemes_paren (x : Arith) (lparen rparen : Pos) :
    (paren (some x) lparen rparen).lexemes
      = .op .leftParen :: (x.lexemes ++ [.op .rightParen]) := by
  simp [lexemes]

theorem lexemes_word {w : Word} {t : Placed} (hw : w.token? = some t) :
    (word w).lexemes = [t.1] := by
  simp [lexemes, hw]

end Arith

/-! ### The text of an expression spells its lexemes -/

/-- A leaf is written as its lexeme, which is no operator. -/
theorem Word.print_of_token? {w : Word} {t : Placed} (h : w.token? = some t) :
    w.print = t.1.spelling ∧ ∀ op, t.1 ≠ .op op := by
  unfold Word.token? at h
  split at h
  · cases h
    rename_i l
    have hv : (Lexeme.ofValue l.value).spelling = l.value := by
      unfold Lexeme.ofValue
      split <;> rfl
    refine ⟨by simp [Word.print, Part.printAll, Part.print, String.join, hv], ?_⟩
    intro op
    unfold Lexeme.ofValue
    split <;> simp
  · cases h
    rename_i name dollar
    refine ⟨?_, by simp⟩
    simp [Word.print, Part.printAll, Part.print, ParamExp.print, String.join, Lexeme.spelling]
  · cases h

/-- What may stand behind an operand at once: a blank, a closing token or a sign. -/
def Closes (text : List Char) : Prop := ∀ c ∈ text.head?, c ∈ [' ', ',', ')', '+', '-', ';']

theorem Lexeme.endsAt_of_closes {l : Lexeme} {text : List Char} (hl : ∀ op, l ≠ .op op)
    (h : Closes text) : l.EndsAt text := by
  have hall : [' ', ',', ')', '+', '-', ';'].all (fun c => !isNameChar c) = true := by
    decide
  intro c hc
  cases l with
  | op t => exact absurd rfl (hl t)
  | name text | number text | param text =>
    have hno := List.all_eq_true.mp hall c (h c hc)
    exact (Bool.not_eq_true' _).mp hno

namespace Lexeme

theorem endsAt_of_followers {t : Token} {text : List Char}
    (h : ∀ c ∈ text.head?, c ∉ followers t) : (op t).EndsAt text := by
  intro c hc
  simp only [continuedBy, decide_eq_false_iff_not]
  exact h c hc

/-- No character continues one of these operators. -/
theorem endsAt_of_final {t : Token} (text : List Char)
    (ht : t ∈ [Token.leftParen, .rightParen, .semicolon, .comma, .plusPlus, .minusMinus]) :
    (op t).EndsAt text := by
  have hall : ∀ t ∈ [Token.leftParen, .rightParen, .semicolon, .comma, .plusPlus, .minusMinus],
      followers t = [] := by
    decide
  apply endsAt_of_followers
  intro c _
  rw [hall t ht]
  exact List.not_mem_nil

/-- No operator has a blank in it. -/
theorem endsAt_blank (t : Token) (text : List Char) : (op t).EndsAt (' ' :: text) := by
  have hall : ∀ u ∈ operators, ' ' ∉ u.spelling.toList := by
    decide
  apply endsAt_of_followers
  intro c hc hf
  cases hc
  obtain ⟨u, hu, hd⟩ := List.mem_filterMap.mp hf
  split at hd
  · exact hall u hu (List.mem_of_mem_drop (List.mem_of_mem_head? hd))
  · cases hd

theorem mem_of_prefixLevel? {t : Token} (h : t.prefixLevel?.isSome = true) :
    t ∈ [Token.plus, .minus, .bang, .tilde, .plusPlus, .minusMinus] := by
  cases t <;> first | decide | cases h

/-- A prefix operator ends before any operand, except a sign before a sign. -/
theorem endsAt_of_prefix {t : Token} {c : Char} {text : List Char}
    (ht : t.prefixLevel?.isSome = true) (hc : c ≠ '=')
    (hs : t ∈ Token.signs → c ∉ ['+', '-']) : (op t).EndsAt (c :: text) := by
  have hall : ∀ t ∈ [Token.plus, .minus, .bang, .tilde, .plusPlus, .minusMinus],
      (followers t).all (fun d => d = '=' || t ∈ Token.signs && d ∈ ['+', '-']) = true := by
    decide
  apply endsAt_of_followers
  intro d hd hf
  cases hd
  have hone := List.all_eq_true.mp (hall t (mem_of_prefixLevel? ht)) c hf
  simp only [Bool.or_eq_true, Bool.and_eq_true, decide_eq_true_eq] at hone
  rcases hone with h | ⟨hm, h⟩
  · exact hc h
  · exact hs hm h

theorem mem_operators_of_prefix {t : Token} (h : t.prefixLevel?.isSome = true) : t ∈ operators := by
  cases t <;> first | decide | simp [Token.prefixLevel?] at h

theorem mem_operators_of_infix {t : Token} (h : t.infixLevel?.isSome = true) : t ∈ operators := by
  cases t <;> first | decide | simp [Token.infixLevel?] at h

end Lexeme

namespace Arith

theorem print_word {w : Word} {t : Placed} (hw : w.token? = some t) :
    (word w).print = t.1.spelling := by
  rw [print, (Word.print_of_token? hw).1]

theorem toList_blankIf (p : Prop) [Decidable p] :
    (if p then " " else "").toList = if p then [' '] else [] := by
  split <;> rfl

theorem toList_signed_before (op : Token) (x : String) :
    (signed op false x).toList = op.spelling.toList
      ++ ((if op ∈ Token.signs && beginsIn ['+', '-'] x then [' '] else []) ++ x.toList) := by
  simp only [signed, Bool.false_eq_true, if_false, String.toList_append, List.append_assoc,
    toList_blankIf]

theorem toList_signed_behind (op : Token) (x : String) :
    (signed op true x).toList = x.toList
      ++ ((if endsIn ['+', '-'] x then [' '] else []) ++ op.spelling.toList) := by
  simp only [signed, if_true, String.toList_append, List.append_assoc, toList_blankIf]

theorem toList_infixed (op : Token) (x y : String) :
    (infixed op x y).toList = x.toList
      ++ ((if op = .comma then [','] else ' ' :: op.spelling.toList) ++ ' ' :: y.toList) := by
  simp only [infixed]
  split <;> simp

theorem print_prefixed (op : Token) (x : Arith) (pos : Pos) :
    (unary op (some x) false pos).print.toList = op.spelling.toList
      ++ ((if op ∈ Token.signs && beginsIn ['+', '-'] x.print then [' '] else [])
        ++ x.print.toList) := by
  rw [print, print?, toList_signed_before]

theorem print_postfixed (op : Token) (x : Arith) (pos : Pos) :
    (unary op (some x) true pos).print.toList = x.print.toList
      ++ ((if endsIn ['+', '-'] x.print then [' '] else []) ++ op.spelling.toList) := by
  rw [print, print?, toList_signed_behind]

theorem print_binary (op : Token) (x y : Arith) (pos : Pos) :
    (binary op (some x) (some y) pos).print.toList = x.print.toList
      ++ ((if op = .comma then [','] else ' ' :: op.spelling.toList)
        ++ ' ' :: y.print.toList) := by
  rw [print, print?, print?, toList_infixed]

theorem print_paren (x : Arith) (lparen rparen : Pos) :
    (paren (some x) lparen rparen).print.toList = '(' :: (x.print.toList ++ [')']) := by
  simp [print, print?]

/-- The text of an expression begins with a character that continues no sign. -/
theorem print_head {t : Arith} (h : t.Legal) : ∃ c more, t.print.toList = c :: more ∧ c ≠ '=' := by
  induction h with
  | @word w t hw ht =>
    obtain ⟨c, more, hc, h⟩ := Lexeme.head_of_operand ht (Word.print_of_token? hw).2
    refine ⟨c, more, by rw [print_word hw, hc], ?_⟩
    rintro rfl
    revert h
    decide
  | @prefixed op x pos ho hx ih =>
    have hall : ∀ t ∈ [Token.plus, .minus, .bang, .tilde, .plusPlus, .minusMinus],
        t.spelling.toList.head?.any (· ≠ '=') = true := by
      decide
    have h := hall op (Lexeme.mem_of_prefixLevel? ho)
    rw [print_prefixed]
    cases hc : op.spelling.toList with
    | nil => rw [hc] at h; cases h
    | cons c more =>
      rw [hc] at h
      simp only [List.head?_cons, Option.any_some, decide_eq_true_eq] at h
      exact ⟨c, _, rfl, h⟩
  | @postfixed op x pos ho hx ih =>
    obtain ⟨c, more, hc, hne⟩ := ih
    rw [print_postfixed, hc]
    exact ⟨c, _, rfl, hne⟩
  | @binary op x y pos ho hx hy ihx ihy =>
    obtain ⟨c, more, hc, hne⟩ := ihx
    rw [print_binary, hc]
    exact ⟨c, _, rfl, hne⟩
  | @paren x lparen rparen hx ih =>
    rw [print_paren]
    exact ⟨'(', _, rfl, by decide⟩

/-- The text of a legal expression spells its lexemes, in front of anything that may close it. -/
theorem spells_print {t : Arith} (h : t.Legal) {ls : List Lexeme} {rest : List Char}
    (hr : Spells ls rest) (hc : Closes rest) :
    Spells (t.lexemes ++ ls) (t.print.toList ++ rest) := by
  induction h generalizing ls rest with
  | @word w t hw ht =>
    have hno := (Word.print_of_token? hw).2
    rw [lexemes_word hw, print_word hw]
    exact .lexeme ht (Lexeme.endsAt_of_closes hno hc) hr
  | @prefixed op x pos ho hx ih =>
    have hs := ih hr hc
    have hop := Lexeme.mem_operators_of_prefix ho
    rw [lexemes_prefixed, print_prefixed, List.append_assoc, List.append_assoc, List.cons_append]
    split
    · exact .lexeme hop (Lexeme.endsAt_blank op _) (.blank (by simp) hs)
    · rename_i hb
      refine .lexeme hop ?_ hs
      obtain ⟨c, more, hx', hne⟩ := print_head hx
      rw [hx']
      apply Lexeme.endsAt_of_prefix ho hne
      intro hm hcs
      have hbegins : beginsIn ['+', '-'] x.print = true := by
        simpa [beginsIn, hx'] using hcs
      exact hb (by rw [hbegins, Bool.and_true, decide_eq_true hm])
  | @postfixed op x pos ho hx ih =>
    have hfinal : op ∈ [Token.plusPlus, .minusMinus] := ho
    have hend : Spells (.op op :: ls) (op.spelling.toList ++ rest) := by
      refine .lexeme ?_ (Lexeme.endsAt_of_final rest ?_) hr
      · exact (by decide : ∀ t ∈ [Token.plusPlus, .minusMinus], t ∈ Lexeme.operators) op hfinal
      · exact List.mem_append_right [Token.leftParen, .rightParen, .semicolon, .comma] hfinal
    rw [lexemes_postfixed, print_postfixed, List.append_assoc, List.append_assoc, List.append_assoc,
      List.singleton_append]
    split
    · exact ih (.blank (by simp) hend) (by simp [Closes])
    · apply ih hend
      rcases List.mem_cons.mp hfinal with rfl | h
      · simp [Closes, Token.spelling]
      · rw [List.mem_singleton.mp h]
        simp [Closes, Token.spelling]
  | @binary op x y pos ho hx hy ihx ihy =>
    have hop := Lexeme.mem_operators_of_infix ho
    have hy' : Spells (.op op :: (y.lexemes ++ ls))
        (op.spelling.toList ++ ' ' :: (y.print.toList ++ rest)) :=
      .lexeme hop (Lexeme.endsAt_blank op _) (.blank (by simp) (ihy hr hc))
    rw [lexemes_binary, print_binary, List.append_assoc, List.append_assoc, List.append_assoc,
      List.cons_append, List.cons_append]
    split
    · rename_i he
      subst he
      exact ihx hy' (by simp [Closes])
    · exact ihx (.blank (by simp) hy') (by simp [Closes])
  | @paren x lparen rparen hx ih =>
    have hend : Spells (.op .rightParen :: ls) (')' :: rest) :=
      .lexeme (l := .op .rightParen) (List.elem_iff.mp rfl)
        (Lexeme.endsAt_of_final rest (by decide)) hr
    rw [lexemes_paren, print_paren, List.cons_append, List.cons_append, List.append_assoc,
      List.append_assoc]
    exact .lexeme (l := .op .leftParen) (List.elem_iff.mp rfl)
      (Lexeme.endsAt_of_final _ (by decide)) (ih hend (by simp [Closes]))

end Arith

end ShellSyntax
