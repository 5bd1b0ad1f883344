import ShellSyntax.Proofs.Arith.Outline

/-!
# Lexemes never run together

* `Arith.Written`: the leaves, operators and parentheses of an expression in their order, for any
  expression whose leaves are spelled as lexemes and whose operators stand where they may;
* `Written.exists_legal`: a parameter is written as its name alone, whatever else it holds, so such
  an expression has the text of a legal one;
* `scan_print_of_written`: this text is scanned into these lexemes, however the expression is
  nested.
-/

namespace ShellSyntax

namespace Arith

/-- The lexemes of the expression are these: one for each leaf, operator and parenthesis. -/
inductive Written : Arith → List Lexeme → Prop where
  | name {l : Lit} (h : IsName l.value) : Written (.word ⟨[.lit l]⟩) [.name l.value]
  | number {l : Lit} (h : IsNumber l.value) : Written (.word ⟨[.lit l]⟩) [.number l.value]
  | param {e : ParamExp} (hs : e.short = true) (h : (Lexeme.param e.param.value).WellSpelled) :
      Written (.word ⟨[.param e]⟩) [.param e.param.value]
  | prefixed {op : Token} {x : Arith} {pos : Pos} {l : List Lexeme} (ho : op ∈ Token.prefixes)
      (hx : x.Written l) : Written (.unary op (some x) false pos) (.op op :: l)
  | postfixed {op : Token} {x : Arith} {pos : Pos} {l : List Lexeme} (ho : op ∈ Token.postfixes)
      (hx : x.Written l) : Written (.unary op (some x) true pos) (l ++ [.op op])
  | binary {op : Token} {x y : Arith} {pos : Pos} {l m : List Lexeme}
      (ho : op ∈ Token.binaries ∨ op ∈ Token.assignments) (hx : x.Written l) (hy : y.Written m) :
      Written (.binary op (some x) (some y) pos) (l ++ .op op :: m)
  | paren {x : Arith} {lparen rparen : Pos} {l : List Lexeme} (hx : x.Written l) :
      Written (.paren (some x) lparen rparen) (.op .leftParen :: (l ++ [.op .rightParen]))

variable {t : Arith} {l : List Lexeme}

/-- An expression with the same lexemes and the same text, whose parameters hold nothing but their
names. Each case puts the operator around the expressions found for the operands. -/
theorem Written.exists_legal (h : t.Written l) :
    ∃ u : Arith, u.Legal ∧ u.lexemes = l ∧ u.print = t.print := by
  induction h with
  | @name literal h =>
    have hw : (Word.mk [.lit literal]).token? = some (.name literal.value, literal.pos) := by
      rw [Word.token?, Lexeme.ofValue_name h]
    exact ⟨_, .word hw h, lexemes_word hw, rfl⟩
  | @number literal h =>
    have hw : (Word.mk [.lit literal]).token? = some (.number literal.value, literal.pos) := by
      rw [Word.token?, Lexeme.ofValue_number h]
    exact ⟨_, .word hw h, lexemes_word hw, rfl⟩
  | @param e hs h =>
    obtain ⟨name, short, length, index, replace, operation, dollar⟩ := e
    dsimp only at hs
    subst hs
    have hw : (Word.mk [.param ⟨name, true, false, none, none, none, dollar⟩]).token?
        = some (.param name.value, dollar) := rfl
    refine ⟨_, .word hw h, lexemes_word hw, ?_⟩
    simp [print, Word.print, Part.printAll, Part.print, ParamExp.print]
  | @prefixed op x pos l ho hx ih =>
    obtain ⟨u, legal, hl, hprint⟩ := ih
    have hlevel : op.prefixLevel?.isSome = true := by simpa [Token.prefixLevel?_isSome] using ho
    refine ⟨.unary op (some u) false pos, .prefixed hlevel legal, ?_, ?_⟩
    · rw [lexemes_prefixed, hl]
    · simp only [print, print?, hprint]
  | @postfixed op x pos l ho hx ih =>
    obtain ⟨u, legal, hl, hprint⟩ := ih
    refine ⟨.unary op (some u) true pos, .postfixed ho legal, ?_, ?_⟩
    · rw [lexemes_postfixed, hl]
    · simp only [print, print?, hprint]
  | @binary op x y pos l m ho hx hy ihx ihy =>
    obtain ⟨u, legal, hl, hprint⟩ := ihx
    obtain ⟨v, legal', hm, hprint'⟩ := ihy
    have hlevel : op.infixLevel?.isSome = true := by simpa [Token.infixLevel?_isSome] using ho
    refine ⟨.binary op (some u) (some v) pos, .binary hlevel legal legal', ?_, ?_⟩
    · rw [lexemes_binary, hl, hm]
    · simp only [print, print?, hprint, hprint']
  | @paren x lparen rparen l hx ih =>
    obtain ⟨u, legal, hl, hprint⟩ := ih
    refine ⟨.paren (some u) lparen rparen, .paren legal, ?_, ?_⟩
    · rw [lexemes_paren, hl]
    · simp only [print, print?, hprint]

/-- The text of an expression has no illegal character, and is scanned into the leaves, operators
and parentheses of the expression, also where they are nested against their levels. -/
theorem scan_print_of_written (h : t.Written l) :
    ∃ placed, scan t.print = Placed.scanned placed ∧ placed.map Prod.fst = l := by
  obtain ⟨u, legal, rfl, hprint⟩ := h.exists_legal
  have hspells : Spells (u.lexemes ++ []) (u.print.toList ++ []) :=
    spells_print legal .nil (by simp [Closes])
  rw [List.append_nil, List.append_nil, hprint] at hspells
  exact scan_of_spells hspells

/-- A product of sums, written without parentheses, with signs in front of and behind signs. -/
theorem scan_print_of_written_signs :
    let a : Arith := .word ⟨[.lit { value := "a" }]⟩
    let b : Arith := .word ⟨[.param { param := { value := "b" }, short := true }]⟩
    let c : Arith := .word ⟨[.lit { value := "0x1F" }]⟩
    let negated : Arith := .unary .minus (some (.unary .minusMinus (some b) false {})) false {}
    let counted : Arith := .unary .plusPlus (some (.unary .plusPlus (some c) true {})) true {}
    let sum : Arith := .binary .plus (some a) (some negated) {}
    let product : Arith := .binary .star (some sum) (some counted) {}
    product.print = "a + - --$b * 0x1F++ ++" ∧
      product.Written [.name "a", .op .plus, .op .minus, .op .minusMinus, .param "b", .op .star,
        .number "0x1F", .op .plusPlus, .op .plusPlus] ∧
      ∃ placed, scan product.print = Placed.scanned placed ∧ placed.map Prod.fst =
        [.name "a", .op .plus, .op .minus, .op .minusMinus, .param "b", .op .star,
          .number "0x1F", .op .plusPlus, .op .plusPlus] := by
  intro a b c negated counted sum product
  have ha : a.Written [.name "a"] := .name (by decide)
  have hb : b.Written [.param "b"] := .param rfl (.inl (by decide))
  have hc : c.Written [.number "0x1F"] :=
    .number (.inr ⟨'x', ['1', 'F'], .inl rfl, by simp, by decide, rfl⟩)
  have hnegated : negated.Written [.op .minus, .op .minusMinus, .param "b"] :=
    .prefixed (by decide) (.prefixed (by decide) hb)
  have hcounted : counted.Written [.number "0x1F", .op .plusPlus, .op .plusPlus] :=
    .postfixed (by decide) (.postfixed (by decide) hc)
  have hsum : sum.Written [.name "a", .op .plus, .op .minus, .op .minusMinus, .param "b"] :=
    .binary (.inl (by decide)) ha hnegated
  have hproduct : product.Written [.name "a", .op .plus, .op .minus, .op .minusMinus, .param "b",
      .op .star, .number "0x1F", .op .plusPlus, .op .plusPlus] :=
    .binary (.inl (by decide)) hsum hcounted
  exact ⟨by decide +kernel, hproduct, scan_print_of_written hproduct⟩

end Arith

end ShellSyntax
