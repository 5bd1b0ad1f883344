import ShellSyntax.Proofs.Arith.Completeness

/-!
# Regular expressions of arithmetic

* `Arith.Regular`: no operand has an operator at its top that its place does not admit, and only
  names are assigned to. Each condition is about an operator and the operators right below it;
* `regular_iff_grouped`: such an expression is grouped throughout.
-/

namespace ShellSyntax

namespace Arith

/-- The level of the binary operator at the top, unless there is another construct. -/
def infixLevel? : Arith → Option Level
  | .binary op _ _ _ => op.infixLevel?
  | _ => none

def isPostfixed : Arith → Bool
  | .unary _ _ postfixed _ => postfixed
  | _ => false

/-- Nothing but `++` and `--` in front of a word or parenthesis. -/
inductive Counted : Arith → Prop where
  | word (w : Word) : Counted (.word w)
  | paren (inner : Option Arith) (lparen rparen : Pos) : Counted (.paren inner lparen rparen)
  | prefixed {op : Token} {x : Arith} {pos : Pos} (ho : op ∈ [Token.plusPlus, .minusMinus])
      (hx : x.Counted) : Counted (.unary op (some x) false pos)

/-- Every operator stands over operands that it takes without parentheses. -/
inductive Regular : Arith → Prop where
  | word {w : Word} {t : Placed} (hw : w.token? = some t) (ht : t.1.WellSpelled) : Regular (.word w)
  | prefixed {op : Token} {x : Arith} {pos : Pos} (ho : op.prefixLevel?.isSome = true)
      (hx : x.Regular) (binary : x.infixLevel? = none)
      (postfixed : op ∈ [Token.plusPlus, .minusMinus] → x.isPostfixed = false) :
      Regular (.unary op (some x) false pos)
  | postfixed {op : Token} {x : Arith} {pos : Pos} (ho : op ∈ Token.postfixes)
      (hx : x.Regular) (binary : x.infixLevel? = none)
      (operand : x.isPostfixed = true ∨ x.Counted) : Regular (.unary op (some x) true pos)
  | binary {op : Token} {level : Level} {x y : Arith} {pos : Pos}
      (ho : op.infixLevel? = some level) (hx : x.Regular) (hy : y.Regular)
      (left : ∀ l ∈ x.infixLevel?,
        ¬l.rank < level.rank ∧ (l.rank = level.rank → level.assoc ≠ .right))
      (right : ∀ l ∈ y.infixLevel?,
        ¬l.rank < level.rank ∧ (l.rank = level.rank → level.assoc ≠ .left))
      (assigned : op ∈ Token.assignments → x.assignable = true) :
      Regular (.binary op (some x) (some y) pos)
  | paren {x : Arith} {lparen rparen : Pos} (hx : x.Regular) :
      Regular (.paren (some x) lparen rparen)

theorem legal_of_regular {t : Arith} (h : t.Regular) : t.Legal := by
  induction h with
  | word hw ht => exact .word hw ht
  | prefixed ho _ _ _ ih => exact .prefixed ho ih
  | postfixed ho _ _ _ ih => exact .postfixed ho ih
  | binary ho _ _ _ _ _ ihx ihy => exact .binary (by rw [ho]; rfl) ihx ihy
  | paren _ ih => exact .paren ih

theorem faults_of_regular {t : Arith} (h : t.Regular) : t.faults = [] := by
  induction h with
  | word => simp
  | prefixed _ _ _ _ ih => simpa using ih
  | postfixed _ _ _ _ ih => simpa using ih
  | binary _ _ _ _ _ assigned ihx ihy =>
    simp only [faults, faults?, ihx, ihy, Option.map_some, Option.getD_some, List.nil_append,
      Waiting.errors]
    split
    · rename_i hc
      rw [assigned hc.1] at hc
      cases hc.2
    · rfl
  | paren _ ih => simpa using ih

end Arith

/-! ### Levels of the table -/

namespace Token

/-- Among binary operators the rank decides the associativity, and they all bind less than unary
ones. -/
theorem assoc_of_infixLevel? {op : Token} {level : Level} (h : op.infixLevel? = some level) :
    level.rank ≤ 13 ∧ level.assoc = if level.rank = 2 ∨ level.rank = 13 then .right else .left := by
  cases op <;> cases h <;> decide

theorem assoc_congr {op op' : Token} {level level' : Level} (h : op.infixLevel? = some level)
    (h' : op'.infixLevel? = some level') (hr : level.rank = level'.rank) :
    level.assoc = level'.assoc := by
  rw [(assoc_of_infixLevel? h).2, (assoc_of_infixLevel? h').2, hr]

theorem prefixLevel?_cases {op : Token} {level : Level} (h : op.prefixLevel? = some level) :
    level = ⟨14, .right⟩ ∧ op ∉ [Token.plusPlus, .minusMinus]
      ∨ level = .ofPostfix ∧ op ∈ [Token.plusPlus, .minusMinus] := by
  cases op <;> cases h <;> decide

end Token

namespace Arith

/-- A binary operator at the top is one at both edges. -/
theorem edges_of_infixLevel? {x : Arith} {top : Level} (h : x.infixLevel? = some top) :
    (∃ op : Token, op.infixLevel? = some top) ∧ top ∈ x.leftLevels ∧ top ∈ x.rightLevels := by
  cases x with
  | binary op left right pos =>
    have ho : op.infixLevel? = some top := h
    exact ⟨⟨op, ho⟩, by simp [ho], by simp [ho]⟩
  | _ => cases h

/-! ### Regular expressions are grouped -/

/-- The operators at the left edge of a regular expression do not bind less than its top. -/
theorem leftLevels_of_regular {t : Arith} (h : t.Regular) : ∀ l ∈ t.leftLevels,
    (∃ top ∈ t.infixLevel?, top.rank ≤ l.rank) ∨ t.isPostfixed = true ∧ l = .ofPostfix := by
  induction h with
  | word | paren => simp
  | prefixed => simp
  | @postfixed op x pos ho hx binary operand ih =>
    intro l hl
    simp only [leftLevels, leftLevels?, if_true, List.mem_append, List.mem_singleton] at hl
    refine Or.inr ⟨rfl, ?_⟩
    rcases hl with hl | hl
    · rcases ih l hl with ⟨top, ht, -⟩ | h
      · rw [binary] at ht
        cases ht
      · exact h.2
    · exact hl
  | @binary op level x y pos ho hx hy left right assigned ihx ihy =>
    intro l hl
    simp only [leftLevels, leftLevels?, ho, Option.toList_some, List.mem_append,
      List.mem_singleton] at hl
    refine Or.inl ⟨level, ho, ?_⟩
    rcases hl with hl | rfl
    · rcases ihx l hl with ⟨top, ht, hr⟩ | ⟨-, rfl⟩
      · have := (left top ht).1
        omega
      · have := (Token.assoc_of_infixLevel? ho).1
        simp only [Level.ofPostfix]
        omega
    · exact Nat.le_refl _

/-- The operators at its right edge do not either, and associate alike where they bind alike. -/
theorem rightLevels_of_regular {t : Arith} (h : t.Regular) : ∀ l ∈ t.rightLevels,
    (∃ top ∈ t.infixLevel?, top.rank ≤ l.rank ∧ (top.rank = l.rank → top.assoc = l.assoc))
      ∨ 13 < l.rank := by
  induction h with
  | word | paren => simp
  | postfixed => simp
  | @prefixed op x pos ho hx binary postfixed ih =>
    intro l hl
    simp only [rightLevels, rightLevels?, Bool.false_eq_true, if_false, List.mem_append,
      Option.mem_toList] at hl
    refine Or.inr ?_
    rcases hl with hl | hl
    · rcases ih l hl with ⟨top, ht, -⟩ | h
      · rw [binary] at ht
        cases ht
      · exact h
    · rcases Token.prefixLevel?_cases hl with ⟨rfl, -⟩ | ⟨rfl, -⟩ <;> decide
  | @binary op level x y pos ho hx hy left right assigned ihx ihy =>
    intro l hl
    simp only [rightLevels, rightLevels?, ho, Option.toList_some, List.mem_append,
      List.mem_singleton] at hl
    rcases hl with hl | rfl
    · rcases ihy l hl with ⟨top, ht, hr, ha⟩ | h
      · refine Or.inl ⟨level, ho, ?_, ?_⟩
        · have := (right top ht).1
          omega
        · intro he
          have hlevel : level.rank = top.rank := by
            have := (right top ht).1
            omega
          obtain ⟨⟨op', ho'⟩, -⟩ := edges_of_infixLevel? ht
          rw [Token.assoc_congr ho ho' hlevel]
          exact ha (by omega)
      · exact Or.inr h
    · exact Or.inl ⟨l, ho, Nat.le_refl _, fun _ => rfl⟩

theorem rightLevels_of_counted {t : Arith} (h : t.Counted) :
    ∀ l ∈ t.rightLevels, l = .ofPostfix := by
  induction h with
  | word | paren => simp
  | @prefixed op x pos ho hx ih =>
    intro l hl
    simp only [rightLevels, rightLevels?, Bool.false_eq_true, if_false, List.mem_append,
      Option.mem_toList] at hl
    rcases hl with hl | hl
    · exact ih l hl
    · rcases Token.prefixLevel?_cases hl with ⟨-, hno⟩ | ⟨rfl, -⟩
      · exact absurd ho hno
      · rfl

theorem grouped_of_regular {t : Arith} (h : t.Regular) : t.Grouped := by
  induction h with
  | word => exact .word _
  | @prefixed op x pos ho hx binary postfixed ih =>
    obtain ⟨level, hlevel⟩ := Option.isSome_iff_exists.mp ho
    refine .prefixed hlevel ih fun l hl => ?_
    rcases leftLevels_of_regular hx l hl with ⟨top, ht, -⟩ | ⟨hp, rfl⟩
    · rw [binary] at ht
      cases ht
    · rcases Token.prefixLevel?_cases hlevel with ⟨rfl, -⟩ | ⟨-, hop⟩
      · decide
      · rw [postfixed hop] at hp
        cases hp
  | @postfixed op x pos ho hx binary operand ih =>
    refine .postfixed ih fun l hl => ?_
    rcases operand with hp | hc
    · cases x with
      | unary op' operand postfixed pos' =>
        cases (hp : postfixed = true)
        simp at hl
      | _ => cases hp
    · rw [rightLevels_of_counted hc l hl]
      decide
  | @binary op level x y pos ho hx hy left right assigned ihx ihy =>
    have hrank := (Token.assoc_of_infixLevel? ho).1
    refine .binary ho ihx ihy (fun l hl => ?_) fun l hl => ?_
    · rcases rightLevels_of_regular hx l hl with ⟨top, ht, hr, ha⟩ | h
      · obtain ⟨hlow, hassoc⟩ := left top ht
        by_cases he : level.rank = l.rank
        · have htop : top.rank = level.rank := by omega
          obtain ⟨⟨op', ho'⟩, -⟩ := edges_of_infixLevel? ht
          refine Or.inr ⟨he, ?_⟩
          rw [← ha (by omega), Token.assoc_congr ho' ho htop]
          cases hc : level.assoc with
          | left => rfl
          | right => exact absurd hc (hassoc htop)
        · exact Or.inl (by omega)
      · exact Or.inl (by omega)
    · rintro (hb | ⟨he, ha⟩)
      · rcases leftLevels_of_regular hy l hl with ⟨top, ht, hr⟩ | ⟨-, rfl⟩
        · have := (right top ht).1
          omega
        · simp only [Level.ofPostfix] at hb
          omega
      · rcases leftLevels_of_regular hy l hl with ⟨top, ht, hr⟩ | ⟨-, rfl⟩
        · obtain ⟨hlow, hassoc⟩ := right top ht
          exact hassoc (by omega) ha
        · simp only [Level.ofPostfix] at he
          omega
  | paren _ ih => exact .paren ih

/-! ### Grouped expressions are regular -/

/-- An operator in front of its operand, or behind it, never stands over a binary one. -/
theorem infixLevel?_eq_none_of_tighter {x : Arith} (h : ∀ top ∈ x.infixLevel?, 13 < top.rank) :
    x.infixLevel? = none := by
  cases ht : x.infixLevel? with
  | none => rfl
  | some top =>
    obtain ⟨⟨op, ho⟩, -⟩ := edges_of_infixLevel? ht
    have := (Token.assoc_of_infixLevel? ho).1
    have := h top ht
    omega

theorem isPostfixed_eq_false_of_leftLevels {x : Arith} (h : .ofPostfix ∉ x.leftLevels) :
    x.isPostfixed = false := by
  cases x with
  | unary op operand postfixed pos =>
    cases postfixed with
    | false => rfl
    | true => simp at h
  | _ => rfl

theorem counted_of_grouped {t : Arith} (hg : t.Grouped)
    (hr : ∀ l ∈ t.rightLevels, l.Before .ofPostfix) (hp : t.isPostfixed = false) : t.Counted := by
  induction hg with
  | word w => exact .word w
  | paren => exact .paren _ _ _
  | postfixed => cases hp
  | @binary op level x y pos ho hx hy hl hright ihx ihy =>
    have hbefore := hr level (by simp [ho])
    have := (Token.assoc_of_infixLevel? ho).1
    rcases hbefore with h | h <;> simp only [Level.ofPostfix] at h <;> omega
  | @prefixed op level x pos ho hx hleft ih =>
    have hbefore := hr level (by simp [ho])
    rcases Token.prefixLevel?_cases ho with ⟨rfl, -⟩ | ⟨rfl, hop⟩
    · exact absurd hbefore (by decide)
    · refine .prefixed hop (ih ?_ ?_)
      · intro l hl
        exact hr l (by simp [hl])
      · exact isPostfixed_eq_false_of_leftLevels fun hm => hleft _ hm (by decide)

theorem regular_of_grouped {t : Arith} (hl : t.Legal) (hg : t.Grouped) (hf : t.faults = []) :
    t.Regular := by
  induction hl with
  | word hw ht => exact .word hw ht
  | @prefixed op x pos ho hx ih =>
    cases hg with
    | @prefixed _ level _ _ hlevel hgx hleft =>
      have hrank : 13 < level.rank := by
        rcases Token.prefixLevel?_cases hlevel with ⟨rfl, -⟩ | ⟨rfl, -⟩ <;> decide
      refine .prefixed ho (ih hgx (by simpa using hf)) ?_ fun hop => ?_
      · refine infixLevel?_eq_none_of_tighter fun top htop => ?_
        have hno := hleft top (edges_of_infixLevel? htop).2.1
        simp only [Level.Before, not_or] at hno
        omega
      · refine isPostfixed_eq_false_of_leftLevels fun hm => hleft _ hm ?_
        rcases Token.prefixLevel?_cases hlevel with ⟨-, hno⟩ | ⟨rfl, -⟩
        · exact absurd hop hno
        · decide
  | @postfixed op x pos ho hx ih =>
    cases hg with
    | postfixed hgx hright =>
      refine .postfixed ho (ih hgx (by simpa using hf)) ?_ ?_
      · refine infixLevel?_eq_none_of_tighter fun top htop => ?_
        have hb := hright top (edges_of_infixLevel? htop).2.2
        rcases hb with h | h <;> simp only [Level.ofPostfix] at h <;> omega
      · cases hp : x.isPostfixed with
        | true => exact Or.inl rfl
        | false => exact Or.inr (counted_of_grouped hgx hright hp)
  | @binary op x y pos ho hx hy ihx ihy =>
    cases hg with
    | @binary _ level _ _ _ hlevel hgx hgy hright hleft =>
      simp only [faults, faults?, Option.map_some, Option.getD_some, List.append_eq_nil_iff] at hf
      obtain ⟨⟨hfx, hfy⟩, hfault⟩ := hf
      refine .binary hlevel (ihx hgx hfx) (ihy hgy hfy) ?_ ?_ ?_
      · intro top htop
        obtain ⟨⟨op', ho'⟩, -, hm⟩ := edges_of_infixLevel? htop
        have hb := hright top hm
        refine ⟨by rcases hb with h | h <;> omega, fun he => ?_⟩
        rw [← Token.assoc_congr ho' hlevel he]
        rcases hb with h | h
        · omega
        · rw [h.2]
          decide
      · intro top htop
        have hno := hleft top (edges_of_infixLevel? htop).2.1
        simp only [Level.Before, not_or, not_and] at hno
        exact ⟨hno.1, hno.2⟩
      · intro hop
        cases ha : x.assignable with
        | true => rfl
        | false => simp [Waiting.errors, hop, ha] at hfault
  | @paren x lparen rparen hx ih =>
    cases hg with
    | paren hgx => exact .paren (ih hgx (by simpa using hf))

theorem regular_iff_grouped {t : Arith} : t.Regular ↔ t.Legal ∧ t.Grouped ∧ t.faults = [] :=
  ⟨fun h => ⟨legal_of_regular h, grouped_of_regular h, faults_of_regular h⟩,
    fun h => regular_of_grouped h.1 h.2.1 h.2.2⟩

end Arith

/-- A tree that is returned is regular and has exactly the lexemes of its text; and a text with the
lexemes of a regular tree returns that tree, at the positions of the text. -/
theorem parse_regular :
    (∀ (text : String) (t : Arith), (Arith.parse text).tree = some t →
      t.Regular ∧ scan text = Placed.scanned t.tokens) ∧
    (∀ (text : String) (t : Arith) (l : List Placed), t.Regular → scan text = Placed.scanned l →
      l.map Prod.fst = t.lexemes →
      ∃ u, Arith.parse text = { built := some u, errors := [] } ∧ u.unplaced = t.unplaced ∧
        u.tokens = l) := by
  constructor
  · intro text t h
    obtain ⟨legal, grouped, faults, hscan⟩ :=
      Arith.whole_of_parse (Reading.tree_eq_some_iff.mp h)
    exact ⟨Arith.regular_of_grouped legal grouped faults, hscan⟩
  · intro text t l hregular hscan hlexemes
    obtain ⟨legal, grouped, faults⟩ := Arith.regular_iff_grouped.mp hregular
    obtain ⟨u, hparse, hu⟩ := Arith.parse_of_scan legal grouped faults hscan hlexemes
    obtain ⟨-, -, -, htokens⟩ := Arith.whole_of_parse hparse
    refine ⟨u, hparse, hu, Placed.scanned_inj ?_⟩
    rw [← htokens, hscan]

/-- A sign in front of a power takes its first operand only. -/
theorem parse_regular_power :
    (∃ t, (Arith.parse "-a ** b").tree = some t ∧ t.Regular ∧
      scan "-a ** b" = Placed.scanned t.tokens) ∧
    (∃ u, Arith.parse "a**\nb" = { built := some u, errors := [] } ∧
      u.unplaced = .binary .starStar (some (.word (.ofLit "a"))) (some (.word (.ofLit "b"))) {} ∧
      u.tokens = [(.name "a", ⟨1, 1, 0⟩), (.op .starStar, ⟨1, 2, 1⟩), (.name "b", ⟨2, 1, 4⟩)]) := by
  have signed : scan "-a ** b" = Placed.scanned
      [(.op .minus, ⟨1, 1, 0⟩), (.name "a", ⟨1, 2, 1⟩), (.op .starStar, ⟨1, 4, 3⟩),
       (.name "b", ⟨1, 7, 6⟩)] := by
    decide +kernel
  have tree : (Arith.parse "-a ** b").tree = some
      (.binary .starStar
        (some (.unary .minus (some (.word (.ofLit "a" ⟨1, 2, 1⟩))) false ⟨1, 1, 0⟩))
        (some (.word (.ofLit "b" ⟨1, 7, 6⟩))) ⟨1, 4, 3⟩) := by
    rw [Arith.parse, readParts, signed]
    rfl
  have power : scan "a**\nb" = Placed.scanned
      [(.name "a", ⟨1, 1, 0⟩), (.op .starStar, ⟨1, 2, 1⟩), (.name "b", ⟨2, 1, 4⟩)] := by
    decide +kernel
  have regular : (Arith.binary .starStar (some (.word (.ofLit "a"))) (some (.word (.ofLit "b")))
      {}).Regular :=
    .binary rfl (.word rfl (by decide : IsName "a")) (.word rfl (by decide : IsName "b"))
      (by simp [Arith.infixLevel?]) (by simp [Arith.infixLevel?]) (by decide)
  exact ⟨⟨_, tree, parse_regular.1 _ _ tree⟩, parse_regular.2 _ _ _ regular power rfl⟩

end ShellSyntax
