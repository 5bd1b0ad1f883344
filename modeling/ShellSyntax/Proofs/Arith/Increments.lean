import ShellSyntax.Proofs.Arith.Assignments
import ShellSyntax.Proofs.Arith.Regular

/-!
# Increments on both sides of an operand

A postfix operator leaves its operand to `++` and `--` in front of it, and takes it from every other
prefix operator.

* `Arith.Shows`: an expression stands in another one behind and in front of given lexemes
  (`Shows.tokens_eq`), as every expression in it does (`mem_postorder_iff`);
* `Regular.exists_prefixed_under_postfix`: where `++` or `--` stands on both sides of one word or
  parenthesis, a prefix operator is the operand of a postfix one;
* `prefix_under_postfix_iff`: in the tree of a text this is so only there.
-/

namespace ShellSyntax

/-- One of `++` and `--`. -/
def Lexeme.counts : Lexeme → Bool
  | .op t => t ∈ Token.postfixes
  | _ => false

namespace Token

theorem not_postfix_of_infixLevel? {op : Token} (h : op.infixLevel?.isSome = true) :
    op ∉ postfixes := by
  cases op <;> first | decide | cases h

end Token

namespace Arith

/-- A prefix operator with its operand. -/
def isPrefixed : Arith → Bool
  | .unary _ _ postfixed _ => !postfixed
  | _ => false

/-- A word or parenthesis, in which no operator stands outside of parentheses. -/
def isPrimary : Arith → Bool
  | .word _ | .paren .. => true
  | _ => false

/-! ### Where an expression stands in another -/

/-- `t.Shows x before after`: `x` stands in `t`, behind the lexemes `before` and in front of
`after`. -/
inductive Shows : Arith → Arith → List Placed → List Placed → Prop
  | self (t : Arith) : Shows t t [] []
  | prefixed {op : Token} {y x : Arith} {pos : Pos} {before after : List Placed}
      (h : Shows y x before after) :
      Shows (.unary op (some y) false pos) x ((.op op, pos) :: before) after
  | postfixed {op : Token} {y x : Arith} {pos : Pos} {before after : List Placed}
      (h : Shows y x before after) :
      Shows (.unary op (some y) true pos) x before (after ++ [(.op op, pos)])
  | left {op : Token} {y x : Arith} {right : Option Arith} {pos : Pos} {before after : List Placed}
      (h : Shows y x before after) :
      Shows (.binary op (some y) right pos) x before (after ++ (.op op, pos) :: tokens? right)
  | right {op : Token} {y x : Arith} {left : Option Arith} {pos : Pos} {before after : List Placed}
      (h : Shows y x before after) :
      Shows (.binary op left (some y) pos) x (tokens? left ++ (.op op, pos) :: before) after
  | paren {y x : Arith} {lparen rparen : Pos} {before after : List Placed}
      (h : Shows y x before after) :
      Shows (.paren (some y) lparen rparen) x ((.op .leftParen, lparen) :: before)
        (after ++ [(.op .rightParen, rparen)])

section Shows

variable {t x y : Arith} {before after before' after' : List Placed}

theorem Shows.tokens_eq (h : t.Shows x before after) : t.tokens = before ++ x.tokens ++ after := by
  induction h with
  | self => simp
  | prefixed _ ih | postfixed _ ih | left _ ih | right _ ih | paren _ ih => simp [ih]

theorem Shows.trans (h : t.Shows y before after) (h' : y.Shows x before' after') :
    t.Shows x (before ++ before') (after' ++ after) := by
  induction h with
  | self => simpa using h'
  | prefixed _ ih => exact .prefixed (ih h')
  | postfixed _ ih => simpa using Shows.postfixed (ih h')
  | left _ ih => simpa using Shows.left (ih h')
  | right _ ih => simpa using Shows.right (ih h')
  | paren _ ih => simpa using Shows.paren (ih h')

theorem mem_postorder_self (t : Arith) : t ∈ t.postorder := by
  cases t <;> simp

theorem Shows.mem_postorder (h : t.Shows x before after) : x ∈ t.postorder := by
  induction h with
  | self t => exact t.mem_postorder_self
  | prefixed _ ih | postfixed _ ih | left _ ih | right _ ih | paren _ ih => simp [ih]

theorem Legal.exists_shows (h : t.Legal) (hx : x ∈ t.postorder) :
    ∃ before after, t.Shows x before after := by
  induction h with
  | word hw ht =>
    obtain rfl : x = _ := by simpa using hx
    exact ⟨_, _, .self _⟩
  | prefixed ho hy ih =>
    rcases List.mem_append.mp hx with hx | hx
    · obtain ⟨before, after, hshows⟩ := ih hx
      exact ⟨_, _, .prefixed hshows⟩
    · obtain rfl := List.mem_singleton.mp hx
      exact ⟨_, _, .self _⟩
  | postfixed ho hy ih =>
    rcases List.mem_append.mp hx with hx | hx
    · obtain ⟨before, after, hshows⟩ := ih hx
      exact ⟨_, _, .postfixed hshows⟩
    · obtain rfl := List.mem_singleton.mp hx
      exact ⟨_, _, .self _⟩
  | binary ho hy hz ihy ihz =>
    simp only [postorder, postorder?, List.mem_append, List.mem_singleton] at hx
    rcases hx with (hx | hx) | rfl
    · obtain ⟨before, after, hshows⟩ := ihy hx
      exact ⟨_, _, .left hshows⟩
    · obtain ⟨before, after, hshows⟩ := ihz hx
      exact ⟨_, _, .right hshows⟩
    · exact ⟨_, _, .self _⟩
  | paren hy ih =>
    rcases List.mem_append.mp hx with hx | hx
    · obtain ⟨before, after, hshows⟩ := ih hx
      exact ⟨_, _, .paren hshows⟩
    · obtain rfl := List.mem_singleton.mp hx
      exact ⟨_, _, .self _⟩

theorem mem_postorder_iff (h : t.Legal) :
    x ∈ t.postorder ↔ ∃ before after, t.Shows x before after :=
  ⟨h.exists_shows, fun ⟨_, _, hshows⟩ => hshows.mem_postorder⟩

theorem Regular.of_shows (h : t.Regular) (hx : t.Shows x before after) : x.Regular := by
  induction hx with
  | self => exact h
  | prefixed _ ih | postfixed _ ih | paren _ ih => cases h with | _ => exact ih ‹_›
  | left _ ih => cases h with | binary _ hy _ => exact ih hy
  | right _ ih => cases h with | binary _ _ hz => exact ih hz

end Shows

/-! ### Increments on both sides -/

/-- `++` or `--` stands last. -/
def CountsBehind (before : List Placed) : Prop := ∃ e ∈ before.getLast?, e.1.counts = true

/-- `++` or `--` stands first. -/
def CountsAhead (after : List Placed) : Prop := ∃ e ∈ after.head?, e.1.counts = true

section Increments

variable {t x : Arith} {e : Placed} {before after rest : List Placed}

@[simp] theorem not_countsBehind_nil : ¬CountsBehind [] := by simp [CountsBehind]

@[simp] theorem not_countsAhead_nil : ¬CountsAhead [] := by simp [CountsAhead]

/-- The last lexeme is the only one, or the last of the others. -/
theorem countsBehind_append_cons (rest : List Placed) : CountsBehind (rest ++ e :: before) ↔
    before = [] ∧ e.1.counts = true ∨ CountsBehind before := by
  cases before with
  | nil => simp [CountsBehind]
  | cons f before => simp [CountsBehind]

theorem countsAhead_append_cons : CountsAhead (after ++ e :: rest) ↔
    after = [] ∧ e.1.counts = true ∨ CountsAhead after := by
  cases after with
  | nil => simp [CountsAhead]
  | cons f after => simp [CountsAhead]

/-- A chain of increments in front of a word or parenthesis ends with one right in front of it. -/
theorem Counted.exists_shows (h : t.Counted) (hp : t.isPrefixed = true) :
    ∃ x before, t.Shows x before [] ∧ x.isPrimary = true ∧ CountsBehind before := by
  induction h with
  | word | paren => cases hp
  | @prefixed op y pos ho hy ih =>
    have hop : (Lexeme.op op).counts = true := decide_eq_true ho
    cases hy with
    | word | paren =>
      exact ⟨_, _, .prefixed (.self _), rfl, by simpa [CountsBehind] using hop⟩
    | prefixed =>
      obtain ⟨x, before, hshows, hx, hbefore⟩ := ih rfl
      refine ⟨x, _, .prefixed hshows, hx, ?_⟩
      exact (countsBehind_append_cons []).mpr (.inr hbefore)

/-- An increment takes what begins with an operand before a postfix operator does. -/
theorem Regular.not_countsAhead (h : t.Regular) (binary : t.infixLevel? = none)
    (postfixed : t.isPostfixed = false) (hshows : t.Shows x before after) (hbefore : before = []) :
    ¬CountsAhead after := by
  cases hshows with
  | self => exact not_countsAhead_nil
  | prefixed | paren => cases hbefore
  | postfixed => cases postfixed
  | left =>
    cases h with
    | binary ho =>
      rw [infixLevel?, ho] at binary
      cases binary
  | right => simp at hbefore

/-- What a postfix operator takes begins with an increment only if that stands over it all. -/
theorem Regular.isPrefixed_of_countsBehind (h : t.Regular) (binary : t.infixLevel? = none)
    (hshows : t.Shows x before after) (hafter : after = []) (hbefore : CountsBehind before) :
    t.isPrefixed = true := by
  cases hshows with
  | self => exact absurd hbefore not_countsBehind_nil
  | prefixed => rfl
  | postfixed | paren | left => simp at hafter
  | right =>
    cases h with
    | binary ho =>
      rw [infixLevel?, ho] at binary
      cases binary

/-- The induction goes up from the operand. Another operator or a parenthesis beside the operand
leaves no increment there, and of the two that meet over it the one in front is below. -/
theorem Regular.exists_prefixed_under_postfix (h : t.Regular) (hshows : t.Shows x before after)
    (hbefore : CountsBehind before) (hafter : CountsAhead after) :
    ∃ op y pos, .unary op (some y) true pos ∈ t.postorder ∧ y.isPrefixed = true := by
  induction hshows with
  | self => exact absurd hbefore not_countsBehind_nil
  | @prefixed op y x pos before after hshows ih =>
    cases h with
    | prefixed ho hy binary hpostfixed =>
      rcases (countsBehind_append_cons []).mp hbefore with ⟨hnil, hop⟩ | hbefore
      · have hcounts : op ∈ Token.postfixes := of_decide_eq_true hop
        exact absurd hafter (hy.not_countsAhead binary (hpostfixed hcounts) hshows hnil)
      · obtain ⟨op', y', pos', hmem, hy'⟩ := ih hy hbefore hafter
        exact ⟨op', y', pos', by simp [hmem], hy'⟩
  | @postfixed op y x pos before after hshows ih =>
    cases h with
    | postfixed ho hy binary =>
      rcases countsAhead_append_cons.mp hafter with ⟨hnil, -⟩ | hafter
      · exact ⟨op, y, pos, mem_postorder_self _,
          hy.isPrefixed_of_countsBehind binary hshows hnil hbefore⟩
      · obtain ⟨op', y', pos', hmem, hy'⟩ := ih hy hbefore hafter
        exact ⟨op', y', pos', by simp [hmem], hy'⟩
  | @left op y x right pos before after hshows ih =>
    cases h with
    | binary ho hy hz =>
      rcases countsAhead_append_cons.mp hafter with ⟨-, hop⟩ | hafter
      · exact absurd (of_decide_eq_true hop) (Token.not_postfix_of_infixLevel? (by rw [ho]; rfl))
      · obtain ⟨op', y', pos', hmem, hy'⟩ := ih hy hbefore hafter
        exact ⟨op', y', pos', by simp [hmem], hy'⟩
  | @right op y x left pos before after hshows ih =>
    cases h with
    | binary ho hz hy =>
      rcases (countsBehind_append_cons _).mp hbefore with ⟨-, hop⟩ | hbefore
      · exact absurd (of_decide_eq_true hop) (Token.not_postfix_of_infixLevel? (by rw [ho]; rfl))
      · obtain ⟨op', y', pos', hmem, hy'⟩ := ih hy hbefore hafter
        exact ⟨op', y', pos', by simp [hmem], hy'⟩
  | @paren y x lparen rparen before after hshows ih =>
    cases h with
    | paren hy =>
      rcases (countsBehind_append_cons []).mp hbefore with ⟨-, hop⟩ | hbefore
      · cases hop
      · rcases countsAhead_append_cons.mp hafter with ⟨-, hop⟩ | hafter
        · cases hop
        · obtain ⟨op', y', pos', hmem, hy'⟩ := ih hy hbefore hafter
          exact ⟨op', y', pos', by simp [hmem], hy'⟩

/-- The operand of a postfix operator is prefixed by increments only. -/
theorem Regular.counted_under_postfix {op : Token} {pos : Pos} (h : t.Regular)
    (hm : .unary op (some x) true pos ∈ t.postorder) (hp : x.isPrefixed = true) :
    op ∈ Token.postfixes ∧ x.Counted := by
  obtain ⟨before, after, hshows⟩ := (mem_postorder_iff (legal_of_regular h)).mp hm
  cases h.of_shows hshows with
  | postfixed ho _ _ operand =>
    refine ⟨ho, operand.resolve_left ?_⟩
    cases x with
    | unary op' y postfixed pos' => cases postfixed <;> simp_all [isPrefixed, isPostfixed]
    | _ => cases hp

end Increments

theorem regular_of_tree {text : String} {t : Arith} (h : (Arith.parse text).tree = some t) :
    t.Regular ∧ scan text = Placed.scanned t.tokens := by
  obtain ⟨legal, grouped, faults, hscan⟩ := whole_of_parse (Reading.tree_eq_some_iff.mp h)
  exact ⟨regular_of_grouped legal grouped faults, hscan⟩

end Arith

/-- In the tree of a text, the operand of a postfix operator is a prefix operator with its own
operand only if `++` and `--` alone stand in front of a word or parenthesis. It is somewhere,
exactly if the text somewhere has such an increment right in front of a word or parenthesis and
another one right behind it: the one in front takes it first. -/
theorem prefix_under_postfix_iff {text : String} {t : Arith}
    (h : (Arith.parse text).tree = some t) :
    (∀ op x pos, .unary op (some x) true pos ∈ t.postorder → x.isPrefixed = true → x.Counted) ∧
    ((∃ op x pos, .unary op (some x) true pos ∈ t.postorder ∧ x.isPrefixed = true) ↔
      ∃ x before after, x.isPrimary = true ∧ t.Shows x before after ∧
        scan text = Placed.scanned (before ++ x.tokens ++ after) ∧
        Arith.CountsBehind before ∧ Arith.CountsAhead after) := by
  obtain ⟨hregular, hscan⟩ := Arith.regular_of_tree h
  refine ⟨fun op x pos hm hp => (hregular.counted_under_postfix hm hp).2, ?_, ?_⟩
  · rintro ⟨op, y, pos, hm, hp⟩
    obtain ⟨hop, hcounted⟩ := hregular.counted_under_postfix hm hp
    obtain ⟨x, before, hinner, hx, hbefore⟩ := hcounted.exists_shows hp
    obtain ⟨front, back, houter⟩ :=
      (Arith.mem_postorder_iff (Arith.legal_of_regular hregular)).mp hm
    have hshows := houter.trans (.postfixed hinner)
    refine ⟨x, _, _, hx, hshows, by rw [hscan, hshows.tokens_eq], ?_, ?_⟩
    · obtain ⟨e, he, hcounts⟩ := hbefore
      exact ⟨e, by simp [List.getLast?_append, Option.mem_def.mp he], hcounts⟩
    · exact ⟨(.op op, pos), by simp, decide_eq_true hop⟩
  · rintro ⟨x, before, after, -, hshows, -, hbefore, hafter⟩
    exact hregular.exists_prefixed_under_postfix hshows hbefore hafter

/-- Of the operators in front of `a`, the increment gets it before the postfix operator does, and
the sign after. -/
theorem prefix_under_postfix_iff_signed : ∃ t, (Arith.parse "-++a-- * b++").tree = some t ∧
    (∀ op x pos, .unary op (some x) true pos ∈ t.postorder → x.isPrefixed = true → x.Counted) ∧
    ∃ x before after, x.isPrimary = true ∧ t.Shows x before after ∧
      scan "-++a-- * b++" = Placed.scanned (before ++ x.tokens ++ after) ∧
      Arith.CountsBehind before ∧ Arith.CountsAhead after := by
  let a : Arith := .word (.ofLit "a" ⟨1, 4, 3⟩)
  let b : Arith := .word (.ofLit "b" ⟨1, 10, 9⟩)
  let counted : Arith := .unary .plusPlus (some a) false ⟨1, 2, 1⟩
  let taken : Arith := .unary .minusMinus (some counted) true ⟨1, 5, 4⟩
  let t : Arith := .binary .star (some (.unary .minus (some taken) false ⟨1, 1, 0⟩))
    (some (.unary .plusPlus (some b) true ⟨1, 11, 10⟩)) ⟨1, 8, 7⟩
  have lexemes : scan "-++a-- * b++" = Placed.scanned
      [(.op .minus, ⟨1, 1, 0⟩), (.op .plusPlus, ⟨1, 2, 1⟩), (.name "a", ⟨1, 4, 3⟩),
       (.op .minusMinus, ⟨1, 5, 4⟩), (.op .star, ⟨1, 8, 7⟩), (.name "b", ⟨1, 10, 9⟩),
       (.op .plusPlus, ⟨1, 11, 10⟩)] := by
    decide +kernel
  have tree : (Arith.parse "-++a-- * b++").tree = some t := by
    rw [Arith.parse, readParts, lexemes]
    rfl
  obtain ⟨increments, places⟩ := prefix_under_postfix_iff tree
  have under : .unary .minusMinus (some counted) true ⟨1, 5, 4⟩ ∈ t.postorder := by
    simp [t, taken]
  exact ⟨t, tree, increments, places.mp ⟨_, _, _, under, rfl⟩⟩

/-- Here no parenthesis is around the operand. -/
theorem prefix_increment_taken_first : ∃ op x pos t, (Arith.parse "++a++").tree = some t ∧
    .unary op (some x) true pos ∈ t.postorder ∧ x.isPrefixed = true := by
  let counted : Arith :=
    .unary .plusPlus (some (.word (.ofLit "a" ⟨1, 3, 2⟩))) false ⟨1, 1, 0⟩
  have lexemes : scan "++a++" = Placed.scanned
      [(.op .plusPlus, ⟨1, 1, 0⟩), (.name "a", ⟨1, 3, 2⟩), (.op .plusPlus, ⟨1, 4, 3⟩)] := by
    decide +kernel
  have tree : (Arith.parse "++a++").tree
      = some (.unary .plusPlus (some counted) true ⟨1, 4, 3⟩) := by
    rw [Arith.parse, readParts, lexemes]
    rfl
  exact ⟨_, _, _, _, tree, Arith.mem_postorder_self _, rfl⟩

end ShellSyntax
