import ShellSyntax.Proofs.Arith.Layout
import ShellSyntax.Proofs.Arith.Outline
import ShellSyntax.Proofs.Tree.Traversal

/-!
# Expressions nested against their levels

The text of an expression has no parentheses of its own, so an expression that is nested otherwise
than the levels say is read as another one with the same lexemes.

* `fault?_lexemes`: the text of a legal expression never has a syntax error;
* `Targets`: an assignment operator stands behind a name that no tighter operator takes, as can be
  told from the lexemes alone;
* `Arith.Clear`: no assignment begins where a tighter operator would take its name;
* `parse_print_iff_clear`: so the text is read again, as an expression with the same text, exactly if
  the expression is clear.
-/

namespace ShellSyntax

/-! ### A legal expression has no fault -/

theorem Outline.step?_operand {o : Outline} {l : Lexeme} (hno : ∀ t, l ≠ .op t)
    (ho : o.after = false) : o.step? l = some { o with begun := true, after := true } := by
  cases l with
  | op t => exact absurd rfl (hno t)
  | name text | number text | param text => simp [step?, ho]

/-- Where an operand is expected, an expression is one. -/
theorem fault?_lexemes {t : Arith} (h : t.Legal) {l : List Placed} (hl : l.map Prod.fst = t.lexemes)
    (begun : Bool) (depth : Nat) (rest : List Placed) :
    Outline.fault? ⟨begun, false, depth⟩ (l ++ rest) = Outline.fault? ⟨true, true, depth⟩ rest := by
  induction h generalizing l begun depth rest with
  | @word w t hw ht =>
    rw [Arith.lexemes_word hw] at hl
    obtain ⟨⟨lexeme, pos⟩, rfl, rfl⟩ := List.map_eq_singleton_iff.mp hl
    simp [Outline.fault?, Outline.step?_operand (Word.print_of_token? hw).2]
  | @prefixed op x opPos ho hx ih =>
    rw [Arith.lexemes_prefixed] at hl
    obtain ⟨⟨lexeme, pos⟩, back, rfl, rfl, hback⟩ := List.map_eq_cons_iff.mp hl
    have hmem : op ∈ Token.prefixes := by simpa [Token.prefixLevel?_isSome] using ho
    have hne : op ≠ .leftParen := by
      rintro rfl
      cases ho
    simpa [Outline.fault?, Outline.step?, hmem, hne] using ih hback true depth rest
  | @postfixed op x opPos ho hx ih =>
    rw [Arith.lexemes_postfixed] at hl
    obtain ⟨front, back, rfl, hfront, hback⟩ := List.map_eq_append_iff.mp hl
    obtain ⟨⟨lexeme, pos⟩, rfl, rfl⟩ := List.map_eq_singleton_iff.mp hback
    have hno : ¬(op ∈ Token.binaries ∨ op ∈ Token.assignments) := by
      revert ho
      cases op <;> decide
    rw [List.append_assoc, ih hfront]
    simp [Outline.fault?, Outline.step?, hno, ho]
  | @binary op x y opPos ho hx hy ihx ihy =>
    rw [Arith.lexemes_binary] at hl
    obtain ⟨front, back, rfl, hfront, hback⟩ := List.map_eq_append_iff.mp hl
    obtain ⟨⟨lexeme, pos⟩, later, rfl, rfl, hlater⟩ := List.map_eq_cons_iff.mp hback
    have hmem : op ∈ Token.binaries ∨ op ∈ Token.assignments := by
      simpa [Token.infixLevel?_isSome] using ho
    rw [List.append_assoc, ihx hfront]
    simpa [Outline.fault?, Outline.step?, hmem] using ihy hlater true depth rest
  | @paren x lpos rpos hx ih =>
    rw [Arith.lexemes_paren] at hl
    obtain ⟨⟨lexeme, lparen⟩, back, rfl, rfl, hback⟩ := List.map_eq_cons_iff.mp hl
    obtain ⟨middle, back, rfl, hmiddle, hback⟩ := List.map_eq_append_iff.mp hback
    obtain ⟨⟨lexeme, rparen⟩, rfl, rfl⟩ := List.map_eq_singleton_iff.mp hback
    have hopen := ih hmiddle true (depth + 1) ((.op .rightParen, rparen) :: rest)
    have hclose : Outline.step? ⟨true, true, depth + 1⟩ (.op .rightParen)
        = some ⟨true, true, depth⟩ := by
      rfl
    have hfirst : Outline.step? ⟨begun, false, depth⟩ (.op .leftParen)
        = some ⟨true, false, depth + 1⟩ := by
      rfl
    simpa [Outline.fault?, hfirst, hclose] using hopen

/-! ### Assignments as the lexemes show them -/

/-- What the lexemes so far make of an assignment operator that comes next: it needs a name in front
of it, which stands at the `start` of what the operator could have on its left. -/
inductive Spot where
  | start | inner | target
  deriving DecidableEq, Repr

def Spot.next : Spot → Lexeme → Spot
  | .start, .name _ => .target
  | _, .op t => if t ∈ Token.assignments ∨ t = .comma ∨ t = .leftParen then .start else .inner
  | _, _ => .inner

/-- Every assignment operator stands behind a name that it could have on its left. -/
def Targets : Spot → List Lexeme → Prop
  | _, [] => True
  | s, l :: rest => ((∃ op ∈ Token.assignments, l = .op op) → s = .target) ∧ Targets (s.next l) rest

theorem targets_append (s : Spot) (l m : List Lexeme) :
    Targets s (l ++ m) ↔ Targets s l ∧ Targets (l.foldl Spot.next s) m := by
  induction l generalizing s with
  | nil => simp [Targets]
  | cons first rest ih => simp [Targets, ih, and_assoc]

theorem targets_op {s : Spot} {op : Token} {rest : List Lexeme} :
    Targets s (.op op :: rest)
      ↔ (op ∈ Token.assignments → s = .target) ∧ Targets (s.next (.op op)) rest := by
  simp [Targets]

theorem targets_operand {l : Lexeme} (hno : ∀ t, l ≠ .op t) (s : Spot) : Targets s [l] := by
  refine ⟨?_, trivial⟩
  rintro ⟨op, -, rfl⟩
  exact absurd rfl (hno op)

/-- The level of the assignment operators. -/
def Level.ofAssignment : Level := ⟨2, .right⟩

theorem Token.infixLevel?_of_assignment {op : Token} (h : op ∈ assignments) :
    op.infixLevel? = some .ofAssignment := by
  revert h
  cases op <;> decide

theorem Token.mem_assignments_iff (op : Token) :
    op ∈ assignments ↔ op.infixLevel? = some .ofAssignment := by
  cases op <;> decide

/-- An operator between two operands that binds tighter than an assignment. -/
theorem Token.before_ofAssignment_iff {op : Token} {level : Level} (h : op.infixLevel? = some level) :
    level.Before .ofAssignment ↔ ¬(op ∈ assignments ∨ op = .comma) := by
  revert h
  cases op <;> simp [infixLevel?] <;> rintro rfl <;> decide

theorem Token.before_ofAssignment_of_prefix {op : Token} {level : Level}
    (h : op.prefixLevel? = some level) : level.Before .ofAssignment := by
  revert h
  cases op <;> simp [prefixLevel?] <;> rintro rfl <;> decide

@[simp] theorem Spot.next_op (s : Spot) (op : Token) :
    s.next (.op op) = if op ∈ Token.assignments ∨ op = .comma ∨ op = .leftParen then .start
      else .inner := by
  cases s <;> rfl

theorem Spot.next_prefix {op : Token} (ho : op.prefixLevel?.isSome = true) (s : Spot) :
    s.next (.op op) = .inner := by
  rw [next_op]
  revert ho
  cases op <;> decide

theorem Spot.next_infix {op : Token} (ho : op.infixLevel?.isSome = true) (s : Spot) :
    s.next (.op op) = if op ∈ Token.assignments ∨ op = .comma then .start else .inner := by
  rw [next_op]
  revert ho
  cases op <;> decide

/-- Only a name at the start can be assigned to. -/
theorem Spot.next_eq_target_iff {s : Spot} {l : Lexeme} :
    s.next l = .target ↔ s = .start ∧ ∃ text, l = .name text := by
  cases l with
  | op t =>
    rw [next_op]
    split <;> simp
  | name text | number text | param text => cases s <;> simp [next]

namespace Arith

/-! ### Assignments as the tree shows them -/

/-- No assignment begins where an operator that binds tighter stands in front of it. -/
inductive Clear : Arith → Prop where
  | word (w : Word) : Clear (.word w)
  | prefixed {op : Token} {x : Arith} {pos : Pos} (hx : x.Clear)
      (h : .ofAssignment ∉ x.leftLevels) : Clear (.unary op (some x) false pos)
  | postfixed {op : Token} {x : Arith} {pos : Pos} (hx : x.Clear) :
      Clear (.unary op (some x) true pos)
  | binary {op : Token} {x y : Arith} {pos : Pos} (hx : x.Clear) (hy : y.Clear)
      (h : (op ∈ Token.assignments ∨ op = .comma) ∨ .ofAssignment ∉ y.leftLevels) :
      Clear (.binary op (some x) (some y) pos)
  | paren {x : Arith} {lparen rparen : Pos} (hx : x.Clear) : Clear (.paren (some x) lparen rparen)

theorem faults_binary_eq_nil_iff {op : Token} {x y : Arith} {pos : Pos} :
    (binary op (some x) (some y) pos).faults = [] ↔
      x.faults = [] ∧ y.faults = [] ∧ (op ∈ Token.assignments → x.assignable = true) := by
  simp [Waiting.errors]

/-- What can be assigned to is written as one name. -/
theorem lexemes_of_assignable {x : Arith} (h : x.assignable = true) :
    ∃ w text, x = .word w ∧ x.lexemes = [.name text] := by
  unfold assignable at h
  split at h
  · rename_i l
    have hname : Lexeme.ofValue l.value = .name l.value := by
      simpa [Lexeme.ofValue] using h
    exact ⟨_, l.value, rfl, lexemes_word (by rw [Word.token?, hname])⟩
  · cases h

theorem assignable_of_lexemes {w : Word} {text : String} {pos : Pos}
    (h : w.token? = some (.name text, pos)) : (word w).assignable = true := by
  unfold Word.token? at h
  split at h
  · rename_i l
    cases hd : l.value.toList.head?.any Char.isDigit with
    | false => simp [assignable, hd]
    | true =>
      rw [Lexeme.ofValue, if_pos hd] at h
      cases h
  · cases h
  · cases h

/-- In a legal expression whose assignments all have a name on their left, the lexemes show that they
do exactly if it is clear. -/
theorem targets_lexemes_iff {t : Arith} (h : t.Legal) (hf : t.faults = []) {s : Spot}
    (hs : s ≠ .target) :
    Targets s t.lexemes ↔ t.Clear ∧ (s = .inner → .ofAssignment ∉ t.leftLevels) := by
  induction h generalizing s with
  | @word w t hw ht =>
    rw [lexemes_word hw]
    exact iff_of_true (targets_operand (Word.print_of_token? hw).2 s) ⟨.word w, by simp⟩
  | @prefixed op x pos ho hx ih =>
    have hno : op ∉ Token.assignments := by
      revert ho
      cases op <;> decide
    rw [lexemes_prefixed, targets_op, Spot.next_prefix ho, ih hf (by decide)]
    constructor
    · rintro ⟨-, hclear, hlevels⟩
      exact ⟨.prefixed hclear (hlevels rfl), by simp⟩
    · rintro ⟨hclear, -⟩
      cases hclear with
      | prefixed hclear hlevels =>
        exact ⟨fun hop => absurd hop hno, hclear, fun _ => hlevels⟩
  | @postfixed op x pos ho hx ih =>
    have hno : op ∉ Token.assignments := by
      revert ho
      cases op <;> decide
    have hlevels : Level.ofAssignment ∈ (unary op (some x) true pos).leftLevels
        ↔ .ofAssignment ∈ x.leftLevels := by
      simp [Level.ofAssignment, Level.ofPostfix]
    have hclear : (unary op (some x) true pos).Clear ↔ x.Clear := by
      refine ⟨fun h => ?_, .postfixed⟩
      cases h with
      | postfixed h => exact h
    rw [lexemes_postfixed, targets_append, ih hf hs, targets_op, hlevels, hclear]
    exact and_iff_left ⟨fun hop => absurd hop hno, trivial⟩
  | @binary op x y pos ho hx hy ihx ihy =>
    obtain ⟨hfx, hfy, htarget⟩ := faults_binary_eq_nil_iff.mp hf
    rw [lexemes_binary]
    by_cases hop : op ∈ Token.assignments
    · -- The left operand is one name, so the assignment begins where the whole expression does.
      obtain ⟨w, text, rfl, hlexemes⟩ := lexemes_of_assignable (htarget hop)
      have hlevels : Level.ofAssignment ∈ (binary op (some (.word w)) (some y) pos).leftLevels := by
        simp [Token.infixLevel?_of_assignment hop]
      have hspot : s.next (.name text) = .target ↔ s ≠ .inner := by
        cases s with
        | target => exact absurd rfl hs
        | start | inner => simp [Spot.next_eq_target_iff]
      rw [hlexemes, List.singleton_append, Targets, targets_op, Spot.next_infix ho,
        if_pos (Or.inl hop), hspot, ihy hfy (by decide)]
      constructor
      · rintro ⟨-, hstart, hclear, -⟩
        exact ⟨.binary (.word w) hclear (.inl (.inl hop)), fun h => absurd h (hstart hop)⟩
      · rintro ⟨hclear, hstart⟩
        cases hclear with
        | binary _ hclear _ =>
          refine ⟨by simp, fun _ h => hstart h hlevels, hclear, by simp⟩
    · have hlevels : Level.ofAssignment ∈ (binary op (some x) (some y) pos).leftLevels
          ↔ .ofAssignment ∈ x.leftLevels := by
        simpa [← Token.mem_assignments_iff] using fun h => absurd h hop
      rw [targets_append, targets_op, ihx hfx hs, hlevels, Spot.next_infix ho,
        ihy hfy (by split <;> decide)]
      constructor
      · rintro ⟨⟨hclearx, hinner⟩, -, hcleary, hleft⟩
        refine ⟨.binary hclearx hcleary ?_, hinner⟩
        by_cases hcomma : op = .comma
        · exact Or.inl (Or.inr hcomma)
        · exact Or.inr (hleft (if_neg (not_or.mpr ⟨hop, hcomma⟩)))
      · rintro ⟨hclear, hinner⟩
        cases hclear with
        | binary hclearx hcleary hleft =>
          refine ⟨⟨hclearx, hinner⟩, fun h => absurd h hop, hcleary, fun hspot => ?_⟩
          rcases hleft with (h | rfl) | h
          · exact absurd h hop
          · cases hspot
          · exact h
  | @paren x lparen rparen hx ih =>
    have hclear : (paren (some x) lparen rparen).Clear ↔ x.Clear := by
      refine ⟨fun h => ?_, .paren⟩
      cases h with
      | paren h => exact h
    rw [lexemes_paren, targets_op, Spot.next_op, if_pos (by decide), targets_append,
      ih hf (by decide), hclear]
    simp [Targets, Token.assignments]

/-- Between two operators the tighter one has the operand, so no grouped expression has another
operator in front of its assignments. -/
theorem Grouped.clear {t : Arith} (h : t.Grouped) : t.Clear := by
  induction h with
  | word w => exact .word w
  | prefixed ho _ hlevels ih =>
    exact .prefixed ih fun hm => hlevels _ hm (Token.before_ofAssignment_of_prefix ho)
  | postfixed _ _ ih => exact .postfixed ih
  | @binary op level x y pos ho _ _ _ hlevels ihx ihy =>
    refine .binary ihx ihy ?_
    by_cases hop : op ∈ Token.assignments ∨ op = .comma
    · exact Or.inl hop
    · exact Or.inr fun hm => hlevels _ hm ((Token.before_ofAssignment_iff ho).mpr hop)
  | paren _ ih => exact .paren ih

/-- An operand that ends in the name to assign to is that name, unless an operator in it gives its
end away. -/
theorem start_of_target {x : Arith} (h : x.Legal)
    (hlevels : ∀ l ∈ x.rightLevels, l.Before .ofAssignment) {s : Spot}
    (ht : x.lexemes.foldl Spot.next s = .target) : s = .start ∧ x.assignable = true := by
  induction h generalizing s with
  | @word w t hw _ =>
    obtain ⟨l, pos⟩ := t
    rw [lexemes_word hw, List.foldl_cons, List.foldl_nil, Spot.next_eq_target_iff] at ht
    obtain ⟨rfl, text, rfl⟩ := ht
    exact ⟨rfl, assignable_of_lexemes hw⟩
  | @prefixed op x pos ho hx ih =>
    -- Behind the operator nothing is at the start, so its operand cannot end in a target.
    rw [lexemes_prefixed, List.foldl_cons, Spot.next_prefix ho] at ht
    obtain ⟨h, -⟩ := ih (fun l hl => hlevels l (by simp [hl])) ht
    cases h
  | @postfixed op x pos ho hx ih =>
    rw [lexemes_postfixed, List.foldl_append, List.foldl_cons, List.foldl_nil, Spot.next_op] at ht
    split at ht <;> cases ht
  | @binary op x y pos ho hx hy ihx ihy =>
    obtain ⟨level, hlevel⟩ := Option.isSome_iff_exists.mp ho
    have hop := (Token.before_ofAssignment_iff hlevel).mp (hlevels level (by simp [hlevel]))
    rw [lexemes_binary, List.foldl_append, List.foldl_cons, Spot.next_infix ho, if_neg hop] at ht
    obtain ⟨h, -⟩ := ihy (fun l hl => hlevels l (by simp [hl])) ht
    cases h
  | paren hx ih =>
    rw [lexemes_paren, List.foldl_cons, List.foldl_append, List.foldl_cons, List.foldl_nil,
      Spot.next_op] at ht
    split at ht <;> cases ht

/-- Where the lexemes show a name in front of every assignment operator, grouping by levels puts it
on its left. -/
theorem faults_of_targets {t : Arith} (h : t.Legal) (hg : t.Grouped) {s : Spot}
    (ht : Targets s t.lexemes) : t.faults = [] := by
  induction h generalizing s with
  | word hw _ => rfl
  | @prefixed op x pos ho hx ih =>
    cases hg with
    | prefixed _ hg _ =>
      rw [lexemes_prefixed] at ht
      exact ih hg ht.2
  | @postfixed op x pos ho hx ih =>
    cases hg with
    | postfixed hg _ =>
      rw [lexemes_postfixed, targets_append] at ht
      exact ih hg ht.1
  | @binary op x y pos ho hx hy ihx ihy =>
    cases hg with
    | @binary _ level _ _ _ hlevel hgx hgy hright _ =>
      rw [lexemes_binary, targets_append, targets_op] at ht
      obtain ⟨htx, htarget, hty⟩ := ht
      refine faults_binary_eq_nil_iff.mpr ⟨ihx hgx htx, ihy hgy hty, fun hop => ?_⟩
      -- As `x` is grouped under an assignment, every operator at its end binds tighter.
      cases hlevel.symm.trans (Token.infixLevel?_of_assignment hop)
      exact (start_of_target hx hright (htarget hop)).2
  | @paren x lparen rparen hx ih =>
    cases hg with
    | paren hg =>
      rw [lexemes_paren, targets_op, targets_append] at ht
      exact ih hg ht.2.1

/-- Two expressions with the same lexemes, one of which is grouped: its assignments are to names
exactly if those of the other are and it is clear. -/
theorem faults_iff_clear {t u : Arith} (ht : t.Legal) (hf : t.faults = []) (hu : u.Legal)
    (hg : u.Grouped) (h : u.lexemes = t.lexemes) : u.faults = [] ↔ t.Clear := by
  have hclear : Targets .start t.lexemes ↔ t.Clear := by
    simpa using targets_lexemes_iff ht hf (s := .start) (by decide)
  rw [← hclear, ← h]
  refine ⟨fun hfaults => ?_, faults_of_targets hu hg⟩
  exact (targets_lexemes_iff hu hfaults (by decide)).mpr ⟨hg.clear, by simp⟩

/-! ### The text of a legal expression -/

theorem lexemes_ne_nil {t : Arith} (h : t.Legal) : t.lexemes ≠ [] := by
  cases h with
  | word hw _ => simp [lexemes_word hw]
  | _ => simp

theorem legal_name {text : String} (h : IsName text) (pos : Pos) :
    (word (.ofLit text pos)).Legal :=
  .word (t := (.name text, pos)) (by rw [Word.ofLit, Word.token?, Lexeme.ofValue_name h]) h

theorem legal_number {text : String} (h : IsNumber text) (pos : Pos) :
    (word (.ofLit text pos)).Legal :=
  .word (t := (.number text, pos)) (by rw [Word.ofLit, Word.token?, Lexeme.ofValue_number h]) h

/-- A legal expression breaks no rule. -/
theorem violations_of_legal {t : Arith} (h : t.Legal) :
    ∀ m ∈ (Node.arith t).walk, m.violations = [] := by
  induction h with
  | @word w t hw ht =>
    unfold Word.token? at hw
    split at hw
    · simp [Node.walk_eq, Node.children, children, Part.children, Node.violations, violations]
    · rename_i name dollar
      cases hw
      have hname : name.value ≠ "" := by
        rcases ht with ht | ⟨c, -, ht⟩
        · intro he
          rw [he] at ht
          exact ht
        · simp [ht]
      simp [Node.walk_eq, Node.children, children, Part.children, Node.violations, violations,
        ParamExp.violations, ParamExp.isLong, Violation.when_eq_nil_iff, hname]
    · cases hw
  | prefixed ho hx ih =>
    rw [Node.forall_mem_walk_iff]
    simpa [Node.children, children, Node.violations, violations, Violation.when_eq_nil_iff] using ih
  | postfixed ho hx ih =>
    rw [Node.forall_mem_walk_iff]
    simpa [Node.children, children, Node.violations, violations, Violation.when_eq_nil_iff, ho]
      using ih
  | binary ho hx hy ihx ihy =>
    rw [Node.forall_mem_walk_iff]
    simpa [Node.children, children, Node.violations, violations, Violation.when_eq_nil_iff]
      using And.intro ihx ihy
  | paren hx ih =>
    rw [Node.forall_mem_walk_iff]
    simpa [Node.children, children, Node.violations, violations] using ih

end Arith

/-- The text of a legal expression that assigns to names only is read to its end, as an expression
with the same lexemes and the same text. It is read without complaint exactly if the expression is
clear; elsewhere a tighter operator takes the name in front of an assignment operator, and this is
all that is reported. Being clear is no rule of the checker. -/
theorem parse_print_iff_clear {t : Arith} (legal : t.Legal) (named : t.faults = []) :
    (∀ r, ((Node.arith t).check r).ok = true) ∧
      ∃ u, Arith.parse t.print = { built := some u, errors := u.faults } ∧
        u.lexemes = t.lexemes ∧ u.print = t.print ∧ (u.faults = [] ↔ t.Clear) := by
  refine ⟨fun r => Node.check_ok_iff.mpr (Arith.violations_of_legal legal), ?_⟩
  have hspells := Arith.spells_print legal .nil (by simp [Closes])
  rw [List.append_nil, List.append_nil] at hspells
  obtain ⟨l, hscan, hl⟩ := scan_of_spells hspells
  have hfault : Outline.fault? {} l = none := by
    have := fault?_lexemes legal hl false 0 []
    rw [List.append_nil] at this
    rw [this]
    rfl
  have hne : l ≠ [] := by
    rintro rfl
    exact Arith.lexemes_ne_nil legal hl.symm
  obtain ⟨u, hparse, hlegal, hgrouped, htokens⟩ := Arith.built_of_fault?_eq_none hscan hne hfault
  have hlexemes : u.lexemes = t.lexemes := by
    rw [← hl, ← htokens]
    rfl
  exact ⟨u, hparse, hlexemes, Arith.print_eq_of_lexemes hlegal legal hlexemes,
    Arith.faults_iff_clear legal named hlegal hgrouped hlexemes⟩

/-- The product of a sum is read as a sum with a product in it, which has the same text. -/
theorem parse_print_iff_clear_product : ∃ t : Arith,
    t.print = "a + b * c" ∧ t.Clear ∧ t.Legal ∧ t.faults = [] ∧
      (∀ r, ((Node.arith t).check r).ok = true) ∧
      ∃ u, Arith.parse t.print = { built := some u, errors := u.faults } ∧
        u.lexemes = t.lexemes ∧ u.print = t.print ∧ (u.faults = [] ↔ t.Clear) := by
  let sum : Arith := .binary .plus (some (.word (.ofLit "a"))) (some (.word (.ofLit "b"))) {}
  let t : Arith := .binary .star (some sum) (some (.word (.ofLit "c"))) {}
  have legal : t.Legal :=
    .binary (by decide)
      (.binary (by decide) (Arith.legal_name (by decide) {}) (Arith.legal_name (by decide) {}))
      (Arith.legal_name (by decide) {})
  have clear : t.Clear := .binary (.binary (.word _) (.word _) (by decide)) (.word _) (by decide)
  have named : t.faults = [] := by
    decide
  exact ⟨t, by decide, clear, legal, named, parse_print_iff_clear legal named⟩

/-- An assignment inside a sum breaks no rule, but is not read from its text. -/
theorem tree_of_assignment_in_sum : ∃ t : Arith,
    t.print = "b + a = 1" ∧ t.Legal ∧ t.faults = [] ∧ ((Node.arith t).check {}).ok = true ∧
      ¬∃ u, Arith.parse t.print = { built := some u, errors := [] } ∧ u.print = t.print := by
  let assignment : Arith := .binary .equal (some (.word (.ofLit "a"))) (some (.word (.ofLit "1"))) {}
  let t : Arith := .binary .plus (some (.word (.ofLit "b"))) (some assignment) {}
  have number : IsNumber "1" := Or.inl (by decide)
  have legal : t.Legal :=
    .binary (by decide) (Arith.legal_name (by decide) {})
      (.binary (by decide) (Arith.legal_name (by decide) {}) (Arith.legal_number number {}))
  have printed : t.print = "b + a = 1" := by
    decide
  have scanned : scan "b + a = 1" = Placed.scanned
      [(.name "b", ⟨1, 1, 0⟩), (.op .plus, ⟨1, 3, 2⟩), (.name "a", ⟨1, 5, 4⟩),
       (.op .equal, ⟨1, 7, 6⟩), (.number "1", ⟨1, 9, 8⟩)] := by
    decide +kernel
  have faulty : (Arith.parse "b + a = 1").errors.length = 1 := by
    rw [Arith.parse, readParts, scanned]
    rfl
  refine ⟨t, printed, legal, rfl, by decide +kernel, ?_⟩
  rintro ⟨u, hu, -⟩
  rw [printed] at hu
  rw [hu] at faulty
  cases faulty

end ShellSyntax
