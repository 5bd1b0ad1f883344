import ShellSyntax.Proofs.Arith.Grouping

/-!
# Where an expression goes wrong

Seen from outside, an expression alternates between operands and operators, with parentheses in
pairs. An `Outline` remembers only which of the two comes next and how many parentheses are open.

* `Outline.fault?`: the first lexeme that cannot stand where it does, or the end where the text may
  not end yet;
* `outline_shift`: a stack takes a lexeme exactly if its outline does;
* `first_syntax_error`: so the first syntax error of a text is the first fault of its outline;
* `Arith.built_of_fault?_eq_none`: a text without a fault is read to its end, whatever is wrong with
  its assignments.
-/

namespace ShellSyntax

namespace Token

/-- Operators between two operands. -/
def binaries : List Token :=
  [.comma, .orOr, .andAnd, .bar, .caret, .ampersand, .equalEqual, .bangEqual,
   .less, .lessEqual, .greater, .greaterEqual, .lessLess, .greaterGreater,
   .plus, .minus, .star, .slash, .percent, .starStar]

/-- Operators in front of an operand. -/
def prefixes : List Token := [.minus, .plus, .bang, .tilde, .plusPlus, .minusMinus]

theorem infixLevel?_isSome (t : Token) :
    t.infixLevel?.isSome = decide (t ∈ binaries ∨ t ∈ assignments) := by
  cases t <;> decide

theorem prefixLevel?_isSome (t : Token) : t.prefixLevel?.isSome = decide (t ∈ prefixes) := by
  cases t <;> decide

end Token

/-- What has been read of an expression: whether anything was, whether an operand stands at its end,
and how many parentheses are open. -/
structure Outline where
  begun : Bool := false
  after : Bool := false
  depth : Nat := 0
  deriving DecidableEq, Repr

namespace Outline

/-- The outline with one more lexeme, unless the lexeme cannot stand here. -/
def step? (o : Outline) : Lexeme → Option Outline
  | .name _ | .number _ | .param _ =>
    if o.after then none else some { o with begun := true, after := true }
  | .op t =>
    if o.after then
      if t ∈ Token.binaries ∨ t ∈ Token.assignments then some { o with begun := true, after := false }
      else if t ∈ Token.postfixes then some { o with begun := true }
      else if t = .rightParen ∧ 0 < o.depth then
        some { o with begun := true, depth := o.depth - 1 }
      else none
    else
      if t = .leftParen then some { o with begun := true, depth := o.depth + 1 }
      else if t ∈ Token.prefixes then some { o with begun := true }
      else none

/-- The text may end here. -/
def Ends (o : Outline) : Prop := o.begun = false ∨ o.after = true ∧ o.depth = 0

instance (o : Outline) : Decidable o.Ends := by unfold Ends; infer_instance

/-- The first of the lexemes that cannot stand where it does, or the end behind them. -/
def fault? (o : Outline) : List Placed → Option ArithError
  | [] => if o.Ends then none else some .unexpectedEnd
  | (l, pos) :: rest =>
    match o.step? l with
    | some next => next.fault? rest
    | none => some (.unexpected l pos)

end Outline

/-- The lexemes of a scan. -/
def Scanned.lexemes (l : List Scanned) : List Placed := l.filterMap fun
  | .lexeme l pos => some (l, pos)
  | .illegal _ _ => none

namespace ArithError

/-- Whether the error is one of syntax. -/
def isSyntax : ArithError → Bool
  | .unexpected _ _ | .unexpectedEnd => true
  | .illegal _ _ | .notAssignable _ _ _ => false

/-- Whether the error is about an assignment. -/
def isAssignment : ArithError → Bool
  | .notAssignable _ _ _ => true
  | .illegal _ _ | .unexpected _ _ | .unexpectedEnd => false

theorem isSyntax_of_isAssignment {e : ArithError} (h : e.isAssignment = true) :
    e.isSyntax = false := by
  cases e with
  | notAssignable op target pos => rfl
  | illegal c pos | unexpected l pos | unexpectedEnd => cases h

end ArithError

/-! ### The outline of a stack -/

namespace Frame

/-- The number of open parentheses. -/
@[simp] def depth : List Frame → Nat
  | [] => 0
  | .paren _ :: rest => depth rest + 1
  | .waiting _ :: rest => depth rest

end Frame

def Stack.outline (s : Stack) : Outline where
  begun := s.operand.isSome || !s.frames.isEmpty
  after := s.operand.isSome
  depth := Frame.depth s.frames

@[simp] theorem depth_settle (ready : Waiting → Bool) (frames : List Frame) (x : Arith) :
    Frame.depth (settle ready frames x).frames = Frame.depth frames := by
  induction frames generalizing x with
  | nil => rfl
  | cons f rest ih =>
    cases f with
    | paren lparen => rfl
    | waiting w =>
      by_cases hw : ready w = true
      · simp [settle, hw, ih]
      · simp [settle, hw]

/-- When everything settles, a parenthesis is innermost, or nothing is open. -/
theorem settle_all_cases (frames : List Frame) (x : Arith) :
    (settle (fun _ => true) frames x).frames = [] ∧ Frame.depth frames = 0 ∨
      ∃ lparen rest, (settle (fun _ => true) frames x).frames = .paren lparen :: rest ∧
        Frame.depth frames = Frame.depth rest + 1 := by
  induction frames generalizing x with
  | nil => exact Or.inl ⟨rfl, rfl⟩
  | cons f rest ih =>
    cases f with
    | paren lparen => exact Or.inr ⟨lparen, rest, rfl, rfl⟩
    | waiting w => exact ih (w.apply x)

theorem outline_shiftOperand {s : Stack} (hs : s.operand = none) (hp : s.parts = []) (l : Lexeme)
    (pos : Pos) : (s.shiftOperand 1 pos l).stack.map Stack.outline = s.outline.step? l := by
  obtain ⟨parts, frames, operand⟩ := s
  cases hs
  cases hp
  cases l with
  | name text | number text | param text => rfl
  | op t =>
    have hnext : ¬([] : List (Option Arith)).length + 1 < 1 := by simp
    simp only [Stack.shiftOperand, Outline.step?, Stack.outline, Token.prefixLevel?_isSome,
      Option.isSome_none, Bool.false_eq_true, if_false, decide_eq_true_eq, hnext, and_false]
    by_cases hleft : t = .leftParen
    · simp [hleft, Stack.outline]
    · by_cases hfront : t ∈ Token.prefixes
      · simp [hleft, hfront, Stack.outline]
      · simp [hleft, hfront]

theorem outline_shiftOperator {s : Stack} {x : Arith} (hs : s.operand = some x) (l : Lexeme)
    (pos : Pos) : (s.shiftOperator 1 x pos l).stack.map Stack.outline = s.outline.step? l := by
  obtain ⟨parts, frames, operand⟩ := s
  cases hs
  cases l with
  | name text | number text | param text => rfl
  | op t =>
    have hinfix := Token.infixLevel?_isSome t
    simp only [Stack.shiftOperator, Outline.step?, Stack.outline, Option.isSome_some, if_true]
    cases hlevel : t.infixLevel? with
    | some level =>
      rw [hlevel] at hinfix
      have hmem : t ∈ Token.binaries ∨ t ∈ Token.assignments := by simpa using hinfix
      simp [hmem, Stack.outline]
    | none =>
      rw [hlevel] at hinfix
      have hmem : ¬(t ∈ Token.binaries ∨ t ∈ Token.assignments) := by simpa using hinfix
      simp only [hmem, if_false]
      by_cases hbehind : t ∈ Token.postfixes
      · simp [hbehind, Stack.outline]
      · by_cases hright : t = .rightParen
        · subst hright
          rcases settle_all_cases frames x with ⟨hframes, hdepth⟩ | ⟨lparen, rest, hframes, hdepth⟩
          · simp [hbehind, hframes, hdepth]
          · simp [hbehind, hframes, hdepth, Stack.outline]
        · simp [hbehind, hright]

/-- A lexeme fits onto a stack exactly if it fits behind its outline. -/
theorem outline_shift {s : Stack} (hp : s.parts = []) (l : Lexeme) (pos : Pos) :
    (s.shift 1 l pos).stack.map Stack.outline = s.outline.step? l := by
  unfold Stack.shift
  split
  · rename_i hs
    exact outline_shiftOperand hs hp l pos
  · rename_i x hs
    exact outline_shiftOperator hs l pos

theorem parts_shift {s s' : Stack} {l : Lexeme} {pos : Pos} (hp : s.parts = [])
    (h : (s.shift 1 l pos).stack = some s') : s'.parts = [] := by
  obtain ⟨errors, hs⟩ : ∃ errors, Shifts 1 s (l, pos) errors s' := by
    refine ⟨(s.shift 1 l pos).errors, shifts_of_shift ?_⟩
    rw [← h]
  cases hs with
  | emptyPart hn | part hn => omega
  | _ => exact hp

/-- The text may end on a stack exactly if it may end on its outline. -/
theorem ends_outline_iff {s : Stack} (hp : s.parts = []) :
    s.outline.Ends ↔ (s.finish 1).2.isSome = true := by
  obtain ⟨parts, frames, operand⟩ := s
  cases hp
  cases operand with
  | none => cases frames <;> simp [Stack.finish, Stack.outline, Outline.Ends]
  | some x =>
    rcases settle_all_cases frames x with ⟨hframes, hdepth⟩ | ⟨lparen, rest, hframes, hdepth⟩
    · simp [Stack.finish, Stack.outline, Outline.Ends, hframes, hdepth]
    · simp [Stack.finish, Stack.outline, Outline.Ends, hframes, hdepth]

/-! ### The first syntax error -/

theorem isAssignment_of_settle {ready : Waiting → Bool} {frames : List Frame} {x : Arith} :
    ∀ e ∈ (settle ready frames x).errors, e.isAssignment = true := by
  induction frames generalizing x with
  | nil => simp [settle]
  | cons f rest ih =>
    cases f with
    | paren lparen => simp [settle]
    | waiting w =>
      simp only [settle]
      split
      · intro e he
        rcases List.mem_append.mp he with he | he
        · cases w with
          | prefixOp op pos => cases he
          | infixOp left op pos =>
            simp only [Waiting.errors] at he
            split at he
            · rw [List.mem_singleton.mp he]
              rfl
            · cases he
        · exact ih e he
      · simp

/-- All that may be wrong before a lexeme is reached is an assignment. -/
theorem isAssignment_of_shift {parts : Nat} {s : Stack} {l : Lexeme} {pos : Pos} :
    ∀ e ∈ (s.shift parts l pos).errors, e.isAssignment = true := by
  have hsettle : (s.shift parts l pos).errors = [] ∨
      ∃ ready x, (s.shift parts l pos).errors = (settle ready s.frames x).errors := by
    cases hs : s.operand with
    | none =>
      simp only [Stack.shift, hs]
      cases l with
      | name text | number text | param text => exact Or.inl rfl
      | op t =>
        simp only [Stack.shiftOperand]
        repeat' split
        all_goals exact Or.inl rfl
    | some x =>
      simp only [Stack.shift, hs]
      cases l with
      | name text | number text | param text => exact Or.inl rfl
      | op t =>
        simp only [Stack.shiftOperator]
        repeat' split
        all_goals first | exact Or.inl rfl | exact Or.inr ⟨_, _, rfl⟩
  rcases hsettle with h | ⟨ready, x, h⟩
  · simp [h]
  · rw [h]
    exact isAssignment_of_settle

theorem isAssignment_of_finish {parts : Nat} {s : Stack} :
    ∀ e ∈ (s.finish parts).1, e.isAssignment = true := by
  unfold Stack.finish
  split
  · simp
  · exact isAssignment_of_settle

/-- The outcome of a run that ends here. -/
def Progress.reading (parts : Nat) (p : Progress) : Reading (List (Option Arith)) :=
  match p.stack.finish parts with
  | (errors, some l) => { built := some l, errors := p.errors ++ errors }
  | (errors, none) =>
    { built := none
      errors := ({ p with errors := p.errors ++ errors }.refuse .unexpectedEnd).errors }

theorem errors_prefix_reading (parts : Nat) (p : Progress) : p.errors <+: (p.reading parts).errors := by
  unfold Progress.reading
  split
  · exact List.prefix_append _ _
  · simp only [Progress.refuse]
    split
    · rw [List.append_assoc]
      exact List.prefix_append _ _
    · exact List.prefix_append _ _

theorem find_isSyntax_append {before more : List ArithError} (h : ∀ e ∈ before, e.isSyntax = false) :
    (before ++ more).find? ArithError.isSyntax = more.find? ArithError.isSyntax := by
  rw [List.find?_append, List.find?_eq_none.mpr (by simpa using h)]
  rfl

/-- Until a syntax error is met, the outline of the stack tells where the next one is. -/
theorem find_isSyntax_reading {l : List Scanned} {p : Progress} (hq : p.quiet = 0)
    (hp : p.stack.parts = []) (he : ∀ e ∈ p.errors, e.isSyntax = false) :
    ((l.foldl (Progress.step 1) p).reading 1).errors.find? ArithError.isSyntax
      = p.stack.outline.fault? (Scanned.lexemes l) := by
  induction l generalizing p with
  | nil =>
    have hends := ends_outline_iff hp
    have hfinish : ∀ e ∈ (p.stack.finish 1).1, e.isSyntax = false := fun e he =>
      ArithError.isSyntax_of_isAssignment (isAssignment_of_finish e he)
    simp only [List.foldl_nil, Progress.reading, Scanned.lexemes, List.filterMap_nil,
      Outline.fault?]
    split
    · rename_i errors read heq
      rw [heq] at hends hfinish
      rw [if_pos (hends.mpr rfl), find_isSyntax_append he]
      exact List.find?_eq_none.mpr (by simpa using hfinish)
    · rename_i errors heq
      rw [heq] at hends hfinish
      rw [if_neg (fun h => by cases hends.mp h)]
      simp only [Progress.refuse, hq, if_true]
      rw [List.append_assoc, find_isSyntax_append he, find_isSyntax_append hfinish]
      rfl
  | cons e rest ih =>
    rw [List.foldl_cons]
    cases e with
    | illegal c pos =>
      apply ih
      · exact hq
      · exact hp
      · intro e hm
        rcases List.mem_append.mp hm with hm | hm
        · exact he e hm
        · rw [List.mem_singleton.mp hm]
          rfl
    | lexeme l pos =>
      have hsquare := outline_shift hp l pos
      have hshift : ∀ e ∈ (p.stack.shift 1 l pos).errors, e.isSyntax = false := fun e he =>
        ArithError.isSyntax_of_isAssignment (isAssignment_of_shift e he)
      have hlexemes : Scanned.lexemes (.lexeme l pos :: rest) = (l, pos) :: Scanned.lexemes rest :=
        rfl
      simp only [hlexemes, Outline.fault?, ← hsquare, Progress.step]
      have hsofar : ∀ e ∈ p.errors ++ (p.stack.shift 1 l pos).errors, e.isSyntax = false := by
        intro e hm
        rcases List.mem_append.mp hm with hm | hm
        · exact he e hm
        · exact hshift e hm
      cases hstack : (p.stack.shift 1 l pos).stack with
      | some next =>
        simp only [Option.map_some]
        exact ih (by simp [hq]) (parts_shift hp hstack) hsofar
      | none =>
        -- This is the first syntax error, and what follows only adds to the log behind it.
        simp only [Option.map_none, Progress.refuse, hq, if_true]
        refine List.IsPrefix.find?_eq_some ((errors_prefix_foldl 1 _ rest).trans (errors_prefix_reading 1 _)) ?_
        rw [find_isSyntax_append hsofar]
        rfl

/-- A text is reported to have a syntax error exactly if its outline has a fault, and the first one
reported is that fault: the first lexeme that cannot stand where it does, at its position, or the end
of the text. -/
theorem first_syntax_error (text : String) :
    ((∃ e ∈ (Arith.parse text).errors, e.isSyntax = true)
        ↔ ∃ fault, Outline.fault? {} (Scanned.lexemes (scan text)) = some fault) ∧
      (Arith.parse text).errors.find? ArithError.isSyntax
        = Outline.fault? {} (Scanned.lexemes (scan text)) := by
  have hfind : (Arith.parse text).errors.find? ArithError.isSyntax
      = Outline.fault? {} (Scanned.lexemes (scan text)) :=
    find_isSyntax_reading rfl rfl (by simp)
  refine ⟨?_, hfind⟩
  rw [← List.find?_isSome, hfind, Option.isSome_iff_exists]

/-! ### Texts without a fault -/

/-- Where the outline has no fault, every lexeme fits, and the text may end behind the last one. -/
theorem reads_of_fault?_eq_none {s : Stack} {l : List Placed} (hp : s.parts = [])
    (h : s.outline.fault? l = none) :
    ∃ t errors more read, Reads 1 s l errors t ∧ t.finish 1 = (more, some read) := by
  induction l generalizing s with
  | nil =>
    have hends : s.outline.Ends := by
      simpa [Outline.fault?] using h
    obtain ⟨read, hread⟩ := Option.isSome_iff_exists.mp ((ends_outline_iff hp).mp hends)
    exact ⟨s, [], (s.finish 1).1, read, .nil s, by rw [← hread]⟩
  | cons first rest ih =>
    obtain ⟨l, pos⟩ := first
    simp only [Outline.fault?, ← outline_shift hp l pos] at h
    cases hstack : (s.shift 1 l pos).stack with
    | none =>
      rw [hstack] at h
      cases h
    | some next =>
      rw [hstack] at h
      obtain ⟨t, errors, more, read, hreads, hfinish⟩ := ih (parts_shift hp hstack) h
      have hshift : Shifts 1 s (l, pos) (s.shift 1 l pos).errors next := by
        apply shifts_of_shift
        rw [← hstack]
      exact ⟨t, _, more, read, .cons hshift hreads, hfinish⟩

/-- A text with lexemes and without a fault is built into a tree. Nothing is wrong with it but the
assignments in that tree. -/
theorem Arith.built_of_fault?_eq_none {text : String} {l : List Placed}
    (hs : scan text = Placed.scanned l) (hl : l ≠ []) (h : Outline.fault? {} l = none) :
    ∃ t, Arith.parse text = { built := some t, errors := t.faults } ∧ t.Legal ∧ t.Grouped ∧
      t.tokens = l := by
  obtain ⟨s, errors, more, read, hreads, hfinish⟩ := reads_of_fault?_eq_none (s := {}) rfl h
  have hholds :=
    holds_of_reads (wellSpelled_of_scanned hs) holds_empty (by simp [Stack.Closed]) hreads
  obtain ⟨last, hread, hlength, sound, ⟨before, htokens, hbefore⟩, hfaults⟩ := hholds.finish hfinish
  have hparts : s.parts = [] := List.length_eq_zero_iff.mp (Nat.succ.inj hlength)
  rw [hparts] at hread sound hbefore hfaults
  cases List.map_eq_nil_iff.mp hbefore
  have hresult := readParts_of_reads hs hreads hfinish
  cases last with
  | none => exact absurd htokens hl
  | some t =>
    obtain ⟨legal, grouped⟩ := sound (some t) List.mem_cons_self t rfl
    refine ⟨t, ?_, legal, grouped, htokens.symm⟩
    simp only [List.nil_append, List.flatMap_cons, List.flatMap_nil, List.append_nil,
      faults?] at hfaults
    simp only [Arith.parse, hresult, hread, hfaults]
    rfl

end ShellSyntax
