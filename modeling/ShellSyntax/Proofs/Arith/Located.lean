import ShellSyntax.Proofs.Arith.Grouping
import ShellSyntax.Proofs.Arith.Partition
import ShellSyntax.Proofs.Tree.Traversal

/-!
# An expression where its source has it

* `Arith.inOrder`: the words, operators and parentheses of an expression as its text has them, each
  with the position that is stored for it;
* `Stack.words`: a stack has one word for each operand it has read, made from its lexeme alone
  (`words_of_shifts`, `words_of_reads`);
* `parse_located`: so an expression that was read has all of its text in order, at the positions
  where it stands there.
-/

namespace ShellSyntax

namespace Arith

mutual

/-- What is written of the expression, in order, each at the position stored for it. -/
@[simp] def inOrder : Arith → List (String × Pos)
  | .word w => [(w.print, w.pos)]
  | .unary op operand postfixed pos =>
    if postfixed then inOrder? operand ++ [(op.spelling, pos)]
    else (op.spelling, pos) :: inOrder? operand
  | .binary op left right pos => inOrder? left ++ (op.spelling, pos) :: inOrder? right
  | .paren inner lparen rparen =>
    (Token.leftParen.spelling, lparen) :: inOrder? inner ++ [(Token.rightParen.spelling, rparen)]

@[simp] def inOrder? : Option Arith → List (String × Pos)
  | none => []
  | some a => a.inOrder

end

mutual

/-- The words of the expression in order. -/
@[simp] def words : Arith → List Word
  | .word w => [w]
  | .unary _ operand _ _ => words? operand
  | .binary _ left right _ => words? left ++ words? right
  | .paren inner _ _ => words? inner

@[simp] def words? : Option Arith → List Word
  | none => []
  | some a => a.words

end

end Arith

/-! ### Reading an expression in order -/

theorem Word.pos_of_token? {w : Word} {t : Placed} (h : w.token? = some t) : w.pos = t.2 := by
  unfold token? at h
  split at h
  · cases h
    rfl
  · cases h
    rfl
  · cases h

/-- In a legal expression, what is written in order is the lexemes. -/
theorem Arith.inOrder_eq_tokens {t : Arith} (h : t.Legal) :
    t.inOrder = t.tokens.map fun (l, pos) => (l.spelling, pos) := by
  induction h with
  | @word w t hw ht => simp [hw, (Word.print_of_token? hw).1, Word.pos_of_token? hw]
  | prefixed ho hx ih => simp [ih, Lexeme.spelling, Lexeme.value]
  | postfixed ho hx ih => simp [ih, Lexeme.spelling, Lexeme.value]
  | binary ho hx hy ihx ihy => simp [ihx, ihy, Lexeme.spelling, Lexeme.value]
  | paren hx ih => simp [ih, Lexeme.spelling, Lexeme.value]

/-! ### The words that are read -/

namespace Waiting

@[simp] def words : Waiting → List Word
  | .prefixOp _ _ => []
  | .infixOp left _ _ => left.words

theorem words_apply (w : Waiting) (x : Arith) : (w.apply x).words = w.words ++ x.words := by
  cases w <;> simp [apply]

end Waiting

/-- The words in the open frames, those of the outermost first. -/
@[simp] def Frame.words : List Frame → List Word
  | [] => []
  | .paren _ :: rest => words rest
  | .waiting w :: rest => words rest ++ w.words

/-- The words of all that a stack has read. -/
def Stack.words (s : Stack) : List Word :=
  s.parts.flatMap Arith.words? ++ (Frame.words s.frames ++ Arith.words? s.operand)

/-- The word that a lexeme at its position stands for, unless it is an operator. -/
def Placed.words (t : Placed) : List Word := Arith.words? (t.1.operand? t.2)

theorem words_settle {ready : Waiting → Bool} {frames : List Frame} {x : Arith} {r : Settled}
    (h : settle ready frames x = r) :
    Frame.words r.frames ++ r.operand.words = Frame.words frames ++ x.words := by
  subst h
  induction frames generalizing x with
  | nil => rfl
  | cons f rest ih =>
    cases f with
    | paren lparen => rfl
    | waiting w =>
      by_cases hw : ready w = true
      · simp [settle, hw, ih, w.words_apply]
      · simp [settle, hw]

variable {parts : Nat}

/-- A lexeme adds its word behind those that were read. -/
theorem words_of_shifts {s s' : Stack} {t : Placed} {errors : List ArithError}
    (h : Shifts parts s t errors s') : s'.words = s.words ++ t.words := by
  cases h with
  | operand h => simp [Stack.words, Placed.words, h]
  | leftParen | prefixed _ | emptyPart _ => simp [Stack.words, Placed.words, Lexeme.operand?]
  | infixed _ hr | postfixed _ hr | rightParen hr | part _ hr =>
    simp [Stack.words, Placed.words, Lexeme.operand?, ← words_settle hr]

theorem words_of_reads {s s' : Stack} {l : List Placed} {errors : List ArithError}
    (h : Reads parts s l errors s') : s'.words = s.words ++ l.flatMap Placed.words := by
  induction h with
  | nil s => simp
  | cons hs _ ih => rw [ih, words_of_shifts hs, List.flatMap_cons, List.append_assoc]

theorem words_of_finish {s : Stack} {errors : List ArithError} {read : List (Option Arith)}
    (h : s.finish parts = (errors, some read)) : read.flatMap Arith.words? = s.words := by
  obtain ⟨last, rfl, hend⟩ := finishes_of_finish h
  cases hend with
  | empty _ => simp [Stack.words]
  | operand _ hr => simp [Stack.words, ← words_settle hr]

/-- The parts that are read have one word for each operand of the text. -/
theorem words_of_readParts {text : String} {read : List (Option Arith)}
    (h : readParts parts text = { built := some read, errors := [] }) :
    ∃ l, scan text = Placed.scanned l ∧ read.flatMap Arith.words? = l.flatMap Placed.words := by
  obtain ⟨l, s, hl, hreads, hfinish⟩ := reads_of_readParts h
  refine ⟨l, hl, ?_⟩
  rw [words_of_finish hfinish, words_of_reads hreads]
  rfl

/-! ### Parameters -/

namespace Arith

mutual

/-- What holds of every expression and of the parts of these words holds of every node below. -/
theorem forall_mem_walk {P : Node → Prop} (hexpr : ∀ a, P (.arith a)) : (t : Arith) →
    (∀ w ∈ t.words, ∀ p ∈ w.parts, ∀ m ∈ (Node.part p).walk, P m) →
    ∀ m ∈ (Node.arith t).walk, P m
  | .word w, h => by
    rw [Node.forall_mem_walk_iff]
    simpa [Node.children, children] using And.intro (hexpr (.word w)) h
  | .unary op operand postfixed pos, h => by
    rw [Node.forall_mem_walk_iff]
    exact ⟨hexpr _, forall_mem_walk? hexpr operand h⟩
  | .binary op left right pos, h => by
    simp only [words, List.forall_mem_append] at h
    rw [Node.forall_mem_walk_iff]
    refine ⟨hexpr _, ?_⟩
    simp only [Node.children, children, List.forall_mem_append]
    exact ⟨forall_mem_walk? hexpr left h.1, forall_mem_walk? hexpr right h.2⟩
  | .paren inner lparen rparen, h => by
    rw [Node.forall_mem_walk_iff]
    exact ⟨hexpr _, forall_mem_walk? hexpr inner h⟩

theorem forall_mem_walk? {P : Node → Prop} (hexpr : ∀ a, P (.arith a)) : (a : Option Arith) →
    (∀ w ∈ words? a, ∀ p ∈ w.parts, ∀ m ∈ (Node.part p).walk, P m) →
    ∀ c ∈ (a.map Node.arith).toList, ∀ m ∈ c.walk, P m
  | none, _ => by simp
  | some a, h => by simpa using forall_mem_walk hexpr a h

end

end Arith

/-- A parameter as it is read: without braces, its name right behind the dollar sign. -/
def ParamExp.Read (e : ParamExp) : Prop := e.short = true ∧ e.param.pos = e.dollar.right 1

theorem Placed.read_of_mem_words {t : Placed} {w : Word} (hw : w ∈ t.words) {p : Part}
    (hp : p ∈ w.parts) : ∀ m ∈ (Node.part p).walk, ∀ e, m = .part (.param e) → e.Read := by
  obtain ⟨l, pos⟩ := t
  cases l with
  | op op => cases hw
  | name text | number text =>
    cases List.mem_singleton.mp hw
    cases List.mem_singleton.mp hp
    simp [Node.walk_eq, Node.children, Part.children]
  | param text =>
    cases List.mem_singleton.mp hw
    cases List.mem_singleton.mp hp
    simp [Node.walk_eq, Node.children, Part.children, ParamExp.Read]

/-- Every parameter of an expression that is read stands as it was read. -/
theorem Arith.read_of_parse {text : String} {t : Arith}
    (h : Arith.parse text = { built := some t, errors := [] }) :
    ∀ m ∈ (Node.arith t).walk, ∀ e, m = .part (.param e) → e.Read := by
  obtain ⟨read, hread, hhead⟩ := readParts_of_parse h
  obtain ⟨l, -, hwords⟩ := words_of_readParts hread
  -- A legal word only tells its own position, so the name's comes from the lexeme it was made of.
  have hpart : some t ∈ read := some_mem_of_head? hhead
  refine forall_mem_walk (by simp) t fun w hw p hp => ?_
  have hmem : w ∈ l.flatMap Placed.words := by
    rw [← hwords]
    exact List.mem_flatMap.mpr ⟨some t, hpart, hw⟩
  obtain ⟨lexeme, -, hlexeme⟩ := List.mem_flatMap.mp hmem
  exact Placed.read_of_mem_words hlexeme hp

/-- An expression that is read is its source: its words, operators and parentheses are all that the
text has, in the same order, and stand in the text where they are stored to stand. The name of a
parameter stands right behind its dollar sign. -/
theorem parse_located {text : String} {t : Arith} (h : (Arith.parse text).tree = some t) :
    (∃ l, scan text = Placed.scanned l ∧
        t.inOrder = l.map fun (lexeme, pos) => (lexeme.spelling, pos)) ∧
      (∀ entry ∈ t.inOrder, StandsAt text.toList entry.1 entry.2) ∧
      ∀ e, .part (.param e) ∈ (Node.arith t).walk →
        e.short = true ∧ e.param.pos = e.dollar.right 1 := by
  have hparse := Reading.tree_eq_some_iff.mp h
  obtain ⟨legal, -, -, hscan⟩ := Arith.whole_of_parse hparse
  have hinOrder := Arith.inOrder_eq_tokens legal
  refine ⟨⟨t.tokens, hscan, hinOrder⟩, ?_, fun e he => Arith.read_of_parse hparse _ he e rfl⟩
  intro entry he
  rw [hinOrder] at he
  obtain ⟨⟨lexeme, pos⟩, hm, rfl⟩ := List.mem_map.mp he
  have hmem : .lexeme lexeme pos ∈ scan text := by
    rw [hscan]
    exact List.mem_map_of_mem hm
  exact standsAt_of_scan (.lexeme lexeme pos) hmem

/-- Lines are counted across runs of line breaks, and columns start over behind each of them. -/
theorem parse_located_lines : ∃ t, (Arith.parse "a =\n\n ($x\n- 1)").tree = some t ∧
    t.inOrder = [("a", ⟨1, 1, 0⟩), ("=", ⟨1, 3, 2⟩), ("(", ⟨3, 2, 6⟩), ("$x", ⟨3, 3, 7⟩),
      ("-", ⟨4, 1, 10⟩), ("1", ⟨4, 3, 12⟩), (")", ⟨4, 4, 13⟩)] ∧
    (∃ l, scan "a =\n\n ($x\n- 1)" = Placed.scanned l ∧
        t.inOrder = l.map fun (lexeme, pos) => (lexeme.spelling, pos)) ∧
      (∀ entry ∈ t.inOrder, StandsAt "a =\n\n ($x\n- 1)".toList entry.1 entry.2) ∧
      ∀ e, .part (.param e) ∈ (Node.arith t).walk →
        e.short = true ∧ e.param.pos = e.dollar.right 1 := by
  have lexemes : scan "a =\n\n ($x\n- 1)" = Placed.scanned
      [(.name "a", ⟨1, 1, 0⟩), (.op .equal, ⟨1, 3, 2⟩), (.op .leftParen, ⟨3, 2, 6⟩),
       (.param "x", ⟨3, 3, 7⟩), (.op .minus, ⟨4, 1, 10⟩), (.number "1", ⟨4, 3, 12⟩),
       (.op .rightParen, ⟨4, 4, 13⟩)] := by
    decide +kernel
  let x : Word := ⟨[.param { param := ⟨"x", ⟨3, 4, 8⟩⟩, short := true, dollar := ⟨3, 3, 7⟩ }]⟩
  let difference : Arith :=
    .binary .minus (some (.word x)) (some (.word (.ofLit "1" ⟨4, 3, 12⟩))) ⟨4, 1, 10⟩
  let t : Arith :=
    .binary .equal (some (.word (.ofLit "a" ⟨1, 1, 0⟩)))
      (some (.paren (some difference) ⟨3, 2, 6⟩ ⟨4, 4, 13⟩)) ⟨1, 3, 2⟩
  have tree : (Arith.parse "a =\n\n ($x\n- 1)").tree = some t := by
    rw [Arith.parse, readParts, lexemes]
    rfl
  have ordered : t.inOrder = [("a", ⟨1, 1, 0⟩), ("=", ⟨1, 3, 2⟩), ("(", ⟨3, 2, 6⟩),
      ("$x", ⟨3, 3, 7⟩), ("-", ⟨4, 1, 10⟩), ("1", ⟨4, 3, 12⟩), (")", ⟨4, 4, 13⟩)] := by
    decide
  exact ⟨t, tree, ordered, parse_located tree⟩

end ShellSyntax
