import ShellSyntax.Proofs.Arith.Reading
import ShellSyntax.Proofs.Arith.Tokens

/-!
# Grouping by binding levels

Two operators compete for an operand that stands between them, and the levels decide which of them
takes it.

* `Arith.leftLevels`, `Arith.rightLevels`: the operators of an expression that compete with one in
  front of it, or behind it;
* `Arith.Grouped`: every competition inside the expression ended as the levels say;
* `Arith.faults`: the assignments of the expression to something other than a name;
* `Stack.Holds`: what a stack has read is grouped, keeps all lexemes and tells all faults; every
  lexeme preserves this (`holds_of_shifts`, `holds_of_reads`);
* `whole_of_readParts`: so a text that is read without complaint has the lexemes of its parts.
-/

namespace ShellSyntax

namespace Arith

mutual

/-- The levels of the operators that have their left operand where the expression begins, innermost
first. -/
@[simp] def leftLevels : Arith → List Level
  | .word _ | .paren .. => []
  | .unary _ operand postfixed _ =>
    if postfixed then leftLevels? operand ++ [.ofPostfix] else []
  | .binary op left _ _ => leftLevels? left ++ op.infixLevel?.toList

@[simp] def leftLevels? : Option Arith → List Level
  | none => []
  | some a => a.leftLevels

end

mutual

/-- The levels of the operators that have their right operand where the expression ends, innermost
first. -/
@[simp] def rightLevels : Arith → List Level
  | .word _ | .paren .. => []
  | .unary op operand postfixed _ =>
    if postfixed then [] else rightLevels? operand ++ op.prefixLevel?.toList
  | .binary op _ right _ => rightLevels? right ++ op.infixLevel?.toList

@[simp] def rightLevels? : Option Arith → List Level
  | none => []
  | some a => a.rightLevels

end

/-- Between two operators, the one that binds tighter has the operand. -/
inductive Grouped : Arith → Prop where
  | word (w : Word) : Grouped (.word w)
  | prefixed {op : Token} {level : Level} {x : Arith} {pos : Pos}
      (ho : op.prefixLevel? = some level) (hx : x.Grouped)
      (h : ∀ l ∈ x.leftLevels, ¬level.Before l) : Grouped (.unary op (some x) false pos)
  | postfixed {op : Token} {x : Arith} {pos : Pos} (hx : x.Grouped)
      (h : ∀ l ∈ x.rightLevels, l.Before .ofPostfix) : Grouped (.unary op (some x) true pos)
  | binary {op : Token} {level : Level} {x y : Arith} {pos : Pos}
      (ho : op.infixLevel? = some level) (hx : x.Grouped) (hy : y.Grouped)
      (hl : ∀ l ∈ x.rightLevels, l.Before level) (hr : ∀ l ∈ y.leftLevels, ¬level.Before l) :
      Grouped (.binary op (some x) (some y) pos)
  | paren {x : Arith} {lparen rparen : Pos} (hx : x.Grouped) :
      Grouped (.paren (some x) lparen rparen)

mutual

/-- The assignments to something other than a name, operands before their operator. -/
@[simp] def faults : Arith → List ArithError
  | .word _ => []
  | .unary _ operand _ _ => faults? operand
  | .binary op left right pos =>
    faults? left ++ faults? right
      ++ (left.map fun x => (Waiting.infixOp x op pos).errors).getD []
  | .paren inner _ _ => faults? inner

@[simp] def faults? : Option Arith → List ArithError
  | none => []
  | some a => a.faults

end

end Arith

/-! ### Operators that wait -/

namespace Waiting

/-- What the operator has read of its expression. -/
@[simp] def tokens : Waiting → List Placed
  | .prefixOp op pos => [(.op op, pos)]
  | .infixOp left op pos => left.tokens ++ [(.op op, pos)]

/-- What was wrong with its left operand. -/
@[simp] def faults : Waiting → List ArithError
  | .prefixOp _ _ => []
  | .infixOp left _ _ => left.faults

@[simp] def leftLevels : Waiting → List Level
  | .prefixOp _ _ => []
  | .infixOp left op _ => left.leftLevels ++ op.infixLevel?.toList

inductive Sound : Waiting → Prop where
  | prefixOp {op : Token} {level : Level} {pos : Pos} (ho : op.prefixLevel? = some level) :
      Sound (.prefixOp op pos)
  | infixOp {left : Arith} {op : Token} {level : Level} {pos : Pos}
      (ho : op.infixLevel? = some level) (legal : left.Legal) (grouped : left.Grouped)
      (h : ∀ l ∈ left.rightLevels, l.Before level) : Sound (.infixOp left op pos)

theorem tokens_apply (w : Waiting) (x : Arith) : (w.apply x).tokens = w.tokens ++ x.tokens := by
  cases w <;> simp [apply]

theorem faults_apply (w : Waiting) (x : Arith) :
    (w.apply x).faults = w.faults ++ x.faults ++ w.errors := by
  cases w <;> simp [apply, errors]

theorem leftLevels_apply (w : Waiting) (x : Arith) : (w.apply x).leftLevels = w.leftLevels := by
  cases w <;> simp [apply]

theorem rightLevels_apply (w : Waiting) (x : Arith) :
    (w.apply x).rightLevels = x.rightLevels ++ w.level?.toList := by
  cases w <;> simp [apply, level?]

end Waiting

/-! ### Frames -/

/-- No operator that is ready waits innermost. -/
def Stops (ready : Waiting → Bool) (frames : List Frame) : Prop :=
  ∀ w rest, frames = .waiting w :: rest → ready w = false

/-- The innermost operator that waits leaves its operand to an operator of this level. -/
def Leaves (frames : List Frame) (level : Level) : Prop := Stops (fun w => w.Before level) frames

theorem stops_nil (ready : Waiting → Bool) : Stops ready [] := by
  intro w rest he
  cases he

theorem stops_paren (ready : Waiting → Bool) (lparen : Pos) (rest : List Frame) :
    Stops ready (.paren lparen :: rest) := by
  intro w rest he
  cases he

theorem leaves_waiting {w : Waiting} {rest : List Frame} {level next : Level}
    (hw : w.level? = some level) :
    Leaves (.waiting w :: rest) next ↔ ¬level.Before next := by
  simp [Leaves, Stops, Waiting.Before, hw]

namespace Frame

/-- What the open frames have read, the outermost first. -/
@[simp] def tokens : List Frame → List Placed
  | [] => []
  | .paren lparen :: rest => tokens rest ++ [(.op .leftParen, lparen)]
  | .waiting w :: rest => tokens rest ++ w.tokens

@[simp] def faults : List Frame → List ArithError
  | [] => []
  | .paren _ :: rest => faults rest
  | .waiting w :: rest => faults rest ++ w.faults

/-- No frame could have taken its operand before the one inside it was opened. -/
inductive Sound : List Frame → Prop where
  | nil : Sound []
  | paren {lparen : Pos} {rest : List Frame} (h : Sound rest) : Sound (.paren lparen :: rest)
  | waiting {w : Waiting} {rest : List Frame} (hw : w.Sound)
      (hl : ∀ l ∈ w.leftLevels, Leaves rest l) (h : Sound rest) : Sound (.waiting w :: rest)

end Frame

/-- The operand may stand inside these frames. -/
structure Fits (frames : List Frame) (x : Arith) : Prop where
  legal : x.Legal
  grouped : x.Grouped
  leaves : ∀ l ∈ x.leftLevels, Leaves frames l

theorem Fits.apply {w : Waiting} {rest : List Frame} {x : Arith}
    (hs : Frame.Sound (.waiting w :: rest)) (h : Fits (.waiting w :: rest) x) :
    Fits rest (w.apply x) := by
  cases hs with
  | waiting hw hl _ =>
    refine ⟨?_, ?_, fun l hm => hl l (by rwa [w.leftLevels_apply] at hm)⟩
    · cases hw with
      | prefixOp ho => exact .prefixed (by rw [ho]; rfl) h.legal
      | infixOp ho legal _ _ => exact .binary (by rw [ho]; rfl) legal h.legal
    · have leaves := h.leaves
      cases hw with
      | @prefixOp op level pos ho =>
        refine .prefixed ho h.grouped fun l hm => ?_
        exact (leaves_waiting (w := .prefixOp op pos) ho).mp (leaves l hm)
      | @infixOp left op level pos ho _ grouped hr =>
        refine .binary ho grouped h.grouped hr fun l hm => ?_
        exact (leaves_waiting (w := .infixOp left op pos) ho).mp (leaves l hm)

/-- What settling does. The operand it forms fits the frames that are left; nothing that was read is
lost, and every fault is told once. -/
structure Settles (ready : Waiting → Bool) (frames : List Frame) (x : Arith) (r : Settled) :
    Prop where
  sound : Frame.Sound r.frames
  fits : Fits r.frames r.operand
  tokens : Frame.tokens r.frames ++ r.operand.tokens = Frame.tokens frames ++ x.tokens
  faults : Frame.faults r.frames ++ r.operand.faults = Frame.faults frames ++ x.faults ++ r.errors
  stopped : Stops ready r.frames
  settled : ∀ l ∈ r.operand.rightLevels, l ∈ x.rightLevels ∨ ∃ w, ready w = true ∧ w.level? = some l

theorem settles (ready : Waiting → Bool) {frames : List Frame} {x : Arith}
    (hs : Frame.Sound frames) (h : Fits frames x) :
    Settles ready frames x (settle ready frames x) := by
  induction frames generalizing x with
  | nil =>
    exact ⟨hs, h, rfl, by simp [settle], stops_nil ready, fun l hm => Or.inl hm⟩
  | cons f rest ih =>
    cases f with
    | paren lparen =>
      exact ⟨hs, h, rfl, by simp [settle], stops_paren ready lparen rest, fun l hm => Or.inl hm⟩
    | waiting w =>
      by_cases hw : ready w = true
      · have hrest : Frame.Sound rest := by
          cases hs with
          | waiting _ _ h => exact h
        have hi := ih hrest (h.apply hs)
        simp only [settle, hw, if_true]
        refine ⟨hi.sound, hi.fits, ?_, ?_, hi.stopped, ?_⟩
        · rw [hi.tokens, w.tokens_apply, Frame.tokens, List.append_assoc]
        · rw [hi.faults, w.faults_apply, Frame.faults]
          simp only [List.append_assoc]
        · intro l hm
          rcases hi.settled l hm with hl | hl
          · rw [w.rightLevels_apply, List.mem_append, Option.mem_toList] at hl
            rcases hl with hl | hl
            · exact Or.inl hl
            · exact Or.inr ⟨w, hw, hl⟩
          · exact Or.inr hl
      · simp only [settle, hw, if_false, Bool.false_eq_true]
        refine ⟨hs, h, rfl, by simp, ?_, fun l hm => Or.inl hm⟩
        intro w' rest' he
        cases he
        simpa using hw

/-! ### The whole stack -/

namespace Arith

def lexemes? (a : Option Arith) : List Lexeme := (tokens? a).map Prod.fst

/-- The lexemes of parts, each with the semicolon behind it. -/
def separated (parts : List (Option Arith)) : List Lexeme :=
  parts.flatMap fun p => lexemes? p ++ [.op .semicolon]

theorem separated_append (front back : List (Option Arith)) :
    separated (front ++ back) = separated front ++ separated back := by
  simp [separated]

theorem separated_single (p : Option Arith) : separated [p] = lexemes? p ++ [.op .semicolon] := by
  simp [separated]

end Arith

/-- The expressions in these parts, if any, are legal and grouped. -/
def Arith.SoundParts (parts : List (Option Arith)) : Prop :=
  ∀ p ∈ parts, ∀ x ∈ p, x.Legal ∧ x.Grouped

theorem forall_mem_parts_append {P : Arith → Prop} {front : List (Option Arith)}
    {last : Option Arith} (h : ∀ p ∈ front, ∀ x ∈ p, P x) (hl : ∀ x ∈ last, P x) :
    ∀ p ∈ front ++ [last], ∀ x ∈ p, P x := by
  intro p hp
  rcases List.mem_append.mp hp with hp | hp
  · exact h p hp
  · rw [List.mem_singleton.mp hp]
    exact hl

theorem Arith.SoundParts.append {front : List (Option Arith)} {last : Option Arith}
    (h : SoundParts front) (hl : ∀ x ∈ last, x.Legal ∧ x.Grouped) :
    SoundParts (front ++ [last]) :=
  forall_mem_parts_append h hl

/-- A stack has read these lexemes, and these are the faults in them. -/
structure Stack.Holds (s : Stack) (l : List Placed) (errors : List ArithError) : Prop where
  sound : Frame.Sound s.frames
  fits : ∀ x ∈ s.operand, Fits s.frames x
  parts : Arith.SoundParts s.parts
  tokens : ∃ front, l = front ++ (Frame.tokens s.frames ++ Arith.tokens? s.operand) ∧
    front.map Prod.fst = Arith.separated s.parts
  faults : errors
    = s.parts.flatMap Arith.faults? ++ (Frame.faults s.frames ++ Arith.faults? s.operand)

/-- No operator at the end of the operand at hand could still give it up. -/
def Stack.Closed (s : Stack) : Prop := ∀ x ∈ s.operand, x.rightLevels = []

theorem holds_empty : Stack.Holds {} [] [] where
  sound := .nil
  fits := by simp
  parts := by simp [Arith.SoundParts]
  tokens := ⟨[], rfl, rfl⟩
  faults := rfl

/-- Settling neither loses a lexeme nor hides a fault. -/
theorem Stack.Holds.settle {ready : Waiting → Bool} {read : List (Option Arith)}
    {frames : List Frame} {x : Arith} {r : Settled} {l : List Placed} {errors : List ArithError}
    (h : Holds ⟨read, frames, some x⟩ l errors) (hr : settle ready frames x = r) :
    Holds ⟨read, r.frames, some r.operand⟩ l (errors ++ r.errors) := by
  obtain ⟨sound, fits, whole, ⟨front, rfl, hfront⟩, rfl⟩ := h
  have hset : Settles ready frames x r := hr ▸ settles ready sound (fits x rfl)
  refine ⟨hset.sound, ?_, whole, ⟨front, ?_, hfront⟩, ?_⟩
  · rintro y ⟨⟩
    exact hset.fits
  · exact congrArg (front ++ ·) hset.tokens.symm
  · rw [List.append_assoc]
    exact congrArg (read.flatMap Arith.faults? ++ ·) hset.faults.symm

/-- A lexeme that stands for an operand is the lexeme of that operand. -/
theorem token?_of_operand? {l : Lexeme} {pos : Pos} {x : Arith} (hl : l.WellSpelled)
    (h : l.operand? pos = some x) : ∃ w, x = .word w ∧ w.token? = some (l, pos) := by
  cases l with
  | op t => cases h
  | name text =>
    cases h
    exact ⟨_, rfl, by simp [Word.ofLit, Word.token?, Lexeme.ofValue_name hl]⟩
  | number text =>
    cases h
    exact ⟨_, rfl, by simp [Word.ofLit, Word.token?, Lexeme.ofValue_number hl]⟩
  | param text =>
    cases h
    exact ⟨_, rfl, rfl⟩

theorem Waiting.before_of_level? {w : Waiting} {level next : Level} (h : w.level? = some level)
    (hb : w.Before next) : level.Before next := by
  simpa only [Waiting.Before, h] using hb

/-- Settling before an operator leaves an operand that the operator may take. -/
theorem before_of_settle {next : Level} {frames : List Frame} {x : Arith} {r : Settled}
    (hs : Frame.Sound frames) (hf : Fits frames x) (hx : x.rightLevels = [])
    (hr : settle (fun w => w.Before next) frames x = r) :
    (∀ l ∈ r.operand.rightLevels, l.Before next) ∧ Leaves r.frames next := by
  have h : Settles (fun w => w.Before next) frames x r := hr ▸ settles _ hs hf
  refine ⟨fun l hl => ?_, h.stopped⟩
  rcases h.settled l hl with hm | ⟨w, hw, hlevel⟩
  · rw [hx] at hm
    cases hm
  · exact w.before_of_level? hlevel (of_decide_eq_true hw)

/-- Every lexeme that a stack takes is held by it afterwards. -/
theorem holds_of_shifts {parts : Nat} {s s' : Stack} {t : Placed} {l : List Placed}
    {errors more : List ArithError} (hl : t.1.WellSpelled) (h : s.Holds l errors) (hc : s.Closed)
    (hs : Shifts parts s t more s') : s'.Holds (l ++ [t]) (errors ++ more) ∧ s'.Closed := by
  cases hs with
  | @operand read frames lexeme pos x hx =>
    obtain ⟨w, rfl, hw⟩ := token?_of_operand? hl hx
    obtain ⟨sound, -, whole, ⟨front, rfl, hfront⟩, rfl⟩ := h
    refine ⟨⟨sound, ?_, whole, ⟨front, ?_, hfront⟩, ?_⟩, ?_⟩
    · rintro x ⟨⟩
      exact ⟨.word hw hl, .word w, by simp⟩
    · simp [hw]
    · simp
    · rintro x ⟨⟩
      simp
  | @leftParen read frames pos =>
    obtain ⟨sound, -, whole, ⟨front, rfl, hfront⟩, rfl⟩ := h
    refine ⟨⟨.paren sound, by simp, whole, ⟨front, ?_, hfront⟩, ?_⟩, by simp [Stack.Closed]⟩
    · simp
    · simp
  | @prefixed read frames op pos hp =>
    obtain ⟨sound, -, whole, ⟨front, rfl, hfront⟩, rfl⟩ := h
    obtain ⟨level, ho⟩ := Option.isSome_iff_exists.mp hp
    refine ⟨⟨.waiting (.prefixOp ho) (by simp) sound, by simp, whole,
      ⟨front, ?_, hfront⟩, ?_⟩, by simp [Stack.Closed]⟩
    · simp
    · simp
  | @emptyPart read pos hn =>
    obtain ⟨-, -, whole, ⟨front, rfl, hfront⟩, rfl⟩ := h
    refine ⟨⟨.nil, by simp, whole.append (by simp), ⟨front ++ [(.op .semicolon, pos)], ?_, ?_⟩,
      ?_⟩, by simp [Stack.Closed]⟩
    · simp
    · rw [List.map_append, hfront, Arith.separated_append, Arith.separated_single]
      rfl
    · simp
  | @infixed read frames x op pos level r ho hr =>
    obtain ⟨hright, hleaves⟩ := before_of_settle h.sound (h.fits x rfl) (hc x rfl) hr
    obtain ⟨sound, fits, whole, ⟨front, rfl, hfront⟩, hfaults⟩ := h.settle hr
    obtain ⟨legal, grouped, leaves⟩ := fits r.operand rfl
    refine ⟨⟨.waiting (.infixOp ho legal grouped hright) ?_ sound, by simp, whole,
      ⟨front, ?_, hfront⟩, ?_⟩, by simp [Stack.Closed]⟩
    · intro l hm
      simp only [Waiting.leftLevels, ho, Option.toList_some, List.mem_append,
        List.mem_singleton] at hm
      rcases hm with hm | rfl
      · exact leaves l hm
      · exact hleaves
    · simp
    · simp [hfaults]
  | @postfixed read frames x op pos r ho hr =>
    obtain ⟨hright, hleaves⟩ := before_of_settle h.sound (h.fits x rfl) (hc x rfl) hr
    obtain ⟨sound, fits, whole, ⟨front, rfl, hfront⟩, hfaults⟩ := h.settle hr
    obtain ⟨legal, grouped, leaves⟩ := fits r.operand rfl
    refine ⟨⟨sound, ?_, whole, ⟨front, ?_, hfront⟩, ?_⟩, ?_⟩
    · rintro x ⟨⟩
      refine ⟨.postfixed ho legal, .postfixed grouped hright, fun l hm => ?_⟩
      simp only [Arith.leftLevels, Arith.leftLevels?, if_true, List.mem_append,
        List.mem_singleton] at hm
      rcases hm with hm | rfl
      · exact leaves l hm
      · exact hleaves
    · simp
    · simp [hfaults]
    · rintro x ⟨⟩
      simp
  | @rightParen read frames rest x y pos lparen more hr =>
    obtain ⟨sound, fits, whole, ⟨front, rfl, hfront⟩, hfaults⟩ := h.settle hr
    obtain ⟨legal, grouped, -⟩ := fits y rfl
    have hrest : Frame.Sound rest := by
      cases sound with
      | paren h => exact h
    refine ⟨⟨hrest, ?_, whole, ⟨front, ?_, hfront⟩, ?_⟩, ?_⟩
    · rintro x ⟨⟩
      exact ⟨.paren legal, .paren grouped, by simp⟩
    · simp
    · simpa using hfaults
    · rintro x ⟨⟩
      simp
  | @part read frames x y pos more hn hr =>
    obtain ⟨-, fits, whole, ⟨front, rfl, hfront⟩, hfaults⟩ := h.settle hr
    obtain ⟨legal, grouped, -⟩ := fits y rfl
    refine ⟨⟨.nil, by simp, whole.append ?_,
      ⟨front ++ (y.tokens ++ [(.op .semicolon, pos)]), ?_, ?_⟩, ?_⟩, by simp [Stack.Closed]⟩
    · rintro x ⟨⟩
      exact ⟨legal, grouped⟩
    · simp
    · rw [List.map_append, hfront, Arith.separated_append, Arith.separated_single]
      simp [Arith.lexemes?]
    · simpa using hfaults

theorem holds_of_reads {parts : Nat} {s s' : Stack} {l more : List Placed}
    {errors later : List ArithError} (hl : ∀ t ∈ more, t.1.WellSpelled) (h : s.Holds l errors)
    (hc : s.Closed) (hr : Reads parts s more later s') :
    s'.Holds (l ++ more) (errors ++ later) := by
  induction hr generalizing l errors with
  | nil s => simpa using h
  | @cons s t u first rest found later hs hr ih =>
    obtain ⟨hfirst, hclosed⟩ := holds_of_shifts (hl first List.mem_cons_self) h hc hs
    have := ih (fun t ht => hl t (List.mem_cons_of_mem _ ht)) hfirst hclosed
    simpa [List.append_assoc] using this

/-- The parts of a whole text: every tree is legal and grouped, and the text has their lexemes. -/
structure Whole (l : List Placed) (errors : List ArithError) (front : List (Option Arith))
    (last : Option Arith) : Prop where
  sound : Arith.SoundParts (front ++ [last])
  tokens : ∃ before, l = before ++ Arith.tokens? last ∧
    before.map Prod.fst = Arith.separated front
  faults : errors = (front ++ [last]).flatMap Arith.faults?

/-- With no frame left open, what a stack holds is whole. -/
theorem Stack.Holds.whole {read : List (Option Arith)} {operand : Option Arith} {l : List Placed}
    {errors : List ArithError} (h : Holds ⟨read, [], operand⟩ l errors) :
    Whole l errors read operand := by
  obtain ⟨-, fits, whole, ⟨front, rfl, hfront⟩, rfl⟩ := h
  refine ⟨whole.append fun x hx => ?_, ⟨front, rfl, hfront⟩, ?_⟩
  · exact ⟨(fits x hx).legal, (fits x hx).grouped⟩
  · simp

theorem Stack.Holds.finish {parts : Nat} {s : Stack} {l : List Placed}
    {errors more : List ArithError} {read : List (Option Arith)} (h : s.Holds l errors)
    (hf : s.finish parts = (more, some read)) :
    ∃ last, read = s.parts ++ [last] ∧ s.parts.length + 1 = parts ∧
      Whole l (errors ++ more) s.parts last := by
  obtain ⟨last, rfl, hend⟩ := finishes_of_finish hf
  cases hend with
  | empty hlength =>
    rw [List.append_nil]
    exact ⟨none, rfl, hlength, h.whole⟩
  | operand hlength hr => exact ⟨some _, rfl, hlength, (h.settle hr).whole⟩

/-! ### Texts that are read without complaint -/

theorem whole_of_readParts {parts : Nat} {text : String} {read : List (Option Arith)}
    (h : readParts parts text = { built := some read, errors := [] }) :
    ∃ l front last, scan text = Placed.scanned l ∧ read = front ++ [last] ∧
      front.length + 1 = parts ∧ Whole l [] front last := by
  obtain ⟨l, s, hl, hr, hf⟩ := reads_of_readParts h
  have hholds := holds_of_reads (wellSpelled_of_scanned hl) holds_empty (by simp [Stack.Closed]) hr
  obtain ⟨last, hread, hlength, hwhole⟩ := hholds.finish hf
  exact ⟨l, s.parts, last, hl, hread, hlength, hwhole⟩

theorem Reading.tree_eq_some_iff {α : Type} {r : Reading α} {t : α} :
    r.tree = some t ↔ r = { built := some t, errors := [] } := by
  obtain ⟨built, errors⟩ := r
  cases errors <;> simp [Reading.tree]

theorem Arith.readParts_of_parse {text : String} {t : Arith}
    (h : Arith.parse text = { built := some t, errors := [] }) :
    ∃ read, readParts 1 text = { built := some read, errors := [] } ∧ read.head?.bind id = some t := by
  simp only [Arith.parse, Reading.mk.injEq] at h
  obtain ⟨hbuilt, herrors⟩ := h
  obtain ⟨read, hread, hhead⟩ := Option.bind_eq_some_iff.mp hbuilt
  exact ⟨read, by rw [← hread, ← herrors], hhead⟩

theorem Arith.some_mem_of_head? {read : List (Option Arith)} {t : Arith}
    (h : read.head?.bind id = some t) : some t ∈ read := by
  obtain ⟨part, hpart, rfl⟩ := Option.bind_eq_some_iff.mp h
  exact List.mem_of_mem_head? hpart

/-- What `Arith.parse` returns has the lexemes of the text, and its operators are grouped by their
levels. -/
theorem Arith.whole_of_parse {text : String} {t : Arith}
    (h : Arith.parse text = { built := some t, errors := [] }) :
    t.Legal ∧ t.Grouped ∧ t.faults = [] ∧ scan text = Placed.scanned t.tokens := by
  obtain ⟨read, hparts, hhead⟩ := readParts_of_parse h
  obtain ⟨l, front, last, hl, rfl, hlength, sound, ⟨before, rfl, hbefore⟩, faults⟩ :=
    whole_of_readParts hparts
  cases List.length_eq_zero_iff.mp (Nat.succ.inj hlength)
  cases List.map_eq_nil_iff.mp hbefore
  cases (hhead : last = some t)
  obtain ⟨legal, grouped⟩ := sound (some t) List.mem_cons_self t rfl
  exact ⟨legal, grouped, by simpa using faults.symm, hl⟩

theorem CountLoop.readParts_of_parse {text : String} {l : CountLoop}
    (h : CountLoop.parse text = { built := some l, errors := [] }) :
    readParts 3 text = { built := some [l.init, l.cond, l.step], errors := [] } := by
  simp only [CountLoop.parse, Reading.mk.injEq] at h
  obtain ⟨hbuilt, herrors⟩ := h
  obtain ⟨read, hread, hmade⟩ := Option.bind_eq_some_iff.mp hbuilt
  split at hmade
  · cases hmade
    rw [← hread, ← herrors]
  · cases hmade

theorem CountLoop.whole_of_parse {text : String} {l : CountLoop}
    (h : CountLoop.parse text = { built := some l, errors := [] }) :
    Arith.SoundParts [l.init, l.cond, l.step] ∧
      [l.init, l.cond, l.step].flatMap Arith.faults? = [] := by
  obtain ⟨lexemes, front, last, -, hfront, -, whole⟩ := whole_of_readParts (readParts_of_parse h)
  rw [hfront]
  exact ⟨whole.sound, whole.faults.symm⟩

end ShellSyntax
