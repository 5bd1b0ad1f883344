import ShellSyntax.Proofs.Arith.Assignments
import ShellSyntax.Proofs.Arith.Regrouping

/-!
# What a reader builds

* `Arith.Produced`: an expression has all its operands, each spelled as one, its operators stand
  where they may, and all of these have valid positions;
* `Stack.Produced`: so has everything on a stack. Every element of a scan preserves this, whether it
  fits or not (`produced_step`, `produced_foldl`);
* `produced_of_readParts`: so all that is ever built is produced, also where reading went on behind
  an error;
* `tree_produced`: a tree that is returned passes the check, and its nodes are `Node.Complete`.
-/

namespace ShellSyntax

/-- A lexeme is well spelled and has a valid position. -/
def Scanned.Sound : Scanned → Prop
  | .lexeme l pos => l.WellSpelled ∧ pos.Valid
  | .illegal _ _ => True

theorem sound_of_scan {text : String} : ∀ e ∈ scan text, e.Sound := by
  intro e he
  cases e with
  | lexeme l pos =>
    have hstands := standsAt_of_scan _ he
    exact ⟨wellSpelled_of_scan he, hstands.valid⟩
  | illegal c pos => trivial

/-- An expression as a reader makes it, from the lexemes of a text. -/
inductive Arith.Produced : Arith → Prop where
  | operand {l : Lexeme} {pos : Pos} {x : Arith} (hl : l.WellSpelled) (hp : pos.Valid)
      (hx : l.operand? pos = some x) : Produced x
  | prefixed {op : Token} {x : Arith} {pos : Pos} (ho : op.prefixLevel?.isSome = true)
      (hp : pos.Valid) (hx : x.Produced) : Produced (.unary op (some x) false pos)
  | postfixed {op : Token} {x : Arith} {pos : Pos} (ho : op ∈ Token.postfixes) (hp : pos.Valid)
      (hx : x.Produced) : Produced (.unary op (some x) true pos)
  | binary {op : Token} {x y : Arith} {pos : Pos} (ho : op.infixLevel?.isSome = true)
      (hp : pos.Valid) (hx : x.Produced) (hy : y.Produced) :
      Produced (.binary op (some x) (some y) pos)
  | paren {x : Arith} {lparen rparen : Pos} (hl : lparen.Valid) (hr : rparen.Valid)
      (hx : x.Produced) : Produced (.paren (some x) lparen rparen)

/-! ### Stacks -/

namespace Frame

inductive Produced : Frame → Prop where
  | prefixOp {op : Token} {pos : Pos} (ho : op.prefixLevel?.isSome = true) (hp : pos.Valid) :
      Produced (.waiting (.prefixOp op pos))
  | infixOp {left : Arith} {op : Token} {pos : Pos} (ho : op.infixLevel?.isSome = true)
      (hp : pos.Valid) (hl : left.Produced) : Produced (.waiting (.infixOp left op pos))
  | paren {lparen : Pos} (hl : lparen.Valid) : Produced (.paren lparen)

theorem Produced.apply {w : Waiting} {x : Arith} (hw : Produced (.waiting w)) (hx : x.Produced) :
    (w.apply x).Produced := by
  cases hw with
  | prefixOp ho hp => exact .prefixed ho hp hx
  | infixOp ho hp hl => exact .binary ho hp hl hx

end Frame

/-- Settling forms no expression but from the operators that wait and the operand at hand. -/
theorem produced_settle (ready : Waiting → Bool) {frames : List Frame} {x : Arith}
    (hf : ∀ f ∈ frames, f.Produced) (hx : x.Produced) :
    (∀ f ∈ (settle ready frames x).frames, f.Produced) ∧
      (settle ready frames x).operand.Produced := by
  induction frames generalizing x with
  | nil => exact ⟨hf, hx⟩
  | cons f rest ih =>
    obtain ⟨hfirst, hrest⟩ := List.forall_mem_cons.mp hf
    cases f with
    | paren lparen => exact ⟨hf, hx⟩
    | waiting w =>
      by_cases hw : ready w = true
      · simp only [settle, hw, if_true]
        exact ih hrest (hfirst.apply hx)
      · simp only [settle, hw, if_false, Bool.false_eq_true]
        exact ⟨hf, hx⟩

/-- The expressions in these parts, if any, are produced. -/
def Arith.ProducedParts (parts : List (Option Arith)) : Prop := ∀ p ∈ parts, ∀ x ∈ p, x.Produced

theorem Arith.ProducedParts.append {front : List (Option Arith)} {last : Option Arith}
    (h : ProducedParts front) (hl : ∀ x ∈ last, x.Produced) : ProducedParts (front ++ [last]) :=
  forall_mem_parts_append h hl

structure Stack.Produced (s : Stack) : Prop where
  parts : Arith.ProducedParts s.parts
  frames : ∀ f ∈ s.frames, f.Produced
  operand : ∀ x ∈ s.operand, x.Produced

theorem produced_empty : Stack.Produced {} where
  parts := by simp [Arith.ProducedParts]
  frames := by simp
  operand := by simp

theorem Stack.Produced.settle {ready : Waiting → Bool} {read : List (Option Arith)}
    {frames : List Frame} {x : Arith} {r : Settled} (h : Produced ⟨read, frames, some x⟩)
    (hr : settle ready frames x = r) : Produced ⟨read, r.frames, some r.operand⟩ := by
  obtain ⟨hframes, hoperand⟩ := produced_settle ready h.frames (h.operand x rfl)
  rw [hr] at hframes hoperand
  refine ⟨h.parts, hframes, ?_⟩
  rintro y ⟨⟩
  exact hoperand

/-! ### One step -/

/-- Each way to take a lexeme puts nothing on the stack but what the lexeme stands for. -/
theorem produced_of_shifts {parts : Nat} {s s' : Stack} {t : Placed} {errors : List ArithError}
    (hl : t.1.WellSpelled) (hp : t.2.Valid) (h : s.Produced) (hs : Shifts parts s t errors s') :
    s'.Produced := by
  cases hs with
  | operand hx =>
    refine ⟨h.parts, h.frames, ?_⟩
    rintro y ⟨⟩
    exact .operand hl hp hx
  | leftParen =>
    exact ⟨h.parts, List.forall_mem_cons.mpr ⟨.paren hp, h.frames⟩, by simp⟩
  | prefixed ho =>
    exact ⟨h.parts, List.forall_mem_cons.mpr ⟨.prefixOp ho hp, h.frames⟩, by simp⟩
  | emptyPart hn =>
    exact ⟨h.parts.append (by simp), by simp, by simp⟩
  | @infixed read frames x op pos level r ho hr =>
    have hset := h.settle hr
    have hwaiting : Frame.Produced (.waiting (.infixOp r.operand op pos)) :=
      .infixOp (by rw [ho]; rfl) hp (hset.operand r.operand rfl)
    exact ⟨hset.parts, List.forall_mem_cons.mpr ⟨hwaiting, hset.frames⟩, by simp⟩
  | @postfixed read frames x op pos r ho hr =>
    have hset := h.settle hr
    refine ⟨hset.parts, hset.frames, ?_⟩
    rintro y ⟨⟩
    exact .postfixed ho hp (hset.operand r.operand rfl)
  | @rightParen read frames rest x y pos lparen errors hr =>
    have hset := h.settle hr
    obtain ⟨hparen, hrest⟩ := List.forall_mem_cons.mp hset.frames
    cases hparen with
    | paren hlparen =>
      refine ⟨hset.parts, hrest, ?_⟩
      rintro z ⟨⟩
      exact .paren hlparen hp (hset.operand y rfl)
  | part hn hr =>
    have hset := h.settle hr
    exact ⟨hset.parts.append hset.operand, by simp, by simp⟩

/-- A lexeme that does not fit empties the stack, so that nothing of it is left. -/
theorem produced_step (parts : Nat) {p : Progress} {e : Scanned} (he : e.Sound)
    (h : p.stack.Produced) : (p.step parts e).stack.Produced := by
  cases e with
  | illegal c pos => exact h
  | lexeme l pos =>
    simp only [Progress.step]
    split
    · rename_i s hs
      have hshift : p.stack.shift parts l pos = ⟨(p.stack.shift parts l pos).errors, some s⟩ := by
        rw [← hs]
      exact produced_of_shifts he.1 he.2 h (shifts_of_shift hshift)
    · exact produced_empty

/-! ### Runs -/

theorem produced_foldl (parts : Nat) {p : Progress} {l : List Scanned} (hl : ∀ e ∈ l, e.Sound)
    (h : p.stack.Produced) : (l.foldl (Progress.step parts) p).stack.Produced := by
  induction l generalizing p with
  | nil => exact h
  | cons e rest ih =>
    obtain ⟨he, hrest⟩ := List.forall_mem_cons.mp hl
    exact ih hrest (produced_step parts he h)

theorem Stack.Produced.finish {parts : Nat} {s : Stack} {errors : List ArithError}
    {read : List (Option Arith)} (h : s.Produced) (hf : s.finish parts = (errors, some read)) :
    Arith.ProducedParts read := by
  obtain ⟨last, rfl, hend⟩ := finishes_of_finish hf
  cases hend with
  | empty _ => exact h.parts.append (by simp)
  | operand _ hr =>
    have hset := h.settle hr
    exact hset.parts.append hset.operand

/-- Whatever is built of a text is produced, whether or not it is returned. -/
theorem produced_of_readParts {parts : Nat} {text : String} {read : List (Option Arith)}
    (h : (readParts parts text).built = some read) : Arith.ProducedParts read := by
  have hrun : ((scan text).foldl (Progress.step parts) {}).stack.Produced :=
    produced_foldl parts sound_of_scan produced_empty
  simp only [readParts] at h
  split at h
  · rename_i errors read' hf
    cases h
    exact hrun.finish hf
  · cases h

/-! ### The nodes of what is produced -/

namespace Arith.Produced

variable {t : Arith}

theorem legal (h : t.Produced) : t.Legal := by
  induction h with
  | operand hl hp hx =>
    obtain ⟨w, rfl, hw⟩ := token?_of_operand? hl hx
    exact .word hw hl
  | prefixed ho _ _ ih => exact .prefixed ho ih
  | postfixed ho _ _ ih => exact .postfixed ho ih
  | binary ho _ _ _ ihx ihy => exact .binary ho ihx ihy
  | paren _ _ _ ih => exact .paren ih

end Arith.Produced

/-- The node is a word, a literal, a parameter without braces, or an expression that lacks no
operand, and all tokens of its own have valid positions. -/
def Node.Complete : Node → Prop
  | .word _ => True
  | .lit l => l.pos.Valid
  | .part (.param e) => e.short = true ∧ e.dollar.Valid
  | .arith (.unary _ operand _ pos) => operand ≠ none ∧ pos.Valid
  | .arith (.binary _ left right pos) => left ≠ none ∧ right ≠ none ∧ pos.Valid
  | .arith (.paren inner lparen rparen) => inner ≠ none ∧ lparen.Valid ∧ rparen.Valid
  | _ => False

theorem Arith.Produced.complete {t : Arith} (h : t.Produced) :
    ∀ m ∈ (Node.arith t).walk, m.Complete ∧ m.pos.Valid := by
  induction h with
  | @operand l pos x hl hp hx =>
    cases l with
    | op t => cases hx
    | name text | number text =>
      cases hx
      simp [Node.walk_eq, Node.children, children, Part.children, Word.ofLit, Node.Complete,
        Node.pos, Arith.pos, Word.pos, Part.pos, hp]
    | param text =>
      cases hx
      have hright : (pos.right 1).Valid := hp
      simp [Node.walk_eq, Node.children, children, Part.children, Node.Complete, Node.pos,
        Arith.pos, Word.pos, Part.pos, hp, hright]
  | prefixed ho hp hx ih | postfixed ho hp hx ih =>
    rw [Node.forall_mem_walk_iff]
    refine ⟨⟨⟨by simp, hp⟩, hp⟩, ?_⟩
    simpa [Node.children, children] using ih
  | @binary op x y pos ho hp hx hy ihx ihy =>
    have hroot := (Node.forall_mem_walk_iff.mp ihx).1
    rw [Node.forall_mem_walk_iff]
    refine ⟨⟨⟨by simp, by simp, hp⟩, hroot.2⟩, ?_⟩
    simpa [Node.children, children] using And.intro ihx ihy
  | paren hl hr hx ih =>
    rw [Node.forall_mem_walk_iff]
    refine ⟨⟨⟨by simp, hl, hr⟩, hl⟩, ?_⟩
    simpa [Node.children, children] using ih

/-! ### What is returned -/

theorem Reading.built_of_tree {α : Type} {r : Reading α} {t : α} (h : r.tree = some t) :
    r.built = some t := by
  rw [tree_eq_some_iff.mp h]

theorem Arith.produced_of_parse {text : String} {t : Arith}
    (h : (Arith.parse text).built = some t) : t.Produced := by
  obtain ⟨read, hread, hhead⟩ := Option.bind_eq_some_iff.mp h
  exact produced_of_readParts hread (some t) (some_mem_of_head? hhead) t rfl

theorem CountLoop.produced_of_parse {text : String} {l : CountLoop}
    (h : (CountLoop.parse text).built = some l) :
    Arith.ProducedParts [l.init, l.cond, l.step] := by
  obtain ⟨read, hread, hmade⟩ := Option.bind_eq_some_iff.mp h
  split at hmade
  · cases hmade
    exact produced_of_readParts hread
  · cases hmade

theorem Arith.Produced.violations {t : Arith} (h : t.Produced) :
    ∀ m ∈ (Node.arith t).walk, m.violations = [] :=
  violations_of_legal h.legal

/-- What holds of all nodes of each part of a loop holds of all nodes below the loop. -/
theorem CountLoop.forall_mem_walk {P : Node → Prop} {l : CountLoop}
    (h : ∀ p ∈ [l.init, l.cond, l.step], ∀ x ∈ p, ∀ m ∈ (Node.arith x).walk, P m) :
    ∀ m ∈ (Node.countLoop l).children.flatMap Node.walk, P m := by
  intro m hm
  obtain ⟨c, hc, hm⟩ := List.mem_flatMap.mp hm
  simp only [Node.children, ForHead.children, List.mem_append, Option.mem_toList,
    Option.map_eq_some_iff] at hc
  rcases hc with (⟨x, hx, rfl⟩ | ⟨x, hx, rfl⟩) | ⟨x, hx, rfl⟩
  · exact h l.init (by simp) x hx m hm
  · exact h l.cond (by simp) x hx m hm
  · exact h l.step (by simp) x hx m hm

/-- A tree that is returned for an expression passes the check and is complete: it has only words,
literals, parameters without braces and operators in it, no operator lacks an operand, and every
node has a valid position. The same holds of the parts of a loop, which stands at the root and
nowhere else. -/
theorem tree_produced :
    (∀ (text : String) (t : Arith), (Arith.parse text).tree = some t →
      (∀ r, ((Node.arith t).check r).ok = true) ∧
        ∀ m ∈ (Node.arith t).walk, m.Complete ∧ m.pos.Valid) ∧
    (∀ (text : String) (l : CountLoop), (CountLoop.parse text).tree = some l →
      (∀ r, ((Node.countLoop l).check r).ok = true) ∧
        ∃ below, (Node.countLoop l).walk = .countLoop l :: below ∧
          ∀ m ∈ below, m.Complete ∧ m.pos.Valid) := by
  constructor
  · intro text t h
    have produced := Arith.produced_of_parse (Reading.built_of_tree h)
    exact ⟨fun r => Node.check_ok_iff.mpr produced.violations, produced.complete⟩
  · intro text l h
    have produced := CountLoop.produced_of_parse (Reading.built_of_tree h)
    refine ⟨fun r => Node.check_ok_iff.mpr ?_, _, Node.walk_eq _, ?_⟩
    · rw [Node.walk_eq, List.forall_mem_cons]
      have below := CountLoop.forall_mem_walk fun p hp x hx => (produced p hp x hx).violations
      exact ⟨rfl, below⟩
    · exact CountLoop.forall_mem_walk fun p hp x hx => (produced p hp x hx).complete

/-- Parts of a loop may be left out, but no operator lacks an operand. -/
theorem tree_produced_increment :
    (∃ t, (Arith.parse "-$x--").tree = some t ∧ (∀ r, ((Node.arith t).check r).ok = true) ∧
      ∀ m ∈ (Node.arith t).walk, m.Complete ∧ m.pos.Valid) ∧
    (∃ l, (CountLoop.parse ";;i++").tree = some l ∧
      (∀ r, ((Node.countLoop l).check r).ok = true) ∧
        ∃ below, (Node.countLoop l).walk = .countLoop l :: below ∧
          ∀ m ∈ below, m.Complete ∧ m.pos.Valid) := by
  have signs : scan "-$x--" = Placed.scanned
      [(.op .minus, ⟨1, 1, 0⟩), (.param "x", ⟨1, 2, 1⟩), (.op .minusMinus, ⟨1, 4, 3⟩)] := by
    decide +kernel
  have expression : ∃ t, (Arith.parse "-$x--").tree = some t := by
    rw [Arith.parse, readParts, signs]
    exact ⟨_, rfl⟩
  have parts : scan ";;i++" = Placed.scanned
      [(.op .semicolon, ⟨1, 1, 0⟩), (.op .semicolon, ⟨1, 2, 1⟩), (.name "i", ⟨1, 3, 2⟩),
       (.op .plusPlus, ⟨1, 4, 3⟩)] := by
    decide +kernel
  have loop : ∃ l, (CountLoop.parse ";;i++").tree = some l := by
    rw [CountLoop.parse, readParts, parts]
    exact ⟨_, rfl⟩
  obtain ⟨t, ht⟩ := expression
  obtain ⟨l, hl⟩ := loop
  exact ⟨⟨t, ht, tree_produced.1 _ t ht⟩, ⟨l, hl, tree_produced.2 _ l hl⟩⟩

end ShellSyntax
