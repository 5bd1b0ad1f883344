import ShellSyntax.Arith.Parse
import ShellSyntax.Proofs.Arith.Scanning

/-!
# What a reader does

* `Shifts`: all that a lexeme can do to a stack (`shift_eq_iff`);
* `Finishes`: the ways in which a text may end (`finishes_of_finish`);
* `Reads`: a stack takes lexemes one after the other, each of which fits;
* `readParts_of_reads`, `reads_of_readParts`: a text is read without complaint exactly if the empty
  stack reads all its lexemes without one.
-/

namespace ShellSyntax

/-- The operand that a lexeme at this position stands for. -/
def Lexeme.operand? (pos : Pos) : Lexeme → Option Arith
  | .name text | .number text => some (.word (.ofLit text pos))
  | .param text =>
    some (.word ⟨[.param { param := ⟨text, pos.right 1⟩, short := true, dollar := pos }]⟩)
  | .op _ => none

/-- A stack takes a lexeme: what was wrong before the lexeme was reached, and the stack with it. -/
inductive Shifts (parts : Nat) : Stack → Placed → List ArithError → Stack → Prop where
  | operand {read : List (Option Arith)} {frames : List Frame} {l : Lexeme} {pos : Pos} {x : Arith}
      (h : l.operand? pos = some x) :
      Shifts parts ⟨read, frames, none⟩ (l, pos) [] ⟨read, frames, some x⟩
  | leftParen {read : List (Option Arith)} {frames : List Frame} {pos : Pos} :
      Shifts parts ⟨read, frames, none⟩ (.op .leftParen, pos) []
        ⟨read, .paren pos :: frames, none⟩
  | prefixed {read : List (Option Arith)} {frames : List Frame} {op : Token} {pos : Pos}
      (h : op.prefixLevel?.isSome = true) :
      Shifts parts ⟨read, frames, none⟩ (.op op, pos) []
        ⟨read, .waiting (.prefixOp op pos) :: frames, none⟩
  | emptyPart {read : List (Option Arith)} {pos : Pos} (h : read.length + 1 < parts) :
      Shifts parts ⟨read, [], none⟩ (.op .semicolon, pos) [] ⟨read ++ [none], [], none⟩
  | infixed {read : List (Option Arith)} {frames : List Frame} {x : Arith} {op : Token} {pos : Pos}
      {level : Level} {r : Settled} (h : op.infixLevel? = some level)
      (hr : settle (fun w => w.Before level) frames x = r) :
      Shifts parts ⟨read, frames, some x⟩ (.op op, pos) r.errors
        ⟨read, .waiting (.infixOp r.operand op pos) :: r.frames, none⟩
  | postfixed {read : List (Option Arith)} {frames : List Frame} {x : Arith} {op : Token}
      {pos : Pos} {r : Settled} (h : op ∈ Token.postfixes)
      (hr : settle (fun w => w.Before .ofPostfix) frames x = r) :
      Shifts parts ⟨read, frames, some x⟩ (.op op, pos) r.errors
        ⟨read, r.frames, some (.unary op (some r.operand) true pos)⟩
  | rightParen {read : List (Option Arith)} {frames rest : List Frame} {x y : Arith}
      {pos lparen : Pos} {errors : List ArithError}
      (hr : settle (fun _ => true) frames x = ⟨.paren lparen :: rest, y, errors⟩) :
      Shifts parts ⟨read, frames, some x⟩ (.op .rightParen, pos) errors
        ⟨read, rest, some (.paren (some y) lparen pos)⟩
  | part {read : List (Option Arith)} {frames : List Frame} {x y : Arith} {pos : Pos}
      {errors : List ArithError} (h : read.length + 1 < parts)
      (hr : settle (fun _ => true) frames x = ⟨[], y, errors⟩) :
      Shifts parts ⟨read, frames, some x⟩ (.op .semicolon, pos) errors
        ⟨read ++ [some y], [], none⟩

/-- A stack is the end of a text: what was wrong before this end was reached, and the last part. -/
inductive Finishes (parts : Nat) : Stack → List ArithError → Option Arith → Prop where
  | empty {read : List (Option Arith)} (h : read.length + 1 = parts) :
      Finishes parts ⟨read, [], none⟩ [] none
  | operand {read : List (Option Arith)} {frames : List Frame} {x y : Arith}
      {errors : List ArithError} (h : read.length + 1 = parts)
      (hr : settle (fun _ => true) frames x = ⟨[], y, errors⟩) :
      Finishes parts ⟨read, frames, some x⟩ errors (some y)

/-! ### A shift is one of these -/

theorem shifts_of_shiftOperand {parts : Nat} {s s' : Stack} {l : Lexeme} {pos : Pos}
    {errors : List ArithError} (hs : s.operand = none)
    (h : s.shiftOperand parts pos l = ⟨errors, some s'⟩) : Shifts parts s (l, pos) errors s' := by
  obtain ⟨read, frames, operand⟩ := s
  cases hs
  cases l with
  | name text | number text | param text =>
    cases h
    exact .operand rfl
  | op t =>
    simp only [Stack.shiftOperand] at h
    split at h
    · rename_i ht
      subst ht
      cases h
      exact .leftParen
    · split at h
      · rename_i hp
        cases h
        exact .prefixed hp
      · split at h
        · rename_i ht
          obtain ⟨ht, hf, hl⟩ := ht
          cases List.isEmpty_iff.mp hf
          subst ht
          cases h
          exact .emptyPart hl
        · cases h

theorem shifts_of_shiftOperator {parts : Nat} {s s' : Stack} {x : Arith} {l : Lexeme} {pos : Pos}
    {errors : List ArithError} (hs : s.operand = some x)
    (h : s.shiftOperator parts x pos l = ⟨errors, some s'⟩) :
    Shifts parts s (l, pos) errors s' := by
  obtain ⟨read, frames, operand⟩ := s
  cases hs
  cases l with
  | name text | number text | param text => cases h
  | op t =>
    simp only [Stack.shiftOperator] at h
    split at h
    · rename_i level hl
      cases h
      exact .infixed hl rfl
    · split at h
      · rename_i hp
        cases h
        exact .postfixed hp rfl
      · split at h
        · rename_i ht
          subst ht
          split at h
          · rename_i lparen rest hf
            cases h
            refine .rightParen ?_
            rw [← hf]
          · cases h
        · split at h
          · rename_i ht
            obtain ⟨rfl, -⟩ := ht
            split at h
            · rename_i hf
              obtain ⟨hf, hl⟩ := hf
              cases h
              refine .part hl ?_
              rw [← List.isEmpty_iff.mp hf]
            · cases h
          · cases h

theorem shifts_of_shift {parts : Nat} {s s' : Stack} {l : Lexeme} {pos : Pos}
    {errors : List ArithError} (h : s.shift parts l pos = ⟨errors, some s'⟩) :
    Shifts parts s (l, pos) errors s' := by
  unfold Stack.shift at h
  split at h
  · rename_i hs
    exact shifts_of_shiftOperand hs h
  · rename_i x hs
    exact shifts_of_shiftOperator hs h

theorem shift_of_shifts {parts : Nat} {s s' : Stack} {t : Placed} {errors : List ArithError}
    (h : Shifts parts s t errors s') : s.shift parts t.1 t.2 = ⟨errors, some s'⟩ := by
  cases h with
  | @operand read frames l pos x h =>
    cases l with
    | op t => cases h
    | name text | number text | param text =>
      cases h
      rfl
  | leftParen => rfl
  | @prefixed read frames op pos h =>
    have hne : op ≠ .leftParen := by
      rintro rfl
      cases h
    simp only [Stack.shift, Stack.shiftOperand, if_neg hne, if_pos h]
  | @emptyPart read pos h =>
    simp only [Stack.shift, Stack.shiftOperand]
    rw [if_neg (by decide), if_neg (by decide), if_pos ⟨trivial, rfl, h⟩]
  | @infixed read frames x op pos level r h hr =>
    subst hr
    simp only [Stack.shift, Stack.shiftOperator, h]
  | @postfixed read frames x op pos r h hr =>
    subst hr
    have hn : op.infixLevel? = none := by
      revert h
      cases op <;> decide
    simp only [Stack.shift, Stack.shiftOperator, hn, if_pos h]
  | rightParen hr =>
    simp only [Stack.shift, Stack.shiftOperator, Token.infixLevel?]
    rw [if_neg (by decide), if_pos trivial, hr]
  | @part read frames x y pos errors h hr =>
    simp only [Stack.shift, Stack.shiftOperator, Token.infixLevel?]
    rw [if_neg (by decide), if_neg (by decide), if_pos ⟨trivial, by omega⟩, hr]
    exact if_pos ⟨rfl, h⟩

theorem shift_eq_iff {parts : Nat} {s s' : Stack} {l : Lexeme} {pos : Pos}
    {errors : List ArithError} :
    s.shift parts l pos = ⟨errors, some s'⟩ ↔ Shifts parts s (l, pos) errors s' :=
  ⟨shifts_of_shift, shift_of_shifts⟩

theorem finishes_of_finish {parts : Nat} {s : Stack} {errors : List ArithError}
    {read : List (Option Arith)} (h : s.finish parts = (errors, some read)) :
    ∃ last, read = s.parts ++ [last] ∧ Finishes parts s errors last := by
  obtain ⟨before, frames, operand⟩ := s
  cases operand with
  | none =>
    simp only [Stack.finish] at h
    split at h
    · rename_i hc
      obtain ⟨hframes, hlength⟩ := hc
      cases List.isEmpty_iff.mp hframes
      cases h
      exact ⟨none, rfl, .empty hlength⟩
    · cases h
  | some x =>
    simp only [Stack.finish] at h
    split at h
    · rename_i hc
      obtain ⟨hframes, hlength⟩ := hc
      cases h
      refine ⟨some _, rfl, .operand hlength ?_⟩
      rw [← List.isEmpty_iff.mp hframes]
    · cases h

/-! ### Runs -/

/-- A stack takes lexemes in order, and `errors` is what was wrong on the way. -/
inductive Reads (parts : Nat) : Stack → List Placed → List ArithError → Stack → Prop where
  | nil (s : Stack) : Reads parts s [] [] s
  | cons {s t u : Stack} {l : Placed} {rest : List Placed} {errors more : List ArithError}
      (h : Shifts parts s l errors t) (hr : Reads parts t rest more u) :
      Reads parts s (l :: rest) (errors ++ more) u

theorem Reads.single {parts : Nat} {s t : Stack} {l : Placed} {errors : List ArithError}
    (h : Shifts parts s l errors t) : Reads parts s [l] errors t := by
  simpa using Reads.cons h (.nil t)

theorem Reads.append {parts : Nat} {s t u : Stack} {l m : List Placed}
    {errors more : List ArithError} (h : Reads parts s l errors t) (hr : Reads parts t m more u) :
    Reads parts s (l ++ m) (errors ++ more) u := by
  induction h with
  | nil => exact hr
  | cons hs _ ih =>
    rw [List.cons_append, List.append_assoc]
    exact .cons hs (ih hr)

theorem foldl_of_reads {parts : Nat} {s t : Stack} {l : List Placed} {errors : List ArithError}
    (h : Reads parts s l errors t) (quiet : Nat) (before : List ArithError) :
    ∃ left, (Placed.scanned l).foldl (Progress.step parts) ⟨s, quiet, before⟩
      = ⟨t, left, before ++ errors⟩ := by
  induction h generalizing quiet before with
  | nil s => exact ⟨quiet, by simp [Placed.scanned]⟩
  | @cons s t u l rest errors more h hr ih =>
    obtain ⟨left, hl⟩ := ih (quiet - 1) (before ++ errors)
    refine ⟨left, ?_⟩
    have hs := shift_of_shifts h
    simp only [Placed.scanned, List.map_cons, List.foldl_cons, Progress.step, hs]
    rw [← List.append_assoc]
    exact hl

theorem readParts_of_reads {parts : Nat} {text : String} {l : List Placed} {s : Stack}
    {errors more : List ArithError} {read : List (Option Arith)}
    (hl : scan text = Placed.scanned l) (h : Reads parts {} l errors s)
    (hf : s.finish parts = (more, some read)) :
    readParts parts text = { built := some read, errors := errors ++ more } := by
  obtain ⟨left, hp⟩ := foldl_of_reads h 0 []
  simp only [readParts, hl, hp, hf, List.nil_append]

/-- An error that was logged stays logged. -/
theorem errors_prefix_step (parts : Nat) (p : Progress) (e : Scanned) :
    p.errors <+: (p.step parts e).errors := by
  cases e with
  | illegal c pos => exact List.prefix_append _ _
  | lexeme l pos =>
    simp only [Progress.step]
    split
    · exact List.prefix_append _ _
    · simp only [Progress.refuse]
      split
      · rw [List.append_assoc]
        exact List.prefix_append _ _
      · exact List.prefix_append _ _

theorem errors_prefix_foldl (parts : Nat) (p : Progress) (l : List Scanned) :
    p.errors <+: (l.foldl (Progress.step parts) p).errors := by
  induction l generalizing p with
  | nil => exact List.prefix_refl _
  | cons e rest ih => exact (errors_prefix_step parts p e).trans (ih _)

/-- A run that logs nothing met only lexemes, each of which fitted. -/
theorem reads_of_foldl {parts : Nat} {s : Stack} {l : List Scanned}
    (h : (l.foldl (Progress.step parts) ⟨s, 0, []⟩).errors = []) :
    ∃ m t, l = Placed.scanned m ∧ Reads parts s m [] t ∧
      l.foldl (Progress.step parts) ⟨s, 0, []⟩ = ⟨t, 0, []⟩ := by
  induction l generalizing s with
  | nil => exact ⟨[], s, rfl, .nil s, rfl⟩
  | cons e rest ih =>
    rw [List.foldl_cons] at h ⊢
    have hs : (Progress.step parts ⟨s, 0, []⟩ e).errors = [] := by
      have := errors_prefix_foldl parts (Progress.step parts ⟨s, 0, []⟩ e) rest
      rw [h] at this
      exact List.prefix_nil.mp this
    cases e with
    | illegal c pos => cases hs
    | lexeme l pos =>
      simp only [Progress.step] at h hs ⊢
      split at hs
      · rename_i t ht
        have he : (s.shift parts l pos).errors = [] := hs
        have hshift : s.shift parts l pos = ⟨[], some t⟩ := by
          rw [← he, ← ht]
        rw [hshift] at h ⊢
        obtain ⟨m, u, hm, hr, hf⟩ := ih h
        refine ⟨(l, pos) :: m, u, by rw [hm]; rfl, ?_, hf⟩
        exact Reads.cons (shifts_of_shift hshift) hr
      · simp [Progress.refuse] at hs

theorem reads_of_readParts {parts : Nat} {text : String} {read : List (Option Arith)}
    (h : readParts parts text = { built := some read, errors := [] }) :
    ∃ l s, scan text = Placed.scanned l ∧ Reads parts {} l [] s ∧
      s.finish parts = ([], some read) := by
  have hp : ((scan text).foldl (Progress.step parts) {}).errors = [] := by
    simp only [readParts] at h
    split at h
    · simp only [Reading.mk.injEq, List.append_eq_nil_iff] at h
      exact h.2.1
    · cases h
  obtain ⟨l, s, hl, hr, hf⟩ := reads_of_foldl hp
  refine ⟨l, s, hl, hr, ?_⟩
  have hf' : (scan text).foldl (Progress.step parts) {} = ⟨s, 0, []⟩ := hf
  simp only [readParts, hf'] at h
  split at h
  · rename_i errors read' heq
    simp only [Reading.mk.injEq, Option.some.injEq, List.nil_append] at h
    rw [heq, h.1, h.2]
  · cases h

end ShellSyntax
