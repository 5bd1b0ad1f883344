import ShellSyntax.Token

/-!
# Binding levels of operators

Operators of a higher rank bind tighter. Among operators of one rank the associativity decides.
-/

namespace ShellSyntax

inductive Assoc where
  | left | right
  deriving DecidableEq, Repr

structure Level where
  rank : Nat
  assoc : Assoc
  deriving DecidableEq, Repr

namespace Token

/-- The level of an operator between two operands. -/
def infixLevel? : Token → Option Level
  | .comma => some ⟨1, .left⟩
  | .equal | .plusEqual | .minusEqual | .starEqual | .slashEqual | .percentEqual
  | .lessLessEqual | .greaterGreaterEqual | .ampersandEqual | .barEqual | .caretEqual =>
    some ⟨2, .right⟩
  | .orOr => some ⟨3, .left⟩
  | .andAnd => some ⟨4, .left⟩
  | .bar => some ⟨5, .left⟩
  | .caret => some ⟨6, .left⟩
  | .ampersand => some ⟨7, .left⟩
  | .equalEqual | .bangEqual => some ⟨8, .left⟩
  | .less | .greater | .lessEqual | .greaterEqual => some ⟨9, .left⟩
  | .lessLess | .greaterGreater => some ⟨10, .left⟩
  | .plus | .minus => some ⟨11, .left⟩
  | .star | .slash | .percent => some ⟨12, .left⟩
  | .starStar => some ⟨13, .right⟩
  | _ => none

/-- The level of an operator in front of its operand. -/
def prefixLevel? : Token → Option Level
  | .plus | .minus | .bang | .tilde => some ⟨14, .right⟩
  | .plusPlus | .minusMinus => some ⟨15, .left⟩
  | _ => none

end Token

/-- The level of an operator behind its operand. -/
def Level.ofPostfix : Level := ⟨15, .left⟩

/-- An operator of the first level takes its operand before one of the second that follows it. -/
def Level.Before (first second : Level) : Prop :=
  second.rank < first.rank ∨ second.rank = first.rank ∧ first.assoc = .left

instance (first second : Level) : Decidable (first.Before second) := by
  unfold Level.Before; infer_instance

end ShellSyntax
