/-!
# Source positions

* `Pos`: line, column and offset; the zero value `{}` stands for "no position";
* `Pos.Valid`: lines count from one, so a position is valid when its line is positive;
* `Pos.Le`: lexicographic order on line, then column, then offset.
-/

namespace ShellSyntax

structure Pos where
  line : Int := 0
  column : Int := 0
  offset : Int := 0
  deriving DecidableEq, Repr

namespace Pos

def Valid (p : Pos) : Prop := 0 < p.line

instance (p : Pos) : Decidable p.Valid := inferInstanceAs (Decidable (0 < p.line))

/-- Line first, then column, then offset. -/
def Le (p q : Pos) : Prop :=
  p.line < q.line ∨
    p.line = q.line ∧ (p.column < q.column ∨ p.column = q.column ∧ p.offset ≤ q.offset)

instance (p q : Pos) : Decidable (p.Le q) := by unfold Le; infer_instance

/-- Positions are written `line:column`. -/
def render (p : Pos) : String := toString p.line ++ ":" ++ toString p.column

instance : ToString Pos where
  toString := render

/-- Ascending order; equal positions stay in place. -/
def sort (l : List Pos) : List Pos := l.mergeSort fun p q => decide (p.Le q)

/-- The position `n` characters further on the same line. -/
def right (p : Pos) (n : Nat) : Pos :=
  { p with column := p.column + n, offset := p.offset + n }

end Pos

end ShellSyntax
