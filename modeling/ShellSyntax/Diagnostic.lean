import ShellSyntax.Pos

/-!
# Diagnoses

A `Diagnostic` says what went wrong, in which construct, in which context and where. `render` writes
the parts that are known, in this order.
-/

namespace ShellSyntax

structure Diagnostic where
  message : String
  construct : Option String := none
  context : Option String := none
  pos : Option Pos := none
  deriving DecidableEq, Repr

namespace Diagnostic

/-- An absent or empty part is left out. -/
def clause (label : String) : Option String → String
  | none => ""
  | some text => if text = "" then "" else label ++ "\x7b" ++ text ++ "\x7d"

/-- Only a valid position is shown. -/
def place : Option Pos → String
  | none => ""
  | some pos => if pos.Valid then " at " ++ pos.render else ""

def render (d : Diagnostic) : String :=
  d.message ++ clause " in " d.construct ++ clause " in context " d.context ++ place d.pos

/-- Several diagnoses on one line. -/
def renderAll (l : List Diagnostic) : String := "; ".intercalate (l.map render)

instance : ToString Diagnostic where
  toString := render

end Diagnostic

end ShellSyntax
