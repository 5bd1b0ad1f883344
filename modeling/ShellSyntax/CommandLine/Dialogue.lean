import ShellSyntax.CommandLine.Storage
import ShellSyntax.Reporter

/-!
# Runs as dialogues

A `Dialogue` is a run told as what it asks of its surroundings, each request with what follows upon the
answer. `Dialogue.within` lets a `World` answer.
-/

namespace ShellSyntax

inductive Dialogue where
  | exit (code : Nat)
  /-- Text for standard output. -/
  | write (text : String) (next : Dialogue)
  /-- Text for standard error. -/
  | warn (text : String) (next : Dialogue)
  /-- All that is left of standard input. -/
  | readInput (next : String → Dialogue)
  /-- The next line of standard input. -/
  | readLine (next : Option String → Dialogue)
  | readFile (name : String) (next : Except FileError String → Dialogue)
  /-- Whether there is a file or directory of this name. -/
  | probe (name : String) (next : Bool → Dialogue)
  | writeFile (name text : String) (next : Option FileError → Dialogue)

/-- The surroundings of a run. -/
structure World where
  storage : Storage := {}
  input : String := ""
  output : String := ""
  warnings : String := ""
  deriving DecidableEq, Repr

/-- How a run ends: its exit code and what it leaves behind. -/
structure Ending where
  code : Nat
  world : World
  deriving DecidableEq, Repr

def Dialogue.within : Dialogue → World → Ending
  | .exit code, w => { code, world := w }
  | .write text next, w => next.within { w with output := w.output ++ text }
  | .warn text next, w => next.within { w with warnings := w.warnings ++ text }
  | .readInput next, w => (next w.input).within { w with input := "" }
  | .readLine next, w =>
    (next (firstLine? w.input)).within { w with input := afterFirstLine w.input }
  | .readFile name next, w => (next (w.storage.read name)).within w
  | .probe name next, w => (next (w.storage.occupied name)).within w
  | .writeFile name text next, w =>
    match w.storage.write name text with
    | .ok storage => (next none).within { w with storage }
    | .error e => (next (some e)).within w

end ShellSyntax
