import ShellSyntax.CommandLine.Run

/-!
# The program

`main` lets the system answer what a run asks. What is asked, and what follows upon the answers, is
settled by `runWith`.
-/

namespace ShellSyntax

/-- The error as the system numbers and words it. -/
def FileError.ofSystem : IO.Error → FileError
  | .alreadyExists _ code reason | .otherError code reason | .resourceBusy code reason
  | .resourceVanished code reason | .unsupportedOperation code reason
  | .hardwareFault code reason | .unsatisfiedConstraints code reason
  | .illegalOperation code reason | .protocolError code reason | .timeExpired code reason
  | .interrupted _ code reason | .noFileOrDirectory _ code reason
  | .invalidArgument _ code reason | .permissionDenied _ code reason
  | .resourceExhausted _ code reason | .inappropriateType _ code reason
  | .noSuchThing _ code reason => { code := code.toNat, reason }
  | .unexpectedEof => { code := 0, reason := "Unexpected end of file" }
  | .userError reason => { code := 0, reason }

/-- A file or directory of this name can be opened, or is there and may not be. -/
def isOccupied (name : String) : IO Bool := do
  try
    let _ ← IO.FS.Handle.mk name .read
    return true
  catch e =>
    let code := (FileError.ofSystem e).code
    return code ≠ FileError.missing.code ∧ code ≠ FileError.notADirectory.code

/-- Lets the system answer. -/
def Dialogue.perform : Dialogue → IO UInt32
  | .exit code => return code.toUInt32
  | .write text next => do
    let out ← IO.getStdout
    out.putStr text
    out.flush
    next.perform
  | .warn text next => do
    IO.eprint text
    next.perform
  | .readInput next => do
    let text ← (← IO.getStdin).readToEnd
    (next text).perform
  | .readLine next => do
    let text ← (← IO.getStdin).getLine
    (next (firstLine? text)).perform
  | .readFile name next => do
    let result ←
      try pure (.ok (← (← IO.FS.Handle.mk name .read).readToEnd))
      catch e => pure (.error (FileError.ofSystem e))
    (next result).perform
  | .probe name next => do
    (next (← isOccupied name)).perform
  | .writeFile name text next => do
    let failure ←
      try
        IO.FS.writeFile name text
        pure none
      catch e => pure (some (FileError.ofSystem e))
    (next failure).perform

end ShellSyntax

def main (args : List String) : IO UInt32 := (ShellSyntax.runWith args).perform
