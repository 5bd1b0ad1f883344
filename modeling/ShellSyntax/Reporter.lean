import ShellSyntax.Diagnostic

/-!
# The backlog of a run

A `Reporter` collects messages, each tagged with the section in which it was logged.

* `Reporter.log` and `logAll` add to the backlog; nothing else changes it;
* `Reporter.checkpoint` opens a section, and ends the run if anything was logged so far;
* `Reporter.crash` ends the run with the whole backlog.

An operation that writes or ends the run answers with a `Report`.
-/

namespace ShellSyntax

structure Reporter where
  phase? : Option String := none
  backlog : List String := []
  verbose : Bool := false
  deriving DecidableEq, Repr

/-- What an operation leaves behind: the reporter, the text it wrote, whether the run ends. -/
structure Report where
  reporter : Reporter
  text : String := ""
  exits : Bool := false
  deriving DecidableEq, Repr

namespace Reporter

/-- The message behind the section in force. -/
def tagged (r : Reporter) (message : String) : String :=
  "\x7b" ++ r.phase?.getD "None" ++ "\x7d \t| " ++ message

def logMessage (r : Reporter) (message : String) : Reporter :=
  { r with backlog := r.backlog ++ [r.tagged message] }

def log (r : Reporter) (d : Diagnostic) : Reporter := r.logMessage d.render

def logAll (r : Reporter) (l : List Diagnostic) : Reporter :=
  { r with backlog := r.backlog ++ l.map fun d => r.tagged d.render }

/-- The line of a fatal error names the section, if one is open and has a name. -/
def fatal (r : Reporter) (message : String) : String :=
  match r.phase? with
  | none => message
  | some name => if name = "" then message else r.tagged message

def crash (r : Reporter) (message : String) : Report where
  reporter := r
  text :=
    "=== Error backlog ===\n" ++ String.join (r.backlog.map fun e => "[ Error ] " ++ e ++ "\n")
      ++ "[ Fatal Error ] | " ++ r.fatal message ++ "\n"
  exits := true

def info (r : Reporter) (message : String) : Report where
  reporter := r
  text := if r.verbose then "[ Info ] " ++ r.tagged message ++ "\n" else ""

def checkpoint (r : Reporter) (name : Option String) : Report :=
  let opened := { r with phase? := name }
  if opened.backlog = [] then opened.info "start"
  else opened.crash "error backlog at checkpoint"

end Reporter

/-- The first line of the input, without its end; nothing when the input is used up. -/
def firstLine? (input : String) : Option String :=
  if input = "" then none else some (String.ofList (input.toList.takeWhile (· ≠ '\n')))

/-- The input behind its first line. -/
def afterFirstLine (input : String) : String :=
  .ofList ((input.toList.dropWhile (· ≠ '\n')).drop 1)

/-- An answer means yes when it is empty or begins with a y; none at all is a no. -/
def affirms : Option String → Bool
  | none => false
  | some answer => match answer.toList with
    | [] => true
    | c :: _ => c = 'y' || c = 'Y'

/-- Whether the first line of the input means yes. -/
def confirms (input : String) : Bool := affirms (firstLine? input)

end ShellSyntax
