import ShellSyntax.Arith.Parse
import ShellSyntax.Check
import ShellSyntax.CommandLine.Dialogue
import ShellSyntax.CommandLine.Options
import ShellSyntax.Json.Read
import ShellSyntax.Schema.Decode

/-!
# The command line

`runWith` is a run with given arguments: it loads a tree, checks it, prints it and writes the text.
Between these phases the run ends if anything was logged, so what is wrong in one phase is told in full
and no later one begins.
-/

namespace ShellSyntax

/-- Lines of text, each with its end. -/
def linesOf (l : List String) : String := String.join (l.map (· ++ "\n"))

def usage : String := linesOf
  ["usage: shpp.py [-h] [-o OUTPUT] [-y] [--arith] [--no-check]",
   "               [--max-depth MAX_DEPTH] [-v]",
   "               input"]

def helpText : String := usage ++ linesOf
  ["",
   "print shell syntax trees as canonical shell text",
   "",
   "positional arguments:",
   "  input                 syntax tree file (.json), - for stdin, or an",
   "                        expression with --arith",
   "",
   "options:",
   "  -h, --help            show this help message and exit",
   "  -o OUTPUT, --output OUTPUT",
   "                        write the result here instead of stdout",
   "  -y, --yes             overwrite the output file without asking",
   "  --arith               input is an arithmetic expression to normalize",
   "  --no-check            skip the structural checks",
   "  --max-depth MAX_DEPTH",
   "                        refuse trees nested deeper than this (default: 200)",
   "  -v, --verbose         report progress on stderr"]

def Misuse.render (m : Misuse) : String := usage ++ "shpp.py: error: " ++ m.message ++ "\n"

/-- The text with every line break written as a line feed. -/
def unifyBreaks : List Char → List Char
  | '\r' :: '\n' :: rest => '\n' :: unifyBreaks rest
  | '\r' :: rest => '\n' :: unifyBreaks rest
  | c :: rest => c :: unifyBreaks rest
  | [] => []

/-- Tells what a reporter has to say. -/
def Report.tell (report : Report) (next : Reporter → Dialogue) : Dialogue :=
  .warn report.text (if report.exits then .exit 1 else next report.reporter)

/-- Opens a section, or ends the run if something was logged. -/
def Reporter.enter (r : Reporter) (name : String) (next : Reporter → Dialogue) : Dialogue :=
  (r.checkpoint (some name)).tell next

/-- The outcome of loading: the tree, if there is one, and the reporter. -/
structure Loaded where
  tree : Option Node
  reporter : Reporter

/-- The tree that the value encodes. Without one, the reporter tells every defect. -/
def loadTree (r : Reporter) (j : Json) : Loaded :=
  match Node.decode j with
  | .error defects => { tree := none, reporter := r.logAll (defects.map Located.diagnostic) }
  | .ok n => { tree := some n, reporter := r }

/-- Reads a tree from JSON text. The text `null` stands for no tree. -/
def loadJson (r : Reporter) (name : String) (text : String) : Loaded :=
  match Json.read text with
  | .error e =>
    { tree := none
      reporter := r.logMessage ("cannot read JSON file " ++ name ++ ": " ++ e.message text) }
  | .ok .null => { tree := none, reporter := r }
  | .ok j => loadTree r j

def loadExpression (r : Reporter) (text : String) : Loaded :=
  let reading := Arith.parse text
  { tree := reading.tree.map .arith
    reporter := r.logAll (reading.errors.map ArithError.diagnostic) }

def Source.load (r : Reporter) (next : Loaded → Dialogue) : Source → Dialogue
  | .expression text => next (loadExpression r text)
  | .standardInput => .readInput fun text => next (loadJson r "-" text)
  | .file name => .readFile name fun
    | .ok text => next (loadJson r name (.ofList (unifyBreaks text.toList)))
    | .error e =>
      next
        { tree := none
          reporter := r.logMessage ("cannot read JSON file " ++ name ++ ": " ++ e.message name) }

namespace Options

/-- Checks the structure of the tree, unless that is turned off, and its depth. -/
def inspect (o : Options) (r : Reporter) (n : Node) : Reporter :=
  let r := if o.check then (n.check r).reporter else r
  if n.depth > o.maxDepth then
    r.logMessage ("tree nested deeper than " ++ toString o.maxDepth)
  else r

/-- The text of the result, which ends with a line break. -/
def resultText (tree : Option Node) : String :=
  let text := Node.print? tree
  if endsIn ['\n'] text then text else text ++ "\n"

def question (name : String) : String :=
  "file \x7b" ++ name ++ "\x7d already exists, do you want to overwrite? [Y/n]"

/-- Writes the result. A file that exists is overwritten only if the options or the user say so. -/
def save (o : Options) (r : Reporter) (text : String) (next : Reporter → Dialogue) : Dialogue :=
  match o.output with
  | none => .write text (next r)
  | some name =>
    let store : Dialogue := .writeFile name text fun
      | none => next r
      | some e => next (r.logMessage ("Error writing file: " ++ e.message name))
    .probe name fun occupied =>
      if occupied ∧ o.overwrite = false then
        .write (question name) (.readLine fun answer => if affirms answer then store else next r)
      else store

def dialogue (o : Options) : Dialogue :=
  (Reporter.info { phase? := some "parsing", verbose := o.verbose } "start").tell fun r =>
  r.enter "loading" fun r => o.source.load r fun loaded =>
  loaded.reporter.enter "checking" fun r =>
  (loaded.tree.elim r (o.inspect r)).enter "printing" fun r =>
  let text := resultText loaded.tree
  r.enter "writing" fun r => o.save r text fun r =>
  r.enter "end" fun _ => .exit 0

end Options

/-- The run with the given arguments. -/
def runWith (args : List String) : Dialogue :=
  match Options.ofArgs args with
  | .error .help => .write helpText (.exit 0)
  | .error (.misuse m) => .warn m.render (.exit 2)
  | .ok o => o.dialogue

end ShellSyntax
