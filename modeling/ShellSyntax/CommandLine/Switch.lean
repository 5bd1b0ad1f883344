/-!
# The options of the command line

* `Switch`: the options, each with its spellings;
* `Switch.ofSpelling?`: the option with a given spelling.
-/

namespace ShellSyntax

inductive Switch where
  | help | output | yes | arith | noCheck | maxDepth | verbose
  deriving DecidableEq, Repr

namespace Switch

/-- In the order in which they are listed to the user. -/
def all : List Switch := [.help, .output, .yes, .arith, .noCheck, .maxDepth, .verbose]

def spellings : Switch → List String
  | .help => ["-h", "--help"]
  | .output => ["-o", "--output"]
  | .yes => ["-y", "--yes"]
  | .arith => ["--arith"]
  | .noCheck => ["--no-check"]
  | .maxDepth => ["--max-depth"]
  | .verbose => ["-v", "--verbose"]

/-- The option as it is named in an error message. -/
def label (s : Switch) : String := "/".intercalate s.spellings

def takesValue : Switch → Bool
  | .output | .maxDepth => true
  | _ => false

/-- Every spelling with its option. -/
def spelled : List (String × Switch) := all.flatMap fun s => s.spellings.map (·, s)

def ofSpelling? (text : String) : Option Switch := spelled.lookup text

end Switch

end ShellSyntax
