import ShellSyntax.CommandLine.Switch
import ShellSyntax.Text.Integer
import ShellSyntax.Text.Quoted

/-!
# Reading the arguments

`Options.ofArgs` reads the arguments of a run. Each is sorted first (`Argument.ofText`): an option may
be shortened as long as it stays unique, `--name=value` carries its value along, and so does `-nvalue`;
one-letter options without values may stand together. Behind `--` no argument is an option.

The arguments are then taken in order (`Draft.read`), and the first that is wrong ends the reading. What
no rule takes is reported only when all have been read.
-/

namespace ShellSyntax

/-- A mistake in the arguments. -/
inductive Misuse where
  | ambiguous (text : String) (candidates : List String)
  /-- A value for an option that takes none. -/
  | ignoredValue (switch : Switch) (value : String)
  | missingValue (switch : Switch)
  | badNumber (switch : Switch) (value : String)
  | missingInput
  | unrecognized (texts : List String)
  | notJson
  | depthTooSmall
  deriving DecidableEq, Repr

def Misuse.message : Misuse → String
  | .ambiguous text candidates =>
    "ambiguous option: " ++ text ++ " could match " ++ ", ".intercalate candidates
  | .ignoredValue switch value =>
    "argument " ++ switch.label ++ ": ignored explicit argument " ++ quoted value
  | .missingValue switch => "argument " ++ switch.label ++ ": expected one argument"
  | .badNumber switch value =>
    "argument " ++ switch.label ++ ": invalid int value: " ++ quoted value
  | .missingInput => "the following arguments are required: input"
  | .unrecognized texts => "unrecognized arguments: " ++ " ".intercalate texts
  | .notJson => "input filename must end with the .json extension"
  | .depthTooSmall => Switch.maxDepth.label ++ " must be positive"

/-- Why the arguments do not lead to a run. -/
inductive Halt where
  | help
  | misuse (m : Misuse)
  deriving DecidableEq, Repr

/-- A value in the same argument as its option, behind an equals sign or directly. -/
structure Attached where
  equals : Bool
  value : String
  deriving DecidableEq, Repr

/-- An option as it is written in an argument. -/
structure Mention where
  switch : Switch
  /-- Written with one dash. -/
  short : Bool
  attached : Option Attached := none
  deriving DecidableEq, Repr

inductive Argument where
  | plain (text : String)
  | option (m : Mention)
  /-- Written like an option, but there is none of that name. -/
  | unknown (text : String)
  /-- The mark behind which there are no options. -/
  | endOfOptions
  deriving DecidableEq, Repr

/-- A minus sign and digits, with or without a point; a line break may end the text. -/
def looksNegative (text : String) : Bool :=
  let isDigit := fun c => (digit? c).isSome
  match text.toList with
  | '-' :: rest =>
    let body := if rest.getLast? = some '\n' then rest.dropLast else rest
    match body.dropWhile isDigit with
    | [] => !body.isEmpty
    | '.' :: fraction => !fraction.isEmpty && fraction.all isDigit
    | _ => false
  | _ => false

namespace Mention

/-- Written with two dashes, unlike `-h`. -/
def isLong (spelling : String) : Bool := "--".toList.isPrefixOf spelling.toList

def ofSpelling (spelling : String) (switch : Switch) (attached : Option Attached := none) :
    Mention :=
  { switch, short := !isLong spelling, attached }

/-- The text before the first equals sign, and the value behind it if there is one. -/
def split (text : String) : String × Option Attached :=
  let s := text.toList
  let name := s.takeWhile (· ≠ '=')
  (.ofList name, if name.length = s.length then none
    else some ⟨true, .ofList (s.drop (name.length + 1))⟩)

/-- The options that the text may stand for, each with its full spelling. -/
def candidates (text : String) : List (String × Mention) :=
  if isLong text then
    let (name, attached) := split text
    (Switch.spelled.filter fun (spelling, _) => name.toList.isPrefixOf spelling.toList).map
      fun (spelling, switch) => (spelling, ofSpelling spelling switch attached)
  else
    let s := text.toList
    (Switch.spelled.filter fun (spelling, _) => spelling.toList = s.take 2).map
      fun (spelling, switch) =>
        (spelling, ofSpelling spelling switch (some ⟨false, .ofList (s.drop 2)⟩))

end Mention

namespace Argument

/-- Sorts an argument in front of the mark. -/
def ofText (text : String) : Except Misuse Argument :=
  if text.toList.head? ≠ some '-' ∨ text = "-" then .ok (.plain text)
  else match Switch.ofSpelling? text with
    | some switch => .ok (.option (.ofSpelling text switch))
    | none =>
      let (name, attached) := Mention.split text
      match Switch.ofSpelling? name, attached with
      | some switch, some a => .ok (.option (.ofSpelling name switch (some a)))
      | _, _ =>
        match Mention.candidates text with
        | [(_, m)] => .ok (.option m)
        | [] =>
          if looksNegative text ∨ ' ' ∈ text.toList then .ok (.plain text) else .ok (.unknown text)
        | several => .error (.ambiguous text (several.map (·.1)))

def ofTexts : List String → Except Misuse (List Argument)
  | [] => .ok []
  | text :: rest =>
    if text = "--" then .ok (.endOfOptions :: rest.map .plain)
    else do return (← ofText text) :: (← ofTexts rest)

end Argument

/-- What one argument with an option says: the options without a value that it sets, an option with
the value given or to come, and text that is no option. -/
structure Setting where
  set : List Switch := []
  given : Option (Switch × String) := none
  pending : Option Switch := none
  unknown : Option String := none
  deriving DecidableEq, Repr

/-- The options that stand together in one argument, the first of them given. A value for an option
that takes none is a mistake, unless it is further one-letter options. -/
def Setting.ofCluster (switch : Switch) (short equals : Bool) : List Char → Except Misuse Setting
  | [] =>
    if switch.takesValue then .ok { given := some (switch, "") }
    else .error (.ignoredValue switch "")
  | c :: rest =>
    if switch.takesValue then .ok { given := some (switch, .ofList (c :: rest)) }
    else if short = false ∨ equals ∨ c = '-' then .error (.ignoredValue switch (.ofList (c :: rest)))
    else match Switch.ofSpelling? (.ofList ['-', c]) with
      | none => .ok { set := [switch], unknown := some (.ofList ('-' :: c :: rest)) }
      | some next =>
        let further : Except Misuse Setting := match rest with
          | [] => .ok (if next.takesValue then { pending := some next } else { set := [next] })
          | '=' :: value => ofCluster next true true value
          | value => ofCluster next true false value
        further.map fun s => { s with set := switch :: s.set }
termination_by s => s.length

def Mention.setting (m : Mention) : Except Misuse Setting :=
  match m.attached with
  | none => .ok (if m.switch.takesValue then { pending := some m.switch } else { set := [m.switch] })
  | some a => Setting.ofCluster m.switch m.short a.equals a.value.toList

/-- What the arguments have said so far. -/
structure Draft where
  input : Option String := none
  output : Option String := none
  overwrite : Bool := false
  arith : Bool := false
  check : Bool := true
  maxDepth : Int := 200
  verbose : Bool := false
  unrecognized : List String := []
  deriving DecidableEq, Repr

namespace Draft

/-- An option without a value. -/
def set (d : Draft) : Switch → Except Halt Draft
  | .help => .error .help
  | .yes => .ok { d with overwrite := true }
  | .arith => .ok { d with arith := true }
  | .noCheck => .ok { d with check := false }
  | .verbose => .ok { d with verbose := true }
  | .output | .maxDepth => .ok d

/-- An option with its value. -/
def assign (d : Draft) (value : String) : Switch → Except Halt Draft
  | .output => .ok { d with output := some value }
  | .maxDepth =>
    match readInteger? value with
    | some n => .ok { d with maxDepth := n }
    | none => .error (.misuse (.badNumber .maxDepth value))
  | _ => .ok d

def reject (d : Draft) (text : String) : Draft := { d with unrecognized := d.unrecognized ++ [text] }

/-- An argument with its options, in order; `value` belongs to the one that waits for it. -/
def take (d : Draft) (s : Setting) (value : Option String) : Except Halt Draft := do
  let d := s.unknown.elim d d.reject
  let d ← s.set.foldlM set d
  match s.given, s.pending, value with
  | some (switch, v), _, _ => d.assign v switch
  | none, some switch, some v => d.assign v switch
  | _, _, _ => .ok d

/-- The first plain argument is the input; a mark next to it goes with it. -/
def read (d : Draft) : List Argument → Except Halt Draft
  | [] => .ok d
  | .plain text :: .endOfOptions :: rest =>
    if d.input.isNone then read { d with input := some text } rest
    else read (d.reject text) (.endOfOptions :: rest)
  | .endOfOptions :: .plain text :: rest =>
    if d.input.isNone then read { d with input := some text } rest
    else read (d.reject "--") (.plain text :: rest)
  | .plain text :: rest =>
    if d.input.isNone then read { d with input := some text } rest else read (d.reject text) rest
  | .endOfOptions :: rest => read (d.reject "--") rest
  | .unknown text :: rest => read (d.reject text) rest
  | .option m :: rest => do
    let s ← m.setting.mapError .misuse
    match s.pending with
    | none => read (← d.take s none) rest
    | some switch =>
      match rest with
      | .plain value :: more => read (← d.take s (some value)) more
      | _ => .error (.misuse (.missingValue switch))
termination_by l => l.length

end Draft

/-- Where the tree comes from. -/
inductive Source where
  /-- An arithmetic expression. -/
  | expression (text : String)
  /-- JSON text on standard input. -/
  | standardInput
  /-- JSON text in a file. -/
  | file (name : String)
  deriving DecidableEq, Repr

/-- What a run is asked to do. -/
structure Options where
  source : Source
  /-- The file for the result; standard output without one. -/
  output : Option String := none
  overwrite : Bool := false
  check : Bool := true
  maxDepth : Nat := 200
  verbose : Bool := false
  deriving DecidableEq, Repr

namespace Options

def source? (d : Draft) (input : String) : Except Misuse Source :=
  if d.arith then .ok (.expression input)
  else if input = "-" then .ok .standardInput
  else if ".json".toList.isSuffixOf input.toList then .ok (.file input)
  else .error .notJson

/-- The options of a draft that is complete. -/
def ofDraft (d : Draft) : Except Misuse Options :=
  match d.input with
  | none => .error .missingInput
  | some input =>
    if d.unrecognized ≠ [] then .error (.unrecognized d.unrecognized)
    else
      match source? d input with
      | .error m => .error m
      | .ok source =>
        if d.maxDepth < 1 then .error .depthTooSmall
        else .ok
          { source, output := d.output, overwrite := d.overwrite, check := d.check,
            maxDepth := d.maxDepth.toNat, verbose := d.verbose }

def ofArgs (args : List String) : Except Halt Options := do
  let arguments ← (Argument.ofTexts args).mapError .misuse
  let d ← Draft.read {} arguments
  (ofDraft d).mapError .misuse

end Options

end ShellSyntax
