import ShellSyntax.Arith.Lexeme
import ShellSyntax.Json.Basic
import ShellSyntax.Json.Decimal
import ShellSyntax.Text.Integer

/-!
# Reading JSON text

`Json.read` reads one value with blanks around it. It also takes `NaN`, `Infinity` and `-Infinity`;
a text may hold no raw control character. The first fault ends the reading: `JsonError` names its
cause and the offset at which it was found.
-/

namespace ShellSyntax

inductive JsonFault where
  | value | key | colon | comma | unterminated | control | escape | hex | extra | byteOrderMark
  deriving DecidableEq, Repr

/-- Why a text was refused, and where. -/
inductive JsonError where
  | fault (cause : JsonFault) (offset : Nat)
  /-- A whole number with more digits than are accepted. -/
  | digits (count : Nat)
  deriving DecidableEq, Repr

namespace JsonFault

def message : JsonFault → String
  | .value => "Expecting value"
  | .key => "Expecting property name enclosed in double quotes"
  | .colon => "Expecting ':' delimiter"
  | .comma => "Expecting ',' delimiter"
  | .unterminated => "Unterminated string starting at"
  | .control => "Invalid control character at"
  | .escape => "Invalid \\escape"
  | .hex => "Invalid \\uXXXX escape"
  | .extra => "Extra data"
  | .byteOrderMark => "Unexpected UTF-8 BOM (decode using utf-8-sig)"

end JsonFault

/-- The fault with the line, column and offset in the text. -/
def JsonError.message (text : String) : JsonError → String
  | .fault cause offset =>
    let line := (text.toList.take offset).count '\n' + 1
    let pos := Pos.ofOffset text line offset
    cause.message ++ ": line " ++ toString pos.line ++ " column " ++ toString pos.column
      ++ " (char " ++ toString offset ++ ")"
  | .digits count =>
    "Exceeds the limit (" ++ toString maxDigits
      ++ " digits) for integer string conversion: value has " ++ toString count
      ++ " digits; use sys.set_int_max_str_digits() to increase the limit"

namespace Json

/-- What is wrong, with the text that was left where it was found. -/
inductive Refusal where
  | fault (cause : JsonFault) (rest : List Char)
  | digits (count : Nat)

/-- A text that is shorter than `s`. -/
abbrev Shorter (s : List Char) := { rest : List Char // rest.length < s.length }

/-- A text that is not longer than `s`. -/
abbrev NotLonger (s : List Char) := { rest : List Char // rest.length ≤ s.length }

def isBlank (c : Char) : Bool := c = ' ' || c = '\t' || c = '\n' || c = '\r'

def skipBlanks (s : List Char) : List Char := s.dropWhile isBlank

theorem length_skipBlanks_le (s : List Char) : (skipBlanks s).length ≤ s.length :=
  (List.dropWhile_sublist _).length_le

/-! ### Texts -/

def hexValue? (c : Char) : Option Nat :=
  if c.isDigit then some (c.toNat - '0'.toNat)
  else if 'a' ≤ c ∧ c ≤ 'f' then some (c.toNat - 'a'.toNat + 10)
  else if 'A' ≤ c ∧ c ≤ 'F' then some (c.toNat - 'A'.toNat + 10)
  else none

/-- Four hexadecimal digits with something behind them. -/
def readHex? : List Char → Option (Nat × List Char)
  | a :: b :: c :: d :: e :: rest => do
    let a ← hexValue? a
    let b ← hexValue? b
    let c ← hexValue? c
    let d ← hexValue? d
    return (((a * 16 + b) * 16 + c) * 16 + d, e :: rest)
  | _ => none

theorem length_of_readHex? {s rest : List Char} {n : Nat} (h : readHex? s = some (n, rest)) :
    rest.length + 4 = s.length := by
  match s, h with
  | a :: b :: c :: d :: e :: more, h =>
    simp only [readHex?, bind, Option.bind_eq_some_iff] at h
    obtain ⟨_, -, _, -, _, -, _, -, h⟩ := h
    cases h
    rfl

def isHighSurrogate (n : Nat) : Bool := 0xd800 ≤ n && n < 0xdc00

def isLowSurrogate (n : Nat) : Bool := 0xdc00 ≤ n && n < 0xe000

/-- The character of a code point; a surrogate without its partner has none. -/
def charOf (n : Nat) : Char := if n.isValidChar then .ofNat n else '\ufffd'

/-- The character of the escape `\u` in front of `s`. A high surrogate takes its partner along. -/
def readUnicode (s : List Char) : Except Refusal (Char × Shorter s) :=
  match h : readHex? s with
  | none => .error (.fault .hex ('u' :: s))
  | some (n, rest) =>
    have hn : rest.length < s.length := by have := length_of_readHex? h; omega
    match rest, hn with
    | '\\' :: 'u' :: more, hn =>
      if isHighSurrogate n then
        match hm : readHex? more with
        | none => .error (.fault .hex ('u' :: more))
        | some (low, rest) =>
          have hl := length_of_readHex? hm
          if isLowSurrogate low then
            .ok (charOf (0x10000 + (n - 0xd800) * 0x400 + (low - 0xdc00)),
              ⟨rest, by simp only [List.length_cons] at hn; omega⟩)
          else .ok (charOf n, ⟨'\\' :: 'u' :: more, hn⟩)
      else .ok (charOf n, ⟨'\\' :: 'u' :: more, hn⟩)
    | rest, hn => .ok (charOf n, ⟨rest, hn⟩)

def simpleEscape? (c : Char) : Option Char :=
  if c = '"' ∨ c = '\\' ∨ c = '/' then some c
  else if c = 'b' then some '\x08'
  else if c = 'f' then some '\x0c'
  else if c = 'n' then some '\n'
  else if c = 'r' then some '\r'
  else if c = 't' then some '\t'
  else none

/-- The rest of a text behind its opening quote. `start` is the text from that quote on, `read` what
was read so far, last character first. -/
def readText (start : List Char) (read : List Char) (s : List Char) :
    Except Refusal (String × Shorter s) :=
  match s with
  | [] => .error (.fault .unterminated start)
  | '"' :: rest => .ok (.ofList read.reverse, ⟨rest, by simp⟩)
  | ['\\'] => .error (.fault .unterminated start)
  | '\\' :: 'u' :: rest => do
    let (c, ⟨more, h⟩) ← readUnicode rest
    let (text, ⟨left, hl⟩) ← readText start (c :: read) more
    return (text, ⟨left, by simp only [List.length_cons]; omega⟩)
  | '\\' :: e :: rest =>
    match simpleEscape? e with
    | none => .error (.fault .escape ('\\' :: e :: rest))
    | some c => do
      let (text, ⟨left, hl⟩) ← readText start (c :: read) rest
      return (text, ⟨left, by simp only [List.length_cons]; omega⟩)
  | c :: rest =>
    if c.toNat < 32 then .error (.fault .control (c :: rest))
    else do
      let (text, ⟨left, hl⟩) ← readText start (c :: read) rest
      return (text, ⟨left, by simp only [List.length_cons]; omega⟩)
termination_by s.length

/-! ### Numbers -/

def digitsValue (digits : List Char) : Nat :=
  digits.foldl (fun n c => 10 * n + (c.toNat - '0'.toNat)) 0

/-- The run of digits at the front of the text. -/
def readDigits (s : List Char) : List Char × NotLonger s :=
  (s.takeWhile Char.isDigit,
    ⟨s.dropWhile Char.isDigit, (List.dropWhile_sublist _).length_le⟩)

/-- The digits before the point: a single zero, or a run that does not begin with one. -/
def readWhole? : (s : List Char) → Option (List Char × Shorter s)
  | [] => none
  | c :: rest =>
    if c = '0' then some (['0'], ⟨rest, by simp⟩)
    else if c.isDigit then
      let (run, ⟨more, h⟩) := readDigits rest
      some (c :: run, ⟨more, by simp only [List.length_cons]; omega⟩)
    else none

/-- A point with at least one digit behind it. -/
def readFraction (s : List Char) : List Char × NotLonger s :=
  match s with
  | '.' :: rest =>
    match readDigits rest with
    | ([], _) => ([], ⟨'.' :: rest, Nat.le_refl _⟩)
    | (run, ⟨more, h⟩) => (run, ⟨more, by simp only [List.length_cons]; omega⟩)
  | s => ([], ⟨s, Nat.le_refl _⟩)

/-- The sign of an exponent, if there is one. -/
def readSign : (s : List Char) → Bool × NotLonger s
  | '-' :: rest => (true, ⟨rest, by simp⟩)
  | '+' :: rest => (false, ⟨rest, by simp⟩)
  | s => (false, ⟨s, Nat.le_refl _⟩)

/-- An exponent with at least one digit. -/
def readExponent? : (s : List Char) → Option (Int × NotLonger s)
  | [] => none
  | e :: rest =>
    if e = 'e' ∨ e = 'E' then
      let (negative, ⟨unsigned, hu⟩) := readSign rest
      match readDigits unsigned with
      | ([], _) => none
      | (run, ⟨more, h⟩) =>
        let n : Int := digitsValue run
        some (if negative then -n else n, ⟨more, by simp only [List.length_cons]; omega⟩)
    else none

/-- A number without its sign. -/
def readUnsigned? (negative : Bool) (s : List Char) :
    Option (Except Refusal Json × Shorter s) := do
  let (whole, ⟨s₁, h₁⟩) ← readWhole? s
  let (fraction, ⟨s₂, h₂⟩) := readFraction s₁
  match readExponent? s₂ with
  | some (exponent, ⟨s₃, h₃⟩) =>
    let bits := Binary64.ofDecimal negative (digitsValue (whole ++ fraction))
      (exponent - fraction.length)
    return (.ok (.float bits), ⟨s₃, by omega⟩)
  | none =>
    if fraction = [] then
      let n : Int := digitsValue whole
      return (if maxDigits < whole.length then .error (.digits whole.length)
        else .ok (.int (if negative then -n else n)), ⟨s₂, by omega⟩)
    else
      let bits := Binary64.ofDecimal negative (digitsValue (whole ++ fraction)) (-fraction.length)
      return (.ok (.float bits), ⟨s₂, by omega⟩)

/-- A number with or without a sign. -/
def readNumber? : (s : List Char) → Option (Except Refusal Json × Shorter s)
  | '-' :: rest => do
    let (value, ⟨more, h⟩) ← readUnsigned? true rest
    return (value, ⟨more, by simp only [List.length_cons]; omega⟩)
  | s => readUnsigned? false s

/-- The rest of a text behind the word at its front. -/
def readWord? (word : List Char) (s : List Char) : Option (Shorter s) :=
  if h : word.isPrefixOf s ∧ word ≠ [] then
    some ⟨s.drop word.length, by
      have hp := (List.isPrefixOf_iff_prefix.mp h.1).length_le
      have := List.length_pos_iff.mpr h.2
      simp only [List.length_drop]
      omega⟩
  else none

/-- Words that stand for a value. -/
def words : List (String × Json) :=
  [("null", .null), ("true", .bool true), ("false", .bool false), ("NaN", .float Binary64.nan),
   ("Infinity", .float (Binary64.infinity false)),
   ("-Infinity", .float (Binary64.infinity true))]

/-- A value that has no parts. -/
def readScalar (s : List Char) : Except Refusal (Json × Shorter s) :=
  match words.findSome? fun (word, value) => (readWord? word.toList s).map (value, ·) with
  | some found => .ok found
  | none =>
    match readNumber? s with
    | some (value, rest) => value.map (·, rest)
    | none => .error (.fault .value s)

/-! ### Arrays and objects -/

/-- A container that is open: the items or entries read so far, last first. -/
inductive Open where
  | array (items : List Json)
  | object (entries : List (String × Json)) (key : String)

/-- Where the reader stands. -/
inductive Expecting where
  | value
  /-- A key, or the end of an object that is still empty. -/
  | key (entries : List (String × Json)) (mayEnd : Bool)
  | next (done : Json)

/-- Reads on from the front of `s`, inside the containers of `stack`, innermost first. -/
def readFrom (stack : List Open) (expecting : Expecting) (s : List Char) :
    Except Refusal (Json × List Char) :=
  match expecting with
  | .value =>
    match _h : skipBlanks s with
    | '\x7b' :: rest => readFrom stack (.key [] true) rest
    | '[' :: rest =>
      match _hm : skipBlanks rest with
      | ']' :: more => readFrom stack (.next (.array [])) more
      | _ => readFrom (.array [] :: stack) .value rest
    | '"' :: rest => do
      let (text, ⟨more, _⟩) ← readText ('"' :: rest) [] rest
      readFrom stack (.next (.string text)) more
    | other => do
      let (value, ⟨rest, _⟩) ← readScalar other
      readFrom stack (.next value) rest
  | .key entries mayEnd =>
    match _h : skipBlanks s with
    | '"' :: rest => do
      let (key, ⟨more, _⟩) ← readText ('"' :: rest) [] rest
      match _hm : skipBlanks more with
      | ':' :: left => readFrom (.object entries key :: stack) .value left
      | other => .error (.fault .colon other)
    | '\x7d' :: rest =>
      if mayEnd then readFrom stack (.next (.object [])) rest
      else .error (.fault .key ('\x7d' :: rest))
    | other => .error (.fault .key other)
  | .next value =>
    match stack with
    | [] => .ok (value, skipBlanks s)
    | .array items :: outer =>
      match _h : skipBlanks s with
      | ',' :: rest => readFrom (.array (value :: items) :: outer) .value rest
      | ']' :: rest => readFrom outer (.next (.array (value :: items).reverse)) rest
      | other => .error (.fault .comma other)
    | .object entries key :: outer =>
      match _h : skipBlanks s with
      | ',' :: rest => readFrom outer (.key ((key, value) :: entries) false) rest
      | '\x7d' :: rest =>
        readFrom outer (.next (.ofEntries ((key, value) :: entries).reverse)) rest
      | other => .error (.fault .comma other)
termination_by s.length
decreasing_by all_goals grind [length_skipBlanks_le]

/-- The value that the text holds. -/
def read (text : String) : Except JsonError Json :=
  let s := text.toList
  let located : Refusal → JsonError
    | .fault cause rest => .fault cause (s.length - rest.length)
    | .digits count => .digits count
  if s.head? = some '\ufeff' then .error (.fault .byteOrderMark 0)
  else match readFrom [] .value s with
    | .error refusal => .error (located refusal)
    | .ok (value, []) => .ok value
    | .ok (_, rest) => .error (located (.fault .extra rest))

end Json

end ShellSyntax
