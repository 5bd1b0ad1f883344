import ShellSyntax.Pos
import ShellSyntax.Token

/-!
# Lexemes of arithmetic expressions

* `Lexeme`: a name, a number, a parameter `$name` or an operator;
* `Lexeme.read?`: the longest lexeme at the front of a text;
* `scan`: the lexemes of a text with their positions; blanks, tabs and line breaks are skipped, and
  any other character that begins no lexeme is illegal.

Letters and digits are those of ASCII.
-/

namespace ShellSyntax

inductive Lexeme where
  | name (text : String)
  | number (text : String)
  /-- A parameter, named without its dollar sign. -/
  | param (name : String)
  | op (token : Token)
  deriving DecidableEq, Repr

/-- An element of a scanned text with its position. -/
inductive Scanned where
  | lexeme (l : Lexeme) (pos : Pos)
  | illegal (c : Char) (pos : Pos)
  deriving DecidableEq, Repr

def isNameStart (c : Char) : Bool := c.isAlpha || c = '_'

def isNameChar (c : Char) : Bool := isNameStart c || c.isDigit

def isHexDigit (c : Char) : Bool :=
  c.isDigit || ('a' ≤ c && c ≤ 'f') || ('A' ≤ c && c ≤ 'F')

/-- A letter or underscore, followed by letters, digits and underscores. -/
def IsName (text : String) : Prop :=
  match text.toList with
  | [] => False
  | c :: rest => isNameStart c ∧ rest.all isNameChar

instance (text : String) : Decidable (IsName text) := by
  unfold IsName
  split <;> infer_instance

namespace Lexeme

/-- The operators of arithmetic, longer spellings first. -/
def operators : List Token :=
  [.lessLessEqual, .greaterGreaterEqual,
   .starStar, .lessLess, .greaterGreater, .andAnd, .orOr, .plusPlus, .minusMinus,
   .equalEqual, .bangEqual, .lessEqual, .greaterEqual,
   .plusEqual, .minusEqual, .starEqual, .slashEqual, .percentEqual,
   .ampersandEqual, .barEqual, .caretEqual,
   .leftParen, .rightParen, .semicolon, .comma,
   .plus, .minus, .star, .slash, .percent, .ampersand, .bar, .caret, .tilde, .bang,
   .less, .greater, .equal]

/-- The text of the lexeme, a parameter's without its dollar sign. -/
def value : Lexeme → String
  | .name text => text
  | .number text => text
  | .param text => text
  | .op token => token.spelling

/-- The lexeme as it stands in the source. -/
def spelling : Lexeme → String
  | .param text => "$" ++ text
  | l => l.value

/-- The name of the lexeme's class. -/
def className : Lexeme → String
  | .name _ => "NAME"
  | .number _ => "NUMBER"
  | .param _ => "PARAM"
  | .op token => token.name

/-- The longest run of `p` at the front, as `make` reads it, and the rest. -/
def run (p : Char → Bool) (make : List Char → Lexeme) (text : List Char) :
    Lexeme × List Char :=
  (make (text.takeWhile p), text.dropWhile p)

/-- After a dollar sign: a whole name, or one digit. -/
def readParam? : List Char → Option (Lexeme × List Char)
  | [] => none
  | c :: rest =>
    if isNameStart c then some (run isNameChar (fun t => .param (.ofList (c :: t))) rest)
    else if c.isDigit then some (.param (.ofList [c]), rest)
    else none

/-- A hexadecimal number if there is a digit after the `x`, or else a run of digits. -/
def readNumber : List Char → Lexeme × List Char
  | '0' :: x :: d :: rest =>
    if (x = 'x' || x = 'X') && isHexDigit d then
      run isHexDigit (fun t => .number (.ofList ('0' :: x :: d :: t))) rest
    else run Char.isDigit (fun t => .number (.ofList t)) ('0' :: x :: d :: rest)
  | text => run Char.isDigit (fun t => .number (.ofList t)) text

def readOperator? (text : List Char) : Option (Lexeme × List Char) :=
  (operators.find? fun t => t.spelling.toList.isPrefixOf text).map fun t =>
    (.op t, text.drop t.spelling.length)

/-- The longest lexeme at the front of the text, and the rest. -/
def read? : List Char → Option (Lexeme × List Char)
  | [] => none
  | c :: rest =>
    if c = '$' then readParam? rest
    else if isNameStart c then some (run isNameChar (fun t => .name (.ofList (c :: t))) rest)
    else if c.isDigit then some (readNumber (c :: rest))
    else readOperator? (c :: rest)

/-! ### Reading takes the spelling off the front -/

theorem append_of_run (p : Char → Bool) {make : List Char → Lexeme} (front text : List Char)
    (h : ∀ t, (make t).spelling.toList = front ++ t) :
    (run p make text).1.spelling.toList ++ (run p make text).2 = front ++ text := by
  simp [run, h, List.append_assoc, List.takeWhile_append_dropWhile]

theorem append_of_readParam? {text rest : List Char} {l : Lexeme}
    (h : readParam? text = some (l, rest)) : '$' :: text = l.spelling.toList ++ rest := by
  cases text with
  | nil => simp [readParam?] at h
  | cons c more =>
    simp only [readParam?] at h
    split at h
    · have hs : ∀ t, (Lexeme.param (.ofList (c :: t))).spelling.toList = ['$', c] ++ t := by
        simp [spelling]
      have hr := append_of_run isNameChar ['$', c] more hs
      rw [Option.some.inj h] at hr
      simpa using hr.symm
    · split at h
      · cases h; simp [spelling]
      · simp at h

theorem append_of_readNumber (text : List Char) :
    (readNumber text).1.spelling.toList ++ (readNumber text).2 = text := by
  unfold readNumber
  split
  · split
    · exact append_of_run _ ['0', _, _] _ (by simp [spelling, value])
    · exact append_of_run _ [] _ (by simp [spelling, value])
  · exact append_of_run _ [] _ (by simp [spelling, value])

theorem append_of_readOperator? {text rest : List Char} {l : Lexeme}
    (h : readOperator? text = some (l, rest)) : text = l.spelling.toList ++ rest := by
  obtain ⟨t, ht, he⟩ := Option.map_eq_some_iff.mp h
  have hp : t.spelling.toList <+: text := by simpa using List.find?_some ht
  cases he
  obtain ⟨more, rfl⟩ := hp
  have hd : (t.spelling.toList ++ more).drop t.spelling.toList.length = more := List.drop_left
  rw [String.length_toList] at hd
  rw [hd]
  rfl

theorem append_of_read? {text rest : List Char} {l : Lexeme}
    (h : read? text = some (l, rest)) : text = l.spelling.toList ++ rest := by
  cases text with
  | nil => simp [read?] at h
  | cons c more =>
    simp only [read?] at h
    split at h
    · next hc => subst hc; exact append_of_readParam? h
    · split at h
      · have hs : ∀ t, (Lexeme.name (.ofList (c :: t))).spelling.toList = [c] ++ t := by
          simp [spelling, value]
        have hr := append_of_run isNameChar [c] more hs
        rw [Option.some.inj h] at hr
        simpa using hr.symm
      · split at h
        · have hr := append_of_readNumber (c :: more)
          rw [Option.some.inj h] at hr
          exact hr.symm
        · exact append_of_readOperator? h

theorem spelling_ne_empty_of_read? {text rest : List Char} {l : Lexeme}
    (h : read? text = some (l, rest)) : l.spelling ≠ "" := by
  intro he
  have ht := append_of_read? h
  rw [he] at ht
  cases text with
  | nil => simp [read?] at h
  | cons c more =>
    simp only [read?] at h
    split at h
    · cases more with
      | nil => simp [readParam?] at h
      | cons d more =>
        simp only [readParam?, run] at h
        split at h
        · cases h; simp [spelling] at he
        · split at h
          · cases h; simp [spelling] at he
          · simp at h
    · split at h
      · cases h; simp [spelling, value] at he
      · split at h
        · next hd =>
          have hr := Option.some.inj h
          unfold readNumber at hr
          split at hr
          · split at hr <;> cases hr <;> simp [spelling, value, Char.isDigit] at he
          · cases hr; simp [spelling, value, hd] at he
        · obtain ⟨t, -, hl⟩ := Option.map_eq_some_iff.mp h
          cases hl
          revert he
          cases t <;> decide

theorem length_lt_of_read? {text rest : List Char} {l : Lexeme}
    (h : read? text = some (l, rest)) : rest.length < text.length := by
  have ht := congrArg List.length (append_of_read? h)
  have : l.spelling.toList ≠ [] := by
    simpa using spelling_ne_empty_of_read? h
  have := List.length_pos_iff.mpr this
  simp only [List.length_append] at ht
  omega

end Lexeme

/-- The first position of the next line, behind a line break at `pos`. -/
def Pos.nextLine (pos : Pos) : Pos :=
  { line := pos.line + 1, column := 1, offset := pos.offset + 1 }

/-- The elements of the text, the first character of which stands at `pos`. -/
def scanFrom (pos : Pos) : List Char → List Scanned
  | [] => []
  | c :: rest =>
    if c = '\n' then scanFrom pos.nextLine rest
    else if c = ' ' ∨ c = '\t' then scanFrom (pos.right 1) rest
    else match _h : Lexeme.read? (c :: rest) with
      | some (l, more) => .lexeme l pos :: scanFrom (pos.right l.spelling.length) more
      | none => .illegal c pos :: scanFrom (pos.right 1) rest
termination_by text => text.length
decreasing_by
  all_goals first | exact Lexeme.length_lt_of_read? _h | simp

/-- The lexemes and illegal characters of a text, in order. -/
def scan (text : String) : List Scanned :=
  scanFrom { line := 1, column := 1, offset := 0 } text.toList

/-- The position at an offset, on a line that the caller has counted: the column counts from the last
line break before the offset, or from the start. A negative offset counts from the end. -/
def Pos.ofOffset (text : String) (line offset : Int) : Pos :=
  let length : Int := text.toList.length
  let stop := if offset < 0 then offset + length else offset
  let before := text.toList.take stop.toNat
  let start : Int := before.length - (before.reverse.takeWhile (· ≠ '\n')).length
  { line, column := offset - (start - 1), offset }

end ShellSyntax
