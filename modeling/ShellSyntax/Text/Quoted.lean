import ShellSyntax.Json.Basic
import ShellSyntax.Json.Decimal
import ShellSyntax.Text.Printable

/-!
# Values in messages

* `quoted`: a text between quotes, with all that is not printable written as an escape;
* `Json.quoted`: a value with its texts quoted;
* `Json.shown`: a value as it stands in a message, where a bare text is not quoted.
-/

namespace ShellSyntax

/-- The digits of `n` in base sixteen, filled up with zeros to at least `width`. -/
def hexDigits (width n : Nat) : String :=
  let digits := Nat.toDigits 16 n
  .ofList (.replicate (width - digits.length) '0' ++ digits)

/-- A character of a text between the given quotes. -/
def escaped (quote c : Char) : String :=
  if c = quote ∨ c = '\\' then .ofList ['\\', c]
  else if c = '\n' then "\\n"
  else if c = '\t' then "\\t"
  else if c = '\r' then "\\r"
  else if isPrintable c then c.toString
  else if c.toNat < 0x100 then "\\x" ++ hexDigits 2 c.toNat
  else if c.toNat < 0x10000 then "\\u" ++ hexDigits 4 c.toNat
  else "\\U" ++ hexDigits 8 c.toNat

/-- Single quotes, unless the text has such quotes and no double ones. -/
def quoteFor (text : String) : Char :=
  if text.toList.contains '\'' && !text.toList.contains '"' then '"' else '\''

def quoted (text : String) : String :=
  let quote := quoteFor text
  quote.toString ++ String.join (text.toList.map (escaped quote)) ++ quote.toString

namespace Json

mutual

def quoted : Json → String
  | .null => "None"
  | .bool value => if value then "True" else "False"
  | .int value => toString value
  | .float bits => Binary64.render bits
  | .string value => ShellSyntax.quoted value
  | .array items => "[" ++ ", ".intercalate (quotedItems items) ++ "]"
  | .object entries => "\x7b" ++ ", ".intercalate (quotedEntries entries) ++ "\x7d"

def quotedItems : List Json → List String
  | [] => []
  | j :: rest => j.quoted :: quotedItems rest

def quotedEntries : List (String × Json) → List String
  | [] => []
  | (key, j) :: rest => (ShellSyntax.quoted key ++ ": " ++ j.quoted) :: quotedEntries rest

end

def shown : Json → String
  | .string value => value
  | j => j.quoted

end Json

end ShellSyntax
