/-!
# Whole numbers in text

* `digit?`: the value of a decimal digit of any script;
* `isBlank`: the characters with the property White_Space;
* `readInteger?`: a whole number between blanks, with an optional sign and single low lines between
  its digits.
-/

namespace ShellSyntax

/-- The code points of the digits zero, in version 14 of the Unicode standard. The other nine digits
of a script follow its zero. -/
def zeros : List Nat :=
  [0x30, 0x660, 0x6f0, 0x7c0, 0x966, 0x9e6, 0xa66, 0xae6, 0xb66, 0xbe6, 0xc66, 0xce6, 0xd66, 0xde6,
    0xe50, 0xed0, 0xf20, 0x1040, 0x1090, 0x17e0, 0x1810, 0x1946, 0x19d0, 0x1a80, 0x1a90, 0x1b50,
    0x1bb0, 0x1c40, 0x1c50, 0xa620, 0xa8d0, 0xa900, 0xa9d0, 0xa9f0, 0xaa50, 0xabf0, 0xff10,
    0x104a0, 0x10d30, 0x11066, 0x110f0, 0x11136, 0x111d0, 0x112f0, 0x11450, 0x114d0, 0x11650,
    0x116c0, 0x11730, 0x118e0, 0x11950, 0x11c50, 0x11d50, 0x11da0, 0x16a60, 0x16ac0, 0x16b50,
    0x1d7ce, 0x1d7d8, 0x1d7e2, 0x1d7ec, 0x1d7f6, 0x1e140, 0x1e2f0, 0x1e950, 0x1fbf0]

/-- The value of a decimal digit. -/
def digit? (c : Char) : Option Nat :=
  (zeros.find? fun z => z ≤ c.toNat ∧ c.toNat < z + 10).map fun z => c.toNat - z

def isBlank (c : Char) : Bool :=
  c ∈ [' ', '\t', '\n', '\x0b', '\x0c', '\r', '\x85', '\xa0', '\u1680', '\u2028', '\u2029',
    '\u202f', '\u205f', '\u3000']
    || ('\u2000' ≤ c && c ≤ '\u200a')

/-- The digits of a number, most significant first. A low line may stand between two of them. -/
def readDigits? : List Char → Option (List Nat)
  | [] => none
  | [c] => (digit? c).map ([·])
  | c :: '_' :: rest => do return (← digit? c) :: (← readDigits? rest)
  | c :: rest => do return (← digit? c) :: (← readDigits? rest)

/-- A number may not have more digits than this. -/
def maxDigits : Nat := 4300

def readNatural? (text : List Char) : Option Nat := do
  let digits ← readDigits? text
  if digits.length ≤ maxDigits then some (digits.foldl (fun n d => 10 * n + d) 0) else none

def readInteger? (text : String) : Option Int :=
  let trimmed := (text.toList.dropWhile isBlank).reverse.dropWhile isBlank |>.reverse
  match trimmed with
  | '-' :: rest => (readNatural? rest).map fun n => -n
  | '+' :: rest => (readNatural? rest).map fun n => n
  | _ => (readNatural? trimmed).map fun n => n

end ShellSyntax
