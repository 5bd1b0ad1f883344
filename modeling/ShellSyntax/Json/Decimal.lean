/-!
# Decimal text of binary floating-point numbers

* `Binary64.ofDecimal`: the number nearest to a decimal;
* `Binary64.shortest`: the decimal with the fewest digits that reads back as the number, and of
  those the nearest one;
* `Binary64.render`: positional notation from `0.0001` up to sixteen digits before the point, and
  one digit before the point with an exponent of at least two digits elsewhere.
-/

namespace ShellSyntax.Binary64

/-- The bits of the number nearest to `digits · 10 ^ exponent`, negated on request. A decimal far
beyond the range is infinite, one far below it zero. -/
def ofDecimal (negative : Bool) (digits : Nat) (exponent : Int) : UInt64 :=
  let magnitude : Int := (Nat.toDigits 10 digits).length + exponent
  let x : Float :=
    if digits = 0 ∨ magnitude < -400 then 0
    else if 400 < magnitude then 1 / 0
    else if exponent < 0 then Float.ofScientific digits true exponent.natAbs
    else Float.ofScientific digits false exponent.natAbs
  (if negative then -x else x).toBits

def infinity (negative : Bool) : UInt64 :=
  if negative then 0xfff0000000000000 else 0x7ff0000000000000

def nan : UInt64 := 0x7ff8000000000000

/-- The finite number `significand · 2 ^ exponent`. -/
structure Parts where
  significand : Nat
  exponent : Int
  /-- The next number below is half as far away as the next one above. -/
  narrowBelow : Bool
  deriving DecidableEq, Repr

def parts (bits : UInt64) : Parts :=
  let fraction := (bits &&& 0xfffffffffffff).toNat
  let biased := ((bits >>> 52) &&& 0x7ff).toNat
  if biased = 0 then ⟨fraction, -1074, false⟩
  else ⟨fraction + 0x10000000000000, (biased : Int) - 1075, fraction = 0 ∧ 1 < biased⟩

/-- The number of decimal digits before the point of `num / den`, not positive for a number below
`0.1`. -/
def decimalPoint (num den : Nat) : Int :=
  if den ≤ num then (Nat.toDigits 10 (num / den)).length
  else 1 - (((List.range 400).find? fun j => den ≤ num * Nat.pow 10 j).getD 0 : Int)

/-- The number of the form `d · 10 ^ unit` that lies in the interval that rounds to the given
number, and of two such the nearer one, or the even one of two equally near. -/
def onGrid? (p : Parts) (unit : Int) : Option Nat :=
  -- everything is scaled by 4 · den · 10 ^ -unit
  let ulp := Nat.pow 2 p.exponent.toNat
  let num := p.significand * ulp
  let den := Nat.pow 2 (-p.exponent).toNat
  let up := Nat.pow 10 (-unit).toNat
  let scale := 4 * den * Nat.pow 10 unit.toNat
  let value := 4 * num * up
  let low := (4 * num - (if p.narrowBelow then ulp else 2 * ulp)) * up
  let high := (4 * num + 2 * ulp) * up
  let inside (d : Nat) : Bool :=
    if p.significand % 2 = 0 then low ≤ d * scale && d * scale ≤ high
    else low < d * scale && d * scale < high
  let below := value / scale
  let above := below + 1
  match inside below, inside above with
  | false, false => none
  | true, false => some below
  | false, true => some above
  | true, true =>
    let before := value - below * scale
    let after := above * scale - value
    if before < after ∨ before = after ∧ below % 2 = 0 then some below else some above

/-- The shortest decimal `d · 10 ^ unit` that reads back as the number. -/
def shortest (p : Parts) : Nat × Int :=
  let point :=
    decimalPoint (p.significand * Nat.pow 2 p.exponent.toNat) (Nat.pow 2 (-p.exponent).toNat)
  let grids := (List.range 17).map fun n => point - (n + 1 : Nat)
  (grids.findSome? fun unit => (onGrid? p unit).map (·, unit)).getD (0, 0)

/-- Digits with their trailing zeros, except a single one, taken off. -/
def trim (digits : List Char) : List Char :=
  match digits.reverse.dropWhile (· = '0') with
  | [] => ['0']
  | l => l.reverse

/-- The digits with the point behind the first `point` of them. -/
def positional (digits : List Char) (point : Int) : String :=
  let n : Int := digits.length
  if point ≤ 0 then "0." ++ .ofList (.replicate (-point).toNat '0' ++ digits)
  else if n ≤ point then .ofList (digits ++ .replicate (point - n).toNat '0') ++ ".0"
  else .ofList (digits.take point.toNat) ++ "." ++ .ofList (digits.drop point.toNat)

/-- The digits with the point behind the first one and an exponent. -/
def scientific (digits : List Char) (point : Int) : String :=
  let exponent := point - 1
  let power := Nat.toDigits 10 exponent.natAbs
  .ofList (digits.take 1)
    ++ (if digits.length ≤ 1 then "" else "." ++ .ofList (digits.drop 1))
    ++ "e" ++ (if exponent < 0 then "-" else "+")
    ++ (if power.length < 2 then "0" else "") ++ .ofList power

/-- The text of a number that is finite and not negative. -/
def magnitude (bits : UInt64) : String :=
  let p := parts bits
  if p.significand = 0 then "0.0"
  else
    let (d, unit) := shortest p
    let digits := Nat.toDigits 10 d
    let point := digits.length + unit
    if -4 < point ∧ point ≤ 16 then positional (trim digits) point
    else scientific (trim digits) point

def render (bits : UInt64) : String :=
  let unsigned := bits &&& 0x7fffffffffffffff
  if infinity false < unsigned then "nan"
  else (if bits = unsigned then "" else "-")
    ++ (if unsigned = infinity false then "inf" else magnitude unsigned)

end ShellSyntax.Binary64
