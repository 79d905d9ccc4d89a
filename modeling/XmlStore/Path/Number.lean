/-
Numbers in expressions. As a number counts a text of digits with an optional
fraction and an optional minus; every other text is not a number. Integers
below 10 ^ 18 are written out in full, other numbers by the fewest digits
that read back.
-/
import XmlStore.Decimal.Read

namespace XmlStore

/-- Whether a text is a number without its sign. -/
def isNumeral (cs : List Char) : Bool :=
  !cs.isEmpty && cs ≠ ['.'] && cs.all (fun c => c.isDigit || c = '.') && cs.count '.' ≤ 1

/-- The number that a text stands for. -/
def numberOfText (s : String) : Float :=
  let written := trimBy isBlank s.toList
  let digits := if written.head? = some '-' then written.drop 1 else written
  let number := if isNumeral digits then readFloat? written else none
  number.getD Binary.nan.toFloat

/-- Integers of a magnitude below this are written with all their digits. -/
def wholeLimit : Nat := pow10 18

/-- The text that stands for a number. -/
def textOfNumber (x : Float) : String :=
  match Binary.ofFloat x with
  | .nan => "NaN"
  | .infinite negative => if negative then "-Infinity" else "Infinity"
  | .finite negative mantissa exponent =>
    let (numerator, denominator) := Binary.ratio mantissa exponent
    if mantissa = 0 then "0"
    else if numerator % denominator = 0 && numerator / denominator < wholeLimit then
      toString (Binary.truncate negative mantissa exponent)
    else plainFloat x

/-- A number rounded to an integer, halves upwards. -/
def roundFloat (x : Float) : Float :=
  match Binary.ofFloat x with
  | .finite .. => floorFloat (x + 0.5)
  | _ => x

end XmlStore
