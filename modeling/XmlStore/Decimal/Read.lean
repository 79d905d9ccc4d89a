/-
Numbers read from text. A double is given by an optional sign and either
digits with an optional fraction and exponent, or a word for infinity or for
no number; an integer by an optional sign and digits.
-/
import XmlStore.Decimal.Digits

namespace XmlStore

/-- The double nearest to `digits · 10 ^ power`. -/
def floatOfDecimal (digits : Nat) (power : Int) : Float :=
  let size := power + digitCount digits
  if digits = 0 || size < -400 then 0
  else if 400 < size then Binary.toFloat (.infinite false)
  else if power < 0 then Float.ofScientific digits true (-power).toNat
  else Float.ofScientific digits false power.toNat

/-- An optional sign in front of a number. -/
def splitSign : List Char → Bool × List Char
  | '-' :: rest => (true, rest)
  | '+' :: rest => (false, rest)
  | rest => (false, rest)

/-- The exponent of a number, from its mark on; none at the end of the text. -/
def readExponent? : List Char → Option Int
  | [] => some 0
  | mark :: rest =>
    let (negative, digits) := splitSign rest
    if (mark = 'e' || mark = 'E') && !digits.isEmpty && digits.all Char.isDigit then
      some (if negative then -natOfDigits digits else natOfDigits digits)
    else none

/-- A number without sign: digits, a fraction, an exponent. -/
def readUnsigned? (cs : List Char) : Option Float := do
  let (whole, rest) := cs.span Char.isDigit
  let (fraction, rest) := match rest with
    | '.' :: rest => rest.span Char.isDigit
    | rest => ([], rest)
  if whole.isEmpty && fraction.isEmpty then none
  else
    let exponent ← readExponent? rest
    return floatOfDecimal (natOfDigits (whole ++ fraction)) (exponent - fraction.length)

/-- A word that stands for a number, in any case of letters. -/
def readNumberWord? (cs : List Char) : Option Float :=
  match lowerAscii (String.ofList cs) with
  | "nan" => some Binary.nan.toFloat
  | "inf" | "infinity" => some (Binary.infinite false).toFloat
  | _ => none

def readFloat? (cs : List Char) : Option Float :=
  let (negative, rest) := splitSign cs
  let x := (readNumberWord? rest).or (readUnsigned? rest)
  x.map fun x => if negative then -x else x

/-- An integer of 32 bits with sign. -/
def readInt32? (cs : List Char) : Option Int :=
  let (negative, digits) := splitSign cs
  if digits.isEmpty || !digits.all Char.isDigit then none
  else
    let n : Int := if negative then -natOfDigits digits else natOfDigits digits
    if -pow2 31 ≤ n && n < pow2 31 then some n else none

end XmlStore
