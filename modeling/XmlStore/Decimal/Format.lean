/-
Number formats: literal text around one directive such as `%g` or `%+08.2e`.
A directive has flags, a least width, an optional precision, length marks
that mean nothing, and a conversion; `%%` stands for a percent sign.
-/
import XmlStore.Decimal.Digits

namespace XmlStore

inductive Conversion where
  | integer
  | fixed
  | exponential
  | general
deriving DecidableEq, Repr

structure Directive where
  /-- Fill on the right. -/
  left : Bool
  /-- Write a sign before positive numbers. -/
  plus : Bool
  /-- Write a space before positive numbers. -/
  space : Bool
  /-- Fill with zeros. -/
  zero : Bool
  /-- Keep the point and the zeros behind it. -/
  alternate : Bool
  width : Nat
  precision : Option Nat
  conversion : Conversion
  /-- Write letters in upper case. -/
  upper : Bool
deriving DecidableEq, Repr

/-- A format: what to write before and after the number, and how to write the number. -/
structure NumberFormat where
  before : List Char
  directive : Directive
  after : List Char
deriving DecidableEq, Repr

/-- Why a text is not a format. -/
inductive FormatFlaw where
  | noConversion
  | badConversion
  | secondConversion
deriving DecidableEq, Repr

def FormatFlaw.reason : FormatFlaw → String
  | noConversion => "no conversion"
  | badConversion => "bad conversion"
  | secondConversion => "more than one conversion"

/-- A number to be written. -/
inductive FormatValue where
  | integer (n : Int)
  | float (x : Float)

namespace Directive

/-- The largest width and precision. -/
def fieldLimit : Nat := 512

def isFlag (c : Char) : Bool := ['-', '+', ' ', '0', '#'].contains c

def isLengthMark (c : Char) : Bool := ['l', 'h', 'L'].contains c

/-- What a letter asks for, and whether in upper case. -/
def conversion? : Char → Option (Conversion × Bool)
  | 'd' | 'i' => some (.integer, false)
  | 'f' => some (.fixed, false)
  | 'F' => some (.fixed, true)
  | 'e' => some (.exponential, false)
  | 'E' => some (.exponential, true)
  | 'g' => some (.general, false)
  | 'G' => some (.general, true)
  | _ => none

/-- The precision, from its point on; without digits it is zero. -/
def readPrecision : List Char → Option Nat × List Char
  | '.' :: rest =>
    let (digits, rest) := rest.span Char.isDigit
    (some (natOfDigits digits), rest)
  | rest => (none, rest)

/-- A directive, its percent sign already passed, and the text after it. -/
def read? (cs : List Char) : Option (Directive × List Char) := do
  let (flags, rest) := cs.span isFlag
  let (width, rest) := rest.span Char.isDigit
  let width := natOfDigits width
  let (precision, rest) := readPrecision rest
  if width > fieldLimit || precision.any (· > fieldLimit) then none
  else
    match rest.dropWhile isLengthMark with
    | [] => none
    | letter :: rest =>
      let (conversion, upper) ← conversion? letter
      let directive : Directive :=
        { left := flags.contains '-', plus := flags.contains '+', space := flags.contains ' '
          zero := flags.contains '0', alternate := flags.contains '#'
          width, precision, conversion, upper }
      return (directive, rest)

/-- The sign of a number, as the flags ask for it. -/
def sign (d : Directive) (negative : Bool) : List Char :=
  if negative then ['-'] else if d.plus then ['+'] else if d.space then [' '] else []

/-- Fills sign and body up to the width; zeros are allowed only where they stay part of the
number. -/
def pad (d : Directive) (sign body : List Char) (zeros : Bool) : List Char :=
  let fill := d.width - (sign.length + body.length)
  if d.left then sign ++ body ++ List.replicate fill ' '
  else if d.zero && zeros then sign ++ List.replicate fill '0' ++ body
  else List.replicate fill ' ' ++ sign ++ body

/-- The digits of an integer; the precision is the least number of them. -/
def integerBody (precision : Option Nat) (n : Nat) : List Char :=
  match precision with
  | some 0 => if n = 0 then [] else Nat.toDigits 10 n
  | some width => paddedDigits width n
  | none => Nat.toDigits 10 n

/-- A number without the zeros at its end that stand behind the point, and without a bare point. -/
def stripZeros (cs : List Char) : List Char :=
  if cs.contains '.' then
    ((cs.reverse.dropWhile (· = '0')).dropWhile (· = '.')).reverse
  else cs

def exponentSuffix (exponent : Int) : List Char :=
  'e' :: (if exponent < 0 then '-' else '+') :: paddedDigits 2 exponent.natAbs

/-- The bare point that the alternate form ends in. -/
def barePoint (alternate : Bool) (precision : Nat) : List Char :=
  if alternate && precision = 0 then ['.'] else []

def fixedBody (alternate : Bool) (precision numerator denominator : Nat) : List Char :=
  fixedDigits numerator denominator precision ++ barePoint alternate precision

def exponentialBody (alternate : Bool) (precision numerator denominator : Nat) : List Char :=
  let (digits, exponent) := significantDigits numerator denominator precision
  pointDigits digits precision ++ barePoint alternate precision ++ exponentSuffix exponent

/-- The fixed form if the exponent allows it, else the exponential one; the precision counts
significant digits. -/
def generalBody (alternate : Bool) (precision numerator denominator : Nat) : List Char :=
  let precision := max precision 1
  let (digits, exponent) := significantDigits numerator denominator (precision - 1)
  let trim (cs : List Char) : List Char := if alternate then cs else stripZeros cs
  if -4 ≤ exponent && exponent < precision then
    trim (fixedDigits numerator denominator (precision - 1 - exponent).toNat)
  else trim (pointDigits digits (precision - 1)) ++ exponentSuffix exponent

/-- The precision of a directive that gives none. -/
def defaultPrecision : Nat := 6

/-- A finite number without its sign. -/
def magnitude (d : Directive) (numerator denominator : Nat) : List Char :=
  let precision := d.precision.getD defaultPrecision
  match d.conversion with
  | .fixed => fixedBody d.alternate precision numerator denominator
  | .exponential => exponentialBody d.alternate precision numerator denominator
  | .integer | .general => generalBody d.alternate precision numerator denominator

def inCase (d : Directive) (cs : List Char) : List Char :=
  if d.upper then cs.map Char.toUpper else cs

def writeInteger (d : Directive) (n : Int) : List Char :=
  d.pad (d.sign (n < 0)) (integerBody d.precision n.natAbs) d.precision.isNone

def writeFloat (d : Directive) : Binary → List Char
  | .nan => d.pad (d.sign false) (d.inCase "nan".toList) false
  | .infinite negative => d.pad (d.sign negative) (d.inCase "inf".toList) false
  | .finite negative mantissa exponent =>
    let (numerator, denominator) := Binary.ratio mantissa exponent
    d.pad (d.sign negative) (d.inCase (d.magnitude numerator denominator)) true

/-- The integer of 64 bits that a double is cut to. -/
def integerOfFloat : Binary → Int
  | .nan => 0
  | .infinite negative => if negative then -pow2 63 else pow2 63 - 1
  | .finite negative mantissa exponent =>
    max (-pow2 63) (min (pow2 63 - 1) (Binary.truncate negative mantissa exponent))

def write (d : Directive) (value : FormatValue) : List Char :=
  match d.conversion, value with
  | .integer, .integer n => d.writeInteger n
  | .integer, .float x => d.writeInteger (integerOfFloat (.ofFloat x))
  | _, .integer n => d.writeFloat (.ofFloat (Float.ofInt n))
  | _, .float x => d.writeFloat (.ofFloat x)

end Directive

namespace NumberFormat

/-- Literal text up to a percent sign that stands for no percent sign, and what follows it. -/
def splitLiteral : List Char → List Char × Option (List Char)
  | [] => ([], none)
  | '%' :: '%' :: rest =>
    let (literal, directive) := splitLiteral rest
    ('%' :: literal, directive)
  | '%' :: rest => ([], some rest)
  | c :: rest =>
    let (literal, directive) := splitLiteral rest
    (c :: literal, directive)

def ofString (s : String) : Except FormatFlaw NumberFormat :=
  match splitLiteral s.toList with
  | (_, none) => .error .noConversion
  | (before, some rest) =>
    match Directive.read? rest with
    | none => .error .badConversion
    | some (directive, rest) =>
      match splitLiteral rest with
      | (after, none) => .ok ⟨before, directive, after⟩
      | (_, some _) => .error .secondConversion

def write (f : NumberFormat) (value : FormatValue) : String :=
  String.ofList (f.before ++ f.directive.write value ++ f.after)

end NumberFormat

/-- The format of doubles where none is given. -/
def defaultFloatFormat : String := "%g"

/-- The format of integers where none is given. -/
def defaultIntegerFormat : String := "%d"

end XmlStore
