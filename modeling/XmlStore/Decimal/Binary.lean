/-
Doubles as exact numbers. A finite double is a sign, a mantissa and a power
of two; functions that round to integers or take remainders work on these
and are exact.
-/
namespace XmlStore

/-- Two to a power. -/
def pow2 (n : Nat) : Nat := Nat.pow 2 n

/-- A double taken apart. -/
inductive Binary where
  | nan
  | infinite (negative : Bool)
  /-- The number `mantissa · 2 ^ exponent` or its negative. -/
  | finite (negative : Bool) (mantissa : Nat) (exponent : Int)
deriving DecidableEq, Repr

namespace Binary

def ofFloat (x : Float) : Binary :=
  let bits := x.toBits.toNat
  let negative := bits / pow2 63 == 1
  let exponent : Nat := bits / pow2 52 % pow2 11
  let fraction := bits % pow2 52
  if exponent == 2047 then
    if fraction == 0 then infinite negative else nan
  else if exponent == 0 then finite negative fraction (-1074)
  else finite negative (pow2 52 + fraction) ((exponent : Int) - 1075)

/-- The power of two with an exponent from -1074 to 1023. -/
def powerOfTwo (exponent : Int) : Float :=
  if exponent < -1022 then Float.ofBits (1 <<< (exponent + 1074).toNat.toUInt64)
  else Float.ofBits ((exponent + 1023).toNat.toUInt64 <<< 52)

/-- A double from its parts; exact if the number is a double. -/
def toFloat : Binary → Float
  | nan => 0 / 0
  | infinite negative => if negative then -(1 / 0) else 1 / 0
  | finite negative mantissa exponent =>
    let x := Float.ofNat mantissa * powerOfTwo exponent
    if negative then -x else x

def isFinite : Binary → Bool
  | finite .. => true
  | _ => false

/-- A fraction, numerator and denominator, that is equal to `mantissa · 2 ^ exponent`. -/
def ratio (mantissa : Nat) (exponent : Int) : Nat × Nat :=
  if 0 ≤ exponent then (mantissa * pow2 exponent.toNat, 1)
  else (mantissa, pow2 (-exponent).toNat)

/-- The integer next to a finite number in the direction of zero. -/
def truncate (negative : Bool) (mantissa : Nat) (exponent : Int) : Int :=
  let (numerator, denominator) := ratio mantissa exponent
  if negative then -(numerator / denominator : Nat) else (numerator / denominator : Nat)

end Binary

/-- An integer as a double of the given sign; the sign matters for zero alone. -/
def floatOfInt (negative : Bool) (n : Int) : Float :=
  let x := Float.ofNat n.natAbs
  if negative then -x else x

/-- The greatest integer not above a number. -/
def floorFloat (x : Float) : Float :=
  match Binary.ofFloat x with
  | .finite negative mantissa exponent =>
    if 0 ≤ exponent then x
    else
      let (numerator, denominator) := Binary.ratio mantissa exponent
      let below := numerator / denominator
      let whole := if negative && numerator % denominator ≠ 0 then below + 1 else below
      floatOfInt negative whole
  | _ => x

/-- The least integer not below a number. -/
def ceilingFloat (x : Float) : Float := -floorFloat (-x)

/-- The remainder of a division whose quotient is cut to an integer; it has the sign of the
dividend. -/
def remainderFloat (x y : Float) : Float :=
  match Binary.ofFloat x, Binary.ofFloat y with
  | .finite negative mantissa exponent, .finite _ mantissa' exponent' =>
    if mantissa' = 0 then Binary.nan.toFloat
    else
      let common := min exponent exponent'
      let dividend := mantissa * pow2 (exponent - common).toNat
      let divisor := mantissa' * pow2 (exponent' - common).toNat
      (Binary.finite negative (dividend % divisor) common).toFloat
  | .finite .., .infinite _ => x
  | _, _ => Binary.nan.toFloat

end XmlStore
