/-
Decimal digits of exact numbers: to a fixed number of places, to a number of
significant digits, and the fewest that still tell a double from every
other.
-/
import XmlStore.Decimal.Binary
import XmlStore.Text.Chars

namespace XmlStore

/-- Ten to a power. -/
def pow10 (n : Nat) : Nat := Nat.pow 10 n

/-- The integer nearest to a fraction; of two equally near ones the even one. -/
def roundDiv (numerator denominator : Nat) : Nat :=
  let whole := numerator / denominator
  let twice := 2 * (numerator % denominator)
  if twice < denominator then whole
  else if twice > denominator then whole + 1
  else whole + whole % 2

/-- The result is never farther than one half from the fraction. -/
theorem roundDiv_near (numerator denominator : Nat) (positive : 0 < denominator) :
    2 * (roundDiv numerator denominator * denominator) ≤ 2 * numerator + denominator ∧
      2 * numerator ≤ 2 * (roundDiv numerator denominator * denominator) + denominator := by
  have split := Nat.div_add_mod' numerator denominator
  have below := Nat.mod_lt numerator positive
  unfold roundDiv
  generalize numerator / denominator = whole at *
  generalize numerator % denominator = rest at *
  simp only
  have cases : whole % 2 = 0 ∨ whole % 2 = 1 := by omega
  split
  · omega
  · split
    · rw [Nat.add_mul, Nat.one_mul]; omega
    · rcases cases with h | h <;> rw [h]
      · simp; omega
      · rw [Nat.add_mul, Nat.one_mul]; omega

/-- A fraction times a power of ten. -/
def scaleRatio (numerator denominator : Nat) (power : Int) : Nat × Nat :=
  if 0 ≤ power then (numerator * pow10 power.toNat, denominator)
  else (numerator, denominator * pow10 (-power).toNat)

/-- The number of decimal digits. -/
def digitCount (n : Nat) : Nat := (Nat.toDigits 10 n).length

/-- The exponent `e` with `10 ^ e ≤ numerator / denominator < 10 ^ (e + 1)`, of a positive
fraction. -/
def decimalExponent (numerator denominator : Nat) : Int :=
  let guess : Int := (digitCount numerator : Int) - digitCount denominator
  let (n, d) := scaleRatio numerator denominator (-guess)
  if d ≤ n then guess else guess - 1

/-- A number written in positional notation with `places` digits after the point, the point left
out if there are none. -/
def pointDigits (n places : Nat) : List Char :=
  let digits := paddedDigits (places + 1) n
  let whole := digits.length - places
  if places = 0 then digits else digits.take whole ++ '.' :: digits.drop whole

/-- A fraction to a fixed number of places, rounded to nearest. -/
def fixedDigits (numerator denominator places : Nat) : List Char :=
  pointDigits (roundDiv (numerator * pow10 places) denominator) places

/-- A fraction as `places + 1` significant digits and the decimal exponent of the first, rounded to
nearest. -/
def significantDigits (numerator denominator places : Nat) : Nat × Int :=
  if numerator = 0 then (0, 0)
  else
    let exponent := decimalExponent numerator denominator
    let (n, d) := scaleRatio numerator denominator (places - exponent)
    let digits := roundDiv n d
    if digits < pow10 (places + 1) then (digits, exponent) else (pow10 places, exponent + 1)

/-- The numbers that are read as one double, as fractions of one denominator. -/
structure Interval where
  low : Nat
  value : Nat
  high : Nat
  denominator : Nat
  /-- Whether the ends are read as that double too. -/
  closed : Bool

namespace Interval

/-- The numbers nearer to the double `mantissa · 2 ^ exponent` than to another one. -/
def around (mantissa : Nat) (exponent : Int) : Interval :=
  let (unit, denominator) := Binary.ratio 1 (exponent - 2)
  let lowGap := if mantissa = pow2 52 then 1 else 2
  ⟨(4 * mantissa - lowGap) * unit, 4 * mantissa * unit, (4 * mantissa + 2) * unit, denominator,
    mantissa % 2 == 0⟩

/-- Whether the number `digits · 10 ^ power` is read as the double. -/
def has (i : Interval) (digits : Nat) (power : Int) : Bool :=
  let (n, d) := scaleRatio digits 1 power
  if i.closed then i.low * d ≤ n * i.denominator && n * i.denominator ≤ i.high * d
  else i.low * d < n * i.denominator && n * i.denominator < i.high * d

/-- The number nearest to the double that has its last digit at a power of ten and is read as the
double; of two equally near ones the greater. -/
def nearest? (i : Interval) (power : Int) : Option Nat :=
  let (n, d) := scaleRatio i.value i.denominator (-power)
  let below := n / d
  let nearer := if 2 * (n % d) < d then below else below + 1
  let farther := if 2 * (n % d) < d then below + 1 else below
  if i.has nearer power then some nearer
  else if i.has farther power then some farther
  else none

end Interval

/-- No double needs more digits than this. -/
def digitLimit : Nat := 17

/-- The fewest digits, and the power of ten of the last one, that are read as the double
`mantissa · 2 ^ exponent`, which is not zero. The power of ten above the double is tried first. -/
def shortestDigits (mantissa : Nat) (exponent : Int) : Nat × Int :=
  let interval := Interval.around mantissa exponent
  let first := decimalExponent interval.value interval.denominator + 1
  let candidate (count : Nat) : Option (Nat × Int) :=
    let power := first - count
    (interval.nearest? power).map fun digits => (digits, power)
  ((List.range (digitLimit + 1)).findSome? candidate).getD (0, 0)

/-- The number `digits · 10 ^ power` in positional notation. -/
def positionalDigits (digits : Nat) (power : Int) : List Char :=
  if 0 ≤ power then pointDigits (digits * pow10 power.toNat) 0
  else pointDigits digits (-power).toNat

/-- A double with the fewest digits that are read as it, never with an exponent. -/
def plainFloat (x : Float) : String :=
  match Binary.ofFloat x with
  | .nan => "NaN"
  | .infinite negative => if negative then "-inf" else "inf"
  | .finite negative mantissa exponent =>
    let digits :=
      if mantissa = 0 then ['0']
      else
        let (digits, power) := shortestDigits mantissa exponent
        positionalDigits digits power
    String.ofList (if negative then '-' :: digits else digits)

end XmlStore
