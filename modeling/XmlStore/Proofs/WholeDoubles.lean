/-
Whole numbers as doubles. Below 2 ^ 53 every whole number is a double: with its
binary digits moved to the front of the mantissa it needs no rounding, so two
such doubles are equal only if the numbers are.
-/
import Mathlib
import XmlStore.Decimal.Read

namespace XmlStore

open Float.Model Float.Model.UnpackedFloat

variable {n m k : Nat} {e : Int}

theorem log2_mul_pow (pos : 0 < m) (k : Nat) : (m * 2 ^ k).log2 = m.log2 + k := by
  induction k with
  | zero => rw [Nat.pow_zero, Nat.mul_one, Nat.add_zero]
  | succ k ih =>
    have ne : m * 2 ^ k ≠ 0 := Nat.mul_ne_zero (Nat.ne_of_gt pos) (Nat.ne_of_gt (Nat.two_pow_pos k))
    have double : m * 2 ^ (k + 1) = 2 * (m * 2 ^ k) := by ring
    rw [double, Nat.log2_two_mul ne, ih, Nat.add_assoc]

/-! ## Rounding what is exact -/

theorem repeat_shiftRightOne (m k j : Nat) :
    k.repeat ExtendedMantissa.shiftRightOne ⟨m * 2 ^ (k + j), false, false⟩ =
      ⟨m * 2 ^ j, false, false⟩ := by
  induction k generalizing j with
  | zero => rw [Nat.zero_add]; rfl
  | succ k ih =>
    have later : k + 1 + j = k + (j + 1) := by omega
    have double : m * 2 ^ (j + 1) = 2 * (m * 2 ^ j) := by ring
    rw [Nat.repeat, later, ih, ExtendedMantissa.shiftRightOne]
    simp [double]

/-- A mantissa of 53 binary digits with zeros behind it loses only these. -/
theorem shiftToTargetExponent_exact (size : m.log2 = 52) (low : -1074 ≤ e + k) :
    shiftToTargetExponent Format.binary64 (m * 2 ^ k) e .exact = (⟨m, false, false⟩, e + k) := by
  have pos : 0 < m := by
    rw [Nat.pos_iff_ne_zero]
    rintro rfl
    cases size
  have total : totalExponent (m * 2 ^ k) e = 53 + k + e := by
    rw [totalExponent, log2_mul_pow pos, size]
    omega
  have target : Format.binary64.targetExponent (53 + k + e) = e + k := by
    have least : Format.binary64.minExponent = -1074 := rfl
    have bits : Format.binary64.mantissaBits = 53 := rfl
    rw [Format.targetExponent, least, bits]
    omega
  have amount : (e + k - e).toNat = k := by omega
  rw [shiftToTargetExponent, total, target, shiftToExponent, amount]
  refine Prod.ext ?_ rfl
  have shifted := repeat_shiftRightOne m k 0
  rw [Nat.add_zero, Nat.pow_zero, Nat.mul_one] at shifted
  exact shifted

theorem roundWithAccuracy_exact (size : m.log2 = 52) (low : -1074 ≤ e + k) (pos : 0 < m) :
    roundWithAccuracy Format.binary64 .positive (m * 2 ^ k) e .exact = .finite .positive m (e + k) pos := by
  have again : shiftToTargetExponent Format.binary64 m (e + k) .exact = (⟨m, false, false⟩, e + k) := by
    have shifted := shiftToTargetExponent_exact (k := 0) (e := e + k) size (by omega)
    rw [Nat.pow_zero, Nat.mul_one] at shifted
    rw [shifted]
    exact Prod.ext rfl (Int.add_zero _)
  have rounded : ExtendedMantissa.roundedMantissa ⟨m, false, false⟩ = m := rfl
  rw [roundWithAccuracy, shiftToTargetExponent_exact size low]
  dsimp only
  rw [rounded, again]
  exact dif_neg (Nat.ne_of_gt pos)

/-! ## Packing -/

theorem unpack_packComponents {spec : Format} {sign : Sign} {exponent : BitVec spec.exponentBits}
    {mantissa : BitVec spec.mantissaBitsWithoutImplicit} (not_largest : exponent ≠ -1#_)
    (not_least : exponent ≠ 0#_) (pos : 0 < (1#1 ++ mantissa).toNat) :
    UnpackedFloat.unpack spec (packComponents spec sign exponent mantissa) =
      .finite sign (1#1 ++ mantissa).toNat
        (exponent.toNat - (spec.exponentBias + spec.mantissaBitsWithoutImplicit)) pos := by
  simp [UnpackedFloat.unpack, not_largest, not_least]

/-- Finite numbers are known by their parts. -/
theorem finite_congr {sign : Sign} {m' : Nat} {e' : Int} {pos : 0 < m} {pos' : 0 < m'} (mantissa : m = m')
    (exponent : e = e') : UnpackedFloat.finite sign m e pos = .finite sign m' e' pos' := by
  subst mantissa exponent
  rfl

/-- The first digit of a mantissa is left out when it is packed. -/
theorem toNat_append_rest (size : m.log2 = 52) : (1#1 ++ BitVec.ofNat 52 m).toNat = m := by
  have ne : m ≠ 0 := by
    rintro rfl
    cases size
  obtain ⟨least, most⟩ := (Nat.log2_eq_iff ne).mp size
  have rest : (BitVec.ofNat 52 m).toNat = m - 2 ^ 52 := by
    rw [BitVec.toNat_ofNat]
    omega
  rw [BitVec.toNat_append, ← Nat.shiftLeft_add_eq_or_of_lt (BitVec.isLt _), rest, Nat.shiftLeft_eq]
  have first : (1#1).toNat = 1 := rfl
  omega

/-- A normal double is unpacked as it was packed. -/
theorem unpack_pack (size : m.log2 = 52) (low : -1074 ≤ e) (high : e ≤ 971) (pos : 0 < m) :
    (pack (.finite .positive m e pos)).unpack = .finite .positive m e pos := by
  have biased : (e + Format.binary64.exponentBias + (52 : Nat)).toNat = (e + 1075).toNat := by
    have bias : (Format.binary64.exponentBias : Int) = 1023 := rfl
    rw [bias]
    omega
  generalize hb : (e + 1075).toNat = b at biased
  have in_range : ¬ 2 ^ 11 ≤ b + 1 := by omega
  have bits : m.log2 + 1 = Format.binary64.mantissaBits := by
    rw [size]
    rfl
  have packed : UnpackedFloat.pack Format.binary64 (.finite .positive m e pos) =
      packComponents Format.binary64 .positive (BitVec.ofNat 11 b) (BitVec.ofNat 52 m) := by
    rw [UnpackedFloat.pack]
    dsimp only
    rw [biased, if_neg in_range, if_pos bits]
  have small : (BitVec.ofNat 11 b).toNat = b := by
    rw [BitVec.toNat_ofNat, Nat.mod_eq_of_lt (by omega)]
  have not_largest : BitVec.ofNat 11 b ≠ -1#11 := by
    intro h
    have := congrArg BitVec.toNat h
    rw [small] at this
    have largest : (-1#11).toNat = 2047 := rfl
    omega
  have not_least : BitVec.ofNat 11 b ≠ 0#11 := by
    intro h
    have := congrArg BitVec.toNat h
    rw [small] at this
    have least : (0#11).toNat = 0 := rfl
    omega
  have exponent : ((BitVec.ofNat 11 b).toNat : Int) - (Format.binary64.exponentBias + (52 : Nat)) = e := by
    have bias : ((Format.binary64.exponentBias : Int) + (52 : Nat)) = 1075 := rfl
    omega
  rw [Float.Model.unpack, Float.Model.pack, UInt64.toBitVec_ofBitVec, packed]
  have pos' : 0 < (1#1 ++ BitVec.ofNat 52 m).toNat := by rwa [toNat_append_rest size]
  have unpacked := @unpack_packComponents Format.binary64 .positive (BitVec.ofNat 11 b)
    (BitVec.ofNat 52 m) not_largest not_least pos'
  rw [unpacked]
  exact finite_congr (toNat_append_rest size) exponent

/-! ## Whole numbers -/

/-- The mantissa of a whole number: its binary digits, the first one in front. -/
def wholeMantissa (n : Nat) : Nat := n * 2 ^ (52 - n.log2)

section

variable (pos : 0 < n) (bounded : n < 2 ^ 53)

include pos bounded

theorem log2_lt_of_bounded : n.log2 < 53 := (Nat.log2_lt (Nat.ne_of_gt pos)).mpr bounded

theorem log2_wholeMantissa : (wholeMantissa n).log2 = 52 := by
  have := log2_lt_of_bounded pos bounded
  rw [wholeMantissa, log2_mul_pow pos]
  omega

omit bounded in
theorem wholeMantissa_pos : 0 < wholeMantissa n := Nat.mul_pos pos (Nat.two_pow_pos _)

theorem round_whole : UnpackedFloat.round Format.binary64 .positive n 0 =
    .finite .positive (wholeMantissa n) ((n.log2 : Int) - 52) (wholeMantissa_pos pos) := by
  have least := log2_lt_of_bounded pos bounded
  have target : Format.binary64.targetExponent (totalExponent n 0) = (n.log2 : Int) - 52 := by
    have low : Format.binary64.minExponent = -1074 := rfl
    have bits : Format.binary64.mantissaBits = 53 := rfl
    rw [Format.targetExponent, low, bits, totalExponent]
    omega
  have amount : (0 - ((n.log2 : Int) - 52)).toNat = 52 - n.log2 := by omega
  have exponent : (0 : Int) - (52 - n.log2 : Nat) = (n.log2 : Int) - 52 := by omega
  have exact := roundWithAccuracy_exact (k := 0) (e := (n.log2 : Int) - 52)
    (log2_wholeMantissa pos bounded) (by omega) (wholeMantissa_pos pos)
  rw [Nat.pow_zero, Nat.mul_one] at exact
  rw [UnpackedFloat.round, target, decreaseExponent, amount, Nat.shiftLeft_eq]
  dsimp only
  rw [exponent]
  exact exact.trans (finite_congr rfl (Int.add_zero _))

theorem unpack_ofUInt64 : (Float.Model.ofUInt64 n.toUInt64).unpack =
    .finite .positive (wholeMantissa n) ((n.log2 : Int) - 52) (wholeMantissa_pos pos) := by
  have least := log2_lt_of_bounded pos bounded
  have whole : n.toUInt64.toNat = n := by
    rw [Nat.toUInt64, UInt64.toNat_ofNat']
    omega
  have positive : compare (n : Int) 0 = .gt := Int.compare_eq_gt.mpr (by omega)
  rw [Float.Model.ofUInt64, UnpackedFloat.ofUInt64, whole, UnpackedFloat.ofNat, UnpackedFloat.ofInt,
    UnpackedFloat.normalize, positive]
  dsimp only
  rw [Int.toNat_natCast, round_whole pos bounded]
  exact unpack_pack (log2_wholeMantissa pos bounded) (by omega) (by omega) _

/-- A whole number as a double has its digits as mantissa. -/
theorem unpack_ofNat : (Float.ofNat n).toModel.unpack =
    .finite .positive (wholeMantissa n) ((n.log2 : Int) - 52) (wholeMantissa_pos pos) := by
  have one : (Float.ofBits 0x3FF0000000000000).toModel.unpack =
      .finite .positive (2 ^ 52) (-52) (by decide) := rfl
  have least := log2_lt_of_bounded pos bounded
  have product : (Float.ofNat n).toModel = pack (UnpackedFloat.mul Format.binary64
      (Float.Model.ofUInt64 n.toUInt64).unpack (Float.ofBits 0x3FF0000000000000).toModel.unpack) :=
    congrArg Float.toModel (dif_pos ⟨bounded, Nat.zero_le 22⟩)
  have exponent : (n.log2 : Int) - 52 + -52 + (52 : Nat) = (n.log2 : Int) - 52 := by omega
  have rounded := roundWithAccuracy_exact (k := 52) (e := (n.log2 : Int) - 52 + -52)
    (log2_wholeMantissa pos bounded) (by omega) (wholeMantissa_pos pos)
  have exact : roundWithAccuracy Format.binary64 .positive (wholeMantissa n * 2 ^ 52)
      ((n.log2 : Int) - 52 + -52) .exact =
        .finite .positive (wholeMantissa n) ((n.log2 : Int) - 52) (wholeMantissa_pos pos) :=
    rounded.trans (finite_congr rfl exponent)
  rw [product, one, unpack_ofUInt64 pos bounded]
  refine (congrArg (fun f => (pack f).unpack) exact).trans ?_
  exact unpack_pack (log2_wholeMantissa pos bounded) (by omega) (by omega) _

end

/-- Whole numbers below 2 ^ 53 are equal as doubles only if they are equal. -/
theorem ofNat_beq_ofNat (pos : 0 < n) (bounded : n < 2 ^ 53) (pos' : 0 < m) (bounded' : m < 2 ^ 53) :
    (Float.ofNat n == Float.ofNat m) = (n == m) := by
  have compared : (Float.ofNat n == Float.ofNat m) =
      ((Float.ofNat n).toModel.unpack.compare (Float.ofNat m).toModel.unpack == some .eq) := rfl
  rw [compared, unpack_ofNat pos bounded, unpack_ofNat pos' bounded', UnpackedFloat.compare,
    Bool.eq_iff_iff, beq_iff_eq, beq_iff_eq, Option.some.injEq, Ordering.then_eq_eq]
  constructor
  · rintro ⟨exponents, mantissas⟩
    have logs : n.log2 = m.log2 := by
      have := Std.LawfulEqOrd.eq_of_compare exponents
      omega
    have same := Std.LawfulEqOrd.eq_of_compare mantissas
    rw [wholeMantissa, wholeMantissa, logs] at same
    exact Nat.eq_of_mul_eq_mul_right (Nat.two_pow_pos _) same
  · rintro rfl
    exact ⟨Std.ReflCmp.compare_self, Std.ReflCmp.compare_self⟩

/-! ## Decimal digits -/

theorem natOfDigits_toDigits (n : Nat) : natOfDigits (Nat.toDigits 10 n) = n := by
  refine Eq.trans ?_ (@Nat.ofDigitChars_ten_toDigits n)
  have swapped (value : Nat) (c : Char) :
      value * 10 + digitValue c = 10 * value + (c.toNat - '0'.toNat) := by
    rw [Nat.mul_comm, digitValue]
  simp only [natOfDigits, swapped]
  rfl

/-- The digits of a whole number are read as the number. -/
theorem readUnsigned?_toDigits (pos : 0 < n) (bounded : n < 2 ^ 53) :
    readUnsigned? (Nat.toDigits 10 n) = some (Float.ofNat n) := by
  have digits : ∀ c ∈ Nat.toDigits 10 n, c.isDigit = true := fun c hc =>
    Nat.isDigit_of_mem_toDigits (by decide) (by decide) hc
  have few : (Nat.toDigits 10 n).length ≤ 16 :=
    (Nat.length_toDigits_le_iff (by decide) (by decide)).mpr (by omega)
  have filled : (Nat.toDigits 10 n).isEmpty = false := List.isEmpty_eq_false_iff.mpr Nat.toDigits_ne_nil
  have split : (Nat.toDigits 10 n).span Char.isDigit = (Nat.toDigits 10 n, []) := by
    rw [List.span_eq_takeWhile_dropWhile, List.takeWhile_eq_self_iff.2 digits,
      List.dropWhile_eq_nil_iff.mpr digits]
  have number : floatOfDecimal n 0 = Float.ofNat n := by
    have count : digitCount n ≤ 16 := few
    have some_digits : ¬ (decide (n = 0) || decide ((0 : Int) + digitCount n < -400)) = true := by
      simp only [Bool.or_eq_true, decide_eq_true_eq]
      omega
    have finite : ¬ 400 < (0 : Int) + digitCount n := by omega
    rw [floatOfDecimal, if_neg some_digits, if_neg finite]
    rfl
  rw [readUnsigned?, split]
  dsimp only
  rw [filled, List.append_nil, natOfDigits_toDigits]
  exact congrArg some number

end XmlStore
