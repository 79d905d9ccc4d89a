/-
Where the alternate form has a point. The general conversion rounds to
significant digits and asks for the exponent of the first one; from which
number on this exponent is reached is known exactly. So the point is missing
where the last significant digit stands right before it, and where a single
digit stands before an exponent.
-/
import XmlStore.Proofs.FormatTexts

namespace XmlStore

/-! ## Rounding -/

section

variable {n d m places : ℕ} {power k : ℤ}

/-- What is rounded reaches an even number from one half below it on. -/
theorem le_roundDiv_iff (positive : 0 < d) (even : m % 2 = 0) :
    m ≤ roundDiv n d ↔ 2 * (m * d) ≤ 2 * n + d := by
  have parted := Nat.div_add_mod' n d
  have below := Nat.mod_lt n positive
  unfold roundDiv
  generalize n / d = whole at *
  generalize n % d = rest at *
  -- It is enough that the fraction with one half added to it lies between the result and the next number.
  have reaches {bound : ℕ} (low : 2 * (bound * d) ≤ 2 * (whole * d + rest) + d)
      (high : 2 * (whole * d + rest) + d < 2 * ((bound + 1) * d)) :
      m ≤ bound ↔ 2 * (m * d) ≤ 2 * (whole * d + rest) + d := by
    refine ⟨fun le => ?_, fun le => ?_⟩
    · have := Nat.mul_le_mul_right d le
      omega
    · by_contra more
      have above : bound + 1 ≤ m := Nat.lt_of_not_le more
      have := Nat.mul_le_mul_right d above
      omega
  have next : (whole + 1) * d = whole * d + d := Nat.succ_mul whole d
  have afterNext : (whole + 1 + 1) * d = whole * d + d + d := by rw [Nat.succ_mul, next]
  dsimp only
  rw [← parted]
  split
  · exact reaches (by omega) (by omega)
  · split
    · exact reaches (by omega) (by omega)
    · -- The fraction is in the middle; the number behind it is reached only if it is even.
      have reached : m ≤ whole + whole % 2 ↔ m ≤ whole + 1 := by omega
      exact reached.trans (reaches (by omega) (by omega))

/-- A power with an integer as its exponent is a power with a natural one, or the inverse of such a power. -/
theorem zpow_eq_pow_toNat (base : ℚ) (nonneg : 0 ≤ k) : base ^ k = base ^ k.toNat := by
  rw [← zpow_natCast, Int.toNat_of_nonneg nonneg]

theorem zpow_eq_inv_pow_toNat (base : ℚ) (negative : ¬ 0 ≤ k) : base ^ k = (base ^ (-k).toNat)⁻¹ := by
  rw [← zpow_natCast, Int.toNat_of_nonneg (by omega), zpow_neg, inv_inv]

theorem scaleRatio_pos (positive : 0 < d) : 0 < (scaleRatio n d power).2 := by
  rw [scaleRatio]
  split
  · exact positive
  · exact Nat.mul_pos positive (Nat.pow_pos (by decide))

theorem cast_pow10 (k : ℕ) : (pow10 k : ℚ) = 10 ^ k := Nat.cast_pow 10 k

theorem scaleRatio_value (n d : ℕ) (power : ℤ) :
    ((scaleRatio n d power).1 : ℚ) / (scaleRatio n d power).2 = n / d * 10 ^ power := by
  rw [scaleRatio]
  split
  · rename_i nonneg
    rw [zpow_eq_pow_toNat 10 nonneg, Nat.cast_mul, cast_pow10, mul_div_right_comm]
  · rename_i negative
    rw [zpow_eq_inv_pow_toNat 10 negative, Nat.cast_mul, cast_pow10, div_mul_eq_div_div, div_eq_mul_inv]

/-- A number has as many digits as its size asks for. -/
theorem digitCount_bounds (positive : 0 < n) : 10 ^ (digitCount n - 1) ≤ n ∧ n < 10 ^ digitCount n := by
  have some : 0 < digitCount n := List.length_pos_iff.mpr Nat.toDigits_ne_nil
  refine ⟨?_, (Nat.length_toDigits_le_iff (by decide) some).mp le_rfl⟩
  by_contra less
  rcases Nat.eq_zero_or_pos (digitCount n - 1) with one | more
  · rw [one, pow_zero] at less
    omega
  · have := (Nat.length_toDigits_le_iff (by decide) more).mpr (Nat.lt_of_not_le less)
    rw [← digitCount] at this
    omega

theorem zpow_digitCount_bounds (positive : 0 < n) :
    (10 : ℚ) ^ ((digitCount n : ℤ) - 1) ≤ n ∧ (n : ℚ) < 10 ^ (digitCount n : ℤ) := by
  obtain ⟨low, high⟩ := digitCount_bounds positive
  have some : 0 < digitCount n := List.length_pos_iff.mpr Nat.toDigits_ne_nil
  have last : (digitCount n : ℤ) - 1 = (digitCount n - 1 : ℕ) := by omega
  rw [last, zpow_natCast, zpow_natCast]
  exact ⟨by exact_mod_cast low, by exact_mod_cast high⟩

/-- The decimal exponent of a fraction is that of its first digit. -/
theorem decimalExponent_spec (numerator : 0 < n) (denominator : 0 < d) :
    (10 : ℚ) ^ decimalExponent n d ≤ n / d ∧ (n / d : ℚ) < 10 ^ (decimalExponent n d + 1) := by
  let guess : ℤ := (digitCount n : ℤ) - digitCount d
  have ten : (10 : ℚ) ≠ 0 := by norm_num
  have unit (p : ℤ) : (0 : ℚ) < 10 ^ p := zpow_pos (by norm_num) p
  obtain ⟨nLow, nHigh⟩ := zpow_digitCount_bounds numerator
  obtain ⟨dLow, dHigh⟩ := zpow_digitCount_bounds denominator
  have low : (10 : ℚ) ^ (guess - 1) ≤ n / d :=
    calc (10 : ℚ) ^ (guess - 1) = 10 ^ ((digitCount n : ℤ) - 1) / 10 ^ (digitCount d : ℤ) := by
          rw [← zpow_sub₀ ten, sub_right_comm]
      _ ≤ n / d := div_le_div₀ (Nat.cast_nonneg n) nLow (by exact_mod_cast denominator) dHigh.le
  have high : (n / d : ℚ) < 10 ^ (guess + 1) :=
    calc (n / d : ℚ) < 10 ^ (digitCount n : ℤ) / 10 ^ ((digitCount d : ℤ) - 1) :=
          div_lt_div₀ nHigh dLow (unit _).le (unit _)
      _ = 10 ^ (guess + 1) := by rw [← zpow_sub₀ ten, ← sub_add]
  -- The guess is right exactly if the scaled fraction is not below one.
  have scaled : (scaleRatio n d (-guess)).2 ≤ (scaleRatio n d (-guess)).1 ↔ (10 : ℚ) ^ guess ≤ n / d := by
    have positive : (0 : ℚ) < (scaleRatio n d (-guess)).2 := by exact_mod_cast scaleRatio_pos denominator
    rw [← Nat.cast_le (α := ℚ), ← one_le_div positive, scaleRatio_value, zpow_neg, ← div_eq_mul_inv,
      one_le_div (unit guess)]
  have chosen : decimalExponent n d =
      if (scaleRatio n d (-guess)).2 ≤ (scaleRatio n d (-guess)).1 then guess else guess - 1 := rfl
  rw [chosen]
  split
  · rename_i reached
    exact ⟨scaled.mp reached, high⟩
  · rename_i missed
    refine ⟨low, ?_⟩
    rw [sub_add_cancel]
    exact lt_of_not_ge (scaled.not.mp missed)

/-- The same of a fraction times a power of ten. -/
theorem le_roundDiv_scaleRatio_iff (positive : 0 < d) (even : m % 2 = 0) :
    m ≤ roundDiv (scaleRatio n d power).1 (scaleRatio n d power).2 ↔ (m : ℚ) - 1 / 2 ≤ n / d * 10 ^ power := by
  have scaled : 0 < (scaleRatio n d power).2 := scaleRatio_pos positive
  rw [le_roundDiv_iff scaled even, ← scaleRatio_value, le_div_iff₀ (by exact_mod_cast scaled),
    ← Nat.cast_le (α := ℚ)]
  push_cast
  constructor <;> intro le <;> linarith

/-- Rounding carries over into one more digit from one half of the last digit below the next power of ten on. -/
theorem pow10_le_roundDiv_iff (denominator : 0 < d) (e : ℤ) :
    pow10 (places + 1) ≤ roundDiv (scaleRatio n d (places - e)).1 (scaleRatio n d (places - e)).2 ↔
      (10 : ℚ) ^ (e + 1) - 10 ^ (e + 1 - places - 1) / 2 ≤ n / d := by
  have ten : (10 : ℚ) ≠ 0 := by norm_num
  have unit : (0 : ℚ) < 10 ^ (e - places) := zpow_pos (by norm_num) _
  have even : pow10 (places + 1) % 2 = 0 := by
    rw [pow10, Nat.pow_eq, Nat.pow_succ]
    omega
  have shift : (10 : ℚ) ^ (e + 1) = 10 ^ (places + 1) * 10 ^ (e - places : ℤ) := by
    rw [← zpow_natCast, ← zpow_add₀ ten]
    congr 1
    push_cast
    ring
  have last : (10 : ℚ) ^ (e + 1 - places - 1 : ℤ) = 10 ^ (e - places : ℤ) := by
    congr 1
    ring
  have cancel : (n / d : ℚ) * 10 ^ (places - e : ℤ) * 10 ^ (e - places : ℤ) = n / d := by
    rw [mul_assoc, ← zpow_add₀ ten, show (places - e : ℤ) + (e - places) = 0 by ring, zpow_zero, mul_one]
  rw [le_roundDiv_scaleRatio_iff denominator even, ← mul_le_mul_iff_left₀ unit, cancel, last, shift, cast_pow10,
    sub_mul]
  ring_nf

/-- Rounding to significant digits reaches a power of ten from one half of the last digit below it on. -/
theorem le_significantDigits_iff (numerator : 0 < n) (denominator : 0 < d) :
    k ≤ (significantDigits n d places).2 ↔ (10 : ℚ) ^ k - 10 ^ (k - places - 1) / 2 ≤ n / d := by
  have ten : (10 : ℚ) ≠ 0 := by norm_num
  have unit (p : ℤ) : (0 : ℚ) < 10 ^ p := zpow_pos (by norm_num) p
  obtain ⟨low, high⟩ := decimalExponent_spec numerator denominator
  generalize exponent : decimalExponent n d = e at low high
  have rounded : (significantDigits n d places).2 =
      if pow10 (places + 1) ≤ roundDiv (scaleRatio n d (places - e)).1 (scaleRatio n d (places - e)).2 then e + 1
      else e := by
    rw [significantDigits, if_neg numerator.ne']
    dsimp only
    rw [exponent]
    split <;> split <;> first | rfl | omega
  rw [rounded]
  rcases lt_trichotomy k (e + 1) with below | rfl | above
  · have reached : k ≤ e := by omega
    have short : (10 : ℚ) ^ k - 10 ^ (k - places - 1) / 2 ≤ n / d :=
      calc (10 : ℚ) ^ k - 10 ^ (k - places - 1) / 2 ≤ 10 ^ k := sub_le_self _ (half_pos (unit _)).le
        _ ≤ 10 ^ e := zpow_le_zpow_right₀ (by norm_num) reached
        _ ≤ n / d := low
    refine iff_of_true ?_ short
    split <;> omega
  · rw [← pow10_le_roundDiv_iff denominator]
    split <;> simp_all
  · have far : ¬ (10 : ℚ) ^ k - 10 ^ (k - places - 1) / 2 ≤ n / d := by
      refine not_le_of_gt ?_
      have last : (10 : ℚ) ^ (k - places - 1) ≤ 10 ^ k := zpow_le_zpow_right₀ (by norm_num) (by omega)
      have next : (10 : ℚ) * 10 ^ (e + 1) ≤ 10 ^ k := by
        rw [mul_comm, ← zpow_add_one₀ ten]
        exact zpow_le_zpow_right₀ (by norm_num) (by omega)
      linarith [unit (e + 1)]
    refine iff_of_false ?_ far
    split <;> omega

/-- The fraction that a double is taken for is the double. -/
theorem Binary.ratio_value (mantissa : ℕ) (exponent : ℤ) : 0 < (ratio mantissa exponent).2 ∧
    ((ratio mantissa exponent).1 : ℚ) / (ratio mantissa exponent).2 = mantissa * 2 ^ exponent := by
  have cast_pow2 (k : ℕ) : (pow2 k : ℚ) = 2 ^ k := Nat.cast_pow 2 k
  rw [ratio]
  split
  · rename_i nonneg
    refine ⟨Nat.one_pos, ?_⟩
    rw [zpow_eq_pow_toNat 2 nonneg, Nat.cast_mul, cast_pow2, Nat.cast_one, div_one]
  · rename_i negative
    refine ⟨Nat.two_pow_pos _, ?_⟩
    rw [zpow_eq_inv_pow_toNat 2 negative, cast_pow2, div_eq_mul_inv]

end

/-! ## Points -/

/-- Whether a number that is rounded to so many significant digits keeps its point in the alternate form. Several
digits keep it if the last of them does not stand right before it; a single one if it stands behind it. -/
def PointKept (digits : ℕ) (v : ℚ) : Prop :=
  if digits = 1 then 10 ^ (-4 : ℤ) - 10 ^ (-5 : ℤ) / 2 ≤ v ∧ v < 1 - 1 / 20
  else ¬ (10 ^ (digits - 1) - 1 / 20 ≤ v ∧ v < 10 ^ digits - 1 / 2)

namespace Directive

variable {d : Directive} {c : Char} {sign body : List Char}

/-- Whether the point stays goes by the exact number. -/
theorem keepsPoint_iff {numerator denominator : ℕ} (positive : 0 < denominator) :
    d.KeepsPoint numerator denominator ↔
      (d.conversion = .general → PointKept d.significant (numerator / denominator)) := by
  refine forall_congr' fun _ => ?_
  have least : 1 ≤ d.significant := Nat.le_max_right ..
  rw [leadingExponent]
  generalize d.significant = digits at *
  have reaches (k : ℤ) (some : 0 < numerator) : k ≤ (significantDigits numerator denominator (digits - 1)).2 ↔
      (10 : ℚ) ^ k - 10 ^ (k - (digits - 1 : ℕ) - 1) / 2 ≤ numerator / denominator :=
    le_significantDigits_iff some positive
  generalize leading : (significantDigits numerator denominator (digits - 1)).2 = e at *
  rcases Nat.eq_or_lt_of_le least with rfl | several <;> rcases Nat.eq_zero_or_pos numerator with rfl | some
  · obtain rfl : 0 = e := leading
    norm_num [PointKept]
  · have low : -4 ≤ e ↔ (10 : ℚ) ^ (-4 : ℤ) - 10 ^ (-5 : ℤ) / 2 ≤ numerator / denominator := reaches (-4) some
    have high : e < 0 ↔ (numerator / denominator : ℚ) < 1 - 1 / 20 := by
      have := (reaches 0 some).not
      norm_num at this ⊢
      exact this
    rw [PointKept, if_pos rfl, ← low, ← high]
    dsimp only
    split <;> omega
  · obtain rfl : 0 = e := leading
    have whole : (1 : ℚ) ≤ 10 ^ (digits - 1) := one_le_pow₀ (by norm_num)
    have kept : PointKept digits ((0 : ℕ) / denominator) := by
      rw [PointKept, if_neg several.ne', Nat.cast_zero, zero_div]
      exact fun inside => absurd inside.1 (by linarith)
    refine iff_of_true ?_ kept
    dsimp only
    split <;> omega
  · have low : ((digits - 1 : ℕ) : ℤ) ≤ e ↔ (10 : ℚ) ^ (digits - 1) - 1 / 20 ≤ numerator / denominator := by
      have := reaches (digits - 1 : ℕ) some
      rw [zpow_natCast, sub_self] at this
      norm_num at this ⊢
      exact this
    have high : e < digits ↔ (numerator / denominator : ℚ) < 10 ^ digits - 1 / 2 := by
      have := (reaches digits some).not
      rw [zpow_natCast, show (digits : ℤ) - (digits - 1 : ℕ) - 1 = 0 by omega, zpow_zero, not_le, not_le] at this
      exact this
    rw [PointKept, if_neg several.ne', ← low, ← high]
    dsimp only
    split <;> omega

theorem point_mem_inCase {t : DecimalText} (valid : t.Valid) : '.' ∈ d.inCase t.text ↔ '.' ∈ t.text := by
  rw [inCase]
  split
  · rw [List.mem_map]
    constructor
    · rintro ⟨c, here, upper⟩
      have same : c = '.' := by
        rcases valid.mem_text here with digit | listed
        · rwa [toUpper_of_isDigit digit] at upper
        · simp only [List.mem_cons, List.not_mem_nil, or_false] at listed
          rcases listed with rfl | rfl | rfl | rfl <;> first | rfl | exact absurd upper (by decide)
      exact same ▸ here
    · exact fun here => ⟨'.', here, rfl⟩
  · exact Iff.rfl

/-- Signs and what fills up to the width have no point. -/
theorem point_mem_pad (signs : ∀ c ∈ sign, isSign c = true) (zeros : Bool) :
    '.' ∈ d.pad sign body zeros ↔ '.' ∈ body := by
  have bare : '.' ∉ sign := fun here => absurd (signs _ here) (by decide)
  rw [pad]
  split
  · simp [bare]
  · split <;> simp [bare]

end Directive

/-- The alternate form of a finite number has a point, but for the general conversion, which puts none behind the
last significant digit. -/
theorem point_mem_alternate_iff (format : String) (before after : List Char) (t : DirectiveText) (x : Float)
    (negative : Bool) (mantissa : ℕ) (exponent : ℤ) (valid : t.Valid)
    (text : format.toList = doubled before ++ (t.text ++ doubled after)) (alternate : '#' ∈ t.flags)
    (float : t.letter ∈ ['f', 'F', 'e', 'E', 'g', 'G'])
    (finite : Binary.ofFloat x = .finite negative mantissa exponent) :
    writeFloat (some format) x = .ok (String.ofList (before ++ (t.directive.write (.float x) ++ after))) ∧
    ('.' ∈ t.directive.write (.float x) ↔ (t.letter ∈ ['g', 'G'] →
      PointKept (max ((t.precision.map natOfDigits).getD 6) 1) (mantissa * 2 ^ exponent))) := by
  refine ⟨writeNumber_text valid text, ?_⟩
  have conversion : t.directive.conversion ≠ .integer ∧
      (t.directive.conversion = .general ↔ t.letter ∈ ['g', 'G']) := by
    rw [DirectiveText.directive]
    simp only [List.mem_cons, List.not_mem_nil, or_false] at float
    rcases float with h | h | h | h | h | h <;> simp [h]
  have written : t.directive.write (.float x) = t.directive.writeFloat (.finite negative mantissa exponent) := by
    rw [Directive.write_float conversion.1, finite]
  obtain ⟨positive, value⟩ := Binary.ratio_value mantissa exponent
  obtain ⟨decimal, valid', text', point⟩ := Directive.exists_magnitude conversion.1
    (Binary.ratio mantissa exponent).1 (Binary.ratio mantissa exponent).2
  have asked : t.directive.alternate = true := decide_eq_true alternate
  rw [written, Directive.writeFloat]
  dsimp only
  rw [Directive.point_mem_pad (fun c => Directive.isSign_of_mem_sign), ← text', Directive.point_mem_inCase valid',
    valid'.point_mem_iff, point asked, Directive.keepsPoint_iff positive, value, conversion.2]
  rfl

/-- The number 2.5 with two significant digits keeps its point. -/
theorem point_mem_alternate_iff_rounded :
    writeFloat (some "%#.2g") 2.5 = .ok "2.5" ∧ '.' ∈ (DirectiveText.mk ['#'] [] (some ['2']) [] 'g').directive.write
      (.float 2.5) := by
  have valid : (DirectiveText.mk ['#'] [] (some ['2']) [] 'g').Valid :=
    ⟨by simp, by simp, by simp, by simp, by simp, by decide, by decide⟩
  have finite : Binary.ofFloat 2.5 = .finite false (5 * 2 ^ 50) (-51) := by decide +kernel
  obtain ⟨written, point⟩ := point_mem_alternate_iff "%#.2g" [] [] _ 2.5 false (5 * 2 ^ 50) (-51) valid (by decide)
    (by decide) (by decide) finite
  refine ⟨written.trans (by decide +kernel), point.mpr fun _ => ?_⟩
  have two : max (((some ['2']).map natOfDigits).getD 6) 1 = 2 := by decide
  rw [two, PointKept, if_neg (by decide)]
  norm_num

/-- One significant digit has no point in the alternate form of the general conversion, though the other conversions
write one. -/
theorem no_point_of_alternate : ¬ ∀ (format : String) (f : NumberFormat) (x : Float),
    NumberFormat.ofString format = .ok f → f.directive.alternate = true → f.directive.conversion ≠ .integer →
    (Binary.ofFloat x).isFinite = true → '.' ∈ f.directive.write (.float x) := by
  intro always
  have accepted : NumberFormat.ofString "%#.1g" =
      .ok ⟨[], (DirectiveText.mk ['#'] [] (some ['1']) [] 'g').directive, []⟩ := by decide +kernel
  exact absurd (always _ _ 1 accepted (by decide) (by decide) (by decide +kernel)) (by decide +kernel)

end XmlStore
