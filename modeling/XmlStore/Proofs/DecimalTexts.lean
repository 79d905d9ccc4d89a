/-
Decimal numbers as texts. What is written of a finite double, its sign aside,
is digits, perhaps a point with more digits behind it, and perhaps an
exponent. A text of this form is read as a number, and it is known whether the
point is there.
-/
import Mathlib.Data.List.DropRight
import XmlStore.Decimal.Format
import XmlStore.Proofs.WholeDoubles

namespace XmlStore

/-! ## Digits -/

section

variable {c : Char} {width n : Nat}

theorem isSpace_of_isDigit (digit : c.isDigit = true) : isSpace c = false := by
  have range : 48 ≤ c.toNat ∧ c.toNat ≤ 57 := by
    simpa [Char.isDigit, UInt32.le_iff_toNat_le] using digit
  simp [isSpace, Ranges.has, spaces]
  omega

theorem isDigit_of_mem_toDigits (here : c ∈ Nat.toDigits 10 n) : c.isDigit = true :=
  Nat.isDigit_of_mem_toDigits (by decide) (by decide) here

theorem isDigit_of_mem_paddedDigits (here : c ∈ paddedDigits width n) : c.isDigit = true := by
  rw [paddedDigits, List.mem_append] at here
  rcases here with zero | digit
  · rw [List.eq_of_mem_replicate zero]
    rfl
  · exact isDigit_of_mem_toDigits digit

theorem paddedDigits_ne_nil : paddedDigits width n ≠ [] :=
  List.append_ne_nil_of_right_ne_nil _ Nat.toDigits_ne_nil

theorem le_length_paddedDigits (width n : Nat) : width ≤ (paddedDigits width n).length := by
  rw [paddedDigits, List.length_append, List.length_replicate]
  omega

theorem natOfDigits_replicate_append (k : Nat) (cs : List Char) :
    natOfDigits (List.replicate k '0' ++ cs) = natOfDigits cs := by
  induction k with
  | zero => rfl
  | succ k ih => exact ih

theorem natOfDigits_paddedDigits (width n : Nat) : natOfDigits (paddedDigits width n) = n := by
  rw [paddedDigits, natOfDigits_replicate_append, natOfDigits_toDigits]

/-- A run of characters is taken as far as it goes. -/
theorem span_append {p : Char → Bool} {front rest : List Char} (all : ∀ c ∈ front, p c = true)
    (stop : ∀ c ∈ rest.head?, p c = false) : (front ++ rest).span p = (front, rest) := by
  have behind : rest.takeWhile p = [] ∧ rest.dropWhile p = rest := by
    cases rest with
    | nil => exact ⟨rfl, rfl⟩
    | cons c rest =>
      have no : ¬ p c = true := by simp [stop c rfl]
      exact ⟨List.takeWhile_cons_of_neg no, List.dropWhile_cons_of_neg no⟩
  rw [List.span_eq_takeWhile_dropWhile, List.takeWhile_append_of_pos all, List.dropWhile_append_of_pos all,
    behind.1, behind.2, List.append_nil]

/-- What stands around characters that are kept is left out. -/
theorem trimBy_append {p : Char → Bool} {front core back : List Char} (before : ∀ c ∈ front, p c = true)
    (after : ∀ c ∈ back, p c = true) (kept : ∀ c ∈ core, p c = false) :
    trimBy p (front ++ (core ++ back)) = core := by
  have drops {all rest : List Char} (gone : ∀ c ∈ all, p c = true) (stop : ∀ c ∈ rest.head?, p c = false) :
      (all ++ rest).dropWhile p = rest := by
    have spanned := span_append gone stop
    rw [List.span_eq_takeWhile_dropWhile] at spanned
    exact congrArg Prod.snd spanned
  have last : (back.reverse ++ core.reverse).dropWhile p = core.reverse :=
    drops (fun c here => after c (List.mem_reverse.mp here))
      fun c first => kept c (List.mem_reverse.mp (List.mem_of_mem_head? first))
  rw [trimBy]
  cases core with
  | nil =>
    have gone : (front ++ back).dropWhile p = [] :=
      List.dropWhile_eq_nil_iff.mpr fun c here => (List.mem_append.mp here).elim (before c) (after c)
    rw [List.nil_append, gone]
    rfl
  | cons c core =>
    rw [drops before fun c first => kept c (List.mem_of_mem_head? (by simpa using first)), List.reverse_append, last,
      List.reverse_reverse]

theorem trimBy_eq_self {p : Char → Bool} {cs : List Char} (kept : ∀ c ∈ cs, p c = false) : trimBy p cs = cs := by
  have bare : trimBy p ([] ++ (cs ++ [])) = cs := trimBy_append (List.forall_mem_nil _) (List.forall_mem_nil _) kept
  rwa [List.nil_append, List.append_nil] at bare

end

/-- The text of a number without sign, in its parts. -/
structure DecimalText where
  whole : List Char
  /-- The digits behind the point, if there is a point. -/
  fraction : Option (List Char)
  exponent : Option Int

namespace DecimalText

variable {t : DecimalText} {c : Char}

/-- The point and the digits behind it. -/
def pointPart (t : DecimalText) : List Char := t.fraction.elim [] ('.' :: ·)

def exponentPart (t : DecimalText) : List Char := t.exponent.elim [] Directive.exponentSuffix

def text (t : DecimalText) : List Char := t.whole ++ (t.pointPart ++ t.exponentPart)

structure Valid (t : DecimalText) : Prop where
  begun : t.whole ≠ []
  whole : ∀ c ∈ t.whole, c.isDigit = true
  fraction : ∀ c ∈ t.fraction.getD [], c.isDigit = true

namespace Valid

theorem exists_head (valid : t.Valid) : ∃ c rest, t.text = c :: rest ∧ c.isDigit = true := by
  obtain ⟨c, whole, eq⟩ := List.exists_cons_of_ne_nil valid.begun
  refine ⟨c, whole ++ (t.pointPart ++ t.exponentPart), ?_, valid.whole c (eq ▸ List.mem_cons_self)⟩
  rw [text, eq, List.cons_append]

theorem mem_exponentPart (here : c ∈ t.exponentPart) : c.isDigit = true ∨ c ∈ ['e', '+', '-'] := by
  cases e : t.exponent with
  | none => simp [exponentPart, e] at here
  | some exponent =>
    rw [exponentPart, e, Option.elim_some, Directive.exponentSuffix] at here
    rcases List.mem_cons.mp here with rfl | here
    · exact .inr List.mem_cons_self
    rcases List.mem_cons.mp here with sign | digit
    · split at sign <;> simp [sign]
    · exact .inl (isDigit_of_mem_paddedDigits digit)

theorem mem_text (valid : t.Valid) (here : c ∈ t.text) : c.isDigit = true ∨ c ∈ ['.', 'e', '+', '-'] := by
  rw [text, List.mem_append, List.mem_append] at here
  rcases here with whole | point | exponent
  · exact .inl (valid.whole c whole)
  · cases e : t.fraction with
    | none => simp [pointPart, e] at point
    | some fraction =>
      rw [pointPart, e, Option.elim_some] at point
      rcases List.mem_cons.mp point with rfl | digit
      · exact .inr List.mem_cons_self
      · exact .inl (valid.fraction c (by rwa [e]))
  · exact (mem_exponentPart exponent).imp id (List.mem_cons_of_mem _)

theorem point_mem_iff (valid : t.Valid) : '.' ∈ t.text ↔ t.fraction.isSome = true := by
  have other : '.' ∉ t.whole ∧ '.' ∉ t.exponentPart :=
    ⟨fun here => absurd (valid.whole _ here) (by decide),
      fun here => absurd (mem_exponentPart here) (by decide)⟩
  rw [text, List.mem_append, List.mem_append, pointPart]
  cases t.fraction <;> simp [other]

/-- An exponent behind a text that has none. -/
theorem withExponent (valid : t.Valid) (plain : t.exponent = none) (exponent : Int) :
    { t with exponent := some exponent }.Valid ∧
      { t with exponent := some exponent }.text = t.text ++ Directive.exponentSuffix exponent := by
  refine ⟨⟨valid.begun, valid.whole, valid.fraction⟩, ?_⟩
  rw [text, text, exponentPart, exponentPart, plain, Option.elim_none, Option.elim_some, List.append_nil,
    List.append_assoc]
  rfl

/-- A bare point behind a text that has none. -/
theorem withPoint (valid : t.Valid) (plain : t.exponent = none) (bare : t.fraction = none) :
    { t with fraction := some [] }.Valid ∧ { t with fraction := some [] }.text = t.text ++ ['.'] := by
  refine ⟨⟨valid.begun, valid.whole, nofun⟩, ?_⟩
  simp [text, pointPart, exponentPart, plain, bare]

end Valid

end DecimalText

/-! ## What is written -/

/-- Digits in positional notation have a point if there are to be places behind it. -/
theorem exists_pointDigits (n places : Nat) : ∃ t : DecimalText, t.Valid ∧ t.exponent = none ∧
    t.text = pointDigits n places ∧ (t.fraction.isSome = true ↔ places ≠ 0) := by
  have digits : ∀ c ∈ paddedDigits (places + 1) n, c.isDigit = true := fun c => isDigit_of_mem_paddedDigits
  have long := le_length_paddedDigits (places + 1) n
  rw [pointDigits]
  generalize paddedDigits (places + 1) n = cs at digits long
  split
  · rename_i zero
    refine ⟨⟨cs, none, none⟩, ⟨?_, digits, nofun⟩, rfl, ?_, by simp [zero]⟩
    · exact List.ne_nil_of_length_pos (Nat.lt_of_lt_of_le (Nat.succ_pos places) long)
    · simp [DecimalText.text, DecimalText.pointPart, DecimalText.exponentPart]
  · rename_i positive
    refine ⟨⟨cs.take (cs.length - places), some (cs.drop (cs.length - places)), none⟩, ⟨?_, ?_, ?_⟩, rfl, ?_, ?_⟩
    · refine List.ne_nil_of_length_pos ?_
      rw [List.length_take]
      omega
    · exact fun c here => digits c (List.mem_of_mem_take here)
    · exact fun c here => digits c (List.mem_of_mem_drop here)
    · simp [DecimalText.text, DecimalText.pointPart, DecimalText.exponentPart]
    · simp [positive]

namespace Directive

/-- The zeros at the end are left out, and the point if nothing else stands behind it. -/
theorem stripZeros_point {whole fraction : List Char} (wholes : ∀ c ∈ whole, c.isDigit = true)
    (digits : ∀ c ∈ fraction, c.isDigit = true) :
    stripZeros (whole ++ '.' :: fraction) = if fraction.rdropWhile (· = '0') = [] then whole
      else whole ++ '.' :: fraction.rdropWhile (· = '0') := by
  have noPoint {cs : List Char} (all : ∀ c ∈ cs, c.isDigit = true) (rest : List Char) (some : cs ≠ []) :
      (cs ++ rest).dropWhile (· = '.') = cs ++ rest := by
    cases cs with
    | nil => exact absurd rfl some
    | cons c cs =>
      refine List.dropWhile_cons_of_neg (decide_eq_true_iff.not.mpr ?_)
      rintro rfl
      exact absurd (all '.' List.mem_cons_self) (by decide)
  have present : (whole ++ '.' :: fraction).contains '.' = true := by simp
  rw [stripZeros, if_pos present, List.reverse_append, List.reverse_cons, List.append_assoc, List.singleton_append,
    List.dropWhile_append]
  cases reversed : fraction.reverse.dropWhile (· = '0') with
  | nil =>
    have none : fraction.rdropWhile (· = '0') = [] := congrArg List.reverse reversed
    have last : whole.reverse.dropWhile (· = '.') = whole.reverse := by
      rcases eq_or_ne whole [] with rfl | some
      · rfl
      · have reversed : ∀ c ∈ whole.reverse, c.isDigit = true := fun c here => wholes c (List.mem_reverse.mp here)
        simpa using noPoint reversed [] (by simpa using some)
    rw [if_pos List.isEmpty_nil, if_pos none, List.dropWhile_cons_of_neg (by decide),
      List.dropWhile_cons_of_pos (by decide), last, List.reverse_reverse]
  | cons c rest =>
    have some : fraction.rdropWhile (· = '0') = (c :: rest).reverse := congrArg List.reverse reversed
    have all : ∀ d ∈ c :: rest, d.isDigit = true := fun d here =>
      digits d (List.mem_reverse.mp ((List.dropWhile_sublist _).subset (reversed ▸ here)))
    rw [if_neg (by simp), noPoint all _ (List.cons_ne_nil c rest), some, if_neg (by simp)]
    simp

/-- Leaving out the zeros at the end leaves a text of the same form. -/
theorem exists_stripZeros {t : DecimalText} (valid : t.Valid) (plain : t.exponent = none) :
    ∃ t' : DecimalText, t'.Valid ∧ t'.exponent = none ∧ t'.text = stripZeros t.text := by
  cases e : t.fraction with
  | none =>
    have absent : '.' ∉ t.text := fun here => by simpa [e] using valid.point_mem_iff.mp here
    have bare : t.text.contains '.' = false := by simpa using absent
    exact ⟨t, valid, plain, by rw [stripZeros, bare, if_neg (by decide)]⟩
  | some fraction =>
    have point : t.text = t.whole ++ '.' :: fraction := by
      simp [DecimalText.text, DecimalText.pointPart, DecimalText.exponentPart, plain, e]
    have digits : ∀ c ∈ fraction, c.isDigit = true := fun c here => valid.fraction c (by rwa [e])
    rw [point, stripZeros_point valid.whole digits]
    split
    · refine ⟨⟨t.whole, none, none⟩, ⟨valid.begun, valid.whole, nofun⟩, rfl, ?_⟩
      simp [DecimalText.text, DecimalText.pointPart, DecimalText.exponentPart]
    · refine ⟨⟨t.whole, some (fraction.rdropWhile (· = '0')), none⟩, ⟨valid.begun, valid.whole, ?_⟩, rfl, ?_⟩
      · exact fun c here => digits c ((List.rdropWhile_prefix _ _).subset here)
      · simp [DecimalText.text, DecimalText.pointPart, DecimalText.exponentPart]

/-- The precision of significant digits, of which there is at least one. -/
def significant (d : Directive) : Nat := max (d.precision.getD defaultPrecision) 1

/-- The decimal exponent of the first significant digit, once the number has been rounded. -/
def leadingExponent (d : Directive) (numerator denominator : Nat) : Int :=
  (significantDigits numerator denominator (d.significant - 1)).2

/-- Whether the alternate form has a point. The general conversion puts no point behind the last significant
digit. -/
def KeepsPoint (d : Directive) (numerator denominator : Nat) : Prop :=
  d.conversion = .general →
    let leading := d.leadingExponent numerator denominator
    if -4 ≤ leading ∧ leading < d.significant then leading + 1 < d.significant else 1 < d.significant

theorem exists_barePoint {t : DecimalText} {precision : Nat} (alternate : Bool) (valid : t.Valid)
    (plain : t.exponent = none) (point : t.fraction.isSome = true ↔ precision ≠ 0) :
    ∃ t' : DecimalText, t'.Valid ∧ t'.exponent = none ∧ t'.text = t.text ++ barePoint alternate precision ∧
      (alternate = true → t'.fraction.isSome = true) := by
  rw [barePoint]
  split
  · rename_i bare
    rw [Bool.and_eq_true, decide_eq_true_eq] at bare
    have none : t.fraction = none := by simpa [bare.2] using point
    obtain ⟨valid', text⟩ := valid.withPoint plain none
    exact ⟨_, valid', plain, text, fun _ => rfl⟩
  · rename_i other
    refine ⟨t, valid, plain, (List.append_nil _).symm, fun alternate => point.mpr fun zero => other ?_⟩
    simp [alternate, zero]

/-- The zeros at the end are kept in the alternate form alone. -/
def trim (d : Directive) (cs : List Char) : List Char := if d.alternate then cs else stripZeros cs

theorem exists_trim (d : Directive) (n places : Nat) : ∃ t : DecimalText, t.Valid ∧ t.exponent = none ∧
    t.text = d.trim (pointDigits n places) ∧ (d.alternate = true → (t.fraction.isSome = true ↔ places ≠ 0)) := by
  obtain ⟨t, valid, plain, text, point⟩ := exists_pointDigits n places
  rw [trim]
  cases d.alternate with
  | true => exact ⟨t, valid, plain, text, fun _ => point⟩
  | false =>
    obtain ⟨t', valid', plain', text'⟩ := exists_stripZeros valid plain
    exact ⟨t', valid', plain', text ▸ text', nofun⟩

/-- The general conversion goes by the leading exponent. -/
theorem generalBody_eq (d : Directive) (numerator denominator : Nat) :
    generalBody d.alternate (d.precision.getD defaultPrecision) numerator denominator =
      if -4 ≤ d.leadingExponent numerator denominator ∧ d.leadingExponent numerator denominator < d.significant then
        d.trim (fixedDigits numerator denominator
          (d.significant - 1 - d.leadingExponent numerator denominator).toNat)
      else
        d.trim (pointDigits (significantDigits numerator denominator (d.significant - 1)).1 (d.significant - 1)) ++
          exponentSuffix (d.leadingExponent numerator denominator) := by
  have test (leading : Int) : (decide (-4 ≤ leading) && decide (leading < d.significant)) = true ↔
      -4 ≤ leading ∧ leading < d.significant := by
    rw [Bool.and_eq_true, decide_eq_true_eq, decide_eq_true_eq]
  by_cases range : -4 ≤ d.leadingExponent numerator denominator ∧
      d.leadingExponent numerator denominator < d.significant
  · exact (if_pos ((test _).mpr range)).trans (if_pos range).symm
  · exact (if_neg ((test _).not.mpr range)).trans (if_neg range).symm

theorem exists_generalBody {d : Directive} (general : d.conversion = .general) (numerator denominator : Nat) :
    ∃ t : DecimalText, t.Valid ∧
      t.text = generalBody d.alternate (d.precision.getD defaultPrecision) numerator denominator ∧
      (d.alternate = true → (t.fraction.isSome = true ↔ d.KeepsPoint numerator denominator)) := by
  have positive : 1 ≤ d.significant := Nat.le_max_right ..
  rw [KeepsPoint, generalBody_eq]
  generalize d.leadingExponent numerator denominator = leading
  simp only [general, forall_const]
  split
  · let places := (d.significant - 1 - leading).toNat
    obtain ⟨t, valid, -, text, point⟩ := d.exists_trim (roundDiv (numerator * pow10 places) denominator) places
    exact ⟨t, valid, text, fun alternate => (point alternate).trans (by omega)⟩
  · obtain ⟨t, valid, plain, text, point⟩ :=
      d.exists_trim (significantDigits numerator denominator (d.significant - 1)).1 (d.significant - 1)
    obtain ⟨valid', text'⟩ := valid.withExponent plain leading
    exact ⟨_, valid', text'.trans (by rw [text]), fun alternate => (point alternate).trans (by omega)⟩

/-- What is written of a finite number, its sign aside, has the form of a decimal number. -/
theorem exists_magnitude {d : Directive} (float : d.conversion ≠ .integer) (numerator denominator : Nat) :
    ∃ t : DecimalText, t.Valid ∧ t.text = d.magnitude numerator denominator ∧
      (d.alternate = true → (t.fraction.isSome = true ↔ d.KeepsPoint numerator denominator)) := by
  let precision := d.precision.getD defaultPrecision
  rw [magnitude]
  cases conversion : d.conversion with
  | integer => exact absurd conversion float
  | fixed =>
    obtain ⟨t, valid, plain, text, point⟩ :=
      exists_pointDigits (roundDiv (numerator * pow10 precision) denominator) precision
    obtain ⟨t', valid', -, text', point'⟩ := exists_barePoint d.alternate valid plain point
    refine ⟨t', valid', text'.trans (by rw [text]; rfl), fun alternate => ?_⟩
    simp [KeepsPoint, conversion, point' alternate]
  | exponential =>
    obtain ⟨t, valid, plain, text, point⟩ :=
      exists_pointDigits (significantDigits numerator denominator precision).1 precision
    obtain ⟨t', valid', plain', text', point'⟩ := exists_barePoint d.alternate valid plain point
    obtain ⟨valid'', text''⟩ :=
      valid'.withExponent plain' (significantDigits numerator denominator precision).2
    refine ⟨_, valid'', text''.trans (by rw [text', text]; rfl), fun alternate => ?_⟩
    simp [KeepsPoint, conversion, point' alternate]
  | general => exact exists_generalBody conversion numerator denominator

end Directive

theorem Directive.write_float {d : Directive} (float : d.conversion ≠ .integer) (x : Float) :
    d.write (.float x) = d.writeFloat (.ofFloat x) := by
  cases conversion : d.conversion with
  | integer => exact absurd conversion float
  | fixed | exponential | general => simp only [write, conversion]

/-! ## What is read -/

/-- A digit is no sign. -/
theorem splitSign_of_isDigit {c : Char} (digit : c.isDigit = true) (rest : List Char) :
    splitSign (c :: rest) = (false, c :: rest) := by
  unfold splitSign
  split <;> first | rfl | (rename_i same; cases same; exact absurd digit (by decide))

theorem readExponent?_exponentSuffix (exponent : Int) :
    readExponent? (Directive.exponentSuffix exponent) = some exponent := by
  have digits : ∀ c ∈ paddedDigits 2 exponent.natAbs, c.isDigit = true := fun c => isDigit_of_mem_paddedDigits
  have filled : (!(paddedDigits 2 exponent.natAbs).isEmpty && (paddedDigits 2 exponent.natAbs).all Char.isDigit) =
      true := by
    rw [List.all_eq_true.mpr digits, List.isEmpty_eq_false_iff.mpr paddedDigits_ne_nil]
    rfl
  have signed : splitSign ((if exponent < 0 then '-' else '+') :: paddedDigits 2 exponent.natAbs) =
      (decide (exponent < 0), paddedDigits 2 exponent.natAbs) := by
    split <;> simp_all [splitSign]
  rw [Directive.exponentSuffix, readExponent?, signed]
  dsimp only
  rw [natOfDigits_paddedDigits, decide_eq_true (Eq.refl 'e'), Bool.true_or, Bool.true_and, if_pos filled]
  simp only [decide_eq_true_eq]
  split <;> exact congrArg some (by omega)

namespace DecimalText

variable {t : DecimalText}

/-- A text of a number is read as its digits and its exponent say. -/
theorem Valid.readUnsigned? (valid : t.Valid) : readUnsigned? t.text =
    some (floatOfDecimal (natOfDigits (t.whole ++ t.fraction.getD []))
      (t.exponent.getD 0 - (t.fraction.getD []).length)) := by
  have exponent : readExponent? t.exponentPart = some (t.exponent.getD 0) := by
    rw [exponentPart]
    cases t.exponent with
    | none => rfl
    | some exponent => exact readExponent?_exponentSuffix exponent
  have stop : ∀ c ∈ t.exponentPart.head?, c.isDigit = false ∧ c ≠ '.' := by
    rw [exponentPart]
    cases t.exponent with
    | none => exact nofun
    | some exponent => simp [Directive.exponentSuffix]
  have behind : ∀ c ∈ (t.pointPart ++ t.exponentPart).head?, c.isDigit = false := by
    rw [pointPart]
    cases t.fraction with
    | none => exact fun c here => (stop c here).1
    | some fraction => simp
  have filled (fraction : List Char) : (t.whole.isEmpty && fraction.isEmpty) = false := by
    rw [List.isEmpty_eq_false_iff.mpr valid.begun, Bool.false_and]
  rw [XmlStore.readUnsigned?, text, span_append valid.whole behind]
  dsimp only
  rw [pointPart]
  cases e : t.fraction with
  | none =>
    rw [Option.elim_none, List.nil_append]
    split
    · rename_i point
      exact absurd rfl (stop '.' (by rw [point]; rfl)).2
    · rw [filled, exponent]
      rfl
  | some fraction =>
    have digits : ∀ c ∈ fraction, c.isDigit = true := fun c here => valid.fraction c (by rwa [e])
    rw [Option.elim_some, List.cons_append]
    split
    · rename_i rest same
      obtain rfl := List.tail_eq_of_cons_eq same
      rw [span_append digits fun c here => (stop c here).1, filled, exponent]
      rfl
    · rename_i other
      exact absurd rfl (other _)

end DecimalText

end XmlStore
