/-
Formats of numbers as texts. A format is literal text, in which every percent
sign is doubled, around one directive: flags, a width, a precision, length
marks and a letter. What is written so is a format, and nothing else is. A
number comes out as the literal text around what would be written of it
without a width, filled up to the width.
-/
import XmlStore.Proofs.DecimalTexts
import XmlStore.Store.Scalar

namespace XmlStore

/-! ## Literal text -/

/-- A literal text as a format writes it: every percent sign is doubled. -/
def doubled (literal : List Char) : List Char := literal.flatMap fun c => if c = '%' then ['%', '%'] else [c]

namespace NumberFormat

theorem doubled_cons {c : Char} (other : c ≠ '%') (literal : List Char) :
    doubled (c :: literal) = c :: doubled literal := by
  rw [doubled, List.flatMap_cons, if_neg other]
  rfl

/-- Literal text ends at the first percent sign that is not doubled. -/
theorem splitLiteral_doubled (literal : List Char) {rest : Option (List Char)}
    (single : ∀ text ∈ rest, text.head? ≠ some '%') :
    splitLiteral (doubled literal ++ rest.elim [] ('%' :: ·)) = (literal, rest) := by
  induction literal with
  | nil =>
    cases rest with
    | none => rfl
    | some text =>
      cases text with
      | nil => rfl
      | cons c text =>
        have other : c ≠ '%' := by simpa using single _ rfl
        simp [doubled, splitLiteral, other]
  | cons c literal ih =>
    by_cases percent : c = '%'
    · subst percent
      exact (congrArg (fun split => ('%' :: split.1, split.2)) ih)
    · rw [doubled_cons percent, List.cons_append, splitLiteral, ih]
      all_goals simp [percent]

theorem eq_of_splitLiteral {cs literal : List Char} {rest : Option (List Char)}
    (split : splitLiteral cs = (literal, rest)) : cs = doubled literal ++ rest.elim [] ('%' :: ·) := by
  fun_induction splitLiteral cs generalizing literal with
  | case1 =>
    cases split
    rfl
  | case2 cs literal' rest' _ ih =>
    cases split
    exact congrArg (fun cs => '%' :: '%' :: cs) (ih ‹_›)
  | case3 cs _ =>
    cases split
    rfl
  | case4 c cs _ other literal' rest' _ ih =>
    cases split
    rw [doubled_cons other, List.cons_append, ← ih ‹_›]

end NumberFormat

/-! ## Directives -/

/-- A directive as it is written, in its parts. -/
structure DirectiveText where
  flags : List Char
  width : List Char
  /-- The digits behind the point, if there is a point. -/
  precision : Option (List Char)
  marks : List Char
  letter : Char

namespace DirectiveText

variable {t : DirectiveText}

/-- The precision with its point, the length marks and the letter. -/
def ending (t : DirectiveText) : List Char :=
  t.precision.elim [] ('.' :: ·) ++ (t.marks ++ [t.letter])

def text (t : DirectiveText) : List Char := '%' :: (t.flags ++ (t.width ++ t.ending))

structure Valid (t : DirectiveText) : Prop where
  flags : ∀ c ∈ t.flags, c ∈ ['-', '+', ' ', '0', '#']
  width : ∀ c ∈ t.width, c.isDigit = true
  precision : ∀ c ∈ t.precision.getD [], c.isDigit = true
  marks : ∀ c ∈ t.marks, c ∈ ['h', 'l', 'L']
  letter : t.letter ∈ ['d', 'i', 'f', 'F', 'e', 'E', 'g', 'G']
  narrow : natOfDigits t.width ≤ 512
  short : natOfDigits (t.precision.getD []) ≤ 512

/-- What a directive asks for. A zero at the start of the width is the flag. -/
def directive (t : DirectiveText) : Directive where
  left := '-' ∈ t.flags
  plus := '+' ∈ t.flags
  space := ' ' ∈ t.flags
  zero := '0' ∈ t.flags ∨ t.width.head? = some '0'
  alternate := '#' ∈ t.flags
  width := natOfDigits t.width
  precision := t.precision.map natOfDigits
  conversion := if t.letter ∈ ['d', 'i'] then .integer else if t.letter ∈ ['f', 'F'] then .fixed
    else if t.letter ∈ ['e', 'E'] then .exponential else .general
  upper := t.letter ∈ ['F', 'E', 'G']

theorem Valid.conversion?_letter (valid : t.Valid) :
    Directive.conversion? t.letter = some (t.directive.conversion, t.directive.upper) := by
  have listed := valid.letter
  rw [directive]
  simp only [List.mem_cons, List.not_mem_nil, or_false] at listed
  rcases listed with h | h | h | h | h | h | h | h <;> rw [h] <;> rfl

/-- The same directive with the zeros at the start of its width among the flags. -/
def settled (t : DirectiveText) : DirectiveText :=
  { t with flags := t.flags ++ t.width.takeWhile (· = '0'), width := t.width.dropWhile (· = '0') }

theorem head?_width_settled (t : DirectiveText) : t.settled.width.head? ≠ some '0' := by
  intro zero
  have kept := List.head?_dropWhile_not (· = '0') t.width
  rw [show (t.width.dropWhile (· = '0')).head? = some '0' from zero] at kept
  exact absurd kept (by decide)

theorem text_settled (t : DirectiveText) : t.settled.text = t.text := by
  rw [text, text, settled, List.append_assoc, ← List.append_assoc (t.width.takeWhile _),
    List.takeWhile_append_dropWhile]
  rfl

theorem natOfDigits_dropWhile_zeros (cs : List Char) : natOfDigits (cs.dropWhile (· = '0')) = natOfDigits cs := by
  induction cs with
  | nil => rfl
  | cons c cs ih =>
    by_cases zero : c = '0'
    · subst zero
      exact ih
    · rw [List.dropWhile_cons_of_neg (by simpa using zero)]

theorem mem_flags_settled {flag : Char} (other : flag ≠ '0') : flag ∈ t.settled.flags ↔ flag ∈ t.flags := by
  refine List.mem_append.trans (or_iff_left fun here => ?_)
  exact other (by simpa using List.mem_takeWhile_imp here)

theorem zero_settled : '0' ∈ t.settled.flags ∨ t.settled.width.head? = some '0' ↔
    '0' ∈ t.flags ∨ t.width.head? = some '0' := by
  rw [or_iff_left t.head?_width_settled, settled, List.mem_append]
  refine or_congr_right ?_
  cases t.width with
  | nil => simp
  | cons c width => by_cases first : c = '0' <;> simp [first]

theorem directive_settled (t : DirectiveText) : t.settled.directive = t.directive := by
  have width : natOfDigits t.settled.width = natOfDigits t.width := natOfDigits_dropWhile_zeros t.width
  simp only [directive, mem_flags_settled (t := t) (by decide : '-' ≠ '0'),
    mem_flags_settled (t := t) (by decide : '+' ≠ '0'), mem_flags_settled (t := t) (by decide : ' ' ≠ '0'),
    mem_flags_settled (t := t) (by decide : '#' ≠ '0'), zero_settled, width]
  rfl

theorem Valid.settled (valid : t.Valid) : t.settled.Valid where
  flags c here := by
    rcases List.mem_append.mp here with flag | zero
    · exact valid.flags c flag
    · have : c = '0' := by simpa using List.mem_takeWhile_imp zero
      simp [this]
  width c here := valid.width c ((List.dropWhile_sublist _).subset here)
  precision := valid.precision
  marks := valid.marks
  letter := valid.letter
  narrow := (natOfDigits_dropWhile_zeros t.width).trans_le valid.narrow
  short := valid.short

variable {c : Char} {rest : List Char}

/-- Behind the precision there is a letter. -/
theorem Valid.mem_head?_letters (valid : t.Valid) (first : c ∈ (t.marks ++ t.letter :: rest).head?) :
    c.isDigit = false ∧ c ≠ '.' ∧ Directive.isFlag c = false := by
  have letters : ∀ c ∈ ['h', 'l', 'L', 'd', 'i', 'f', 'F', 'e', 'E', 'g', 'G'],
      c.isDigit = false ∧ c ≠ '.' ∧ Directive.isFlag c = false := by simp [Directive.isFlag]
  refine letters c ?_
  cases marks : t.marks with
  | nil =>
    rw [marks] at first
    obtain rfl := Option.some.inj first
    exact List.mem_append_right ['h', 'l', 'L'] valid.letter
  | cons mark more =>
    rw [marks] at first
    obtain rfl := Option.some.inj first
    exact List.mem_append_left _ (valid.marks mark (marks ▸ List.mem_cons_self))

/-- Behind the width there is a letter or the point. -/
theorem Valid.mem_head?_ending (valid : t.Valid) (first : c ∈ (t.ending ++ rest).head?) :
    c.isDigit = false ∧ Directive.isFlag c = false := by
  rw [ending] at first
  cases precision : t.precision with
  | none =>
    rw [precision, Option.elim_none, List.nil_append, List.append_assoc] at first
    have letter := valid.mem_head?_letters first
    exact ⟨letter.1, letter.2.2⟩
  | some digits =>
    rw [precision] at first
    obtain rfl := Option.some.inj first
    decide

/-- Behind the flags there is none of them, if the width starts with no zero. -/
theorem Valid.mem_head?_width (valid : t.Valid) (leading : t.width.head? ≠ some '0')
    (first : c ∈ (t.width ++ (t.ending ++ rest)).head?) : Directive.isFlag c = false := by
  cases width : t.width with
  | nil =>
    rw [width] at first
    exact (valid.mem_head?_ending first).2
  | cons digit more =>
    rw [width] at first leading
    obtain rfl := Option.some.inj first
    have isDigit := valid.width digit (width ▸ List.mem_cons_self)
    have notZero : digit ≠ '0' := fun zero => leading (congrArg some zero)
    rw [Directive.isFlag, List.contains_eq_mem, decide_eq_false_iff_not]
    intro flag
    simp only [List.mem_cons, List.not_mem_nil, or_false] at flag
    rcases flag with rfl | rfl | rfl | rfl | rfl
    all_goals first | exact absurd isDigit (by decide) | exact notZero rfl

end DirectiveText

namespace Directive

theorem readPrecision_append {digits : Option (List Char)} {rest : List Char}
    (all : ∀ c ∈ digits.getD [], c.isDigit = true) (stop : ∀ c ∈ rest.head?, c.isDigit = false ∧ c ≠ '.') :
    readPrecision (digits.elim [] ('.' :: ·) ++ rest) = (digits.map natOfDigits, rest) := by
  cases digits with
  | none =>
    rw [Option.elim_none, List.nil_append]
    unfold readPrecision
    split
    · exact absurd rfl (stop '.' rfl).2
    · rfl
  | some digits =>
    have spanned := span_append all fun c here => (stop c here).1
    rw [Option.elim_some, List.cons_append, readPrecision]
    exact congrArg (fun split => (some (natOfDigits split.1), split.2)) spanned

theorem exists_readPrecision (cs : List Char) : ∃ (digits : Option (List Char)) (rest : List Char),
    readPrecision cs = (digits.map natOfDigits, rest) ∧ cs = digits.elim [] ('.' :: ·) ++ rest ∧
    ∀ c ∈ digits.getD [], c.isDigit = true := by
  unfold readPrecision
  split
  · rename_i behind
    refine ⟨some (behind.takeWhile Char.isDigit), behind.dropWhile Char.isDigit, ?_, ?_, ?_⟩
    · rw [List.span_eq_takeWhile_dropWhile]
      rfl
    · rw [Option.elim_some, List.cons_append, List.takeWhile_append_dropWhile]
    · exact fun c here => List.mem_takeWhile_imp here
  · exact ⟨none, cs, rfl, rfl, nofun⟩

theorem letter_of_conversion? {letter : Char} {found : Conversion × Bool} (known : conversion? letter = some found) :
    letter ∈ ['d', 'i', 'f', 'F', 'e', 'E', 'g', 'G'] := by
  unfold conversion? at known
  split at known <;> first | (simp; done) | cases known

theorem read?_leading {t : DirectiveText} (valid : t.Valid) (leading : t.width.head? ≠ some '0') (rest : List Char) :
    read? (t.flags ++ (t.width ++ (t.ending ++ rest))) = some (t.directive, rest) := by
  have flags : ∀ c ∈ t.flags, isFlag c = true := fun c here => by simpa [isFlag] using valid.flags c here
  have marks : ∀ c ∈ t.marks, isLengthMark c = true := fun c here => by
    have listed := valid.marks c here
    simp only [List.mem_cons, List.not_mem_nil, or_false] at listed
    rcases listed with rfl | rfl | rfl <;> rfl
  have ending : t.ending ++ rest = t.precision.elim [] ('.' :: ·) ++ (t.marks ++ t.letter :: rest) := by
    simp [DirectiveText.ending]
  have precision : readPrecision (t.precision.elim [] ('.' :: ·) ++ (t.marks ++ t.letter :: rest)) =
      (t.precision.map natOfDigits, t.marks ++ t.letter :: rest) :=
    readPrecision_append valid.precision fun c first =>
      ⟨(valid.mem_head?_letters first).1, (valid.mem_head?_letters first).2.1⟩
  have letter : (t.marks ++ t.letter :: rest).dropWhile isLengthMark = t.letter :: rest := by
    have other : ¬ isLengthMark t.letter = true := by
      have listed := valid.letter
      simp only [List.mem_cons, List.not_mem_nil, or_false] at listed
      rcases listed with h | h | h | h | h | h | h | h <;> rw [h] <;> decide
    rw [List.dropWhile_append_of_pos marks, List.dropWhile_cons_of_neg other]
  have within : ¬ (decide (natOfDigits t.width > fieldLimit) ||
      (t.precision.map natOfDigits).any (· > fieldLimit)) = true := by
    have short := valid.short
    rw [Bool.or_eq_true, decide_eq_true_eq, not_or]
    refine ⟨Nat.not_lt_of_le valid.narrow, ?_⟩
    cases e : t.precision with
    | none => exact Bool.false_ne_true
    | some digits =>
      rw [e, Option.getD_some] at short
      exact (decide_eq_true_iff.not.mpr (Nat.not_lt_of_le short))
  have zero : '0' ∈ t.flags ∨ t.width.head? = some '0' ↔ '0' ∈ t.flags := or_iff_left leading
  rw [read?, span_append flags fun c => valid.mem_head?_width leading]
  dsimp only
  rw [span_append valid.width fun c first => (valid.mem_head?_ending first).1, ending]
  dsimp only
  rw [precision]
  dsimp only
  rw [if_neg within, letter]
  dsimp only
  rw [valid.conversion?_letter]
  simp [DirectiveText.directive, zero]

/-- A percent sign behind another one starts no directive. -/
theorem read?_percent (rest : List Char) : read? ('%' :: rest) = none := by
  have flags : ([] ++ '%' :: rest).span isFlag = ([], '%' :: rest) := span_append nofun (by simp [isFlag])
  have width : ([] ++ '%' :: rest).span Char.isDigit = ([], '%' :: rest) := span_append nofun (by simp)
  rw [List.nil_append] at flags width
  rw [read?, flags]
  dsimp only
  rw [width]
  rfl

/-- A directive is read as it is written. -/
theorem read?_text {t : DirectiveText} (valid : t.Valid) (rest : List Char) :
    read? (t.flags ++ (t.width ++ (t.ending ++ rest))) = some (t.directive, rest) := by
  have same : t.flags ++ (t.width ++ (t.ending ++ rest)) =
      t.settled.flags ++ (t.settled.width ++ (t.settled.ending ++ rest)) := by
    have texts := List.tail_eq_of_cons_eq t.text_settled
    simp only [← List.append_assoc] at texts ⊢
    rw [texts]
  rw [← t.directive_settled, same]
  exact read?_leading valid.settled t.head?_width_settled rest

/-- Only what is written like a directive is read as one. -/
theorem exists_text_of_read? {cs rest : List Char} {d : Directive} (read : read? cs = some (d, rest)) :
    ∃ t : DirectiveText, t.Valid ∧ cs = t.flags ++ (t.width ++ (t.ending ++ rest)) ∧ t.directive = d := by
  have known := read
  rw [read?, List.span_eq_takeWhile_dropWhile] at read
  dsimp only at read
  rw [List.span_eq_takeWhile_dropWhile] at read
  dsimp only at read
  obtain ⟨digits, behind, precision, parted, all⟩ :=
    exists_readPrecision ((cs.dropWhile isFlag).dropWhile Char.isDigit)
  rw [precision] at read
  dsimp only at read
  split at read
  · cases read
  rename_i within
  split at read
  · cases read
  rename_i letter more ending
  obtain ⟨⟨conversion, upper⟩, found, read⟩ := Option.bind_eq_some_iff.mp read
  obtain rfl : more = rest := congrArg Prod.snd (Option.some.inj read)
  let t : DirectiveText := ⟨cs.takeWhile isFlag, (cs.dropWhile isFlag).takeWhile Char.isDigit, digits,
    behind.takeWhile isLengthMark, letter⟩
  have valid : t.Valid := {
    flags := fun c here => by simpa [isFlag] using List.mem_takeWhile_imp here
    width := fun c here => List.mem_takeWhile_imp here
    precision := all
    marks := fun c here => by
      have mark : c = 'l' ∨ c = 'h' ∨ c = 'L' := by simpa [isLengthMark] using List.mem_takeWhile_imp here
      rcases mark with rfl | rfl | rfl <;> simp
    letter := letter_of_conversion? found
    narrow := by
      rw [Bool.or_eq_true, not_or, decide_eq_true_eq] at within
      exact Nat.le_of_not_lt within.1
    short := by
      rw [Bool.or_eq_true, not_or] at within
      cases digits with
      | none => exact Nat.zero_le 512
      | some digits => exact Nat.le_of_not_lt (decide_eq_true_iff.not.mp within.2) }
  have text : cs = t.flags ++ (t.width ++ (t.ending ++ more)) := by
    have marked : behind = t.marks ++ t.letter :: more := by
      rw [← List.takeWhile_append_dropWhile (p := isLengthMark) (l := behind), ending]
    calc cs = t.flags ++ (t.width ++ (cs.dropWhile isFlag).dropWhile Char.isDigit) := by
          rw [List.takeWhile_append_dropWhile, List.takeWhile_append_dropWhile]
      _ = t.flags ++ (t.width ++ (t.ending ++ more)) := by
          rw [parted, marked, DirectiveText.ending]
          simp only [List.append_assoc, List.singleton_append]
          rfl
  refine ⟨t, valid, text, ?_⟩
  rw [text, read?_text valid] at known
  exact congrArg Prod.fst (Option.some.inj known)

end Directive

/-! ## Formats -/

/-- A format is a directive between two literal texts. -/
theorem NumberFormat.ofString_eq_ok_iff {s : String} {f : NumberFormat} : ofString s = .ok f ↔
    ∃ t : DirectiveText, t.Valid ∧ s.toList = doubled f.before ++ (t.text ++ doubled f.after) ∧
      t.directive = f.directive := by
  constructor
  · intro accepted
    unfold ofString at accepted
    split at accepted
    · cases accepted
    rename_i before rest first
    split at accepted
    · cases accepted
    rename_i directive behind read
    split at accepted
    · rename_i after last
      obtain rfl := Except.ok.inj accepted
      obtain ⟨t, valid, text, same⟩ := Directive.exists_text_of_read? read
      refine ⟨t, valid, ?_, same⟩
      rw [eq_of_splitLiteral first, text, eq_of_splitLiteral last, DirectiveText.text]
      simp
    · cases accepted
  · rintro ⟨t, valid, text, same⟩
    have read := Directive.read?_text valid (doubled f.after)
    have single : ∀ rest ∈ some (t.flags ++ (t.width ++ (t.ending ++ doubled f.after))), rest.head? ≠ some '%' := by
      intro rest same percent
      obtain rfl := Option.some.inj same
      obtain ⟨behind, starts⟩ := List.head?_eq_some_iff.mp percent
      rw [starts, Directive.read?_percent] at read
      cases read
    have first := splitLiteral_doubled f.before single
    have ended : ∀ rest ∈ (none : Option (List Char)), rest.head? ≠ some '%' := nofun
    have last := splitLiteral_doubled f.after ended
    rw [Option.elim_none, List.append_nil] at last
    have parted : s.toList = doubled f.before ++
        (some (t.flags ++ (t.width ++ (t.ending ++ doubled f.after)))).elim [] ('%' :: ·) := by
      rw [text, DirectiveText.text]
      simp
    rw [ofString, parted, first]
    dsimp only
    rw [read]
    dsimp only
    rw [last, same]

/-! ## Widths -/

/-- The double that is written of a number, where it is not written as an integer. -/
def FormatValue.binary : FormatValue → Binary
  | integer n => .ofFloat (Float.ofInt n)
  | float x => .ofFloat x

namespace Directive

variable {d : Directive} {sign body : List Char} {c : Char}

/-- The directive without a width and without the flags that say how to fill up to it. -/
def unfilled (d : Directive) : Directive := { d with left := false, zero := false, width := 0 }

def isSign (c : Char) : Bool := ['-', '+', ' '].contains c

/-- Whether zeros may fill up a number: an integer if no precision is given, another one if it is finite. -/
def fitsZeros (d : Directive) (value : FormatValue) : Bool :=
  match d.conversion with
  | .integer => d.precision.isNone
  | _ => value.binary.isFinite

/-- What is written of a number, filled up to the width: with spaces behind it, with zeros behind its sign or with
spaces before it. -/
def filled (d : Directive) (zeros : Bool) (bare : List Char) : List Char :=
  let missing := d.width - bare.length
  if d.left then bare ++ List.replicate missing ' '
  else if d.zero && zeros then bare.takeWhile isSign ++ List.replicate missing '0' ++ bare.dropWhile isSign
  else List.replicate missing ' ' ++ bare

theorem length_filled (d : Directive) (zeros : Bool) (bare : List Char) :
    (d.filled zeros bare).length = max d.width bare.length := by
  have parted : (bare.takeWhile isSign).length + (bare.dropWhile isSign).length = bare.length := by
    rw [← List.length_append, List.takeWhile_append_dropWhile]
  rw [filled]
  split
  · rw [List.length_append, List.length_replicate]
    omega
  · split
    · rw [List.length_append, List.length_append, List.length_replicate]
      omega
    · rw [List.length_append, List.length_replicate]
      omega

theorem isSign_of_isDigit (digit : c.isDigit = true) : isSign c = false := by
  rw [isSign, List.contains_eq_mem, decide_eq_false_iff_not]
  intro listed
  simp only [List.mem_cons, List.not_mem_nil, or_false] at listed
  rcases listed with rfl | rfl | rfl <;> exact absurd digit (by decide)

theorem toUpper_of_isDigit (digit : c.isDigit = true) : c.toUpper = c := by
  have notLower : ¬ (c.val ≥ 'a'.val ∧ c.val ≤ 'z'.val) := by
    intro lower
    simp only [Char.isDigit, Bool.and_eq_true, decide_eq_true_eq] at digit
    have bounds := lower.1
    have := digit.2
    simp only [ge_iff_le, UInt32.le_iff_toNat_le] at bounds this
    exact absurd (Nat.le_trans bounds this) (by decide)
  rw [Char.toUpper]
  split
  · rename_i lower
    exact absurd lower notLower
  · rfl

theorem pad_unfilled (d : Directive) (sign body : List Char) (zeros : Bool) :
    d.unfilled.pad sign body zeros = sign ++ body := by
  simp [pad, unfilled]

/-- Zeros go between the sign and what starts with none. -/
theorem pad_eq_filled (zeros : Bool) (signs : ∀ c ∈ sign, isSign c = true)
    (other : ∀ c ∈ body.head?, isSign c = false) : d.pad sign body zeros = d.filled zeros (sign ++ body) := by
  have parted := span_append signs other
  rw [List.span_eq_takeWhile_dropWhile] at parted
  obtain ⟨taken, dropped⟩ := Prod.mk.inj parted
  rw [pad, filled, taken, dropped, List.length_append]
  simp only [List.append_assoc]

theorem isSign_of_mem_sign {negative : Bool} (here : c ∈ d.sign negative) : isSign c = true := by
  rw [sign] at here
  split at here
  · rw [List.mem_singleton.mp here]
    rfl
  · split at here
    · rw [List.mem_singleton.mp here]
      rfl
    · split at here
      · rw [List.mem_singleton.mp here]
        rfl
      · cases here

theorem isDigit_of_mem_integerBody {precision : Option Nat} {n : Nat} (here : c ∈ integerBody precision n) :
    c.isDigit = true := by
  unfold integerBody at here
  split at here
  · split at here
    · cases here
    · exact isDigit_of_mem_toDigits here
  · exact isDigit_of_mem_paddedDigits here
  · exact isDigit_of_mem_toDigits here

theorem writeInteger_eq_filled (d : Directive) (n : Int) :
    d.writeInteger n = d.filled d.precision.isNone (d.unfilled.writeInteger n) := by
  have bare : d.unfilled.writeInteger n = d.sign (n < 0) ++ integerBody d.precision n.natAbs := pad_unfilled ..
  rw [bare, writeInteger]
  refine pad_eq_filled _ (fun c => isSign_of_mem_sign) fun c first => ?_
  exact isSign_of_isDigit (isDigit_of_mem_integerBody (List.mem_of_mem_head? first))

/-- What is written of a finite number, its sign aside, starts with a digit. -/
theorem isSign_of_mem_magnitude (float : d.conversion ≠ .integer) {numerator denominator : Nat}
    (first : c ∈ (d.inCase (d.magnitude numerator denominator)).head?) : isSign c = false := by
  obtain ⟨t, valid, text, -⟩ := exists_magnitude float numerator denominator
  obtain ⟨digit, rest, begins, isDigit⟩ := valid.exists_head
  rw [← text, begins, inCase] at first
  have same : c = digit := by
    split at first
    · rw [List.map_cons, toUpper_of_isDigit isDigit] at first
      exact (Option.some.inj first).symm
    · exact (Option.some.inj first).symm
  exact isSign_of_isDigit (same ▸ isDigit)

theorem writeFloat_eq_filled (float : d.conversion ≠ .integer) (b : Binary) :
    d.writeFloat b = d.filled b.isFinite (d.unfilled.writeFloat b) := by
  have word {word : List Char} {negative zeros : Bool} (letters : ∀ c ∈ (d.inCase word).head?, isSign c = false) :
      d.pad (d.sign negative) (d.inCase word) zeros =
        d.filled zeros (d.unfilled.pad (d.sign negative) (d.inCase word) zeros) := by
    rw [pad_unfilled]
    exact pad_eq_filled zeros (fun c => isSign_of_mem_sign) letters
  cases b with
  | nan => exact word (by rw [inCase]; cases d.upper <;> simp [isSign])
  | infinite negative => exact word (by rw [inCase]; cases d.upper <;> simp [isSign])
  | finite negative mantissa exponent => exact word fun c => isSign_of_mem_magnitude float

/-- What is written of a number is what would be written without a width, filled up to the width. -/
theorem write_eq_filled (d : Directive) (value : FormatValue) :
    d.write value = d.filled (d.fitsZeros value) (d.unfilled.write value) := by
  have same : d.unfilled.conversion = d.conversion := rfl
  cases conversion : d.conversion with
  | integer =>
    cases value <;> simp only [write, same, fitsZeros, conversion] <;> exact writeInteger_eq_filled ..
  | fixed | exponential | general =>
    have float : d.conversion ≠ .integer := by
      rw [conversion]
      decide
    cases value <;> simp only [write, same, fitsZeros, conversion] <;> exact writeFloat_eq_filled float _

end Directive

/-! ## Numbers in formats -/

section

variable {format : String} {before after : List Char} {t : DirectiveText} {value : FormatValue}

/-- Between the literal texts of a format stands what its directive makes of the number. -/
theorem writeNumber_text (valid : t.Valid) (text : format.toList = doubled before ++ (t.text ++ doubled after)) :
    writeNumber format value = .ok (String.ofList (before ++ (t.directive.write value ++ after))) := by
  have known : NumberFormat.ofString format = .ok ⟨before, t.directive, after⟩ :=
    NumberFormat.ofString_eq_ok_iff.mpr ⟨t, valid, text, rfl⟩
  rw [writeNumber, known, ← List.append_assoc]
  rfl

theorem exists_of_writeNumber {result : String} (written : writeNumber format value = .ok result) :
    ∃ before after t, DirectiveText.Valid t ∧ format.toList = doubled before ++ (t.text ++ doubled after) := by
  unfold writeNumber at written
  split at written
  · rename_i f known
    obtain ⟨t, valid, text, -⟩ := NumberFormat.ofString_eq_ok_iff.mp known
    exact ⟨f.before, f.after, t, valid, text⟩
  · cases written

end

/-- A number is written in a format exactly if the format is a directive between two literal texts, in which every
percent sign is doubled. The number then stands between the literal texts, filled up to the width. -/
theorem number_written_iff (format result : String) (value : FormatValue) :
    (match value with
      | .integer n => writeInteger (some format) n
      | .float x => writeFloat (some format) x) = .ok result ↔
    ∃ before after t, DirectiveText.Valid t ∧ format.toList = doubled before ++ (t.text ++ doubled after) ∧
      ∃ converted, result.toList = before ++ (converted ++ after) ∧
        converted = t.directive.filled (t.directive.fitsZeros value) (t.directive.unfilled.write value) ∧
        natOfDigits t.width ≤ converted.length := by
  have asked : (match value with
      | .integer n => writeInteger (some format) n
      | .float x => writeFloat (some format) x) = writeNumber format value := by cases value <;> rfl
  have wide (t : DirectiveText) (zeros : Bool) (bare : List Char) :
      natOfDigits t.width ≤ (t.directive.filled zeros bare).length :=
    (Nat.le_max_left ..).trans_eq (t.directive.length_filled zeros bare).symm
  rw [asked]
  constructor
  · intro written
    obtain ⟨before, after, t, valid, text⟩ := exists_of_writeNumber written
    rw [writeNumber_text valid text] at written
    refine ⟨before, after, t, valid, text, t.directive.write value, ?_, t.directive.write_eq_filled value, ?_⟩
    · rw [← Except.ok.inj written, String.toList_ofList]
    · rw [t.directive.write_eq_filled]
      exact wide ..
  · rintro ⟨before, after, t, valid, text, converted, out, filled, -⟩
    rw [writeNumber_text valid text, t.directive.write_eq_filled, ← filled, ← out, String.ofList_toList]

/-- A zero in front of the width is the flag, so that zeros fill up behind the sign. -/
example : writeFloat (some "%%%+09.2lf%%") 3 = .ok "%+00003.00%" := by decide +kernel

end XmlStore
