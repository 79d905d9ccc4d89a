/-
The texts of vectors. A number in the default format has no semicolon and no
white space in it and is read as a number again. Such texts with semicolons
between them are found piece by piece, whatever gaps stand behind them; and
anything else behind them becomes part of the pieces.
-/
import XmlStore.Proofs.DecimalTexts
import XmlStore.Store.Numbers

namespace XmlStore

/-! ## Pieces -/

/-- What may stand between the numbers of a vector. -/
def isGap (c : Char) : Bool := isSpace c || c = ';'

/-- The pieces of a text at its semicolons, white space around them and empty ones left out. -/
def gapPieces (cs : List Char) : List (List Char) :=
  ((cs.splitOn ';').map (trimBy isSpace)).filter (!·.isEmpty)

section

variable {cs front rest : List Char} {pieces : List (List Char)} {c : Char}

theorem vectorPieces_eq (text : String) : vectorPieces text = (gapPieces text.toList).map String.ofList := by
  have empty (cs : List Char) : (String.ofList cs).isEmpty = cs.isEmpty := by
    rw [Bool.eq_iff_iff, String.isEmpty_iff, List.isEmpty_iff, String.ofList_eq_empty_iff]
  have composed : (fun piece => String.ofList (trimBy isSpace piece)) = String.ofList ∘ trimBy isSpace := rfl
  rw [vectorPieces, composed, ← List.map_map, List.filter_map]
  simp only [Function.comp_def, empty]
  rfl

theorem gapPieces_append (cs rest : List Char) : gapPieces (cs ++ ';' :: rest) = gapPieces cs ++ gapPieces rest := by
  have split : (cs ++ ';' :: rest).splitOn ';' = cs.splitOn ';' ++ rest.splitOn ';' :=
    List.splitOnP_append_cons cs rest rfl
  rw [gapPieces, split, List.map_append, List.filter_append]
  rfl

theorem isSpace_ne_semicolon (space : isSpace c = true) : c ≠ ';' := by
  rintro rfl
  exact absurd space (by decide)

theorem not_isGap : isGap c = false ↔ isSpace c = false ∧ c ≠ ';' := by
  rw [isGap, Bool.or_eq_false_iff, decide_eq_false_iff_not]

theorem gapPieces_single (solid : ∀ c ∈ cs, isGap c = false) (blank : ∀ c ∈ rest, isSpace c = true) :
    gapPieces (cs ++ rest) = [cs].filter (!·.isEmpty) := by
  have whole : ';' ∉ cs ++ rest := by
    intro here
    rcases List.mem_append.mp here with inner | outer
    · exact absurd (solid _ inner) (by decide)
    · exact isSpace_ne_semicolon (blank _ outer) rfl
  have trimmed : trimBy isSpace ([] ++ (cs ++ rest)) = cs :=
    trimBy_append nofun blank fun c here => (not_isGap.mp (solid c here)).1
  rw [List.nil_append] at trimmed
  rw [gapPieces, List.splitOn_eq_singleton whole, List.map_singleton, trimmed]

/-- White space and semicolons behind a text add no pieces. -/
theorem gapPieces_append_gaps (solid : ∀ c ∈ cs, isGap c = false) (gaps : ∀ c ∈ rest, isGap c = true) :
    gapPieces (cs ++ rest) = [cs].filter (!·.isEmpty) := by
  have behind (blank : List Char) (blanks : ∀ c ∈ blank, isSpace c = true) :
      gapPieces (cs ++ (blank ++ rest)) = [cs].filter (!·.isEmpty) := by
    induction rest generalizing cs blank with
    | nil =>
      rw [List.append_nil]
      exact gapPieces_single solid blanks
    | cons c rest ih =>
      rw [List.forall_mem_cons] at gaps
      rcases Bool.or_eq_true_iff.mp gaps.1 with space | semicolon
      · have longer : ∀ d ∈ blank ++ [c], isSpace d = true := by
          simpa [or_imp, forall_and, space] using blanks
        simpa using ih solid gaps.2 (blank ++ [c]) longer
      · obtain rfl : c = ';' := by simpa using semicolon
        have none : gapPieces ([] ++ ([] ++ rest)) = [] :=
          ih (List.forall_mem_nil _) gaps.2 [] (List.forall_mem_nil _)
        rw [List.nil_append, List.nil_append] at none
        rw [← List.append_assoc, gapPieces_append, gapPieces_single solid blanks, none, List.append_nil]
  exact behind [] (List.forall_mem_nil _)

theorem filter_trimBy (cs : List Char) : (trimBy isSpace cs).filter (!isGap ·) = cs.filter (!isGap ·) := by
  have dropped (cs : List Char) : (cs.dropWhile isSpace).filter (!isGap ·) = cs.filter (!isGap ·) := by
    have gone : (cs.takeWhile isSpace).filter (!isGap ·) = [] := by
      refine List.filter_eq_nil_iff.mpr fun c here => ?_
      simp [isGap, List.mem_takeWhile_imp here]
    conv_rhs => rw [← List.takeWhile_append_dropWhile (p := isSpace) (l := cs), List.filter_append, gone]
    rfl
  rw [trimBy, List.filter_reverse, dropped, List.filter_reverse, List.reverse_reverse, dropped]

/-- Nothing but gaps is left out of the pieces. -/
theorem filter_flatten_gapPieces (cs : List Char) :
    (gapPieces cs).flatten.filter (!isGap ·) = cs.filter (!isGap ·) := by
  rw [gapPieces, List.flatten_filter_not_isEmpty, List.filter_flatten, List.map_map]
  simp only [Function.comp_def, filter_trimBy]
  rw [← List.filter_flatten]
  induction cs with
  | nil => rfl
  | cons c cs ih =>
    obtain ⟨first, others, parted⟩ := List.exists_cons_of_ne_nil (List.splitOn_ne_nil ';' cs)
    rw [List.splitOn_cons_eq_if_modifyHead, parted]
    rw [parted] at ih
    split
    · rename_i semicolon
      have gap : ¬ (!isGap c) = true := by simp [isGap, beq_iff_eq.mp semicolon]
      rw [List.flatten_cons, List.nil_append, ih]
      exact (List.filter_cons_of_neg (p := (!isGap ·)) gap).symm
    · rw [List.modifyHead_cons, List.flatten_cons, List.cons_append, ← List.flatten_cons, List.filter_cons, ih]
      exact (List.filter_cons (p := (!isGap ·))).symm

theorem gapPieces_intercalate (some : pieces ≠ []) (filled : ∀ piece ∈ pieces, piece ≠ [])
    (solid : ∀ piece ∈ pieces, ∀ c ∈ piece, isGap c = false) (gaps : ∀ c ∈ rest, isGap c = true) :
    gapPieces ([';'].intercalate pieces ++ rest) = pieces := by
  induction pieces with
  | nil => exact absurd rfl some
  | cons piece pieces ih =>
    rw [List.forall_mem_cons] at filled solid
    have one : [piece].filter (!·.isEmpty) = [piece] := by simp [filled.1]
    cases pieces with
    | nil => rw [List.intercalate_singleton, gapPieces_append_gaps solid.1 gaps, one]
    | cons next pieces =>
      have alone : gapPieces (piece ++ []) = [piece] := (gapPieces_single solid.1 (List.forall_mem_nil _)).trans one
      rw [List.append_nil] at alone
      rw [List.intercalate_cons_cons, List.append_assoc, List.append_assoc, List.singleton_append, gapPieces_append,
        alone, ih (List.cons_ne_nil _ _) filled.2 solid.2]
      rfl

/-- Texts with semicolons between them are the pieces of what they are joined to, exactly if nothing but gaps stands
behind them. -/
theorem vectorPieces_intercalate_iff {texts : List String} {rest : String} (some : texts ≠ [])
    (filled : ∀ text ∈ texts, text ≠ "") (solid : ∀ text ∈ texts, ∀ c ∈ text.toList, isGap c = false) :
    vectorPieces (";".intercalate texts ++ rest) = texts ↔ ∀ c ∈ rest.toList, isGap c = true := by
  let pieces := texts.map String.toList
  have joined : (";".intercalate texts ++ rest).toList = [';'].intercalate pieces ++ rest.toList := by
    rw [String.toList_append, String.toList_intercalate]
    rfl
  have back : pieces.map String.ofList = texts := by
    rw [List.map_map]
    exact (List.map_congr_left fun text _ => String.ofList_toList).trans (List.map_id texts)
  have same : vectorPieces (";".intercalate texts ++ rest) = texts ↔
      gapPieces ([';'].intercalate pieces ++ rest.toList) = pieces := by
    rw [vectorPieces_eq, joined, ← back]
    exact (List.map_injective_iff.mpr fun _ _ => String.ofList_injective).eq_iff
  have solids : ∀ piece ∈ pieces, ∀ c ∈ piece, isGap c = false := List.forall_mem_map.mpr solid
  have fulls : ∀ piece ∈ pieces, piece ≠ [] :=
    List.forall_mem_map.mpr fun text listed empty => filled text listed (String.toList_eq_nil_iff.mp empty)
  have several : pieces ≠ [] := mt List.map_eq_nil_iff.mp some
  rw [same]
  constructor
  · intro found c here
    -- What is no gap would be among the pieces as often as in the whole text.
    have kept := filter_flatten_gapPieces ([';'].intercalate pieces ++ rest.toList)
    have alone := filter_flatten_gapPieces ([';'].intercalate pieces ++ [])
    rw [gapPieces_intercalate several fulls solids (List.forall_mem_nil _), List.append_nil] at alone
    rw [found, alone, List.filter_append, List.self_eq_append_right, List.filter_eq_nil_iff] at kept
    simpa using kept c here
  · exact gapPieces_intercalate several fulls solids

end

/-! ## Numbers in the default format -/

theorem isGap_of_isDigit {c : Char} (digit : c.isDigit = true) : isGap c = false := by
  refine not_isGap.mpr ⟨isSpace_of_isDigit digit, ?_⟩
  rintro rfl
  exact absurd digit (by decide)

/-- A text that is read as a number without sign, and has no gaps. -/
structure Unsigned (body : List Char) : Prop where
  filled : body ≠ []
  solid : ∀ c ∈ body, isGap c = false
  bare : splitSign body = (false, body)
  read : ((readNumberWord? body).or (readUnsigned? body)).isSome = true

namespace Unsigned

theorem nan : Unsigned "nan".toList :=
  ⟨by decide, by simp [isGap, isSpace, Ranges.has, spaces], by decide, by decide +kernel⟩

theorem infinite : Unsigned "inf".toList :=
  ⟨by decide, by simp [isGap, isSpace, Ranges.has, spaces], by decide, by decide +kernel⟩

theorem decimal {t : DecimalText} (valid : t.Valid) : Unsigned t.text := by
  obtain ⟨c, rest, begins, digit⟩ := valid.exists_head
  refine ⟨by simp [begins], fun c here => ?_, ?_, ?_⟩
  · rcases valid.mem_text here with digit | listed
    · exact isGap_of_isDigit digit
    · simp only [List.mem_cons, List.not_mem_nil, or_false] at listed
      rcases listed with rfl | rfl | rfl | rfl <;> decide
  · rw [begins, splitSign_of_isDigit digit]
  · rw [Option.isSome_or, valid.readUnsigned?, Option.isSome_some, Bool.or_true]

/-- With a minus sign or without one the text is read as a number. -/
theorem readFloat? {mark body : List Char} (number : Unsigned body) (signed : mark = [] ∨ mark = ['-']) :
    (readFloat? (mark ++ body)).isSome = true := by
  have parted : splitSign (mark ++ body) = (decide (mark = ['-']), body) := by
    rcases signed with rfl | rfl
    · exact number.bare
    · rfl
  rw [XmlStore.readFloat?, parted]
  dsimp only
  rw [Option.isSome_map, number.read]

end Unsigned

namespace Directive

/-- The directive of the default format. -/
def plain : Directive := ⟨false, false, false, false, false, 0, none, .general, false⟩

/-- In the default format a number is written with a minus sign or with no sign, and nothing is filled up. -/
theorem exists_unsigned (b : Binary) : ∃ mark body, plain.writeFloat b = mark ++ body ∧
    (mark = [] ∨ mark = ['-']) ∧ Unsigned body := by
  have bare (sign body : List Char) (zeros : Bool) : plain.pad sign body zeros = sign ++ body := by simp [pad, plain]
  have signs (negative : Bool) : plain.sign negative = [] ∨ plain.sign negative = ['-'] := by
    cases negative
    · exact .inl rfl
    · exact .inr rfl
  cases b with
  | nan => exact ⟨_, _, bare _ _ false, signs false, .nan⟩
  | infinite negative => exact ⟨_, _, bare _ _ false, signs negative, .infinite⟩
  | finite negative mantissa exponent =>
    let ratio := Binary.ratio mantissa exponent
    have float : plain.conversion ≠ .integer := by decide
    obtain ⟨t, valid, text, -⟩ := exists_magnitude float ratio.1 ratio.2
    exact ⟨_, _, bare _ _ true, signs negative, text ▸ .decimal valid⟩

end Directive

/-- What is written in the default format has no gaps, and is read as a number. -/
theorem written_default (x : Float) : ∃ cs, writeFloat none x = .ok (String.ofList cs) ∧ cs ≠ [] ∧
    (∀ c ∈ cs, isGap c = false) ∧ (readFloat? cs).isSome = true := by
  have known : NumberFormat.ofString defaultFloatFormat = .ok ⟨[], .plain, []⟩ := by decide +kernel
  have written : writeFloat none x = .ok (String.ofList (Directive.plain.writeFloat (.ofFloat x))) := by
    rw [writeFloat, writeNumber, Option.getD_none, known]
    dsimp only
    rw [NumberFormat.write, List.nil_append, List.append_nil, Directive.write_float (by decide)]
  obtain ⟨mark, body, text, signed, number⟩ := Directive.exists_unsigned (.ofFloat x)
  rw [text] at written
  refine ⟨mark ++ body, written, List.append_ne_nil_of_right_ne_nil _ number.filled, fun c here => ?_,
    number.readFloat? signed⟩
  rcases List.mem_append.mp here with sign | inner
  · rcases signed with rfl | rfl
    · cases sign
    · rw [List.mem_singleton.mp sign]
      decide
  · exact number.solid c inner

end XmlStore
