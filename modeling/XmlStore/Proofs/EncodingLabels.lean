/-
The label of an encoding in the text of an XML declaration. However the
declaration is spelled, a search for the word `encoding` ends at its label,
if it does not end in its version.
-/
import Mathlib.Data.Bool.AllAny
import XmlStore.Proofs.Searches

namespace XmlStore

namespace Cursor

variable {c d e f : Cursor} {name version value : String} {declaration : Declaration}

/-! ## How a declaration is spelled -/

/-- The ways to spell a setting of a declaration. Blanks may stand around the equals sign. -/
inductive Setting (name : String) : Option String → List Char → Prop where
  | absent : Setting name none []
  | given {value : String} {before behind : List Char} {quote : Char} (blank : ∀ ch ∈ before, isBlank ch = true)
      (blank' : ∀ ch ∈ behind, isBlank ch = true) (quotes : isQuote quote = true) (free : quote ∉ value.toList) :
      Setting name (some value)
        (name.toList ++ (before ++ '=' :: (behind ++ quote :: (value.toList ++ [quote]))))

/-- The ways to spell a declaration up to the `?>`. -/
inductive SpellsDeclaration : Declaration → List Char → Prop where
  | intro {version : String} {encoding answer : Option String} {standalone : Option Bool}
      {blanks₀ blanks₁ blanks₂ blanks₃ text₁ text₂ text₃ : List Char} (blank₀ : ∀ ch ∈ blanks₀, isBlank ch = true)
      (blank₁ : ∀ ch ∈ blanks₁, isBlank ch = true) (blank₂ : ∀ ch ∈ blanks₂, isBlank ch = true)
      (blank₃ : ∀ ch ∈ blanks₃, isBlank ch = true) (first : Setting "version" (some version) text₁)
      (second : Setting "encoding" encoding text₂) (third : Setting "standalone" answer text₃)
      (answers : ∀ s ∈ answer, s = "yes" ∨ s = "no") :
      SpellsDeclaration ⟨some version, encoding, standalone⟩
        ("<?xml".toList ++ (blanks₀ ++ (text₁ ++ (blanks₁ ++ (text₂ ++ (blanks₂ ++ (text₃ ++ blanks₃)))))))

theorem rest_eq_skipBlanks (c : Cursor) :
    ∃ blanks, (∀ ch ∈ blanks, isBlank ch = true) ∧ c.rest = blanks ++ c.skipBlanks.rest :=
  ⟨c.rest.takeWhile isBlank, List.all_eq_true.mp List.all_takeWhile, by
    rw [rest_skipBlanks, List.takeWhile_append_dropWhile]⟩

theorem setting_of_read (named : c.expectWord name = .ok d) (sign : d.expectEquals = .ok e)
    (literal : e.readLiteral = .ok (value, f)) : ∃ text, Setting name (some value) text ∧ c.rest = text ++ f.rest := by
  obtain ⟨d', equals, sign⟩ := bind_eq_ok.1 sign
  cases sign
  obtain ⟨before, blank, skipped⟩ := rest_eq_skipBlanks d
  obtain ⟨behind, blank', skipped'⟩ := rest_eq_skipBlanks d'
  obtain ⟨quote, quotes, free, spelled⟩ := literal_of_readLiteral literal
  refine ⟨_, .given blank blank' quotes free, ?_⟩
  rw [rest_of_expectWord named, skipped, rest_of_expect equals, skipped', spelled]
  simp

theorem setting_of_readSetting {value : Option String} (h : c.readSetting name = .ok (value, d)) :
    ∃ text, Setting name value text ∧ c.rest = text ++ d.rest := by
  rw [readSetting] at h
  split at h
  · obtain ⟨c₁, named, h⟩ := bind_eq_ok.1 h
    obtain ⟨c₂, sign, h⟩ := bind_eq_ok.1 h
    obtain ⟨⟨value, c₃⟩, literal, h⟩ := bind_eq_ok.1 h
    cases h
    exact setting_of_read named sign literal
  · cases h
    exact ⟨[], .absent, rfl⟩

theorem answers_of_standaloneValue {answer : Option String} {standalone : Option Bool}
    (h : c.standaloneValue answer = .ok standalone) : ∀ s ∈ answer, s = "yes" ∨ s = "no" := by
  rintro s rfl
  rw [standaloneValue] at h
  split at h
  · rename_i yes
    exact .inl yes
  · split at h
    · rename_i no
      exact .inr no
    · cases h

theorem spells_of_readDeclaration (h : c.readDeclaration = .ok (declaration, d)) :
    ∃ text, SpellsDeclaration declaration text ∧ c.rest = text ++ ("?>".toList ++ d.rest) := by
  rw [readDeclaration_eq] at h
  obtain ⟨c₁, opened, h⟩ := bind_eq_ok.1 h
  obtain ⟨c₂, blanks, h⟩ := bind_eq_ok.1 h
  obtain ⟨c₃, named, h⟩ := bind_eq_ok.1 h
  obtain ⟨c₄, sign, h⟩ := bind_eq_ok.1 h
  obtain ⟨⟨version, c₅⟩, literal, h⟩ := bind_eq_ok.1 h
  dsimp only at h
  split at h
  · cases h
  · obtain ⟨⟨encoding, c₆⟩, second, h⟩ := bind_eq_ok.1 h
    obtain ⟨⟨answer, c₇⟩, third, h⟩ := bind_eq_ok.1 h
    obtain ⟨standalone, answers, h⟩ := bind_eq_ok.1 h
    obtain ⟨c₈, closed, h⟩ := bind_eq_ok.1 h
    cases h
    rw [requireBlanks] at blanks
    split at blanks
    · cases blanks
      obtain ⟨blanks₀, blank₀, skipped₀⟩ := rest_eq_skipBlanks c₁
      obtain ⟨text₁, first, spelled₁⟩ := setting_of_read named sign literal
      obtain ⟨blanks₁, blank₁, skipped₁⟩ := rest_eq_skipBlanks c₅
      obtain ⟨text₂, second, spelled₂⟩ := setting_of_readSetting second
      obtain ⟨blanks₂, blank₂, skipped₂⟩ := rest_eq_skipBlanks c₆
      obtain ⟨text₃, third, spelled₃⟩ := setting_of_readSetting third
      obtain ⟨blanks₃, blank₃, skipped₃⟩ := rest_eq_skipBlanks c₇
      refine ⟨_, .intro blank₀ blank₁ blank₂ blank₃ first second third (answers_of_standaloneValue answers), ?_⟩
      rw [rest_of_expectWord opened, skipped₀, spelled₁, skipped₁, spelled₂, skipped₂, spelled₃, skipped₃,
        rest_of_expectWord closed]
      simp only [List.append_assoc]
    · cases blanks

theorem SpellsDeclaration.opens {text : List Char} (h : SpellsDeclaration declaration text) :
    "<?xml".toList <+: text := by
  cases h
  exact ⟨_, rfl⟩

/-! ## Looking for words in a declaration -/

/-- What stands between the words of a declaration. -/
def separates (ch : Char) : Bool := isBlank ch || isQuote ch || ch = '='

theorem separates_of_isBlank {ch : Char} (blank : isBlank ch = true) : separates ch = true := by
  rw [separates, blank, Bool.true_or, Bool.true_or]

theorem separates_of_isQuote {ch : Char} (quotes : isQuote ch = true) : separates ch = true := by
  rw [separates, quotes, Bool.or_true, Bool.true_or]

/-- A word that is looked for in declarations. None of the words that always stand there has it. -/
structure Sought (word : List Char) : Prop where
  nonempty : word ≠ []
  ascii : ∀ ch ∈ word, ch.toNat < 128
  apart : ∀ ch ∈ word, separates ch = false ∧ ch ≠ 'l'
  others : ∀ other ∈ ["<?xm", "version", "standalone", "yes", "no"], ¬ word <:+: other.toList

theorem sought_encoding : Sought "encoding".toList where
  nonempty := by decide
  ascii := List.all_iff_forall_prop.mp (by decide)
  apart := List.all_iff_forall_prop.mp (by decide)
  others other listed within :=
    have without : ∀ other ∈ ["<?xm", "version", "standalone", "yes", "no"], 'g' ∉ other.toList := by decide
    without other listed (within.subset (by decide))

theorem sought_close : Sought "?>".toList where
  nonempty := by decide
  ascii := List.all_iff_forall_prop.mp (by decide)
  apart := List.all_iff_forall_prop.mp (by decide)
  others other listed within :=
    have without : ∀ other ∈ ["<?xm", "version", "standalone", "yes", "no"], '>' ∉ other.toList := by decide
    without other listed (within.subset (by decide))

section

variable {word text separator : List Char} (sought : Sought word)

include sought

/-- Such a word is in the bytes exactly if it is in the text. -/
theorem Sought.infix_iff {encode : Char → Bytes} (keeps : KeepsAscii encode) :
    word.map Char.toUInt8 <:+: text.flatMap encode ↔ word <:+: text := keeps.infix_iff sought.nonempty sought.ascii

theorem Sought.disjoint (separated : ∀ ch ∈ separator, separates ch = true) : ∀ ch ∈ separator, ch ∉ word :=
  fun ch here there => Bool.false_ne_true ((sought.apart ch there).1.symm.trans (separated ch here))

theorem Sought.misses_blanks (blank : ∀ ch ∈ separator, isBlank ch = true) : Misses word separator :=
  .of_disjoint sought.nonempty (sought.disjoint fun ch here => separates_of_isBlank (blank ch here))

/-- What stands ahead of the value of a setting is passed over, up to the quote. -/
theorem Sought.misses_name {before behind : List Char} {quote : Char} (named : ¬ word <:+: name.toList)
    (blank : ∀ ch ∈ before, isBlank ch = true) (blank' : ∀ ch ∈ behind, isBlank ch = true)
    (quotes : isQuote quote = true) : Misses word (name.toList ++ (before ++ '=' :: (behind ++ [quote]))) := by
  refine .between sought.nonempty named (by simp) (sought.disjoint ?_)
  rw [List.forall_mem_append, List.forall_mem_cons, List.forall_mem_append, List.forall_mem_singleton]
  exact ⟨fun ch here => separates_of_isBlank (blank ch here), rfl,
    fun ch here => separates_of_isBlank (blank' ch here), separates_of_isQuote quotes⟩

theorem Sought.misses_opening : Misses word "<?xml".toList := by
  have opening : Misses word ("<?xm".toList ++ ['l']) :=
    .upTo sought.nonempty (sought.others "<?xm" (by simp)) fun here => (sought.apart 'l' here).2 rfl
  exact opening

theorem Setting.misses {value : Option String} (h : Setting name value text)
    (free : ∀ s ∈ value, ¬ word <:+: name.toList ∧ ¬ word <:+: s.toList) : Misses word text := by
  cases h with
  | absent => exact .nil
  | @given value before behind quote blank blank' quotes _ =>
    obtain ⟨named, valued⟩ := free value rfl
    have shape : name.toList ++ (before ++ '=' :: (behind ++ quote :: (value.toList ++ [quote]))) =
        name.toList ++ (before ++ '=' :: (behind ++ [quote])) ++ (value.toList ++ [quote]) := by simp
    have closing : ∀ ch ∈ [quote], separates ch = true :=
      List.forall_mem_singleton.mpr (separates_of_isQuote quotes)
    rw [shape]
    exact (sought.misses_name named blank blank' quotes).append
      (.between sought.nonempty valued (by simp) (sought.disjoint closing))

/-- A word that neither the version nor the encoding has is not in a declaration. -/
theorem SpellsDeclaration.misses (h : SpellsDeclaration declaration text)
    (unversioned : ∀ s ∈ declaration.version, ¬ word <:+: s.toList)
    (unlabelled : ∀ s ∈ declaration.encoding, ¬ word <:+: "encoding".toList ∧ ¬ word <:+: s.toList) :
    Misses word text := by
  cases h with
  | intro blank₀ blank₁ blank₂ blank₃ first second third answers =>
    have other {s : String} (mem : s ∈ ["<?xm", "version", "standalone", "yes", "no"]) : ¬ word <:+: s.toList :=
      sought.others s mem
    have version := first.misses sought fun s given => ⟨other (by simp), unversioned s given⟩
    have encoding := second.misses sought unlabelled
    have standalone := third.misses sought fun s given => ⟨other (by simp), by
      rcases answers s given with rfl | rfl
      · exact other (by simp)
      · exact other (by simp)⟩
    exact sought.misses_opening.append <| (sought.misses_blanks blank₀).append <| version.append <|
      (sought.misses_blanks blank₁).append <| encoding.append <| (sought.misses_blanks blank₂).append <|
        standalone.append (sought.misses_blanks blank₃)

end

/-! ## The label in a declaration -/

/-- What stands between the version and the label of an encoding, from quote to quote. -/
inductive OpensLabel (quote : Char) : List Char → Prop where
  | intro {close : Char} {blanks before behind : List Char} (closes : isQuote close = true)
      (blank : ∀ ch ∈ blanks, isBlank ch = true) (blank' : ∀ ch ∈ before, isBlank ch = true)
      (blank'' : ∀ ch ∈ behind, isBlank ch = true) (quotes : isQuote quote = true) :
      OpensLabel quote (close :: (blanks ++ ("encoding".toList ++ (before ++ '=' :: (behind ++ [quote])))))

theorem OpensLabel.ascii {quote : Char} {opening : List Char} (h : OpensLabel quote opening) :
    ∀ ch ∈ quote :: opening, ch.toNat < 128 := by
  have small {ch : Char} (separated : separates ch = true) : ch.toNat < 128 := by
    simp only [separates, isBlank, isQuote, Bool.or_eq_true, decide_eq_true_eq] at separated
    rcases separated with ((((rfl | rfl) | rfl) | rfl) | rfl | rfl) | rfl <;> decide
  have blanks {chars : List Char} (blank : ∀ ch ∈ chars, isBlank ch = true) : ∀ ch ∈ chars, ch.toNat < 128 :=
    fun ch here => small (separates_of_isBlank (blank ch here))
  cases h with
  | intro closes blank blank' blank'' quotes =>
    have closing := small (separates_of_isQuote quotes)
    simp only [List.forall_mem_cons, List.forall_mem_append]
    exact ⟨closing, small (separates_of_isQuote closes), blanks blank, sought_encoding.ascii, blanks blank', by decide,
      blanks blank'', closing, List.forall_mem_nil _⟩

/-- Where a declaration has its label, and that the word `encoding` stands nowhere ahead of it. -/
theorem SpellsDeclaration.label {text : List Char} {label : String} (h : SpellsDeclaration declaration text)
    (labelled : declaration.encoding = some label)
    (unversioned : ∀ s ∈ declaration.version, ¬ "encoding".toList <:+: s.toList) :
    ∃ ahead opening quote behind, text = ahead ++ (opening ++ (label.toList ++ quote :: behind)) ∧
      ¬ "encoding".toList <:+: ahead ∧ OpensLabel quote opening ∧ quote ∉ label.toList := by
  cases h with
  | @intro version _ _ _ blanks₀ blanks₁ blanks₂ blanks₃ _ _ text₃ blank₀ blank₁ blank₂ blank₃ first second _ _ =>
    cases labelled
    cases first with
    | @given _ before behind close versionBlank versionBlank' closes _ =>
      cases second with
      | @given _ before' behind' quote blank blank' quotes free =>
        have unmet : ¬ "encoding".toList <:+: "<?xml".toList ++ (blanks₀ ++ ("version".toList ++
            (before ++ '=' :: (behind ++ [close])))) ++ version.toList :=
          (sought_encoding.misses_opening.append ((sought_encoding.misses_blanks blank₀).append
            (sought_encoding.misses_name (sought_encoding.others "version" (by simp)) versionBlank versionBlank'
              closes))).absent_append sought_encoding.nonempty (unversioned version rfl)
        exact ⟨_, _, quote, blanks₂ ++ (text₃ ++ blanks₃), by simp, unmet,
          .intro closes blank₁ blank blank' quotes, free⟩

end Cursor

open Cursor

variable {label : String}

/-! ## Finding the label in a text -/

theorem isSpace_of_isBlank {ch : Char} (blank : isBlank ch = true) : isSpace ch = true := by
  simp only [isBlank, Bool.or_eq_true, decide_eq_true_eq] at blank
  rcases blank with ((rfl | rfl) | rfl) | rfl <;> decide

theorem dropWhile_isSpace {ch : Char} {blanks text : List Char} (blank : ∀ ch ∈ blanks, isBlank ch = true)
    (solid : isSpace ch = false) : (blanks ++ ch :: text).dropWhile isSpace = ch :: text := by
  rw [List.dropWhile_append_of_pos fun ch here => isSpace_of_isBlank (blank ch here),
    List.dropWhile_cons_of_neg (by rw [solid]; exact Bool.false_ne_true)]

theorem encodingValue?_of_opensLabel {ahead opening label behind : List Char} {quote : Char}
    (opens : OpensLabel quote opening) (unmet : ¬ "encoding".toList <:+: ahead) (free : quote ∉ label) :
    encodingValue? (ahead ++ (opening ++ (label ++ quote :: behind))) = some (String.ofList label) := by
  cases opens with
  | @intro close blanks before behind' closes blank blank' blank'' quotes =>
    have shape : ahead ++ (close :: (blanks ++ ("encoding".toList ++ (before ++ '=' :: (behind' ++ [quote])))) ++
        (label ++ quote :: behind)) = (ahead ++ [close] ++ blanks) ++ ("encoding".toList ++
          (before ++ '=' :: (behind' ++ quote :: (label ++ quote :: behind)))) := by simp
    have passed : Misses "encoding".toList (ahead ++ [close] ++ blanks) :=
      (Misses.between sought_encoding.nonempty unmet (by simp) (sought_encoding.disjoint
        (List.forall_mem_singleton.mpr (separates_of_isQuote closes)))).append (sought_encoding.misses_blanks blank)
    have found (rest : List Char) : afterFirst? "encoding".toList ("encoding".toList ++ rest) = some rest := rfl
    have solid : isSpace quote = false := by
      simp only [isQuote, Bool.or_eq_true, decide_eq_true_eq] at quotes
      rcases quotes with rfl | rfl <;> decide
    have sign (rest : List Char) : ['='].isPrefixOf? ('=' :: rest) = some rest := rfl
    rw [shape, encodingValue?, passed, found, Option.bind_eq_bind, Option.bind_some,
      dropWhile_isSpace blank' (by decide), sign, Option.bind_some, dropWhile_isSpace blank'' solid]
    dsimp only
    refine (if_pos quotes).trans ?_
    rw [beforeFirst?_quote fun ch here => ne_of_mem_of_not_mem here free]
    rfl

/-- The word `encoding` and the label that is found stand in the text. -/
theorem infix_of_encodingValue? {text : List Char} (h : encodingValue? text = some label) :
    "encoding".toList <:+: text ∧ label.toList <:+: text := by
  obtain ⟨behind, found, h⟩ := Option.bind_eq_some_iff.mp h
  obtain ⟨more, sign, h⟩ := Option.bind_eq_some_iff.mp h
  have within : "encoding".toList ++ behind <:+ text := suffix_of_afterFirst? found
  refine ⟨(List.prefix_append _ behind).isInfix.trans within.isInfix, ?_⟩
  have inside : more.dropWhile isSpace <:+: text := by
    have unsigned : '=' :: more = behind.dropWhile isSpace := List.append_eq_of_isPrefixOf?_eq_some sign
    exact (List.dropWhile_suffix _).isInfix.trans <| (List.suffix_cons '=' more).isInfix.trans <|
      (unsigned ▸ List.dropWhile_suffix _).isInfix.trans <| (List.suffix_append _ behind).isInfix.trans within.isInfix
  split at h
  · rename_i quote value quoted
    split at h
    · obtain ⟨chars, found, rfl⟩ := Option.map_eq_some_iff.mp h
      rw [String.toList_ofList]
      exact (prefix_of_beforeFirst? found).isInfix.trans <|
        (List.suffix_cons quote value).isInfix.trans (quoted ▸ inside)
    · cases h
  · cases h

end XmlStore
