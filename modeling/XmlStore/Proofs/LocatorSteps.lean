/-
Locations as expressions. The tokens of a location derive the path that its
steps make up, so that this is what the location is read as.
-/
import XmlStore.Proofs.Phrases

namespace XmlStore

variable {s name : String} {tokens rest : List Token} {e : Expr} {test : NodeTest} {l : Locator}
variable {ls : List Locator} {steps : List Step}

/-! ## Steps of locations -/

theorem derives_test (locates : Locates test) : test.Derives test.tokens := by
  cases locates with
  | @name name plain =>
    have proper : name ≠ "*" := by
      rintro rfl
      obtain ⟨first, hfirst, starts⟩ := plain.starts
      cases hfirst
      exact absurd starts (by decide)
    have alone := ofString_plain plain
    have derives := NodeTest.Derives.name proper fun qualifier e => by
      rw [alone] at e
      cases e
    rw [alone] at derives
    exact derives
  | text => exact .text
  | comment => exact .comment
  | instruction => exact .target _

theorem derives_number (x : Float) : Derives .expression [.number x] (Expr.number x) :=
  .of_path (.filtered (.unfiltered (.number x)))

/-- A step to children, with its position behind what it asks for. -/
theorem derives_step (asked : l.test.Derives tokens) :
    Derives .step (tokens ++ l.position.elim [] fun n =>
      [.symbol .leftBracket, .number (Float.ofNat n), .symbol .rightBracket]) l.step := by
  refine .step .child asked ?_
  cases l.position with
  | none => exact .noPredicates
  | some n => exact .predicates (derives_number _) .noPredicates

theorem derives_locator (readable : l.Readable) : Derives .step l.tokens l.step :=
  derives_step (derives_test readable.test)

theorem derives_locators (readable : ∀ l ∈ ls, l.Readable) (others : Derives .furtherSteps rest steps) :
    Derives .furtherSteps (ls.flatMap (fun l => .symbol .slash :: l.tokens) ++ rest)
      (ls.map Locator.step ++ steps) := by
  induction ls with
  | nil => exact others
  | cons l ls ih =>
    rw [List.forall_mem_cons] at readable
    rw [List.flatMap_cons, List.append_assoc, List.cons_append]
    exact .nextStep (derives_locator readable.1) (ih readable.2)

namespace Grammar

/-- The step to the attribute of a plain name. -/
def attributeStep (name : String) : Step := .mk .attributes (.name ⟨none, name⟩) []

theorem derives_attributeStep (plain : IsPlain name) :
    Derives .furtherSteps [.symbol .slash, .symbol .atSign, .name name] [attributeStep name] :=
  .nextStep (.step .attributes (derives_test (.name plain)) .noPredicates) .noSteps

end Grammar

/-! ## Whole locations -/

namespace Expr

theorem ofString_of_lexes (lexes : Lexer.Lexes false s.toList tokens) (path : Derives .path tokens e) :
    ofString s = .ok e := by
  obtain ⟨lexemes, found, rfl⟩ := lexes
  have tokenized : Lexer.tokenize s = .ok (Lexer.classify lexemes) := by
    rw [Lexer.tokenize, found]
  exact ofString_of_derives tokenized (.of_path path)

/-- The location of the document node. -/
theorem ofString_root : ofString "/" = .ok (.rootPath []) := by
  have single : ([] : List Char).head? ≠ some '/' := nofun
  exact ofString_of_lexes (Lexer.lexes_slash single Lexer.lexes_nil) .root

/-- What follows the steps of a location is read behind them. -/
theorem ofString_locators {tail : List Char} (filled : ls ≠ []) (readable : ∀ l ∈ ls, l.Readable)
    (ends : Lexer.EndsStep tail rest) (lexes : ∀ b, Lexer.Lexes b tail rest)
    (others : Derives .furtherSteps rest steps)
    (spelled : s.toList = ls.flatMap (fun l => '/' :: l.text) ++ tail) :
    ofString s = .ok (.rootPath (ls.map Locator.step ++ steps)) := by
  have lexes := Lexer.lexes_locators readable ends lexes false
  rw [← spelled] at lexes
  cases ls with
  | nil => exact absurd rfl filled
  | cons l ls =>
    rw [List.forall_mem_cons] at readable
    refine ofString_of_lexes lexes ?_
    rw [List.flatMap_cons, List.append_assoc, List.cons_append]
    exact .absolute (.steps (derives_locator readable.1) (derives_locators readable.2 others))

/-- The location of a node below the document node. -/
theorem ofString_location (filled : ls ≠ []) (readable : ∀ l ∈ ls, l.Readable)
    (spelled : s.toList = ls.flatMap fun l => '/' :: l.text) :
    ofString s = .ok (.rootPath (ls.map Locator.step)) := by
  rw [← List.append_nil (ls.map Locator.step)]
  refine ofString_locators filled readable .nil (fun _ => Lexer.lexes_nil) .noSteps ?_
  rw [spelled, List.append_nil]

/-- The location of an attribute. -/
theorem ofString_attributeLocation (filled : ls ≠ []) (readable : ∀ l ∈ ls, l.Readable) (plain : IsPlain name)
    (spelled : s.toList = ls.flatMap (fun l => '/' :: l.text) ++ '/' :: '@' :: name.toList) :
    ofString s = .ok (.rootPath (ls.map Locator.step ++ [Grammar.attributeStep name])) :=
  ofString_locators filled readable .slash (Lexer.lexes_attribute plain)
    (Grammar.derives_attributeStep plain) spelled

end Expr

end XmlStore
