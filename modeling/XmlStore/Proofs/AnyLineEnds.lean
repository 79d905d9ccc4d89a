/-
Documents with any line ends. A document and the same text with a line feed for
every line end are both refused, or both read with the same nodes: only in a
document type and in the XML declaration, whose literals are kept as they are,
are the line ends those of the text.
-/
import XmlStore.Proofs.LineEnds

namespace XmlStore

variable {c d : Cursor}

namespace Cursor

/-! ## Comments, sections and processing instructions -/

theorem indifferent_readCommentChar : Indifferent id readCommentChar := by
  intro c d h
  rw [readCommentChar, readCommentChar, h.atEnd, h.sees (by decide)]
  split
  · trivial
  · split
    · trivial
    · exact indifferent_readChar h

theorem indifferent_readCdataChar : Indifferent id readCdataChar := by
  intro c d h
  rw [readCdataChar, readCdataChar, h.atEnd]
  split
  · trivial
  · exact indifferent_readChar h

theorem indifferent_readInstructionChar : Indifferent id readInstructionChar := by
  intro c d h
  rw [readInstructionChar, readInstructionChar, h.atEnd]
  split
  · trivial
  · exact indifferent_readChar h

theorem indifferent_readComment : Indifferent id readComment := by
  intro c d h
  refine (paired_expectWord (by decide) h).bind fun c d h => ?_
  refine (paired_readClosed (by decide) advances_readCommentChar indifferent_readCommentChar h).bind ?_
  rintro ⟨s, c⟩ ⟨_, d⟩ ⟨rfl, h⟩
  exact ⟨rfl, h⟩

theorem indifferent_readCdata : Indifferent id readCdata := by
  intro c d h
  refine (paired_expectWord (by decide) h).bind fun c d h => ?_
  refine (paired_readClosed (by decide) advances_readCdataChar indifferent_readCdataChar h).bind ?_
  rintro ⟨s, c⟩ ⟨_, d⟩ ⟨rfl, h⟩
  exact ⟨rfl, h⟩

theorem indifferent_readInstruction : Indifferent id readInstruction := by
  intro c d h
  refine (paired_expectWord (by decide) h).bind fun c d h => ?_
  refine (indifferent_readName h).bind ?_
  rintro ⟨target, c⟩ ⟨_, d⟩ ⟨rfl, h⟩
  dsimp only [id]
  rw [h.peek neutral_isBlank]
  split
  · trivial
  · split
    · refine (paired_readClosed (by decide) advances_readInstructionChar indifferent_readInstructionChar
        h.skipBlanks).bind ?_
      rintro ⟨s, c⟩ ⟨_, d⟩ ⟨rfl, h⟩
      exact ⟨rfl, h⟩
    · exact (paired_expectWord (by decide) h).bind fun c d h => ⟨rfl, h⟩

theorem Fed.seesAside (h : Fed c d) : d.seesAside = c.seesAside := by
  rw [Cursor.seesAside, Cursor.seesAside, h.sees (by decide), h.sees (by decide)]

theorem indifferent_readAside : Indifferent id readAside := by
  intro c d h
  rw [readAside, readAside, h.sees (by decide)]
  split
  · exact indifferent_readComment h
  · exact indifferent_readInstruction h

theorem indifferent_readAsides : Indifferent id readAsides := by
  intro c d h
  have collects (taken : List Content) : Indifferent id (collectAside taken) := by
    intro c d h
    refine (indifferent_readAside h).bind ?_
    rintro ⟨content, c⟩ ⟨_, d⟩ ⟨rfl, h⟩
    exact ⟨rfl, h.skipBlanks⟩
  refine (indifferent_readWhile advances_collectAside (fun _ _ h => h.seesAside) collects [] h.skipBlanks).bind ?_
  rintro ⟨taken, c⟩ ⟨_, d⟩ ⟨rfl, h⟩
  exact ⟨rfl, h⟩

/-! ## The XML declaration -/

theorem paired_expectEquals (h : Fed c d) : Paired Fed c.expectEquals d.expectEquals :=
  (paired_expect (by decide) h.skipBlanks).bind fun _ _ h => h.skipBlanks

theorem indifferent_readSetting {name : String} (unbroken : Unbroken name.toList) :
    Indifferent (Option.map withLineFeeds) (readSetting name) := by
  intro c d h
  rw [readSetting, readSetting, h.sees unbroken]
  split
  · refine (paired_expectWord unbroken h).bind fun c d h => (paired_expectEquals h).bind fun c d h => ?_
    refine (indifferent_readLiteral h).bind ?_
    rintro ⟨value, c⟩ ⟨_, d⟩ ⟨rfl, h⟩
    exact ⟨rfl, h⟩
  · exact ⟨rfl, h⟩

theorem paired_standaloneValue (c d : Cursor) (standalone : Option String) :
    Paired (fun setting setting' => setting' = setting) (c.standaloneValue standalone)
      (d.standaloneValue (standalone.map withLineFeeds)) := by
  cases standalone with
  | none => exact rfl
  | some value =>
    have yes : withLineFeeds value = "yes" ↔ value = "yes" := withLineFeeds_eq_iff (by decide)
    have no : withLineFeeds value = "no" ↔ value = "no" := withLineFeeds_eq_iff (by decide)
    simp only [standaloneValue, Option.map_some, yes, no]
    split
    · exact rfl
    · split
      · exact rfl
      · trivial

theorem paired_readSettings (h : Fed c d) (version : String) : Paired (FedWith Declaration.withLineFeeds)
    (c.readSettings version) (d.readSettings (withLineFeeds version)) := by
  have encodings : Indifferent _ (readSetting "encoding") := indifferent_readSetting (by decide)
  have standalones : Indifferent _ (readSetting "standalone") := indifferent_readSetting (by decide)
  refine (encodings h.skipBlanks).bind ?_
  rintro ⟨encoding, c⟩ ⟨_, d⟩ ⟨rfl, h⟩
  refine (standalones h.skipBlanks).bind ?_
  rintro ⟨standalone, c⟩ ⟨_, d⟩ ⟨rfl, h⟩
  refine (paired_standaloneValue c d standalone).bind ?_
  rintro setting _ rfl
  exact (paired_expectWord (by decide) h.skipBlanks).bind fun c d h => ⟨rfl, h⟩

theorem indifferent_readDeclaration : Indifferent Declaration.withLineFeeds readDeclaration := by
  intro c d h
  rw [readDeclaration_eq, readDeclaration_eq]
  refine (paired_expectWord (by decide) h).bind fun c d h => (paired_requireBlanks h).bind fun c d h =>
    (paired_expectWord (by decide) h).bind fun c d h => (paired_expectEquals h).bind fun c d h => ?_
  refine (indifferent_readLiteral h).bind ?_
  rintro ⟨version, c⟩ ⟨_, d⟩ ⟨rfl, h⟩
  dsimp only
  have numbered : "1.".toList.isPrefixOf (withLineFeeds version).toList = "1.".toList.isPrefixOf version.toList := by
    rw [Bool.eq_iff_iff, List.isPrefixOf_iff_prefix, List.isPrefixOf_iff_prefix, toList_withLineFeeds]
    exact prefix_lineFeeds (by decide) version.toList
  rw [numbered]
  split
  · trivial
  · exact paired_readSettings h version

theorem indifferent_readOptionalDeclaration : Indifferent Declaration.withLineFeeds readOptionalDeclaration := by
  intro c d h
  have seen : d.seesDeclaration = c.seesDeclaration := by
    rw [seesDeclaration, seesDeclaration, h.sees (by decide)]
    cases begins : c.sees "<?xml".toList with
    | false => rfl
    | true =>
      obtain ⟨rest, e⟩ := sees_iff.mp begins
      have behind (rest : List Char) : ("<?xml".toList ++ rest)[5]? = rest.head? := by cases rest <;> rfl
      have neutral : Neutral isAsciiSpace := rfl
      rw [Fed, ← e, lineFeeds_of_unbroken (by decide)] at h
      rw [h, ← e, behind, behind, any_head?_lineFeeds neutral]
  rw [readOptionalDeclaration, readOptionalDeclaration, seen]
  split
  · exact indifferent_readDeclaration h
  · exact ⟨rfl, h⟩

/-! ## The document type declaration -/

theorem indifferent_skipSubsetPiece (u : Unit) : Indifferent id (skipSubsetPiece u) := by
  intro c d h
  have neutral : Neutral isQuote := rfl
  rw [skipSubsetPiece, skipSubsetPiece, h.atEnd, h.sees (by decide), h.peek neutral]
  split
  · trivial
  · split
    · exact (indifferent_readComment h).bind fun _ _ h => ⟨rfl, h.2⟩
    · split
      · exact (indifferent_readLiteral h).bind fun _ _ h => ⟨rfl, h.2⟩
      · exact (indifferent_readChar h).bind fun _ _ h => ⟨rfl, h.2⟩

theorem paired_skipSubset (h : Fed c d) : Paired Fed c.skipSubset d.skipSubset := by
  have goes ⦃c d : Cursor⦄ (h : Fed c d) : (!d.sees [']']) = !c.sees [']'] := congrArg _ (h.sees (by decide))
  refine (paired_expect (by decide) h).bind fun c d h => ?_
  refine (indifferent_readWhile advances_skipSubsetPiece goes indifferent_skipSubsetPiece () h).bind_ok ?_
  rintro ⟨u, c⟩ ⟨_, d⟩ taken ⟨-, h⟩
  have closes : c.sees [']'] = true := by simpa using more_of_readWhile taken
  exact h.skip (by decide) closes

def identifiersWithLineFeeds (ids : Option String × Option String) : Option String × Option String :=
  (ids.1.map withLineFeeds, ids.2.map withLineFeeds)

theorem indifferent_readExternalId : Indifferent identifiersWithLineFeeds readExternalId := by
  intro c d h
  rw [readExternalId, readExternalId, h.sees (by decide), h.sees (by decide)]
  split
  · rename_i seen
    refine (paired_requireBlanks (h.skip (by decide) seen)).bind fun c d h => ?_
    refine (indifferent_readLiteral h).bind ?_
    rintro ⟨systemId, c⟩ ⟨_, d⟩ ⟨rfl, h⟩
    exact ⟨rfl, h⟩
  · split
    · rename_i seen
      refine (paired_requireBlanks (h.skip (by decide) seen)).bind fun c d h => ?_
      refine (indifferent_readLiteral h).bind ?_
      rintro ⟨publicId, c⟩ ⟨_, d⟩ ⟨rfl, h⟩
      refine (paired_requireBlanks h).bind fun c d h => ?_
      refine (indifferent_readLiteral h).bind ?_
      rintro ⟨systemId, c⟩ ⟨_, d⟩ ⟨rfl, h⟩
      exact ⟨rfl, h⟩
    · exact ⟨rfl, h⟩

/-- A document type with its identifiers' line ends as line feeds, and that there is a warning or none. -/
theorem paired_readDoctype (h : Fed c d) :
    Paired (fun r r' => r'.1.1 = r.1.1.withLineFeeds ∧ Fed r.2 r'.2) c.readDoctype d.readDoctype := by
  have opens : Paired Fed (c.expectWord "<!DOCTYPE") (d.expectWord "<!DOCTYPE") := paired_expectWord (by decide) h
  refine opens.mapError.bind fun c d h => ?_
  refine (paired_requireBlanks h).mapError.bind fun c d h => ?_
  refine (indifferent_readName h).mapError.bind ?_
  rintro ⟨name, c⟩ ⟨_, d⟩ ⟨rfl, h⟩
  refine (indifferent_readExternalId h.skipBlanks).mapError.bind ?_
  rintro ⟨⟨systemId, publicId⟩, c⟩ ⟨_, d⟩ ⟨rfl, h⟩
  dsimp only
  rw [h.skipBlanks.sees (by decide)]
  split
  · refine (paired_skipSubset h.skipBlanks).mapError.bind fun c d h => ?_
    exact (paired_expect (by decide) h.skipBlanks).mapError.bind fun c d h => ⟨rfl, h⟩
  · exact (paired_expect (by decide) h.skipBlanks).mapError.bind fun c d h => ⟨rfl, h⟩

/-! ## Tags -/

theorem Fed.seesTagEnd (h : Fed c d) : d.seesTagEnd = c.seesTagEnd := by
  rw [Cursor.seesTagEnd, Cursor.seesTagEnd, h.sees (by decide), h.sees (by decide)]

/-- Whether a tag takes an attribute does not depend on the place. -/
theorem paired_addAttribute (tag : Element) (name value : String) (c d : Cursor) :
    Paired (fun tag tag' => tag' = tag) (addAttribute tag name value c) (addAttribute tag name value d) := by
  rw [addAttribute, addAttribute]
  split
  · exact rfl
  · split
    · dsimp only
      split
      · trivial
      · exact rfl
    · split
      · trivial
      · exact rfl

theorem indifferent_readAttribute (tag : Element) : Indifferent id (readAttribute tag) := by
  intro c d h
  rw [readAttribute, readAttribute, h.peek neutral_isBlank]
  split
  · trivial
  · refine (indifferent_readName h.skipBlanks).bind ?_
    rintro ⟨_, c⟩ ⟨name, d⟩ ⟨rfl, h⟩
    refine (paired_expectEquals h).bind fun c d h => ?_
    refine (indifferent_readAttributeValue h).bind ?_
    rintro ⟨_, c⟩ ⟨value, d⟩ ⟨rfl, h⟩
    refine (paired_addAttribute tag name value c d).bind ?_
    rintro tag _ rfl
    exact ⟨rfl, h⟩

theorem indifferent_readTag : Indifferent id readTag := by
  intro c d h
  have goes ⦃c d : Cursor⦄ (h : Fed c d) : (!d.skipBlanks.seesTagEnd) = !c.skipBlanks.seesTagEnd :=
    congrArg _ h.skipBlanks.seesTagEnd
  refine (paired_expect (by decide) h).bind fun c d h => ?_
  refine (indifferent_readName h).bind ?_
  rintro ⟨name, c⟩ ⟨_, d⟩ ⟨rfl, h⟩
  refine (indifferent_readWhile advances_readAttribute goes indifferent_readAttribute _ h).bind ?_
  rintro ⟨tag, c⟩ ⟨_, d⟩ ⟨rfl, h⟩
  exact ⟨rfl, h.skipBlanks⟩

theorem paired_readEndTag (name : String) (h : Fed c d) : Paired Fed (c.readEndTag name) (d.readEndTag name) := by
  refine (paired_expectWord (by decide) h).bind fun c d h => ?_
  refine (indifferent_readName h).bind ?_
  rintro ⟨closed, c⟩ ⟨_, d⟩ ⟨rfl, h⟩
  dsimp only [id]
  split
  · exact paired_expect (by decide) h.skipBlanks
  · trivial

/-! ## Content -/

theorem Fed.beginning (h : Fed c d) : d.beginning = c.beginning := by
  rw [Cursor.beginning, Cursor.beginning, h.atEnd, h.sees (by decide), h.sees (by decide), h.seesAside,
    h.sees (by decide)]

theorem indifferent_readTextChar : Indifferent id readTextChar := by
  intro c d h
  rw [readTextChar, readTextChar, h.sees (by decide), h.sees (by decide)]
  split
  · exact indifferent_readReference h
  · split
    · trivial
    · exact indifferent_readChar h

theorem indifferent_readText : Indifferent id readText := by
  refine indifferent_readUntil advances_readTextChar (fun c d h => ?_) indifferent_readTextChar
  rw [h.atEnd, h.sees (by decide)]

end Cursor

open Cursor (Fed Indifferent)

namespace Progress

variable {α β : Type} {view : α → β} {p q : Progress}

/-- How far two readings have come, and what they have read. -/
def FedWith (view : α → β) (r : α × Progress) (r' : β × Progress) : Prop :=
  r'.1 = view r.1 ∧ Fed r.2.cursor r'.2.cursor

theorem paired_read {view : α → α} {reader : Cursor → Except Fault (α × Cursor)} (reads : Indifferent view reader)
    (h : Fed p.cursor q.cursor) : Paired (FedWith view) (p.read reader) (q.read reader) := by
  rw [read, read]
  obtain ⟨e, e', failed, failed'⟩ | ⟨⟨a, c⟩, ⟨a', d⟩, taken, taken', same, h⟩ := (reads h).cases
  · rw [failed, failed']
    trivial
  · rw [taken, taken']
    exact ⟨same, h⟩

theorem paired_move {reader : Cursor → Except Fault Cursor} (moves : Paired Fed (reader p.cursor) (reader q.cursor)) :
    Paired (fun p q => Fed p.cursor q.cursor) (p.move reader) (q.move reader) := by
  rw [move, move]
  obtain ⟨e, e', failed, failed'⟩ | ⟨c, d, taken, taken', h⟩ := moves.cases
  · rw [failed, failed']
    trivial
  · rw [taken, taken']
    exact h

end Progress

open Progress (FedWith paired_read paired_move)

variable {options : ReadOptions} {p q : Progress}

theorem paired_readElement {content : Scope → Progress → Except ReadError (Forest Content × Progress)}
    (depth : Nat) (scope : Scope) (h : Fed p.cursor q.cursor)
    (inner : ∀ scope p q, Fed p.cursor q.cursor → Paired (FedWith id) (content scope p) (content scope q)) :
    Paired (FedWith id) (readElement options depth scope p content) (readElement options depth scope q content) := by
  rw [readElement, readElement]
  split
  · trivial
  · refine (paired_read Cursor.indifferent_readTag h).bind ?_
    rintro ⟨_, p⟩ ⟨tag, q⟩ ⟨rfl, h⟩
    dsimp only [id]
    rw [h.sees (by decide)]
    split
    · rename_i seen
      exact ⟨rfl, h.skip (by decide) seen⟩
    · refine Paired.bind (paired_move (Cursor.paired_expect ⟨by decide, by decide⟩ h)) fun p q h =>
        (inner _ p q h).bind ?_
      rintro ⟨_, p⟩ ⟨children, q⟩ ⟨rfl, h⟩
      exact (paired_move (Cursor.paired_readEndTag _ h)).bind fun p q h => ⟨rfl, h⟩

/-- A reader of content that reads the same whatever the line ends are. -/
def ContentReader.Indifferent (again : ContentReader) : Prop :=
  ∀ depth scope started p q, Fed p.cursor q.cursor →
    Paired (FedWith id) (again depth scope started p) (again depth scope started q)

theorem indifferent_readContentBy {again : ContentReader} (later : again.Indifferent) :
    (readContentBy options again).Indifferent := by
  intro depth scope started p q h
  -- One node of whatever kind, and the later siblings.
  have node {content : Content} {children : Forest Content} {p q : Progress} (h : Fed p.cursor q.cursor) :
      Paired (FedWith id)
        (again depth scope true p >>= fun r => pure (Forest.cons content children r.1, r.2))
        (again depth scope true q >>= fun r => pure (Forest.cons content children r.1, r.2)) := by
    refine (later depth scope true p q h).bind ?_
    rintro ⟨_, p⟩ ⟨rest, q⟩ ⟨rfl, h⟩
    exact ⟨rfl, h⟩
  rw [readContentBy, readContentBy, h.beginning]
  split
  · trivial
  · exact ⟨rfl, h⟩
  · refine (paired_read Cursor.indifferent_readCdata h).bind ?_
    rintro ⟨_, p⟩ ⟨content, q⟩ ⟨rfl, h⟩
    exact node h
  · refine (paired_read Cursor.indifferent_readAside h).bind ?_
    rintro ⟨_, p⟩ ⟨content, q⟩ ⟨rfl, h⟩
    exact node h
  · refine (paired_readElement (depth + 1) scope h fun scope p q h => later (depth + 1) scope false p q h).bind ?_
    rintro ⟨_, p⟩ ⟨⟨tag, children⟩, q⟩ ⟨rfl, h⟩
    exact node h
  · refine (paired_read Cursor.indifferent_readText h).bind ?_
    rintro ⟨_, p⟩ ⟨text, q⟩ ⟨rfl, h⟩
    dsimp only [id]
    rw [h.sees (by decide)]
    split
    · exact later depth scope started p q h
    · exact node h

theorem indifferent_readContentWithin (size : Nat) : (readContentWithin options size).Indifferent := by
  induction size with
  | zero => exact fun _ _ _ _ _ _ => trivial
  | succ size ih => exact indifferent_readContentBy ih

theorem indifferent_readContent : (readContent options).Indifferent := by
  intro depth scope started p q h
  have enough : readContent options depth scope started q =
      readContentWithin options (p.cursor.remaining + 1) depth scope started q :=
    readContentWithin_congr (Nat.lt_succ_self _) (Nat.lt_succ_of_le h.remaining) depth scope started
  rw [enough]
  exact indifferent_readContentWithin _ depth scope started p q h

/-! ## Documents -/

theorem map_withLineFeeds {contents : List Content} (asides : ∀ content ∈ contents, Aside content) :
    contents.map Content.withLineFeeds = contents := by
  have same : ∀ content ∈ contents, content.withLineFeeds = id content := by
    intro content mem
    cases (asides content mem).reread <;> rfl
  exact (List.map_congr_left same).trans (List.map_id contents)

theorem paired_readTypeDeclaration (h : Fed p.cursor q.cursor) :
    Paired (FedWith (List.map Content.withLineFeeds)) (readTypeDeclaration p) (readTypeDeclaration q) := by
  rw [readTypeDeclaration, readTypeDeclaration, h.sees (by decide)]
  split
  · refine (Cursor.paired_readDoctype h).bind ?_
    rintro ⟨⟨doctype, warnings⟩, c⟩ ⟨⟨_, warnings'⟩, d⟩ ⟨rfl, h⟩
    refine (paired_read (p := ⟨c, p.warnings ++ warnings⟩) Cursor.indifferent_readAsides h).bind_ok ?_
    rintro ⟨_, p⟩ ⟨asides, q⟩ taken ⟨rfl, h⟩
    have kept := map_withLineFeeds (asides_of_readAsides (Progress.read_eq_ok taken))
    exact ⟨congrArg _ kept.symm, h⟩
  · exact ⟨rfl, h⟩

theorem untyped_leaves_append (contents : List Content) (f : Forest Content) :
    (leaves (contents.map Content.withLineFeeds) ++ f).untyped = (leaves contents ++ f).untyped := by
  induction contents with
  | nil => rfl
  | cons content contents ih =>
    cases content
    case doctype => exact ih
    all_goals exact congrArg (Forest.cons _ .nil) ih

/-- A document, and the one read from the text with line feeds. -/
structure Markup.FedBy (m m' : Markup) : Prop where
  declaration : m'.declaration = m.declaration.withLineFeeds
  untyped : m'.nodes.untyped = m.nodes.untyped
  roots : m'.nodes.roots = m.nodes.roots.map Content.withLineFeeds

theorem paired_readDocument (h : Fed c d) :
    Paired Markup.FedBy (readDocument options c) (readDocument options d) := by
  refine (paired_read (p := ⟨c, []⟩) Cursor.indifferent_readOptionalDeclaration h).bind ?_
  rintro ⟨declaration, p⟩ ⟨_, q⟩ ⟨rfl, h⟩
  refine (paired_read Cursor.indifferent_readAsides h).bind_ok ?_
  rintro ⟨_, p₁⟩ ⟨before, q⟩ taken ⟨rfl, h⟩
  have before_kept := map_withLineFeeds (asides_of_readAsides (Progress.read_eq_ok taken))
  refine (paired_readTypeDeclaration h).bind ?_
  rintro ⟨typed, p⟩ ⟨_, q⟩ ⟨rfl, h⟩
  dsimp only [id]
  rw [h.sees (by decide)]
  split
  · trivial
  · refine (paired_readElement 1 .initial h fun scope p q h => indifferent_readContent 1 scope false p q h).bind ?_
    rintro ⟨_, p⟩ ⟨⟨tag, children⟩, q⟩ ⟨rfl, h⟩
    refine (paired_read Cursor.indifferent_readAsides h).bind_ok ?_
    rintro ⟨_, p₂⟩ ⟨after, q⟩ taken ⟨rfl, h⟩
    have after_kept := map_withLineFeeds (asides_of_readAsides (Progress.read_eq_ok taken))
    dsimp only [id]
    rw [h.atEnd]
    split
    · trivial
    · have ahead : before ++ typed.map Content.withLineFeeds = (before ++ typed).map Content.withLineFeeds := by
        rw [List.map_append, before_kept]
      refine ⟨rfl, ?_, ?_⟩
      · dsimp only
        rw [ahead, untyped_leaves_append]
      · dsimp only
        simp only [ahead, Forest.roots_append, roots_leaves, Forest.roots, List.map_append, List.map_cons, after_kept]
        rfl

/-- A byte order mark is no line end. -/
theorem Markup.paired_ofString (options : ReadOptions) (s : String) :
    Paired FedBy (ofString options s) (ofString options (withLineFeeds s)) := by
  rw [ofString, ofString, toList_withLineFeeds]
  split
  · rename_i rest marked
    rw [marked, lineFeeds_cons (by decide)]
    exact paired_readDocument rfl
  · rename_i unmarked
    split
    · rename_i rest marked
      have mark : ['\uFEFF'] <+: lineFeeds s.toList := ⟨rest, marked.symm⟩
      obtain ⟨more, e⟩ := (prefix_lineFeeds (by decide) s.toList).mp mark
      exact (unmarked more e.symm).elim
    · exact paired_readDocument rfl

namespace Document

/-- A text and the same one with a line feed for every line end: both are refused, or both are read, with the
same nodes but for the identifiers of a document type. -/
theorem ofString_withLineFeeds (options : ReadOptions) (s : String) :
    (∃ e e', ofString options s = .error e ∧ ofString options (withLineFeeds s) = .error e') ∨
      ∃ d d', ofString options s = .ok d ∧ ofString options (withLineFeeds s) = .ok d' ∧
        (d'.contents root).untyped = (d.contents root).untyped ∧
        (d'.contents root).roots = (d.contents root).roots.map Content.withLineFeeds ∧
        d'.declaration = d.declaration.withLineFeeds := by
  rw [ofString, ofString]
  obtain ⟨e, e', failed, failed'⟩ | ⟨m, m', parsed, parsed', same⟩ := (Markup.paired_ofString options s).cases
  · rw [failed, failed']
    exact .inl ⟨e, e', rfl, rfl⟩
  · rw [parsed, parsed']
    refine .inr ⟨ofMarkup m, ofMarkup m', rfl, rfl, ?_⟩
    rw [contents_ofMarkup, contents_ofMarkup, (grown_ofMarkup m).declaration, (grown_ofMarkup m').declaration]
    exact ⟨same.untyped, same.roots, same.declaration⟩

end Document

end XmlStore
