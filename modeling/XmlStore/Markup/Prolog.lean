/-
What may stand around the root element: comments, processing instructions,
the XML declaration and the document type declaration, of which the internal
subset is only passed over.
-/
import XmlStore.Markup.Literal
import XmlStore.Markup.Content

namespace XmlStore

/-- The XML declaration of a document. -/
structure Declaration where
  version : Option String
  encoding : Option String
  standalone : Option Bool
deriving DecidableEq, Repr

/-- A document that declares nothing. -/
def Declaration.absent : Declaration := ⟨none, none, none⟩

namespace Cursor

def readCommentChar (c : Cursor) : Except Fault (Char × Cursor) :=
  if c.atEnd then .error (c.fault .commentUnfinished)
  else if c.sees ['-', '-'] then .error (c.fault .doubleHyphen)
  else c.readChar

theorem advances_readCommentChar : Advances readCommentChar := by
  intro c ch d h
  unfold readCommentChar at h
  split at h
  · cases h
  · split at h
    · cases h
    · exact advances_readChar h

def readComment (c : Cursor) : Except Fault (Content × Cursor) := do
  let c ← c.expectWord "<!--"
  let (characters, c) ←
    c.readUntil (·.sees ['-', '-', '>']) readCommentChar advances_readCommentChar
  return (.comment characters, c.skip 3)

theorem advances_readComment : Advances readComment := by
  intro c content d h
  obtain ⟨e, hopen, h⟩ := bind_eq_ok.1 h
  obtain ⟨⟨characters, f⟩, huntil, h⟩ := bind_eq_ok.1 h
  cases h
  have : e.remaining + 4 = c.remaining := remaining_expectWord hopen
  have := remaining_readUntil_le huntil
  have := remaining_skip 3 f
  omega

def readCdataChar (c : Cursor) : Except Fault (Char × Cursor) :=
  if c.atEnd then .error (c.fault .cdataUnfinished) else c.readChar

theorem advances_readCdataChar : Advances readCdataChar := by
  intro c ch d h
  unfold readCdataChar at h
  split at h
  · cases h
  · exact advances_readChar h

def readCdata (c : Cursor) : Except Fault (Content × Cursor) := do
  let c ← c.expectWord "<![CDATA["
  let (characters, c) ← c.readUntil (·.sees [']', ']', '>']) readCdataChar advances_readCdataChar
  return (.cdata characters, c.skip 3)

theorem advances_readCdata : Advances readCdata := by
  intro c content d h
  obtain ⟨e, hopen, h⟩ := bind_eq_ok.1 h
  obtain ⟨⟨characters, f⟩, huntil, h⟩ := bind_eq_ok.1 h
  cases h
  have : e.remaining + 9 = c.remaining := remaining_expectWord hopen
  have := remaining_readUntil_le huntil
  have := remaining_skip 3 f
  omega

def readInstructionChar (c : Cursor) : Except Fault (Char × Cursor) :=
  if c.atEnd then .error (c.fault .instructionUnfinished) else c.readChar

theorem advances_readInstructionChar : Advances readInstructionChar := by
  intro c ch d h
  unfold readInstructionChar at h
  split at h
  · cases h
  · exact advances_readChar h

/-- A processing instruction; empty data count as none. -/
def readInstruction (c : Cursor) : Except Fault (Content × Cursor) := do
  let c ← c.expectWord "<?"
  let (target, c) ← c.readName
  if lowerAscii target = "xml" then .error (c.fault .reservedTarget)
  else if (c.peek?).any isBlank then
    let (data, c) ← c.skipBlanks.readUntil (·.sees ['?', '>']) readInstructionChar
      advances_readInstructionChar
    return (.instruction target (if data.isEmpty then none else some data), c.skip 2)
  else
    let c ← c.expectWord "?>"
    return (.instruction target none, c)

theorem advances_readInstruction : Advances readInstruction := by
  intro c content d h
  obtain ⟨e, hopen, h⟩ := bind_eq_ok.1 h
  have : e.remaining + 2 = c.remaining := remaining_expectWord hopen
  obtain ⟨⟨target, f⟩, hname, h⟩ := bind_eq_ok.1 h
  have := remaining_readName_le hname
  dsimp only at h
  split at h
  · cases h
  · split at h
    · obtain ⟨⟨data, g⟩, huntil, h⟩ := bind_eq_ok.1 h
      dsimp only at h
      cases h
      have := remaining_skipBlanks_le f
      have := remaining_readUntil_le huntil
      have := remaining_skip 2 g
      omega
    · obtain ⟨g, hclose, h⟩ := bind_eq_ok.1 h
      cases h
      have := remaining_expectWord hclose
      omega

/-- Whether a comment or a processing instruction begins here. -/
def seesAside (c : Cursor) : Bool := c.sees "<!--".toList || c.sees "<?".toList

def readAside (c : Cursor) : Except Fault (Content × Cursor) :=
  if c.sees "<!--".toList then c.readComment else c.readInstruction

theorem advances_readAside : Advances readAside := by
  intro c content d h
  unfold readAside at h
  split at h
  · exact advances_readComment h
  · exact advances_readInstruction h

/-- One more comment or processing instruction, with the blanks behind it. -/
def collectAside (taken : List Content) (c : Cursor) : Except Fault (List Content × Cursor) := do
  let (content, c) ← c.readAside
  return (content :: taken, c.skipBlanks)

theorem advances_collectAside (taken : List Content) : Advances (collectAside taken) := by
  intro c contents d h
  obtain ⟨⟨content, e⟩, haside, h⟩ := bind_eq_ok.1 h
  cases h
  exact Nat.lt_of_le_of_lt (remaining_skipBlanks_le e) (advances_readAside haside)

/-- The comments and processing instructions that follow, blanks passed over. -/
def readAsides (c : Cursor) : Except Fault (List Content × Cursor) := do
  let (taken, c) ← c.skipBlanks.readWhile seesAside collectAside advances_collectAside []
  return (taken.reverse, c)

def expectEquals (c : Cursor) : Except Fault Cursor := do
  let c ← c.skipBlanks.expect '='
  return c.skipBlanks

theorem remaining_expectEquals_le {c d : Cursor} (h : c.expectEquals = .ok d) :
    d.remaining ≤ c.remaining := by
  obtain ⟨e, hexpect, h⟩ := bind_eq_ok.1 h
  cases h
  have := remaining_expect hexpect
  have := remaining_skipBlanks_le c
  have := remaining_skipBlanks_le e
  omega

/-- A `name = "literal"` of the XML declaration, if one of that name comes next. -/
def readSetting (name : String) (c : Cursor) : Except Fault (Option String × Cursor) := do
  if c.sees name.toList then
    let c ← c.expectWord name
    let c ← c.expectEquals
    let (value, c) ← c.readLiteral
    return (some value, c)
  else return (none, c)

/-- The XML declaration. -/
def readDeclaration (c : Cursor) : Except Fault (Declaration × Cursor) := do
  let c ← c.expectWord "<?xml"
  let c ← c.requireBlanks
  let c ← c.expectWord "version"
  let c ← c.expectEquals
  let (version, c) ← c.readLiteral
  if !"1.".toList.isPrefixOf version.toList then .error (c.fault (.unsupportedVersion version))
  else
    let (encoding, c) ← c.skipBlanks.readSetting "encoding"
    let (standalone, c) ← c.skipBlanks.readSetting "standalone"
    let standalone ← match standalone with
      | none => .ok none
      | some value =>
        if value = "yes" then .ok (some true)
        else if value = "no" then .ok (some false)
        else .error (c.fault .badStandalone)
    let c ← c.skipBlanks.expectWord "?>"
    return (⟨some version, encoding, standalone⟩, c)

/-- Whether the text begins with an XML declaration. -/
def seesDeclaration (c : Cursor) : Bool :=
  c.sees "<?xml".toList && (c.rest[5]?).any isAsciiSpace

/-- The XML declaration, if the text begins with one. -/
def readOptionalDeclaration (c : Cursor) : Except Fault (Declaration × Cursor) :=
  if c.seesDeclaration then c.readDeclaration else .ok (.absent, c)

/-- One piece of an internal subset: a comment, a quoted literal or a character. -/
def skipSubsetPiece (_ : Unit) (c : Cursor) : Except Fault (Unit × Cursor) := do
  if c.atEnd then .error (c.fault .subsetUnfinished)
  else if c.sees "<!--".toList then
    let (_, c) ← c.readComment
    return ((), c)
  else if (c.peek?).any isQuote then
    let (_, c) ← c.readLiteral
    return ((), c)
  else
    let (_, c) ← c.readChar
    return ((), c)

theorem advances_skipSubsetPiece (u : Unit) : Advances (skipSubsetPiece u) := by
  intro c v d h
  unfold skipSubsetPiece at h
  split at h
  · cases h
  · split at h
    · obtain ⟨⟨content, e⟩, hread, h⟩ := bind_eq_ok.1 h
      cases h
      exact advances_readComment hread
    · split at h
      · obtain ⟨⟨literal, e⟩, hread, h⟩ := bind_eq_ok.1 h
        cases h
        exact advances_readLiteral hread
      · obtain ⟨⟨ch, e⟩, hread, h⟩ := bind_eq_ok.1 h
        cases h
        exact advances_readChar hread

/-- Passes over an internal subset, its brackets included. -/
def skipSubset (c : Cursor) : Except Fault Cursor := do
  let c ← c.expect '['
  let (_, c) ← c.readWhile (fun c => !c.sees [']']) skipSubsetPiece advances_skipSubsetPiece ()
  return c.next

/-- The identifiers of a document type: system and public. -/
def readExternalId (c : Cursor) : Except Fault ((Option String × Option String) × Cursor) := do
  if c.sees "SYSTEM".toList then
    let c ← (c.skip 6).requireBlanks
    let (systemId, c) ← c.readLiteral
    return ((some systemId, none), c)
  else if c.sees "PUBLIC".toList then
    let c ← (c.skip 6).requireBlanks
    let (publicId, c) ← c.readLiteral
    let c ← c.requireBlanks
    let (systemId, c) ← c.readLiteral
    return ((some systemId, some publicId), c)
  else return ((none, none), c)

/-- The document type declaration, and the warning about a subset that was passed over. -/
def readDoctype (c : Cursor) : Except ReadError ((Content × List Warning) × Cursor) := do
  let unwarned {α : Type} (r : Except Fault α) : Except ReadError α :=
    r.mapError fun fault => ⟨fault, []⟩
  let c ← unwarned (c.expectWord "<!DOCTYPE")
  let c ← unwarned c.requireBlanks
  let (name, c) ← unwarned c.readName
  let ((systemId, publicId), c) ← unwarned c.skipBlanks.readExternalId
  let c := c.skipBlanks
  let content := Content.doctype name systemId publicId
  if c.sees ['['] then
    let c ← unwarned c.skipSubset
    let warnings := [⟨.subsetIgnored name, c.position⟩]
    let c ← (c.skipBlanks.expect '>').mapError fun fault => ⟨fault, warnings⟩
    return ((content, warnings), c)
  else
    let c ← unwarned (c.expect '>')
    return ((content, []), c)

end Cursor

end XmlStore
