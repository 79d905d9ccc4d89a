/-
Reading a document: text or bytes to declaration, forest of nodes and
warnings. The content of an element is read by one recursion that follows
the forest it builds: a node, its children, then its later siblings. It has a
bound on the number of nodes, which no text can meet.
-/
import XmlStore.Markup.Tag
import XmlStore.Encoding.Detect
import XmlStore.Forest

namespace XmlStore

structure ReadOptions where
  /-- Leave out white space between elements. -/
  noBlanks : Bool
  /-- How deep elements may be nested. -/
  maxDepth : Nat
deriving DecidableEq, Repr

/-- All white space is kept, and elements may be nested 256 deep. -/
def ReadOptions.default : ReadOptions := ⟨false, 256⟩

/-- A document as read: what stands below the document node, in order. -/
structure Markup where
  declaration : Declaration
  nodes : Forest Content
  warnings : List Warning
deriving DecidableEq, Repr

/-- How far reading has come, and what it has warned about. -/
structure Progress where
  cursor : Cursor
  warnings : List Warning
deriving DecidableEq, Repr

namespace Progress

/-- Runs a reader that does not warn. -/
def read {α : Type} (p : Progress) (reader : Cursor → Except Fault (α × Cursor)) :
    Except ReadError (α × Progress) :=
  match reader p.cursor with
  | .ok (a, c) => .ok (a, { p with cursor := c })
  | .error fault => .error ⟨fault, p.warnings⟩

def move (p : Progress) (reader : Cursor → Except Fault Cursor) : Except ReadError Progress :=
  match reader p.cursor with
  | .ok c => .ok { p with cursor := c }
  | .error fault => .error ⟨fault, p.warnings⟩

def error {α : Type} (p : Progress) (flaw : Flaw) : Except ReadError α :=
  .error ⟨p.cursor.fault flaw, p.warnings⟩

end Progress

/-- What begins at a place inside an element. -/
inductive Beginning where
  | nothing
  | endTag
  | cdata
  | aside
  | startTag
  | characters
deriving DecidableEq, Repr

namespace Cursor

def beginning (c : Cursor) : Beginning :=
  if c.atEnd then .nothing
  else if c.sees ['<', '/'] then .endTag
  else if c.sees "<![CDATA[".toList then .cdata
  else if c.seesAside then .aside
  else if c.sees ['<'] then .startTag
  else .characters

/-- One character of a text, written out or as a reference. -/
def readTextChar (c : Cursor) : Except Fault (Char × Cursor) :=
  if c.sees ['&'] then c.readReference
  else if c.sees [']', ']', '>'] then .error (c.fault .cdataEndInText)
  else c.readChar

theorem advances_readTextChar : Advances readTextChar := by
  intro c ch d h
  unfold readTextChar at h
  split at h
  · exact advances_readReference h
  · split at h
    · cases h
    · exact advances_readChar h

def readText (c : Cursor) : Except Fault (String × Cursor) :=
  c.readUntil (fun c => c.atEnd || c.sees ['<']) readTextChar advances_readTextChar

end Cursor

/-- Whether a text is left out: a blank one that is not all its element holds. -/
def ReadOptions.drops (options : ReadOptions) (text : String) (hasSibling : Bool) : Bool :=
  options.noBlanks && text.toList.all isBlank && hasSibling

/-- An element, its content read by `content` in the scope of its declarations. -/
def readElement (options : ReadOptions) (depth : Nat) (scope : Scope) (p : Progress)
    (content : Scope → Progress → Except ReadError (Forest Content × Progress)) :
    Except ReadError ((Element × Forest Content) × Progress) := do
  if depth > options.maxDepth then p.error (.tooDeep options.maxDepth)
  else
    let (tag, p) ← p.read Cursor.readTag
    let scope := scope.enter tag.bindings
    let tag := scope.resolveTag tag
    let p := { p with warnings := p.warnings ++ tag.warnings p.cursor.position }
    if p.cursor.sees ['/', '>'] then
      return ((tag, .nil), { p with cursor := p.cursor.skip 2 })
    else
      let p ← p.move (·.expect '>')
      let (children, p) ← content scope p
      let p ← p.move (·.readEndTag tag.name.text)
      return ((tag, children), p)

/-- What reads the content of an element at a depth, in a scope, up to the end tag. The flag says
whether a node before this place has been kept. -/
abbrev ContentReader := Nat → Scope → Bool → Progress → Except ReadError (Forest Content × Progress)

/-- Reads the node at this place, and with `again` its content and its later siblings. -/
def readContentBy (options : ReadOptions) (again : ContentReader) : ContentReader :=
  fun depth scope started p =>
    match p.cursor.beginning with
    | .nothing => p.error .contentUnfinished
    | .endTag => .ok (.nil, p)
    | .cdata => do
      let (content, q) ← p.read Cursor.readCdata
      let (rest, q) ← again depth scope true q
      return (.cons content .nil rest, q)
    | .aside => do
      let (content, q) ← p.read Cursor.readAside
      let (rest, q) ← again depth scope true q
      return (.cons content .nil rest, q)
    | .startTag => do
      let ((tag, children), q) ←
        readElement options (depth + 1) scope p fun scope => again (depth + 1) scope false
      let (rest, q) ← again depth scope true q
      return (.cons (.element tag) children rest, q)
    | .characters => do
      let (text, q) ← p.read Cursor.readText
      if options.drops text (started || !q.cursor.sees ['<', '/']) then again depth scope started q
      else
        let (rest, q) ← again depth scope true q
        return (.cons (.text text) .nil rest, q)

/-- Reads content of at most `size` nodes, counted along each way down and to later siblings. -/
def readContentWithin (options : ReadOptions) : Nat → ContentReader
  | 0 => fun _ _ _ p => p.error .contentUnfinished
  | size + 1 => readContentBy options (readContentWithin options size)

/-- The content of an element. Each node takes at least one character, so there are never more
nodes than characters. -/
def readContent (options : ReadOptions) : ContentReader := fun depth scope started p =>
  readContentWithin options (p.cursor.remaining + 1) depth scope started p

/-- Nodes without children, one after the other. -/
def leaves : List Content → Forest Content
  | [] => .nil
  | content :: rest => .cons content .nil (leaves rest)

/-- The document type declaration and what stands between it and the root element. -/
def readTypeDeclaration (p : Progress) : Except ReadError (List Content × Progress) := do
  if p.cursor.sees "<!DOCTYPE".toList then
    let ((doctype, warnings), c) ← p.cursor.readDoctype
    let (asides, p) ← (Progress.mk c (p.warnings ++ warnings)).read Cursor.readAsides
    return (doctype :: asides, p)
  else return ([], p)

/-- Reads a whole document. -/
def readDocument (options : ReadOptions) (c : Cursor) : Except ReadError Markup := do
  let (declaration, p) ← (Progress.mk c []).read Cursor.readOptionalDeclaration
  let (before, p) ← p.read Cursor.readAsides
  let (typed, p) ← readTypeDeclaration p
  if !p.cursor.sees ['<'] then p.error .missingRoot
  else
    let ((tag, children), p) ← readElement options 1 .initial p
      (fun scope p => readContent options 1 scope false p)
    let (after, p) ← p.read Cursor.readAsides
    if !p.cursor.atEnd then p.error .contentAfterRoot
    else
      let nodes := leaves (before ++ typed) ++ .cons (.element tag) children (leaves after)
      return ⟨declaration, nodes, p.warnings⟩

namespace Markup

/-- Reads a text; a byte order mark at its start is passed over. -/
def ofString (options : ReadOptions) (s : String) : Except ReadError Markup :=
  let chars := match s.toList with
    | '\uFEFF' :: rest => rest
    | chars => chars
  readDocument options ⟨chars, .start⟩

/-- Reads bytes in the encoding they declare. -/
def ofBytes (options : ReadOptions) (bytes : Bytes) : Except ReadError Markup :=
  match decodeDocument bytes with
  | .ok s => ofString options s
  | .error error => .error ⟨⟨.undecodable error, .nowhere⟩, []⟩

/-- The first element below the document node, with its children. -/
def root? (m : Markup) : Option (Content × Forest Content) := m.nodes.find? Content.isElement

end Markup

end XmlStore
