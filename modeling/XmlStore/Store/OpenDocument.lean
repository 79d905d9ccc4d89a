/-
A document that is open, with what is known about it: where it came from,
whether it has been saved, how it is to be written, and the qualifiers that
expressions about it may use.
-/
import XmlStore.Store.Message
import XmlStore.Document.Select

namespace XmlStore

/-- Whether a document may still be changed. -/
inductive Status where
  | editable
  | saved
deriving DecidableEq, Repr

/-- What can be set for a document at any time. -/
structure Preferences where
  prettyPrint : Bool
  /-- The namespaces of qualifiers in expressions; no qualifier has two. -/
  namespaces : List (String × String)
  /-- Whether the last selection is remembered. -/
  caching : Bool
deriving DecidableEq, Repr

/-- Gives a qualifier a namespace, in place of an earlier one. -/
def Preferences.register (p : Preferences) (qualifier uri : String) : Preferences :=
  { p with namespaces := p.namespaces.filter (·.1 != qualifier) ++ [(qualifier, uri)] }

theorem Preferences.lookup_register (p : Preferences) (qualifier uri : String) :
    (p.register qualifier uri).namespaces.lookup qualifier = some uri := by
  unfold register
  generalize p.namespaces = l
  simp only
  induction l with
  | nil => simp
  | cons b rest ih =>
    obtain ⟨known, old⟩ := b
    by_cases h : known = qualifier
    · simpa [h] using ih
    · have differs : (qualifier == known) = false := by simpa using fun e => h e.symm
      simpa [h, List.lookup_cons, differs] using ih

/-- The last selection, with the expression it answers. -/
abbrev QueryCache := Option (String × List Hit)

structure OpenDocument where
  document : Document
  preferences : Preferences
  status : Status
  /-- The path it was opened from or last saved to. -/
  path : Option String
  fileName : Option String
  directory : Option String
  /-- Whether other files have been included. -/
  hasIncluded : Bool
  readOptions : ReadOptions
  /-- What one level of indentation is written as. -/
  indentUnit : String
  cache : QueryCache

/-- What holds for every document that is opened. -/
structure StoreOptions where
  prettyPrint : Bool
  indentUnit : String
  /-- Keep white space between elements. -/
  keepBlanks : Bool
  caching : Bool
  maxDepth : Nat
deriving DecidableEq, Repr

namespace StoreOptions

/-- Documents are indented by two spaces, blanks are left out, elements nest up to 256 deep. -/
def default : StoreOptions := ⟨true, "  ", false, false, 256⟩

def readOptions (o : StoreOptions) : ReadOptions := ⟨!o.keepBlanks, o.maxDepth⟩

end StoreOptions

namespace OpenDocument

/-- A document that was just created, with no file of its own. -/
def ofDocument (o : StoreOptions) (document : Document) : OpenDocument where
  document
  preferences := ⟨o.prettyPrint, [], o.caching⟩
  status := .editable
  path := none
  fileName := none
  directory := none
  hasIncluded := false
  readOptions := o.readOptions
  indentUnit := o.indentUnit
  cache := none

def writeOptions (d : OpenDocument) : WriteOptions :=
  ⟨d.preferences.prettyPrint, d.indentUnit, none⟩

/-- The options for files, which declare their encoding. -/
def fileOptions (d : OpenDocument) : WriteOptions :=
  { d.writeOptions with encoding := some "utf-8" }

def write (d : OpenDocument) : String := d.document.write d.writeOptions

def writeNode (d : OpenDocument) (id : NodeId) : String := d.document.writeNode d.writeOptions id

/-- The items an expression selects. -/
def select (d : OpenDocument) (expression : String) : Except Error (List Hit) :=
  match d.document.select d.preferences.namespaces expression with
  | .ok items => .ok items
  | .error cause => .error (.invalidPath expression cause)

/-- The registered namespaces in ascending order of their qualifiers. -/
def namespaces (d : OpenDocument) : List (String × String) :=
  d.preferences.namespaces.mergeSort fun a b => a.1 ≤ b.1

end OpenDocument

end XmlStore
