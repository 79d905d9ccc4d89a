/-
External data. A reference is an element that names a directory and files in
it; including it puts the root elements of these files in its place, marked
with where they came from. Saving undoes this on a copy: marked elements go
back to their files, and references take their place again.
-/
import XmlStore.Store.Edit
import XmlStore.Files.Basic

namespace XmlStore

/-- How a document goes to its file. -/
inductive SaveMode where
  /-- Everything in one file. -/
  | complete
  /-- Included elements go to their own files. -/
  | split
  /-- Included elements are left out. -/
  | removed
deriving DecidableEq, Repr

namespace External

def referenceName : String := "externaldata"

def pathName : String := "path"

def fileNameName : String := "filename"

/-- The attributes that mark an included element: its file, the directory of this, and the location
it was included at. -/
def fileMark : String := "externalFileName"

def directoryMark : String := "externalDataDirectory"

def locationMark : String := "externalDataNodePath"

def marks : List String := [fileMark, directoryMark, locationMark]

/-- The scheme of local files. -/
def fileScheme : String := "file://"

def remoteSchemes : List String := ["http://", "https://", "ftp://", "ssh://"]

def hasScheme (scheme directory : String) : Bool := scheme.toList.isPrefixOf directory.toList

def isRemote (directory : String) : Bool := remoteSchemes.any (hasScheme · directory)

/-- The path of a directory seen from another; none if it is not local. -/
def localDirectory? (base : Option String) (directory : String) : Option String :=
  let path := match fileScheme.toList.isPrefixOf? directory.toList with
    | some rest => some (String.ofList rest)
    | none => if isRemote directory then none else some directory
  path.map (FilePath.join (base.getD "") ·)

/-- A directory as a URI. -/
def directoryUri (directory : String) : String :=
  if hasScheme fileScheme directory || isRemote directory then directory
  else fileScheme ++ directory

/-- The first reference in document order. -/
def firstReference? (d : Document) : Option NodeId :=
  (d.descendants Document.root).find? fun id => (d.content id).isNamed referenceName

/-- The texts of the children of a node that have a certain name. -/
def childTexts (d : Document) (id : NodeId) (name : String) : List String :=
  (d.childrenNamed id name).map d.directText

/-- The directory and the files that a reference names. -/
def target (d : Document) (id : NodeId) : Except Error (String × List String) :=
  match (childTexts d id pathName).head?, childTexts d id fileNameName with
  | none, _ => .error (.unusableExternal (d.location id) .noPath)
  | some _, [] => .error (.unusableExternal (d.location id) .noFileName)
  | some directory, files => .ok (directory, files)

/-- Puts a marked copy of an element of another document before a node. -/
def insertMarked (reference : NodeId) (marks : List (String × String)) (source : Document)
    (top : NodeId) (d : Document) : Document :=
  let (id, d) := d.importFrom source top
  let d := marks.foldl (fun d (name, value) => d.setAttribute id name value) d
  d.insertBefore reference id

/-- Includes one file before its reference. A file that is no document is passed over with a
warning. -/
def includeFile (files : Files) (reference : NodeId) (path : String)
    (marks : List (String × String)) : Edit Nat := do
  match files.read path with
  | .error cause => throw (.unreadableFile path cause)
  | .ok bytes =>
    match Markup.ofBytes (← get).readOptions bytes with
    | .error cause =>
      let reason := s!"not a valid XML document: {cause.message}"
      Reported.warn s!"document {path} will be ignored, {reason}"
      return 0
    | .ok markup =>
      let source := Document.ofMarkup markup
      match source.rootElement? with
      | none => return 0
      | some top =>
        Edit.change (insertMarked reference marks source top)
        return 1

/-- Replaces a reference by what it refers to, and gives the number of elements included. -/
def includeReference (files : Files) (id : NodeId) : Edit Nat := do
  let d ← Edit.document
  let (directory, names) ← target d id
  match localDirectory? (← get).directory directory with
  | none => throw (.unusableExternal directory .notLocal)
  | some resolved =>
    let location := d.location ((d.parent? id).getD Document.root)
    let counts ← names.mapM fun name =>
      includeFile files id (FilePath.join resolved name)
        [(fileMark, name), (directoryMark, directoryUri directory), (locationMark, location)]
    Edit.change (·.detach id)
    return counts.foldl (· + ·) 0

/-- Replaces references, those in included files too, until there is none; gives the number of
elements included, or none if more than `patience` references had to be replaced. -/
def includeAll (files : Files) (patience : Nat) : Edit (Option Nat) := do
  match firstReference? (← Edit.document) with
  | none => return some 0
  | some id =>
    match patience with
    | 0 => return none
    | patience + 1 =>
      let count ← includeReference files id
      return (← includeAll files patience).map (count + ·)

/-- Whether a node carries all marks. -/
def isMarked (d : Document) (id : NodeId) : Bool :=
  marks.all fun name => (d.attribute? id name).isSome

/-- The included elements, inner ones before those around them. -/
def markedElements (d : Document) : List NodeId :=
  ((d.descendants Document.root).filter (isMarked d)).reverse

/-- Writes to files, which stay written if something fails afterwards. -/
abbrev Saving := ExceptT Error (StateM Files)

def writeFile (path text : String) : Saving Unit := do
  match (← getThe Files).write path (utf8Bytes text) with
  | .ok files => set files
  | .error cause => throw (.unwritableFile path cause)

/-- Declares on an element of its own document the namespaces in force around another element. -/
def inheritBindings (bindings : List Binding) (top : NodeId) (d : Document) : Document :=
  bindings.foldl (fun d b =>
    if ((d.content top).bindings.map (·.qualifier)).contains b.qualifier then d
    else d.bind top b.qualifier b.uri) d

/-- A document of its own for an element of another. -/
def extract (d : Document) (id : NodeId) : Document :=
  let around := ((d.ancestors id).drop 1).flatMap fun above => (d.content above).bindings
  let (top, own) := Document.empty.importFrom d id
  (inheritBindings around top own).append Document.root top

/-- The reference below a node that names a directory; a new one if there is none. -/
def holder (d : Document) (parent : NodeId) (directory : String) : NodeId × Document :=
  let existing := (d.childrenNamed parent referenceName).find? fun child =>
    (childTexts d child pathName).head? == some directory
  match existing with
  | some id => (id, d)
  | none =>
    let (id, d) := d.addTextElement parent (.named ⟨none, referenceName⟩) ""
    (id, (d.addTextElement id (.named ⟨none, pathName⟩) directory).2)

/-- Puts a reference in place of an included element. -/
def restoreReference (id : NodeId) (fileName directory : String) (d : Document) : Document :=
  let (reference, d) := holder d ((d.parent? id).getD Document.root) directory
  (d.addTextElement reference (.named ⟨none, fileNameName⟩) fileName).2.detach id

/-- Writes an included element to its file, unless that is not local, and restores its reference. -/
def splitElement (base : String) (options : WriteOptions) (d : Document) (id : NodeId) :
    Saving Document := do
  let fileName := (d.attribute? id fileMark).getD ""
  let directory := (d.attribute? id directoryMark).getD ""
  let d := marks.foldl (fun d name => d.removeAttribute id name) d
  if let some resolved := localDirectory? (some base) directory then
    writeFile (FilePath.join resolved fileName) ((extract d id).write options)
  return restoreReference id fileName directory d

/-- The document that goes to the main file; with it, included elements go to theirs. -/
def prepare (d : OpenDocument) (path : String) : SaveMode → Saving Document
  | .complete => return d.document
  | .split =>
    (markedElements d.document).foldlM
      (splitElement (FilePath.directory path) d.fileOptions) d.document
  | .removed => return (markedElements d.document).foldl Document.detach d.document

def save (d : OpenDocument) (path : String) (mode : SaveMode) : Saving Unit := do
  let document ← prepare d path mode
  writeFile path (document.write d.fileOptions)

end External

end XmlStore
