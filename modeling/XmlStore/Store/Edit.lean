/-
Edits of an open document that are put by paths. An edit looks for the nodes
it is about, checks names, and only then changes the tree. What a refused edit
has done to the document stays done. While an edit runs, nothing is remembered.
-/
import XmlStore.Store.Lookup

namespace XmlStore

abbrev Edit := Tracked OpenDocument

namespace Edit

/-- Puts a question to the document as it is at this point, without its cache. -/
def look {α : Type} (question : Lookup α) : Edit α := do
  let d ← get
  let uncached := { d with preferences := { d.preferences with caching := false } }
  let (answer, _) ← Tracked.runOn none (question.run uncached)
  return answer

/-- The document as it is at this point. -/
def document : Edit Document := return (← get).document

/-- Changes the document. -/
def change (f : Document → Document) : Edit Unit :=
  modify fun d => { d with document := f d.document }

/-- Adds a node outside the tree. -/
def create (content : Content) : Edit NodeId :=
  modifyGet fun d =>
    let (id, document) := d.document.create content
    (id, { d with document })

def requireName (name : String) : Edit Unit := do
  if !isQName name then throw (.invalidName name)

/-- Adds a text below a node, unless it is empty. -/
def appendText (id : NodeId) (text : String) : Edit Unit := do
  if !text.isEmpty then
    let child ← create (.text text)
    change (·.append id child)

/-- Adds an element with a text as the last child; its qualifier stands for what it stands for
there. -/
def appendElement (parent : NodeId) (name text : String) : Edit NodeId := do
  let id ← create (.element (.named ⟨none, name⟩))
  change fun document => (document.append parent id).rename id name
  appendText id text
  return id

/-- Puts an element into a namespace, declaring it there unless it is in force already. -/
def applyNamespace (id : NodeId) (qualifier : Option String) (uri : String) : Edit Unit := do
  let document ← document
  let inherited := (document.parent? id).bind fun parent =>
    document.lookupNamespace parent qualifier
  let declared := (document.content id).bindings.contains ⟨qualifier, uri⟩
  if inherited ≠ some uri && !declared then change (·.bind id qualifier uri)
  change (·.setNamespace id qualifier (some uri))

/-- Adds an element with a text at a place among the children of a node, counted from 1. -/
def insertElement (parent name : String) (uri text : Option String) (place : Nat) :
    Edit NodeId := do
  requireName name
  if uri = some "" then throw (.invalidNamespaceUri "")
  let parent ← look (Lookup.node parent)
  let id ← create (.element (.named (.ofString name)))
  appendText id (text.getD "")
  change (·.insertChildAt parent id place)
  match uri with
  | some uri => applyNamespace id (QName.ofString name).qualifier uri
  | none => change (·.rename id name)
  return id

/-- Puts a text in place of the first child of a node. -/
def replaceText (id : NodeId) (text : String) : Edit Unit := do
  let child ← create (.text text)
  change fun document =>
    match document.firstChild? id with
    | some first => document.replace first child
    | none => document.append id child

def updateText (path text : String) : Edit Unit := do
  let id ← look (Lookup.node path)
  replaceText id text

/-- Renames the children of a node that have a certain name. -/
def renameChildren (parent old new : String) : Edit Unit := do
  requireName new
  let id ← look (Lookup.node parent)
  let targets := (← document).childrenNamed id old
  if targets.isEmpty then throw (.elementNotFound s!"{parent}/{old}")
  targets.forM fun target => change (·.rename target new)

/-- Removes a node with what is below it. -/
def remove (path : String) : Edit Unit := do
  match ← look (Lookup.selectOne path) with
  | .node id =>
    if id = Document.root then throw (.notAnElement path)
    change (·.detach id)
  | .attribute .. => throw (.notAnElement path)

/-- Exchanges two elements. -/
def swap (a b : String) : Edit Unit := do
  let first ← look (Lookup.node a)
  let second ← look (Lookup.node b)
  let document ← document
  if first ≠ second then
    if document.isAncestor first second || document.isAncestor second first then
      throw (.nestedSwap a b)
    change (·.swap first second)

/-- Adds the root element of a text at a place among the children of a node, counted from 1. -/
def importMarkup (parent markup : String) (place : Nat) : Edit Unit := do
  match Document.ofString (← get).readOptions markup with
  | .error cause => throw (.notWellFormed cause)
  | .ok source =>
    let parent ← look (Lookup.node parent)
    match source.rootElement? with
    | none => throw .nothingImported
    | some top =>
      let (id, document) := (← document).importFrom source top
      change fun _ => document.insertChildAt parent id place

def setAttribute (path name value : String) : Edit Unit := do
  if name.isEmpty then throw .noAttributeName
  requireName name
  let id ← look (Lookup.node path)
  let document ← document
  if !document.isElement id then throw (.notAnElement path)
  if let some qualifier := (QName.ofString name).qualifier then
    if (document.lookupNamespace id (some qualifier)).isNone then
      throw (.invalidNamespacePrefix qualifier)
  change (·.setAttribute id name value)

/-- Removes an attribute of a node; it need not be there. -/
def removeAttribute (path name : String) : Edit Unit := do
  match ← look (Lookup.selectOne path) with
  | .node id => change (·.removeAttribute id name)
  | .attribute .. => return

end Edit

end XmlStore
