/-
Questions about a document that are put as path expressions. A lookup reads
the document, may use and refill the cache, and changes nothing else; the
cache holds the last selection only, so that it never outlives a change.
-/
import XmlStore.Store.OpenDocument

namespace XmlStore

abbrev Lookup := ReaderT OpenDocument (Tracked QueryCache)

namespace Lookup

/-- What an expression selects, remembered if the document asks for it. -/
def select (expression : String) : Lookup (List Hit) := do
  let d ← read
  if d.preferences.caching then
    match ← get with
    | some (known, hits) =>
      if known == expression then return hits
    | none => pure ()
  let hits ← d.select expression
  if d.preferences.caching then set (some (expression, hits))
  return hits

/-- A path without a slash at its end; the path of the document node is one. -/
def withoutSlash (path : String) : String :=
  let chars := path.toList
  if 1 < chars.length && chars.getLast? == some '/' then String.ofList chars.dropLast else path

/-- The path of what stands below a path under a name. -/
def pathBelow (path name : String) : String :=
  String.ofList (path.toList.reverse.dropWhile (· == '/')).reverse ++ "/" ++ name

/-- What is at a path, which must not be nothing. -/
def selectSome (path : String) : Lookup (List Hit) := do
  let path := withoutSlash path
  let hits ← select path
  if hits.isEmpty then throw (.elementNotFound path)
  return hits

/-- The only node or attribute at a path. -/
def selectOne (path : String) : Lookup Hit := do
  match ← selectSome path with
  | [hit] => return hit
  | hits => throw (.pathNotUnique (withoutSlash path) hits.length)

/-- The only element at a path, or the document node. -/
def node (path : String) : Lookup NodeId := do
  let document := (← read).document
  match ← selectOne path with
  | .node id =>
    match document.content id with
    | .element _ | .document => return id
    | _ => throw (.notAnElement (withoutSlash path))
  | .attribute .. => throw (.notAnElement (withoutSlash path))

/-- The member of a list at an index counted from 1. -/
def atIndex {α : Type} (path : String) (members : List α) (index : Int) : Lookup α :=
  match if 1 ≤ index then members[index.toNat - 1]? else none with
  | some a => return a
  | none => throw (.indexOutOfRange path index)

/-- One of what an expression selects, by its index counted from 1. -/
def hit (expression : String) (index : Int) : Lookup Hit := do
  atIndex expression (← selectSome expression) index

/-- Requires exactly one element at a path. -/
def checkElement (path : String) : Lookup Unit := discard (node path)

def checkAttribute (path name : String) : Lookup Unit := do
  let id ← node path
  if ((← read).document.attribute? id name).isNone then throw (.attributeNotFound path name)

def namedChildCount (path name : String) : Lookup Nat := do
  let id ← node path
  return ((← read).document.childrenNamed id name).length

def childCount (path : String) : Lookup Nat := do
  let id ← node path
  return ((← read).document.children id).length

/-- The name by which a child is listed. -/
def childLabel : Content → String
  | .text _ => "#text"
  | .cdata _ => "#cdata-section"
  | .comment _ => "#comment"
  | .instruction .. => "#pi"
  | .doctype name _ _ => name
  | content => content.qualifiedName?.getD ""

def childName (path : String) (index : Int) : Lookup String := do
  if index ≤ 0 then throw (.indexOutOfRange path index)
  let id ← node path
  let document := (← read).document
  return childLabel (document.content (← atIndex path (document.children id) index))

def nodeType (path : String) : Lookup String := do
  match ← selectOne path with
  | .attribute .. => return "ATTRIBUTE_NODE"
  | .node id => return ((← read).document.content id).nodeType

/-- How much an expression selects. -/
def count (expression : String) : Lookup Nat := return (← select expression).length

/-- What a hit is worth as a value: the text directly in an element, the value of an attribute,
the content of any other node. -/
def hitValue (document : Document) : Hit → String
  | .attribute owner index => document.attributeValue owner index
  | .node id =>
    if document.isElement id then document.directText id
    else (document.content id).ownText?.getD ""

def hitText (expression : String) (index : Int) : Lookup String := do
  return hitValue (← read).document (← hit expression index)

/-- The local name of an element among what an expression selects. -/
def hitName (expression : String) (index : Int) : Lookup String := do
  let document := (← read).document
  match ← hit expression index with
  | .node id =>
    match document.content id with
    | .element tag => return tag.name.localPart
    | _ => throw (.notAnElement expression)
  | .attribute .. => throw (.notAnElement expression)

def hitLocation (expression : String) (index : Int) : Lookup String := do
  return (← read).document.hitLocation (← hit expression index)

/-- The text directly in the only element at a path. -/
def elementText (path : String) : Lookup String := do
  let id ← node path
  return (← read).document.directText id

def attributeText (path name : String) : Lookup String := do
  let id ← node path
  match (← read).document.attribute? id name with
  | some value => return value
  | none => throw (.attributeNotFound path name)

def attributeCount (path : String) : Lookup Nat := do
  let id ← node path
  return ((← read).document.attributes id).length

def attributeName (path : String) (index : Int) : Lookup String := do
  let id ← node path
  let a ← atIndex path ((← read).document.attributes id) index
  return a.name.text

/-- An element with what is below it as text; of the document node, the whole document. -/
def elementMarkup (path : String) : Lookup String := do
  let id ← node path
  let d ← read
  return if id = Document.root then d.write else d.writeNode id

end Lookup

end XmlStore
