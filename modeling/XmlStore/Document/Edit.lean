/-
Edits of the tree. Each takes a document to the document after the edit, mends
the links of the nodes next to the place of the edit, and thereby acts on the
lists of children as its name says. A node that is put somewhere must not have
a parent, and must not contain that place.
-/
import XmlStore.Document.Basic

namespace XmlStore

namespace Document

/-- Changes one node. -/
def modify (d : Document) (id : NodeId) (f : Node → Node) : Document :=
  { d with nodes := d.nodes.modify id.index f }

/-- Lets a link of a node lead elsewhere. -/
def redirect (d : Document) (link : Link) (id : NodeId) (target : Option NodeId) : Document :=
  d.modify id (·.redirect link target)

def modifyContent (d : Document) (id : NodeId) (f : Content → Content) : Document :=
  d.modify id fun node => { node with content := f node.content }

/-- Changes the tag of an element. -/
def modifyTag (d : Document) (id : NodeId) (f : Element → Element) : Document :=
  d.modifyContent id (Content.mapElement f)

/-- Adds a node outside the tree. -/
def create (d : Document) (content : Content) : NodeId × Document :=
  (⟨d.size⟩, { d with nodes := d.nodes.push (.alone content) })

/-- Puts a node after the last child. -/
def append (d : Document) (parent child : NodeId) : Document :=
  let d := d.redirect .parent child (some parent)
  match d.lastChild? parent with
  | some last =>
    ((d.redirect .nextSibling last (some child)).redirect .previousSibling child (some last)).redirect
      .lastChild parent (some child)
  | none => (d.redirect .firstChild parent (some child)).redirect .lastChild parent (some child)

/-- Puts a node before its sibling to be; nothing happens if that has no parent. -/
def insertBefore (d : Document) (reference new : NodeId) : Document :=
  match d.parent? reference with
  | none => d
  | some parent =>
    let d := d.redirect .parent new (some parent)
    let d := match d.previousSibling? reference with
      | some previous =>
        (d.redirect .nextSibling previous (some new)).redirect .previousSibling new (some previous)
      | none => d.redirect .firstChild parent (some new)
    (d.redirect .nextSibling new (some reference)).redirect .previousSibling reference (some new)

/-- The child at a place counted from 1. -/
def childAt? (d : Document) (parent : NodeId) : Nat → Option NodeId
  | 0 => none
  | n + 1 => (d.children parent)[n]?

/-- Makes a node the child at a place counted from 1, or the last one if there is no such place. -/
def insertChildAt (d : Document) (parent child : NodeId) (place : Nat) : Document :=
  match d.childAt? parent place with
  | some reference => d.insertBefore reference child
  | none => d.append parent child

/-- Takes a node out of the tree. -/
def detach (d : Document) (id : NodeId) : Document :=
  match d.parent? id with
  | none => d
  | some parent =>
    let previous := d.previousSibling? id
    let next := d.nextSibling? id
    let d := match previous with
      | some sibling => d.redirect .nextSibling sibling next
      | none => d.redirect .firstChild parent next
    let d := match next with
      | some sibling => d.redirect .previousSibling sibling previous
      | none => d.redirect .lastChild parent previous
    ((d.redirect .parent id none).redirect .previousSibling id none).redirect .nextSibling id none

/-- Puts `new` where `old` was. -/
def replace (d : Document) (old new : NodeId) : Document := (d.insertBefore old new).detach old

/-- Exchanges the places of two nodes, neither of which contains the other. Two new nodes hold the
places meanwhile. -/
def swap (d : Document) (a b : NodeId) : Document :=
  if a = b then d
  else
    let (placeOfA, d) := d.create (.text "")
    let (placeOfB, d) := d.create (.text "")
    let d := ((d.insertBefore a placeOfA).insertBefore b placeOfB).detach a |>.detach b
    (((d.insertBefore placeOfB a).insertBefore placeOfA b).detach placeOfA).detach placeOfB

/-- Adds new nodes for a forest as the last children of a node. -/
def addForest (parent : NodeId) : Forest Content → Document → Document
  | .nil, d => d
  | .cons content children rest, d =>
    let (id, d) := d.create content
    addForest parent rest (addForest id children (d.append parent id))

/-- Adds new nodes for a tree, outside the tree of the document. -/
def graft (d : Document) (content : Content) (children : Forest Content) : NodeId × Document :=
  let (id, d) := d.create content
  (id, addForest id children d)

/-- Copies a node and what is below it. -/
def duplicate (d : Document) (id : NodeId) : NodeId × Document :=
  d.graft (d.content id) (d.contents id)

/-- Copies a node of another document and what is below it. -/
def importFrom (d source : Document) (id : NodeId) : NodeId × Document :=
  d.graft (source.content id) (source.contents id)

/-- Adds a new element with the given text as the last child; an empty text adds no node. -/
def addTextElement (d : Document) (parent : NodeId) (tag : Element) (text : String) :
    NodeId × Document :=
  let (id, d) := d.create (.element tag)
  let d := d.append parent id
  if text.isEmpty then (id, d)
  else
    let (child, d) := d.create (.text text)
    (id, d.append id child)

/-- The document that a markup stands for. -/
def ofMarkup (m : Markup) : Document :=
  addForest root m.nodes { empty with declaration := m.declaration }

/-- Reads a text as a document. -/
def ofString (options : ReadOptions) (s : String) : Except ReadError Document :=
  (Markup.ofString options s).map ofMarkup

end Document

end XmlStore
