/-
Identifiers of elements. An element is identified by its attribute `uID` and
refers to others by attributes `isLink`. Which identifiers there are is read
from the document each time.
-/
import XmlStore.Store.Edit

namespace XmlStore

def uidAttribute : String := "uID"

def linkAttribute : String := "isLink"

/-- What is done about a link besides adding it. -/
inductive LinkMode where
  | create
  /-- Add the link only if there is none yet, and answer with the location of its target. -/
  | createAndOpen
deriving DecidableEq, Repr

namespace LinkMode

def name : LinkMode → String
  | create => "Create"
  | createAndOpen => "CreateAndOpen"

def ofNumber (mode : Int) : Except Error LinkMode :=
  if mode = 0 then .ok create
  else if mode = 1 then .ok createAndOpen
  else .error (.unknownLinkMode mode)

end LinkMode

namespace Document

/-- The identifiers of a document with the elements that bear them, in document order. -/
def uids (d : Document) : List (String × NodeId) :=
  (d.descendants root).filterMap fun id => (d.attribute? id uidAttribute).map fun uid => (uid, id)

/-- The first element with an identifier. -/
def withUid? (d : Document) (uid : String) : Option NodeId := d.uids.lookup uid

/-- The targets of all links. -/
def links (d : Document) : List String :=
  (d.descendants root).filterMap fun id => d.attribute? id linkAttribute

end Document

/-- Requires that none of these identifiers occurs twice or among those seen before. Empty ones are
passed over, the first of them with a warning. -/
def checkDistinct (warned : Bool) (seen : List String) : List String → Reported Unit
  | [] => return
  | uid :: rest => do
    if uid.isEmpty then
      if !warned then Reported.warn "empty uID found, this might lead to unexpected errors"
      checkDistinct true seen rest
    else if seen.contains uid then throw (.uidNotUnique uid)
    else checkDistinct warned (uid :: seen) rest

/-- Requires that no identifier of a document occurs twice. -/
def Document.checkUids (d : Document) : Reported Unit :=
  checkDistinct false [] (d.uids.map (·.1))

namespace Lookup

def checkUids : Lookup Unit := do
  (← read).document.checkUids

/-- Requires that every link leads to an identifier. -/
def checkLinks : Lookup Unit := do
  let document := (← read).document
  let uids := document.uids.map (·.1)
  if let some link := document.links.find? (!uids.contains ·) then throw (.uidLinkBroken link)

/-- The element with an identifier. -/
def withUid (uid : String) : Lookup NodeId := do
  match (← read).document.withUid? uid with
  | some id => return id
  | none => throw (.uidUnknown uid)

/-- The location of the element with an identifier; repeated identifiers are no more than warned
about. -/
def uidLocation (uid : String) : Lookup String := do
  let document := (← read).document
  try checkUids
  catch e => Reported.warn s!"there are duplicated uIDs in the document: {e.message}"
  return document.location (← withUid uid)

def checkUid (uid : String) : Lookup Unit := do
  checkUids
  discard (withUid uid)

end Lookup

namespace Edit

def setUid (path uid : String) : Edit Unit := do
  (← document).checkUids
  setAttribute path uidAttribute uid

/-- Adds a link to an identifier below a node. -/
def addLink (parent name target : String) (mode : LinkMode) : Edit (Option String) := do
  requireName name
  let targetId ← look (Lookup.withUid target)
  let location := (← document).location targetId
  let id ← look (Lookup.node parent)
  let document ← document
  let linked := (document.childrenNamed id name).any fun child =>
    document.attribute? child linkAttribute == some target
  if mode = .create || !linked then
    let link ← appendElement id name ""
    change (·.setAttribute link linkAttribute target)
  return if mode = .create then none else some location

end Edit

end XmlStore
