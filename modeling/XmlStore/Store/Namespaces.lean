/-
Namespaces of open documents. The qualifiers that expressions use are
registered apart from those that the document declares; both may be set here.
-/
import XmlStore.Store.Edit

namespace XmlStore

/-- Requires a name without a colon. -/
def checkQualifier (qualifier : String) : Except Error Unit :=
  if isQName qualifier && !qualifier.toList.contains ':' then .ok ()
  else .error (.invalidNamespacePrefix qualifier)

def checkUri (uri : String) : Except Error Unit :=
  if uri.isEmpty then .error (.invalidNamespaceUri uri) else .ok ()

namespace Preferences

/-- Registers every qualifier that a document declares, later declarations in place of earlier
ones. A default namespace has no qualifier and is left out. -/
def registerAll (p : Preferences) (document : Document) : Reported Preferences := do
  let bindings := (document.descendants Document.root).flatMap fun id =>
    (document.content id).bindings
  bindings.foldlM (fun p b =>
    match b.qualifier with
    | some qualifier => return if qualifier = "xml" then p else p.register qualifier b.uri
    | none => do
      Reported.tell s!"default namespace '{b.uri}' not registered, it has no prefix"
      return p) p

end Preferences

namespace Edit

/-- The only element at a path; the document node does not count. -/
def element (path : String) : Edit NodeId := do
  let id ← look (Lookup.node path)
  if !(← document).isElement id then throw (.notAnElement path)
  return id

/-- Puts an element into a namespace; an empty qualifier makes it the default one. -/
def setNamespace (path uri qualifier : String) : Edit Unit := do
  checkUri uri
  if !qualifier.isEmpty then checkQualifier qualifier
  let id ← element path
  applyNamespace id (if qualifier.isEmpty then none else some qualifier) uri

/-- Declares a namespace on an element unless the qualifier stands for it there already. -/
def declareNamespace (path uri qualifier : String) : Edit Unit := do
  checkQualifier qualifier
  checkUri uri
  let id ← element path
  if (← document).lookupNamespace id (some qualifier) ≠ some uri then
    change (·.bind id (some qualifier) uri)

end Edit

end XmlStore
