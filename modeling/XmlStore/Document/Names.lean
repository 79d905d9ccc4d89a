/-
Names in a document: which namespace a qualifier stands for at a node, and
the edits of tags that depend on it.
-/
import XmlStore.Document.Edit

namespace XmlStore

namespace Document

/-- The declarations in force at a node, innermost first. -/
def scope (d : Document) (id : NodeId) : List Binding :=
  (d.ancestors id).flatMap fun ancestor => (d.content ancestor).bindings

/-- The namespace a qualifier stands for at a node; `none` asks for the default namespace. -/
def lookupNamespace (d : Document) (id : NodeId) (qualifier : Option String) : Option String :=
  if qualifier = some "xml" then some xmlNamespace
  else (((d.scope id).find? (·.qualifier == qualifier)).map (·.uri)).filter (!·.isEmpty)

/-- A qualifier that stands for a namespace at a node: the first declaration in force of it that
no inner one hides. -/
def lookupQualifier (d : Document) (id : NodeId) (uri : String) : Option (Option String) :=
  ((d.scope id).find? fun b => b.uri == uri && d.lookupNamespace id b.qualifier == some uri).map
    (·.qualifier)

/-- The namespace of a name with a qualifier, for an attribute at a node. -/
def attributeNamespace (d : Document) (id : NodeId) (name : QName) : Option String :=
  name.qualifier.bind fun qualifier => d.lookupNamespace id (some qualifier)

def setAttribute (d : Document) (id : NodeId) (name value : String) : Document :=
  let uri := d.attributeNamespace id (.ofString name)
  d.modifyTag id (·.setAttribute name value uri)

def removeAttribute (d : Document) (id : NodeId) (name : String) : Document :=
  d.modifyTag id (·.removeAttribute name)

/-- Declares a namespace on an element. -/
def bind (d : Document) (id : NodeId) (qualifier : Option String) (uri : String) : Document :=
  d.modifyTag id (·.bind qualifier uri)

/-- Puts an element into a namespace under a qualifier. -/
def setNamespace (d : Document) (id : NodeId) (qualifier uri : Option String) : Document :=
  d.modifyTag id fun tag => { tag with name := { tag.name with qualifier }, uri }

/-- Renames an element; its namespace is what the new qualifier stands for. -/
def rename (d : Document) (id : NodeId) (name : String) : Document :=
  let name := QName.ofString name
  let uri := d.lookupNamespace id name.qualifier
  d.modifyTag id fun tag => { tag with name, uri }

end Document

end XmlStore
