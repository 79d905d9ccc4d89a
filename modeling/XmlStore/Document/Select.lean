/-
Selecting in a document: its tree as expressions see it, and back from the
items of that tree to the nodes of the document and their attributes.
-/
import XmlStore.Document.Location
import XmlStore.Path.Eval

namespace XmlStore

/-- What an expression selects in a document. -/
inductive Hit where
  | node (id : NodeId)
  /-- The attribute at an index of an element. -/
  | attribute (owner : NodeId) (index : Nat)
deriving DecidableEq, Repr

/-- The node that was hit, if it is no attribute. -/
def Hit.node? : Hit → Option NodeId
  | .node id => some id
  | .attribute .. => none

namespace Document

/-- The document without the identities of its nodes. -/
def tree (d : Document) : Tree := .ofForest (d.contents root)

/-- The nodes and attributes that items of the tree stand for. -/
def hits (d : Document) (items : List Item) : List Hit :=
  let nodes := d.documentOrder.toArray
  let nodeAt (n : Rank) : NodeId := nodes.getD n root
  items.map fun item =>
    match item with
    | .node n => .node (nodeAt n)
    | .attribute owner index => .attribute (nodeAt owner) index

/-- What an expression selects from the document node. -/
def select (d : Document) (namespaces : List (String × String)) (expression : String) :
    Except PathError (List Hit) := do
  let e ← Expr.ofString expression
  return d.hits (← (Env.mk d.tree namespaces []).select e)

/-- The location of what was hit. -/
def hitLocation (d : Document) : Hit → String
  | .node id => d.location id
  | .attribute owner index => d.attributeLocation owner index

/-- The value of an attribute of a node by its index. -/
def attributeValue (d : Document) (id : NodeId) (index : Nat) : String :=
  ((d.attributes id)[index]?.map (·.value)).getD ""

/-- The text of what was hit, with that of everything below it. -/
def hitText (d : Document) : Hit → String
  | .node id => d.textContent id
  | .attribute owner index => d.attributeValue owner index

end Document

end XmlStore
