/-
A document as a store of nodes. A node has an identity that edits never
change, a content, and links to the nodes around it: its parent, its first and
its last child, the siblings on both sides. A node taken out of the tree stays
in the store with what is below it. The document node is the first node.
Everything below a node is seen as a forest of nodes.
-/
import XmlStore.Markup.Read
import XmlStore.Markup.Write

namespace XmlStore

/-- The identity of a node in its document. -/
structure NodeId where
  index : Nat
deriving DecidableEq, Repr

/-- The ways from a node to the nodes next to it. -/
inductive Link where
  | parent
  | firstChild
  | lastChild
  | previousSibling
  | nextSibling
deriving DecidableEq, Repr

structure Node where
  content : Content
  parent : Option NodeId
  firstChild : Option NodeId
  lastChild : Option NodeId
  previousSibling : Option NodeId
  nextSibling : Option NodeId
deriving DecidableEq, Repr

namespace Node

/-- A node that stands alone. -/
def alone (content : Content) : Node := ⟨content, none, none, none, none, none⟩

def target (node : Node) : Link → Option NodeId
  | .parent => node.parent
  | .firstChild => node.firstChild
  | .lastChild => node.lastChild
  | .previousSibling => node.previousSibling
  | .nextSibling => node.nextSibling

/-- Lets a link lead elsewhere. -/
def redirect (node : Node) (link : Link) (target : Option NodeId) : Node :=
  match link with
  | .parent => { node with parent := target }
  | .firstChild => { node with firstChild := target }
  | .lastChild => { node with lastChild := target }
  | .previousSibling => { node with previousSibling := target }
  | .nextSibling => { node with nextSibling := target }

@[simp]
theorem target_alone (content : Content) (link : Link) : (alone content).target link = none := by
  cases link <;> rfl

@[simp]
theorem content_redirect (node : Node) (link : Link) (target : Option NodeId) :
    (node.redirect link target).content = node.content := by
  cases link <;> rfl

theorem target_redirect (node : Node) (link other : Link) (target : Option NodeId) :
    (node.redirect link target).target other = if other = link then target else node.target other := by
  cases link <;> cases other <;> rfl

end Node

structure Document where
  nodes : Array Node
  declaration : Declaration
deriving Repr

namespace Document

/-- A document that holds nothing but its document node. -/
def empty : Document := ⟨#[.alone .document], .absent⟩

/-- The document node. -/
def root : NodeId := ⟨0⟩

/-- The number of nodes, those outside the tree included. -/
def size (d : Document) : Nat := d.nodes.size

def node (d : Document) (id : NodeId) : Node := d.nodes.getD id.index (.alone .document)

def content (d : Document) (id : NodeId) : Content := (d.node id).content

/-- The node that a link of a node leads to. -/
def target (d : Document) (link : Link) (id : NodeId) : Option NodeId := (d.node id).target link

abbrev parent? (d : Document) : NodeId → Option NodeId := d.target .parent

abbrev firstChild? (d : Document) : NodeId → Option NodeId := d.target .firstChild

abbrev lastChild? (d : Document) : NodeId → Option NodeId := d.target .lastChild

abbrev previousSibling? (d : Document) : NodeId → Option NodeId := d.target .previousSibling

abbrev nextSibling? (d : Document) : NodeId → Option NodeId := d.target .nextSibling

/-- A node, the one that `next` leads to from there, and so on, at most `n` nodes. -/
def follow (next : NodeId → Option NodeId) : Nat → Option NodeId → List NodeId
  | 0, _ | _ + 1, none => []
  | n + 1, some id => id :: follow next n (next id)

/-- The nodes from one to the next sibling and on; never more than there are nodes. -/
def forward (d : Document) (start : Option NodeId) : List NodeId := follow d.nextSibling? d.size start

/-- The nodes from one to the previous sibling and on. -/
def backward (d : Document) (start : Option NodeId) : List NodeId :=
  follow d.previousSibling? d.size start

def children (d : Document) (id : NodeId) : List NodeId := d.forward (d.firstChild? id)

/-- The siblings before a node, the nearest first. -/
def siblingsBefore (d : Document) (id : NodeId) : List NodeId := d.backward (d.previousSibling? id)

/-- The siblings after a node, in order. -/
def siblingsAfter (d : Document) (id : NodeId) : List NodeId := d.forward (d.nextSibling? id)

/-- A node and its ancestors, innermost first. -/
def ancestors (d : Document) (id : NodeId) : List NodeId := follow d.parent? d.size (some id)

/-- Whether a node is below another. -/
def isAncestor (d : Document) (ancestor id : NodeId) : Bool :=
  ((d.ancestors id).drop 1).contains ancestor

/-- The nodes below a node, at most `n` levels of them. -/
def levels (d : Document) : Nat → NodeId → Forest NodeId
  | 0, _ => .nil
  | n + 1, id => (d.children id).foldr (fun child rest => .cons child (d.levels n child) rest) .nil

/-- The nodes below a node. -/
def below (d : Document) (id : NodeId) : Forest NodeId := d.levels d.size id

/-- The first node behind what is below a node, if it is still below `top`: the next sibling, or
that of the nearest node above which has one. At most `n` nodes are tried. -/
def behind (d : Document) (top : NodeId) : Nat → NodeId → Option NodeId
  | 0, _ => none
  | n + 1, id =>
    match d.nextSibling? id with
    | some sibling => some sibling
    | none => (d.parent? id).bind fun parent => if parent = top then none else d.behind top n parent

/-- The node that follows another in document order, if it is still below `top`. -/
def successor? (d : Document) (top id : NodeId) : Option NodeId :=
  (d.firstChild? id).or (d.behind top d.size id)

/-- The nodes below a node in document order. -/
def descendants (d : Document) (id : NodeId) : List NodeId :=
  follow (d.successor? id) d.size (d.firstChild? id)

/-- What the nodes below a node hold. -/
def contents (d : Document) (id : NodeId) : Forest Content := (d.below id).map d.content

/-- Every node of the tree, the document node first. -/
def documentOrder (d : Document) : List NodeId := root :: d.descendants root

def isElement (d : Document) (id : NodeId) : Bool := (d.content id).isElement

/-- The topmost element; the first one if there are several. -/
def rootElement? (d : Document) : Option NodeId := (d.children root).find? d.isElement

/-- The children that are elements of the given name. -/
def childrenNamed (d : Document) (id : NodeId) (name : String) : List NodeId :=
  (d.children id).filter fun child => (d.content child).isNamed name

def attributes (d : Document) (id : NodeId) : List Attribute := (d.content id).attributes

def attribute? (d : Document) (id : NodeId) (name : String) : Option String :=
  (d.content id).attribute? name

/-- The characters of all texts below a node; of a node that has none below it, its own. -/
def textContent (d : Document) (id : NodeId) : String :=
  (d.content id).fullText (d.contents id).preorder

/-- The characters of the texts that are children of a node. -/
def directText (d : Document) (id : NodeId) : String :=
  Content.joinCharacters ((d.children id).map d.content)

def write (d : Document) (o : WriteOptions) : String :=
  o.writeDocument d.declaration (d.contents root)

/-- One node and what is below it as text. -/
def writeNode (d : Document) (o : WriteOptions) (id : NodeId) : String :=
  o.writeNode (d.content id) (d.contents id)

end Document

end XmlStore
