/-
A tree as expressions see it. Its nodes are known by their rank in document
order, the document node by rank 0. What is below a node takes the ranks
behind its own, without a gap, up to the rank at which the node stops.
-/
import XmlStore.Forest
import XmlStore.Markup.Content

namespace XmlStore

/-- The number of a node in document order, from 0. -/
abbrev Rank := Nat

/-- A node of a tree: what it holds, and which nodes are around it. -/
structure Row where
  content : Content
  /-- The nodes above, the nearest first. -/
  above : List Rank
  children : List Rank
  /-- The first rank behind the node that is not below it. -/
  stop : Rank
deriving DecidableEq, Repr

/-- The ranks of the trees of a forest that begins at a rank. -/
def Forest.ranks {α : Type} (start : Rank) : Forest α → List Rank
  | nil => []
  | cons _ children rest => start :: rest.ranks (start + children.size + 1)

/-- The nodes of a tree in document order, the document node included. -/
structure Tree where
  rows : Array Row
deriving Repr

namespace Tree

/-- The nodes of a forest that begins at a rank and stands below the nodes `above`. -/
def rowsFrom (above : List Rank) (start : Rank) : Forest Content → List Row
  | .nil => []
  | .cons content children rest =>
    let stop := start + children.size + 1
    ⟨content, above, children.ranks (start + 1), stop⟩ ::
      (rowsFrom (start :: above) (start + 1) children ++ rowsFrom above stop rest)

/-- The tree of a document node with a forest below it. -/
def ofForest (f : Forest Content) : Tree :=
  ⟨(⟨.document, [], f.ranks 1, f.size + 1⟩ :: rowsFrom [0] 1 f).toArray⟩

/-- The number of nodes. -/
def size (t : Tree) : Nat := t.rows.size

def content? (t : Tree) (n : Rank) : Option Content := t.rows[n]?.map (·.content)

/-- The nodes above a node, the nearest first. -/
def above (t : Tree) (n : Rank) : List Rank := (t.rows[n]?.map (·.above)).getD []

def children (t : Tree) (n : Rank) : List Rank := (t.rows[n]?.map (·.children)).getD []

/-- The first rank behind a node that is not below it. -/
def stop (t : Tree) (n : Rank) : Rank := (t.rows[n]?.map (·.stop)).getD (n + 1)

def descendants (t : Tree) (n : Rank) : List Rank := List.range' (n + 1) (t.stop n - (n + 1))

/-- The children of the node above; the document node has no siblings. -/
def siblings (t : Tree) (n : Rank) : List Rank :=
  match t.above n with
  | [] => []
  | parent :: _ => t.children parent

def followingSiblings (t : Tree) (n : Rank) : List Rank := (t.siblings n).filter (n < ·)

/-- The siblings before a node, the nearest first. -/
def precedingSiblings (t : Tree) (n : Rank) : List Rank := ((t.siblings n).filter (· < n)).reverse

/-- Everything after a node that is not below it. -/
def following (t : Tree) (n : Rank) : List Rank := List.range' (t.stop n) (t.size - t.stop n)

/-- Everything before a node that is not above it, the nearest first. -/
def preceding (t : Tree) (n : Rank) : List Rank :=
  ((List.range n).filter fun m => t.stop m ≤ n).reverse

def attributes (t : Tree) (n : Rank) : List Attribute :=
  ((t.content? n).map (·.attributes)).getD []

def attribute? (t : Tree) (n : Rank) (name : String) : Option String :=
  (t.content? n).bind (·.attribute? name)

/-- What the nodes below a node hold. -/
def contentsBelow (t : Tree) (n : Rank) : List Content :=
  ((t.rows.extract (n + 1) (t.stop n)).map (·.content)).toList

/-- The text of a node, with that of everything below it. -/
def textAt (t : Tree) (n : Rank) : String :=
  ((t.content? n).map (·.fullText (t.contentsBelow n))).getD ""

/-! The rows of a forest hold its contents in document order. -/

theorem map_content_rowsFrom (above : List Rank) (start : Rank) (f : Forest Content) :
    (rowsFrom above start f).map (·.content) = f.preorder := by
  induction f generalizing above start with
  | nil => rfl
  | cons content children rest ihc ihr => simp [rowsFrom, Forest.preorder, ihc, ihr]

theorem length_rowsFrom (above : List Rank) (start : Rank) (f : Forest Content) :
    (rowsFrom above start f).length = f.size := by
  rw [← Forest.length_preorder, ← map_content_rowsFrom above start f, List.length_map]

theorem size_ofForest (f : Forest Content) : (ofForest f).size = f.size + 1 := by
  simp [size, ofForest, length_rowsFrom]

theorem content?_ofForest (f : Forest Content) (n : Rank) :
    (ofForest f).content? n = (Content.document :: f.preorder)[n]? := by
  rw [← map_content_rowsFrom [0] 1 f]
  cases n <;> simp [content?, ofForest]

end Tree

end XmlStore
