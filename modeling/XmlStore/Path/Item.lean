/-
What an expression can select: the nodes of a tree and the attributes of its
elements. The axes lead from an item to others; node tests pick among them.
Doctypes are no items that a test admits. A selection lists items in document
order, each once.
-/
import XmlStore.Path.Expr
import XmlStore.Path.Tree
import Std.Data.TreeSet

namespace XmlStore

inductive Item where
  | node (rank : Rank)
  /-- The attribute at an index of the element of a rank. -/
  | attribute (owner : Rank) (index : Nat)
deriving DecidableEq, Repr

namespace Item

/-- The rank of the node itself, or of the element that an attribute belongs to. -/
def rank : Item → Rank
  | .node n => n
  | .attribute owner _ => owner

/-- Where an item stands among those of one rank: a node before its attributes. -/
def offset : Item → Nat
  | .node _ => 0
  | .attribute _ index => index + 1

/-- Document order: an element before its attributes, and those before its content. -/
instance : Ord Item where
  compare a b := (compare a.rank b.rank).then (compare a.offset b.offset)

instance : Std.TransOrd Item :=
  inferInstanceAs (Std.TransCmp (compareLex (compareOn rank) (compareOn offset)))

instance : Std.LawfulEqOrd Item where
  eq_of_compare {a b} h := by
    have ⟨hrank, hoffset⟩ := Ordering.then_eq_eq.1 h
    have hrank : a.rank = b.rank := Std.LawfulEqOrd.eq_of_compare hrank
    have hoffset : a.offset = b.offset := Std.LawfulEqOrd.eq_of_compare hoffset
    cases a <;> cases b <;> simp_all [rank, offset]

/-- Whether every item compares like this with the next one. -/
def isRun (order : Ordering) : List Item → Bool
  | a :: b :: rest => compare a b == order && isRun order (b :: rest)
  | _ => true

theorem pairwise_of_isRun {order : Ordering}
    (trans : ∀ {a b c : Item}, compare a b = order → compare b c = order → compare a c = order)
    {selected : List Item} (h : isRun order selected = true) :
    selected.Pairwise fun a b => compare a b = order := by
  induction selected with
  | nil => exact .nil
  | cons a rest ih =>
    cases rest with
    | nil => simp
    | cons b rest =>
      simp only [isRun, Bool.and_eq_true, beq_iff_eq] at h
      have later := ih h.2
      refine .cons (fun c hc => ?_) later
      rcases List.mem_cons.1 hc with rfl | hc
      · exact h.1
      · exact trans h.1 (List.rel_of_pairwise_cons later hc)

/-- Items in document order, without repetition. Along an axis they come in this order already, or
against it. -/
def ordered (selected : List Item) : List Item :=
  if isRun .lt selected then selected
  else if isRun .gt selected then selected.reverse
  else (Std.TreeSet.ofList selected).toList

theorem mem_ordered (selected : List Item) (item : Item) :
    item ∈ ordered selected ↔ item ∈ selected := by
  unfold ordered
  split
  · rfl
  · split
    · exact List.mem_reverse
    · simp [Std.TreeSet.mem_toList, Std.TreeSet.mem_ofList]

theorem pairwise_ordered (selected : List Item) :
    (ordered selected).Pairwise fun a b => compare a b = .lt := by
  unfold ordered
  split
  · exact pairwise_of_isRun Std.TransCmp.lt_trans ‹_›
  · split
    · exact List.pairwise_reverse.2
        ((pairwise_of_isRun Std.TransCmp.gt_trans ‹_›).imp Std.OrientedCmp.lt_of_gt)
    · exact Std.TreeSet.ordered_toList

/-- Only what is selected matters to the order, not where it was found. -/
theorem ordered_congr {selected other : List Item}
    (h : ∀ item, item ∈ selected ↔ item ∈ other) : ordered selected = ordered other := by
  have nodup (l : List Item) : (ordered l).Nodup :=
    (pairwise_ordered l).imp fun {a b} hab heq => by subst heq; simp at hab
  refine List.Perm.eq_of_pairwise (fun a b _ _ hab hba => ?_)
    (pairwise_ordered selected) (pairwise_ordered other) ?_
  · exact False.elim (Std.OrientedCmp.not_lt_of_lt hab hba)
  refine (List.perm_ext_iff_of_nodup (nodup selected) (nodup other)).2 fun item => ?_
  rw [mem_ordered, mem_ordered, h]

end Item

namespace Tree

/-- The text of an item. -/
def text (t : Tree) : Item → String
  | .node n => t.textAt n
  | .attribute owner index => ((t.attributes owner)[index]?.map (·.value)).getD ""

/-- The attributes of an element as items. -/
def attributeItems (t : Tree) (n : Rank) : List Item :=
  (List.range (t.attributes n).length).map (.attribute n)

/-- The items along an axis from a node, the nearest first if the axis looks back. -/
def nodeAxis (t : Tree) (n : Rank) : Axis → List Item
  | .child => (t.children n).map .node
  | .descendant => (t.descendants n).map .node
  | .descendantOrSelf => (n :: t.descendants n).map .node
  | .parent => ((t.above n).take 1).map .node
  | .ancestor => (t.above n).map .node
  | .ancestorOrSelf => (n :: t.above n).map .node
  | .followingSibling => (t.followingSiblings n).map .node
  | .precedingSibling => (t.precedingSiblings n).map .node
  | .following => (t.following n).map .node
  | .preceding => (t.preceding n).map .node
  | .attributes => t.attributeItems n
  | .namespaces => []
  | .self => [.node n]

/-- The items along an axis from an attribute, which comes before what its owner contains. -/
def attributeAxis (t : Tree) (owner : Rank) (index : Nat) : Axis → List Item
  | .self | .descendantOrSelf => [.attribute owner index]
  | .parent => [.node owner]
  | .ancestor => (owner :: t.above owner).map .node
  | .ancestorOrSelf => .attribute owner index :: (owner :: t.above owner).map .node
  | .following => (t.descendants owner ++ t.following owner).map .node
  | .preceding => (t.preceding owner).map .node
  | .child | .descendant | .followingSibling | .precedingSibling | .attributes | .namespaces => []

def axis (t : Tree) (axis : Axis) : Item → List Item
  | .node n => t.nodeAxis n axis
  | .attribute owner index => t.attributeAxis owner index axis

end Tree

namespace NodeTest

/-- The qualifier that a test mentions. -/
def qualifier? : NodeTest → Option String
  | name n => n.qualifier
  | anyOf qualifier => some qualifier
  | _ => none

/-- Whether a test of names admits a name in a namespace; `wanted` is the namespace of the
qualifier that the test mentions. A name without qualifier asks for no namespace. -/
def admitsName (test : NodeTest) (wanted : Option String) (found : QName) (uri : Option String) :
    Bool :=
  match test with
  | any => true
  | anyOf _ => uri == wanted
  | name n =>
    found.localPart == n.localPart &&
      if n.qualifier.isSome then uri == wanted else found.qualifier.isNone && uri.isNone
  | _ => false

def admits (test : NodeTest) (wanted : Option String) (content : Content) : Bool :=
  match content, test with
  | .doctype .., _ => false
  | _, node => true
  | .text _, text | .cdata _, text | .comment _, comment => true
  | .instruction target _, instruction asked => asked.all (· == target)
  | .element tag, test => test.admitsName wanted tag.name tag.uri
  | _, _ => false

/-- Attributes are found by name along their own axis alone. -/
def admitsAttribute (test : NodeTest) (wanted : Option String) (axis : Axis) (a : Attribute) :
    Bool :=
  test = node || axis = .attributes && test.admitsName wanted a.name a.uri

/-- Whether an item that was found along an axis passes a test. -/
def admitsItem (test : NodeTest) (wanted : Option String) (axis : Axis) (t : Tree) : Item → Bool
  | .node n => (t.content? n).any (test.admits wanted)
  | .attribute owner index =>
    ((t.attributes owner)[index]?).any (test.admitsAttribute wanted axis)

end NodeTest

end XmlStore
