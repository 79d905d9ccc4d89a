/-
Documents that differ in the identities of their nodes only. Two documents are
isomorphic if a mapping leads from the tree of one to the tree of the other,
whatever else is in their stores. To expressions they are one tree, so that
what an expression comes to in one document corresponds to what it comes to in
the other.
-/
import XmlStore.Proofs.NodeSets
import XmlStore.Proofs.Trails
import XmlStore.Proofs.Walks

namespace XmlStore

/-! ## Values in a document -/

/-- What corresponds to a hit under a mapping of nodes. -/
def Hit.map (f : NodeId → NodeId) : Hit → Hit
  | .node id => .node (f id)
  | .attribute owner index => .attribute (f owner) index

/-- A value as a document has it: a selection lists nodes and attributes of the document. -/
inductive Found where
  | boolean (b : Bool)
  | number (x : Float)
  | text (s : String)
  | hits (list : List Hit)

/-- What corresponds to a value under a mapping of nodes: a selection member by member. -/
def Found.map (f : NodeId → NodeId) : Found → Found
  | hits list => hits (list.map (·.map f))
  | scalar => scalar

namespace Document

variable {d d' : Document} {f : NodeId → NodeId} {a b p : NodeId} {n : Nat}

/-- What a value of an expression is in a document. -/
def found (d : Document) : Value → Found
  | .boolean b => .boolean b
  | .number x => .number x
  | .text s => .text s
  | .items selected => .hits (d.hits selected)

/-- The value that expressions have for what is found in a document. -/
def valueOf (d : Document) : Found → Value
  | .boolean b => .boolean b
  | .number x => .number x
  | .text s => .text s
  | .hits list => .items (list.map d.place)

/-- Whether what a value selects belongs to the tree. -/
def AttachedFound (d : Document) : Found → Prop
  | .hits list => ∀ hit ∈ list, d.AttachedHit hit
  | _ => True

/-- What an expression comes to in a document with values, at a node or attribute that is at a position
among so many. -/
def evaluate (d : Document) (namespaces : List (String × String)) (values : List (String × Found))
    (e : Expr) (context : Hit) (position size : Nat) : Except PathError Found :=
  (e.eval ⟨d.tree, namespaces, values.map fun (name, value) => (name, d.valueOf value)⟩
    ⟨d.place context, position, size⟩).map d.found

section

variable {namespaces : List (String × String)} {values : List (String × Found)} {steps : List XmlStore.Step}
variable {context : Hit} {position size : Nat}

theorem evaluate_path : d.evaluate namespaces values (.path steps) context position size =
    (Step.walk ⟨d.tree, namespaces, values.map fun (name, value) => (name, d.valueOf value)⟩ steps
      [d.place context]).map fun items => .hits (d.hits items) := by
  rw [evaluate, Expr.eval]
  cases Step.walk _ steps [d.place context] <;> rfl

theorem evaluate_rootPath : d.evaluate namespaces values (.rootPath steps) context position size =
    (Step.walk ⟨d.tree, namespaces, values.map fun (name, value) => (name, d.valueOf value)⟩ steps
      [.node 0]).map fun items => .hits (d.hits items) := by
  rw [evaluate, Expr.eval]
  cases Step.walk _ steps [.node 0] <;> rfl

end

/-! ## Isomorphisms -/

/-- A mapping of the nodes of one tree to those of another that keeps the document node, the children of
every node with their order, and what the nodes hold. -/
structure Isomorphic (d d' : Document) (f : NodeId → NodeId) : Prop where
  top : f root = root
  children : ∀ a, d.Attached a → d'.children (f a) = (d.children a).map f
  content : ∀ a, d.Attached a → d'.content (f a) = d.content a

theorem Attached.of_mem_children (ha : d.Attached p) (h : d.Rooted) (hc : b ∈ d.children p) : d.Attached b :=
  ha.child h ((h.wellLinked.parent b p).mp hc)

/-- Whether a mapping is an isomorphism can be told by going through the tree. -/
theorem isomorphic_of_documentOrder (h : d.Rooted) (top : f root = root)
    (same : ∀ a ∈ d.documentOrder, d'.children (f a) = (d.children a).map f ∧ d'.content (f a) = d.content a) :
    d.Isomorphic d' f :=
  ⟨top, fun a ha => (same a (h.mem_documentOrder.mpr ha)).1, fun a ha => (same a (h.mem_documentOrder.mpr ha)).2⟩

namespace Isomorphic

variable (iso : d.Isomorphic d' f) (h : d.Rooted) (h' : d'.Rooted)

include iso h

theorem levels (n : Nat) (ha : d.Attached a) : d'.levels n (f a) = (d.levels n a).map f := by
  induction n generalizing a with
  | zero => rfl
  | succ n ih =>
    rw [levels_succ, levels_succ, iso.children a ha]
    have inside : ∀ c ∈ d.children a, d.Attached c := fun c hc => ha.of_mem_children h hc
    generalize d.children a = ids at inside
    induction ids with
    | nil => rfl
    | cons c ids ihr =>
      rw [List.forall_mem_cons] at inside
      rw [List.map_cons, List.foldr_cons, List.foldr_cons, Forest.map, ih inside.1, ihr inside.2]

include h'

/-- The stores may be of different sizes; both are deep enough for either tree. -/
theorem below : d'.below root = (d.below root).map f := by
  have whole := iso.levels h (max d.size d'.size) (attached_root h)
  rw [iso.top, h.wellLinked.levels_eq_below h.has_root (le_max_left ..),
    h'.wellLinked.levels_eq_below h'.has_root (le_max_right ..)] at whole
  exact whole

theorem documentOrder : d'.documentOrder = d.documentOrder.map f := by
  rw [documentOrder_eq h.wellLinked h.has_root, documentOrder_eq h'.wellLinked h'.has_root, iso.below h h',
    Forest.preorder_map, List.map_cons, iso.top]

/-- To expressions, both documents are one tree. -/
theorem tree : d'.tree = d.tree := by
  have contents : d'.contents root = d.contents root := by
    rw [Document.contents, Document.contents, iso.below h h', Forest.map_map]
    refine Forest.map_congr fun a ha => iso.content a (attached_documentOrder h ?_)
    rw [documentOrder_eq h.wellLinked h.has_root]
    exact List.mem_cons_of_mem _ ha
  rw [Document.tree, Document.tree, contents]

theorem inj (ha : d.Attached a) (hb : d.Attached b) (same : f a = f b) : a = b := by
  have nodup := documentOrder_nodup h'
  rw [iso.documentOrder h h'] at nodup
  exact List.inj_on_of_nodup_map nodup (h.mem_documentOrder.mpr ha) (h.mem_documentOrder.mpr hb) same

/-- The mapping goes through the nodes of both trees once. -/
theorem bijOn : Set.BijOn f {a | d.Attached a} {b | d'.Attached b} := by
  refine ⟨fun a ha => ?_, fun a ha b hb same => iso.inj h h' ha hb same, fun b hb => ?_⟩
  · refine h'.mem_documentOrder.mp ?_
    rw [iso.documentOrder h h']
    exact List.mem_map_of_mem (h.mem_documentOrder.mpr ha)
  · have mem := h'.mem_documentOrder.mpr hb
    rw [iso.documentOrder h h'] at mem
    obtain ⟨a, ha, rfl⟩ := List.mem_map.mp mem
    exact ⟨a, h.mem_documentOrder.mp ha, rfl⟩

/-- Parents are kept as well. -/
theorem parent? (ha : d.Attached a) : d'.parent? (f a) = (d.parent? a).map f := by
  cases hp : d.parent? a with
  | none =>
    have top : a = root := by
      by_contra ne
      have above := ha.below_root
      rw [h.wellLinked.ancestors_of_top ha.has hp, List.mem_singleton] at above
      exact ne above.symm
    rw [top, iso.top]
    exact h'.parent_root
  | some p =>
    refine (h'.wellLinked.parent (f a) (f p)).mp ?_
    rw [iso.children p (ha.parent h hp)]
    exact List.mem_map_of_mem ((h.wellLinked.parent a p).mpr hp)

theorem idxOf (ha : d.Attached a) : d'.documentOrder.idxOf (f a) = d.documentOrder.idxOf a := by
  have mem := h.mem_documentOrder.mpr ha
  have inside := List.idxOf_lt_length_of_mem mem
  have here : d'.documentOrder[d.documentOrder.idxOf a]? = some (f a) := by
    rw [iso.documentOrder h h', List.getElem?_map, List.getElem?_idxOf mem]
    rfl
  obtain ⟨inside', there⟩ := List.getElem?_eq_some_iff.mp here
  rw [← there, (documentOrder_nodup h').idxOf_getElem _ inside']

theorem place {hit : Hit} (attached : d.AttachedHit hit) : d'.place (hit.map f) = d.place hit := by
  cases hit with
  | node a => exact congrArg Item.node (iso.idxOf h h' attached)
  | «attribute» owner index => exact congrArg (Item.attribute · index) (iso.idxOf h h' attached)

theorem valueOf {value : Found} (attached : d.AttachedFound value) :
    d'.valueOf (value.map f) = d.valueOf value := by
  cases value with
  | hits list =>
    refine congrArg Value.items ?_
    rw [List.map_map]
    exact List.map_congr_left fun hit hhit => iso.place h h' (attached hit hhit)
  | _ => rfl

theorem hits (selected : List Item) : d'.hits selected = (d.hits selected).map (·.map f) := by
  have node (n : Rank) : d'.documentOrder.toArray.getD n root =
      f (d.documentOrder.toArray.getD n root) := by
    rw [Array.getD_eq_getD_getElem?, Array.getD_eq_getD_getElem?, List.getElem?_toArray, List.getElem?_toArray,
      iso.documentOrder h h', List.getElem?_map]
    cases d.documentOrder[n]? with
    | none => exact iso.top.symm
    | some a => rfl
  rw [Document.hits, Document.hits, List.map_map]
  refine List.map_congr_left fun item _ => ?_
  cases item with
  | node n => exact congrArg Hit.node (node n)
  | «attribute» owner index => exact congrArg (Hit.attribute · index) (node owner)

theorem found (value : Value) : d'.found value = (d.found value).map f := by
  cases value with
  | items selected => exact congrArg Found.hits (iso.hits h h' selected)
  | _ => rfl

end Isomorphic

/-- What an expression selects from the document node of one document corresponds to what it selects from
that of the other. -/
theorem select_of_isomorphic (h : d.Rooted) (h' : d'.Rooted) (iso : d.Isomorphic d' f)
    (namespaces : List (String × String)) (expression : String) :
    d'.select namespaces expression = (d.select namespaces expression).map (·.map (·.map f)) := by
  rw [select, select, iso.tree h h']
  cases Expr.ofString expression with
  | error cause => rfl
  | ok e =>
    dsimp only [Bind.bind, Except.bind]
    cases (Env.mk d.tree namespaces []).select e with
    | error cause => rfl
    | ok selected => exact congrArg Except.ok (iso.hits h h' selected)

theorem attached_found (h : d.Rooted) (value : Value) : d.AttachedFound (d.found value) := by
  cases value with
  | items selected => exact attached_hits h selected
  | _ => trivial

end Document

end XmlStore
