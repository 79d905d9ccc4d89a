/-
Selections as lists of what was hit. The items of the tree of a document stand
for its nodes and the attributes of its elements, and they compare as these
follow each other in the document. So whatever an expression selects is listed
in document order, and a union selects what one of its operands does.
-/
import XmlStore.Proofs.Selected
import XmlStore.Proofs.Selections
import XmlStore.Proofs.Sessions

namespace XmlStore

/-! ## Places in a list -/

theorem idxOf_lt_of_sublist {l : List NodeId} {a b : NodeId} (nodup : l.Nodup) (h : [a, b].Sublist l) :
    l.idxOf a < l.idxOf b := by
  obtain ⟨u, v, rfl, ha, hb⟩ := List.cons_sublist_iff.mp h
  have apart : b ∉ u := fun hu => (List.nodup_append.mp nodup).2.2 b hu b (List.singleton_sublist.mp hb) rfl
  rw [List.idxOf_append_of_mem ha, List.idxOf_append_of_notMem apart]
  exact Nat.lt_add_right _ (List.idxOf_lt_length_of_mem ha)

theorem Item.compare_eq_lt {x y : Item} :
    compare x y = .lt ↔ x.rank < y.rank ∨ x.rank = y.rank ∧ x.offset < y.offset := by
  have by_rank : compare x y = (compare x.rank y.rank).then (compare x.offset y.offset) := rfl
  rw [by_rank, Ordering.then_eq_lt, Nat.compare_eq_lt, Nat.compare_eq_lt, Nat.compare_eq_eq]

namespace Document

variable {d : Document} {a b c p : NodeId} {n : Rank} {hit : Hit} {item : Item} {selected : List Item}

/-! ## Document order -/

/-- Whether a node comes earlier in document order than another one. -/
def Before (d : Document) (a b : NodeId) : Prop := d.documentOrder.idxOf a < d.documentOrder.idxOf b

/-- Document order of what was hit: an element comes before its attributes, these come in the order of
their indices, and what is inside the element comes after them. -/
def Precedes (d : Document) : Hit → Hit → Prop
  | .node a, .node b => d.Before a b
  | .node a, .attribute b _ => a = b ∨ d.Before a b
  | .attribute a _, .node b => d.Before a b
  | .attribute a i, .attribute b j => d.Before a b ∨ a = b ∧ i < j

/-- Whether a hit is a node of the tree or an attribute that such a node has. -/
def Offers (d : Document) : Hit → Prop
  | .node id => id ∈ d.documentOrder
  | .attribute owner index => owner ∈ d.documentOrder ∧ index < (d.attributes owner).length

/-- Nodes of the tree and attributes of its elements, in document order, each once. -/
structure InOrder (d : Document) (hits : List Hit) : Prop where
  offered : ∀ hit ∈ hits, d.Offers hit
  ascending : hits.Pairwise d.Precedes

theorem documentOrder_nodup (h : d.Rooted) : d.documentOrder.Nodup := by
  rw [documentOrder_eq h.wellLinked h.has_root]
  refine List.nodup_cons.mpr ⟨fun below => ?_, (h.wellLinked.chain_below h.has_root).nodup⟩
  obtain ⟨p, child⟩ := mem_children_levels _ _ root below
  exact h.root_top p child

theorem Branches.sublist_child {f : Forest NodeId} (branches : d.Branches f) (hp : p ∈ f.preorder)
    (hc : c ∈ d.children p) : [p, c].Sublist f.preorder := by
  induction f with
  | nil => exact absurd hp List.not_mem_nil
  | cons id children rest ihc ihr =>
    obtain ⟨roots, inner, outer⟩ := branches
    rw [Forest.preorder] at hp ⊢
    rcases List.mem_cons.mp hp with rfl | hp
    · rw [← roots] at hc
      have within : c ∈ children.preorder ++ rest.preorder :=
        List.mem_append_left _ (children.roots_subset hc)
      exact (List.singleton_sublist.mpr within).cons_cons p
    · rcases List.mem_append.mp hp with inside | behind
      · exact ((ihc inner inside).trans (List.sublist_append_left ..)).cons id
      · exact ((ihr outer behind).trans (List.sublist_append_right ..)).cons id

theorem before_child (h : d.Rooted) (hp : p ∈ d.documentOrder) (hc : c ∈ d.children p) : d.Before p c := by
  refine idxOf_lt_of_sublist (documentOrder_nodup h) ?_
  have branches := h.wellLinked.branches_below h.has_root
  rw [documentOrder_eq h.wellLinked h.has_root] at hp ⊢
  rcases List.mem_cons.mp hp with rfl | below
  · rw [← roots_below h.wellLinked h.has_root] at hc
    exact (List.singleton_sublist.mpr ((d.below root).roots_subset hc)).cons_cons root
  · exact (branches.sublist_child below hc).cons root

/-! ## Places -/

/-- The item of the tree that stands for a hit. -/
def place (d : Document) : Hit → Item
  | .node id => .node (d.documentOrder.idxOf id)
  | .attribute owner index => .attribute (d.documentOrder.idxOf owner) index

theorem stands_idxOf (ha : a ∈ d.documentOrder) : d.Stands (d.documentOrder.idxOf a) a :=
  List.getElem?_idxOf ha

theorem hits_place (offered : d.Offers hit) : d.hits [d.place hit] = [hit] := by
  cases hit with
  | node id => exact hits_node (stands_idxOf offered)
  | «attribute» owner index => exact hits_attribute (stands_idxOf offered.1) index

theorem hits_map_place {hits : List Hit} (offered : ∀ hit ∈ hits, d.Offers hit) :
    d.hits (hits.map d.place) = hits := by
  induction hits with
  | nil => rfl
  | cons hit hits ih =>
    rw [List.forall_mem_cons] at offered
    have split : d.hits ((hit :: hits).map d.place) = d.hits [d.place hit] ++ d.hits (hits.map d.place) := rfl
    rw [split, hits_place offered.1, ih offered.2]
    rfl

theorem compare_place {other : Hit} (offered : d.Offers hit) :
    compare (d.place hit) (d.place other) = .lt ↔ d.Precedes hit other := by
  have same {x y : NodeId} (hx : x ∈ d.documentOrder) :
      d.documentOrder.idxOf x = d.documentOrder.idxOf y ↔ x = y := List.idxOf_inj hx
  rw [Item.compare_eq_lt]
  cases hit with
  | node x =>
    cases other with
    | node y => simp [place, Item.rank, Item.offset, Precedes, Before]
    | «attribute» y j => simp [place, Item.rank, Item.offset, Precedes, Before, same offered, or_comm]
  | «attribute» x i =>
    cases other with
    | node y => simp [place, Item.rank, Item.offset, Precedes, Before]
    | «attribute» y j => simp [place, Item.rank, Item.offset, Precedes, Before, same offered.1]

/-! ## The tree of a document -/

theorem tree_content? (h : d.Headed) (n : Rank) : d.tree.content? n = d.documentOrder[n]?.map d.content := by
  rw [tree, Tree.content?_ofForest, ← List.getElem?_map, documentOrder_eq h.wellLinked h.has_root,
    List.map_cons, h.content_root, contents, Forest.preorder_map]

theorem tree_attributes (h : d.Headed) (stands : d.Stands n a) : d.tree.attributes n = d.attributes a := by
  rw [Tree.attributes, tree_content? h, stands]
  rfl

/-- Whether a test admits a node depends on what the node holds. -/
theorem admitsItem_node (h : d.Headed) (stands : d.Stands n a) (test : NodeTest) (wanted : Option String)
    (axis : Axis) : test.admitsItem wanted axis d.tree (.node n) = test.admits wanted (d.content a) := by
  rw [NodeTest.admitsItem, tree_content? h, stands]
  rfl

theorem tree_size (h : d.Rooted) : d.tree.size = d.documentOrder.length := by
  rw [tree, Tree.size_ofForest, contents, Forest.size_map, documentOrder_eq h.wellLinked h.has_root,
    List.length_cons, Forest.length_preorder]

theorem has_place (h : d.Headed) (offered : d.Offers hit) : d.tree.Has (d.place hit) := by
  cases hit with
  | node id =>
    rw [place, Tree.Has, tree_size h.toRooted]
    exact List.idxOf_lt_length_of_mem offered
  | «attribute» owner index =>
    rw [place, Tree.Has, tree_attributes h (stands_idxOf offered.1)]
    exact offered.2

theorem exists_place (h : d.Headed) (has : d.tree.Has item) : ∃ hit, d.Offers hit ∧ d.place hit = item := by
  have inside : item.rank < d.documentOrder.length := tree_size h.toRooted ▸ has.rank
  have here : d.documentOrder.idxOf d.documentOrder[item.rank] = item.rank :=
    (documentOrder_nodup h.toRooted).idxOf_getElem item.rank inside
  have mem : d.documentOrder[item.rank] ∈ d.documentOrder := List.getElem_mem inside
  cases item with
  | node n => exact ⟨.node _, mem, congrArg Item.node here⟩
  | «attribute» n index =>
    refine ⟨.attribute _ index, ⟨mem, ?_⟩, congrArg (Item.attribute · index) here⟩
    rw [← tree_attributes h (List.getElem?_eq_getElem inside)]
    exact has

/-- Lists of items of the tree in document order stand for lists of hits in document order. -/
theorem lists_iff (h : d.Headed) :
    d.tree.Lists selected ↔ ∃ hits, d.InOrder hits ∧ selected = hits.map d.place := by
  constructor
  · rintro ⟨has, ascending⟩
    have placed : ∃ hits : List Hit, (∀ hit ∈ hits, d.Offers hit) ∧ selected = hits.map d.place := by
      clear ascending
      induction selected with
      | nil => exact ⟨[], fun _ none => absurd none List.not_mem_nil, rfl⟩
      | cons item rest ih =>
        rw [List.forall_mem_cons] at has
        obtain ⟨hit, offered, rfl⟩ := exists_place h has.1
        obtain ⟨hits, others, rfl⟩ := ih has.2
        exact ⟨hit :: hits, List.forall_mem_cons.mpr ⟨offered, others⟩, rfl⟩
    obtain ⟨hits, offered, rfl⟩ := placed
    rw [List.pairwise_map] at ascending
    have precedes := ascending.imp_of_mem fun ha _ less => (compare_place (offered _ ha)).mp less
    exact ⟨hits, ⟨offered, precedes⟩, rfl⟩
  · rintro ⟨hits, ⟨offered, precedes⟩, rfl⟩
    refine ⟨List.forall_mem_map.mpr fun hit hhit => has_place h (offered hit hhit), ?_⟩
    rw [List.pairwise_map]
    exact precedes.imp_of_mem fun ha _ before => (compare_place (offered _ ha)).mpr before

theorem inOrder_hits (h : d.Headed) (lists : d.tree.Lists selected) : d.InOrder (d.hits selected) := by
  obtain ⟨hits, inOrder, rfl⟩ := (lists_iff h).mp lists
  rw [hits_map_place inOrder.offered]
  exact inOrder

/-! ## Values -/

/-- Whether a value, if it is a selection, stands for a list of hits in document order. -/
def Presents (d : Document) : Value → Prop
  | .items selected => ∃ hits, d.InOrder hits ∧ selected = hits.map d.place
  | _ => True

theorem Presents.listed {v : Value} (presented : d.Presents v) (h : d.Headed) : v.Listed d.tree := by
  cases v with
  | items selected => exact (lists_iff h).mpr presented
  | _ => trivial

theorem sound_env {values : List (String × Value)} (h : d.Headed) (namespaces : List (String × String))
    (bound : ∀ binding ∈ values, d.Presents binding.2) : (Env.mk d.tree namespaces values).Sound :=
  ⟨Tree.sound_ofForest _, fun binding mem => (bound binding mem).listed h⟩

theorem mem_hits_ordered {left right : List Item} :
    hit ∈ d.hits (Item.ordered (left ++ right)) ↔ hit ∈ d.hits left ∨ hit ∈ d.hits right := by
  rw [hits, hits, hits, ← List.mem_append, ← List.map_append]
  simp only [List.mem_map, Item.mem_ordered]

/-- What holds of unions wherever they are evaluated in a document. -/
structure UnionLaws (d : Document) (env : Env) (focus : Focus) : Prop where
  total : ∀ a b left right, a.eval env focus = .ok (.items left) → b.eval env focus = .ok (.items right) →
    ∃ v, (Expr.union a b).eval env focus = .ok v
  selects : ∀ a b v, (Expr.union a b).eval env focus = .ok v → ∃ left right selected,
    a.eval env focus = .ok (.items left) ∧ b.eval env focus = .ok (.items right) ∧ v = .items selected ∧
      ∀ hit, hit ∈ d.hits selected ↔ hit ∈ d.hits left ∨ hit ∈ d.hits right
  comm : ∀ a b v, (Expr.union a b).eval env focus = .ok v ↔ (Expr.union b a).eval env focus = .ok v
  assoc : ∀ a b c v, (Expr.union (.union a b) c).eval env focus = .ok v ↔
    (Expr.union a (.union b c)).eval env focus = .ok v
  self : ∀ a selected, (Expr.union a a).eval env focus = .ok (.items selected) ↔
    a.eval env focus = .ok (.items selected)

theorem unionLaws {env : Env} {focus : Focus} (sound : env.Sound) (here : env.tree.Has focus.item) :
    d.UnionLaws env focus where
  total _ _ _ _ left right := ⟨_, Expr.eval_union_eq_ok.mpr ⟨_, _, left, right, rfl⟩⟩
  selects _ _ _ h := by
    obtain ⟨left, right, hleft, hright, rfl⟩ := Expr.eval_union_eq_ok.mp h
    exact ⟨left, right, _, hleft, hright, rfl, fun _ => mem_hits_ordered⟩
  comm _ _ _ := Expr.eval_union_comm
  assoc _ _ _ _ := Expr.eval_union_assoc
  self _ _ := Expr.eval_union_self sound here

theorem precedes_child (h : d.Rooted) (hp : p ∈ d.documentOrder) (hc : c ∈ d.children p) (index : Nat) :
    d.Precedes (.node p) (.attribute p index) ∧ d.Precedes (.attribute p index) (.node c) :=
  ⟨.inl rfl, before_child h hp hc⟩

end Document

/-- At a place in a document, with variables that stand for lists in document order, an expression whose
value is a selection lists nodes and attributes of the tree in document order. A union selects what one
of its operands does, and so may be turned round, regrouped, and left out where both operands agree. -/
theorem inOrder_eval {d : Document} (headed : d.Headed) {values : List (String × Value)}
    (bound : ∀ binding ∈ values, d.Presents binding.2) {context : Hit} (offered : d.Offers context)
    (namespaces : List (String × String)) (position size : Nat) :
    let env : Env := ⟨d.tree, namespaces, values⟩
    let focus : Focus := ⟨d.place context, position, size⟩
    (∀ e selected, Expr.eval env e focus = .ok (.items selected) → d.InOrder (d.hits selected)) ∧
    (∀ owner ∈ d.documentOrder, ∀ child ∈ d.children owner, ∀ index,
      d.Precedes (.node owner) (.attribute owner index) ∧
        d.Precedes (.attribute owner index) (.node child)) ∧
    d.UnionLaws env focus := by
  have sound := d.sound_env headed namespaces bound
  have here := d.has_place headed offered
  refine ⟨fun e selected h => ?_, fun _ hp _ hc => Document.precedes_child headed.toRooted hp hc,
    Document.unionLaws sound here⟩
  have listed := Expr.listed_eval sound e here h
  exact Document.inOrder_hits headed listed

/-- In a new document, the union of all elements at the top with a variable for the document node lists
the document node first. -/
theorem inOrder_eval_new : ∃ o,
    ((Session.mk (.ofOptions .default) ⟨[], []⟩).call 0 (.create "a")).2.store.document? 1 = some o ∧
      o.document.InOrder [.node Document.root, .node ⟨1⟩] := by
  have reachable := Session.Reachable.call (.start .default ⟨[], []⟩) 0 (.create "a")
  refine ⟨_, rfl, ?_⟩
  have made := @Store.All.of_document? _ 1 _ _ reachable.allMade rfl
  refine (@inOrder_eval _ made.headed [("top", .items [.node 0])] ?_ (.node Document.root) List.mem_cons_self [] 1 1).1
    (.union (.rootPath [.mk .child .any []]) (.reference "top")) [.node 0, .node 1] ?_
  · exact List.forall_mem_singleton.mpr ⟨[.node Document.root],
      ⟨List.forall_mem_singleton.mpr List.mem_cons_self, List.pairwise_singleton ..⟩, rfl⟩
  · rfl

end XmlStore
