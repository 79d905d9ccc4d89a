/-
Axes. What expressions see along an axis of the tree are the nodes that links
lead to in the document, in the order in which they are met. Hence the axes
`self`, `ancestor`, `descendant`, `following` and `preceding` share out the
nodes of the tree among them, forward axes come in document order, and reverse
axes against it.
-/
import XmlStore.Proofs.Walks

namespace XmlStore

namespace Document

variable {d : Document} {a c p : NodeId} {ids u v w : List NodeId} {m n : Rank} {ranks : List Rank}
variable {f : Forest NodeId}

/-! ## Ranks -/

/-- A node has one rank. -/
theorem stands_unique (h : d.Rooted) (hm : d.Stands m a) (hn : d.Stands n a) : m = n := by
  obtain ⟨inside, -⟩ := List.getElem?_eq_some_iff.mp hm
  exact (List.getElem?_inj inside (documentOrder_nodup h)).mp (hm.trans hn.symm)

theorem stands_range' (order : d.documentOrder = u ++ w ++ v) :
    List.Forall₂ d.Stands (List.range' u.length w.length) w := by
  induction w generalizing u with
  | nil => exact .nil
  | cons a w ih =>
    have here : d.Stands u.length a := by simp [Stands, order]
    have later := ih (u := u ++ [a]) (by simp [order])
    rw [List.length_append, List.length_singleton] at later
    exact .cons here later

theorem hits_nodes (stands : List.Forall₂ d.Stands ranks ids) :
    d.hits (ranks.map .node) = ids.map .node := by
  induction stands with
  | nil => rfl
  | @cons n a ranks ids first _ ih =>
    have split : d.hits ((n :: ranks).map .node) = d.hits [.node n] ++ d.hits (ranks.map .node) := rfl
    rw [split, hits_node first, ih]
    rfl

/-! ## What a row says about its node -/

/-- What a row says of the nodes above its node, and of the number of nodes below. -/
structure Reports (d : Document) (row : Row) (id : NodeId) : Prop where
  above : List.Forall₂ d.Stands row.above (d.walk id .ancestor)
  stop : ∃ n, d.Stands n id ∧ row.stop = n + 1 + (d.descendants id).length

/-- A forest in which the trees below each node are its children is made up of what is below. -/
theorem WellLinked.eq_spread (h : d.WellLinked) (branches : d.Branches f)
    (inside : ∀ r ∈ f.roots, d.Has r) : f = d.spread f.roots := by
  induction f with
  | nil => rfl
  | cons id children rest ihc ihr =>
    obtain ⟨kids, inner, outer⟩ := branches
    simp only [Forest.roots, List.forall_mem_cons] at inside
    have below := ihc inner fun r hr => h.lists.has_child (p := id) (by rwa [kids] at hr)
    rw [kids] at below
    have shape : d.below id = d.spread (d.children id) := h.below_eq inside.1
    conv_lhs => rw [ihr outer inside.2, below, ← shape]
    rfl

theorem WellLinked.reports_rowsFrom {above : List Rank} {up : List NodeId} (h : d.WellLinked)
    (branches : d.Branches f) (order : d.documentOrder = u ++ f.preorder ++ v)
    (higher : List.Forall₂ d.Stands above up)
    (kin : ∀ r ∈ f.roots, d.Has r ∧ d.walk r .ancestor = up) :
    List.Forall₂ d.Reports (Tree.rowsFrom above u.length (f.map d.content)) f.preorder := by
  induction f generalizing u v above up with
  | nil => exact .nil
  | cons id children rest ihc ihr =>
    obtain ⟨kids, inner, outer⟩ := branches
    simp only [Forest.roots, List.forall_mem_cons] at kin
    obtain ⟨⟨has_id, rfl⟩, others⟩ := kin
    have here : d.Stands u.length id := by simp [Stands, order, Forest.preorder]
    obtain ⟨more, above_id⟩ := List.head?_eq_some_iff.mp (h.ancestors has_id).head?_eq
    have size : children.size = (d.descendants id).length := by
      have below := h.eq_spread inner fun r hr => h.lists.has_child (p := id) (by rwa [kids] at hr)
      rw [kids] at below
      rw [h.descendants_eq has_id, Forest.length_preorder, h.below_eq has_id]
      exact congrArg Forest.size below
    have first : d.documentOrder = (u ++ [id]) ++ children.preorder ++ (rest.preorder ++ v) := by
      simp [order, Forest.preorder]
    have later : d.documentOrder = (u ++ id :: children.preorder) ++ rest.preorder ++ v := by
      simp [order, Forest.preorder]
    have upward : List.Forall₂ d.Stands (u.length :: above) (d.ancestors id) := by
      rw [above_id]
      exact .cons here (by simpa [walk, above_id] using higher)
    have within := ihc inner first upward fun r hr => by
      have hp := (h.parent r id).mp (kids ▸ hr)
      exact ⟨has_of_target hp, by simp [walk, h.ancestors_eq hp]⟩
    have behind := ihr outer later higher others
    have start : (u ++ id :: children.preorder).length = u.length + children.size + 1 := by
      simp [Forest.length_preorder]
      omega
    rw [List.length_append, List.length_singleton] at within
    rw [start] at behind
    rw [Forest.map, Tree.rowsFrom, Forest.size_map, Forest.preorder]
    refine .cons ⟨higher, u.length, here, ?_⟩ (List.rel_append within behind)
    show u.length + children.size + 1 = u.length + 1 + (d.descendants id).length
    omega

/-- What an expression sees along an axis from a node or an attribute. -/
def along (d : Document) (axis : Axis) (context : Hit) : List Hit := d.hits (d.tree.axis axis (d.place context))

/-- Whether hits are the nodes of the tree, each once. -/
structure Covers (d : Document) (hits : List Hit) : Prop where
  nodup : hits.Nodup
  nodes : ∀ hit, hit ∈ hits ↔ ∃ a, d.Attached a ∧ hit = .node a

variable (h : d.Rooted)

include h

theorem tree_row (stands : d.Stands n a) : List.Forall₂ d.Stands (d.tree.above n) (d.walk a .ancestor) ∧
    d.tree.stop n = n + 1 + (d.descendants a).length := by
  have linked := h.wellLinked
  have order := documentOrder_eq linked h.has_root
  have top := linked.ancestors_of_top h.has_root h.parent_root
  cases n with
  | zero =>
    rw [Stands, order] at stands
    obtain rfl : root = a := by simpa using stands
    refine ⟨by simp [walk, top, Tree.above, tree, Tree.ofForest], ?_⟩
    have stop : d.tree.stop 0 = (d.below root).size + 1 := by
      simp [Tree.stop, tree, Tree.ofForest, contents, Forest.size_map]
    rw [stop, linked.descendants_eq h.has_root, Forest.length_preorder, Nat.zero_add, Nat.add_comm]
  | succ n =>
    have place : d.documentOrder = [root] ++ (d.below root).preorder ++ [] := by simp [order]
    have kin : ∀ r ∈ (d.below root).roots, d.Has r ∧ d.walk r .ancestor = [root] := by
      intro r hr
      rw [roots_below linked h.has_root] at hr
      have hp := (linked.parent r root).mp hr
      exact ⟨has_of_target hp, by simp [walk, linked.ancestors_eq hp, top]⟩
    have rows := linked.reports_rowsFrom (linked.branches_below h.has_root) place
      (.cons stands_root .nil) kin
    have entry := stands
    rw [Stands, order, List.getElem?_cons_succ] at entry
    obtain ⟨row, hrow, reports⟩ := exists_of_forall₂ rows entry
    have found : d.tree.rows[n + 1]? = some row := by
      rw [tree, Tree.ofForest, List.getElem?_toArray, List.getElem?_cons_succ]
      exact hrow
    obtain ⟨m, standing, stop⟩ := reports.stop
    obtain rfl := stands_unique h standing stands
    simp only [Tree.above, Tree.stop, found, Option.map_some, Option.getD_some]
    exact ⟨reports.above, stop⟩

/-- Where nodes are listed by their ranks, a rank is listed if its node is. -/
theorem mem_ranks_iff (stands : List.Forall₂ d.Stands ranks ids) (here : d.Stands n a) :
    n ∈ ranks ↔ a ∈ ids := by
  induction stands with
  | nil => simp
  | @cons m c ranks ids first _ ih =>
    have same : n = m ↔ a = c := by
      constructor
      · rintro rfl
        exact Option.some.inj (here.symm.trans first)
      · rintro rfl
        exact stands_unique h here first
    rw [List.mem_cons, List.mem_cons, same, ih]

theorem attached_of_stands (stands : d.Stands n a) : d.Attached a :=
  h.mem_documentOrder.mp (List.mem_of_getElem? stands)

/-- Where a node divides the nodes, their ranks run on from its own. -/
theorem Divides.stands {before after : List NodeId} (divides : d.Divides a before after)
    (here : d.Stands n a) : before.length = n ∧
      List.Forall₂ d.Stands (List.range' (n + 1) (d.descendants a).length) (d.descendants a) ∧
      List.Forall₂ d.Stands (List.range' (n + 1 + (d.descendants a).length) after.length) after := by
  have standing : d.Stands before.length a := by simp [Stands, divides.order]
  obtain rfl := stands_unique h standing here
  have below := stands_range' (d := d) (u := before ++ [a]) (w := d.descendants a) (v := after)
    (by simp [divides.order])
  have behind := stands_range' (d := d) (u := before ++ a :: d.descendants a) (w := after) (v := [])
    (by simp [divides.order])
  have start : (before ++ a :: d.descendants a).length = before.length + 1 + (d.descendants a).length := by
    rw [List.length_append, List.length_cons]
    omega
  rw [List.length_append, List.length_singleton] at below
  rw [start] at behind
  exact ⟨rfl, below, behind⟩

/-- A node stops before the rank of a later one unless it is above that. -/
theorem stop_le_iff (hm : d.Stands m c) (hn : d.Stands n a) (less : m < n) :
    d.tree.stop m ≤ n ↔ d.isAncestor c a = false := by
  have attached := attached_of_stands h hm
  obtain ⟨before, after, divides⟩ := exists_divides h attached
  obtain ⟨-, below, -⟩ := divides.stands h hm
  rw [← Bool.not_eq_true, ← h.wellLinked.mem_descendants_iff (attached_of_stands h hn).has attached.has,
    ← mem_ranks_iff h below hn, (tree_row h hm).2, List.mem_range'_1]
  have later : (m + 1 : Nat) ≤ n := less
  rw [and_iff_right later, Nat.not_lt]

/-! ## Axes -/

theorem walk_parent (ha : d.Has a) : d.walk a .parent = (d.walk a .ancestor).take 1 := by
  have linked := h.wellLinked
  cases hp : d.parent? a with
  | none => simp [walk, hp, linked.ancestors_of_top ha hp]
  | some p =>
    obtain ⟨more, above⟩ := List.head?_eq_some_iff.mp (linked.ancestors (linked.has_parent hp)).head?_eq
    simp [walk, hp, linked.ancestors_eq hp, above]

theorem stands_preceding (stands : d.Stands n a) :
    List.Forall₂ d.Stands (d.tree.preceding n) (d.walk a .preceding) := by
  obtain ⟨before, after, divides⟩ := exists_divides h (attached_of_stands h stands)
  obtain ⟨rfl, -, -⟩ := divides.stands h stands
  have ranks := stands_range' (d := d) (u := []) (w := before) (v := a :: (d.descendants a ++ after))
    divides.order
  have agree : ∀ m c, d.Stands m c → c ∈ before →
      decide (d.tree.stop m ≤ before.length) = !d.isAncestor c a := by
    intro m c standing mem
    have less : m < before.length := by
      have := (mem_ranks_iff h ranks standing).mpr mem
      simpa [List.mem_range'_1] using this
    have := stop_le_iff h standing stands less
    cases e : d.isAncestor c a <;> simp_all
  have kept := forall₂_filter ranks agree
  rw [divides.apart] at kept
  rw [Tree.preceding, List.range_eq_range', ← List.reverse_reverse (d.walk a .preceding)]
  exact List.rel_reverse kept

/-- The siblings of a node and the node itself, if it is below another. -/
theorem stands_siblings (stands : d.Stands n a) :
    (d.parent? a = none ∧ d.tree.siblings n = []) ∨
      ∃ p u v, d.children p = u ++ a :: v ∧ List.Forall₂ d.Stands (d.tree.siblings n) (u ++ a :: v) := by
  have linked := h.wellLinked
  have above := (tree_row h stands).1
  cases hp : d.parent? a with
  | none =>
    rw [walk, linked.ancestors_of_top (attached_of_stands h stands).has hp] at above
    exact .inl ⟨rfl, by rw [Tree.siblings, List.forall₂_nil_right_iff.mp above]⟩
  | some p =>
    obtain ⟨more, higher⟩ := List.head?_eq_some_iff.mp (linked.ancestors (linked.has_parent hp)).head?_eq
    rw [walk, linked.ancestors_eq hp, List.drop_one, List.tail_cons, higher] at above
    obtain ⟨m, ranks, standing, -, e⟩ := List.forall₂_cons_right_iff.mp above
    obtain ⟨u, v, place⟩ := List.append_of_mem ((linked.parent a p).mpr hp)
    refine .inr ⟨p, u, v, place, ?_⟩
    rw [Tree.siblings, e, ← place]
    exact stands_children linked h.has_root standing

theorem rank_sibling (hn : d.Stands n a) (hm : d.Stands m c) :
    (c ∈ d.siblingsBefore a → m < n) ∧ (c ∈ d.siblingsAfter a → n < m) := by
  have attached := attached_of_stands h hn
  obtain ⟨before, after, divides⟩ := exists_divides h attached
  obtain ⟨rfl, -, behind⟩ := divides.stands h hn
  obtain ⟨more, above⟩ := List.head?_eq_some_iff.mp (h.wellLinked.ancestors attached.has).head?_eq
  constructor
  · intro mem
    have earlier : c ∈ before := by
      have : c ∈ (d.walk a .preceding).reverse := by
        simp only [walk, above, List.mem_reverse, List.flatMap_cons, List.mem_append, List.mem_flatMap]
        exact .inl ⟨c, mem, by simp [whole]⟩
      rw [← divides.apart] at this
      exact (List.mem_filter.mp this).1
    have ranks := stands_range' (d := d) (u := []) (w := before) (v := a :: (d.descendants a ++ after))
      divides.order
    simpa [List.mem_range'_1] using (mem_ranks_iff h ranks hm).mpr earlier
  · intro mem
    have later : c ∈ after := by
      rw [divides.behind]
      simp only [walk, above, List.flatMap_cons, List.mem_append]
      exact .inl ((sublist_flatMap_whole _).subset mem)
    have start := (List.mem_range'_1.mp ((mem_ranks_iff h behind hm).mpr later)).1
    exact Nat.lt_of_lt_of_le (Nat.lt_add_right _ (Nat.lt_succ_self before.length)) start

/-- Among the children of one parent those with lower ranks come before, those with higher ranks after. -/
theorem sides (place : d.children p = u ++ a :: v) (hn : d.Stands n a) (hm : d.Stands m c)
    (mem : c ∈ u ++ a :: v) : (m < n ↔ c ∈ u) ∧ (n < m ↔ c ∈ v) := by
  obtain ⟨earlier, later⟩ := h.wellLinked.siblings_eq place
  obtain ⟨lower, higher⟩ := rank_sibling h hn hm
  rw [earlier, List.mem_reverse] at lower
  rw [later] at higher
  rw [List.mem_append, List.mem_cons] at mem
  refine ⟨⟨fun less => ?_, lower⟩, ⟨fun less => ?_, higher⟩⟩
  · rcases mem with before | rfl | after
    · exact before
    · exact absurd (stands_unique h hm hn ▸ less) (Nat.lt_irrefl _)
    · exact absurd (higher after) (Nat.lt_asymm less)
  · rcases mem with before | rfl | after
    · exact absurd (lower before) (Nat.lt_asymm less)
    · exact absurd (stands_unique h hm hn ▸ less) (Nat.lt_irrefl _)
    · exact after

theorem stands_followingSiblings (stands : d.Stands n a) :
    List.Forall₂ d.Stands (d.tree.followingSiblings n) (d.walk a .followingSibling) := by
  rcases stands_siblings h stands with ⟨top, none⟩ | ⟨p, u, v, place, siblings⟩
  · rw [Tree.followingSiblings, none, walk, (siblings_of_top h.wellLinked top).2]
    exact .nil
  · have kept := forall₂_filter siblings (f := (n < ·)) (g := v.contains) fun m c standing mem => by
      rw [Bool.eq_iff_iff, decide_eq_true_iff, (sides h place stands standing mem).2, List.contains_iff_mem]
    obtain ⟨-, later⟩ := h.wellLinked.siblings_eq place
    obtain ⟨-, nodup, apart⟩ := List.nodup_append.mp (place ▸ h.wellLinked.nodup p)
    have fresh := (List.nodup_cons.mp nodup).1
    have none : u.filter v.contains = [] := List.filter_eq_nil_iff.mpr fun c hc mem =>
      apart c hc c (List.mem_cons_of_mem a (List.contains_iff_mem.mp mem)) rfl
    have all : v.filter v.contains = v := List.filter_eq_self.mpr fun c hc => List.contains_iff_mem.mpr hc
    rw [List.filter_append, none, List.filter_cons, List.nil_append, all] at kept
    rw [Tree.followingSiblings, walk, later]
    simpa [fresh] using kept

theorem stands_precedingSiblings (stands : d.Stands n a) :
    List.Forall₂ d.Stands (d.tree.precedingSiblings n) (d.walk a .precedingSibling) := by
  rcases stands_siblings h stands with ⟨top, none⟩ | ⟨p, u, v, place, siblings⟩
  · rw [Tree.precedingSiblings, none, walk, (siblings_of_top h.wellLinked top).1]
    exact .nil
  · have kept := forall₂_filter siblings (f := (· < n)) (g := u.contains) fun m c standing mem => by
      rw [Bool.eq_iff_iff, decide_eq_true_iff, (sides h place stands standing mem).1, List.contains_iff_mem]
    obtain ⟨earlier, -⟩ := h.wellLinked.siblings_eq place
    obtain ⟨-, -, apart⟩ := List.nodup_append.mp (place ▸ h.wellLinked.nodup p)
    have none : (a :: v).filter u.contains = [] := List.filter_eq_nil_iff.mpr fun c hc mem =>
      apart c (List.contains_iff_mem.mp mem) c hc rfl
    have all : u.filter u.contains = u := List.filter_eq_self.mpr fun c hc => List.contains_iff_mem.mpr hc
    rw [List.filter_append, none, List.append_nil, all] at kept
    simpa [Tree.precedingSiblings, walk, earlier] using List.rel_reverse kept

/-- Along every axis of the tree are the nodes that links lead to in the document. -/
theorem stands_nodeAxis (stands : d.Stands n a) {axis : Axis} (tree : axis ≠ .attributes) :
    ∃ ranks, d.tree.nodeAxis n axis = ranks.map .node ∧ List.Forall₂ d.Stands ranks (d.walk a axis) := by
  have linked := h.wellLinked
  have attached := attached_of_stands h stands
  obtain ⟨before, after, divides⟩ := exists_divides h attached
  obtain ⟨rfl, below, behind⟩ := divides.stands h stands
  obtain ⟨higher, stop⟩ := tree_row h stands
  obtain ⟨more, above⟩ := List.head?_eq_some_iff.mp (linked.ancestors attached.has).head?_eq
  have descendants : d.tree.descendants before.length = List.range' (before.length + 1) (d.descendants a).length := by
    rw [Tree.descendants, stop, Nat.add_sub_cancel_left]
  cases axis with
  | child => exact ⟨_, rfl, stands_children linked h.has_root stands⟩
  | descendant => exact ⟨_, rfl, descendants ▸ below⟩
  | descendantOrSelf => exact ⟨_, rfl, .cons stands (descendants ▸ below)⟩
  | parent =>
    refine ⟨_, rfl, ?_⟩
    rw [walk_parent h attached.has]
    exact List.forall₂_take 1 higher
  | ancestor => exact ⟨_, rfl, higher⟩
  | ancestorOrSelf =>
    have self : d.walk a .ancestorOrSelf = a :: d.walk a .ancestor := by simp [walk, above]
    exact ⟨_, rfl, self ▸ .cons stands higher⟩
  | followingSibling => exact ⟨_, rfl, stands_followingSiblings h stands⟩
  | precedingSibling => exact ⟨_, rfl, stands_precedingSiblings h stands⟩
  | following =>
    refine ⟨_, rfl, ?_⟩
    have size : d.tree.size = before.length + 1 + (d.descendants a).length + after.length := by
      rw [tree_size h, divides.order]
      simp only [List.length_append, List.length_cons]
      omega
    rw [Tree.following, stop, size, Nat.add_sub_cancel_left, ← divides.behind]
    exact behind
  | preceding => exact ⟨_, rfl, stands_preceding h stands⟩
  | «attributes» => exact absurd rfl tree
  | namespaces => exact ⟨[], rfl, .nil⟩
  | self => exact ⟨[_], rfl, .cons stands .nil⟩

theorem ranks_eq (stands : List.Forall₂ d.Stands ranks ids) : ranks = ids.map d.documentOrder.idxOf := by
  induction stands with
  | nil => rfl
  | cons first _ ih => rw [List.map_cons, ← ih, stands_unique h first (stands_idxOf (List.mem_of_getElem? first))]

/-- Along an axis of the tree are the places of the nodes that links lead to. -/
theorem axis_place (ha : d.Attached a) {axis : Axis} (tree : axis ≠ .attributes) :
    d.tree.axis axis (d.place (.node a)) = (d.walk a axis).map fun c => d.place (.node c) := by
  obtain ⟨ranks, items, stands⟩ := stands_nodeAxis h (stands_idxOf (h.mem_documentOrder.mpr ha)) tree
  rw [place, Tree.axis, items, ranks_eq h stands, List.map_map]
  rfl

theorem along_node (ha : d.Attached a) {axis : Axis} (tree : axis ≠ .attributes) :
    d.along axis (.node a) = (d.walk a axis).map .node := by
  obtain ⟨ranks, items, stands⟩ := stands_nodeAxis h (stands_idxOf (h.mem_documentOrder.mpr ha)) tree
  rw [along, place, Tree.axis, items, hits_nodes stands]

/-- The node itself, those above and below it, and those on later and on earlier branches are all. -/
theorem perm_along (ha : d.Attached a) :
    (d.along .self (.node a) ++ d.along .ancestor (.node a) ++ d.along .descendant (.node a) ++
      d.along .following (.node a) ++ d.along .preceding (.node a)).Perm (d.documentOrder.map .node) := by
  obtain ⟨before, after, divides⟩ := exists_divides h ha
  iterate 5 rw [along_node h ha (by simp)]
  simpa using divides.perm.map Hit.node

/-- An attribute comes behind its owner, and before what that contains. -/
theorem perm_along_attribute (ha : d.Attached a) (index : Nat) :
    (d.along .ancestor (.attribute a index) ++ d.along .following (.attribute a index) ++
      d.along .preceding (.attribute a index)).Perm (d.documentOrder.map .node) := by
  have above : d.along .ancestor (.attribute a index) = d.along .self (.node a) ++ d.along .ancestor (.node a) := rfl
  have behind : d.along .following (.attribute a index) =
      d.along .descendant (.node a) ++ d.along .following (.node a) := by
    simp [along, place, Tree.axis, Tree.attributeAxis, Tree.nodeAxis, hits]
  have earlier : d.along .preceding (.attribute a index) = d.along .preceding (.node a) := rfl
  rw [above, behind, earlier, ← List.append_assoc]
  exact perm_along h ha

theorem covers_of_perm {hits : List Hit} (perm : hits.Perm (d.documentOrder.map .node)) : d.Covers hits := by
  refine ⟨perm.nodup_iff.mpr ((documentOrder_nodup h).map fun _ _ e => Hit.node.inj e), fun hit => ?_⟩
  rw [perm.mem_iff, List.mem_map]
  simp only [h.mem_documentOrder, eq_comm]

end Document

end XmlStore
