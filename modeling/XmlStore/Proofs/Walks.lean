/-
Walks along links. A node divides the nodes in document order into those before
it, what is below it, and those behind. What comes behind is found from the
later siblings of the node and of those above it, each with what is below it;
what comes before are the nodes above, and what is found from earlier siblings
in the same way.
-/
import XmlStore.Proofs.NodeSets
import XmlStore.Proofs.Trails

namespace XmlStore

namespace Document

variable {d : Document} {a b c p x : NodeId} {ids u v before after : List NodeId}

/-- A node and what is below it, in document order. -/
def whole (d : Document) (id : NodeId) : List NodeId := id :: d.descendants id

/-- The nodes that links lead to from a node along an axis, in the order in which they are met. -/
def walk (d : Document) (id : NodeId) : Axis → List NodeId
  | .child => d.children id
  | .descendant => d.descendants id
  | .descendantOrSelf => d.whole id
  | .parent => (d.parent? id).toList
  | .ancestor => (d.ancestors id).drop 1
  | .ancestorOrSelf => d.ancestors id
  | .followingSibling => d.siblingsAfter id
  | .precedingSibling => d.siblingsBefore id
  | .following => (d.ancestors id).flatMap fun above => (d.siblingsAfter above).flatMap d.whole
  | .preceding =>
    (d.ancestors id).flatMap fun above => (d.siblingsBefore above).flatMap fun s => (d.whole s).reverse
  | .self => [id]
  | .attributes | .namespaces => []

/-! ## What is below a node -/

theorem WellLinked.preorder_spread (h : d.WellLinked) (inside : ∀ a ∈ ids, d.Has a) :
    (d.spread ids).preorder = ids.flatMap d.whole := by
  induction ids with
  | nil => rfl
  | cons id ids ih =>
    rw [List.forall_mem_cons] at inside
    rw [List.flatMap_cons, whole, h.descendants_eq inside.1, ← ih inside.2]
    rfl

theorem WellLinked.descendants_children (h : d.WellLinked) (ha : d.Has a) :
    d.descendants a = (d.children a).flatMap d.whole := by
  rw [h.descendants_eq ha, h.below_eq ha]
  exact h.preorder_spread fun c hc => h.lists.has_child hc

theorem sublist_flatMap_whole (ids : List NodeId) : ids.Sublist (ids.flatMap d.whole) := by
  induction ids with
  | nil => exact .slnil
  | cons id ids ih =>
    rw [List.flatMap_cons, whole, List.cons_append]
    exact (ih.trans (List.sublist_append_right ..)).cons_cons id

/-- Whatever is above the trees of a forest is above every node in it. -/
theorem WellLinked.above_branches {f : Forest NodeId} (h : d.WellLinked) (branches : d.Branches f)
    (roots : ∀ r ∈ f.roots, x ∈ (d.ancestors r).drop 1) : ∀ a ∈ f.preorder, x ∈ (d.ancestors a).drop 1 := by
  induction f with
  | nil => simp [Forest.preorder]
  | cons id children rest ihc ihr =>
    obtain ⟨kids, inner, outer⟩ := branches
    simp only [Forest.roots, List.forall_mem_cons] at roots
    intro a ha
    simp only [Forest.preorder, List.mem_cons, List.mem_append] at ha
    rcases ha with rfl | within | behind
    · exact roots.1
    · refine ihc inner (fun r hr => ?_) a within
      rw [kids] at hr
      rw [h.ancestors_eq ((h.parent r id).mp hr), List.drop_one, List.tail_cons]
      exact List.mem_of_mem_drop roots.1
    · exact ihr outer roots.2 a behind

/-- The nodes below a node are those that it is above. -/
theorem WellLinked.mem_descendants_iff (h : d.WellLinked) (has_a : d.Has a) (has_b : d.Has b) :
    a ∈ d.descendants b ↔ d.isAncestor b a = true := by
  rw [isAncestor, List.contains_iff_mem, h.descendants_eq has_b]
  have branches := h.branches_below has_b
  constructor
  · refine h.above_branches branches (fun r hr => ?_) a
    rw [roots_below h has_b] at hr
    rw [h.ancestors_eq ((h.parent r b).mp hr), List.drop_one, List.tail_cons]
    exact List.mem_of_head? (h.ancestors has_b).head?_eq
  · intro above
    generalize hn : (d.ancestors a).length = n
    induction n generalizing a with
    | zero =>
      rw [List.length_eq_zero_iff.mp hn] at above
      simp at above
    | succ n ih =>
      cases hp : d.parent? a with
      | none =>
        rw [h.ancestors_of_top has_a hp] at above
        simp at above
      | some p =>
        have has_p := h.has_parent hp
        have child := (h.parent a p).mpr hp
        rw [h.ancestors_eq hp, List.length_cons] at hn
        rw [h.ancestors_eq hp, List.drop_one, List.tail_cons] at above
        obtain ⟨more, e⟩ := List.head?_eq_some_iff.mp (h.ancestors has_p).head?_eq
        rw [e, List.mem_cons] at above
        rcases above with rfl | above
        · rw [← roots_below h has_b] at child
          exact (d.below b).roots_subset child
        · have inner := ih has_p (by simpa [e] using above) (Nat.succ.inj hn)
          exact (branches.sublist_child inner child).subset (by simp)

/-! ## How a node divides the others -/

/-- The nodes in document order, divided by one of them. -/
structure Divides (d : Document) (a : NodeId) (before after : List NodeId) : Prop where
  order : d.documentOrder = before ++ a :: (d.descendants a ++ after)
  above : before.filter (d.isAncestor · a) = (d.walk a .ancestor).reverse
  apart : before.filter (!d.isAncestor · a) = (d.walk a .preceding).reverse
  behind : after = d.walk a .following

theorem Rooted.parent_root (h : d.Rooted) : d.parent? root = none := by
  by_contra some
  obtain ⟨p, hp⟩ := Option.ne_none_iff_exists'.mp some
  exact h.root_top p ((h.wellLinked.parent root p).mpr hp)

theorem siblings_of_top (h : d.WellLinked) (top : d.parent? a = none) :
    d.siblingsBefore a = [] ∧ d.siblingsAfter a = [] := by
  obtain ⟨previous, next⟩ := h.alone a top
  rw [siblingsBefore, siblingsAfter, previous, next, backward, forward]
  cases d.size <;> simp [follow]

theorem divides_root (h : d.Rooted) : d.Divides root [] [] := by
  have ancestors := h.wellLinked.ancestors_of_top h.has_root h.parent_root
  obtain ⟨earlier, later⟩ := siblings_of_top h.wellLinked h.parent_root
  constructor <;> simp [walk, ancestors, earlier, later, documentOrder]

/-- Above a child are its parent and what is above that. -/
theorem isAncestor_child (h : d.WellLinked) (hp : d.parent? a = some p) :
    d.isAncestor b a = (decide (b = p) || d.isAncestor b p) := by
  obtain ⟨more, above⟩ := List.head?_eq_some_iff.mp (h.ancestors (h.has_parent hp)).head?_eq
  simp [isAncestor, h.ancestors_eq hp, above]

theorem Divides.mem_before (divides : d.Divides a before after) (above : d.isAncestor b a = true) :
    b ∈ before := by
  have mem : b ∈ (d.walk a .ancestor).reverse := List.mem_reverse.mpr (List.contains_iff_mem.mp above)
  rw [← divides.above] at mem
  exact (List.mem_filter.mp mem).1

theorem Divides.child (divides : d.Divides p before after) (h : d.Rooted)
    (place : d.children p = u ++ a :: v) :
    d.Divides a (before ++ p :: u.flatMap d.whole) (v.flatMap d.whole ++ after) := by
  have linked := h.wellLinked
  have hp := (linked.parent a p).mp (by simp [place])
  obtain ⟨earlier, later⟩ := linked.siblings_eq place
  have ancestors := linked.ancestors_eq hp
  have order : d.documentOrder = before ++ p :: (u.flatMap d.whole ++
      a :: (d.descendants a ++ (v.flatMap d.whole ++ after))) := by
    rw [divides.order, linked.descendants_children (linked.has_parent hp), place]
    simp [whole]
  -- The nodes before `p` and those below its earlier children are apart, and `p` is neither.
  have nodup := documentOrder_nodup h
  rw [order] at nodup
  obtain ⟨-, others, apart⟩ := List.nodup_append.mp nodup
  obtain ⟨fresh, -⟩ := List.nodup_cons.mp others
  have old : ∀ b ∈ before, d.isAncestor b a = d.isAncestor b p := by
    intro b hb
    have ne : b ≠ p := apart b hb p List.mem_cons_self
    simp [isAncestor_child linked hp, ne]
  have aside : ∀ b ∈ u.flatMap d.whole, d.isAncestor b a = false := by
    intro b hb
    have ne : b ≠ p := by
      rintro rfl
      exact fresh (List.mem_append_left _ hb)
    have lower : ¬ d.isAncestor b p = true := fun above =>
      apart b (divides.mem_before above) b (List.mem_cons_of_mem p (List.mem_append_left _ hb)) rfl
    simp [isAncestor_child linked hp, ne, lower]
  have self : d.isAncestor p a = true := by simp [isAncestor_child linked hp]
  refine ⟨by simpa using order, ?_, ?_, ?_⟩
  · have none : (u.flatMap d.whole).filter (d.isAncestor · a) = [] :=
      List.filter_eq_nil_iff.mpr fun b hb => by simp [aside b hb]
    obtain ⟨more, above⟩ := List.head?_eq_some_iff.mp (linked.ancestors (linked.has_parent hp)).head?_eq
    rw [List.filter_append, List.filter_cons, self, none, List.filter_congr old, divides.above]
    simp [walk, ancestors, above]
  · have all : (u.flatMap d.whole).filter (!d.isAncestor · a) = u.flatMap d.whole :=
      List.filter_eq_self.mpr fun b hb => by simp [aside b hb]
    have old' : ∀ b ∈ before, (!d.isAncestor b a) = !d.isAncestor b p := fun b hb => by rw [old b hb]
    rw [List.filter_append, List.filter_cons, self, all, List.filter_congr old', divides.apart]
    simp [walk, ancestors, earlier, List.reverse_flatMap, Function.comp_def]
  · simp [walk, ancestors, later, divides.behind]

/-- Every node of the tree divides the others. -/
theorem exists_divides (h : d.Rooted) (ha : d.Attached a) : ∃ before after, d.Divides a before after := by
  refine h.induction_down (P := fun a => ∃ before after, d.Divides a before after)
    ⟨[], [], divides_root h⟩ ?_ ha
  rintro a p - - hp ⟨before, after, divides⟩
  obtain ⟨u, v, place⟩ := List.append_of_mem ((h.wellLinked.parent a p).mpr hp)
  exact ⟨_, _, divides.child h place⟩

namespace Divides

variable (divides : d.Divides a before after)

include divides

/-- Before the node are the nodes above it and those on earlier branches. -/
theorem perm_before : before.Perm (d.walk a .ancestor ++ d.walk a .preceding) := by
  have parts := (List.filter_append_perm (d.isAncestor · a) before).symm
  rw [divides.above, divides.apart] at parts
  exact parts.trans ((List.reverse_perm _).append (List.reverse_perm _))

/-- The node itself, those above, those below, and those on earlier and on later branches are all. -/
theorem perm : (d.walk a .self ++ (d.walk a .ancestor ++ (d.walk a .descendant ++
    (d.walk a .following ++ d.walk a .preceding)))).Perm d.documentOrder := by
  rw [divides.order, ← divides.behind]
  have front := divides.perm_before
  refine List.Perm.trans ?_ (front.symm.append_right _)
  refine List.perm_iff_count.mpr fun b => ?_
  simp only [walk, List.count_append, List.count_cons, List.count_nil]
  omega

end Divides

/-! ## The order of walks -/

section

variable {axis : Axis}

/-- What is met along a forward axis comes in document order. -/
theorem sublist_walk (h : d.Rooted) (ha : d.Attached a)
    (forward : axis ∈ [Axis.child, .descendant, .descendantOrSelf, .following, .followingSibling]) :
    (d.walk a axis).Sublist d.documentOrder := by
  obtain ⟨before, after, divides⟩ := exists_divides h ha
  have self : (a :: (d.descendants a ++ after)).Sublist d.documentOrder := by
    rw [divides.order]
    exact List.sublist_append_right ..
  have below : (d.descendants a).Sublist d.documentOrder :=
    ((List.sublist_append_left ..).cons a).trans self
  have behind : after.Sublist d.documentOrder := ((List.sublist_append_right ..).cons a).trans self
  simp only [List.mem_cons, List.not_mem_nil, or_false] at forward
  rcases forward with rfl | rfl | rfl | rfl | rfl
  · refine List.Sublist.trans ?_ below
    rw [h.wellLinked.descendants_children ha.has]
    exact sublist_flatMap_whole _
  · exact below
  · exact ((List.sublist_append_left ..).cons_cons a).trans self
  · exact divides.behind ▸ behind
  · refine List.Sublist.trans ?_ (divides.behind ▸ behind)
    obtain ⟨more, above⟩ := List.head?_eq_some_iff.mp (h.wellLinked.ancestors ha.has).head?_eq
    rw [walk, walk, above, List.flatMap_cons]
    exact (sublist_flatMap_whole _).trans (List.sublist_append_left ..)

/-- What is met along a reverse axis comes in document order when it is turned round. -/
theorem sublist_reverse_walk (h : d.Rooted) (ha : d.Attached a)
    (reverse : axis ∈ [Axis.ancestor, .ancestorOrSelf, .preceding, .precedingSibling]) :
    (d.walk a axis).reverse.Sublist d.documentOrder := by
  obtain ⟨before, after, divides⟩ := exists_divides h ha
  obtain ⟨more, above⟩ := List.head?_eq_some_iff.mp (h.wellLinked.ancestors ha.has).head?_eq
  have front : before.Sublist d.documentOrder := by
    rw [divides.order]
    exact List.sublist_append_left ..
  have upward : (d.walk a .ancestor).reverse.Sublist before := divides.above ▸ List.filter_sublist
  have backward : (d.walk a .preceding).reverse.Sublist before := divides.apart ▸ List.filter_sublist
  simp only [List.mem_cons, List.not_mem_nil, or_false] at reverse
  rcases reverse with rfl | rfl | rfl | rfl
  · exact upward.trans front
  · have self : d.walk a .ancestorOrSelf = a :: d.walk a .ancestor := by simp [walk, above]
    rw [self, List.reverse_cons, divides.order]
    exact upward.append (List.singleton_sublist.mpr List.mem_cons_self)
  · exact backward.trans front
  · refine List.Sublist.trans ?_ (backward.trans front)
    have siblings : (d.siblingsBefore a).reverse.Sublist
        ((d.siblingsBefore a).flatMap fun s => (d.whole s).reverse).reverse := by
      rw [List.reverse_flatMap]
      simp only [Function.comp_def, List.reverse_reverse]
      exact sublist_flatMap_whole _
    rw [walk, walk, above, List.flatMap_cons, List.reverse_append]
    exact siblings.trans (List.sublist_append_right ..)

/-- Nodes that come one after the other among those in document order precede each other. -/
theorem pairwise_precedes (h : d.Rooted) (ordered : ids.Sublist d.documentOrder) :
    (ids.map Hit.node).Pairwise d.Precedes := by
  rw [List.pairwise_map]
  refine List.pairwise_iff_forall_sublist.mpr fun pair => ?_
  exact idxOf_lt_of_sublist (documentOrder_nodup h) (pair.trans ordered)

end

end Document

end XmlStore
