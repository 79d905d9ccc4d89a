/-
The walk through what is below a node. It goes by links alone: down to the
first child, on to the next sibling, or up until there is a node with a next
sibling, and it stops at the node it set out from. `Visits` is that walk with
no bound on the number of its moves or on the way up. It ends, and meets the
nodes below the node it set out from once each, every child before what is
below it. The nodes of the tree are numbered in this order.
-/
import Mathlib.Data.Set.Function
import XmlStore.Proofs.Regrafts

namespace XmlStore

namespace Document

variable {d : Document} {a b c p top : NodeId} {start next : Option NodeId} {ids : List NodeId} {n : Nat}

/-! ## The walk, move by move -/

/-- The way up from a node below `top`: to the next sibling of the node or else of the nearest node
above that has one, and nowhere if `top` or the end of the tree comes first. -/
inductive Climbs (d : Document) (top : NodeId) : NodeId → Option NodeId → Prop where
  | sibling {a s : NodeId} (next : d.nextSibling? a = some s) : Climbs d top a (some s)
  | outermost {a : NodeId} (last : d.nextSibling? a = none) (above : d.parent? a = none) :
      Climbs d top a none
  | back {a : NodeId} (last : d.nextSibling? a = none) (above : d.parent? a = some top) :
      Climbs d top a none
  | up {a p : NodeId} {next : Option NodeId} (last : d.nextSibling? a = none)
      (above : d.parent? a = some p) (ne : p ≠ top) (onward : Climbs d top p next) : Climbs d top a next

/-- One move of the walk: down if that is possible, and otherwise up. -/
inductive Moves (d : Document) (top : NodeId) : NodeId → Option NodeId → Prop where
  | down {a c : NodeId} (first : d.firstChild? a = some c) : Moves d top a (some c)
  | behind {a : NodeId} {next : Option NodeId} (leaf : d.firstChild? a = none)
      (climbs : d.Climbs top a next) : Moves d top a next

/-- The nodes met from one on, until there is no move left. -/
inductive Visits (d : Document) (top : NodeId) : Option NodeId → List NodeId → Prop where
  | stop : Visits d top none []
  | visit {a : NodeId} {next : Option NodeId} {ids : List NodeId} (moves : d.Moves top a next)
      (onward : Visits d top next ids) : Visits d top (some a) (a :: ids)

theorem Climbs.unique (climbs : d.Climbs top a next) : ∀ {other}, d.Climbs top a other → next = other := by
  induction climbs with
  | sibling found =>
    rintro _ (_ | _ | _ | _) <;> simp_all
  | outermost last above =>
    rintro _ (_ | _ | _ | _) <;> simp_all
  | back last above =>
    rintro _ (_ | _ | _ | _) <;> simp_all
  | up last above ne _ ih =>
    rintro _ (found | ⟨_, above'⟩ | ⟨_, above'⟩ | ⟨_, above', _, onward⟩)
    · simp [last] at found
    · simp [above] at above'
    · exact absurd (Option.some.inj (above.symm.trans above')) ne
    · obtain rfl := Option.some.inj (above.symm.trans above')
      exact ih onward

theorem Moves.unique {other : Option NodeId} (moves : d.Moves top a next) (moves' : d.Moves top a other) :
    next = other := by
  rcases moves with first | ⟨leaf, climbs⟩ <;> rcases moves' with first' | ⟨leaf', climbs'⟩
  · exact first.symm.trans first'
  · simp [first] at leaf'
  · simp [leaf] at first'
  · exact climbs.unique climbs'

/-- There is one walk at most. -/
theorem Visits.unique (visits : d.Visits top start ids) : ∀ {others}, d.Visits top start others → ids = others := by
  induction visits with
  | stop =>
    rintro _ ⟨⟩
    rfl
  | visit moves _ ih =>
    rintro _ (_ | ⟨moves', onward⟩)
    obtain rfl := moves.unique moves'
    rw [ih onward]

/-! ## The walk ends -/

/-- The bound on the way up is never met: there are no more nodes above a node than it allows. -/
theorem WellLinked.climbs_behind (h : d.WellLinked) (ha : d.Has a) (enough : (d.ancestors a).length ≤ n) :
    d.Climbs top a (d.behind top n a) := by
  induction n generalizing a with
  | zero =>
    have above := (h.ancestors ha).head?_eq
    rw [List.length_eq_zero_iff.mp (Nat.le_zero.mp enough)] at above
    cases above
  | succ n ih =>
    rw [Document.behind]
    cases last : d.nextSibling? a with
    | some s => exact .sibling last
    | none =>
      cases above : d.parent? a with
      | none => exact .outermost last above
      | some p =>
        dsimp only [Option.bind]
        split
        · rename_i e
          exact .back last (e ▸ above)
        · rename_i ne
          rw [h.ancestors_eq above, List.length_cons] at enough
          exact .up last above ne (ih (h.has_parent above) (Nat.le_of_succ_le_succ enough))

theorem WellLinked.moves_successor (h : d.WellLinked) (ha : d.Has a) : d.Moves top a (d.successor? top a) := by
  rw [successor?]
  cases first : d.firstChild? a with
  | some c => exact .down first
  | none =>
    exact .behind first (h.climbs_behind ha (length_le_size (h.ancestors ha).nodup fun b => h.has_ancestor ha))

theorem WellLinked.visits_of_chain (h : d.WellLinked) (chain : Chain (d.successor? top) start ids) :
    (∀ a ∈ ids, d.Has a) → d.Visits top start ids := by
  induction chain with
  | nil => exact fun _ => .stop
  | cons _ ih =>
    intro inside
    rw [List.forall_mem_cons] at inside
    exact .visit (h.moves_successor inside.1) (ih inside.2)

theorem firstChild?_of_not_has (outside : ¬ d.Has a) : d.firstChild? a = none := by
  by_contra some
  obtain ⟨c, hc⟩ := Option.ne_none_iff_exists'.mp some
  exact outside (has_of_target hc)

theorem descendants_of_not_has (outside : ¬ d.Has a) : d.descendants a = [] := by
  rw [descendants, firstChild?_of_not_has outside]
  cases d.size <;> rfl

theorem WellLinked.visits_descendants (h : d.WellLinked) (a : NodeId) :
    d.Visits a (d.firstChild? a) (d.descendants a) := by
  by_cases ha : d.Has a
  · rw [h.descendants_eq ha]
    exact h.visits_of_chain (h.chain_below ha) h.has_below
  · rw [firstChild?_of_not_has ha, descendants_of_not_has ha]
    exact .stop

/-! ## What the walk meets -/

/-- Whether the second node is a child of the first. -/
def ParentOf (d : Document) (p c : NodeId) : Prop := c ∈ d.children p

theorem WellLinked.nodup_descendants (h : d.WellLinked) (a : NodeId) : (d.descendants a).Nodup := by
  by_cases ha : d.Has a
  · rw [h.descendants_eq ha]
    exact (h.chain_below ha).nodup
  · rw [descendants_of_not_has ha]
    exact List.nodup_nil

/-- Every child, followed by what is below it. -/
theorem WellLinked.descendants_flatMap (h : d.WellLinked) (a : NodeId) :
    d.descendants a = (d.children a).flatMap fun c => c :: d.descendants c := by
  by_cases ha : d.Has a
  · exact h.descendants_children ha
  · rw [descendants_of_not_has ha, children_of_not_has ha, List.flatMap_nil]

theorem Branches.transGen {f : Forest NodeId} (branches : d.Branches f)
    (roots : ∀ c ∈ f.roots, Relation.TransGen d.ParentOf top c) :
    ∀ a ∈ f.preorder, Relation.TransGen d.ParentOf top a := by
  induction f with
  | nil => exact nofun
  | cons id children rest ihc ihr =>
    obtain ⟨kids, inner, outer⟩ := branches
    rw [Forest.roots, List.forall_mem_cons] at roots
    rw [Forest.preorder, List.forall_mem_cons, List.forall_mem_append]
    refine ⟨roots.1, ihc inner fun c hc => ?_, ihr outer roots.2⟩
    exact roots.1.tail (show c ∈ d.children id from kids ▸ hc)

theorem WellLinked.mem_descendants (h : d.WellLinked) :
    a ∈ d.descendants top ↔ Relation.TransGen d.ParentOf top a := by
  constructor
  · intro mem
    by_cases has : d.Has top
    · rw [h.descendants_eq has] at mem
      refine (h.branches_below has).transGen (fun c hc => ?_) a mem
      rw [roots_below h has] at hc
      exact .single hc
    · rw [descendants_of_not_has has] at mem
      cases mem
  · have child {p c : NodeId} (hc : d.ParentOf p c) : c ∈ d.descendants p := by
      rw [h.descendants_flatMap]
      exact List.mem_flatMap.mpr ⟨c, hc, List.mem_cons_self⟩
    -- By the first step, since the order below a node is put together from that below its children.
    intro path
    induction path using Relation.TransGen.head_induction_on with
    | single hc => exact child hc
    | head hc _ ih =>
      rw [h.descendants_flatMap]
      exact List.mem_flatMap.mpr ⟨_, hc, List.mem_cons_of_mem _ ih⟩

/-! ## The numbers of the nodes -/

theorem WellLinked.nodup_documentOrder (h : d.WellLinked) : d.documentOrder.Nodup := by
  refine List.nodup_cons.mpr ⟨fun mem => ?_, h.nodup_descendants root⟩
  by_cases has : d.Has root
  · exact h.not_mem_below has (h.descendants_eq has ▸ mem)
  · rw [descendants_of_not_has has] at mem
    cases mem

theorem WellLinked.mem_documentOrder (h : d.WellLinked) :
    a ∈ d.documentOrder ↔ Relation.ReflTransGen d.ParentOf root a := by
  rw [documentOrder, List.mem_cons, h.mem_descendants, Relation.reflTransGen_iff_eq_or_transGen]

/-- The nodes that children lead to from the document node have the numbers below that of all nodes. -/
theorem WellLinked.bijOn_idxOf (h : d.WellLinked) : Set.BijOn d.documentOrder.idxOf
    {a | Relation.ReflTransGen d.ParentOf root a} (Set.Iio d.documentOrder.length) := by
  refine ⟨fun a ha => ?_, fun a ha b hb same => ?_, fun i hi => ?_⟩
  · exact List.idxOf_lt_length_of_mem (h.mem_documentOrder.mpr ha)
  · exact (List.idxOf_inj (h.mem_documentOrder.mpr ha)).mp same
  · refine ⟨d.documentOrder[i], h.mem_documentOrder.mp (List.getElem_mem hi), ?_⟩
    exact h.nodup_documentOrder.idxOf_getElem i hi

theorem WellLinked.idxOf_descendant (h : d.WellLinked) {i : Nat} (found : (d.descendants root)[i]? = some a) :
    d.documentOrder.idxOf a = i + 1 := by
  have place : d.documentOrder[i + 1]? = some a := found
  obtain ⟨inside, rfl⟩ := List.getElem?_eq_some_iff.mp place
  exact h.nodup_documentOrder.idxOf_getElem (i + 1) inside

/-- The walk below any node of a well linked document ends, and meets exactly the nodes below it, once
each and in preorder. By it the nodes of the tree are numbered from the document node on. -/
theorem descendants_walk (h : d.WellLinked) :
    (∀ top, (∀ ids, d.Visits top (d.firstChild? top) ids ↔ ids = d.descendants top) ∧
      (d.descendants top).Nodup ∧
      (∀ a, a ∈ d.descendants top ↔ Relation.TransGen d.ParentOf top a) ∧
      d.descendants top = (d.children top).flatMap fun c => c :: d.descendants c) ∧
    Set.BijOn d.documentOrder.idxOf {a | Relation.ReflTransGen d.ParentOf root a}
      (Set.Iio d.documentOrder.length) ∧
    d.documentOrder.idxOf root = 0 ∧
    ∀ i a, (d.descendants root)[i]? = some a → d.documentOrder.idxOf a = i + 1 := by
  refine ⟨fun top => ⟨fun ids => ⟨fun visits => ?_, ?_⟩, h.nodup_descendants top, fun a => h.mem_descendants,
    h.descendants_flatMap top⟩, h.bijOn_idxOf, List.idxOf_cons_self, fun i a => h.idxOf_descendant⟩
  · exact visits.unique (h.visits_descendants top)
  · rintro rfl
    exact h.visits_descendants top

/-- An element with a text below it and a sibling behind it: the walk stops behind the text. -/
theorem descendants_walk_stops :
    let parts : Forest Content := .cons (.element (.named ⟨none, "b"⟩)) (.tree (.text "t") .nil) (.tree (.comment "c") .nil)
    let d := ofMarkup ⟨.absent, .tree (.element (.named ⟨none, "a"⟩)) parts, []⟩
    d.nextSibling? ⟨2⟩ = some ⟨4⟩ ∧ d.Visits ⟨2⟩ (d.firstChild? ⟨2⟩) [⟨3⟩] ∧ d.documentOrder.idxOf ⟨4⟩ = 4 := by
  intro parts d
  have walk := descendants_walk (grown_ofMarkup ⟨.absent, .tree (.element (.named ⟨none, "a"⟩)) parts, []⟩).wellLinked
  have inside : d.descendants ⟨2⟩ = [⟨3⟩] := by decide
  have fourth : (d.descendants root)[3]? = some ⟨4⟩ := by decide
  exact ⟨by decide, ((walk.1 ⟨2⟩).1 [⟨3⟩]).mpr inside.symm, walk.2.2.2 3 ⟨4⟩ fourth⟩

end Document

end XmlStore
