/-
What is left of an exchange. Two nodes that do not contain each other are
exchanged by way of two more nodes, which hold their places for a while.
Afterwards either node is where the other one was, with the same below it, the
two nodes that held the places stand alone, and doing it once more brings all
lists of children back.
-/
import XmlStore.Proofs.Axes
import XmlStore.Proofs.Preorder
import XmlStore.Proofs.Proper

namespace XmlStore

namespace Document

variable {d d' : Document} {a b c p x : NodeId}

instance : Decidable (d.Has a) := inferInstanceAs (Decidable (a.index < d.size))

/-! ## Untouched trees -/

theorem Branches.congr {f : Forest NodeId} (branches : d.Branches f)
    (same : ∀ x ∈ f.preorder, d'.children x = d.children x) : d'.Branches f := by
  induction f with
  | nil => trivial
  | cons id children rest ihc ihr =>
    obtain ⟨kids, inner, outer⟩ := branches
    rw [Forest.preorder, List.forall_mem_cons, List.forall_mem_append] at same
    exact ⟨kids.trans same.1.symm, ihc inner same.2.1, ihr outer same.2.2⟩

/-- A node has the same below it if it and the nodes there have the same children. -/
theorem below_congr (h : d.WellLinked) (h' : d'.WellLinked) (hc : d.Has c) (hc' : d'.Has c)
    (same : ∀ x ∈ d.whole c, d'.children x = d.children x) : d'.below c = d.below c := by
  rw [whole, List.forall_mem_cons, h.descendants_eq hc] at same
  have branches := (h.branches_below hc).congr same.2
  have spread := h'.eq_spread branches fun r hr => by
    rw [roots_below h hc, ← same.1] at hr
    exact h'.lists.has_child hr
  rw [spread, roots_below h hc, ← same.1]
  exact h'.below_eq hc'

/-- The children of a node in a tree are below its top. -/
theorem WellLinked.mem_descendants_of_child (h : d.WellLinked) (hx : x ∈ d.whole c) (ha : a ∈ d.children x) :
    a ∈ d.descendants c := by
  rw [h.mem_descendants]
  rcases List.mem_cons.mp hx with rfl | below
  · exact .single ha
  · exact (h.mem_descendants.mp below).tail ha

/-! ## Two nodes exchanged -/

theorem mem_map_swap {ids : List NodeId} : c ∈ ids.map (Equiv.swap a b) ↔ Equiv.swap a b c ∈ ids := by
  rw [List.mem_map]
  constructor
  · rintro ⟨x, hx, rfl⟩
    rwa [Equiv.swap_apply_self]
  · exact fun mem => ⟨_, mem, Equiv.swap_apply_self a b c⟩

theorem map_swap_of_not_mem {ids : List NodeId} (ha : a ∉ ids) (hb : b ∉ ids) :
    ids.map (Equiv.swap a b) = ids := by
  refine (List.map_congr_left fun x hx => ?_).trans (List.map_id ids)
  exact Equiv.swap_apply_of_ne_of_ne (fun e => ha (e ▸ hx)) fun e => hb (e ▸ hx)

/-- The second document is the first one with two nodes exchanged: in the lists of children each stands
in place of the other, and so both have the parents of each other. Whatever contains neither of them
has the same below it, and nodes that have come in between have no links. -/
structure Swapped (d d' : Document) (a b : NodeId) : Prop extends
    Edited d d' fun q => (d.children q).map (Equiv.swap a b) where
  parent : ∀ c, d'.parent? c = d.parent? (Equiv.swap a b c)
  below : ∀ c, d.Has c → d.isAncestor c a = false → d.isAncestor c b = false →
    d'.below c = d.below c ∧ d'.contents c = d.contents c
  new : ∀ c, ¬ d.Has c → ∀ link, d'.target link c = none

variable (h : d.WellLinked) (ha : d.Has a) (hb : d.Has b) (hab : d.isAncestor a b = false)
  (hba : d.isAncestor b a = false)

section

variable (edited : Edited d d' fun q => (d.children q).map (Equiv.swap a b))

include edited h

theorem parent?_of_swapped (c : NodeId) : d'.parent? c = d.parent? (Equiv.swap a b c) := by
  ext p
  rw [edited.parent_iff, mem_map_swap, h.parent]

include ha hb

/-- Nodes that contain neither of the two have the same below them. -/
theorem below_of_swapped (hc : d.Has c) (hca : d.isAncestor c a = false) (hcb : d.isAncestor c b = false) :
    d'.below c = d.below c := by
  refine below_congr h edited.wellLinked hc (edited.has hc) fun x hx => ?_
  have apart {e : NodeId} (he : d.Has e) (hce : d.isAncestor c e = false) : e ∉ d.children x := by
    intro mem
    have inside := (h.mem_descendants_iff he hc).mp (h.mem_descendants_of_child hx mem)
    rw [hce] at inside
    cases inside
  rw [edited.children, map_swap_of_not_mem (apart ha hca) (apart hb hcb)]

/-- Nodes that were not there before have come without links. -/
theorem target_of_swapped (new : ¬ d.Has c) (link : Link) : d'.target link c = none := by
  have fixed : Equiv.swap a b c = c :=
    Equiv.swap_apply_of_ne_of_ne (fun e => new (e ▸ ha)) fun e => new (e ▸ hb)
  have top : d'.parent? c = none := by
    rw [parent?_of_swapped h edited, fixed, parent?_of_not_has new]
  have childless : d'.children c = [] := by
    rw [edited.children, children_of_not_has new, List.map_nil]
  have lists := edited.wellLinked.lists
  cases link with
  | parent => exact top
  | firstChild => exact (lists.first c).trans (by rw [childless]; rfl)
  | lastChild => exact (lists.last c).trans (by rw [childless]; rfl)
  | previousSibling => exact (lists.alone top).1
  | nextSibling => exact (lists.alone top).2

theorem swapped_of_edited : Swapped d d' a b where
  toEdited := edited
  parent := parent?_of_swapped h edited
  below c hc hca hcb := by
    have same := below_of_swapped h ha hb edited hc hca hcb
    refine ⟨same, ?_⟩
    rw [contents, contents, same]
    exact Forest.map_congr fun x hx => edited.content x (h.has_below x hx)
  new c new link := target_of_swapped h ha hb edited new link

end

include h ha hb hab in
/-- Either node has above it what the other had. -/
theorem Swapped.ancestors_eq (swapped : Swapped d d' a b) : d'.ancestors a = a :: (d.ancestors b).drop 1 := by
  have parent : d'.parent? a = d.parent? b := by rw [swapped.parent, Equiv.swap_apply_left]
  cases hp : d.parent? b with
  | none =>
    rw [h.ancestors_of_top hb hp, swapped.wellLinked.ancestors_of_top (swapped.has ha) (parent.trans hp)]
    rfl
  | some p =>
    obtain ⟨apart, apart'⟩ := apart_of_not_isAncestor h hab hp
    have has_p := h.has_parent hp
    have above := h.ancestors_congr swapped.wellLinked has_p (swapped.has has_p) fun x hx => by
      have ne : x ≠ a := fun e => apart (e ▸ hx)
      have ne' : x ≠ b := fun e => apart' (e ▸ hx)
      rw [swapped.parent, Equiv.swap_apply_of_ne_of_ne ne ne']
    rw [swapped.wellLinked.ancestors_eq (parent.trans hp), above, h.ancestors_eq hp]
    rfl

theorem Swapped.symm (swapped : Swapped d d' a b) : Swapped d d' b a where
  toEdited := swapped.toEdited.congr fun q => by rw [Equiv.swap_comm]
  parent c := by rw [swapped.parent, Equiv.swap_comm]
  below c hc hcb hca := swapped.below c hc hca hcb
  new := swapped.new

include h ha hb hab in
/-- Nodes that did not contain each other still do not. -/
theorem Swapped.isAncestor_eq_false (swapped : Swapped d d' a b) : d'.isAncestor b a = false := by
  obtain ⟨more, above⟩ := List.head?_eq_some_iff.mp (h.ancestors hb).head?_eq
  have nodup := (h.ancestors hb).nodup
  rw [above] at nodup
  rw [isAncestor, swapped.ancestors_eq h ha hb hab, above]
  simpa using (List.nodup_cons.mp nodup).1

theorem size_swap (ne : a ≠ b) : (d.swap a b).size = d.size + 2 := by
  rw [(relinked_swap ne).size, size_create, size_create]

theorem WellLinked.isAncestor_self (h : d.WellLinked) (ha : d.Has a) : d.isAncestor a a = false := by
  rw [← Bool.not_eq_true, ← h.mem_descendants_iff ha ha, h.descendants_eq ha]
  exact h.not_mem_below ha

include h ha hb hab hba

theorem swapped_swap : Swapped d (d.swap a b) a b :=
  swapped_of_edited h ha hb (edited_swap h ha hb hab hba)

/-- Exchanging two nodes, neither of which contains the other, puts either in place of the other with
all that is below it, and makes two more nodes, which are left without links. Doing so once more puts
the two back. -/
theorem swap_exchanges : Swapped d (d.swap a b) a b ∧
    (∀ c ∈ [a, b], (d.swap a b).below c = d.below c ∧ (d.swap a b).contents c = d.contents c) ∧
    (a ≠ b → (d.swap a b).size = d.size + 2) ∧
    Swapped (d.swap a b) ((d.swap a b).swap a b) a b ∧
    ∀ q, ((d.swap a b).swap a b).children q = d.children q := by
  have once := swapped_swap h ha hb hab hba
  have twice := swapped_swap once.wellLinked (once.has ha) (once.has hb)
    (once.symm.isAncestor_eq_false h hb ha hba) (once.isAncestor_eq_false h ha hb hab)
  have both : ∀ c ∈ [a, b], (d.swap a b).below c = d.below c ∧ (d.swap a b).contents c = d.contents c := by
    have left := once.below a ha (h.isAncestor_self ha) hab
    have right := once.below b hb hba (h.isAncestor_self hb)
    exact List.forall_mem_cons.mpr ⟨left, List.forall_mem_singleton.mpr right⟩
  refine ⟨once, both, size_swap, twice, fun q => ?_⟩
  rw [twice.children, once.children, List.map_map]
  refine (List.map_congr_left fun c _ => ?_).trans (List.map_id _)
  exact Equiv.swap_apply_self a b c

omit h ha hb hab hba in
/-- The first of two neighbours, which has a text below it, is exchanged with the second one. -/
theorem swap_exchanges_neighbours :
    let parts : Forest Content := .cons (.element (.named ⟨none, "b"⟩)) (.tree (.text "t") .nil) (.tree (.comment "c") .nil)
    let d := ofMarkup ⟨.absent, .tree (.element (.named ⟨none, "a"⟩)) parts, []⟩
    d.children ⟨1⟩ = [⟨2⟩, ⟨4⟩] ∧ (d.swap ⟨2⟩ ⟨4⟩).children ⟨1⟩ = [⟨4⟩, ⟨2⟩] ∧
      (d.swap ⟨2⟩ ⟨4⟩).below ⟨2⟩ = .tree ⟨3⟩ .nil ∧ (d.swap ⟨2⟩ ⟨4⟩).parent? ⟨5⟩ = none := by
  intro parts d
  have linked := (grown_ofMarkup ⟨.absent, .tree (.element (.named ⟨none, "a"⟩)) parts, []⟩).wellLinked
  obtain ⟨exchanged, kept, -⟩ :=
    swap_exchanges linked (a := ⟨2⟩) (b := ⟨4⟩) (by decide) (by decide) (by decide) (by decide)
  refine ⟨by decide, (exchanged.children ⟨1⟩).trans (by decide), ?_, exchanged.new ⟨5⟩ (by decide) .parent⟩
  exact (kept ⟨2⟩ List.mem_cons_self).1.trans (by decide)

end Document

end XmlStore
