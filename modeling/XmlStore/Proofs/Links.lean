/-
Documents whose links agree with each other. The five links of a node say the
same thing several times over; `WellLinked` says that they do so consistently.
`Lists` states the same from the lists of children: it says of every node what
its links are, given the lists, and so is the form in which edits are checked.
-/
import Mathlib.Data.List.Perm.Subperm
import XmlStore.Proofs.Chain

namespace XmlStore

namespace Document

/-- Whether a node is in the store. -/
def Has (d : Document) (id : NodeId) : Prop := id.index < d.size

/-- The links of all nodes agree: chains of parents are finite, a node without a parent has no
siblings, and the children of every node are listed from the first to the last one, without
repetition, in both directions. -/
structure WellLinked (d : Document) : Prop where
  grounded : ∀ a, ∃ above, Chain d.parent? (some a) above
  alone : ∀ a, d.parent? a = none → d.previousSibling? a = none ∧ d.nextSibling? a = none
  chain : ∀ p, Chain d.nextSibling? (d.firstChild? p) (d.children p)
  parent : ∀ a p, a ∈ d.children p ↔ d.parent? a = some p
  last : ∀ p, (d.children p).getLast? = d.lastChild? p
  inverse : ∀ a b, d.previousSibling? b = some a ↔ d.nextSibling? a = some b

/-- The links of all nodes are those of nodes whose lists of children are `L`. -/
structure Lists (d : Document) (L : NodeId → List NodeId) : Prop where
  nodup : ∀ p, (L p).Nodup
  parent : ∀ a p, d.parent? a = some p ↔ a ∈ L p
  first : ∀ p, d.firstChild? p = (L p).head?
  last : ∀ p, d.lastChild? p = (L p).getLast?
  next : ∀ a b, d.nextSibling? a = some b ↔ ∃ p, [a, b] <:+: L p
  previous : ∀ a b, d.previousSibling? b = some a ↔ ∃ p, [a, b] <:+: L p

variable {d : Document} {L : NodeId → List NodeId} {a b p : NodeId} {link : Link}

/-- A node that a link leads from is in the store. -/
theorem has_of_target (h : d.target link a = some b) : d.Has a := by
  rw [Has, size]
  by_contra outside
  rw [target, node, Array.getD_eq_getD_getElem?, Array.getElem?_eq_none (Nat.le_of_not_lt outside)]
    at h
  simp at h

/-- Different nodes in the store are at most as many as the store has. -/
theorem length_le_size {ids : List NodeId} (nodup : ids.Nodup) (inside : ∀ a ∈ ids, d.Has a) :
    ids.length ≤ d.size := by
  have indices : (ids.map (·.index)).Nodup :=
    nodup.map fun a b (e : a.index = b.index) => congrArg NodeId.mk e
  have below : ids.map (·.index) ⊆ List.range d.size := by
    intro i hi
    obtain ⟨a, ha, rfl⟩ := List.mem_map.mp hi
    exact List.mem_range.mpr (inside a ha)
  have := (indices.subperm below).length_le
  simpa using this

namespace Lists

theorem unique_parent {q : NodeId} (h : d.Lists L) (ha : a ∈ L p) (ha' : a ∈ L q) : p = q :=
  Option.some.inj (((h.parent a p).mpr ha).symm.trans ((h.parent a q).mpr ha'))

theorem has_child (h : d.Lists L) (ha : a ∈ L p) : d.Has a := has_of_target ((h.parent a p).mpr ha)

theorem has_parent (h : d.Lists L) (ha : a ∈ L p) : d.Has p := by
  cases e : L p with
  | nil => simp [e] at ha
  | cons first rest => exact has_of_target ((h.first p).trans (congrArg List.head? e))

theorem chain (h : d.Lists L) (p : NodeId) : Chain d.nextSibling? (d.firstChild? p) (L p) := by
  refine .of_pairs (h.first p).symm (fun a b hab => (h.next a b).mpr ⟨p, hab⟩) fun a ha => ?_
  by_contra some_next
  obtain ⟨b, hb⟩ := Option.ne_none_iff_exists'.mp some_next
  obtain ⟨q, hq⟩ := (h.next a b).mp hb
  obtain rfl := h.unique_parent (List.mem_of_getLast? ha) (hq.subset List.mem_cons_self)
  exact getLast?_ne_of_pair (h.nodup p) hq ha

theorem children (h : d.Lists L) : d.children = L := by
  funext p
  exact follow_eq (h.chain p) (length_le_size (h.nodup p) fun a ha => h.has_child ha)

theorem alone (h : d.Lists L) (ha : d.parent? a = none) :
    d.previousSibling? a = none ∧ d.nextSibling? a = none := by
  have nowhere : ∀ p, a ∉ L p := fun p hp => by simp [(h.parent a p).mpr hp] at ha
  constructor <;> by_contra sibling <;> obtain ⟨b, hb⟩ := Option.ne_none_iff_exists'.mp sibling
  · obtain ⟨p, hp⟩ := (h.previous b a).mp hb
    exact nowhere p (hp.subset (by simp))
  · obtain ⟨p, hp⟩ := (h.next a b).mp hb
    exact nowhere p (hp.subset (by simp))

theorem wellLinked (h : d.Lists L) (grounded : ∀ a, ∃ above, Chain d.parent? (some a) above) :
    d.WellLinked where
  grounded
  alone _ := h.alone
  chain p := by rw [h.children]; exact h.chain p
  parent a p := by rw [h.children]; exact (h.parent a p).symm
  last p := by rw [h.children]; exact (h.last p).symm
  inverse a b := (h.previous a b).trans (h.next a b).symm

end Lists

namespace WellLinked

theorem lists (h : d.WellLinked) : d.Lists d.children where
  nodup p := (h.chain p).nodup
  parent a p := (h.parent a p).symm
  first p := (h.chain p).head?_eq.symm
  last p := (h.last p).symm
  next a b := by
    constructor
    · intro hab
      cases e : d.parent? a with
      | none => simp [(h.alone a e).2] at hab
      | some p => exact ⟨p, (h.chain p).pair_of_next ((h.parent a p).mpr e) hab⟩
    · rintro ⟨p, hp⟩
      exact (h.chain p).next_eq_of_pair hp
  previous a b := by
    rw [h.inverse a b]
    constructor
    · intro hab
      cases e : d.parent? a with
      | none => simp [(h.alone a e).2] at hab
      | some p => exact ⟨p, (h.chain p).pair_of_next ((h.parent a p).mpr e) hab⟩
    · rintro ⟨p, hp⟩
      exact (h.chain p).next_eq_of_pair hp

theorem nodup (h : d.WellLinked) (p : NodeId) : (d.children p).Nodup := (h.chain p).nodup

/-- The siblings of a child are those before and after it in the list of children. -/
theorem siblings {u v : List NodeId} (h : d.WellLinked) (place : d.children p = u ++ a :: v) :
    d.previousSibling? a = u.getLast? ∧ d.nextSibling? a = v.head? := by
  have lists := h.lists
  constructor
  · cases e : u.getLast? with
    | some b =>
      refine (lists.previous b a).mpr ⟨p, ?_⟩
      rw [place, pair_infix_append]
      exact .inr (.inr ⟨e, rfl⟩)
    | none =>
      obtain rfl := List.getLast?_eq_none_iff.mp e
      by_contra sibling
      obtain ⟨b, hb⟩ := Option.ne_none_iff_exists'.mp sibling
      obtain ⟨q, hq⟩ := (lists.previous b a).mp hb
      obtain rfl := lists.unique_parent (p := p) (by simp [place]) (pair_mem hq).2
      exact head?_ne_of_pair (h.nodup p) hq (by simp [place])
  · exact (Chain.cons_iff.mp ((h.chain p).drop_to place)).2.head?_eq.symm

theorem has_parent (h : d.WellLinked) (ha : d.parent? a = some p) : d.Has p :=
  h.lists.has_parent ((h.parent a p).mpr ha)

theorem length_children_le (h : d.WellLinked) (p : NodeId) : (d.children p).length ≤ d.size :=
  length_le_size (h.nodup p) fun _ ha => h.lists.has_child ha

/-- A link leads to a node in the store. -/
theorem has_target (h : d.WellLinked) (hab : d.target link a = some b) : d.Has b := by
  have lists := h.lists
  cases link with
  | parent => exact h.has_parent hab
  | firstChild => exact lists.has_child (List.mem_of_head? ((lists.first a).symm.trans hab))
  | lastChild => exact lists.has_child (List.mem_of_getLast? ((lists.last a).symm.trans hab))
  | previousSibling =>
    obtain ⟨p, hp⟩ := (lists.previous b a).mp hab
    exact lists.has_child (hp.subset (by simp))
  | nextSibling =>
    obtain ⟨p, hp⟩ := (lists.next a b).mp hab
    exact lists.has_child (hp.subset (by simp))

/-- The ancestors of a node are the whole chain of parents from it. -/
theorem ancestors (h : d.WellLinked) (ha : d.Has a) : Chain d.parent? (some a) (d.ancestors a) := by
  obtain ⟨above, chain⟩ := h.grounded a
  have inside : ∀ b ∈ above, d.Has b :=
    chain.forall_mem (fun b p hp _ => h.has_parent hp) (by simpa using ha)
  have : d.ancestors a = above := follow_eq chain (length_le_size chain.nodup inside)
  rwa [this]

theorem has_ancestor (h : d.WellLinked) (ha : d.Has a) (hb : b ∈ d.ancestors a) : d.Has b :=
  (h.ancestors ha).forall_mem (fun _ _ hp _ => h.has_parent hp) (by simpa using ha) b hb

theorem ancestors_eq (h : d.WellLinked) (hp : d.parent? a = some p) :
    d.ancestors a = a :: d.ancestors p := by
  refine (h.ancestors (has_of_target hp)).unique (.cons ?_)
  rw [hp]
  exact h.ancestors (h.has_parent hp)

theorem ancestors_of_top (h : d.WellLinked) (ha : d.Has a) (top : d.parent? a = none) :
    d.ancestors a = [a] := by
  refine (h.ancestors ha).unique (.cons ?_)
  rw [top]
  exact .nil

/-- A node without children is above no other node. -/
theorem not_mem_ancestors (h : d.WellLinked) (ha : d.Has a) (childless : d.children b = [])
    (ne : b ≠ a) : b ∉ d.ancestors a := by
  intro above
  rcases (h.ancestors ha).eq_or_next above with e | ⟨c, hc⟩
  · exact ne (Option.some.inj e).symm
  · have := (h.parent c b).mpr hc
    simp [childless] at this

/-- The ancestors of a node are the same in a document that agrees on their parents. -/
theorem ancestors_congr {d' : Document} (h : d.WellLinked) (h' : d'.WellLinked) (ha : d.Has a)
    (ha' : d'.Has a) (same : ∀ b ∈ d.ancestors a, d'.parent? b = d.parent? b) :
    d'.ancestors a = d.ancestors a :=
  (h'.ancestors ha').unique ((h.ancestors ha).congr same)

end WellLinked

theorem children_of_not_has (h : ¬ d.Has a) : d.children a = [] := by
  have none : d.firstChild? a = none := by
    by_contra some
    obtain ⟨b, hb⟩ := Option.ne_none_iff_exists'.mp some
    exact h (has_of_target hb)
  rw [children, none]
  cases e : d.size <;> simp [forward, follow, e]

end Document

end XmlStore
