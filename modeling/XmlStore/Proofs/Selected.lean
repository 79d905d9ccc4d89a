/-
What expressions select. Every node that is hit belongs to the tree: it is in
the store, and the document node is above it or is the node itself.
-/
import XmlStore.Document.Select
import XmlStore.Proofs.Steps

namespace XmlStore

namespace Document

variable {d : Document} {a b p top : NodeId}

/-- Whether a node belongs to the tree. -/
structure Attached (d : Document) (id : NodeId) : Prop where
  has : d.Has id
  below_root : root ∈ d.ancestors id

theorem attached_root (h : d.Rooted) : d.Attached root :=
  ⟨h.has_root, List.mem_of_head? (h.wellLinked.ancestors h.has_root).head?_eq⟩

theorem Attached.child (ha : d.Attached p) (h : d.Rooted) (hp : d.parent? a = some p) :
    d.Attached a := by
  refine ⟨has_of_target hp, ?_⟩
  rw [h.wellLinked.ancestors_eq hp]
  exact List.mem_cons_of_mem a ha.below_root

theorem Attached.parent (ha : d.Attached a) (h : d.Rooted) (hp : d.parent? a = some p) :
    d.Attached p := by
  refine ⟨h.wellLinked.has_parent hp, ?_⟩
  have above := ha.below_root
  rw [h.wellLinked.ancestors_eq hp] at above
  rcases List.mem_cons.mp above with rfl | above
  · exact absurd ((h.wellLinked.parent root p).mpr hp) (h.root_top p)
  · exact above

theorem Attached.nextSibling (ha : d.Attached a) (h : d.Rooted) (hb : d.nextSibling? a = some b) :
    d.Attached b := by
  have lists := h.wellLinked.lists
  obtain ⟨p, hp⟩ := (lists.next a b).mp hb
  obtain ⟨a_below, b_below⟩ := pair_mem hp
  exact (ha.parent h ((lists.parent a p).mpr a_below)).child h ((lists.parent b p).mpr b_below)

theorem Attached.behind (h : d.Rooted) {n : Nat} (ha : d.Attached a)
    (hb : d.behind top n a = some b) : d.Attached b := by
  induction n generalizing a with
  | zero => cases hb
  | succ n ih =>
    rw [Document.behind] at hb
    split at hb
    · rename_i sibling hs
      cases hb
      exact ha.nextSibling h hs
    · obtain ⟨p, hp, hb⟩ := Option.bind_eq_some_iff.mp hb
      split at hb
      · cases hb
      · exact ih (ha.parent h hp) hb

theorem Attached.firstChild (ha : d.Attached a) (h : d.Rooted) (hb : d.firstChild? a = some b) :
    d.Attached b := by
  have lists := h.wellLinked.lists
  exact ha.child h ((lists.parent b a).mpr (List.mem_of_head? ((lists.first a).symm.trans hb)))

theorem Attached.successor (ha : d.Attached a) (h : d.Rooted) (hb : d.successor? top a = some b) :
    d.Attached b := by
  rcases Option.or_eq_some_iff.mp hb with hb | ⟨-, hb⟩
  · exact ha.firstChild h hb
  · exact ha.behind h hb

theorem Attached.isAncestor_root (ha : d.Attached a) (h : d.Rooted) (ne : a ≠ root) :
    d.isAncestor root a = true := by
  have above := ha.below_root
  cases hp : d.parent? a with
  | none =>
    rw [h.wellLinked.ancestors_of_top ha.has hp] at above
    exact absurd (List.mem_singleton.mp above).symm ne
  | some p =>
    rw [h.wellLinked.ancestors_eq hp] at above
    rw [isAncestor, h.wellLinked.ancestors_eq hp]
    simpa [ne.symm] using above

theorem attached_modifyTag {f : Element → Element} : (d.modifyTag b f).Attached a ↔ d.Attached a := by
  have has : (d.modifyTag b f).Has a ↔ d.Has a := has_modifyTag b f
  have above : (d.modifyTag b f).ancestors a = d.ancestors a := ancestors_modifyTag b f
  exact ⟨fun h => ⟨has.mp h.has, above ▸ h.below_root⟩, fun h => ⟨has.mpr h.has, above.symm ▸ h.below_root⟩⟩

theorem attached_descendants (h : d.Rooted) (ha : d.Attached a) : ∀ b ∈ d.descendants a, d.Attached b :=
  forall_mem_follow (fun _ _ hb hc => hc.successor h hb) fun _ hb => ha.firstChild h hb

theorem attached_documentOrder (h : d.Rooted) (ha : a ∈ d.documentOrder) : d.Attached a := by
  rcases List.mem_cons.mp ha with rfl | ha
  · exact attached_root h
  · exact attached_descendants h (attached_root h) a ha

/-- Whether a hit is a node of the tree or an attribute of one. -/
def AttachedHit (d : Document) : Hit → Prop
  | .node id => d.Attached id
  | .attribute owner _ => d.Attached owner

theorem attached_hits (h : d.Rooted) (items : List Item) : ∀ hit ∈ d.hits items, d.AttachedHit hit := by
  intro hit hhit
  obtain ⟨item, -, rfl⟩ := List.mem_map.mp hhit
  have node : ∀ n, d.Attached (d.documentOrder.toArray.getD n root) := by
    intro n
    rw [Array.getD_eq_getD_getElem?, List.getElem?_toArray]
    cases e : d.documentOrder[n]? with
    | none => exact attached_root h
    | some a => exact attached_documentOrder h (List.mem_of_getElem? e)
  rcases item with n | ⟨owner, index⟩
  · exact node n
  · exact node owner

theorem attached_select {d : Document} {namespaces : List (String × String)} {expression : String}
    {hits : List Hit} (h : d.Rooted) (selected : d.select namespaces expression = .ok hits) :
    ∀ hit ∈ hits, d.AttachedHit hit := by
  rw [select] at selected
  cases parsed : Expr.ofString expression with
  | error e =>
    rw [parsed] at selected
    cases selected
  | ok e =>
    rw [parsed] at selected
    change (do return d.hits (← (Env.mk d.tree namespaces []).select e)) = _ at selected
    cases evaluated : (Env.mk d.tree namespaces []).select e with
    | error e =>
      rw [evaluated] at selected
      cases selected
    | ok items =>
      rw [evaluated] at selected
      cases selected
      exact attached_hits h items

end Document

end XmlStore
