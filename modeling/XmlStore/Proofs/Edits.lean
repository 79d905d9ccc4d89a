/-
What the edits of the tree do to well linked documents. Each is first seen as
one node put into a list of children or taken out of one; from that follow the
links, the lists of children and what the nodes hold after the edit.
-/
import XmlStore.Proofs.Splice

namespace XmlStore

namespace Document

variable {d : Document} {a b id p x : NodeId} {link other : Link}

/-! ## Single nodes -/

theorem index_ne {a b : NodeId} (h : a ≠ b) : a.index ≠ b.index := fun e => h (congrArg NodeId.mk e)

@[simp]
theorem size_modify (f : Node → Node) : (d.modify id f).size = d.size := Array.size_modify

theorem node_modify (h : d.Has id) (f : Node → Node) :
    (d.modify id f).node a = if a = id then f (d.node id) else d.node a := by
  simp only [modify, node, Array.getD_eq_getD_getElem?, Array.getElem?_modify]
  by_cases e : a = id
  · subst e
    have : a.index < d.nodes.size := h
    simp [this]
  · simp [e, (index_ne e).symm]

/-- What a change of one node leaves alone in every node. -/
theorem observe_modify {β : Type} (observe : Node → β) {f : Node → Node}
    (same : ∀ node, observe (f node) = observe node) :
    observe ((d.modify id f).node a) = observe (d.node a) := by
  simp only [modify, node, Array.getD_eq_getD_getElem?, Array.getElem?_modify]
  split
  · cases d.nodes[a.index]? <;> simp [same]
  · rfl

theorem target_redirect (h : d.Has id) (target : Option NodeId) :
    (d.redirect link id target).target other a =
      if a = id ∧ other = link then target else d.target other a := by
  rw [Document.target, redirect, node_modify h]
  split
  · subst a
    rw [Node.target_redirect]
    grind [Document.target]
  · grind [Document.target]

@[simp]
theorem size_redirect (target : Option NodeId) : (d.redirect link id target).size = d.size :=
  size_modify _

@[simp]
theorem has_redirect (target : Option NodeId) : (d.redirect link id target).Has a ↔ d.Has a := by
  rw [Has, Has, size_redirect]

@[simp]
theorem content_redirect (target : Option NodeId) :
    (d.redirect link id target).content a = d.content a :=
  observe_modify Node.content (Node.content_redirect · link target)

@[simp]
theorem declaration_redirect (target : Option NodeId) :
    (d.redirect link id target).declaration = d.declaration :=
  rfl

@[simp]
theorem size_modifyContent (f : Content → Content) : (d.modifyContent id f).size = d.size :=
  size_modify _

@[simp]
theorem target_modifyContent (f : Content → Content) :
    (d.modifyContent id f).target link a = d.target link a :=
  observe_modify (·.target link) fun _ => by cases link <;> rfl

theorem content_modifyContent (h : d.Has id) (f : Content → Content) :
    (d.modifyContent id f).content a = if a = id then f (d.content id) else d.content a := by
  rw [content, modifyContent, node_modify h]
  split <;> rfl

@[simp]
theorem size_create (content : Content) : (d.create content).2.size = d.size + 1 :=
  Array.size_push _

theorem node_create (content : Content) :
    (d.create content).2.node a = if a = ⟨d.size⟩ then .alone content else d.node a := by
  simp only [create, node, Array.getD_eq_getD_getElem?, Array.getElem?_push]
  by_cases e : a = ⟨d.size⟩
  · subst e
    simp [size]
  · have outside : a.index ≠ d.nodes.size := index_ne e
    rw [if_neg e, if_neg outside]

/-- A new node has no links. -/
@[simp]
theorem target_create (content : Content) :
    (d.create content).2.target link a = d.target link a := by
  rw [target, node_create]
  split
  · subst a
    cases e : d.target link ⟨d.size⟩ with
    | none => exact Node.target_alone content link
    | some b => exact absurd (has_of_target e) (Nat.lt_irrefl d.size)
  · rfl

theorem content_create (content : Content) :
    (d.create content).2.content a = if a = ⟨d.size⟩ then content else d.content a := by
  rw [Document.content, node_create]
  split <;> rfl

/-! ## One node into a list of children, and out of one -/

theorem joined_append (h : d.WellLinked) (hp : d.Has p) (hx : d.Has x)
    (detached : d.parent? x = none) : Joined d (d.append p x) p x (d.children p).getLast? none := by
  have alone := h.alone x detached
  rw [h.last]
  cases e : d.lastChild? p with
  | none =>
    refine ⟨?_, ?_, ?_, ?_, ?_⟩ <;> intro y <;> simp [append, target_redirect, hp, hx, e] <;> grind
  | some last =>
    have last_has : d.Has last := h.has_target e
    have last_below : d.parent? last = some p :=
      (h.parent last p).mp (List.mem_of_getLast? ((h.last p).trans e))
    refine ⟨?_, ?_, ?_, ?_, ?_⟩ <;> intro y <;> simp [append, target_redirect, hp, hx, last_has, e]
    grind

theorem joined_insertBefore {r : NodeId} (h : d.WellLinked) (hp : d.parent? r = some p)
    (hx : d.Has x) (detached : d.parent? x = none) :
    Joined d (d.insertBefore r x) p x (d.previousSibling? r) (some r) := by
  have alone := h.alone x detached
  have hr : d.Has r := has_of_target hp
  have p_has : d.Has p := h.has_target hp
  have inverse := h.inverse
  have ne : r ≠ x := by grind
  cases e : d.previousSibling? r with
  | none =>
    refine ⟨?_, ?_, ?_, ?_, ?_⟩ <;> intro y <;> simp [insertBefore, target_redirect, hp, hx, hr, p_has, e]
    grind
  | some previous =>
    have hl : d.Has previous := h.has_target e
    refine ⟨?_, ?_, ?_, ?_, ?_⟩ <;> intro y <;> simp [insertBefore, target_redirect, hp, hx, hr, hl, e] <;> grind

theorem parted_detach (h : d.WellLinked) (hp : d.parent? x = some p) :
    Parted d (d.detach x) p x (d.previousSibling? x) (d.nextSibling? x) := by
  have hx : d.Has x := has_of_target hp
  have p_has : d.Has p := h.has_target hp
  have inverse := h.inverse
  cases e : d.previousSibling? x with
  | none =>
    cases e' : d.nextSibling? x with
    | none =>
      refine ⟨?_, ?_, ?_, ?_, ?_⟩ <;> intro y <;> simp [detach, target_redirect, hp, hx, p_has, e, e']
    | some next =>
      have hn : d.Has next := h.has_target e'
      refine ⟨?_, ?_, ?_, ?_, ?_⟩ <;> intro y <;> simp [detach, target_redirect, hp, hx, p_has, hn, e, e']
      grind
  | some previous =>
    have hl : d.Has previous := h.has_target e
    cases e' : d.nextSibling? x with
    | none =>
      refine ⟨?_, ?_, ?_, ?_, ?_⟩ <;> intro y <;> simp [detach, target_redirect, hp, hx, p_has, hl, e, e']
      grind
    | some next =>
      have hn : d.Has next := h.has_target e'
      refine ⟨?_, ?_, ?_, ?_, ?_⟩ <;> intro y <;> simp [detach, target_redirect, hp, hx, hl, hn, e, e'] <;> grind

end Document

end XmlStore
