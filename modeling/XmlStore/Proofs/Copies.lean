/-
New nodes for a forest. Adding a forest below a node, and so copying a node of
the same or of another document, makes new nodes only, which show what they
are copied from; the nodes that were there before stay as they were.
-/
import XmlStore.Proofs.Below
import XmlStore.Proofs.EditLaws

namespace XmlStore

namespace Document

variable {d d' : Document} {p : NodeId} {f : Forest Content}

/-- The second document is the first one with new nodes for a forest as the last children of
`p`. -/
structure Grown (d d' : Document) (p : NodeId) (f : Forest Content) : Prop extends Keeps d d' where
  wellLinked : d'.WellLinked
  parent : ∀ a, d.Has a → d'.parent? a = d.parent? a
  others : ∀ q, d.Has q → q ≠ p → d'.children q = d.children q
  grown : ∃ ids, d'.children p = d.children p ++ ids ∧ d'.Shows d.size ids f

/-- A new node below `p`, a forest below that node and then another one below `p`. -/
theorem Grown.cons {d₁ d₂ d₃ : Document} {id : NodeId} {below rest : Forest Content}
    (h : d.WellLinked) (hp : d.Has p) (new : ¬ d.Has id) (numbered : d.size ≤ id.index)
    (added : Edited d d₁ (Function.update d.children p (d.children p ++ [id]))) (has_id : d₁.Has id)
    (inner : Grown d₁ d₂ id below) (outer : Grown d₂ d₃ p rest) :
    Grown d d₃ p (.cons (d₁.content id) below rest) := by
  have ne : ∀ a, d.Has a → a ≠ id := fun a ha e => new (e ▸ ha)
  have has₂ : ∀ a, d₁.Has a → d₂.Has a := fun a ha => inner.has ha
  have below_p : d₂.children p = d.children p ++ [id] := by
    rw [inner.others p (added.has hp) (ne p hp), added.children, Function.update_self]
  obtain ⟨ids, ids_eq, shown⟩ := inner.grown
  obtain ⟨others, others_eq, shown'⟩ := outer.grown
  refine { (added.toKeeps.trans inner.toKeeps).trans outer.toKeeps with
    wellLinked := outer.wellLinked, parent := ?_, others := ?_, grown := ⟨id :: others, ?_, ?_⟩ }
  · intro a ha
    rw [outer.parent a (has₂ a (added.has ha)), inner.parent a (added.has ha)]
    exact added.parent_eq_of_appended h (ne a ha)
  · intro q hq hqp
    rw [outer.others q (has₂ q (added.has hq)) hqp, inner.others q (added.has hq) (ne q hq),
      added.children, Function.update_of_ne hqp]
  · rw [others_eq, below_p, List.append_assoc]
    rfl
  · have childless : d₁.children id = [] := by
      rw [added.children, Function.update_of_ne (ne p hp).symm, children_of_not_has new]
    have below_id : d₃.children id = ids := by
      rw [outer.others id (has₂ id has_id) (ne p hp).symm, ids_eq, childless]
      rfl
    refine ⟨id, others, rfl, numbered, outer.has (has₂ id has_id), ?_, ?_, ?_⟩
    · rw [outer.content id (has₂ id has_id), inner.content id has_id]
    · rw [below_id]
      refine shown.frame added.size fun a high ha => ⟨outer.has ha, outer.content a ha, ?_⟩
      refine outer.others a ha ?_
      rintro rfl
      exact Nat.not_le_of_lt hp (Nat.le_trans added.size high)
    · exact shown'.frame (Nat.le_trans added.size inner.size) fun a _ ha => ⟨ha, rfl, rfl⟩

theorem grown_addForest (h : d.WellLinked) (hp : d.Has p) : Grown d (addForest p f d) p f := by
  induction f generalizing d p with
  | nil =>
    exact { Keeps.refl d with
      wellLinked := h
      parent := fun _ _ => rfl
      others := fun _ _ _ => rfl
      grown := ⟨[], (List.append_nil _).symm, rfl⟩ }
  | cons content children rest ihc ihr =>
    have added := edited_add h hp content
    have has_id : ((d.create content).2.append p ⟨d.size⟩).Has ⟨d.size⟩ :=
      Keeps.append.has (insertable_create h hp content).has
    have content_id : ((d.create content).2.append p ⟨d.size⟩).content ⟨d.size⟩ = content := by
      rw [Keeps.append.content _ (insertable_create h hp content).has, content_create, if_pos rfl]
    have inner := ihc added.wellLinked has_id
    have outer := ihr inner.wellLinked (inner.has (added.has hp))
    have grown := Grown.cons h hp not_has_new (Nat.le_refl _) added has_id inner outer
    rw [content_id] at grown
    exact grown

/-! ## Copies -/

/-- The second document is the first one with a new tree, outside of the others, whose topmost node
is `id`. -/
structure Copied (d d' : Document) (id : NodeId) (top : Content) (below : Forest Content) : Prop
    extends Keeps d d' where
  wellLinked : d'.WellLinked
  parent : ∀ a, d.Has a → d'.parent? a = d.parent? a
  children : ∀ q, d.Has q → d'.children q = d.children q
  new : d.size ≤ id.index
  has : d'.Has id
  detached : d'.parent? id = none
  content_top : d'.content id = top
  shown : d'.Shows d.size (d'.children id) below

theorem Copied.contents {id : NodeId} {top : Content} {below : Forest Content}
    (c : Copied d d' id top below) : d'.contents id = below :=
  c.shown.contents c.wellLinked c.has

theorem copied_graft (h : d.WellLinked) (content : Content) (below : Forest Content) :
    Copied d (d.graft content below).2 (d.graft content below).1 content below := by
  have created := edited_create h content
  have has_id : (d.create content).2.Has ⟨d.size⟩ := by
    rw [Has, size_create]
    exact Nat.lt_succ_self d.size
  have grown := grown_addForest (f := below) created.wellLinked has_id
  obtain ⟨ids, ids_eq, shown⟩ := grown.grown
  rw [created.children, children_of_not_has not_has_new] at ids_eq
  obtain rfl : (addForest ⟨d.size⟩ below (d.create content).2).children ⟨d.size⟩ = ids := ids_eq
  refine { created.toKeeps.trans grown.toKeeps with
    wellLinked := grown.wellLinked
    parent := fun a ha => ?_
    children := fun q hq => ?_
    new := Nat.le_refl _
    has := grown.has has_id
    detached := ?_
    content_top := ?_
    shown := shown.frame created.size fun a _ ha => ⟨ha, rfl, rfl⟩ }
  · exact (grown.parent a (created.has ha)).trans (target_create content)
  · refine (grown.others q (created.has hq) ?_).trans (created.children q)
    rintro rfl
    exact not_has_new hq
  · exact (grown.parent _ has_id).trans
      ((target_create content).trans (parent?_of_not_has not_has_new))
  · refine (grown.content _ has_id).trans ?_
    rw [content_create, if_pos rfl]

/-! ## Documents from markup -/

/-- A document without any links is well linked. -/
theorem wellLinked_of_no_links (none : ∀ link a, d.target link a = none) : d.WellLinked := by
  have lists : d.Lists fun _ => [] := by
    refine ⟨?_, ?_, ?_, ?_, ?_, ?_⟩ <;> intros <;> simp [none]
  refine lists.wellLinked fun a => ⟨[a], .cons ?_⟩
  rw [parent?, none]
  exact .nil

/-- A document that holds nothing but its document node. -/
theorem target_blank (declaration : Declaration) (link : Link) (a : NodeId) :
    Document.target { empty with declaration } link a = none := by
  rcases a with ⟨_ | i⟩
  · exact Node.target_alone .document link
  · exact Node.target_alone .document link

theorem grown_ofMarkup (m : Markup) :
    Grown { empty with declaration := m.declaration } (ofMarkup m) root m.nodes :=
  grown_addForest (wellLinked_of_no_links (target_blank m.declaration)) Nat.zero_lt_one

theorem shows_ofMarkup (m : Markup) :
    (ofMarkup m).Shows 1 ((ofMarkup m).children root) m.nodes := by
  obtain ⟨ids, children, shown⟩ := (grown_ofMarkup m).grown
  have childless : ({ empty with declaration := m.declaration } : Document).children root = [] := rfl
  rw [childless, List.nil_append] at children
  rw [children]
  exact shown

/-- The document made from a markup has its nodes. -/
theorem contents_ofMarkup (m : Markup) : (ofMarkup m).contents root = m.nodes :=
  (shows_ofMarkup m).contents (grown_ofMarkup m).wellLinked ((grown_ofMarkup m).has Nat.zero_lt_one)

/-- The root element of a document that was read is that of its markup. -/
theorem root?_of_rootElement? {m : Markup} {top : NodeId}
    (found : (ofMarkup m).rootElement? = some top) :
    m.root? = some ((ofMarkup m).content top, (ofMarkup m).contents top) :=
  (shows_ofMarkup m).find? (grown_ofMarkup m).wellLinked found

theorem ofString_ok {options : ReadOptions} {s : String} :
    ofString options s = .ok d ↔ ∃ m, Markup.ofString options s = .ok m ∧ ofMarkup m = d := by
  rw [ofString]
  cases Markup.ofString options s <;> simp [Except.map]

end Document

end XmlStore
