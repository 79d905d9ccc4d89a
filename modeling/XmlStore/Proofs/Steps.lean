/-
How documents come about. A document begins as one that was read or as one
with a new root element, and goes on by steps, each of which is one edit of
the tree or of a tag together with what its callers see to before. Whatever
holds of the beginnings and is kept by the steps holds of every document that
the store has.
-/
import XmlStore.Document.Names
import XmlStore.Proofs.Copies
import XmlStore.Proofs.Swap

namespace XmlStore

/-- Whether a node with this content may have children. -/
def Content.isInner : Content → Bool
  | .document | .element _ => true
  | _ => false

theorem Content.isInner_of_isElement {content : Content} (h : content.isElement = true) :
    content.isInner = true := by
  cases content <;> first | rfl | cases h

theorem Content.isInner_of_isNamed {content : Content} {name : String} (h : content.isNamed name = true) :
    content.isInner = true := by
  cases content <;> first | rfl | cases h

/-- A markup that some text was read as. -/
def Markup.IsRead (m : Markup) : Prop := ∃ options s, Markup.ofString options s = .ok m

namespace Document

variable {d d' : Document} {a b p x : NodeId}

/-- A new element as the last child, named and then put into the namespace its qualifier stands for
there. -/
def addElement (d : Document) (p : NodeId) (name : String) : Document :=
  ((d.create (.element (.named ⟨none, name⟩))).2.append p ⟨d.size⟩).rename ⟨d.size⟩ name

/-- A new text as the last child. -/
def addText (d : Document) (p : NodeId) (text : String) : Document :=
  (d.create (.text text)).2.append p ⟨d.size⟩

/-- A new text in place of the first child, or as the only one. -/
def replaceText (d : Document) (p : NodeId) (text : String) : Document :=
  match d.firstChild? p with
  | some first => (d.create (.text text)).2.replace first ⟨d.size⟩
  | none => d.addText p text

/-- A node below which others may be put. -/
structure Inner (d : Document) (p : NodeId) : Prop where
  has : d.Has p
  content : (d.content p).isInner = true

/-- One edit of a document. -/
inductive Step (d : Document) : Document → Prop where
  | newElement (name : String) (valid : isQName name = true) :
      Step d (d.create (.element (.named (.ofString name)))).2
  | graft {m : Markup} {top : Content} {below : Forest Content} (read : m.IsRead)
      (found : m.root? = some (top, below)) : Step d (d.graft top below).2
  | addElement {p : NodeId} (inner : d.Inner p) (name : String) (valid : isQName name = true) :
      Step d (d.addElement p name)
  | addText {p : NodeId} (inner : d.Inner p) (text : String) : Step d (d.addText p text)
  | replaceText {p : NodeId} (inner : d.Inner p) (text : String) : Step d (d.replaceText p text)
  | insertChildAt {p x : NodeId} (place : Nat) (fit : d.Insertable x p) (inner : d.Inner p)
      (ne : x ≠ root) : Step d (d.insertChildAt p x place)
  | insertBefore {r x : NodeId} (fit : ∀ p, d.parent? r = some p → d.Insertable x p) (ne : x ≠ root) :
      Step d (d.insertBefore r x)
  | detach (x : NodeId) : Step d (d.detach x)
  | swap {a b : NodeId} (has_a : d.Has a) (has_b : d.Has b) (apart : d.isAncestor a b = false)
      (apart' : d.isAncestor b a = false) (ne : a ≠ root) (ne' : b ≠ root) : Step d (d.swap a b)
  | setAttribute (id : NodeId) (name value : String) (valid : isQName name = true) :
      Step d (d.setAttribute id name value)
  | removeAttribute (id : NodeId) (name : String) : Step d (d.removeAttribute id name)
  | rename (id : NodeId) (name : String) (valid : isQName name = true) : Step d (d.rename id name)
  | bind (id : NodeId) (qualifier : Option String) (uri : String) : Step d (d.bind id qualifier uri)
  | setNamespace (id : NodeId) (qualifier : Option String) (uri : String) :
      Step d (d.setNamespace id qualifier (some uri))

/-- A document that was empty or read, and then edited. -/
inductive Made : Document → Prop where
  | empty : Made empty
  | read {m : Markup} (read : m.IsRead) (declaration : Declaration) :
      Made (ofMarkup { m with declaration })
  | step {d d' : Document} (made : Made d) (step : Step d d') : Made d'

/-! ## The document node stays on top -/

/-- A well linked document whose document node is not below another node. -/
structure Rooted (d : Document) : Prop where
  wellLinked : d.WellLinked
  has_root : d.Has root
  root_top : ∀ q, root ∉ d.children q

theorem Edited.rooted {L : NodeId → List NodeId} (e : Edited d d' L) (h : d.Rooted)
    (top : ∀ q, root ∉ L q) : d'.Rooted :=
  ⟨e.wellLinked, e.has h.has_root, fun q => by rw [e.children]; exact top q⟩

/-- Edits of tags leave the links alone. -/
theorem Rooted.of_same_links (h : d.Rooted) (same : ∀ link a, d'.target link a = d.target link a)
    (size : d'.size = d.size) : d'.Rooted := by
  obtain ⟨wellLinked, children⟩ := h.wellLinked.congr same
  refine ⟨wellLinked, ?_, fun q => ?_⟩
  · rw [Has, size]
    exact h.has_root
  · rw [children]
    exact h.root_top q

theorem Rooted.modifyTag (h : d.Rooted) (id : NodeId) (f : Element → Element) :
    (d.modifyTag id f).Rooted :=
  h.of_same_links (fun _ _ => target_modifyContent _) (size_modifyContent _)

theorem not_mem_update {q : NodeId} {ids : List NodeId} {L : NodeId → List NodeId}
    (top : ∀ q, root ∉ L q) (new : root ∉ ids) : root ∉ Function.update L p ids q := by
  by_cases hq : q = p
  · subst hq
    rwa [Function.update_self]
  · rw [Function.update_of_ne hq]
    exact top q

theorem Rooted.new_ne_root (h : d.Rooted) : (⟨d.size⟩ : NodeId) ≠ root := fun e =>
  not_has_new (e ▸ h.has_root)

theorem Rooted.add (h : d.Rooted) (hp : d.Has p) (content : Content) :
    ((d.create content).2.append p ⟨d.size⟩).Rooted := by
  refine (edited_add h.wellLinked hp content).rooted h fun q => not_mem_update h.root_top ?_
  simp [h.root_top, h.new_ne_root.symm]

theorem Rooted.addElement (h : d.Rooted) (hp : d.Has p) (name : String) : (d.addElement p name).Rooted :=
  (h.add hp _).modifyTag _ _

theorem Rooted.of_parent (h : d.Rooted) (linked : d'.WellLinked) (has : d'.Has root)
    (same : d'.parent? root = d.parent? root) : d'.Rooted := by
  refine ⟨linked, has, fun q hq => ?_⟩
  rw [(linked.parent root q).mp hq] at same
  exact h.root_top q ((h.wellLinked.parent root q).mpr same.symm)

theorem Copied.rooted {top : Content} {below : Forest Content} (c : Copied d d' x top below)
    (h : d.Rooted) : d'.Rooted :=
  h.of_parent c.wellLinked (c.toKeeps.has h.has_root) (c.parent root h.has_root)

theorem Grown.rooted {p : NodeId} {f : Forest Content} (grown : Grown d d' p f) (h : d.Rooted) : d'.Rooted :=
  h.of_parent grown.wellLinked (grown.has h.has_root) (grown.parent root h.has_root)

theorem Step.rooted (s : Step d d') (h : d.Rooted) : d'.Rooted := by
  have linked := h.wellLinked
  cases s with
  | newElement name => exact (edited_create linked _).rooted h h.root_top
  | graft => exact (copied_graft linked _ _).rooted h
  | addElement inner name => exact h.addElement inner.has name
  | addText inner text => exact h.add inner.has _
  | replaceText inner text =>
    rw [Document.replaceText]
    split
    · rename_i first _
      have created := edited_create linked (.text text)
      have fit : ∀ p, (d.create (.text text)).2.parent? first = some p →
          (d.create (.text text)).2.Insertable ⟨d.size⟩ p := fun p hp =>
        insertable_create linked (linked.has_parent ((target_create _).symm.trans hp)) _
      have replaced := edited_replace created.wellLinked fit
      refine (created.trans replaced).rooted h fun q hr => ?_
      rw [created.children] at hr
      obtain ⟨c, hc, e⟩ := List.mem_map.mp hr
      split at e
      · exact h.new_ne_root e
      · exact h.root_top q (e ▸ hc)
    · exact h.add inner.has _
  | insertChildAt place fit _ ne =>
    refine (edited_insertChildAt linked fit).rooted h fun q => not_mem_update h.root_top ?_
    split
    · intro hr
      rcases List.eq_or_mem_of_mem_insertIdx hr with e | hr
      · exact ne e.symm
      · exact h.root_top _ hr
    · simp [h.root_top, ne.symm]
  | insertBefore fit ne =>
    refine (edited_insertBefore linked fit).rooted h fun q => ?_
    simp [mem_placedBefore, h.root_top, ne.symm]
  | detach x =>
    exact (edited_detach linked).rooted h fun q hq => h.root_top q (List.mem_of_mem_erase hq)
  | swap has_a has_b apart apart' ne ne' =>
    refine (edited_swap linked has_a has_b apart apart').rooted h fun q hr => ?_
    obtain ⟨c, hc, e⟩ := List.mem_map.mp hr
    rw [Equiv.swap_apply_eq_iff, Equiv.swap_apply_of_ne_of_ne ne.symm ne'.symm] at e
    exact h.root_top q (e ▸ hc)
  | setAttribute | removeAttribute | rename | bind | setNamespace => exact h.modifyTag _ _

theorem rooted_blank (declaration : Declaration) : ({ empty with declaration } : Document).Rooted := by
  have linked := wellLinked_of_no_links (target_blank declaration)
  refine ⟨linked, Nat.zero_lt_one, fun q hq => ?_⟩
  have top := (linked.parent root q).mp hq
  rw [parent?, target_blank] at top
  cases top

theorem rooted_ofMarkup (m : Markup) : (ofMarkup m).Rooted :=
  (grown_ofMarkup m).rooted (rooted_blank m.declaration)

theorem Made.rooted (made : Made d) : d.Rooted := by
  induction made with
  | empty => exact rooted_blank .absent
  | read => exact rooted_ofMarkup _
  | step _ step ih => exact step.rooted ih

/-! ## What nodes hold -/

theorem Content.mapElement_id (content : Content) : content.mapElement id = content := by
  cases content <;> rfl

theorem Content.mapElement_mapElement (content : Content) (f g : Element → Element) :
    (content.mapElement f).mapElement g = content.mapElement (g ∘ f) := by
  cases content <;> rfl

theorem Content.isInner_mapElement (content : Content) (f : Element → Element) :
    (content.mapElement f).isInner = content.isInner := by
  cases content <;> rfl

/-- The nodes of a document are still there, and hold what they held, tags changed at most. -/
structure Retains (d d' : Document) : Prop where
  size : d.size ≤ d'.size
  content : ∀ a, d.Has a → ∃ f, d'.content a = (d.content a).mapElement f

theorem Keeps.retains (k : Keeps d d') : Retains d d' where
  size := k.size
  content a ha := ⟨id, by rw [k.content a ha, Content.mapElement_id]⟩

theorem Retains.trans (r : Retains d d') {d'' : Document} (r' : Retains d' d'') : Retains d d'' where
  size := Nat.le_trans r.size r'.size
  content a ha := by
    obtain ⟨f, e⟩ := r.content a ha
    obtain ⟨g, e'⟩ := r'.content a (Nat.lt_of_lt_of_le ha r.size)
    exact ⟨g ∘ f, by rw [e', e, Content.mapElement_mapElement]⟩

theorem content_modifyTag (b : NodeId) (f : Element → Element) (ha : d.Has a) :
    (d.modifyTag b f).content a = d.content a ∨
      (d.modifyTag b f).content a = (d.content a).mapElement f := by
  rw [content, modifyTag, modifyContent, modify, node, Array.getD_eq_getD_getElem?,
    Array.getElem?_modify, content, node, Array.getD_eq_getD_getElem?, Array.getElem?_eq_getElem ha]
  split
  · exact .inr rfl
  · exact .inl rfl

theorem has_modifyTag (b : NodeId) (f : Element → Element) : (d.modifyTag b f).Has a ↔ d.Has a := by
  rw [Has, Has, modifyTag, size_modifyContent]

theorem ancestors_modifyTag (b : NodeId) (f : Element → Element) : (d.modifyTag b f).ancestors a = d.ancestors a := by
  have size : (d.modifyTag b f).size = d.size := size_modifyContent _
  have parents : (d.modifyTag b f).parent? = d.parent? := funext fun _ => target_modifyContent _
  rw [ancestors, ancestors, size, parents]

theorem retains_modifyTag (b : NodeId) (f : Element → Element) : Retains d (d.modifyTag b f) where
  size := Nat.le_of_eq (size_modifyContent _).symm
  content a ha := by
    rcases content_modifyTag b f ha with e | e
    · exact ⟨id, e.trans (Content.mapElement_id _).symm⟩
    · exact ⟨f, e⟩

theorem Step.retains (s : Step d d') (h : d.Rooted) : Retains d d' := by
  have linked := h.wellLinked
  cases s with
  | newElement name => exact (Keeps.create _).retains
  | graft => exact (copied_graft linked _ _).toKeeps.retains
  | addElement inner name => exact (edited_add linked inner.has _).toKeeps.retains.trans (retains_modifyTag ..)
  | addText inner text => exact (edited_add linked inner.has _).toKeeps.retains
  | replaceText inner text =>
    rw [Document.replaceText]
    split
    · exact (((Keeps.create _).trans Keeps.insertBefore).trans Keeps.detach).retains
    · exact (edited_add linked inner.has _).toKeeps.retains
  | insertChildAt place fit => exact (edited_insertChildAt linked fit).toKeeps.retains
  | insertBefore => exact Keeps.insertBefore.retains
  | detach => exact Keeps.detach.retains
  | swap has_a has_b apart apart' => exact (edited_swap linked has_a has_b apart apart').toKeeps.retains
  | setAttribute | removeAttribute | rename | bind | setNamespace => exact retains_modifyTag ..

theorem Retains.inner (r : Retains d d') (hp : d.Inner p) : d'.Inner p := by
  obtain ⟨f, e⟩ := r.content p hp.has
  exact ⟨Nat.lt_of_lt_of_le hp.has r.size, by rw [e, Content.isInner_mapElement, hp.content]⟩

theorem Made.content_root (made : Made d) : d.content root = .document := by
  induction made with
  | empty => rfl
  | @read m _ declaration =>
    have rooted := rooted_blank declaration
    exact (grown_ofMarkup { m with declaration }).content root rooted.has_root
  | step made step ih =>
    obtain ⟨f, e⟩ := (step.retains made.rooted).content root made.rooted.has_root
    rw [e, ih]
    rfl

/-- A well linked document with the document node on top. -/
structure Headed (d : Document) : Prop extends Rooted d where
  content_root : d.content root = .document

theorem Made.headed (made : Made d) : d.Headed := ⟨made.rooted, made.content_root⟩

/-! ## A node beside the others -/

/-- A node without a parent that has come since another state of the document, in which every node
had the parent that it has now. -/
structure Beside (d d' : Document) (id : NodeId) : Prop where
  size : d.size ≤ d'.size
  parent : ∀ a, d.Has a → d'.parent? a = d.parent? a
  new : ¬ d.Has id
  has : d'.Has id
  detached : d'.parent? id = none

theorem Beside.insertable (beside : Beside d d' x) (h : d.WellLinked) (h' : d'.WellLinked)
    (hp : d.Has p) : d'.Insertable x p := by
  have hp' : d'.Has p := Nat.lt_of_lt_of_le hp beside.size
  refine ⟨beside.has, hp', beside.detached, fun above => ?_⟩
  rw [h.ancestors_congr h' hp hp' fun b hb => beside.parent b (h.has_ancestor hp hb)] at above
  exact beside.new (h.has_ancestor hp above)

theorem Beside.ne_root (beside : Beside d d' x) (h : d.Rooted) : x ≠ root := by
  rintro rfl
  exact beside.new h.has_root

theorem Copied.beside {top : Content} {below : Forest Content} (c : Copied d d' x top below) :
    Beside d d' x :=
  ⟨c.size, c.parent, Nat.not_lt_of_le c.new, c.has, c.detached⟩

theorem beside_create (content : Content) : Beside d (d.create content).2 ⟨d.size⟩ where
  size := by simp
  parent a _ := target_create content
  new := not_has_new
  has := by rw [Has, size_create]; exact Nat.lt_succ_self d.size
  detached := (target_create content).trans (parent?_of_not_has not_has_new)

theorem Beside.of_same_links {d'' : Document} (beside : Beside d d' x)
    (same : ∀ link a, d''.target link a = d'.target link a) (size : d''.size = d'.size) :
    Beside d d'' x where
  size := size ▸ beside.size
  parent a ha := (same .parent a).trans (beside.parent a ha)
  new := beside.new
  has := by rw [Has, size]; exact beside.has
  detached := (same .parent x).trans beside.detached

/-- Adding a text below the node leaves it beside the others. -/
theorem Beside.addText (beside : Beside d d' x) (h : d'.WellLinked) (text : String) :
    Beside d (d'.addText x text) x := by
  have added := edited_add h beside.has (.text text)
  have parent_eq : ∀ a, d'.Has a → (d'.addText x text).parent? a = d'.parent? a := fun _ =>
    parent?_add h beside.has (.text text)
  exact ⟨Nat.le_trans beside.size added.size,
    fun a ha => (parent_eq a (Nat.lt_of_lt_of_le ha beside.size)).trans (beside.parent a ha),
    beside.new, added.has beside.has, (parent_eq x beside.has).trans beside.detached⟩

/-- A new element may have children. -/
theorem inner_create (tag : Element) : (d.create (.element tag)).2.Inner ⟨d.size⟩ where
  has := (beside_create _).has
  content := by rw [content_create, if_pos rfl, Content.isInner]

/-- A new element has a name and nothing else. -/
theorem content_addElement (d : Document) (p a : NodeId) (name : String) : ∃ uri, (d.addElement p name).content a =
    if a = ⟨d.size⟩ then .element ⟨.ofString name, uri, [], []⟩ else d.content a := by
  have new : ((d.create (.element (.named ⟨none, name⟩))).2.append p ⟨d.size⟩).Has ⟨d.size⟩ :=
    Keeps.append.has (beside_create _).has
  rw [addElement, rename, modifyTag, content_modifyContent new, Relinked.append.content,
    Relinked.append.content, content_create, content_create, if_pos rfl]
  split
  · exact ⟨_, rfl⟩
  · exact ⟨none, rfl⟩

theorem size_addElement (name : String) : (d.addElement p name).size = d.size + 1 := by
  rw [addElement, rename, modifyTag, size_modifyContent, Relinked.append.size, size_create]

theorem inner_addElement (name : String) : (d.addElement p name).Inner ⟨d.size⟩ :=
  (retains_modifyTag ..).inner (Keeps.append.retains.inner (inner_create _))

end Document

end XmlStore
