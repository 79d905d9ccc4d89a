/-
Names that were given to nodes. Each is checked, or put together from checked
ones, so that in every document that was made by calls they consist of
characters that names have, and no element has two attributes of one name. A
name may still be too long, and one that lost its qualifier may begin with a
wrong character.
-/
import XmlStore.Proofs.Proper

namespace XmlStore

open Cursor (IsName NameChars Reread)

variable {tag : Element} {name value : String} {uri qualifier : Option String}

/-! ## Names -/

theorem nameChars_of_isQName (valid : isQName name = true) : NameChars name := (starts_of_isQName valid).2

theorem nameChars_append {s t : String} : NameChars (s ++ t) ↔ NameChars s ∧ NameChars t := by
  rw [NameChars, String.toList_append]
  exact List.forall_mem_append

/-- A qualified name is spelt if its parts are. -/
theorem nameChars_text {n : QName} :
    NameChars n.text ↔ (∀ q ∈ n.qualifier, NameChars q) ∧ NameChars n.localPart := by
  have colon : NameChars ":" := by
    intro ch hch
    rw [List.mem_singleton.mp hch]
    decide
  rcases n with ⟨_ | q, l⟩
  · exact (and_iff_right nofun).symm
  · rw [QName.text]
    dsimp only
    rw [nameChars_append, nameChars_append, and_iff_left colon]
    refine and_congr_left' ⟨fun h _ e => Option.some.inj e ▸ h, fun h => h q rfl⟩

/-! ## Tags -/

/-- A tag whose names consist of characters that names have, and whose attributes have different names. -/
structure Element.Spelt (tag : Element) : Prop where
  name : NameChars tag.name.text
  labels : ∀ b ∈ tag.bindings, NameChars b.label
  attributes : ∀ n ∈ tag.attributes.map (·.name), NameChars n.text
  distinct : (tag.attributes.map (·.name)).Pairwise fun n m => n.text ≠ m.text

theorem nameChars_label (chars : ∀ q ∈ qualifier, NameChars q) (uri : String) :
    NameChars (Binding.mk qualifier uri).label := by
  cases qualifier with
  | none =>
    have reserved : "xmlns".toList.all isNameChar = true := by decide
    exact List.all_eq_true.mp reserved
  | some q =>
    have reserved : "xmlns:".toList.all isNameChar = true := by decide
    exact nameChars_append.mpr ⟨List.all_eq_true.mp reserved, chars q rfl⟩

namespace Element

theorem spelt_named (chars : NameChars name) : (named (.ofString name)).Spelt where
  name := by
    rw [named, QName.text_ofString]
    exact chars
  labels := List.forall_mem_nil _
  attributes := List.forall_mem_nil _
  distinct := .nil

theorem labels_replaceFirst {uri : String} {l : List Binding} (h : ∀ b ∈ l, NameChars b.label) :
    ∀ b ∈ bind.replaceFirst qualifier uri l, NameChars b.label := by
  induction l with
  | nil => exact h
  | cons first l ih =>
    rw [List.forall_mem_cons] at h
    rw [bind.replaceFirst]
    split
    · exact List.forall_mem_cons.mpr h
    · exact List.forall_mem_cons.mpr ⟨h.1, ih h.2⟩

namespace Spelt

variable (spelt : tag.Spelt)

include spelt

theorem setAttribute (chars : NameChars name) : (tag.setAttribute name value uri).Spelt where
  name := by
    rw [Element.setAttribute]
    split <;> exact spelt.name
  labels := by
    rw [Element.setAttribute]
    split <;> exact spelt.labels
  attributes := forall_names_setAttribute spelt.attributes (by rw [QName.text_ofString]; exact chars)
  distinct := distinct_setAttribute spelt.distinct

theorem removeAttribute (name : String) : (tag.removeAttribute name).Spelt where
  name := spelt.name
  labels := spelt.labels
  attributes n hn := spelt.attributes n ((tag.names_removeAttribute name).subset hn)
  distinct := spelt.distinct.sublist (tag.names_removeAttribute name)

theorem bind (chars : ∀ q ∈ qualifier, NameChars q) (uri : String) : (tag.bind qualifier uri).Spelt := by
  rw [Element.bind]
  split
  · exact ⟨spelt.name, labels_replaceFirst spelt.labels, spelt.attributes, spelt.distinct⟩
  · refine ⟨spelt.name, List.forall_mem_append.mpr ⟨spelt.labels, ?_⟩, spelt.attributes, spelt.distinct⟩
    exact List.forall_mem_singleton.mpr (nameChars_label chars uri)

theorem named (chars : NameChars name) : ({ tag with name := .ofString name, uri } : Element).Spelt :=
  ⟨by rw [QName.text_ofString]; exact chars, spelt.labels, spelt.attributes, spelt.distinct⟩

/-- An element keeps its local name when it gets another qualifier. -/
theorem qualified (chars : ∀ q ∈ qualifier, NameChars q) :
    ({ tag with name := { tag.name with qualifier }, uri } : Element).Spelt :=
  ⟨nameChars_text.mpr ⟨chars, (nameChars_text.mp spelt.name).2⟩, spelt.labels, spelt.attributes, spelt.distinct⟩

end Spelt

end Element

/-! ## Contents -/

/-- What a node holds whose tag is spelt, or which is read again if it is anything else than a text. -/
inductive Content.Spelt : Content → Prop where
  | element {tag : Element} (spelt : tag.Spelt) : Spelt (.element tag)
  | text (s : String) : Spelt (.text s)
  | leaf {content : Content} (reread : Reread content) : Spelt content
  | doctype {name : String} (isName : IsName name) (systemId publicId : Option String) :
      Spelt (.doctype name systemId publicId)

section

variable {options : ReadOptions} {depth : Nat} {scope : Scope} {afterText : Bool} {f : Forest Content}

/-- A tag that was read is spelt, also when its names are resolved. -/
theorem Scope.spelt_resolveTag (scope : Scope) (written : tag.Written) : (scope.resolveTag tag).Spelt := by
  have names : (scope.resolveTag tag).attributes.map (·.name) = tag.attributes.map (·.name) := List.map_map
  refine ⟨written.name.chars, fun b hb => (written.bindings b hb).name.chars, ?_, ?_⟩
  · rw [names, List.forall_mem_map]
    exact fun a ha => (written.attributes a ha).name.chars
  · rw [names, List.pairwise_map]
    exact written.distinct

theorem Readable.spelt (readable : Readable options depth scope afterText f) :
    ∀ content ∈ f.preorder, content.Spelt := by
  induction readable with
  | nil => exact List.forall_mem_nil _
  | text _ _ _ ih => exact List.forall_mem_cons.mpr ⟨.text _, ih⟩
  | leaf reread _ ih => exact List.forall_mem_cons.mpr ⟨.leaf reread, ih⟩
  | element _ written _ _ ihc ihr =>
    exact List.forall_mem_cons.mpr
      ⟨.element (Scope.spelt_resolveTag _ written), List.forall_mem_append.mpr ⟨ihc, ihr⟩⟩

theorem Ahead.spelt {content : Content} (ahead : Ahead content) : content.Spelt := by
  cases ahead with
  | aside aside => exact .leaf aside.reread
  | doctype isName => exact .doctype isName ..

theorem preorder_leaves (contents : List Content) : (leaves contents).preorder = contents := by
  induction contents with
  | nil => rfl
  | cons content contents ih => rw [leaves, Forest.preorder, ih]; rfl

theorem Forest.find?_subset {α : Type} (f : Forest α) {p : α → Bool} {top : α} {below : Forest α}
    (found : f.find? p = some (top, below)) : top :: below.preorder ⊆ f.preorder := by
  induction f with
  | nil => cases found
  | cons a children later _ ih =>
    rw [find?] at found
    split at found
    · cases found
      exact List.cons_subset_cons _ (List.subset_append_left ..)
    · exact List.Subset.trans (ih found) (List.subset_cons_of_subset _ (List.subset_append_right ..))

/-- What was read is spelt. -/
theorem spelt_readDocument {c : Cursor} {m : Markup} (h : readDocument options c = .ok m) :
    ∀ content ∈ m.nodes.preorder, content.Spelt := by
  obtain ⟨before, after, tag, children, shape, ahead, asides, -, written, inner⟩ := shape_of_readDocument h
  rw [shape, Forest.preorder_append, preorder_leaves, Forest.preorder, preorder_leaves]
  refine List.forall_mem_append.mpr ⟨fun content mem => (ahead content mem).spelt, ?_⟩
  refine List.forall_mem_cons.mpr ⟨.element (Scope.spelt_resolveTag _ written), List.forall_mem_append.mpr ⟨?_, ?_⟩⟩
  · rcases inner with rfl | ⟨p, q, hinner⟩
    · exact List.forall_mem_nil _
    · have apart : false = true → p.cursor.beginning ≠ .characters := Bool.noConfusion
      have readable : Readable options 1 _ false children := readable_readContentWithin apart hinner
      exact readable.spelt
  · exact fun content mem => .leaf (asides content mem).reread

/-- Only declarations of a version 1 are read. -/
theorem numbered_readDocument {c : Cursor} {m : Markup} (h : readDocument options c = .ok m) :
    "1.".toList <+: (m.declaration.version.getD "1.0").toList := by
  obtain ⟨c₁, before, c₂, typed, p, tag, children, q, after, e, read, -⟩ := steps_of_readDocument h
  rcases Cursor.declared_of_readOptionalDeclaration read with absent | ⟨version, declared, numbered⟩
  · rw [absent]
    exact ⟨['0'], rfl⟩
  · rw [declared]
    exact numbered

end

theorem Markup.IsRead.numbered {m : Markup} (read : m.IsRead) :
    "1.".toList <+: (m.declaration.version.getD "1.0").toList := by
  obtain ⟨options, s, parsed⟩ := read
  exact numbered_readDocument parsed

theorem Markup.IsRead.spelt {m : Markup} (read : m.IsRead) : ∀ content ∈ m.nodes.preorder, content.Spelt := by
  obtain ⟨options, s, parsed⟩ := read
  exact spelt_readDocument parsed

/-! ## Documents -/

namespace Document

variable {d d' : Document} {a b p r x : NodeId}

/-- A document in which every node but the document node is spelt. -/
abbrev Spelt : Document → Prop := Everywhere Content.Spelt

theorem Spelt.modifyTag (h : d.Spelt) (id : NodeId) {f : Element → Element}
    (keeps : ∀ tag : Element, tag.Spelt → (f tag).Spelt) : (d.modifyTag id f).Spelt := by
  refine Everywhere.modifyTag h id fun tag here => ?_
  cases here with
  | element spelt => exact .element (keeps tag spelt)
  | leaf reread => cases reread

/-- A step that gives only names which consist of characters that names have. -/
structure Advance (d d' : Document) : Prop where
  step : d.Step d'
  spelt : d.Spelt → d'.Spelt

namespace Advance

theorem newElement (name : String) (valid : isQName name = true) :
    d.Advance (d.create (.element (.named (.ofString name)))).2 :=
  ⟨.newElement name valid, fun h => h.create (.element (Element.spelt_named (nameChars_of_isQName valid)))⟩

theorem graft {m : Markup} {top : Content} {below : Forest Content} (read : m.IsRead)
    (found : m.root? = some (top, below)) : d.Advance (d.graft top below).2 := by
  refine ⟨.graft read found, fun h => ?_⟩
  have listed := m.nodes.find?_subset found
  refine (h.create (read.spelt top (listed List.mem_cons_self))).addForest fun content mem => ?_
  exact read.spelt content (listed (List.mem_cons_of_mem _ mem))

theorem addElement (inner : d.Inner p) (name : String) (valid : isQName name = true) :
    d.Advance (d.addElement p name) := by
  refine ⟨.addElement inner name valid, fun h => ?_⟩
  have chars := nameChars_of_isQName valid
  have new : (Element.named ⟨none, name⟩).Spelt :=
    ⟨chars, List.forall_mem_nil _, List.forall_mem_nil _, .nil⟩
  exact Spelt.modifyTag ((h.create (.element new)).relinked .append) _ fun _ tag => tag.named chars

theorem addText (inner : d.Inner p) (text : String) : d.Advance (d.addText p text) :=
  ⟨.addText inner text, fun h => (h.create (.text text)).relinked .append⟩

theorem replaceText (inner : d.Inner p) (text : String) : d.Advance (d.replaceText p text) :=
  ⟨.replaceText inner text, fun h => h.replaceText text (.text text)⟩

theorem insertChildAt (place : Nat) (fit : d.Insertable x p) (inner : d.Inner p) (ne : x ≠ root) :
    d.Advance (d.insertChildAt p x place) :=
  ⟨.insertChildAt place fit inner ne, fun h => h.relinked .insertChildAt⟩

theorem insertBefore (fit : ∀ p, d.parent? r = some p → d.Insertable x p) (ne : x ≠ root) :
    d.Advance (d.insertBefore r x) :=
  ⟨.insertBefore fit ne, fun h => h.relinked .insertBefore⟩

theorem detach (x : NodeId) : d.Advance (d.detach x) := ⟨.detach x, fun h => h.relinked .detach⟩

theorem swap (has_a : d.Has a) (has_b : d.Has b) (apart : d.isAncestor a b = false)
    (apart' : d.isAncestor b a = false) (ne : a ≠ root) (ne' : b ≠ root) : d.Advance (d.swap a b) :=
  ⟨.swap has_a has_b apart apart' ne ne', fun h => h.swap (.text "")⟩

theorem setAttribute (id : NodeId) (name value : String) (valid : isQName name = true) :
    d.Advance (d.setAttribute id name value) :=
  ⟨.setAttribute id name value valid, fun h =>
    h.modifyTag id fun _ tag => tag.setAttribute (nameChars_of_isQName valid)⟩

theorem removeAttribute (id : NodeId) (name : String) : d.Advance (d.removeAttribute id name) :=
  ⟨.removeAttribute id name, fun h => h.modifyTag id fun _ tag => tag.removeAttribute name⟩

theorem rename (id : NodeId) (name : String) (valid : isQName name = true) : d.Advance (d.rename id name) :=
  ⟨.rename id name valid, fun h => h.modifyTag id fun _ tag => tag.named (nameChars_of_isQName valid)⟩

theorem bind (id : NodeId) {qualifier : Option String} (chars : ∀ q ∈ qualifier, NameChars q) (uri : String) :
    d.Advance (d.bind id qualifier uri) :=
  ⟨.bind id qualifier uri, fun h => h.modifyTag id fun _ tag => tag.bind chars uri⟩

theorem setNamespace (id : NodeId) {qualifier : Option String} (chars : ∀ q ∈ qualifier, NameChars q)
    (uri : String) : d.Advance (d.setNamespace id qualifier (some uri)) :=
  ⟨.setNamespace id qualifier uri, fun h => h.modifyTag id fun _ tag => tag.qualified chars⟩

end Advance

theorem declaration_addForest (f : Forest Content) (d : Document) : (addForest p f d).declaration = d.declaration := by
  induction f generalizing d p with
  | nil => rfl
  | cons content children later ihc ihl =>
    rw [addForest]
    exact (ihl _).trans ((ihc _).trans Relinked.append.declaration)

theorem Step.declaration (s : Step d d') : d'.declaration = d.declaration := by
  cases s with
  | newElement | setAttribute | removeAttribute | rename | bind | setNamespace => rfl
  | graft => exact (declaration_addForest _ _).trans rfl
  | addElement | addText => exact Relinked.append.declaration
  | replaceText => exact relinked_replaceText.declaration
  | insertChildAt => exact Relinked.insertChildAt.declaration
  | insertBefore => exact Relinked.insertBefore.declaration
  | detach => exact Relinked.detach.declaration
  | @swap a b =>
    by_cases same : a = b
    · rw [Document.swap, if_pos same]
    · exact (relinked_swap same).declaration

/-- A document that was made by calls: it came about by steps, its names are spelt, and it can be declared. -/
structure Sound (d : Document) : Prop where
  made : d.Made
  spelt : d.Spelt
  encoding : d.declaration.encoding = none
  numbered : "1.".toList <+: (d.declaration.version.getD "1.0").toList

theorem spelt_blank (declaration : Declaration) : ({ empty with declaration } : Document).Spelt :=
  fun _ ha ne => absurd (congrArg NodeId.mk (Nat.lt_one_iff.mp ha)) ne

namespace Sound

theorem empty : empty.Sound := ⟨.empty, spelt_blank .absent, rfl, ['0'], rfl⟩

theorem read {m : Markup} (read : m.IsRead) :
    (ofMarkup { m with declaration := { m.declaration with encoding := none } }).Sound := by
  have declared := (grown_ofMarkup { m with declaration := { m.declaration with encoding := none } }).declaration
  exact ⟨.read read _, (spelt_blank _).addForest read.spelt, congrArg _ declared, declared ▸ read.numbered⟩

theorem advance (sound : d.Sound) (h : d.Advance d') : d'.Sound where
  made := .step sound.made h.step
  spelt := h.spelt sound.spelt
  encoding := h.step.declaration ▸ sound.encoding
  numbered := h.step.declaration ▸ sound.numbered

end Sound

end Document

end XmlStore
