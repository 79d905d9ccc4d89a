/-
What the nodes of a document hold. Names are checked wherever one is given,
and what is read as a name is one; only elements and the document node are
given children. So in every document that came about by steps a name without
a qualifier is plain, the attributes of an element have different names, and
whatever has children is an element or the document node.
-/
import XmlStore.Proofs.PlainNames
import XmlStore.Proofs.Reparse
import XmlStore.Proofs.Steps

namespace XmlStore

variable {tag : Element} {name value : String} {uri : Option String}

/-! ## Tags -/

/-- A tag in which names without a qualifier are plain and no two attributes have one name. The name
of an element that was taken out of its qualifier is in a namespace. -/
structure Element.Proper (tag : Element) : Prop where
  name : tag.name.qualifier = none → tag.uri = none → IsPlain tag.name.localPart
  attributes : ∀ n ∈ tag.attributes.map (·.name), n.qualifier = none → IsPlain n.localPart
  distinct : (tag.attributes.map (·.name)).Pairwise fun n m => n.text ≠ m.text

namespace Element

theorem names_replaceFirst (name value : String) (l : List Attribute) :
    (setAttribute.replaceFirst name value l).map (·.name) = l.map (·.name) := by
  induction l with
  | nil => rfl
  | cons a l ih =>
    rw [setAttribute.replaceFirst]
    split
    · rfl
    · rw [List.map_cons, List.map_cons, ih]

theorem names_setAttribute (tag : Element) (name value : String) (uri : Option String) :
    (tag.setAttribute name value uri).attributes.map (·.name) = tag.attributes.map (·.name) ∨
      (∀ n ∈ tag.attributes.map (·.name), n.text ≠ name) ∧
        (tag.setAttribute name value uri).attributes.map (·.name) =
          tag.attributes.map (·.name) ++ [.ofString name] := by
  rw [Element.setAttribute]
  split
  · exact .inl (names_replaceFirst name value tag.attributes)
  · rename_i absent
    refine .inr ⟨fun n hn same => ?_, List.map_append⟩
    obtain ⟨a, ha, rfl⟩ := List.mem_map.mp hn
    exact absent (List.any_eq_true.mpr ⟨a, ha, beq_iff_eq.mpr same⟩)

theorem forall_names_setAttribute {K : QName → Prop} (h : ∀ n ∈ tag.attributes.map (·.name), K n)
    (new : K (.ofString name)) : ∀ n ∈ (tag.setAttribute name value uri).attributes.map (·.name), K n := by
  rcases tag.names_setAttribute name value uri with e | ⟨-, e⟩
  · rw [e]
    exact h
  · rw [e, List.forall_mem_append]
    exact ⟨h, List.forall_mem_singleton.mpr new⟩

theorem distinct_setAttribute (h : (tag.attributes.map (·.name)).Pairwise fun n m => n.text ≠ m.text) :
    ((tag.setAttribute name value uri).attributes.map (·.name)).Pairwise fun n m => n.text ≠ m.text := by
  rcases tag.names_setAttribute name value uri with e | ⟨absent, e⟩
  · rw [e]
    exact h
  · rw [e, List.pairwise_append]
    refine ⟨h, List.pairwise_singleton .., fun n hn m hm => ?_⟩
    rw [List.mem_singleton.mp hm, QName.text_ofString]
    exact absent n hn

theorem names_removeAttribute (tag : Element) (name : String) :
    ((tag.removeAttribute name).attributes.map (·.name)).Sublist (tag.attributes.map (·.name)) :=
  List.filter_sublist.map _

theorem proper_named (valid : isQName name = true) : (named (.ofString name)).Proper where
  name unqualified _ := isPlain_of_isQName valid unqualified
  attributes _ listed := absurd listed List.not_mem_nil
  distinct := .nil

theorem Proper.setAttribute (h : tag.Proper) (valid : isQName name = true) :
    (tag.setAttribute name value uri).Proper where
  name := by
    rw [Element.setAttribute]
    split <;> exact h.name
  attributes := forall_names_setAttribute h.attributes fun unqualified => isPlain_of_isQName valid unqualified
  distinct := distinct_setAttribute h.distinct

theorem Proper.removeAttribute (h : tag.Proper) (name : String) : (tag.removeAttribute name).Proper where
  name := h.name
  attributes n hn := h.attributes n ((tag.names_removeAttribute name).subset hn)
  distinct := h.distinct.sublist (tag.names_removeAttribute name)

theorem Proper.bind (h : tag.Proper) (qualifier : Option String) (uri : String) :
    (tag.bind qualifier uri).Proper := by
  rw [Element.bind]
  split <;> exact ⟨h.name, h.attributes, h.distinct⟩

end Element

/-- A tag that was read is proper when its names are resolved. -/
theorem Scope.proper_resolveTag (scope : Scope) (written : tag.Written) : (scope.resolveTag tag).Proper := by
  have names : (scope.resolveTag tag).attributes.map (·.name) = tag.attributes.map (·.name) := List.map_map
  refine ⟨fun unqualified _ => ?_, ?_, ?_⟩
  · have own := written.plain
    rw [Scope.resolveTag] at unqualified ⊢
    rw [own] at unqualified ⊢
    exact isPlain_of_isName written.name unqualified
  · rw [names]
    intro n hn unqualified
    obtain ⟨a, ha, rfl⟩ := List.mem_map.mp hn
    have own := congrArg Attribute.name (written.attributes a ha).plain
    rw [own] at unqualified ⊢
    exact isPlain_of_isName (written.attributes a ha).name unqualified
  · rw [names, List.pairwise_map]
    exact written.distinct

/-! ## Contents -/

/-- What a node below the document node may hold. -/
inductive Content.Proper : Content → Prop where
  | element {tag : Element} (proper : tag.Proper) : Proper (.element tag)
  | text (s : String) : Proper (.text s)
  | cdata (s : String) : Proper (.cdata s)
  | comment (s : String) : Proper (.comment s)
  | instruction {target : String} {data : Option String} (clear : ∀ ch ∈ target.toList, ch ≠ '\'') :
      Proper (.instruction target data)
  | doctype (name : String) (systemId publicId : Option String) : Proper (.doctype name systemId publicId)

/-- Contents of new nodes, of which only those of elements have others below them. -/
inductive Forest.Proper : Forest Content → Prop where
  | nil : Proper .nil
  | leaf {content : Content} {rest : Forest Content} (proper : content.Proper) (others : Proper rest) :
      Proper (.cons content .nil rest)
  | element {tag : Element} {children rest : Forest Content} (proper : tag.Proper)
      (inner : Proper children) (others : Proper rest) : Proper (.cons (.element tag) children rest)

theorem Cursor.Reread.proper {content : Content} (h : Cursor.Reread content) : content.Proper := by
  have clear {target : String} (name : IsName target) : ∀ ch ∈ target.toList, ch ≠ '\'' := by
    rintro ch hch rfl
    exact absurd (name.chars _ hch) (by decide)
  cases h with
  | comment => exact .comment _
  | cdata => exact .cdata _
  | bare name => exact .instruction (clear name)
  | instruction name => exact .instruction (clear name)

namespace Forest

theorem proper_leaves {contents : List Content} {rest : Forest Content}
    (h : ∀ content ∈ contents, content.Proper) (others : rest.Proper) :
    (leaves contents ++ rest).Proper := by
  induction contents with
  | nil => exact others
  | cons content contents ih =>
    rw [List.forall_mem_cons] at h
    exact .leaf h.1 (ih h.2)

theorem Proper.contents {f : Forest Content} (h : f.Proper) : ∀ content ∈ f.preorder, content.Proper := by
  induction h with
  | nil => exact List.forall_mem_nil _
  | leaf proper _ ih => exact List.forall_mem_cons.mpr ⟨proper, ih⟩
  | element proper _ _ ihc ihr =>
    exact List.forall_mem_cons.mpr ⟨.element proper, List.forall_mem_append.mpr ⟨ihc, ihr⟩⟩

/-- The first element of a forest and what is below it. -/
theorem Proper.find? {f : Forest Content} {top : Content} {below : Forest Content} (h : f.Proper)
    (found : f.find? Content.isElement = some (top, below)) :
    ∃ tag : Element, top = .element tag ∧ tag.Proper ∧ below.Proper := by
  induction h with
  | nil => cases found
  | leaf proper others ih =>
    rw [Forest.find?] at found
    split at found
    · rename_i isElement
      cases found
      cases proper with
      | element proper => exact ⟨_, rfl, proper, .nil⟩
      | _ => cases isElement
    · exact ih found
  | element proper inner others _ _ =>
    cases found
    exact ⟨_, rfl, proper, inner⟩

end Forest

section

variable {options : ReadOptions} {depth : Nat} {scope : Scope} {p q : Progress} {f : Forest Content}

theorem proper_readContentWithin {size : Nat} {started : Bool}
    (h : readContentWithin options size depth scope started p = .ok (f, q)) : f.Proper := by
  induction size generalizing depth scope started p f q with
  | zero => cases h
  | succ size ih =>
    rw [readContentWithin, readContentBy] at h
    split at h
    · cases h
    · cases h
      exact .nil
    · obtain ⟨⟨content, q₁⟩, hread, h⟩ := bind_eq_ok.1 h
      obtain ⟨⟨rest, q₂⟩, hrest, h⟩ := bind_eq_ok.1 h
      cases h
      exact .leaf (Cursor.reread_of_readCdata (Progress.read_eq_ok hread)).proper (ih hrest)
    · obtain ⟨⟨content, q₁⟩, hread, h⟩ := bind_eq_ok.1 h
      obtain ⟨⟨rest, q₂⟩, hrest, h⟩ := bind_eq_ok.1 h
      cases h
      exact .leaf (reread_of_readAside (Progress.read_eq_ok hread)).proper (ih hrest)
    · obtain ⟨⟨⟨tag, children⟩, q₁⟩, hread, h⟩ := bind_eq_ok.1 h
      obtain ⟨⟨rest, q₂⟩, hrest, h⟩ := bind_eq_ok.1 h
      cases h
      obtain ⟨-, written, hwritten, rfl, inner⟩ := written_readElement hread
      refine .element (Scope.proper_resolveTag _ hwritten) ?_ (ih hrest)
      rcases inner with rfl | ⟨p', q', hinner⟩
      · exact .nil
      · exact ih hinner
    · obtain ⟨⟨s, q₁⟩, -, h⟩ := bind_eq_ok.1 h
      dsimp only at h
      split at h
      · exact ih h
      · obtain ⟨⟨rest, q₂⟩, hrest, h⟩ := bind_eq_ok.1 h
        cases h
        exact .leaf (.text s) (ih hrest)

theorem Ahead.proper {content : Content} (ahead : Ahead content) : content.Proper := by
  cases ahead with
  | aside aside => exact aside.reread.proper
  | doctype => exact .doctype ..

theorem proper_readDocument {c : Cursor} {m : Markup} (h : readDocument options c = .ok m) :
    m.nodes.Proper := by
  obtain ⟨before, after, tag, children, shape, ahead, asides, -, written, inner⟩ := shape_of_readDocument h
  have behind := Forest.proper_leaves (fun content mem => (asides content mem).reread.proper) .nil
  rw [Forest.append_nil] at behind
  rw [shape]
  refine Forest.proper_leaves (fun content mem => (ahead content mem).proper)
    (.element (Scope.proper_resolveTag _ written) ?_ behind)
  rcases inner with rfl | ⟨p, q, hinner⟩
  · exact .nil
  · exact proper_readContentWithin hinner

end

theorem Markup.IsRead.proper {m : Markup} (read : m.IsRead) : m.nodes.Proper := by
  obtain ⟨options, s, parsed⟩ := read
  exact proper_readDocument parsed

/-! ## Documents -/

namespace Document

variable {d d' d'' : Document} {a b p r x : NodeId} {L : NodeId → List NodeId}

theorem relinked_replaceText {text : String} : Relinked (d.create (.text text)).2 (d.replaceText p text) := by
  rw [Document.replaceText]
  split
  · exact Relinked.insertBefore.trans .detach
  · exact .append

theorem relinked_swap (ne : a ≠ b) :
    Relinked ((d.create (.text "")).2.create (.text "")).2 (d.swap a b) := by
  rw [Document.swap, if_neg ne]
  refine .trans ?_ ((Relinked.insertBefore.trans .insertBefore).trans (Relinked.detach.trans .detach))
  exact (Relinked.insertBefore.trans .insertBefore).trans (Relinked.detach.trans .detach)

/-- Every node but the document node holds something of this kind. -/
def Everywhere (K : Content → Prop) (d : Document) : Prop := ∀ a, d.Has a → a ≠ root → K (d.content a)

namespace Everywhere

variable {K : Content → Prop}

theorem relinked (h : d.Everywhere K) (s : Relinked d d') : d'.Everywhere K := by
  intro a ha ne
  rw [s.content]
  rw [Has, s.size] at ha
  exact h a ha ne

theorem create (h : d.Everywhere K) {content : Content} (new : K content) :
    (d.create content).2.Everywhere K := by
  intro a ha ne
  rw [content_create]
  split
  · exact new
  · rename_i old
    refine h a (Nat.lt_of_le_of_ne (Nat.le_of_lt_succ ?_) fun e => old (congrArg NodeId.mk e)) ne
    rw [Has, size_create] at ha
    exact ha

theorem modifyTag (h : d.Everywhere K) (id : NodeId) {f : Element → Element}
    (keeps : ∀ tag : Element, K (.element tag) → K (.element (f tag))) : (d.modifyTag id f).Everywhere K := by
  intro a ha ne
  rw [Has, Document.modifyTag, size_modifyContent] at ha
  have before := h a ha ne
  rcases content_modifyTag id f ha with e | e
  · rw [e]
    exact before
  · rw [e]
    generalize d.content a = content at before
    cases content with
    | element tag => exact keeps tag before
    | _ => exact before

theorem addForest (h : d.Everywhere K) {f : Forest Content} (new : ∀ content ∈ f.preorder, K content) :
    (addForest p f d).Everywhere K := by
  induction f generalizing d p with
  | nil => exact h
  | cons content children later ihc ihl =>
    rw [Forest.preorder, List.forall_mem_cons, List.forall_mem_append] at new
    exact ihl (ihc ((h.create new.1).relinked .append) new.2.1) new.2.2

theorem replaceText (h : d.Everywhere K) (text : String) (new : K (.text text)) :
    (d.replaceText p text).Everywhere K :=
  (h.create new).relinked relinked_replaceText

theorem swap (h : d.Everywhere K) (new : K (.text "")) : (d.swap a b).Everywhere K := by
  by_cases same : a = b
  · rw [Document.swap, if_pos same]
    exact h
  · exact ((h.create new).create new).relinked (relinked_swap same)

end Everywhere

/-- Every node but the document node holds what a node may hold. -/
abbrev Filled : Document → Prop := Everywhere Content.Proper

/-- A new element gets its name only when it has its place. -/
theorem Filled.addElement (h : d.Filled) (valid : isQName name = true) : (d.addElement p name).Filled := by
  intro a ha ne
  rw [Has, size_addElement] at ha
  obtain ⟨uri, content⟩ := d.content_addElement p a name
  rw [content]
  split
  · refine .element ⟨fun unqualified _ => isPlain_of_isQName valid unqualified, fun _ listed => ?_, .nil⟩
    exact absurd listed List.not_mem_nil
  · rename_i old
    exact h a (Nat.lt_of_le_of_ne (Nat.le_of_lt_succ ha) fun e => old (congrArg NodeId.mk e)) ne

/-- Only elements and the document node have children. -/
def Branched (d : Document) : Prop := ∀ p, d.children p ≠ [] → (d.content p).isInner = true

/-- An edit that puts nodes only where there were some, or where they may be. -/
theorem Branched.edited (h : d.Branched) (e : Edited d d' L)
    (places : ∀ q, L q ≠ [] → d.children q ≠ [] ∨ d.Inner q) : d'.Branched := by
  intro q filled
  rw [e.children] at filled
  rcases places q filled with old | inner
  · have has : d.Has q := by
      by_contra absent
      exact old (children_of_not_has absent)
    rw [e.content q has]
    exact h q old
  · rw [e.content q inner.has]
    exact inner.content

theorem Branched.update (h : d.Branched) {ids : List NodeId}
    (e : Edited d d' (Function.update d.children p ids)) (inner : d.Inner p) : d'.Branched := by
  refine h.edited e fun q filled => ?_
  by_cases hq : q = p
  · exact .inr (hq ▸ inner)
  · rw [Function.update_of_ne hq] at filled
    exact .inl filled

theorem Branched.addForest (h : d.Branched) (linked : d.WellLinked) {f : Forest Content}
    (proper : f.Proper) (inner : d.Inner p) : (addForest p f d).Branched := by
  induction proper generalizing d p with
  | nil => exact h
  | @leaf content _ _ _ ih =>
    have added := edited_add linked inner.has content
    exact ih (h.update added inner) added.wellLinked (added.toKeeps.retains.inner inner)
  | @element tag children _ _ _ _ ihc ihr =>
    have added := edited_add linked inner.has (.element tag)
    have below := grown_addForest (f := children) added.wellLinked (Keeps.append.retains.inner (inner_create tag)).has
    have branched := ihc (h.update added inner) added.wellLinked (Keeps.append.retains.inner (inner_create tag))
    exact ihr branched below.wellLinked (below.toKeeps.retains.inner (added.toKeeps.retains.inner inner))

theorem Branched.modifyTag (h : d.Branched) (linked : d.WellLinked) (id : NodeId) (f : Element → Element) :
    (d.modifyTag id f).Branched := by
  have same : ∀ link a, (d.modifyTag id f).target link a = d.target link a := fun _ _ =>
    target_modifyContent _
  obtain ⟨-, children⟩ := linked.congr same
  intro q filled
  rw [children] at filled
  have has : d.Has q := by
    by_contra absent
    exact filled (children_of_not_has absent)
  obtain ⟨g, e⟩ := (retains_modifyTag id f).content q has
  rw [e, Content.isInner_mapElement]
  exact h q filled

/-- A document whose nodes hold what they may hold, below nodes that may have children. -/
structure Proper (d : Document) : Prop where
  filled : d.Filled
  branched : d.Branched

theorem Proper.modifyTag (proper : d.Proper) (h : d.Rooted) (id : NodeId) {f : Element → Element}
    (keeps : ∀ tag : Element, tag.Proper → (f tag).Proper) : (d.modifyTag id f).Proper :=
  ⟨proper.filled.modifyTag id fun tag (.element proper) => .element (keeps tag proper),
    proper.branched.modifyTag h.wellLinked id f⟩

theorem Proper.addText (proper : d.Proper) (h : d.Rooted) (inner : d.Inner p) (text : String) :
    (d.addText p text).Proper :=
  ⟨(proper.filled.create (.text text)).relinked .append,
    proper.branched.update (edited_add h.wellLinked inner.has _) inner⟩

theorem Step.proper (s : Step d d') (h : d.Rooted) (proper : d.Proper) : d'.Proper := by
  have linked := h.wellLinked
  have filled := proper.filled
  have branched := proper.branched
  cases s with
  | newElement name valid =>
    exact ⟨filled.create (.element (Element.proper_named valid)),
      branched.edited (edited_create linked _) fun _ => .inl⟩
  | graft read found =>
    obtain ⟨tag, rfl, top, below⟩ := read.proper.find? found
    have created := edited_create linked (.element tag)
    exact ⟨(filled.create (.element top)).addForest below.contents,
      (branched.edited created fun _ => .inl).addForest created.wellLinked below (inner_create tag)⟩
  | addElement inner name valid =>
    have added := edited_add linked inner.has (.element (.named ⟨none, name⟩))
    exact ⟨filled.addElement valid, (branched.update added inner).modifyTag added.wellLinked _ _⟩
  | addText inner text => exact proper.addText h inner text
  | replaceText inner text =>
    refine ⟨filled.replaceText text (.text text), ?_⟩
    rw [Document.replaceText]
    split
    · rename_i first _
      have created := edited_create linked (.text text)
      have fit : ∀ p, (d.create (.text text)).2.parent? first = some p →
          (d.create (.text text)).2.Insertable ⟨d.size⟩ p := fun p hp =>
        insertable_create linked (linked.has_parent ((target_create _).symm.trans hp)) _
      have replaced := edited_replace created.wellLinked fit
      refine branched.edited (created.trans replaced) fun q filled => .inl ?_
      rw [← created.children]
      simpa using filled
    · exact (proper.addText h inner text).branched
  | insertChildAt place fit inner ne =>
    exact ⟨filled.relinked .insertChildAt, branched.update (edited_insertChildAt linked fit) inner⟩
  | insertBefore fit ne =>
    refine ⟨filled.relinked .insertBefore, branched.edited (edited_insertBefore linked fit) fun q => ?_⟩
    rintro filled
    refine .inl fun none => filled ?_
    rw [none]
    rfl
  | detach x =>
    refine ⟨filled.relinked .detach, branched.edited (edited_detach linked) fun q filled => .inl ?_⟩
    rintro none
    rw [none] at filled
    exact filled rfl
  | swap has_a has_b apart apart' =>
    have swapped := edited_swap linked has_a has_b apart apart'
    refine ⟨filled.swap (.text ""), branched.edited swapped fun q filled => .inl ?_⟩
    simpa using filled
  | setAttribute id name value valid =>
    exact proper.modifyTag h id fun _ tag => tag.setAttribute valid
  | removeAttribute id name => exact proper.modifyTag h id fun _ tag => tag.removeAttribute name
  | rename id name valid =>
    exact proper.modifyTag h id fun _ tag =>
      ⟨fun unqualified _ => isPlain_of_isQName valid unqualified, tag.attributes, tag.distinct⟩
  | bind id qualifier uri => exact proper.modifyTag h id fun _ tag => tag.bind qualifier uri
  | setNamespace id qualifier uri =>
    exact proper.modifyTag h id fun _ tag =>
      ⟨fun _ none => absurd none (Option.some_ne_none uri), tag.attributes, tag.distinct⟩

theorem proper_blank (declaration : Declaration) : ({ empty with declaration } : Document).Proper where
  filled a ha ne := absurd (congrArg NodeId.mk (Nat.lt_one_iff.mp ha)) ne
  branched q filled := by
    have linked := (rooted_blank declaration).wellLinked
    obtain ⟨c, hc⟩ := List.exists_mem_of_ne_nil _ filled
    have parent := (linked.parent c q).mp hc
    rw [parent?, target_blank] at parent
    cases parent

theorem Made.proper (made : Made d) : d.Proper := by
  induction made with
  | empty => exact proper_blank .absent
  | @read m read declaration =>
    have blank := proper_blank declaration
    have rooted := rooted_blank declaration
    exact ⟨blank.filled.addForest read.proper.contents,
      blank.branched.addForest rooted.wellLinked read.proper ⟨rooted.has_root, rfl⟩⟩
  | step made step ih => exact step.proper made.rooted ih

end Document

end XmlStore
