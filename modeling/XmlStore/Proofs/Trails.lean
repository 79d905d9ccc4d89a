/-
Locations select what they are the locations of. In a document without
qualifiers and namespaces, the location of a node is read as the steps along
its trail, and these lead from the document node down to the node alone; one
step further leads to the attribute of a name, of which there is no other.
-/
import XmlStore.Proofs.CacheRuns
import XmlStore.Proofs.Locations
import XmlStore.Proofs.Proper

namespace XmlStore

/-! ## What can be located -/

namespace Content

variable {content : Content}

/-- Whether this is a document type declaration. -/
def isDoctype : Content → Bool
  | doctype .. => true
  | _ => false

theorem locates_test (proper : content.Proper) (unqualified : content.Unqualified)
    (other : content.isDoctype = false) : Locates content.test := by
  cases proper with
  | @element tag proper =>
    obtain ⟨⟨qualifier, localPart⟩, uri, bindings, attributes⟩ := tag
    obtain ⟨hqualifier, huri, -⟩ := unqualified
    have plain := proper.name hqualifier huri
    dsimp only at hqualifier plain
    subst hqualifier
    exact .name plain
  | text | cdata => exact .text
  | comment => exact .comment
  | instruction clear => exact .instruction clear
  | doctype => cases other

theorem isDoctype_of_isInner (h : content.isInner = true) : content.isDoctype = false := by
  cases content <;> first | rfl | cases h

end Content

/-! ## Walking -/

section

variable {env : Env} {steps others : List Step} {items items' : List Item}

theorem Step.walk_append (h : Step.walk env steps items = .ok items') :
    Step.walk env (steps ++ others) items = Step.walk env others items' := by
  induction steps generalizing items with
  | nil =>
    cases h
    rfl
  | cons step steps ih =>
    rw [Step.walk] at h
    obtain ⟨found, taken, h⟩ := bind_eq_ok.1 h
    rw [List.cons_append, Step.walk, taken]
    exact ih h

theorem Step.walk_singleton (step : Step) (h : step.take env items = .ok items') :
    Step.walk env [step] items = .ok items' := by
  rw [Step.walk]
  exact bind_eq_ok.2 ⟨items', h, rfl⟩

end

namespace Document

variable {d : Document} {a b p : NodeId} {m : Rank} {namespaces : List (String × String)}

theorem Rooted.parent_of_attached (h : d.Rooted) (ha : d.Attached a) (ne : a ≠ root) :
    ∃ p, d.parent? a = some p ∧ d.Attached p := by
  cases hp : d.parent? a with
  | none =>
    have above := ha.below_root
    rw [h.wellLinked.ancestors_of_top ha.has hp] at above
    exact absurd (List.mem_singleton.mp above).symm ne
  | some p => exact ⟨p, rfl, ha.parent h hp⟩

/-- From the document node down to a node of the tree, a property of nodes is passed on to it. -/
theorem Rooted.induction_down {P : NodeId → Prop} (h : d.Rooted) (top : P root)
    (down : ∀ a p, d.Attached p → a ≠ root → d.parent? a = some p → P p → P a) (ha : d.Attached a) :
    P a := by
  generalize hn : (d.ancestors a).length = n
  induction n generalizing a with
  | zero =>
    have above := ha.below_root
    rw [List.length_eq_zero_iff.mp hn] at above
    cases above
  | succ n ih =>
    by_cases ne : a = root
    · exact ne ▸ top
    · obtain ⟨p, hp, attached⟩ := h.parent_of_attached ha ne
      rw [h.wellLinked.ancestors_eq hp, List.length_cons] at hn
      exact down a p attached ne hp (ih attached (Nat.succ.inj hn))

/-- The nodes of the tree are those in document order. -/
theorem Rooted.mem_documentOrder (h : d.Rooted) : a ∈ d.documentOrder ↔ d.Attached a := by
  refine ⟨attached_documentOrder h, fun ha => ?_⟩
  refine h.induction_down (P := (· ∈ d.documentOrder)) List.mem_cons_self ?_ ha
  intro a p _ _ hp above
  obtain ⟨n, stands⟩ := List.getElem?_of_mem above
  have children := stands_children h.wellLinked h.has_root stands
  obtain ⟨u, v, place⟩ := List.append_of_mem ((h.wellLinked.parent a p).mpr hp)
  rw [place] at children
  obtain ⟨-, m, -, -, -, -, standing⟩ := split_of_forall₂ children
  exact List.mem_of_getElem? standing

/-- A document that came about by steps, in which no element of the tree and none of its attributes
has a qualifier or a namespace, and no node so many children that a position is not a double. -/
structure Locatable (d : Document) : Prop where
  made : d.Made
  unqualified : ∀ a, d.Attached a → (d.content a).Unqualified
  few : ∀ p, (d.children p).length < 2 ^ 53

namespace Locatable

theorem rooted (h : d.Locatable) : d.Rooted := h.made.rooted

theorem locates (h : d.Locatable) (ha : d.Attached a) (ne : a ≠ root)
    (other : (d.content a).isDoctype = false) : Locates (d.content a).test :=
  Content.locates_test (h.made.proper.filled a ha.has ne) (h.unqualified a ha) other

/-- A node with a child is no document type declaration. -/
theorem isDoctype_parent (h : d.Locatable) (hp : d.parent? a = some p) :
    (d.content p).isDoctype = false := by
  refine Content.isDoctype_of_isInner (h.made.proper.branched p fun none => ?_)
  have child := (h.rooted.wellLinked.parent a p).mpr hp
  rw [none] at child
  cases child

/-- Every node on a trail belongs to the tree, and is one that a step can be about. -/
theorem locates_trail (h : d.Locatable) (ha : d.Attached a) (other : (d.content a).isDoctype = false) :
    ∀ b ∈ d.trail a, d.Attached b ∧ b ≠ root ∧ Locates (d.content b).test := by
  revert other
  refine h.rooted.induction_down (P := fun a => (d.content a).isDoctype = false →
    ∀ b ∈ d.trail a, d.Attached b ∧ b ≠ root ∧ Locates (d.content b).test) ?_ ?_ ha
  · intro _ b hb
    rw [trail_root h.rooted] at hb
    cases hb
  · intro a p attached ne hp above other b hb
    rw [trail_child h.rooted hp ne, List.mem_append, List.mem_singleton] at hb
    rcases hb with earlier | rfl
    · exact above (h.isDoctype_parent hp) b earlier
    · have ha := attached.child h.rooted hp
      exact ⟨ha, ne, h.locates ha ne other⟩

theorem toList_step (h : d.Locatable) (hb : d.Attached b) (locates : Locates (d.content b).test) :
    (d.step b).toList = (d.locator b).text :=
  Content.toList_step (h.unqualified b hb) locates

theorem readable (h : d.Locatable) (hb : d.Attached b) (ne : b ≠ root)
    (locates : Locates (d.content b).test) : (d.locator b).Readable := by
  refine ⟨locates, fun n hn => ?_⟩
  obtain ⟨p, hp, -⟩ := h.rooted.parent_of_attached hb ne
  obtain ⟨u, v, place⟩ := List.append_of_mem ((h.rooted.wellLinked.parent b p).mpr hp)
  have fewer : (d.counted b u).length ≤ u.length := List.length_filter_le ..
  have few := h.few p
  rw [place, List.length_append, List.length_cons] at few
  rcases position_child h.rooted place with e | ⟨e, -⟩
  · rw [e] at hn
    obtain rfl := Option.some.inj hn
    exact ⟨Nat.succ_pos _, by omega⟩
  · rw [e] at hn
    cases hn

/-- The steps along its trail lead to a node alone. -/
theorem walk_trail (h : d.Locatable) (namespaces : List (String × String)) (ha : d.Attached a)
    (other : (d.content a).isDoctype = false) :
    ∃ m, XmlStore.Step.walk (d.env namespaces) ((d.trail a).map fun b => (d.locator b).step) [.node 0] =
      .ok [.node m] ∧ d.Stands m a := by
  revert other
  refine h.rooted.induction_down (P := fun a => (d.content a).isDoctype = false → ∃ m,
    XmlStore.Step.walk (d.env namespaces) ((d.trail a).map fun b => (d.locator b).step) [.node 0] =
      .ok [.node m] ∧ d.Stands m a) ?_ ?_ ha
  · intro _
    rw [trail_root h.rooted]
    exact ⟨0, rfl, stands_root⟩
  · intro a p attached ne hp above other
    obtain ⟨n, walked, stands⟩ := above (h.isDoctype_parent hp)
    have locates := h.locates (attached.child h.rooted hp) ne other
    have unqualified : ∀ c ∈ d.children p, (d.content c).Unqualified := fun c hc =>
      h.unqualified c (attached.child h.rooted ((h.rooted.wellLinked.parent c p).mp hc))
    obtain ⟨m, taken, stands'⟩ := take_child h.rooted (h.few p) stands hp locates unqualified
    refine ⟨m, ?_, stands'⟩
    rw [trail_child h.rooted hp ne, List.map_append, XmlStore.Step.walk_append walked]
    exact XmlStore.Step.walk_singleton _ taken

theorem trail_ne_nil (h : d.Locatable) (ha : d.Attached a) (ne : a ≠ root) : d.trail a ≠ [] := by
  obtain ⟨p, hp, -⟩ := h.rooted.parent_of_attached ha ne
  rw [trail_child h.rooted hp ne]
  exact List.append_ne_nil_of_right_ne_nil _ nofun

end Locatable

theorem select_of_walk {s : String} {steps : List XmlStore.Step} {items : List Item}
    (read : Expr.ofString s = .ok (.rootPath steps))
    (walked : XmlStore.Step.walk (d.env namespaces) steps [.node 0] = .ok items) :
    d.select namespaces s = .ok (d.hits items) := by
  have evaluated : (Expr.rootPath steps).eval (d.env namespaces) ⟨.node 0, 1, 1⟩ = .ok (.items items) := by
    rw [Expr.eval]
    exact bind_eq_ok.2 ⟨items, walked, rfl⟩
  have selected : (d.env namespaces).select (.rootPath steps) = .ok items :=
    bind_eq_ok.2 ⟨.items items, evaluated, rfl⟩
  exact bind_eq_ok.2 ⟨_, read, bind_eq_ok.2 ⟨items, selected, rfl⟩⟩

/-- The location of a node is read as the steps along its trail. -/
theorem Locatable.ofString_location (h : d.Locatable) (ha : d.Attached a) (other : (d.content a).isDoctype = false) :
    Expr.ofString (d.location a) = .ok (.rootPath ((d.trail a).map fun b => (d.locator b).step)) := by
  by_cases ne : a = root
  · subst ne
    have top : d.location root = "/" := by
      rw [location, ← List.reverse_reverse ((d.ancestors root).takeWhile _), ← trail, trail_root h.rooted]
      rfl
    rw [trail_root h.rooted, top]
    exact Expr.ofString_root
  · have located := h.locates_trail ha other
    have spelled := toList_location (h.trail_ne_nil ha ne) fun b hb =>
      h.toList_step (located b hb).1 (located b hb).2.2
    have readable : ∀ l ∈ (d.trail a).map d.locator, l.Readable := List.forall_mem_map.mpr fun b hb =>
      h.readable (located b hb).1 (located b hb).2.1 (located b hb).2.2
    have read := Expr.ofString_location (by simpa using h.trail_ne_nil ha ne) readable spelled
    rwa [List.map_map] at read

theorem Locatable.select_node (h : d.Locatable) (ha : d.Attached a)
    (other : (d.content a).isDoctype = false) :
    d.select namespaces (d.location a) = .ok [.node a] := by
  obtain ⟨m, walked, stands⟩ := h.walk_trail namespaces ha other
  rw [← hits_node stands]
  exact select_of_walk (h.ofString_location ha other) walked

/-! ## Attributes -/

/-- Of the attributes of an element the test for a name admits the only one that has it. -/
theorem admits_attribute {tag : Element} {i j : Nat} (proper : tag.Proper)
    (unqualified : ∀ a ∈ tag.attributes, a.name.qualifier = none ∧ a.uri = none)
    (hi : i < tag.attributes.length) (hj : j < tag.attributes.length) :
    (NodeTest.name ⟨none, tag.attributes[i].name.localPart⟩).admitsAttribute none .attributes
      tag.attributes[j] = decide (j = i) := by
  obtain ⟨bare, free⟩ := unqualified _ (List.getElem_mem hj)
  obtain ⟨bare', -⟩ := unqualified _ (List.getElem_mem hi)
  have differs : ∀ {k l : Nat} (hk : k < tag.attributes.length) (hl : l < tag.attributes.length), k < l →
      tag.attributes[k].name.text ≠ tag.attributes[l].name.text := by
    intro k l hk hl less
    have pairwise := List.pairwise_iff_getElem.mp proper.distinct k l (by simpa) (by simpa) less
    simpa using pairwise
  have same : (tag.attributes[j].name.localPart == tag.attributes[i].name.localPart) = decide (j = i) := by
    have texts : tag.attributes[j].name.localPart = tag.attributes[i].name.localPart ↔ 
        tag.attributes[j].name.text = tag.attributes[i].name.text := by
      rw [QName.text, QName.text, bare, bare']
    rw [Bool.eq_iff_iff, beq_iff_eq, decide_eq_true_eq, texts]
    constructor
    · intro e
      rcases Nat.lt_trichotomy j i with less | same | greater
      · exact absurd e (differs hj hi less)
      · exact same
      · exact absurd e.symm (differs hi hj greater)
    · rintro rfl
      rfl
  have named : (NodeTest.name ⟨none, tag.attributes[i].name.localPart⟩).admitsName none
      tag.attributes[j].name tag.attributes[j].uri = decide (j = i) := by
    rw [NodeTest.admitsName, same, bare, free]
    exact Bool.and_true _
  rw [NodeTest.admitsAttribute, named]
  rfl

theorem filter_range_eq {n i : Nat} (hi : i < n) : (List.range n).filter (fun j => decide (j = i)) = [i] := by
  have once : (List.range n).count i = 1 := List.count_eq_one_of_mem List.nodup_range (List.mem_range.mpr hi)
  rw [List.filter_eq, once]
  rfl

namespace Locatable

variable {tag : Element}

theorem ne_root (h : d.Locatable) (content : d.content a = .element tag) : a ≠ root := by
  rintro rfl
  rw [h.made.content_root] at content
  cases content

theorem tag_proper (h : d.Locatable) (ha : d.Attached a) (content : d.content a = .element tag) :
    tag.Proper := by
  have filled := h.made.proper.filled a ha.has (h.ne_root content)
  rw [content] at filled
  cases filled with
  | element proper => exact proper

theorem attribute_unqualified (h : d.Locatable) (ha : d.Attached a) (content : d.content a = .element tag) :
    ∀ a ∈ tag.attributes, a.name.qualifier = none ∧ a.uri = none := by
  have own := h.unqualified a ha
  rw [content] at own
  exact own.2.2

theorem take_attribute (h : d.Locatable) (ha : d.Attached a) (stands : d.Stands m a)
    (content : d.content a = .element tag) {i : Nat} (hi : i < tag.attributes.length) :
    (Grammar.attributeStep tag.attributes[i].name.localPart).take (d.env namespaces) [.node m] =
      .ok [.attribute m i] := by
  have attributes : d.tree.attributes m = tag.attributes := by
    rw [Tree.attributes, stands_content h.rooted.wellLinked h.rooted.has_root stands (h.ne_root content),
      content]
    rfl
  have found : (d.tree.axis .attributes (.node m)).filter
      ((NodeTest.name ⟨none, tag.attributes[i].name.localPart⟩).admitsItem none .attributes d.tree) =
        [.attribute m i] := by
    show (d.tree.attributeItems m).filter _ = _
    rw [Tree.attributeItems, attributes, List.filter_map]
    refine Eq.trans (congrArg _ ?_) (congrArg (List.map (Item.attribute m)) (filter_range_eq hi))
    refine List.filter_congr fun j hj => ?_
    have hj := List.mem_range.mp hj
    show (d.tree.attributes m)[j]?.any _ = _
    rw [attributes, List.getElem?_eq_getElem hj]
    exact admits_attribute (h.tag_proper ha content) (h.attribute_unqualified ha content) hi hj
  rw [Grammar.attributeStep, Step.take]
  refine bind_eq_ok.2 ⟨none, rfl, bind_eq_ok.2 ⟨[[.attribute m i]], ?_, rfl⟩⟩
  rw [List.mapM_cons]
  refine bind_eq_ok.2 ⟨[.attribute m i], ?_, rfl⟩
  rw [found]
  rfl

/-- The location of an attribute selects the attribute alone. -/
theorem select_attribute (h : d.Locatable) (ha : d.Attached a)
    (content : d.content a = .element tag) {i : Nat} (hi : i < tag.attributes.length) :
    d.select namespaces (d.attributeLocation a i) = .ok [.attribute a i] := by
  have ne : a ≠ root := h.ne_root content
  have other : (d.content a).isDoctype = false := by
    rw [content]
    rfl
  obtain ⟨m, walked, stands⟩ := h.walk_trail namespaces ha other
  obtain ⟨unqualified, -⟩ := h.attribute_unqualified ha content _ (List.getElem_mem hi)
  have plain : IsPlain tag.attributes[i].name.localPart :=
    (h.tag_proper ha content).attributes _ (List.mem_map_of_mem (List.getElem_mem hi)) unqualified
  have spelled : (d.attributeLocation a i).toList =
      (d.location a).toList ++ '/' :: '@' :: tag.attributes[i].name.localPart.toList := by
    have name : ((d.attributes a)[i]?.map (·.name.text)).getD "" = tag.attributes[i].name.localPart := by
      have own : d.attributes a = tag.attributes := by
        rw [attributes, content]
        rfl
      rw [own, List.getElem?_eq_getElem hi, Option.map_some, Option.getD_some, QName.text, unqualified]
    show (d.location a ++ "/@" ++ ((d.attributes a)[i]?.map (·.name.text)).getD "").toList = _
    rw [name, String.toList_append, String.toList_append, List.append_assoc]
    rfl
  have located := h.locates_trail ha other
  rw [← hits_attribute stands]
  refine select_of_walk (@Expr.ofString_attributeLocation _ _ ((d.trail a).map d.locator) ?_ ?_ plain ?_) ?_
  · simpa using h.trail_ne_nil ha ne
  · exact List.forall_mem_map.mpr fun b hb => h.readable (located b hb).1 (located b hb).2.1 (located b hb).2.2
  · rw [spelled, toList_location (h.trail_ne_nil ha ne) fun b hb =>
      h.toList_step (located b hb).1 (located b hb).2.2]
  · rw [List.map_map]
    exact (XmlStore.Step.walk_append walked).trans
      (XmlStore.Step.walk_singleton _ (h.take_attribute ha stands content hi))

end Locatable

end Document

/-! ## Documents of a session -/

end XmlStore
