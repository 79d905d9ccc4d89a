/-
The attributes of an element as a map from names to values that keeps its
order. Names are held as their parts; an attribute goes by the name that its
parts make up, which can be told without putting them together. No element has
two attributes that go by one name, so giving an attribute a value and taking
one away have to do with this one alone, and no other moves.
-/
import XmlStore.Proofs.Identities
import XmlStore.Proofs.NamedAttributes
import XmlStore.Proofs.Sessions

namespace XmlStore

/-! ## Names and their parts -/

/-- Whether a text is this name, told by its length, by what it begins with, by the colon behind that and by
what it ends with. -/
def QName.spells (q : QName) (s : String) : Bool :=
  match q.qualifier with
  | none => q.localPart == s
  | some qualifier =>
    s.utf8ByteSize == qualifier.utf8ByteSize + 1 + q.localPart.utf8ByteSize &&
      qualifier.toList.isPrefixOf s.toList &&
      (s.toList.drop qualifier.toList.length).head? == some ':' &&
      q.localPart.toList.isSuffixOf s.toList

/-- What a text ends with is all of it if it is as long. -/
theorem eq_of_suffix {s t : String} (ends : s.toList <:+ t.toList) (size : s.utf8ByteSize = t.utf8ByteSize) :
    s = t := by
  obtain ⟨front, whole⟩ := ends
  have parts : String.ofList front ++ s = t := by
    rw [← String.toList_inj, String.toList_append, String.toList_ofList, whole]
  have nothing : (String.ofList front).utf8ByteSize = 0 := by
    rw [← parts, String.utf8ByteSize_append] at size
    omega
  rw [← parts, String.utf8ByteSize_eq_zero_iff.mp nothing, String.empty_append]

/-- A text is told to be a name exactly if it is written as the name is. -/
theorem QName.spells_eq (q : QName) (s : String) : q.spells s = (q.text == s) := by
  rw [spells, text]
  cases q.qualifier with
  | none => rfl
  | some qualifier =>
    rw [Bool.eq_iff_iff]
    simp only [Bool.and_eq_true, beq_iff_eq, List.isPrefixOf_iff_prefix, List.isSuffixOf_iff_suffix]
    constructor
    · rintro ⟨⟨⟨size, rest, front⟩, colon⟩, ends⟩
      rw [← front, List.drop_left] at colon
      obtain ⟨behind, rfl⟩ := List.head?_eq_some_iff.mp colon
      have whole : s = qualifier ++ ":" ++ String.ofList behind := by
        rw [← String.toList_inj, ← front]
        simp
      have same : (String.ofList behind).utf8ByteSize = q.localPart.utf8ByteSize := by
        rw [whole, String.utf8ByteSize_append, String.utf8ByteSize_append] at size
        have : ":".utf8ByteSize = 1 := rfl
        omega
      have after : (String.ofList behind).toList <:+ s.toList := by
        rw [whole, String.toList_append]
        exact List.suffix_append _ _
      rw [whole]
      rcases List.suffix_or_suffix_of_suffix ends after with shorter | longer
      · rw [eq_of_suffix shorter same.symm]
      · rw [eq_of_suffix longer same]
    · rintro rfl
      have front : (qualifier ++ ":" ++ q.localPart).toList = qualifier.toList ++ ':' :: q.localPart.toList := by simp
      have colon : ":".utf8ByteSize = 1 := rfl
      refine ⟨⟨⟨?_, ?_⟩, ?_⟩, ?_⟩
      · rw [String.utf8ByteSize_append, String.utf8ByteSize_append, colon]
      · exact ⟨_, front.symm⟩
      · rw [front, List.drop_left, List.head?_cons]
      · rw [String.toList_append]
        exact List.suffix_append _ _

theorem Attribute.answersTo_iff {a : Attribute} {name : String} : a.answersTo name = true ↔ a.name.text = name :=
  beq_iff_eq

/-! ## One tag -/

namespace Element

theorem others_replaceFirst (name value : String) (l : List Attribute) :
    (setAttribute.replaceFirst name value l).filter (!·.answersTo name) = l.filter (!·.answersTo name) := by
  induction l with
  | nil => rfl
  | cons a l ih =>
    rw [setAttribute.replaceFirst]
    split
    · rename_i answers
      have replaced : ({ a with value } : Attribute).answersTo name = true := answers
      rw [List.filter_cons_of_neg (by simpa using replaced), List.filter_cons_of_neg (by simpa using answers)]
    · rename_i other
      rw [List.filter_cons_of_pos (by simpa using other), List.filter_cons_of_pos (by simpa using other), ih]

/-- No other attribute changes or moves. -/
theorem others_setAttribute (tag : Element) (name value : String) (uri : Option String) :
    (tag.setAttribute name value uri).attributes.filter (!·.answersTo name) =
      tag.attributes.filter (!·.answersTo name) := by
  rw [setAttribute]
  split
  · exact others_replaceFirst name value tag.attributes
  · have new : (Attribute.mk (.ofString name) value uri).answersTo name = true := by
      simp [Attribute.answersTo, QName.text_ofString]
    rw [List.filter_append, List.filter_cons_of_neg (by simp [new]), List.filter_nil, List.append_nil]

/-- The attribute stays where it is, or comes last. -/
theorem texts_setAttribute (tag : Element) (name value : String) (uri : Option String) :
    (tag.setAttribute name value uri).attributes.map (·.name.text) =
      let texts := tag.attributes.map (·.name.text)
      if name ∈ texts then texts else texts ++ [name] := by
  have present : tag.attributes.any (·.answersTo name) = true ↔ name ∈ tag.attributes.map (·.name.text) := by
    simp [Attribute.answersTo]
  rw [setAttribute]
  dsimp only
  split
  · rename_i found
    rw [if_pos (present.mp found)]
    have names := congrArg (List.map QName.text) (names_replaceFirst name value tag.attributes)
    rwa [List.map_map, List.map_map] at names
  · rename_i absent
    rw [if_neg fun listed => absent (present.mpr listed), List.map_append, List.map_singleton, QName.text_ofString]

end Element

/-! ## Documents -/

namespace Document

variable {d : Document} {id : NodeId} {name value : String}

/-- The names that the attributes of a node go by, in order. -/
def attributeNames (d : Document) (id : NodeId) : List String := (d.attributes id).map (·.name.text)

/-- The attributes of a node but those that go by a name. -/
def attributesBut (d : Document) (id : NodeId) (name : String) : List Attribute :=
  (d.attributes id).filter (!·.answersTo name)

/-- No node has two attributes that go by one name. -/
def DistinctNames (d : Document) : Prop := ∀ id, (d.attributeNames id).Nodup

/-- After an attribute of a node has been given a value: it is where it was, or last if there was none, and
all others are as they were and in the same order. -/
structure AttributeGiven (d d' : Document) (id : NodeId) (name value : String) : Prop where
  value : d'.attribute? id name = some value
  place : d'.attributeNames id =
    if name ∈ d.attributeNames id then d.attributeNames id else d.attributeNames id ++ [name]
  others : d'.attributesBut id name = d.attributesBut id name
  elsewhere : ∀ other, other ≠ id → d'.content other = d.content other
  distinct : d'.DistinctNames

/-- After an attribute of a node has been taken away: nothing else has. -/
structure AttributeTaken (d d' : Document) (id : NodeId) (name : String) : Prop where
  absent : d'.attribute? id name = none
  others : d'.attributes id = d.attributesBut id name
  elsewhere : ∀ other, other ≠ id → d'.content other = d.content other
  distinct : d'.DistinctNames

/-- The attributes of every element are a map from names to values that keeps its order. -/
structure KeyedAttributes (d : Document) : Prop where
  distinct : d.DistinctNames
  lookup : ∀ id name value, d.attribute? id name = some value ↔
    ∃ a ∈ d.attributes id, a.name.text = name ∧ a.value = value
  set : ∀ id name value, d.isElement id = true → d.AttributeGiven (d.setAttribute id name value) id name value
  remove : ∀ id name, d.isElement id = true → d.AttributeTaken (d.removeAttribute id name) id name

theorem Made.distinctNames (made : Made d) : d.DistinctNames := by
  intro id
  have distinct := attributes_distinct made id
  rwa [← List.pairwise_map, List.map_map] at distinct

/-- A change of one tag. -/
theorem DistinctNames.of_modifyTag (h : d.DistinctNames) (has : d.Has id) {f : Element → Element}
    (keeps : ((d.modifyTag id f).attributeNames id).Nodup) : (d.modifyTag id f).DistinctNames := by
  intro other
  by_cases same : other = id
  · rwa [same]
  · have unchanged : (d.modifyTag id f).content other = d.content other := by
      rw [Document.modifyTag, content_modifyContent has, if_neg same]
    rw [attributeNames, attributes, unchanged]
    exact h other

theorem DistinctNames.attribute?_eq_some_iff (h : d.DistinctNames) : d.attribute? id name = some value ↔
    ∃ a ∈ d.attributes id, a.name.text = name ∧ a.value = value := by
  rw [attribute?_eq_find?, Option.map_eq_some_iff]
  have named {a : Attribute} (found : (d.attributes id).find? (·.answersTo name) = some a) : a.name.text = name :=
    Attribute.answersTo_iff.mp (List.find?_some found :)
  constructor
  · rintro ⟨a, found, holds⟩
    exact ⟨a, List.mem_of_find?_eq_some found, named found, holds⟩
  · rintro ⟨a, mem, rfl, holds⟩
    refine ⟨a, ?_, holds⟩
    cases found : (d.attributes id).find? (·.answersTo a.name.text) with
    | none => exact absurd (Attribute.answersTo_iff.mpr rfl) (List.find?_eq_none.mp found a mem)
    | some b => rw [List.inj_on_of_nodup_map (h id) (List.mem_of_find?_eq_some found) mem (named found)]

theorem exists_element (element : d.isElement id = true) : ∃ tag, d.content id = .element tag := by
  rw [isElement] at element
  cases content : d.content id with
  | element tag => exact ⟨tag, rfl⟩
  | _ =>
    rw [content] at element
    cases element

theorem DistinctNames.attributeGiven (h : d.DistinctNames) (element : d.isElement id = true) (name value : String) :
    d.AttributeGiven (d.setAttribute id name value) id name value := by
  obtain ⟨tag, content⟩ := exists_element element
  have has := has_of_element content
  have own : d.attributes id = tag.attributes := by
    rw [attributes, content]
    rfl
  have own' : (d.setAttribute id name value).attributes id =
      (tag.setAttribute name value (d.attributeNamespace id (.ofString name))).attributes := by
    rw [attributes, setAttribute, modifyTag, content_modifyContent has, if_pos rfl, content]
    rfl
  have place : (d.setAttribute id name value).attributeNames id =
      if name ∈ d.attributeNames id then d.attributeNames id else d.attributeNames id ++ [name] := by
    rw [attributeNames, attributeNames, own, own']
    exact tag.texts_setAttribute name value _
  refine ⟨?_, place, ?_, fun other ne => ?_, h.of_modifyTag has ?_⟩
  · rw [attribute?_setAttribute has element, if_pos ⟨rfl, rfl⟩]
  · rw [attributesBut, attributesBut, own, own']
    exact tag.others_setAttribute name value _
  · rw [setAttribute, modifyTag, content_modifyContent has, if_neg ne]
  · rw [← setAttribute, place]
    split
    · exact h id
    · rename_i absent
      exact List.nodup_append.mpr ⟨h id, List.nodup_singleton name, fun a listed b new same =>
        absent (List.mem_singleton.mp new ▸ same ▸ listed)⟩

theorem DistinctNames.attributeTaken (h : d.DistinctNames) (element : d.isElement id = true) (name : String) :
    d.AttributeTaken (d.removeAttribute id name) id name := by
  obtain ⟨tag, content⟩ := exists_element element
  have has := has_of_element content
  have others : (d.removeAttribute id name).attributes id = d.attributesBut id name := by
    rw [attributesBut, attributes, attributes, removeAttribute, modifyTag, content_modifyContent has, if_pos rfl,
      content]
    rfl
  refine ⟨?_, others, fun other ne => ?_, h.of_modifyTag has ?_⟩
  · rw [attribute?_eq_find?, others, attributesBut]
    simp
  · rw [removeAttribute, modifyTag, content_modifyContent has, if_neg ne]
  · rw [← removeAttribute, attributeNames, others]
    exact (h id).sublist (List.filter_sublist.map _)

/-- It is enough that the names are distinct, and they remain so. -/
theorem DistinctNames.keyedAttributes (h : d.DistinctNames) : d.KeyedAttributes where
  distinct := h
  lookup _ _ _ := h.attribute?_eq_some_iff
  set _ name value element := h.attributeGiven element name value
  remove _ name element := h.attributeTaken element name

end Document

/-- An attribute answers to a name exactly if its qualifier and its local part with a colon between them, or its
local part alone, are that name, and this is told from the parts. In every document that is read, and in every one
that is open after any calls, the attributes of every element are a map from names to values that keeps its
order. -/
theorem attributes_keyed :
    (∀ (a : Attribute) (name : String), (a.answersTo name = true ↔ a.name.text = name) ∧
      a.name.spells name = a.answersTo name) ∧
    (∀ options s d, Document.ofString options s = .ok d → d.KeyedAttributes) ∧
    ∀ s : Session, s.Reachable → ∀ handle o, s.store.document? handle = some o → o.document.KeyedAttributes := by
  refine ⟨fun a name => ⟨Attribute.answersTo_iff, a.name.spells_eq name⟩, fun options s d read => ?_,
    fun s reachable handle o found => (reachable.allMade.of_document? found).distinctNames.keyedAttributes⟩
  obtain ⟨m, parsed, rfl⟩ := Document.ofString_ok.mp read
  exact (Document.Made.read ⟨options, s, parsed⟩ m.declaration).distinctNames.keyedAttributes

/-- An attribute that is given another value, a third one that is new, one that is taken away, and a store after
one call. -/
theorem attributes_keyed_two : (∃ d, Document.ofString .default "<a x='1' y='2'/>" = .ok d ∧ d.KeyedAttributes ∧
      (d.setAttribute ⟨1⟩ "x" "3").attribute? ⟨1⟩ "x" = some "3" ∧
      (d.setAttribute ⟨1⟩ "x" "3").attributeNames ⟨1⟩ = ["x", "y"] ∧
      (d.setAttribute ⟨1⟩ "z" "3").attributeNames ⟨1⟩ = ["x", "y", "z"] ∧
      (d.removeAttribute ⟨1⟩ "x").attributes ⟨1⟩ = [⟨⟨none, "y"⟩, "2", none⟩]) ∧
    ∃ o, ((Session.mk (.ofOptions .default) ⟨[], []⟩).call 0 (.create "a")).2.store.document? 1 = some o ∧
      o.document.KeyedAttributes := by
  let tag : Element := ⟨⟨none, "a"⟩, none, [], [⟨⟨none, "x"⟩, "1", none⟩, ⟨⟨none, "y"⟩, "2", none⟩]⟩
  let m : Markup := ⟨.absent, leaves [.element tag], []⟩
  have parsed : Markup.ofString .default "<a x='1' y='2'/>" = .ok m := by decide +kernel
  have read := Document.ofString_ok.mpr ⟨m, parsed, rfl⟩
  have keyed := attributes_keyed.2.1 _ _ _ read
  have element : (Document.ofMarkup m).isElement ⟨1⟩ = true := by decide +kernel
  have names : (Document.ofMarkup m).attributeNames ⟨1⟩ = ["x", "y"] := by decide +kernel
  have given := keyed.set ⟨1⟩ "x" "3" element
  refine ⟨⟨_, read, keyed, given.value, ?_, ?_, ?_⟩, _, rfl,
    attributes_keyed.2.2 _ (.call (.start .default ⟨[], []⟩) 0 (.create "a")) 1 _ rfl⟩
  · rw [given.place, names]
    rfl
  · rw [(keyed.set ⟨1⟩ "z" "3" element).place, names]
    rfl
  · rw [(keyed.remove ⟨1⟩ "x" element).others]
    decide +kernel

end XmlStore
