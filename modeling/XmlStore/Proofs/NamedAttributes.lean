/-
Attributes that are looked for by their names. The table of identifiers walks
through the elements and compares names as they are written; a path steps along
the axis of attributes and compares names with their namespaces. Both find the
same attributes: a name without a qualifier is in no namespace, as the default
namespace does not reach attributes, and no element has two attributes of one
name.
-/
import XmlStore.Store.Identifiers
import XmlStore.Proofs.AnyDepth
import XmlStore.Proofs.Spelling

namespace XmlStore

/-! ## Attributes without a qualifier -/

/-- No attribute without a qualifier is in a namespace. -/
def Content.DefaultFree (content : Content) : Prop :=
  ∀ a ∈ content.attributes, a.name.qualifier = none → a.uri = none

namespace Content

variable {content : Content} {tag : Element}

theorem defaultFree_of_none (none : content.attributes = []) : content.DefaultFree := by
  intro a mem
  rw [none] at mem
  cases mem

theorem defaultFree_resolveTag (scope : Scope) (tag : Element) : (element (scope.resolveTag tag)).DefaultFree := by
  intro a mem unqualified
  obtain ⟨written, -, rfl⟩ := List.mem_map.mp mem
  have bare : written.name.qualifier = none := unqualified
  rw [Scope.resolveAttribute, bare]
  rfl

theorem DefaultFree.setAttribute {name value : String} {uri : Option String} (h : (element tag).DefaultFree)
    (bare : (QName.ofString name).qualifier = none → uri = none) :
    (element (tag.setAttribute name value uri)).DefaultFree := by
  have replaced (l : List Attribute) : ∀ a ∈ Element.setAttribute.replaceFirst name value l,
      ∃ b ∈ l, a.name = b.name ∧ a.uri = b.uri := by
    induction l with
    | nil => exact nofun
    | cons b l ih =>
      intro a mem
      rw [Element.setAttribute.replaceFirst] at mem
      split at mem
      · rcases List.mem_cons.mp mem with rfl | later
        · exact ⟨b, List.mem_cons_self, rfl, rfl⟩
        · exact ⟨a, List.mem_cons_of_mem b later, rfl, rfl⟩
      · rcases List.mem_cons.mp mem with rfl | later
        · exact ⟨a, List.mem_cons_self, rfl, rfl⟩
        · obtain ⟨c, hc, same⟩ := ih a later
          exact ⟨c, List.mem_cons_of_mem b hc, same⟩
  rw [Element.setAttribute]
  split
  · intro a mem unqualified
    obtain ⟨b, hb, named, spaced⟩ := replaced tag.attributes a mem
    rw [spaced]
    exact h b hb (named ▸ unqualified)
  · intro a mem unqualified
    rcases List.mem_append.mp mem with old | new
    · exact h a old unqualified
    · rw [List.mem_singleton.mp new] at unqualified ⊢
      exact bare unqualified

theorem DefaultFree.removeAttribute (h : (element tag).DefaultFree) (name : String) :
    (element (tag.removeAttribute name)).DefaultFree :=
  fun a mem => h a (List.mem_of_mem_filter mem)

end Content

theorem Cursor.Reread.defaultFree {content : Content} (h : Cursor.Reread content) : content.DefaultFree :=
  Content.defaultFree_of_none (by cases h <;> rfl)

theorem Readable.defaultFree {options : ReadOptions} {depth : Nat} {scope : Scope} {afterText : Bool}
    {f : Forest Content} (readable : Readable options depth scope afterText f) :
    ∀ content ∈ f.preorder, content.DefaultFree := by
  induction readable with
  | nil => exact List.forall_mem_nil _
  | text filled valid others ih =>
    exact List.forall_mem_cons.mpr ⟨Content.defaultFree_of_none rfl, ih⟩
  | leaf reread others ih => exact List.forall_mem_cons.mpr ⟨reread.defaultFree, ih⟩
  | element low written inner others ihc ihr =>
    exact List.forall_mem_cons.mpr ⟨Content.defaultFree_resolveTag _ _, List.forall_mem_append.mpr ⟨ihc, ihr⟩⟩

theorem Markup.IsRead.defaultFree {m : Markup} (read : m.IsRead) : ∀ content ∈ m.nodes.preorder, content.DefaultFree := by
  obtain ⟨options, s, parsed⟩ := read
  obtain ⟨before, after, tag, children, shape, ahead, asides, -, written, inner⟩ := shape_of_readDocument parsed
  rw [shape, Forest.preorder_append, preorder_leaves, Forest.preorder, preorder_leaves, List.forall_mem_append,
    List.forall_mem_cons, List.forall_mem_append]
  refine ⟨fun content mem => ?_, Content.defaultFree_resolveTag _ _, ?_, fun content mem => ?_⟩
  · cases ahead content mem with
    | aside aside => exact aside.reread.defaultFree
    | doctype => exact Content.defaultFree_of_none rfl
  · rcases inner with rfl | ⟨p, q, hinner⟩
    · exact List.forall_mem_nil _
    · have apart : false = true → p.cursor.beginning ≠ .characters := Bool.noConfusion
      have readable : Readable options 1 _ false children := readable_readContentWithin apart hinner
      exact readable.defaultFree
  · exact (asides content mem).reread.defaultFree

namespace Document

variable {d d' : Document}

/-- No attribute without a qualifier is in a namespace, on any node but the document node. -/
abbrev DefaultFree : Document → Prop := Everywhere Content.DefaultFree

/-- Edits of a tag that leave its attributes as they are. -/
theorem DefaultFree.retag (h : d.DefaultFree) (id : NodeId) {f : Element → Element}
    (same : ∀ tag : Element, (f tag).attributes = tag.attributes) : (d.modifyTag id f).DefaultFree :=
  h.modifyTag id fun tag free a mem => free a (by
    show a ∈ tag.attributes
    rw [← same tag]
    exact mem)

theorem Step.defaultFree (s : Step d d') (h : d.DefaultFree) : d'.DefaultFree := by
  have text (s : String) : (Content.text s).DefaultFree := Content.defaultFree_of_none rfl
  cases s with
  | newElement name valid => exact h.create (Content.defaultFree_of_none rfl)
  | @graft m top below read found =>
    have listed := m.nodes.find?_subset found
    refine (h.create (read.defaultFree top (listed List.mem_cons_self))).addForest fun content mem => ?_
    exact read.defaultFree content (listed (List.mem_cons_of_mem _ mem))
  | addElement inner name valid =>
    exact DefaultFree.retag ((h.create (Content.defaultFree_of_none rfl)).relinked .append) _ fun _ => rfl
  | addText inner s => exact (h.create (text s)).relinked .append
  | replaceText inner s => exact h.replaceText s (text s)
  | insertChildAt => exact h.relinked .insertChildAt
  | insertBefore => exact h.relinked .insertBefore
  | detach => exact h.relinked .detach
  | swap => exact h.swap (text "")
  | setAttribute id name value valid =>
    refine h.modifyTag id fun tag free => free.setAttribute fun unqualified => ?_
    rw [attributeNamespace, unqualified]
    rfl
  | removeAttribute id name => exact h.modifyTag id fun tag free => free.removeAttribute name
  | rename => exact DefaultFree.retag h _ fun _ => rfl
  | bind id qualifier uri =>
    refine DefaultFree.retag h _ fun tag => ?_
    rw [Element.bind]
    split <;> rfl
  | setNamespace => exact DefaultFree.retag h _ fun _ => rfl

theorem defaultFree_blank (declaration : Declaration) : ({ empty with declaration } : Document).DefaultFree :=
  fun _ ha ne => absurd (congrArg NodeId.mk (Nat.lt_one_iff.mp ha)) ne

theorem Made.defaultFree (made : Made d) : d.DefaultFree := by
  induction made with
  | empty => exact defaultFree_blank .absent
  | read read declaration => exact (defaultFree_blank declaration).addForest read.defaultFree
  | step _ step ih => exact step.defaultFree ih

/-! ## The attribute of a name -/

variable {a : NodeId} {name : String} {n : Rank} {i : Nat} {item : Item} {namespaces : List (String × String)}

theorem defaultFree_attributes (made : d.Made) (ha : d.Attached a) : (d.content a).DefaultFree := by
  by_cases top : a = root
  · rw [top, made.content_root]
    exact Content.defaultFree_of_none rfl
  · exact made.defaultFree a ha.has top

theorem has_of_element {tag : Element} (element : d.content a = .element tag) : d.Has a := by
  by_contra outside
  rw [content, node, Array.getD_eq_getD_getElem?, Array.getElem?_eq_none (Nat.le_of_not_lt outside)] at element
  cases element

/-- No element has two attributes that go by one name. -/
theorem attributes_distinct (made : d.Made) (a : NodeId) :
    ((d.attributes a).map (·.name)).Pairwise fun n m => n.text ≠ m.text := by
  rw [attributes]
  cases content : d.content a with
  | element tag =>
    have top : a ≠ root := by
      rintro rfl
      cases made.content_root.symm.trans content
    have filled := made.proper.filled a (has_of_element content) top
    rw [content] at filled
    cases filled with
    | element proper => exact proper.distinct
  | _ => exact .nil

/-- The index of the attribute of an element that goes by a name. -/
def attributeIndex? (d : Document) (id : NodeId) (name : String) : Option Nat :=
  (d.attributes id).findIdx? (·.answersTo name)

theorem attributeIndex?_eq_some_iff (made : d.Made) :
    d.attributeIndex? a name = some i ↔ ∃ b, (d.attributes a)[i]? = some b ∧ b.answersTo name = true := by
  rw [attributeIndex?, List.findIdx?_eq_some_iff_getElem]
  constructor
  · rintro ⟨inside, answers, -⟩
    exact ⟨_, List.getElem?_eq_getElem inside, answers⟩
  · rintro ⟨b, here, answers⟩
    obtain ⟨inside, rfl⟩ := List.getElem?_eq_some_iff.mp here
    refine ⟨inside, answers, fun j earlier also => ?_⟩
    have differs := List.pairwise_iff_getElem.mp (List.pairwise_map.mp (attributes_distinct made a)) j i
      (earlier.trans inside) inside earlier
    rw [Attribute.answersTo, beq_iff_eq] at answers also
    exact differs (also.trans answers.symm)

theorem attribute?_eq_find? (d : Document) (id : NodeId) (name : String) :
    d.attribute? id name = ((d.attributes id).find? (·.answersTo name)).map (·.value) := by
  rw [attribute?, attributes, Content.attribute?, Content.attributes]
  cases (d.content id).element? <;> rfl

theorem attribute?_eq_attributeIndex? (d : Document) (id : NodeId) (name : String) :
    d.attribute? id name = (d.attributeIndex? id name).map (d.attributeValue id) := by
  have value : d.attributeValue id = fun i => (((d.attributes id)[i]?).map (·.value)).getD "" := rfl
  rw [attribute?_eq_find?, attributeIndex?, value]
  generalize d.attributes id = l
  induction l with
  | nil => rfl
  | cons b l ih =>
    rw [List.find?_cons, List.findIdx?_cons]
    cases b.answersTo name with
    | true => rfl
    | false =>
      rw [ih, if_neg Bool.false_ne_true, Option.map_map]
      rfl

/-- A plain name is asked for by the attributes that go by it. -/
theorem admitsAttribute_eq {b : Attribute} (plain : IsPlain name) (free : b.name.qualifier = none → b.uri = none) :
    (NodeTest.name ⟨none, name⟩).admitsAttribute none .attributes b = b.answersTo name := by
  obtain ⟨⟨qualifier, localPart⟩, value, uri⟩ := b
  cases qualifier with
  | none =>
    obtain rfl : uri = none := free rfl
    simp [NodeTest.admitsAttribute, NodeTest.admitsName, Attribute.answersTo, QName.text]
  | some qualifier =>
    have colon : qualifier ++ ":" ++ localPart ≠ name := by
      rintro rfl
      refine (plain.further ':' ?_).2 rfl
      simp
    simp [NodeTest.admitsAttribute, NodeTest.admitsName, Attribute.answersTo, QName.text, colon]

/-- The attributes of the tree that go by a name, with their elements. -/
def attributesNamed (d : Document) (name : String) : List Hit :=
  (d.descendants root).filterMap fun id => (d.attributeIndex? id name).map (.attribute id)

theorem mem_attributesNamed (made : d.Made) {hit : Hit} : hit ∈ d.attributesNamed name ↔
    ∃ a ∈ d.documentOrder, ∃ i, d.attributeIndex? a name = some i ∧ hit = .attribute a i := by
  have top : d.attributeIndex? root name = none := by
    rw [attributeIndex?, attributes, made.content_root]
    rfl
  rw [attributesNamed, List.mem_filterMap]
  constructor
  · rintro ⟨a, below, found⟩
    obtain ⟨i, here, rfl⟩ := Option.map_eq_some_iff.mp found
    exact ⟨a, List.mem_cons_of_mem root below, i, here, rfl⟩
  · rintro ⟨a, mem, i, here, rfl⟩
    rcases List.mem_cons.mp mem with rfl | below
    · rw [top] at here
      cases here
    · exact ⟨a, below, by rw [here]; rfl⟩

theorem inOrder_attributesNamed (made : d.Made) (name : String) : d.InOrder (d.attributesNamed name) := by
  have h := made.rooted
  refine ⟨fun hit mem => ?_, ?_⟩
  · obtain ⟨a, ha, i, here, rfl⟩ := (mem_attributesNamed made).mp mem
    obtain ⟨b, found, -⟩ := (attributeIndex?_eq_some_iff made).mp here
    exact ⟨ha, (List.getElem?_eq_some_iff.mp found).1⟩
  · have before := List.pairwise_map.mp (pairwise_precedes h (List.sublist_cons_self root (d.descendants root)))
    refine before.filterMap _ fun a b earlier x hx y hy => ?_
    obtain ⟨i, -, rfl⟩ := Option.map_eq_some_iff.mp hx
    obtain ⟨j, -, rfl⟩ := Option.map_eq_some_iff.mp hy
    exact .inl earlier

/-- Nothing that was hit precedes itself. -/
theorem InOrder.nodup {hits : List Hit} (h : d.InOrder hits) : hits.Nodup := by
  refine h.ascending.imp fun {hit other} before same => ?_
  subst same
  cases hit with
  | node a => exact Nat.lt_irrefl _ before
  | «attribute» a i =>
    rcases before with before | ⟨-, before⟩
    · exact Nat.lt_irrefl _ before
    · exact Nat.lt_irrefl _ before

/-! ## Along the axis of attributes -/

/-- The attribute of a name that is found from an element. -/
theorem mem_axis_attributes (made : d.Made) (plain : IsPlain name) (stands : d.Stands n a) :
    item ∈ d.tree.axis .attributes (.node n) ∧
        (NodeTest.name ⟨none, name⟩).admitsItem none .attributes d.tree item = true ↔
      ∃ i, d.attributeIndex? a name = some i ∧ item = .attribute n i := by
  have attached := attached_of_stands made.rooted stands
  have own : d.tree.attributes n = d.attributes a := tree_attributes made.headed stands
  have passes (i : Nat) : (NodeTest.name ⟨none, name⟩).admitsItem none .attributes d.tree (.attribute n i) =
      (d.attributes a)[i]?.any (·.answersTo name) := by
    rw [NodeTest.admitsItem, own]
    cases here : (d.attributes a)[i]? with
    | none => rfl
    | some b =>
      exact admitsAttribute_eq plain (defaultFree_attributes made attached b (List.mem_of_getElem? here))
  rw [Tree.axis, Tree.nodeAxis, Tree.attributeItems, List.mem_map]
  constructor
  · rintro ⟨⟨i, -, rfl⟩, admitted⟩
    rw [passes, Option.any_eq_true] at admitted
    exact ⟨i, (attributeIndex?_eq_some_iff made).mpr admitted, rfl⟩
  · rintro ⟨i, here, rfl⟩
    obtain ⟨b, found, answers⟩ := (attributeIndex?_eq_some_iff made).mp here
    have inside := (List.getElem?_eq_some_iff.mp found).1
    refine ⟨⟨i, List.mem_range.mpr (own ▸ inside), rfl⟩, ?_⟩
    rw [passes, found]
    exact answers

/-- Where `//` stops from the document node: at every node but document type declarations. -/
theorem mem_stops (made : d.Made) : item ∈ (d.env namespaces).meets .descendantOrSelf .node none [.node 0] ↔
    ∃ a n, d.Stands n a ∧ (d.content a).isDoctype = false ∧ item = .node n := by
  rw [Env.mem_meets]
  simp only [List.mem_singleton, exists_eq_left]
  constructor
  · rintro ⟨mem, admitted⟩
    obtain ⟨a, -, n, stands, rfl⟩ := (mem_axis_node made.rooted stands_root (by simp)).mp mem
    rw [admitsItem_node made.headed stands, admits_node] at admitted
    exact ⟨a, n, stands, by simpa using admitted, rfl⟩
  · rintro ⟨a, n, stands, other, rfl⟩
    refine ⟨(mem_axis_node made.rooted stands_root (by simp)).mpr ⟨a, List.mem_of_getElem? stands, n, stands, rfl⟩, ?_⟩
    rw [admitsItem_node made.headed stands, admits_node, other]
    rfl

/-- From the document node, `//@` and a plain name lead to the attributes that go by the name. -/
theorem walk_attributesNamed (made : d.Made) (plain : IsPlain name) (namespaces : List (String × String)) :
    XmlStore.Step.walk (d.env namespaces) [.anyDepth, Grammar.attributeStep name] [.node 0] =
      .ok ((d.attributesNamed name).map d.place) := by
  rw [Step.anyDepth, Step.walk_node, Grammar.attributeStep, Step.walk_plain]
  refine congrArg Except.ok ?_
  have listed := (lists_iff made.headed).mpr ⟨_, inOrder_attributesNamed made name, rfl⟩
  have same (item : Item) : item ∈ (d.env namespaces).meets .attributes (.name ⟨none, name⟩) none
      ((d.env namespaces).meets .descendantOrSelf .node none [.node 0]) ↔ item ∈ (d.attributesNamed name).map d.place := by
    rw [Env.mem_meets, List.mem_map]
    constructor
    · rintro ⟨start, stop, found⟩
      obtain ⟨a, n, stands, -, rfl⟩ := (mem_stops made).mp stop
      obtain ⟨i, here, rfl⟩ := (mem_axis_attributes made plain stands).mp found
      have ordered := List.mem_of_getElem? stands
      refine ⟨.attribute a i, (mem_attributesNamed made).mpr ⟨a, ordered, i, here, rfl⟩, ?_⟩
      rw [place, stands_unique made.rooted stands (stands_idxOf ordered)]
    · rintro ⟨hit, mem, rfl⟩
      obtain ⟨a, ordered, i, here, rfl⟩ := (mem_attributesNamed made).mp mem
      have stands := stands_idxOf ordered
      obtain ⟨b, found, -⟩ := (attributeIndex?_eq_some_iff made).mp here
      have other : (d.content a).isDoctype = false := by
        rw [attributes] at found
        cases content : d.content a with
        | doctype =>
          rw [content] at found
          cases found
        | _ => rfl
      exact ⟨_, (mem_stops made).mpr ⟨a, _, stands, other, rfl⟩,
        (mem_axis_attributes made plain stands).mpr ⟨i, here, rfl⟩⟩
  have found : d.tree.Lists ((d.env namespaces).meets .attributes (.name ⟨none, name⟩) none
      ((d.env namespaces).meets .descendantOrSelf .node none [.node 0])) :=
    ⟨fun item mem => listed.has item ((same item).mp mem), Item.pairwise_ordered _⟩
  exact found.eq_of_mem_iff listed same

/-- The table of identifiers, entry by entry against the attributes that go by their name. -/
theorem uids_attributesNamed (d : Document) : List.Forall₂
    (fun entry hit => ∃ owner index, hit = .attribute owner index ∧ entry = (d.attributeValue owner index, owner))
    d.uids (d.attributesNamed uidAttribute) := by
  rw [uids, attributesNamed]
  induction d.descendants root with
  | nil => exact .nil
  | cons id ids ih =>
    rw [List.filterMap_cons, List.filterMap_cons, attribute?_eq_attributeIndex?]
    cases d.attributeIndex? id uidAttribute with
    | none => exact ih
    | some index => exact .cons ⟨id, index, rfl, rfl⟩ ih

end Document

/-- `//@` and a plain name, as an expression. -/
theorem Expr.ofString_anyAttribute {s name : String} (plain : IsPlain name)
    (spelled : s.toList = '/' :: '/' :: '@' :: name.toList) :
    Expr.ofString s = .ok (.rootPath [.anyDepth, Grammar.attributeStep name]) := by
  have stops : ∀ ch ∈ ([] : List Char).head?, isNameChar ch = false := nofun
  have named := Lexer.lexes_name plain stops Lexer.lexes_nil
  rw [List.append_nil] at named
  have lexes : Lexer.Lexes false s.toList [.symbol .doubleSlash, .symbol .atSign, .name name] := by
    have opens : Lexer.readToken false ('/' :: '/' :: '@' :: name.toList) =
        .ok (.symbol .doubleSlash, '@' :: name.toList) := rfl
    have lexes := Lexer.lexes_cons (by rintro _ ⟨⟩; decide) opens
      (Lexer.lexes_symbol (by decide) Lexer.readToken_symbol.2.2.2.2 named)
    rwa [Lexer.classifyAmong_symbol, ← spelled] at lexes
  exact Expr.ofString_of_lexes lexes
    (.anywhere (.steps (.step .attributes (derives_test (.name plain)) .noPredicates) .noSteps))

/-- The table of identifiers lists what `//@uID` selects: the same attributes in the same order, each once, with
their values and the elements that they belong to. -/
theorem select_uids {s : Session} {handle : Handle} {o : OpenDocument} (reachable : s.Reachable)
    (found : s.store.document? handle = some o) (namespaces : List (String × String)) :
    ∃ hits, o.document.select namespaces "//@uID" = .ok hits ∧ hits.Nodup ∧ List.Forall₂
      (fun entry hit => ∃ owner index, hit = .attribute owner index ∧
        entry = (o.document.attributeValue owner index, owner)) o.document.uids hits := by
  have made := reachable.allMade.of_document? found
  have plain : IsPlain uidAttribute := isPlain_of_all (by decide) (by decide)
  have inOrder := Document.inOrder_attributesNamed made uidAttribute
  have walked := Document.walk_attributesNamed made plain namespaces
  have read := Expr.ofString_anyAttribute (s := "//@uID") plain (by decide)
  have selected := Document.select_of_walk read walked
  rw [Document.hits_map_place inOrder.offered] at selected
  exact ⟨_, selected, inOrder.nodup, Document.uids_attributesNamed o.document⟩

/-- A session with a document of two elements that bear identifiers, in a default namespace and beside an attribute
that has the name with a qualifier. -/
def Session.labelled : Session :=
  ((Session.mk (.ofOptions .default) ⟨[], []⟩).call 0
    (.importText "<a xmlns='u' xmlns:p='v' uID='1'><p:b p:uID='2' uID='3'/></a>")).2

theorem Session.reachable_labelled : Session.labelled.Reachable := .call (.start .default ⟨[], []⟩) 0 _

/-- Only the attributes without a qualifier are listed and selected. -/
theorem select_uids_qualified : ∃ o, Session.labelled.store.document? 1 = some o ∧
    o.document.uids = [("1", ⟨1⟩), ("3", ⟨2⟩)] ∧
    ∃ i j, o.document.select [] "//@uID" = .ok [.attribute ⟨1⟩ i, .attribute ⟨2⟩ j] := by
  have evaluated : (Session.labelled.store.document? 1).map (·.document.uids) = some [("1", ⟨1⟩), ("3", ⟨2⟩)] := by
    decide +kernel
  obtain ⟨o, found, uids⟩ := Option.map_eq_some_iff.mp evaluated
  obtain ⟨hits, selected, -, entries⟩ := select_uids Session.reachable_labelled found []
  rw [uids] at entries
  cases entries with
  | cons first others =>
    cases others with
    | cons second others =>
      cases others
      obtain ⟨a, i, rfl, entry⟩ := first
      obtain ⟨b, j, rfl, entry'⟩ := second
      obtain ⟨-, rfl⟩ := Prod.mk.inj entry
      obtain ⟨-, rfl⟩ := Prod.mk.inj entry'
      exact ⟨o, found, uids, i, j, selected⟩

end XmlStore
