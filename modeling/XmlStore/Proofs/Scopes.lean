/-
The namespaces of names as they are read and as they are looked up. While a
document is read, a qualifier is resolved in the scope of the tags that are
open; in the document, it is looked up along the ancestors. Both go by the
nearest element that declares the qualifier. If this declares it more than
once, the first way takes the last declaration and the second way the first.
-/
import XmlStore.Document.Names
import XmlStore.Proofs.Reparse
import XmlStore.Proofs.Walks

namespace XmlStore

/-! ## The first list that is not empty -/

/-- The first list that is not empty, or the empty list. -/
def firstFilled {α : Type} (lists : List (List α)) : List α := (lists.find? (!·.isEmpty)).getD []

theorem firstFilled_eq_nil_or_mem {α : Type} (lists : List (List α)) :
    firstFilled lists = [] ∨ firstFilled lists ∈ lists := by
  rw [firstFilled]
  cases found : lists.find? (!·.isEmpty) with
  | none => exact .inl rfl
  | some l => exact .inr (List.mem_of_find?_eq_some found)

theorem findSome?_eq_firstFilled {α : Type} {pick : List α → Option α} (none : ∀ l, pick l = none ↔ l = [])
    (lists : List (List α)) : lists.findSome? pick = pick (firstFilled lists) := by
  induction lists with
  | nil => exact ((none []).mpr rfl).symm
  | cons l lists ih =>
    rw [List.findSome?_cons]
    cases l with
    | nil =>
      rw [(none []).mpr rfl]
      exact ih
    | cons a l =>
      cases picked : pick (a :: l) with
      | none => exact absurd ((none _).mp picked) (List.cons_ne_nil a l)
      | some b => exact picked.symm

/-- A list of things that are alike and not alike has one member at most. -/
theorem head?_eq_getLast? {α β : Type} {g : α → β} {l : List α} {b : β} (distinct : (l.map g).Nodup)
    (alike : ∀ a ∈ l, g a = b) : l.head? = l.getLast? := by
  match l with
  | [] => rfl
  | [a] => rfl
  | a :: a' :: others =>
    rw [List.map_cons, List.map_cons, alike a (by simp), alike a' (by simp)] at distinct
    exact absurd List.mem_cons_self (List.nodup_cons.mp distinct).1

/-! ## Names as they are read -/

/-- The names of a tag and of its attributes are in the namespaces that a scope has for their qualifiers. -/
structure Element.ResolvedIn (tag : Element) (scope : Scope) : Prop where
  name : tag.uri = scope.resolve tag.name.qualifier
  attributes : ∀ a ∈ tag.attributes, ∀ qualifier, a.name.qualifier = some qualifier →
    a.uri = scope.resolve (some qualifier)

theorem resolvedIn_resolveTag (scope : Scope) (tag : Element) : (scope.resolveTag tag).ResolvedIn scope := by
  refine ⟨rfl, fun a ha qualifier hq => ?_⟩
  obtain ⟨written, -, rfl⟩ := List.mem_map.mp ha
  have named : written.name.qualifier = some qualifier := hq
  rw [Scope.resolveAttribute, named]
  rfl

/-- Every tag of a forest is resolved in the scope of its own declarations and those around it. -/
def Forest.ResolvedIn (scope : Scope) : Forest Content → Prop
  | nil => True
  | cons content children rest =>
    (∀ tag, content = .element tag → tag.ResolvedIn (scope.enter tag.bindings)) ∧
      children.ResolvedIn (scope.enter content.bindings) ∧ rest.ResolvedIn scope

theorem resolvedIn_of_readable {options : ReadOptions} {depth : Nat} {scope : Scope} {afterText : Bool}
    {f : Forest Content} (readable : Readable options depth scope afterText f) : f.ResolvedIn scope := by
  induction readable with
  | nil => trivial
  | text filled valid others ih => exact ⟨nofun, trivial, ih⟩
  | leaf reread others ih =>
    refine ⟨?_, trivial, ih⟩
    rintro tag rfl
    cases reread
  | element low written inner others ihc ih =>
    refine ⟨?_, ihc, ih⟩
    rintro _ ⟨⟩
    exact resolvedIn_resolveTag _ _

theorem resolvedIn_leaves {scope : Scope} {contents : List Content} {f : Forest Content}
    (single : ∀ content ∈ contents, content.isElement = false) (others : f.ResolvedIn scope) :
    (leaves contents ++ f).ResolvedIn scope := by
  induction contents with
  | nil => exact others
  | cons content contents ih =>
    rw [List.forall_mem_cons] at single
    refine ⟨?_, trivial, ih single.2⟩
    rintro tag rfl
    cases single.1

theorem resolvedIn_readDocument {options : ReadOptions} {c : Cursor} {m : Markup}
    (read : readDocument options c = .ok m) : m.nodes.ResolvedIn Scope.initial := by
  obtain ⟨ahead, after, tag, children, nodes, hahead, hafter, -, -, inner⟩ := shape_of_readDocument read
  have behind : (leaves after ++ Forest.nil).ResolvedIn Scope.initial :=
    resolvedIn_leaves (fun content mem => isElement_of_aside (hafter content mem)) trivial
  rw [Forest.append_nil] at behind
  rw [nodes]
  refine resolvedIn_leaves (fun content mem => isElement_of_ahead (hahead content mem)) ⟨?_, ?_, behind⟩
  · rintro _ ⟨⟩
    exact resolvedIn_resolveTag _ _
  · rcases inner with rfl | ⟨p, q, hinner⟩
    · trivial
    · have readable : Readable options 1 _ false children := readable_readContentWithin nofun hinner
      exact resolvedIn_of_readable readable

namespace Document

variable {d : Document} {a p : NodeId} {f : Forest NodeId} {qualifier : Option String}

/-! ## Names as they are looked up -/

/-- The declarations of a qualifier on the nearest element, the node itself or one above it, that declares
it at all. -/
def declarations (d : Document) (id : NodeId) (qualifier : Option String) : List Binding :=
  firstFilled ((d.ancestors id).map fun a => (d.content a).bindings.filter (·.qualifier == qualifier))

/-- What is looked up is the first of these declarations. -/
theorem lookupNamespace_eq (d : Document) (id : NodeId) (qualifier : Option String) :
    d.lookupNamespace id qualifier = if qualifier = some "xml" then some xmlNamespace
      else ((d.declarations id qualifier).head?.map (·.uri)).filter (!·.isEmpty) := by
  have first : (d.scope id).find? (·.qualifier == qualifier) = (d.declarations id qualifier).head? := by
    rw [declarations, ← findSome?_eq_firstFilled fun l => List.head?_eq_none_iff, scope, List.find?_flatMap,
      List.findSome?_map]
    simp only [Function.comp_def, List.head?_filter]
  rw [lookupNamespace, first]

/-! ## Scopes -/

/-- The scope at a node of the tree: the declarations of the elements above it and its own, in which later
ones come first. -/
def scopeAt (d : Document) (id : NodeId) : Scope :=
  ((d.ancestors id).flatMap fun a => (d.content a).bindings.reverse) ++ Scope.initial

/-- What is resolved in the scope is the last of the nearest declarations. -/
theorem resolve_scopeAt (d : Document) (id : NodeId) (qualifier : Option String) :
    (d.scopeAt id).resolve qualifier =
      if d.declarations id qualifier = [] ∧ qualifier = some "xml" then some xmlNamespace
      else ((d.declarations id qualifier).getLast?.map (·.uri)).filter (!·.isEmpty) := by
  have last : ((d.ancestors id).flatMap fun a => (d.content a).bindings.reverse).find?
      (·.qualifier == qualifier) = (d.declarations id qualifier).getLast? := by
    rw [declarations, ← findSome?_eq_firstFilled fun l => List.getLast?_eq_none_iff, List.find?_flatMap,
      List.findSome?_map]
    refine congrArg (List.findSome? · _) (funext fun a => ?_)
    rw [Function.comp, ← List.head?_reverse, ← List.filter_reverse, List.head?_filter]
  rw [Scope.resolve, scopeAt, List.find?_append, last]
  by_cases none : d.declarations id qualifier = []
  · rw [none]
    by_cases xml : qualifier = some "xml"
    · rw [if_pos ⟨rfl, xml⟩, xml]
      rfl
    · have unknown : Scope.initial.find? (·.qualifier == qualifier) = Option.none := by
        simp [Scope.initial, Ne.symm xml]
      rw [if_neg (fun both => xml both.2), unknown]
      rfl
  · obtain ⟨b, hb⟩ := Option.ne_none_iff_exists'.mp (mt List.getLast?_eq_none_iff.mp none)
    rw [if_neg (fun both => none both.1), hb]
    rfl

theorem scopeAt_child (h : d.WellLinked) (hp : d.parent? a = some p) :
    d.scopeAt a = (d.scopeAt p).enter (d.content a).bindings := by
  rw [scopeAt, scopeAt, h.ancestors_eq hp, List.flatMap_cons, List.append_assoc]
  rfl

/-- The scopes in which a forest is resolved are those at its nodes. The induction is on the forest, with the
node above its trees. -/
theorem resolvedIn_scopeAt (h : d.WellLinked) (branches : d.Branches f)
    (roots : ∀ r ∈ f.roots, d.parent? r = some p) (resolved : (f.map d.content).ResolvedIn (d.scopeAt p)) :
    ∀ a ∈ f.preorder, ∀ tag, d.content a = .element tag → tag.ResolvedIn (d.scopeAt a) := by
  induction f generalizing p with
  | nil => exact nofun
  | cons id children rest ihc ihr =>
    obtain ⟨kids, inner, outer⟩ := branches
    obtain ⟨own, below, later⟩ := resolved
    rw [Forest.roots, List.forall_mem_cons] at roots
    have scope := scopeAt_child h roots.1
    rw [Forest.preorder, List.forall_mem_cons, List.forall_mem_append]
    refine ⟨fun tag here => ?_, ihc inner (fun r hr => ?_) (scope ▸ below), ihr outer roots.2 later⟩
    · rw [scope, here]
      exact own tag here
    · rw [kids] at hr
      exact (h.parent r id).mp hr

/-! ## Agreement -/

/-- Whether the declarations of a qualifier leave no doubt at a node: on the nearest element that declares it,
the first and the last of them are for the same namespace, and `xml` is declared for its own only. -/
def Settled (d : Document) (id : NodeId) (qualifier : Option String) : Prop :=
  if qualifier = some "xml" then ∀ b ∈ (d.declarations id qualifier).getLast?, b.uri = xmlNamespace
  else (d.declarations id qualifier).head?.map (·.uri) = (d.declarations id qualifier).getLast?.map (·.uri)

instance (d : Document) (id : NodeId) (qualifier : Option String) : Decidable (d.Settled id qualifier) :=
  inferInstanceAs (Decidable (if qualifier = some "xml" then
    ∀ b ∈ (d.declarations id qualifier).getLast?, b.uri = xmlNamespace else _ = _))

/-- Leaving out empty names of namespaces makes no two of them the same. -/
theorem filter_filled_inj {u v : String} :
    (some u).filter (!·.isEmpty) = (some v).filter (!·.isEmpty) ↔ u = v := by
  constructor
  · intro same
    by_cases filled : u = ""
    · subst filled
      by_contra ne
      have : v.isEmpty = false := by simpa using Ne.symm ne
      simp [Option.filter, this] at same
    · have : u.isEmpty = false := by simpa using filled
      rw [Option.filter_some, this] at same
      exact ((Option.filter_eq_some_iff.mp same.symm).1 |> Option.some.inj).symm
  · rintro rfl
    rfl

theorem settled_iff (d : Document) (id : NodeId) (qualifier : Option String) :
    d.Settled id qualifier ↔ (d.scopeAt id).resolve qualifier = d.lookupNamespace id qualifier := by
  rw [Settled, resolve_scopeAt, lookupNamespace_eq]
  cases declared : d.declarations id qualifier with
  | nil =>
    by_cases xml : qualifier = some "xml"
    · rw [if_pos xml, if_pos xml, if_pos ⟨rfl, xml⟩]
      exact iff_of_true nofun rfl
    · rw [if_neg xml, if_neg xml, if_neg (fun both => xml both.2)]
      exact iff_of_true rfl rfl
  | cons first others =>
    obtain ⟨last, hlast⟩ := Option.ne_none_iff_exists'.mp (mt List.getLast?_eq_none_iff.mp (List.cons_ne_nil first others))
    rw [if_neg (fun both : first :: others = [] ∧ _ => List.cons_ne_nil _ _ both.1), hlast]
    by_cases xml : qualifier = some "xml"
    · rw [if_pos xml, if_pos xml]
      have named : some xmlNamespace = (some xmlNamespace).filter (!·.isEmpty) := by decide
      rw [named, Option.map_some, filter_filled_inj]
      simp
    · rw [if_neg xml, if_neg xml, List.head?_cons, Option.map_some, Option.map_some, filter_filled_inj]
      exact ⟨fun same => (Option.some.inj same).symm, fun same => congrArg some same.symm⟩

theorem declarations_eq_nil_or (d : Document) (id : NodeId) (qualifier : Option String) :
    d.declarations id qualifier = [] ∨ ∃ a ∈ d.ancestors id,
      d.declarations id qualifier = (d.content a).bindings.filter (·.qualifier == qualifier) := by
  rcases firstFilled_eq_nil_or_mem
    ((d.ancestors id).map fun a => (d.content a).bindings.filter (·.qualifier == qualifier)) with none | mem
  · exact .inl none
  · obtain ⟨a, above, same⟩ := List.mem_map.mp mem
    exact .inr ⟨a, above, same.symm⟩

/-- There is no doubt where no tag declares a qualifier twice and none declares `xml` for another namespace. -/
theorem settled_of_distinct {id : NodeId}
    (distinct : ∀ a ∈ d.ancestors id, ((d.content a).bindings.map (·.qualifier)).Nodup)
    (reserved : ∀ a ∈ d.ancestors id, ∀ b ∈ (d.content a).bindings, b.qualifier = some "xml" → b.uri = xmlNamespace) :
    d.Settled id qualifier := by
  rw [Settled]
  rcases d.declarations_eq_nil_or id qualifier with none | ⟨a, above, own⟩
  · rw [none]
    split
    · exact nofun
    · rfl
  · split
    · rename_i xml
      intro b hb
      have mem := List.mem_of_getLast? hb
      rw [own, List.mem_filter, beq_iff_eq, xml] at mem
      exact reserved a above b mem.1 mem.2
    · rw [own]
      have few := (List.filter_sublist (p := (·.qualifier == qualifier)).map Binding.qualifier).nodup (distinct a above)
      rw [head?_eq_getLast? few fun b mem => beq_iff_eq.mp (List.mem_filter.mp mem).2]

end Document

/-- In every document that is read from a text, the namespace of an element is what its qualifier stands for
when it is looked up there, and that of an attribute with a qualifier likewise, if and only if the nearest
declarations of the qualifier leave no doubt. -/
theorem ofString_namespaces {options : ReadOptions} {s : String} {d : Document}
    (read : Document.ofString options s = .ok d) {id : NodeId} (attached : d.Attached id) {tag : Element}
    (element : d.content id = .element tag) :
    (d.Settled id tag.name.qualifier ↔ tag.uri = d.lookupNamespace id tag.name.qualifier) ∧
      ∀ a ∈ tag.attributes, ∀ qualifier, a.name.qualifier = some qualifier →
        (d.Settled id (some qualifier) ↔ a.uri = d.lookupNamespace id (some qualifier)) := by
  obtain ⟨m, markup, rfl⟩ := Document.ofString_ok.mp read
  have rooted := Document.rooted_ofMarkup m
  have top : (Document.ofMarkup m).content Document.root = .document :=
    (Document.grown_ofMarkup m).content _ Nat.zero_lt_one
  have order := rooted.mem_documentOrder.mpr attached
  rw [Document.documentOrder_eq rooted.wellLinked rooted.has_root] at order
  have resolved : tag.ResolvedIn ((Document.ofMarkup m).scopeAt id) := by
    rcases List.mem_cons.mp order with rfl | below
    · rw [top] at element
      cases element
    · refine Document.resolvedIn_scopeAt rooted.wellLinked (rooted.wellLinked.branches_below rooted.has_root)
        (p := Document.root) (fun r hr => ?_) ?_ id below tag element
      · rw [Document.roots_below rooted.wellLinked rooted.has_root] at hr
        exact (rooted.wellLinked.parent r Document.root).mp hr
      · have initial : (Document.ofMarkup m).scopeAt Document.root = Scope.initial := by
          rw [Document.scopeAt, rooted.wellLinked.ancestors_of_top rooted.has_root rooted.parent_root,
            List.flatMap_singleton, top]
          rfl
        have nodes : ((Document.ofMarkup m).below Document.root).map (Document.ofMarkup m).content = m.nodes :=
          Document.contents_ofMarkup m
        rw [initial, nodes]
        exact resolvedIn_readDocument markup
  refine ⟨?_, fun a ha qualifier hq => ?_⟩
  · rw [resolved.name]
    exact Document.settled_iff _ id _
  · rw [resolved.attributes a ha qualifier hq]
    exact Document.settled_iff _ id _

/-- A declaration that is in force for an element below and for its attribute. -/
theorem ofString_namespaces_inherited : ∃ d tag,
    Document.ofString .default "<a xmlns:p='u'><p:b p:c='1'/></a>" = .ok d ∧
      d.content ⟨2⟩ = .element tag ∧ tag.uri = some "u" ∧ tag.uri = d.lookupNamespace ⟨2⟩ (some "p") ∧
        ∀ a ∈ tag.attributes, a.uri = d.lookupNamespace ⟨2⟩ (some "p") := by
  let top : Element := ⟨⟨none, "a"⟩, none, [⟨some "p", "u"⟩], []⟩
  let tag : Element := ⟨⟨some "p", "b"⟩, some "u", [], [⟨⟨some "p", "c"⟩, "1", some "u"⟩]⟩
  let m : Markup := ⟨.absent, .cons (.element top) (leaves [.element tag]) .nil, []⟩
  have parsed : Markup.ofString .default "<a xmlns:p='u'><p:b p:c='1'/></a>" = .ok m := by
    decide +kernel
  have read := Document.ofString_ok.mpr ⟨m, parsed, rfl⟩
  have attached : (Document.ofMarkup m).Attached ⟨2⟩ :=
    (Document.rooted_ofMarkup m).mem_documentOrder.mp (by decide +kernel)
  have element : (Document.ofMarkup m).content ⟨2⟩ = .element tag := by
    decide +kernel
  have settled : (Document.ofMarkup m).Settled ⟨2⟩ (some "p") := by
    decide +kernel
  obtain ⟨own, attributes⟩ := ofString_namespaces read attached element
  refine ⟨_, tag, read, element, rfl, own.mp settled, fun a ha => ?_⟩
  have named : a.name.qualifier = some "p" := by rw [List.mem_singleton.mp ha]
  exact (attributes a ha "p" named).mp settled

/-- Of two declarations on one tag, the last is read and the first is looked up. -/
theorem namespaces_declared_twice : ∃ d tag,
    Document.ofString .default "<a xmlns:p='u' xmlns:p='v'><p:b/></a>" = .ok d ∧ d.Attached ⟨2⟩ ∧
      d.content ⟨2⟩ = .element tag ∧ tag.name.qualifier = some "p" ∧
        tag.uri = some "v" ∧ d.lookupNamespace ⟨2⟩ (some "p") = some "u" := by
  let top : Element := ⟨⟨none, "a"⟩, none, [⟨some "p", "u"⟩, ⟨some "p", "v"⟩], []⟩
  let tag : Element := ⟨⟨some "p", "b"⟩, some "v", [], []⟩
  let m : Markup := ⟨.absent, .cons (.element top) (leaves [.element tag]) .nil, []⟩
  have parsed : Markup.ofString .default "<a xmlns:p='u' xmlns:p='v'><p:b/></a>" = .ok m := by
    decide +kernel
  have attached : (Document.ofMarkup m).Attached ⟨2⟩ :=
    (Document.rooted_ofMarkup m).mem_documentOrder.mp (by decide +kernel)
  have element : (Document.ofMarkup m).content ⟨2⟩ = .element tag := by
    decide +kernel
  have first : (Document.ofMarkup m).lookupNamespace ⟨2⟩ (some "p") = some "u" := by
    decide +kernel
  exact ⟨_, tag, Document.ofString_ok.mpr ⟨m, parsed, rfl⟩, attached, element, rfl, rfl, first⟩

end XmlStore
