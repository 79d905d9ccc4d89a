/-
Declarations of namespaces, and what a new one changes. A qualifier stands for
what the nearest element that declares it first declares it for. So when an
element declares it anew, this is what it stands for wherever no element on the
way declares it too, and nowhere else. The namespaces in which the names of the
document are held stay as they were.
-/
import XmlStore.Proofs.Scopes

namespace XmlStore

/-- The qualifiers of the names of a tag, each with the namespace of the name. Attributes without a qualifier
are in no namespace, whatever is declared, and are left out. -/
def Element.names (tag : Element) : List (Option String × Option String) :=
  (tag.name.qualifier, tag.uri) ::
    tag.attributes.filterMap fun a => a.name.qualifier.map fun qualifier => (some qualifier, a.uri)

theorem Element.names_bind (tag : Element) (qualifier : Option String) (uri : String) :
    (tag.bind qualifier uri).names = tag.names := by
  rw [bind]
  split <;> rfl

namespace Document

variable {d : Document} {a e n : NodeId} {qualifier other : Option String} {uri : String} {tag : Element}

/-! ## Declarations in force -/

/-- The namespace for which a node itself declares a qualifier. -/
def binding? (d : Document) (id : NodeId) (qualifier : Option String) : Option String :=
  (d.content id).element?.bind (·.binding? qualifier)

/-- The namespace for which a qualifier is declared at a node or, if it is not declared there, above it. -/
def declared? (d : Document) (id : NodeId) (qualifier : Option String) : Option String :=
  (d.ancestors id).findSome? (d.binding? · qualifier)

/-- The qualifiers of the names at a node, each with the namespace of the name. -/
def names (d : Document) (id : NodeId) : List (Option String × Option String) :=
  ((d.content id).element?.map (·.names)).getD []

/-- Every name in the tree is in the namespace that its qualifier stands for there. -/
def Consistent (d : Document) : Prop :=
  ∀ id, d.Attached id → ∀ name ∈ d.names id, name.2 = d.lookupNamespace id name.1

/-- Whether a declaration of a qualifier by the node `e` is in force at another node, or would be: from there
upwards, no node before `e` declares the qualifier. -/
def Governs (d : Document) (e : NodeId) (qualifier : Option String) (n : NodeId) : Prop :=
  (d.ancestors n).find? (fun a => a == e || (d.binding? a qualifier).isSome) = some e

instance (d : Document) (e : NodeId) (qualifier : Option String) (n : NodeId) :
    Decidable (d.Governs e qualifier n) :=
  inferInstanceAs (Decidable (_ = _))

theorem Rooted.consistent_iff (h : d.Rooted) :
    d.Consistent ↔ ∀ id ∈ d.documentOrder, ∀ name ∈ d.names id, name.2 = d.lookupNamespace id name.1 :=
  forall_congr' fun _ => imp_congr_left h.mem_documentOrder.symm

theorem lookupNamespace_eq_declared (d : Document) (id : NodeId) (qualifier : Option String) :
    d.lookupNamespace id qualifier = if qualifier = some "xml" then some xmlNamespace
      else (d.declared? id qualifier).filter (!·.isEmpty) := by
  have nearest : ((d.scope id).find? (·.qualifier == qualifier)).map (·.uri) = d.declared? id qualifier := by
    rw [scope, List.find?_flatMap, List.map_findSome?, declared?]
    refine congrArg (List.findSome? · _) (funext fun a => ?_)
    rw [Function.comp, binding?, Content.bindings]
    cases (d.content a).element? <;> rfl
  rw [lookupNamespace, nearest]

/-- What is not declared at a node is what it is above it. -/
theorem declared?_eq (h : d.WellLinked) (has : d.Has a) :
    d.declared? a qualifier = (d.binding? a qualifier).or ((d.parent? a).bind (d.declared? · qualifier)) := by
  rw [declared?]
  cases parent : d.parent? a with
  | none =>
    rw [h.ancestors_of_top has parent, List.findSome?_singleton, Option.bind_none, Option.or_none]
  | some p =>
    rw [h.ancestors_eq parent, List.findSome?_cons, Option.bind_some, declared?]
    cases d.binding? a qualifier <;> rfl

/-- Where a declaration of the node would be in force, the qualifier stands for what it stands for at it. -/
theorem declared?_of_governs (h : d.WellLinked) (has : d.Has n) (governs : d.Governs e qualifier n) :
    d.declared? n qualifier = d.declared? e qualifier := by
  obtain ⟨-, before, above, place, passed⟩ := List.find?_eq_some_iff_append.mp governs
  have hasE : d.Has e := h.has_ancestor has (place ▸ List.mem_append_right before List.mem_cons_self)
  have onwards : e :: above = d.ancestors e := ((h.ancestors has).drop_to place).unique (h.ancestors hasE)
  have undeclared : before.findSome? (d.binding? · qualifier) = none := by
    refine List.findSome?_eq_none_iff.mpr fun a mem => ?_
    have neither := passed a mem
    rw [Bool.not_eq_true', Bool.or_eq_false_iff] at neither
    exact Option.isSome_eq_false_iff.mp neither.2 |> Option.isNone_iff_eq_none.mp
  rw [declared?, place, List.findSome?_append, undeclared, Option.none_or, onwards, declared?]

/-! ## A declaration that is new -/

theorem binding?_bind (has : d.Has e) (element : d.content e = .element tag) :
    (d.bind e qualifier uri).binding? a other =
      if a = e ∧ other = qualifier then some uri else d.binding? a other := by
  rw [binding?, bind, modifyTag, content_modifyContent has]
  by_cases here : a = e
  · subst here
    rw [if_pos rfl, element]
    by_cases same : other = qualifier
    · rw [if_pos ⟨rfl, same⟩, same]
      exact tag.binding?_bind qualifier uri
    · rw [if_neg fun both => same both.2, binding?, element]
      exact tag.binding?_bind_of_ne same uri
  · rw [if_neg here, if_neg fun both => here both.1, binding?]

/-- The first of a list for which something is found, after it has come to be found for one of them. -/
theorem findSome?_update {g : NodeId → Option String} (l : List NodeId) (e : NodeId) (v : String) :
    l.findSome? (fun a => if a = e then some v else g a) =
      if l.find? (fun a => a == e || (g a).isSome) = some e then some v else l.findSome? g := by
  induction l with
  | nil => rfl
  | cons a l ih =>
    rw [List.findSome?_cons, List.findSome?_cons, List.find?_cons]
    by_cases here : a = e
    · rw [if_pos here, beq_iff_eq.mpr here]
      exact (if_pos (congrArg some here)).symm
    · rw [if_neg here, beq_false_of_ne here, Bool.false_or]
      cases g a with
      | none => exact ih
      | some w => exact (if_neg fun same => here (Option.some.inj same)).symm

theorem declared?_bind (has : d.Has e) (element : d.content e = .element tag) :
    (d.bind e qualifier uri).declared? n other =
      if other = qualifier ∧ d.Governs e qualifier n then some uri else d.declared? n other := by
  have above : (d.bind e qualifier uri).ancestors n = d.ancestors n := ancestors_modifyTag _ _
  simp only [declared?, above, binding?_bind has element]
  by_cases same : other = qualifier
  · simp only [same, and_true, true_and, findSome?_update, Governs]
  · simp only [same, and_false, false_and, if_false]

/-- A new declaration changes what the qualifier stands for exactly where it is in force. -/
theorem lookupNamespace_bind (has : d.Has e) (element : d.content e = .element tag) (filled : uri ≠ "") :
    (d.bind e qualifier uri).lookupNamespace n other =
      if other = qualifier ∧ other ≠ some "xml" ∧ d.Governs e qualifier n then some uri
      else d.lookupNamespace n other := by
  rw [lookupNamespace_eq_declared, lookupNamespace_eq_declared, declared?_bind has element]
  have kept : (some uri).filter (!·.isEmpty) = some uri := by simpa [Option.filter] using filled
  by_cases xml : other = some "xml"
  · rw [if_pos xml, if_pos xml, if_neg fun all => all.2.1 xml]
  · rw [if_neg xml, if_neg xml]
    by_cases there : other = qualifier ∧ d.Governs e qualifier n
    · rw [if_pos there, if_pos ⟨there.1, xml, there.2⟩, kept]
    · rw [if_neg there, if_neg fun all => there ⟨all.1, all.2.2⟩]

theorem names_bind (has : d.Has e) : (d.bind e qualifier uri).names n = d.names n := by
  rw [names, bind, modifyTag, content_modifyContent has]
  split
  · rename_i here
    rw [here, names]
    cases d.content e with
    | element tag => exact tag.names_bind qualifier uri
    | _ => rfl
  · rfl

/-- The names that do not agree with the declarations after a new one are those with its qualifier where it is
in force. -/
theorem agrees_bind_iff (h : d.WellLinked) (has : d.Has e) (element : d.content e = .element tag)
    (filled : uri ≠ "") (differs : d.lookupNamespace e qualifier ≠ some uri) (hn : d.Has n)
    {name : Option String × Option String} (agrees : name.2 = d.lookupNamespace n name.1) :
    name.2 = (d.bind e qualifier uri).lookupNamespace n name.1 ↔
      ¬ (name.1 = qualifier ∧ name.1 ≠ some "xml" ∧ d.Governs e qualifier n) := by
  rw [lookupNamespace_bind has element filled]
  split
  · rename_i there
    refine iff_of_false (fun same => differs ?_) (not_not_intro there)
    have likewise : d.lookupNamespace n qualifier = d.lookupNamespace e qualifier := by
      rw [lookupNamespace_eq_declared, lookupNamespace_eq_declared, declared?_of_governs h hn there.2.2]
    rw [← likewise, ← there.1, ← agrees, same]
  · rename_i elsewhere
    exact iff_of_true agrees elsewhere

theorem consistent_bind_iff (h : d.WellLinked) (has : d.Has e) (element : d.content e = .element tag)
    (filled : uri ≠ "") (differs : d.lookupNamespace e qualifier ≠ some uri) (consistent : d.Consistent) :
    (d.bind e qualifier uri).Consistent ↔ qualifier = some "xml" ∨
      ∀ n, d.Attached n → d.Governs e qualifier n → ∀ name ∈ d.names n, name.1 ≠ qualifier := by
  have agrees {n : NodeId} (attached : d.Attached n) {name : Option String × Option String} (mem : name ∈ d.names n) :=
    agrees_bind_iff h has element filled differs attached.has (consistent n attached name mem)
  constructor
  · intro after
    refine or_iff_not_imp_left.mpr fun other n attached governs name mem same => ?_
    have kept := after n (attached_modifyTag.mpr attached) name (names_bind has ▸ mem)
    exact (agrees attached mem).mp kept ⟨same, same ▸ other, governs⟩
  · intro unused n attached name mem
    have attached := attached_modifyTag.mp attached
    rw [names_bind has] at mem
    refine (agrees attached mem).mpr fun ⟨same, other, governs⟩ => ?_
    rcases unused with xml | unused
    · exact other (same.trans xml)
    · exact unused n attached governs name mem same

/-! ## An element that is put into a namespace -/

/-- Whether an element that is put into a namespace gets no declaration of it: above the element the qualifier
stands for it, or the element has such a declaration, be it behind another one of the qualifier. -/
def Provided (d : Document) (id : NodeId) (qualifier : Option String) (uri : String) : Prop :=
  (d.parent? id).bind (d.lookupNamespace · qualifier) = some uri ∨ ⟨qualifier, uri⟩ ∈ (d.content id).bindings

instance (d : Document) (id : NodeId) (qualifier : Option String) (uri : String) :
    Decidable (d.Provided id qualifier uri) :=
  inferInstanceAs (Decidable (_ ∨ _))

/-- The document in which an element has been put into a namespace. -/
def inNamespace (d : Document) (id : NodeId) (qualifier : Option String) (uri : String) : Document :=
  (if d.Provided id qualifier uri then d else d.bind id qualifier uri).setNamespace id qualifier (some uri)

/-- Whether the declarations at an element keep it out of a namespace: the first one of the qualifier is for
another, and none is added. -/
def Obstructed (d : Document) (id : NodeId) (qualifier : Option String) (uri : String) : Prop :=
  (∃ other ∈ d.binding? id qualifier, other ≠ uri) ∧ d.Provided id qualifier uri

theorem lookupNamespace_setNamespace {named : Option String} (has : d.Has e) :
    (d.setNamespace e qualifier named).lookupNamespace n other = d.lookupNamespace n other := by
  have own (a : NodeId) : (d.setNamespace e qualifier named).binding? a other = d.binding? a other := by
    rw [binding?, setNamespace, modifyTag, content_modifyContent has]
    split
    · rename_i here
      rw [here, binding?]
      cases d.content e <;> rfl
    · rfl
  have above : (d.setNamespace e qualifier named).ancestors n = d.ancestors n := ancestors_modifyTag _ _
  rw [lookupNamespace_eq_declared, lookupNamespace_eq_declared, declared?, above, declared?]
  simp only [own]

theorem binding?_ne_none (declared : ⟨qualifier, uri⟩ ∈ (d.content e).bindings) : d.binding? e qualifier ≠ none := by
  rw [Content.bindings] at declared
  rw [binding?]
  cases element : (d.content e).element? with
  | none =>
    rw [element] at declared
    cases declared
  | some tag =>
    rw [element] at declared
    rw [Option.bind_some, Element.binding?, Ne, Option.map_eq_none_iff, List.find?_eq_none]
    exact fun none => none _ declared (beq_self_eq_true qualifier)

/-- Where nothing has to be declared, the qualifier stands for the namespace unless another declaration comes
first. -/
theorem lookupNamespace_of_provided (h : d.WellLinked) (has : d.Has e) (filled : uri ≠ "")
    (other : qualifier ≠ some "xml") (provided : d.Provided e qualifier uri) :
    d.lookupNamespace e qualifier = some uri ↔ ∀ v ∈ d.binding? e qualifier, v = uri := by
  have kept : (some uri).filter (!·.isEmpty) = some uri := by simpa [Option.filter] using filled
  rw [lookupNamespace_eq_declared, if_neg other, declared?_eq h has]
  cases own : d.binding? e qualifier with
  | some v =>
    rw [Option.some_or, ← kept, filter_filled_inj]
    simp
  | none =>
    refine iff_of_true ?_ nofun
    rcases provided with inherited | declared
    · rw [Option.none_or, ← inherited]
      simp only [lookupNamespace_eq_declared, if_neg other]
      cases d.parent? e <;> rfl
    · exact absurd own (binding?_ne_none declared)

theorem governs_self (h : d.WellLinked) (has : d.Has e) : d.Governs e qualifier e := by
  obtain ⟨above, path⟩ := List.head?_eq_some_iff.mp (h.ancestors has).head?_eq
  rw [Governs, path, List.find?_cons, beq_self_eq_true, Bool.true_or]

/-- An element that has been put into a namespace is in the namespace its qualifier stands for, unless this is
reserved for another or a declaration at the element is in the way. -/
theorem lookupNamespace_inNamespace (h : d.WellLinked) (has : d.Has e) (element : d.content e = .element tag)
    (filled : uri ≠ "") : (d.inNamespace e qualifier uri).lookupNamespace e qualifier = some uri ↔
      if qualifier = some "xml" then uri = xmlNamespace else ¬ d.Obstructed e qualifier uri := by
  have has' : (d.bind e qualifier uri).Has e := (has_modifyTag e _).mpr has
  by_cases reserved : qualifier = some "xml"
  · rw [lookupNamespace_eq_declared, if_pos reserved, if_pos reserved, Option.some.injEq]
    exact eq_comm
  · rw [if_neg reserved, inNamespace, Obstructed]
    by_cases provided : d.Provided e qualifier uri
    · rw [if_pos provided, lookupNamespace_setNamespace has, lookupNamespace_of_provided h has filled reserved provided]
      simp only [provided, and_true, not_exists, not_and, ne_eq, not_not]
    · rw [if_neg provided, lookupNamespace_setNamespace has', lookupNamespace_bind has element filled,
        if_pos ⟨rfl, reserved, governs_self h has⟩]
      exact iff_of_true rfl fun both => provided both.2

/-- At an element without declarations none is in the way. -/
theorem not_obstructed (element : d.content e = .element tag) (undeclared : tag.bindings = [])
    (qualifier : Option String) (uri : String) : ¬ d.Obstructed e qualifier uri := by
  have none : d.binding? e qualifier = none := by
    rw [binding?, element, Content.element?, Option.bind_some, Element.binding?, undeclared]
    rfl
  simp [Obstructed, none]

theorem parent?_inNamespace : (d.inNamespace e qualifier uri).parent? n = d.parent? n := by
  have same {d : Document} {f : Element → Element} : (d.modifyTag e f).parent? n = d.parent? n :=
    target_modifyContent _
  rw [inNamespace, setNamespace, same]
  split
  · rfl
  · exact same

theorem content_inNamespace (has : d.Has e) (element : d.content e = .element tag) (qualifier : Option String)
    (uri : String) : ∃ tag' : Element, (d.inNamespace e qualifier uri).content e = .element tag' ∧
      tag'.name = { tag.name with qualifier } ∧ tag'.uri = some uri := by
  rw [inNamespace]
  split
  · rw [setNamespace, modifyTag, content_modifyContent has, if_pos rfl, element]
    exact ⟨_, rfl, rfl, rfl⟩
  · have has' : (d.bind e qualifier uri).Has e := (has_modifyTag e _).mpr has
    have bound : (d.bind e qualifier uri).content e = .element (tag.bind qualifier uri) := by
      rw [bind, modifyTag, content_modifyContent has, if_pos rfl, element]
      rfl
    have name : (tag.bind qualifier uri).name = tag.name := by
      rw [Element.bind]
      split <;> rfl
    rw [setNamespace, modifyTag, content_modifyContent has', if_pos rfl, bound]
    exact ⟨_, rfl, congrArg ({ · with qualifier }) name, rfl⟩

end Document

end XmlStore
