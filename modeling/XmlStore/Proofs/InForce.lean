/-
From a namespace back to a qualifier. The qualifiers that stand for a namespace
at a node are those whose nearest declaration, from the node upwards, is for
it. One of them is found if there is any, and nothing else is found: what a
nearer element declares anew is passed over.
-/
import XmlStore.Proofs.Bindings

namespace XmlStore

namespace Document

variable {d : Document} {id : NodeId} {qualifier : Option String} {uri : String}

/-- The first element that declares the qualifier, from the node upwards, declares it for the namespace. -/
inductive InForce (d : Document) : NodeId → Option String → String → Prop where
  | own {id : NodeId} {qualifier : Option String} {uri : String} (declared : d.binding? id qualifier = some uri) :
    InForce d id qualifier uri
  | inherited {id p : NodeId} {qualifier : Option String} {uri : String}
    (undeclared : d.binding? id qualifier = none) (above : d.parent? id = some p)
    (onward : InForce d p qualifier uri) : InForce d id qualifier uri

/-- What is in force hides all that is declared farther up. -/
theorem InForce.unique {other : String} (force : d.InForce id qualifier uri)
    (force' : d.InForce id qualifier other) : uri = other := by
  induction force with
  | own declared =>
    cases force' with
    | own declared' => exact Option.some.inj (declared.symm.trans declared')
    | inherited undeclared => cases undeclared.symm.trans declared
  | inherited undeclared above _ ih =>
    cases force' with
    | own declared => cases undeclared.symm.trans declared
    | inherited _ above' onward =>
      cases Option.some.inj (above.symm.trans above')
      exact ih onward

theorem inForce_of_declared? (h : d.WellLinked) (has : d.Has id) (declared : d.declared? id qualifier = some uri) :
    d.InForce id qualifier uri := by
  -- The induction is on the ancestors, of which there is one less with every step upwards.
  induction ids : d.ancestors id generalizing id with
  | nil =>
    rw [declared?, ids] at declared
    cases declared
  | cons first above ih =>
    rw [declared?_eq h has] at declared
    cases own : d.binding? id qualifier with
    | some uri' =>
      rw [own] at declared
      cases declared
      exact .own own
    | none =>
      rw [own, Option.none_or, Option.bind_eq_some_iff] at declared
      obtain ⟨p, parent, declared⟩ := declared
      rw [h.ancestors_eq parent] at ids
      exact .inherited own parent (ih (h.has_parent parent) declared (List.cons.inj ids).2)

theorem InForce.declared?_eq (force : d.InForce id qualifier uri) (h : d.WellLinked) (has : d.Has id) :
    d.declared? id qualifier = some uri := by
  induction force with
  | own declared => rw [Document.declared?_eq h has, declared, Option.some_or]
  | inherited undeclared above _ ih =>
    rw [Document.declared?_eq h has, undeclared, above, Option.none_or, Option.bind_some]
    exact ih (h.has_parent above)

/-- A qualifier stands for a namespace exactly if its declaration for it is in force. -/
theorem lookupNamespace_eq_some_iff (h : d.WellLinked) (has : d.Has id) (filled : uri ≠ "")
    (free : qualifier ≠ some "xml") : d.lookupNamespace id qualifier = some uri ↔ d.InForce id qualifier uri := by
  rw [lookupNamespace_eq_declared, if_neg free, Option.filter_eq_some_iff]
  refine ⟨fun looked => inForce_of_declared? h has looked.1, fun force => ⟨force.declared?_eq h has, ?_⟩⟩
  simpa using filled

/-- Whatever is found stands for the namespace. -/
theorem lookupNamespace_of_lookupQualifier (found : d.lookupQualifier id uri = some qualifier) :
    d.lookupNamespace id qualifier = some uri := by
  obtain ⟨b, first, rfl⟩ := Option.map_eq_some_iff.mp found
  have stands := List.find?_some first
  rw [Bool.and_eq_true, beq_iff_eq, beq_iff_eq] at stands
  exact stands.2

/-- What stands for a namespace is declared for it somewhere in scope, so that something is found. -/
theorem lookupQualifier_ne_none (free : qualifier ≠ some "xml") (stands : d.lookupNamespace id qualifier = some uri) :
    d.lookupQualifier id uri ≠ none := by
  have looked := stands
  rw [lookupNamespace, if_neg free, Option.filter_eq_some_iff] at looked
  obtain ⟨b, first, rfl⟩ := Option.map_eq_some_iff.mp looked.1
  have same : b.qualifier = qualifier := by simpa using List.find?_some first
  rw [lookupQualifier, Ne, Option.map_eq_none_iff, List.find?_eq_none]
  intro none
  refine none b (List.mem_of_find?_eq_some first) ?_
  rw [same, stands, Bool.and_eq_true]
  exact ⟨beq_self_eq_true _, beq_self_eq_true _⟩

/-- The qualifiers but `xml`, which is reserved, stand for the namespaces for which their declarations in force
are. One that is found for a namespace stands for it, and is not found if another declaration hides the one for
it; none is found only if none stands for it. -/
theorem lookupQualifier_spec (h : d.WellLinked) (has : d.Has id) (filled : uri ≠ "") :
    (∀ qualifier, qualifier ≠ some "xml" →
      (d.lookupNamespace id qualifier = some uri ↔ d.InForce id qualifier uri)) ∧
    (∀ qualifier, d.lookupQualifier id uri = some qualifier → d.lookupNamespace id qualifier = some uri ∧
      (qualifier ≠ some "xml" → d.InForce id qualifier uri)) ∧
    (∀ qualifier other, qualifier ≠ some "xml" → d.InForce id qualifier other → other ≠ uri →
      d.lookupQualifier id uri ≠ some qualifier) ∧
    (d.lookupQualifier id uri = none →
      ∀ qualifier, qualifier ≠ some "xml" → d.lookupNamespace id qualifier ≠ some uri) := by
  have force {qualifier : Option String} (found : d.lookupQualifier id uri = some qualifier)
      (free : qualifier ≠ some "xml") : d.InForce id qualifier uri :=
    (lookupNamespace_eq_some_iff h has filled free).mp (lookupNamespace_of_lookupQualifier found)
  refine ⟨fun _ free => lookupNamespace_eq_some_iff h has filled free, fun qualifier found => ?_,
    fun qualifier other free hides ne found => ?_, ?_⟩
  · exact ⟨lookupNamespace_of_lookupQualifier found, force found⟩
  · exact ne (hides.unique (force found free))
  · exact fun none qualifier free stands => lookupQualifier_ne_none free stands none

/-- A declaration that is hidden by a nearer one of the same qualifier, that one, and one for what has no
qualifier. -/
theorem lookupQualifier_spec_hidden : ∃ d,
    Document.ofString .default "<a xmlns:x='u' xmlns='w'><b xmlns:x='v'/></a>" = .ok d ∧
      d.lookupQualifier ⟨2⟩ "u" = none ∧ (∀ q, q ≠ some "xml" → d.lookupNamespace ⟨2⟩ q ≠ some "u") ∧
      d.lookupQualifier ⟨2⟩ "v" = some (some "x") ∧ d.InForce ⟨2⟩ (some "x") "v" ∧
      d.lookupQualifier ⟨2⟩ "w" = some none ∧ d.InForce ⟨2⟩ none "w" := by
  let outer : Element := ⟨⟨none, "a"⟩, some "w", [⟨some "x", "u"⟩, ⟨none, "w"⟩], []⟩
  let inner : Element := ⟨⟨none, "b"⟩, some "w", [⟨some "x", "v"⟩], []⟩
  let m : Markup := ⟨.absent, .cons (.element outer) (leaves [.element inner]) .nil, []⟩
  have parsed : Markup.ofString .default "<a xmlns:x='u' xmlns='w'><b xmlns:x='v'/></a>" = .ok m := by
    decide +kernel
  have rooted := Document.rooted_ofMarkup m
  have linked := rooted.wellLinked
  have has := (rooted.mem_documentOrder.mp (show ⟨2⟩ ∈ (Document.ofMarkup m).documentOrder by decide +kernel)).has
  have hidden : (Document.ofMarkup m).lookupQualifier ⟨2⟩ "u" = none := by decide +kernel
  have nearest : (Document.ofMarkup m).lookupQualifier ⟨2⟩ "v" = some (some "x") := by decide +kernel
  have unqualified : (Document.ofMarkup m).lookupQualifier ⟨2⟩ "w" = some none := by decide +kernel
  refine ⟨_, Document.ofString_ok.mpr ⟨m, parsed, rfl⟩, hidden, ?_, nearest, ?_, unqualified, ?_⟩
  · exact (lookupQualifier_spec linked has (by decide)).2.2.2 hidden
  · exact ((lookupQualifier_spec linked has (by decide)).2.1 _ nearest).2 (by decide)
  · exact ((lookupQualifier_spec linked has (by decide)).2.1 _ unqualified).2 (by decide)

end Document

end XmlStore
