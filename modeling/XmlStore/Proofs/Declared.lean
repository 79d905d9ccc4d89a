/-
The calls that put elements into namespaces, and the one that declares a
qualifier. The namespace of a name is held with it, whereas a document is
written with the declarations. The calls here come to what `Bindings` says
about the edits, so that it is known when the two agree afterwards.
-/
import XmlStore.Proofs.Bindings
import XmlStore.Proofs.Identified

namespace XmlStore

open Tracked (Ensures)

/-! ## The edits -/

namespace Edit

variable {P R : OpenDocument → Prop} {o : OpenDocument} {id p : NodeId} {ids : List NodeId}
variable {path name uri qualifier : String}

/-- The element at a path has been put into a namespace. -/
def NamespaceSet (o : OpenDocument) (path : String) (qualifier : Option String) (uri : String) (d : Document) : Prop :=
  uri ≠ "" ∧ ∃ e tag, Lookup.Finds o path e ∧ o.document.content e = .element tag ∧
    d = o.document.inNamespace e qualifier uri

/-- A new element has been put below the node at a path, and then into a namespace. -/
def ElementInserted (o : OpenDocument) (path name uri : String) (d : Document) : Prop :=
  uri ≠ "" ∧ ∃ (p : NodeId) (placed : Document), Lookup.Finds o path p ∧ placed.WellLinked ∧
    placed.parent? ⟨o.document.size⟩ = some p ∧
    placed.content ⟨o.document.size⟩ = .element (.named (.ofString name)) ∧
    d = placed.inNamespace ⟨o.document.size⟩ (QName.ofString name).qualifier uri

/-- A qualifier has been declared at the element at a path, unless it stood for the namespace there already. -/
def NamespaceDeclared (o : OpenDocument) (path uri qualifier : String) (d : Document) : Prop :=
  uri ≠ "" ∧ ∃ e tag, Lookup.Finds o path e ∧ o.document.content e = .element tag ∧
    d = if o.document.lookupNamespace e (some qualifier) = some uri then o.document
      else o.document.bind e (some qualifier) uri

theorem filled_of_checkUri (accepted : checkUri uri = .ok ()) : uri ≠ "" := by
  rintro rfl
  cases accepted

theorem ensures_elementFound (sound : o.document.Sound) : Ensures (· = o) (element path)
    (fun e u => u = o ∧ Lookup.Finds o path e ∧ ∃ tag, o.document.content e = .element tag) Left := by
  rw [element]
  refine .bind (ensures_finds sound) fun e => ?_
  refine .bind ensures_document fun d => ?_
  dsimp only
  split
  · exact .refuse fun u state => state.1.1 ▸ sound
  · rename_i isElement
    refine .pure ?_
    rintro u ⟨⟨rfl, finds⟩, rfl⟩
    refine ⟨rfl, finds, ?_⟩
    rw [Document.isElement] at isElement
    cases content : u.document.content e with
    | element tag => exact ⟨tag, rfl⟩
    | _ =>
      rw [content] at isElement
      exact absurd rfl isElement

theorem ensures_inNamespace {qualifier : Option String} : Ensures P (applyNamespace id qualifier uri)
    (fun _ u => ∃ before, P before ∧ u.document = before.document.inNamespace id qualifier uri) R := by
  rw [applyNamespace]
  refine .bind ensures_document fun d => ?_
  have placed (made : Document) : Ensures (fun u => ∃ before, P before ∧ before.document = d ∧ u.document = made)
      (change (·.setNamespace id qualifier (some uri))) (fun _ u => ∃ before, P before ∧ before.document = d ∧
        u.document = made.setNamespace id qualifier (some uri)) R := by
    refine .modify ?_
    rintro u ⟨before, holds, same, rfl⟩
    exact ⟨before, holds, same, rfl⟩
  dsimp only
  have needed : (((d.parent? id).bind (d.lookupNamespace · qualifier) ≠ some uri &&
      !(d.content id).bindings.contains ⟨qualifier, uri⟩) = true) ↔ ¬ d.Provided id qualifier uri := by
    simp [Document.Provided]
  split
  · rename_i new
    refine .bind (Q := fun _ u => ∃ before, P before ∧ before.document = d ∧ u.document = d.bind id qualifier uri)
      (.modify ?_) fun _ => (placed _).imp (fun _ h => h) ?_
    · rintro u ⟨holds, same⟩
      exact ⟨u, holds, same, congrArg (·.bind id qualifier uri) same⟩
    · rintro _ u ⟨before, holds, rfl, made⟩
      exact ⟨before, holds, by rw [made, Document.inNamespace, if_neg (needed.mp new)]⟩
  · rename_i old
    refine (placed d).imp ?_ ?_
    · rintro u ⟨holds, same⟩
      exact ⟨u, holds, same, same⟩
    · rintro _ u ⟨before, holds, rfl, made⟩
      exact ⟨before, holds, by rw [made, Document.inNamespace, if_pos (not_not.mp (mt needed.mpr old))]⟩

theorem ensures_namespaceSet (sound : o.document.Sound) : Ensures (· = o) (setNamespace path uri qualifier)
    (fun _ u => NamespaceSet o path (if qualifier.isEmpty then none else some qualifier) uri u.document) Left := by
  have left := left_of_eq sound
  rw [setNamespace]
  refine .bind (ensures_accepted left) fun _ => .assume fun filled => ?_
  generalize (if qualifier.isEmpty then none else some qualifier) = bare
  have set : Ensures (· = o) (element path >>= fun id => applyNamespace id bare uri)
      (fun _ u => NamespaceSet o path bare uri u.document) Left := by
    refine .bind (ensures_elementFound sound) fun e => ?_
    refine ensures_inNamespace.imp (fun _ h => h) ?_
    rintro _ u ⟨before, ⟨rfl, finds, tag, content⟩, made⟩
    exact ⟨filled_of_checkUri filled, e, tag, finds, content, made⟩
  dsimp only
  split
  · exact .bind (ensures_accepted left) fun _ => .assume fun _ => set
  · exact set

theorem ensures_namespaceDeclared (sound : o.document.Sound) : Ensures (· = o) (declareNamespace path uri qualifier)
    (fun _ u => NamespaceDeclared o path uri qualifier u.document) Left := by
  have left := left_of_eq sound
  rw [declareNamespace]
  refine .bind (ensures_accepted left) fun _ => .assume fun _ => ?_
  refine .bind (ensures_accepted left) fun _ => .assume fun filled => ?_
  refine .bind (ensures_elementFound sound) fun e => ?_
  refine .bind ensures_document fun d => ?_
  split
  · rename_i differs
    refine .modify ?_
    rintro _ ⟨⟨rfl, finds, tag, content⟩, rfl⟩
    exact ⟨filled_of_checkUri filled, e, tag, finds, content, (if_neg differs).symm⟩
  · rename_i known
    refine .pure ?_
    rintro u ⟨⟨rfl, finds, tag, content⟩, rfl⟩
    exact ⟨filled_of_checkUri filled, e, tag, finds, content, (if_pos (not_not.mp known)).symm⟩

/-- The node that is placed keeps what it holds, and gets the parent it is put below. -/
theorem Placing.placed (h : Placing ids id o) (hp : p ∈ ids) (place : Nat) :
    (o.document.insertChildAt p id place).WellLinked ∧
      (o.document.insertChildAt p id place).parent? id = some p ∧
      (o.document.insertChildAt p id place).content id = o.document.content id := by
  obtain ⟨held, before, rooted, has, beside⟩ := h
  have linked := held.rooted.wellLinked
  have inserted := Document.edited_insertChildAt (n := place) linked (beside.insertable rooted.wellLinked linked (has p hp))
  have child : id ∈ (o.document.insertChildAt p id place).children p := by
    rw [inserted.children, Function.update_self]
    split
    · rename_i there
      exact (List.mem_insertIdx (by omega)).mpr (.inl rfl)
    · simp
  exact ⟨inserted.wellLinked, (inserted.wellLinked.parent id p).mp child, inserted.content id beside.has⟩

theorem ensures_elementInserted {text : Option String} {place : Nat} (sound : o.document.Sound) :
    Ensures (· = o) (insertElement path name (some uri) text place)
      (fun _ u => ElementInserted o path name uri u.document) Left := by
  have left := left_of_eq sound
  rw [insertElement]
  refine .bind (ensures_requireName left) fun _ => .assume fun valid => ?_
  dsimp only
  split
  · exact .refuse left
  rename_i filled
  refine .bind (ensures_finds sound) fun p => .assume fun finds => ?_
  let new : NodeId := ⟨o.document.size⟩
  let Made (u : OpenDocument) : Prop :=
    Placing [p] new u ∧ u.document.content new = .element (.named (.ofString name))
  have holds : Holding [p] o := ⟨sound, by simpa using ⟨finds.attached.has, finds.inner⟩⟩
  have created : Ensures (· = o) (create (.element (.named (.ofString name)))) (fun id u => Made u ∧ id = new) Left := by
    refine (ensures_create _).imp (fun _ h => h) ?_
    rintro _ _ ⟨_, rfl, rfl, rfl⟩
    refine ⟨⟨placing_newElement holds valid, ?_⟩, rfl⟩
    rw [Document.content_create, if_pos rfl]
  refine .bind created fun id => .assume fun same => ?_
  subst same
  refine .bind (Q := fun _ => Made) (ensures_appendText fun u made => ⟨made.1.addText _, ?_⟩) fun _ => ?_
  · have has := made.1.1.has new List.mem_cons_self
    exact ((Document.edited_add made.1.1.rooted.wellLinked has _).content new has).trans made.2
  let Stands (u : OpenDocument) : Prop := u.document.WellLinked ∧ u.document.parent? new = some p ∧
    u.document.content new = .element (.named (.ofString name))
  refine .bind (Q := fun _ => Stands) (.modify fun u made => ?_) fun _ => ?_
  · obtain ⟨linked, parent, content⟩ := made.1.placed List.mem_cons_self place
    exact ⟨linked, parent, content.trans made.2⟩
  refine .bind (ensures_inNamespace (P := Stands)) fun _ => .pure ?_
  rintro u ⟨before, ⟨linked, parent, content⟩, made⟩
  exact ⟨fun empty => filled (congrArg some empty), p, before.document, finds, linked, parent, content, made⟩

end Edit

/-! ## The calls -/

theorem Session.accepted_of_answered {s : Session} {handle : Handle} {c : Change} {patience : Nat} {a : Answer}
    (answered : (s.call patience (.change handle c)).1.outcome = .answered a) : ∃ edit, c.edit = .ok edit := by
  cases accepted : c.edit with
  | ok edit => exact ⟨edit, rfl⟩
  | error cause =>
    dsimp only [call] at answered
    rw [Store.change, accepted] at answered
    cases answered

theorem Change.exists_text {parent name : String} {uri : Option String} {value : Option Scalar} {place : Int}
    {edit : Edit Answer} (accepted : (Change.addElement parent name uri value place).edit = .ok edit) :
    ∃ text, edit = do discard (Edit.insertElement parent name uri text place.toNat); return .done := by
  rw [Change.edit] at accepted
  obtain ⟨text, -, made⟩ := bind_eq_ok.mp accepted
  exact ⟨text, (Except.ok.inj made).symm⟩

/-- An element that has been put into a namespace by a call is held in it. Its qualifier stands for this namespace
there unless it is reserved for another, or a declaration at the element is in the way. At a new element
there are none. -/
theorem namespace_of_answered {s : Session} {handle : Handle} {o : OpenDocument} (reachable : s.Reachable)
    (found : s.store.document? handle = some o) (patience : Nat) (a : Answer) :
    (∀ path uri qualifier,
      let bare := if qualifier.isEmpty then none else some qualifier
      let (reply, s') := s.call patience (.change handle (.setNamespace path uri qualifier))
      reply.outcome = .answered a → ∃ e tag o' tag', o.select (Lookup.withoutSlash path) = .ok [.node e] ∧
        o.document.content e = .element tag ∧ s'.store.document? handle = some o' ∧
        o'.document.content e = .element tag' ∧ tag'.name = { tag.name with qualifier := bare } ∧
        tag'.uri = some uri ∧ (o'.document.lookupNamespace e bare = some uri ↔
          if bare = some "xml" then uri = xmlNamespace else ¬ o.document.Obstructed e bare uri)) ∧
    ∀ parent name uri value place,
      let (reply, s') := s.call patience (.change handle (.addElement parent name (some uri) value place))
      let e : NodeId := ⟨o.document.size⟩
      reply.outcome = .answered a → ∃ p o' tag, o.select (Lookup.withoutSlash parent) = .ok [.node p] ∧
        s'.store.document? handle = some o' ∧ o'.document.parent? e = some p ∧
        o'.document.content e = .element tag ∧ tag.name = .ofString name ∧ tag.uri = some uri ∧
        (o'.document.lookupNamespace e tag.name.qualifier = some uri ↔
          (tag.name.qualifier = some "xml" → uri = xmlNamespace)) := by
  have sound := reachable.allSound.of_document? found
  constructor
  · intro path uri qualifier bare answered
    have answered : (s.call patience (.change handle (.setNamespace path uri qualifier))).1.outcome = .answered a :=
      answered
    obtain ⟨o', found', filled, e, tag, finds, element, changed⟩ := Session.changed_of_answered
      (Q := Edit.NamespaceSet o path bare uri) found rfl
      (.bind (Edit.ensures_namespaceSet sound) fun _ => .pure fun _ h => h) answered
    have linked := sound.made.rooted.wellLinked
    obtain ⟨tag', element', name, stored⟩ := Document.content_inNamespace finds.attached.has element bare uri
    rw [← changed] at element'
    refine ⟨e, tag, o', tag', finds.selected, element, found', element', name, stored, ?_⟩
    rw [changed]
    exact Document.lookupNamespace_inNamespace linked finds.attached.has element filled
  · intro parent name uri value place answered
    have answered : (s.call patience
        (.change handle (.addElement parent name (some uri) value place))).1.outcome = .answered a := answered
    obtain ⟨edit, accepted⟩ := Session.accepted_of_answered answered
    obtain ⟨text, rfl⟩ := Change.exists_text accepted
    have inserted : Ensures (· = o) (discard (Edit.insertElement parent name (some uri) text place.toNat))
        (fun _ u => Edit.ElementInserted o parent name uri u.document) Edit.Left :=
      .discard (Edit.ensures_elementInserted sound)
    obtain ⟨o', found', filled, p, placed, finds, linked, below, element, changed⟩ := Session.changed_of_answered
      (Q := Edit.ElementInserted o parent name uri) found accepted
      (.bind inserted fun _ => .pure fun _ h => h) answered
    have has : placed.Has ⟨o.document.size⟩ := Document.has_of_target below
    obtain ⟨tag, element', named, stored⟩ :=
      Document.content_inNamespace has element (QName.ofString name).qualifier uri
    have named : tag.name = QName.ofString name := named
    have clear := Document.not_obstructed element rfl (QName.ofString name).qualifier uri
    rw [← changed] at element'
    refine ⟨p, o', tag, finds.selected, found', ?_, element', named, stored, ?_⟩
    · rw [changed, Document.parent?_inNamespace]
      exact below
    · rw [changed, named, Document.lookupNamespace_inNamespace linked has element filled]
      simp only [clear, not_false_eq_true]
      split <;> simp [*]

/-- A session with a root element that declares a qualifier, in it an element without a qualifier, and in this
one an element with the qualifier. -/
def Session.qualified : Session :=
  let created := (Session.mk (.ofOptions .default) ⟨[], []⟩).call 0 (.create "a")
  let declared := created.2.call 0 (.change 1 (.declareNamespace "/a" "u" "p"))
  let inner := declared.2.call 0 (.change 1 (.addElement "/a" "b" none none 0))
  (inner.2.call 0 (.change 1 (.addElement "/a/b" "p:c" (some "u") none 0))).2

theorem Session.reachable_qualified : Session.qualified.Reachable :=
  .call (.call (.call (.call (.start .default ⟨[], []⟩) 0 _) 0 _) 0 _) 0 _

/-- The session after the element in the middle has declared the qualifier for another namespace. -/
def Session.redeclared : Session :=
  (Session.qualified.call 0 (.change 1 (.declareNamespace "/a/b" "v" "p"))).2

theorem Session.reachable_redeclared : Session.redeclared.Reachable :=
  .call Session.reachable_qualified 0 _

/-- The element in the middle is put into a third namespace, in place of its declaration; and a new element
below it into the first one, which has to be declared again. -/
theorem namespace_of_answered_redeclared : ∃ o, Session.redeclared.store.document? 1 = some o ∧
    (let (reply, s') := Session.redeclared.call 0 (.change 1 (.setNamespace "/a/b" "w" "p"))
     reply.outcome = .answered .done ∧ ∃ o', s'.store.document? 1 = some o' ∧
      o'.document.lookupNamespace ⟨2⟩ (some "p") = some "w") ∧
    let (reply, s') := Session.redeclared.call 0 (.change 1 (.addElement "/a/b" "p:d" (some "u") none 0))
    reply.outcome = .answered .done ∧ ∃ o', s'.store.document? 1 = some o' ∧
      o'.document.lookupNamespace ⟨4⟩ (some "p") = some "u" := by
  have evaluated : (Session.redeclared.store.document? 1).map (fun o => (o.document.size,
      (o.select (Lookup.withoutSlash "/a/b")).toOption, decide (o.document.Provided ⟨2⟩ (some "p") "w"))) =
      some (4, some [.node ⟨2⟩], false) := by decide +kernel
  obtain ⟨o, found, facts⟩ := Option.map_eq_some_iff.mp evaluated
  simp only [Prod.mk.injEq, decide_eq_false_iff_not] at facts
  obtain ⟨size, place, needed⟩ := facts
  have moved : (Session.redeclared.call 0 (.change 1 (.setNamespace "/a/b" "w" "p"))).1.outcome = .answered .done :=
    Outcome.eq_done (by decide +kernel)
  have added : (Session.redeclared.call 0
      (.change 1 (.addElement "/a/b" "p:d" (some "u") none 0))).1.outcome = .answered .done :=
    Outcome.eq_done (by decide +kernel)
  obtain ⟨sets, adds⟩ := namespace_of_answered Session.reachable_redeclared found 0 .done
  obtain ⟨e, -, o', -, selected, -, found', -, -, -, set⟩ := sets "/a/b" "w" "p" moved
  obtain ⟨-, o'', tag, -, found'', -, -, name, -, new⟩ := adds "/a/b" "p:d" "u" none 0 added
  obtain rfl : e = ⟨2⟩ := by
    rw [selected] at place
    simpa [Except.toOption] using place
  have qualifier : (QName.ofString "p:d").qualifier = some "p" := by decide +kernel
  rw [size, name, qualifier] at new
  exact ⟨o, found, ⟨moved, o', found', set.mpr fun obstructed => needed obstructed.2⟩, added, o'', found'',
    new.mpr (fun reserved => absurd reserved (by decide))⟩

/-- The element in the middle is put into the namespace that its qualifier stands for above it. Its own declaration
of the qualifier, for another one, stays. -/
theorem namespace_lost_of_redeclared : ∃ o, Session.redeclared.Reachable ∧ Session.redeclared.store.document? 1 = some o ∧
    let (reply, s') := Session.redeclared.call 0 (.change 1 (.setNamespace "/a/b" "u" "p"))
    reply.outcome = .answered .done ∧ ∃ o', s'.store.document? 1 = some o' ∧
      o'.document.content ⟨2⟩ = .element ⟨⟨some "p", "b"⟩, some "u", [⟨some "p", "v"⟩], []⟩ ∧
      o'.document.lookupNamespace ⟨2⟩ (some "p") = some "v" := by
  have evaluated : ((Session.redeclared.call 0 (.change 1 (.setNamespace "/a/b" "u" "p"))).2.store.document? 1).map
      (fun o => (o.document.content ⟨2⟩, o.document.lookupNamespace ⟨2⟩ (some "p"))) =
      some (.element ⟨⟨some "p", "b"⟩, some "u", [⟨some "p", "v"⟩], []⟩, some "v") := by decide +kernel
  obtain ⟨o', found', facts⟩ := Option.map_eq_some_iff.mp evaluated
  obtain ⟨content, lookup⟩ := Prod.mk.inj facts
  exact ⟨_, Session.reachable_redeclared, rfl, Outcome.eq_done (by decide +kernel), o', found', content, lookup⟩

/-- In a document whose names are in the namespaces that their qualifiers stand for, they still are after a
qualifier has been declared if and only if it stood for the namespace there already, is the reserved one, or
belongs to no name where the new declaration is in force. The names themselves are in the namespaces they
were in. -/
theorem consistent_of_answered {s : Session} {handle : Handle} {o : OpenDocument} (reachable : s.Reachable)
    (found : s.store.document? handle = some o) (consistent : o.document.Consistent)
    (patience : Nat) (path uri qualifier : String) (a : Answer) :
    let (reply, s') := s.call patience (.change handle (.declareNamespace path uri qualifier))
    reply.outcome = .answered a → ∃ e o', o.select (Lookup.withoutSlash path) = .ok [.node e] ∧
      s'.store.document? handle = some o' ∧ (∀ n, o'.document.names n = o.document.names n) ∧
      (o'.document.Consistent ↔ o.document.lookupNamespace e (some qualifier) = some uri ∨ qualifier = "xml" ∨
        ∀ n, o.document.Attached n → o.document.Governs e (some qualifier) n →
          ∀ name ∈ o.document.names n, name.1 ≠ some qualifier) := by
  intro answered
  have sound := reachable.allSound.of_document? found
  have answered : (s.call patience (.change handle (.declareNamespace path uri qualifier))).1.outcome = .answered a :=
    answered
  obtain ⟨o', found', filled, e, tag, finds, element, changed⟩ := Session.changed_of_answered
    (Q := Edit.NamespaceDeclared o path uri qualifier) found rfl
    (.bind (Edit.ensures_namespaceDeclared sound) fun _ => .pure fun _ h => h) answered
  refine ⟨e, o', finds.selected, found', ?_⟩
  rw [changed]
  split
  · rename_i known
    exact ⟨fun _ => rfl, iff_of_true consistent (.inl known)⟩
  · rename_i differs
    have declared := Document.consistent_bind_iff sound.made.rooted.wellLinked finds.attached.has element filled
      differs consistent
    rw [Option.some.injEq] at declared
    exact ⟨fun _ => Document.names_bind finds.attached.has, declared.trans (or_iff_right differs).symm⟩

theorem Session.document?_qualified : ∃ o, Session.qualified.store.document? 1 = some o ∧ o.document.Consistent ∧
    ∀ n, o.document.Attached n → ∀ name ∈ o.document.names n, name.1 ≠ some "q" := by
  have evaluated : (Session.qualified.store.document? 1).map (fun o => o.document.documentOrder.all fun id =>
      (o.document.names id).all fun name => name.2 = o.document.lookupNamespace id name.1 ∧ name.1 ≠ some "q") =
      some true := by decide +kernel
  obtain ⟨o, found, all⟩ := Option.map_eq_some_iff.mp evaluated
  simp only [List.all_eq_true, decide_eq_true_eq] at all
  have rooted := (Session.reachable_qualified.allMade.of_document? found).rooted
  exact ⟨o, found, rooted.consistent_iff.mpr fun id mem name has => (all id mem name has).1,
    fun n attached name has => (all n (rooted.mem_documentOrder.mpr attached) name has).2⟩

/-- The element in the middle declares a qualifier that no name has. -/
theorem consistent_of_answered_unused : ∃ o, Session.qualified.store.document? 1 = some o ∧ o.document.Consistent ∧
    let (reply, s') := Session.qualified.call 0 (.change 1 (.declareNamespace "/a/b" "v" "q"))
    reply.outcome = .answered .done ∧ ∃ o', s'.store.document? 1 = some o' ∧ o'.document.Consistent := by
  obtain ⟨o, found, consistent, unused⟩ := Session.document?_qualified
  have answered : (Session.qualified.call 0 (.change 1 (.declareNamespace "/a/b" "v" "q"))).1.outcome = .answered .done :=
    Outcome.eq_done (by decide +kernel)
  obtain ⟨e, o', -, found', -, agrees⟩ :=
    consistent_of_answered Session.reachable_qualified found consistent 0 "/a/b" "v" "q" .done answered
  exact ⟨o, found, consistent, answered, o', found', agrees.mpr (.inr (.inr fun n attached _ => unused n attached))⟩

/-- The qualifier of an element is declared anew above it or at the element itself. Its name stays in the
namespace that the qualifier stood for. -/
theorem consistent_lost_of_declared : ∃ o, Session.qualified.Reachable ∧ Session.qualified.store.document? 1 = some o ∧
    o.document.Consistent ∧ ∀ path ∈ ["/a/b", "/a/b/*"],
      let (reply, s') := Session.qualified.call 0 (.change 1 (.declareNamespace path "v" "p"))
      reply.outcome = .answered .done ∧ ∃ o', s'.store.document? 1 = some o' ∧
        o'.document.names ⟨3⟩ = [(some "p", some "u")] ∧ o'.document.lookupNamespace ⟨3⟩ (some "p") = some "v" ∧
        ¬ o'.document.Consistent := by
  obtain ⟨o, found, consistent, -⟩ := Session.document?_qualified
  refine ⟨o, Session.reachable_qualified, found, consistent, fun path mem => ?_⟩
  have answered : ∀ path ∈ ["/a/b", "/a/b/*"],
      (Session.qualified.call 0 (.change 1 (.declareNamespace path "v" "p"))).1.outcome = .answered .done := by
    rw [List.forall_mem_cons, List.forall_mem_singleton]
    exact ⟨Outcome.eq_done (by decide +kernel), Outcome.eq_done (by decide +kernel)⟩
  have evaluated : ∀ path ∈ ["/a/b", "/a/b/*"], ((Session.qualified.call 0
      (.change 1 (.declareNamespace path "v" "p"))).2.store.document? 1).map (fun o =>
        (decide (⟨3⟩ ∈ o.document.documentOrder), o.document.names ⟨3⟩, o.document.lookupNamespace ⟨3⟩ (some "p"))) =
      some (true, [(some "p", some "u")], some "v") := by decide +kernel
  obtain ⟨o', found', facts⟩ := Option.map_eq_some_iff.mp (evaluated path mem)
  simp only [Prod.mk.injEq, decide_eq_true_eq] at facts
  obtain ⟨order, names, lookup⟩ := facts
  have rooted := ((Session.reachable_qualified.call 0 _).allMade.of_document? found').rooted
  refine ⟨answered path mem, o', found', names, lookup, fun agrees => ?_⟩
  have kept := rooted.consistent_iff.mp agrees ⟨3⟩ order (some "p", some "u") (names ▸ List.mem_cons_self)
  rw [lookup] at kept
  exact absurd kept (by decide)

end XmlStore
