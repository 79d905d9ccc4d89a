/-
Where a link leads to. The call that adds a link answers with the location of
its target, which it computes before it puts the link behind the children of
a node. The location goes on leading to the target alone, unless the target
is a child of that node too and no sibling was counted with it so far, and
the link has its name: then the last step of the location carries no
position, and leads to the link as well.
-/
import XmlStore.Proofs.Insertions
import XmlStore.Proofs.Siblings
import XmlStore.Proofs.Trails

namespace XmlStore

open Tracked (Ensures)

/-! ## One more sibling -/

section

variable {α : Type} {l : Locator} {list : List α} {a : α}

theorem Locator.pick_append (alone : l.pick list = [a]) (more : List α) :
    l.pick (list ++ more) = if l.position = none then a :: more else [a] := by
  rw [pick] at alone ⊢
  cases position : l.position with
  | none =>
    rw [position] at alone
    obtain rfl : list = [a] := alone
    rfl
  | some n =>
    rw [position] at alone
    have here : list[n - 1]? = some a := Option.toList_eq_singleton_iff.mp alone
    have inside := (List.getElem?_eq_some_iff.mp here).1
    rw [if_neg (Option.some_ne_none n)]
    show (list ++ more)[n - 1]?.toList = _
    rw [List.getElem?_append_left inside, here]
    rfl

/-- What is written for a step by a plain name ends in a character of the name or in a bracket. -/
theorem Locator.ends_of_plain (l : Locator) (plain : IsPlain l.test.spelling) :
    ∃ front last, l.text = front ++ [last] ∧ last ≠ '/' := by
  rw [text]
  cases l.position with
  | some n => exact ⟨l.test.spelling.toList ++ '[' :: Nat.toDigits 10 n, ']', by simp, by decide⟩
  | none =>
    obtain ⟨first, starts, -⟩ := plain.starts
    rcases List.eq_nil_or_concat l.test.spelling.toList with empty | ⟨front, last, ends⟩
    · rw [empty] at starts
      cases starts
    · refine ⟨front, last, by simpa using ends, ?_⟩
      rintro rfl
      have char := (plain.further '/' (ends ▸ by simp)).1
      exact absurd char (by decide)

end

namespace Document

variable {d d' : Document} {a e p q : NodeId} {name target : String} {tag : Element}
  {namespaces : List (String × String)}

/-- Of its siblings that are asked for with it, the position of a node picks the node alone. -/
theorem Locatable.pick_children (h : d.Locatable) (hp : d.Attached p) (child : d.parent? a = some p)
    (locates : Locates (d.content a).test) :
    (d.locator a).pick ((d.children p).filter fun c => (d.locator a).test.admits none (d.content c)) = [a] := by
  have unqualified : ∀ c ∈ d.children p, (d.content c).Unqualified := fun c hc =>
    h.unqualified c (hp.child h.rooted ((h.rooted.wellLinked.parent c p).mp hc))
  have below := (h.rooted.wellLinked.parent a p).mpr child
  have counted : (d.children p).filter (fun c => (d.locator a).test.admits none (d.content c)) =
      d.counted a (d.children p) :=
    List.filter_congr fun c hc => Content.admits_test (unqualified a below) locates (unqualified c hc)
  obtain ⟨u, v, place⟩ := List.append_of_mem below
  have split : d.counted a (d.children p) = d.counted a u ++ a :: d.counted a v := by
    rw [place, Document.counted, List.filter_append, List.filter_cons, if_pos (Content.countsWith_self locates)]
    rfl
  rw [counted, split, Locator.pick]
  rcases position_child h.rooted place with position | ⟨position, before, after⟩
  · rw [position]
    simp
  · rw [position, before, after]
    rfl

/-- The children of a node that has none pass no test. -/
theorem pick_childless {l : Locator} {keep : NodeId → Bool} (childless : d.children a = []) :
    l.pick ((d.children a).filter keep) = [] := by
  rw [childless]
  cases position : l.position <;> simp [Locator.pick, position]

/-! ## The location of a node in a document with a new element -/

/-- The nodes that the location of a node leads to, when an element has been put behind the children of a node. -/
def reached (d : Document) (p : NodeId) (tag : Element) (a : NodeId) : List NodeId :=
  if d.parent? a = some p ∧ (d.locator a).position = none ∧ (d.locator a).test.admits none (.element tag) = true then
    [a, ⟨d.size⟩]
  else [a]

namespace Locatable

variable (h : d.Locatable) (planted : Planted d d' p 0 tag "")

include h planted

theorem attached_planted (ha : d.Attached a) : d'.Attached a :=
  ⟨planted.has ha.has, planted.ancestors_old h.rooted.wellLinked ha.has ▸ ha.below_root⟩

omit h in
theorem children_planted (q : NodeId) (hq : d.Has q) :
    d'.children q = d.children q ++ if q = p then [⟨d.size⟩] else [] := by
  split
  · rename_i here
    rw [here, planted.place]
    exact if_neg (by simp)
  · rename_i elsewhere
    rw [planted.others q hq elsewhere, List.append_nil]

omit h in
theorem childless_new : d'.children ⟨d.size⟩ = [] := by
  have none := planted.texts
  simpa using none

theorem attached_reached (made : d'.Made) (hp : d.Attached p) (ha : d.Attached a) :
    ∀ c ∈ d.reached p tag a, d'.Attached c := by
  have attached := h.attached_planted planted ha
  have new : d'.Attached ⟨d.size⟩ := (h.attached_planted planted hp).child made.rooted planted.parent_new
  intro c mem
  rw [reached] at mem
  split at mem
  · rcases List.mem_pair.mp mem with rfl | rfl
    · exact attached
    · exact new
  · exact List.mem_singleton.mp mem ▸ attached

omit h in
theorem few_reached (few : ∀ q, (d.children q).length + 1 < 2 ^ 53) (ha : d.Attached a) :
    ∀ c ∈ d.reached p tag a, (d'.children c).length < 2 ^ 53 := by
  have old : (d'.children a).length < 2 ^ 53 := by
    rw [children_planted planted a ha.has, List.length_append]
    refine Nat.lt_of_le_of_lt (Nat.add_le_add_left ?_ _) (few a)
    split <;> simp
  intro c mem
  rw [reached] at mem
  split at mem
  · rcases List.mem_pair.mp mem with rfl | rfl
    · exact old
    · rw [childless_new planted]
      decide
  · exact List.mem_singleton.mp mem ▸ old

theorem reached_sublist (made : d'.Made) (hp : d.Attached p) (ha : d.Attached a) :
    (d.reached p tag a).Sublist d'.documentOrder := by
  rw [reached]
  split
  · rename_i like
    obtain ⟨u, v, place⟩ := List.append_of_mem ((h.rooted.wellLinked.parent a p).mpr like.1)
    have children := children_planted planted p hp.has
    rw [if_pos rfl, place] at children
    have siblings : [a, ⟨d.size⟩].Sublist (d'.children p) := by
      rw [children, List.append_assoc]
      refine .trans (.cons_cons a ?_) (List.sublist_append_right ..)
      exact List.sublist_append_right ..
    exact siblings.trans (sublist_children made.rooted (h.attached_planted planted hp))
  · exact List.singleton_sublist.mpr (made.rooted.mem_documentOrder.mpr (h.attached_planted planted ha))

/-- From its parent, and from the new element beside that, the step to a node leads to the node, and to the new
element if that is asked for too. -/
theorem pick_planted (hq : d.Attached q) (child : d.parent? a = some q) (locates : Locates (d.content a).test) :
    ((d.reached p tag q).flatMap fun b => (d.locator a).pick
      ((d'.children b).filter fun c => (d.locator a).test.admits none (d'.content c))) = d.reached p tag a := by
  let admitted (c : NodeId) : Bool := (d.locator a).test.admits none (d'.content c)
  have only : ((d.reached p tag q).flatMap fun b => (d.locator a).pick ((d'.children b).filter admitted)) =
      (d.locator a).pick ((d'.children q).filter admitted) := by
    have nothing : (d.locator a).pick ((d'.children ⟨d.size⟩).filter admitted) = [] :=
      pick_childless (childless_new planted)
    rw [reached]
    split <;> simp [nothing]
  have old : (d.children q).filter admitted =
      (d.children q).filter fun c => (d.locator a).test.admits none (d.content c) :=
    List.filter_congr fun c hc => by
      show NodeTest.admits _ _ (d'.content c) = _
      rw [planted.content c (h.rooted.wellLinked.lists.has_child hc)]
  have alone := h.pick_children hq child locates
  have new : admitted ⟨d.size⟩ = (d.locator a).test.admits none (.element tag) := by
    show NodeTest.admits _ _ (d'.content _) = _
    rw [planted.element]
  rw [only, children_planted planted q hq.has, List.filter_append, old, Locator.pick_append alone, reached, child]
  by_cases here : q = p
  · subst here
    rw [if_pos rfl]
    cases asked : (d.locator a).test.admits none (.element tag) <;> simp [new, asked]
  · simp [here]

/-- From what the location of its parent leads to, the step to a node leads to what its own location does. -/
theorem take_planted (made : d'.Made) (few : ∀ q, (d.children q).length + 1 < 2 ^ 53) (hp : d.Attached p)
    (hq : d.Attached q) (child : d.parent? a = some q) (ne : a ≠ root) (locates : Locates (d.content a).test) :
    (d.locator a).step.take (d'.env namespaces) ((d.reached p tag q).map fun c => d'.place (.node c)) =
      .ok ((d.reached p tag a).map fun c => d'.place (.node c)) := by
  have ha := hq.child h.rooted child
  have plain : (d'.env namespaces).resolve (d.locator a).test.qualifier? = .ok none := by
    show Env.resolve _ (d.content a).test.qualifier? = _
    generalize (d.content a).test = test at locates
    cases locates <;> rfl
  have taken := take_locator made (h.attached_reached planted made hp hq) (few_reached planted few hq)
    (h.readable ha ne locates).position plain []
  rw [h.pick_planted planted hq child locates] at taken
  exact taken.trans (congrArg Except.ok (ordered_places made (h.reached_sublist planted made hp ha)))

/-- The location of a node, as it was before, leads to the node, and to the new element if that is like it. -/
theorem select_planted (made : d'.Made) (few : ∀ q, (d.children q).length + 1 < 2 ^ 53) (hp : d.Attached p)
    (ha : d.Attached a) (other : (d.content a).isDoctype = false) (namespaces : List (String × String)) :
    d'.select namespaces (d.location a) = .ok ((d.reached p tag a).map .node) := by
  let items (a : NodeId) : List Item := (d.reached p tag a).map fun c => d'.place (.node c)
  have walked : XmlStore.Step.walk (d'.env namespaces) ((d.trail a).map fun b => (d.locator b).step) [.node 0] =
      .ok (items a) := by
    revert other
    refine h.rooted.induction_down (P := fun a => (d.content a).isDoctype = false →
      XmlStore.Step.walk (d'.env namespaces) ((d.trail a).map fun b => (d.locator b).step) [.node 0] =
        .ok (items a)) ?_ ?_ ha
    · intro _
      have above : d.parent? root ≠ some p := fun top =>
        h.rooted.root_top p ((h.rooted.wellLinked.parent root p).mpr top)
      have top : d'.place (.node root) = .node 0 := by rw [place, documentOrder, List.idxOf_cons_self]
      rw [trail_root h.rooted]
      show _ = Except.ok ((d.reached p tag root).map _)
      rw [reached, if_neg fun like => above like.1, List.map_singleton, top]
      rfl
    · intro a q attached ne child above other
      have locates := h.locates (attached.child h.rooted child) ne other
      rw [trail_child h.rooted child ne, List.map_append,
        XmlStore.Step.walk_append (above (h.isDoctype_parent child))]
      exact XmlStore.Step.walk_singleton _ (h.take_planted planted made few hp attached child ne locates)
  have offered : ∀ hit ∈ (d.reached p tag a).map Hit.node, d'.Offers hit :=
    List.forall_mem_map.mpr fun c hc =>
      made.rooted.mem_documentOrder.mpr (h.attached_reached planted made hp ha c hc)
  have back := hits_map_place offered
  rw [List.map_map] at back
  exact (select_of_walk (h.ofString_location ha other) walked).trans (congrArg Except.ok back)

end Locatable

/-! ## A new link -/

/-- The document with a new link behind the children of a node. -/
def withLink (d : Document) (p : NodeId) (name target : String) : Document :=
  (d.addElement p name).setAttribute ⟨d.size⟩ linkAttribute target

/-- A child of a node that has this name and is a link to this identifier. -/
def Linked (d : Document) (p : NodeId) (name target : String) : Prop :=
  ∃ c ∈ d.childrenNamed p name, d.attribute? c linkAttribute = some target

instance (d : Document) (p : NodeId) (name target : String) : Decidable (d.Linked p name target) :=
  inferInstanceAs (Decidable (∃ c ∈ _, _))

/-- A link of this name below a node is the first sibling of an element that the step to the element asks for. -/
structure Crowds (d : Document) (p : NodeId) (name : String) (e : NodeId) : Prop where
  parent : d.parent? e = some p
  alone : ∀ c ∈ d.children p, c ≠ e → (d.content e).countsWith false (d.content c) = false
  named : ∃ tag, d.content e = .element tag ∧ tag.name = QName.ofString name
  unbound : d.lookupNamespace p none = none

theorem planted_withLink (h : d.WellLinked) (hp : d.Has p) (name target : String) : ∃ tag : Element,
    Planted d (d.withLink p name target) p 0 tag "" ∧ tag.name = .ofString name ∧
      tag.uri = d.lookupNamespace p (QName.ofString name).qualifier := by
  have planted := planted_insertChildAt h hp (.named ⟨none, name⟩) "" 0
  have appended : (d.withElement (.named ⟨none, name⟩) "").insertChildAt p ⟨d.size⟩ 0 =
      (d.create (.element (.named ⟨none, name⟩))).2.append p ⟨d.size⟩ := rfl
  have inForce := planted.lookupNamespace_new h hp rfl (QName.ofString name).qualifier
  rw [appended] at planted inForce
  have renamed := planted.retag (retagged_modifyTag planted.has_new planted.element fun tag =>
    { tag with name := .ofString name, uri := d.lookupNamespace p (QName.ofString name).qualifier })
  have added : d.addElement p name =
      ((d.create (.element (.named ⟨none, name⟩))).2.append p ⟨d.size⟩).modifyTag ⟨d.size⟩ fun tag =>
        { tag with name := .ofString name, uri := d.lookupNamespace p (QName.ofString name).qualifier } := by
    rw [← inForce]
    rfl
  rw [← added] at renamed
  exact ⟨_, renamed.retag (retagged_modifyTag renamed.has_new renamed.element _), rfl, rfl⟩

/-- The position of a child is left out if and only if no other child is counted with it. -/
theorem position_eq_none_iff (h : d.Rooted) (child : d.parent? e = some p) : (d.locator e).position = none ↔
    ∀ c ∈ d.children p, c ≠ e → (d.content e).countsWith false (d.content c) = false := by
  obtain ⟨u, v, place⟩ := List.append_of_mem ((h.wellLinked.parent e p).mpr child)
  have nodup := place ▸ h.wellLinked.nodup p
  constructor
  · intro position c hc ne
    rcases position_child h place with counted | ⟨-, before, after⟩
    · rw [counted] at position
      cases position
    · have others : c ∈ u ∨ c ∈ v := by
        rw [place] at hc
        simpa [ne] using hc
      rw [counted, List.filter_eq_nil_iff] at before after
      exact others.elim (fun mem => Bool.eq_false_of_not_eq_true (before c mem)) fun mem =>
        Bool.eq_false_of_not_eq_true (after c mem)
  · intro alone
    obtain ⟨siblings_before, siblings_after⟩ := h.wellLinked.siblings_eq place
    rw [locator, siblings_before, siblings_after]
    have siblings : ∀ c ∈ u ++ v, (d.content e).countsWith false (d.content c) = false := by
      intro c hc
      have apart := List.nodup_middle.mp nodup
      refine alone c ?_ fun same => (List.nodup_cons.mp apart).1 (same ▸ hc)
      rw [place]
      simp only [List.mem_append, List.mem_cons] at hc ⊢
      exact hc.imp id .inr
    refine Content.position_eq_none ?_
    rw [← List.map_append, List.forall_mem_map]
    simpa only [List.mem_append, List.mem_reverse] using siblings

/-- A new link is asked for with an element if and only if it crowds the element. -/
theorem Locatable.crowds_iff (h : d.Locatable) (he : d.Attached e) {own : Element}
    (element : d.content e = .element own) (named : tag.name = .ofString name)
    (uri : tag.uri = d.lookupNamespace p (QName.ofString name).qualifier) : d.Crowds p name e ↔
      d.parent? e = some p ∧ (d.locator e).position = none ∧ (d.locator e).test.admits none (.element tag) = true := by
  obtain ⟨bare, -⟩ : own.name.qualifier = none ∧ _ := element ▸ h.unqualified e he
  have asked : (d.locator e).test.admits none (.element tag) = true ↔
      own.name = .ofString name ∧ d.lookupNamespace p none = none := by
    have test : (d.locator e).test = .name own.name := by
      show (d.content e).test = _
      rw [element]
      rfl
    rw [test]
    show (NodeTest.name own.name).admitsName none tag.name tag.uri = true ↔ _
    rw [NodeTest.admitsName, named, uri, bare]
    simp only [Option.isSome_none, Bool.false_eq_true, if_false, Bool.and_eq_true, beq_iff_eq, Option.isNone_iff_eq_none]
    constructor
    · rintro ⟨local', unqualified, unbound⟩
      rw [unqualified] at unbound
      have same : QName.mk own.name.qualifier own.name.localPart =
          ⟨(QName.ofString name).qualifier, (QName.ofString name).localPart⟩ := by rw [bare, unqualified, local']
      exact ⟨same, unbound⟩
    · rintro ⟨same, unbound⟩
      rw [← same, bare]
      exact ⟨rfl, rfl, unbound⟩
  constructor
  · rintro ⟨parent, alone, ⟨tag', same, name'⟩, unbound⟩
    obtain rfl := Content.element.inj (element.symm.trans same)
    exact ⟨parent, (position_eq_none_iff h.rooted parent).mpr alone, asked.mpr ⟨name', unbound⟩⟩
  · rintro ⟨parent, position, admitted⟩
    obtain ⟨name', unbound⟩ := asked.mp admitted
    exact ⟨parent, (position_eq_none_iff h.rooted parent).mp position, ⟨own, element, name'⟩, unbound⟩

theorem Carries.exists_element {value : String} (carries : d.Carries name a value) :
    ∃ own, d.content a = .element own := by
  have given := carries.given
  rw [attribute?] at given
  cases content : d.content a with
  | element own => exact ⟨own, rfl⟩
  | _ =>
    rw [content] at given
    cases given

theorem bears_withLink (h : d.Rooted) (hp : d.Attached p) {uid : String} :
    (d.withLink p name target).Bears a uid ↔ d.Bears a uid := by
  have other : uidAttribute ≠ linkAttribute := by decide
  exact (carries_addedLink h hp).trans (or_iff_right fun new => other new.1.2)

/-- The location of an element, as it was before a link was added, goes on leading to the element, and to the link
as well exactly if that crowds the element. -/
theorem Locatable.select_withLink (h : d.Locatable) (made : (d.withLink p name target).Made)
    (few : ∀ q, (d.children q).length + 1 < 2 ^ 53) (hp : d.Attached p) (he : d.Attached e) {own : Element}
    (element : d.content e = .element own) (namespaces : List (String × String)) :
    (d.withLink p name target).content e = .element own ∧
      (¬ d.Crowds p name e → (d.withLink p name target).select namespaces (d.location e) = .ok [.node e]) ∧
      (d.Crowds p name e →
        (d.withLink p name target).select namespaces (d.location e) = .ok [.node e, .node ⟨d.size⟩]) := by
  obtain ⟨tag, planted, named, uri⟩ := planted_withLink h.rooted.wellLinked hp.has name target
  have other : (d.content e).isDoctype = false := by
    rw [element]
    rfl
  have selected := h.select_planted planted made few hp he other namespaces
  have crowds := h.crowds_iff he element named uri
  refine ⟨(planted.content e he.has).trans element, fun free => ?_, fun crowded => ?_⟩
  · rwa [reached, if_neg (crowds.not.mp free)] at selected
  · rwa [reached, if_pos (crowds.mp crowded)] at selected

/-- The location of an element does not end in a slash. -/
theorem Locatable.getLast?_location (h : d.Locatable) (he : d.Attached e) {own : Element}
    (element : d.content e = .element own) : (d.location e).toList.getLast? ≠ some '/' := by
  have ne := h.ne_root element
  have other : (d.content e).isDoctype = false := by
    rw [element]
    rfl
  obtain ⟨bare, uri, -⟩ : own.name.qualifier = none ∧ own.uri = none ∧ _ := element ▸ h.unqualified e he
  have plain := (h.tag_proper he element).name bare uri
  obtain ⟨p, child, -⟩ := h.rooted.parent_of_attached he ne
  have located := h.locates_trail he other
  have spelled := toList_location (h.trail_ne_nil he ne) fun b hb =>
    h.toList_step (located b hb).1 (located b hb).2.2
  have test : (d.locator e).test.spelling = own.name.localPart := by
    show (d.content e).test.spelling = _
    rw [element]
    show own.name.text = _
    rw [QName.text, bare]
  obtain ⟨front, last, text, ne_slash⟩ := (d.locator e).ends_of_plain (test ▸ plain)
  rw [spelled, trail_child h.rooted child ne, List.map_append, List.flatMap_append, List.map_singleton,
    List.flatMap_singleton, text, ← List.cons_append, ← List.append_assoc, List.getLast?_concat]
  exact fun slash => ne_slash (Option.some.inj slash)

end Document

/-! ## The call -/

namespace Edit

variable {o : OpenDocument} {path name target : String} {e : NodeId}

/-- A link to an element has been added below the node at a path, unless there was one like it, and the location is
the one that the element had before. -/
def LinkOpened (o : OpenDocument) (path name target : String) (e : NodeId) (location : Option String) (d : Document) :
    Prop :=
  location = some (o.document.location e) ∧ ∃ p, Lookup.Finds o path p ∧
    d = if o.document.Linked p name target then o.document else o.document.withLink p name target

theorem ensures_linkOpened (sound : o.document.Sound) (only : ∀ b, o.document.Bears b target → b = e) :
    Ensures (· = o) (addLink path name target .createAndOpen)
      (fun location u => LinkOpened o path name target e location u.document) Left := by
  have left := left_of_eq sound
  have borne : Ensures (· = o) (look (Lookup.withUid target)) (fun b u => u = o ∧ b = e) Left := by
    refine ensures_asked (Q := fun _ b => b = e) left ?_
    rintro u rfl
    exact Lookup.yields_withUid.imp (fun _ h => h) fun b _ found => only b (Document.bears_of_withUid? sound.made found)
  rw [addLink]
  refine .bind (ensures_requireName left) fun _ => .assume fun _ => ?_
  refine .bind borne fun b => .assume fun same => ?_
  subst same
  refine .bind ensures_own fun d => .assume fun same => ?_
  subst same
  refine .bind (ensures_finds sound) fun p => .assume fun finds => ?_
  refine .bind ensures_own fun d => .assume fun same => ?_
  subst same
  dsimp only
  have linked : (!(o.document.childrenNamed p name).any fun child =>
      o.document.attribute? child linkAttribute == some target) = true ↔ ¬ o.document.Linked p name target := by
    simp [Document.Linked]
  rw [decide_eq_false (by decide), Bool.false_or]
  split
  · rename_i added
    refine .bind (ensures_elementAdded sound) fun id => ?_
    refine .bind (Q := fun _ u => u.document = o.document.withLink p name target) (.modify ?_) fun _ => ?_
    · rintro u ⟨rfl, document⟩
      dsimp only
      rw [document]
      rfl
    · exact .pure fun u document => ⟨rfl, p, finds, by rw [document, if_neg (linked.mp added)]⟩
  · rename_i kept
    refine .pure fun u same => ⟨rfl, p, finds, ?_⟩
    rw [same, if_pos (not_not.mp (linked.not.mp kept))]

end Edit

theorem Lookup.withoutSlash_eq {path : String} (ends : path.toList.getLast? ≠ some '/') :
    withoutSlash path = path := by
  rw [withoutSlash]
  simp [ends]

theorem OpenDocument.select_eq_ok {o : OpenDocument} {path : String} {hits : List Hit}
    (selected : o.document.select o.preferences.namespaces path = .ok hits) : o.select path = .ok hits := by
  rw [select, selected]

/-- In a document without qualifiers and namespaces the path that a call for a link answers with leads to the only
element that bears the identifier, and to nothing else, unless the call adds the link beside this element, of whose
name there was no other sibling and the link is one. Then a question about the path is refused, since it leads to
the link as well. -/
theorem checkElement_of_addLink {s : Session} {handle : Handle} {o : OpenDocument} (reachable : s.Reachable)
    (found : s.store.document? handle = some o)
    (unqualified : ∀ a ∈ o.document.documentOrder, (o.document.content a).Unqualified)
    (few : ∀ p, (o.document.children p).length + 1 < 2 ^ 53) {target : String} {e : NodeId}
    (borne : ∀ b, o.document.Bears b target ↔ b = e) (parent name path : String) (patience : Nat) :
    let (reply, s') := s.call patience (.change handle (.addLink parent name target .createAndOpen))
    reply.outcome = .answered (.optionalText (some path)) →
      ∃ p o', o.select (Lookup.withoutSlash parent) = .ok [.node p] ∧ s'.store.document? handle = some o' ∧
        (∀ b, o'.document.Bears b target ↔ b = e) ∧
        (o.document.Linked p name target ∨ ¬ o.document.Crowds p name e →
          o'.select path = .ok [.node e] ∧ s'.Gives handle (.checkElement path) (.answered .done)) ∧
        (¬ o.document.Linked p name target → o.document.Crowds p name e →
          s'.Gives handle (.checkElement path) (.refused (.pathNotUnique path 2))) := by
  intro answered
  have sound := reachable.allSound.of_document? found
  have after := reachable.call patience (.change handle (.addLink parent name target .createAndOpen))
  have rooted := sound.made.rooted
  have locatable : o.document.Locatable :=
    ⟨sound.made, fun a ha => unqualified a (rooted.mem_documentOrder.mpr ha), fun p => Nat.lt_of_succ_lt (few p)⟩
  have bears := (borne e).mpr rfl
  obtain ⟨own, element⟩ := bears.exists_element
  have other : (o.document.content e).isDoctype = false := by
    rw [element]
    rfl
  have opened : Ensures (· = o) (do return Answer.optionalText (← Edit.addLink parent name target .createAndOpen))
      (fun b u => ∃ location, b = .optionalText location ∧
        Edit.LinkOpened o parent name target e location u.document) Edit.Left :=
    .bind (Edit.ensures_linkOpened sound fun b => (borne b).mp) fun location => .pure fun u ensured =>
      ⟨location, rfl, ensured⟩
  obtain ⟨d', found', _, answer, same, p, finds, changed⟩ := Session.kept_of_answered
    (Q := fun b d => ∃ location, b = .optionalText location ∧ Edit.LinkOpened o parent name target e location d)
    found rfl opened answered
  obtain rfl : path = o.document.location e := Option.some.inj ((Answer.optionalText.inj answer).trans same)
  have made : d'.Made := after.allMade.of_document? found'
  have right := after.sound.right.of_document? found'
  have whole := Lookup.withoutSlash_eq (locatable.getLast?_location bears.attached element)
  refine ⟨p, _, finds.selected, found', ?_⟩
  by_cases linked : o.document.Linked p name target
  · obtain rfl : d' = o.document := changed.trans (if_pos linked)
    have selected := OpenDocument.select_eq_ok (locatable.select_node bears.attached other)
    have inner : (o.document.content e).isInner = true := by rw [element]; rfl
    exact ⟨borne, fun _ => ⟨selected, Session.gives_checkElement found' right
      (Lookup.comesTo_node (whole.symm ▸ selected) inner)⟩, fun fresh => absurd linked fresh⟩
  · obtain rfl : d' = o.document.withLink p name target := changed.trans (if_neg linked)
    obtain ⟨content, free, crowded⟩ := locatable.select_withLink made few finds.attached bears.attached element
      o.preferences.namespaces
    have inner : ((o.document.withLink p name target).content e).isInner = true := by rw [content]; rfl
    refine ⟨fun b => (Document.bears_withLink rooted finds.attached).trans (borne b), fun either => ?_,
      fun _ crowds => ?_⟩
    · have selected := OpenDocument.select_eq_ok (o := { o with document := _, cache := none })
        (free (either.resolve_left linked))
      exact ⟨selected, Session.gives_checkElement found' right (Lookup.comesTo_node (whole.symm ▸ selected) inner)⟩
    · have selected := OpenDocument.select_eq_ok (o := { o with document := _, cache := none }) (crowded crowds)
      rw [← whole] at selected
      have ambiguous := Lookup.comesTo_node_ambiguous selected Nat.one_lt_two
      rw [whole] at ambiguous
      exact Session.gives_checkElement found' right ambiguous

/-- A session with a document of three elements, the root element and two below it, of which the first bears an
identifier. -/
def Session.identified : Session :=
  ((Session.mk (.ofOptions .default) ⟨[], []⟩).call 0 (.importText "<a><x uID=\"t\"/><b/></a>")).2

theorem Session.reachable_identified : Session.identified.Reachable := .call (.start .default ⟨[], []⟩) 0 _

theorem Session.document?_identified : ∃ o, Session.identified.store.document? 1 = some o ∧
    (∀ a ∈ o.document.documentOrder, (o.document.content a).Unqualified) ∧
    (∀ p, (o.document.children p).length + 1 < 2 ^ 53) ∧ ∀ b, o.document.Bears b "t" ↔ b = ⟨2⟩ := by
  have evaluated : (Session.identified.store.document? 1).map (fun o => (o.document.documentOrder.map fun a =>
      (o.document.content a).element?, o.document.uids, o.document.size)) = some
      ([none, some ⟨⟨none, "a"⟩, none, [], []⟩,
        some ⟨⟨none, "x"⟩, none, [], [⟨⟨none, "uID"⟩, "t", none⟩]⟩, some ⟨⟨none, "b"⟩, none, [], []⟩],
        [("t", ⟨2⟩)], 4) := by decide +kernel
  obtain ⟨o, found, facts⟩ := Option.map_eq_some_iff.mp evaluated
  simp only [Prod.mk.injEq] at facts
  obtain ⟨elements, uids, size⟩ := facts
  have made := Session.reachable_identified.allMade.of_document? found
  refine ⟨o, found, fun a ha => ?_, fun p => ?_, fun b => ?_⟩
  · have listed := List.mem_map_of_mem (f := fun a => (o.document.content a).element?) ha
    rw [elements] at listed
    cases content : o.document.content a with
    | element tag =>
      rw [content] at listed
      simp only [Content.element?, List.mem_cons, Option.some.injEq, List.not_mem_nil, or_false, reduceCtorEq,
        false_or] at listed
      rcases listed with rfl | rfl | rfl <;> simp [Content.Unqualified]
    | _ => trivial
  · have bound := made.rooted.wellLinked.length_children_le p
    rw [size] at bound
    exact Nat.lt_of_le_of_lt (Nat.succ_le_succ bound) (by decide)
  · rw [← made.mem_uids, uids]
    simp

theorem Outcome.eq_optionalText {outcome : Outcome} {path : String}
    (opened : (match outcome with | .answered (.optionalText (some found)) => found == path | _ => false) = true) :
    outcome = .answered (.optionalText (some path)) := by
  split at opened
  · rw [eq_of_beq opened]
  · cases opened

/-- A link that has the name of its target is added to the sibling of the target. -/
theorem checkElement_of_addLink_below :
    let (reply, s') := Session.identified.call 0 (.change 1 (.addLink "/a/b" "x" "t" .createAndOpen))
    reply.outcome = .answered (.optionalText (some "/a/x")) ∧ s'.Gives 1 (.checkElement "/a/x") (.answered .done) := by
  obtain ⟨o, found, unqualified, few, borne⟩ := Session.document?_identified
  have answered : (Session.identified.call 0 (.change 1 (.addLink "/a/b" "x" "t" .createAndOpen))).1.outcome =
      .answered (.optionalText (some "/a/x")) := Outcome.eq_optionalText (by decide +kernel)
  obtain ⟨p, o', selected, -, -, alone, -⟩ :=
    checkElement_of_addLink Session.reachable_identified found unqualified few borne "/a/b" "x" "/a/x" 0 answered
  have evaluated : (Session.identified.store.document? 1).map (fun o =>
      ((o.select (Lookup.withoutSlash "/a/b")).toOption, o.document.parent? ⟨2⟩)) =
      some (some [.node ⟨3⟩], some ⟨1⟩) := by decide +kernel
  rw [found, Option.map_some, selected] at evaluated
  simp only [Except.toOption, Option.some.injEq, Prod.mk.injEq, List.cons.injEq, Hit.node.injEq] at evaluated
  obtain ⟨⟨rfl, -⟩, parent⟩ := evaluated
  have apart : ¬ o.document.Crowds ⟨3⟩ "x" ⟨2⟩ := fun crowds => by
    have same := parent.symm.trans crowds.parent
    exact absurd same (by decide)
  exact ⟨answered, (alone (.inr apart)).2⟩

/-- The link is put beside its target, which it has the name of. -/
theorem checkElement_lost_of_addLink : ∃ o, Session.identified.Reachable ∧
    Session.identified.store.document? 1 = some o ∧
    (∀ a ∈ o.document.documentOrder, (o.document.content a).Unqualified) ∧ (∀ b, o.document.Bears b "t" ↔ b = ⟨2⟩) ∧
    let (reply, s') := Session.identified.call 0 (.change 1 (.addLink "/a" "x" "t" .createAndOpen))
    reply.outcome = .answered (.optionalText (some "/a/x")) ∧
      s'.Gives 1 (.checkElement "/a/x") (.refused (.pathNotUnique "/a/x" 2)) := by
  obtain ⟨o, found, unqualified, -, borne⟩ := Session.document?_identified
  refine ⟨o, Session.reachable_identified, found, unqualified, borne, Outcome.eq_optionalText (by decide +kernel), ?_⟩
  have evaluated : (((Session.identified.call 0 (.change 1 (.addLink "/a" "x" "t" .createAndOpen))).2.store.document?
      1).map fun o => (o.select "/a/x").toOption) = some (some [.node ⟨2⟩, .node ⟨4⟩]) := by
    decide +kernel
  obtain ⟨o', found', selects⟩ := Option.map_eq_some_iff.mp evaluated
  have right := (Session.reachable_identified.call 0 _).sound.right.of_document? found'
  have whole : Lookup.withoutSlash "/a/x" = "/a/x" := Lookup.withoutSlash_eq (by decide)
  have selected := eq_ok_of_toOption selects
  rw [← whole] at selected
  have ambiguous := Lookup.comesTo_node_ambiguous selected Nat.one_lt_two
  rw [whole] at ambiguous
  exact Session.gives_checkElement found' right ambiguous

end XmlStore
