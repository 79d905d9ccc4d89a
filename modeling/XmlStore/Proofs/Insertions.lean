/-
Elements that are put in at a place. The call for it makes the element and its
text outside the tree, puts it among the children of a node, and only then
gives it its namespace. All that can fail comes before, so that for a valid
name and one node at the path the call succeeds, and what the document is
afterwards is known node by node.
-/
import XmlStore.Proofs.Answers
import XmlStore.Proofs.Declared
import XmlStore.Proofs.Swapped

namespace XmlStore

open Tracked (Ensures)

namespace Document

variable {d d' d'' : Document} {a e p : NodeId} {name text : String} {uri : Option String} {place : Nat}

/-! ## The order of the nodes that there were -/

/-- New nodes among the children leave the others in their order. The induction is on the forest of the document
with the new nodes. -/
theorem Branches.filter_preorder {f : Forest NodeId} (h : d.WellLinked)
    (kept : ∀ q, (d'.children q).filter (d.Has ·) = d.children q) (branches : d'.Branches f) :
    f.preorder.filter (d.Has ·) = (f.roots.filter (d.Has ·)).flatMap fun c => c :: d.descendants c := by
  induction f with
  | nil => rfl
  | cons id children rest ihc ihr =>
    obtain ⟨kids, inner, outer⟩ := branches
    have below : children.preorder.filter (d.Has ·) = d.descendants id := by
      rw [ihc inner, kids, kept, h.descendants_flatMap]
    rw [Forest.preorder, Forest.roots, List.filter_cons, List.filter_append, below, ihr outer, List.filter_cons]
    by_cases old : d.Has id
    · simp [old]
    · simp [old, descendants_of_not_has old]

theorem WellLinked.documentOrder_filter (h : d.WellLinked) (h' : d'.WellLinked) (has : d.Has root) (has' : d'.Has root)
    (kept : ∀ q, (d'.children q).filter (d.Has ·) = d.children q) :
    d'.documentOrder.filter (d.Has ·) = d.documentOrder := by
  have below := (h'.branches_below has').filter_preorder h kept
  rw [roots_below h' has', kept, ← h.descendants_flatMap] at below
  rw [documentOrder_eq h' has', List.filter_cons_of_pos (by simpa using has), below, documentOrder]

/-- The second document has the same links, and differs in what one node holds. -/
structure Retagged (d d' : Document) (e : NodeId) (tag : Element) : Prop where
  target : ∀ link a, d'.target link a = d.target link a
  size : d'.size = d.size
  content : ∀ a, d'.content a = if a = e then .element tag else d.content a
  declaration : d'.declaration = d.declaration

theorem retagged_modifyTag {tag : Element} (has : d.Has e) (element : d.content e = .element tag)
    (f : Element → Element) : Retagged d (d.modifyTag e f) e (f tag) where
  target _ _ := target_modifyContent _
  size := size_modifyContent _
  content a := by rw [modifyTag, content_modifyContent has, element]; rfl
  declaration := rfl

/-! ## A new element with its text -/

/-- A new element outside the tree, with a text below it unless that is empty. -/
def withElement (d : Document) (tag : Element) (text : String) : Document :=
  (d.graft (.element tag) (leaves (([text].filter (!·.isEmpty)).map .text))).2

theorem withElement_eq (d : Document) (tag : Element) (text : String) :
    d.withElement tag text = if text.isEmpty then (d.create (.element tag)).2
      else (d.create (.element tag)).2.addText ⟨d.size⟩ text := by
  rw [withElement, List.filter_singleton]
  cases text.isEmpty <;> rfl

/-- Some children with a new one at a place counted from 1, or behind them if there is no such place. -/
def childrenWith (ids : List NodeId) (place : Nat) (new : NodeId) : List NodeId :=
  if 1 ≤ place ∧ place ≤ ids.length then ids.insertIdx (place - 1) new else ids ++ [new]

/-- The second document has new nodes only, of which one is at a place among the children of a node. -/
structure Placed (d d' : Document) (p : NodeId) (place : Nat) : Prop extends Keeps d d' where
  wellLinked : d'.WellLinked
  place : d'.children p = childrenWith (d.children p) place ⟨d.size⟩
  others : ∀ q, d.Has q → q ≠ p → d'.children q = d.children q
  new : ∀ q, ¬ d.Has q → ∀ c ∈ d'.children q, ¬ d.Has c

/-- The new node is an element, with a text or none below it. -/
structure Planted (d d' : Document) (p : NodeId) (place : Nat) (tag : Element) (text : String) : Prop
    extends Placed d d' p place where
  element : d'.content ⟨d.size⟩ = .element tag
  texts : (d'.children ⟨d.size⟩).map d'.content = ([text].filter (!·.isEmpty)).map .text
  leaves : ∀ c ∈ d'.children ⟨d.size⟩, d'.children c = []

variable {tag : Element}

theorem filter_insertIdx {ids : List NodeId} {keep : NodeId → Bool} (new : keep a = false) (n : Nat) :
    (ids.insertIdx n a).filter keep = ids.filter keep := by
  induction ids generalizing n with
  | nil => cases n <;> simp [new]
  | cons id ids ih =>
    cases n with
    | zero => simp [new]
    | succ n => rw [List.insertIdx_succ_cons, List.filter_cons, ih, ← List.filter_cons]

theorem filter_childrenWith {ids : List NodeId} (kept : ∀ id ∈ ids, d.Has id) (place : Nat) :
    (childrenWith ids place ⟨d.size⟩).filter (d.Has ·) = ids := by
  have all : ids.filter (d.Has ·) = ids := List.filter_eq_self.mpr fun id mem => by simpa using kept id mem
  have new : decide (d.Has ⟨d.size⟩) = false := decide_eq_false not_has_new
  rw [childrenWith]
  split
  · rw [filter_insertIdx new, all]
  · rw [List.filter_append, all, List.filter_singleton, new]
    exact List.append_nil ids

theorem mem_childrenWith (ids : List NodeId) (place : Nat) (new : NodeId) : new ∈ childrenWith ids place new := by
  rw [childrenWith]
  split
  · exact (List.mem_insertIdx (by omega)).mpr (.inl rfl)
  · exact List.mem_append_right _ List.mem_cons_self

/-- The topmost node of a new tree is put among the children of a node that was there. -/
theorem placed_insertChildAt {top : Content} {below : Forest Content} (h : d.WellLinked) (hp : d.Has p)
    (copied : Copied d d' ⟨d.size⟩ top below) (place : Nat) :
    let d'' := d'.insertChildAt p ⟨d.size⟩ place
    Placed d d'' p place ∧ d''.content ⟨d.size⟩ = top ∧ d''.Shows d.size (d''.children ⟨d.size⟩) below := by
  have inserted := edited_insertChildAt (n := place) copied.wellLinked (copied.beside.insertable h copied.wellLinked hp)
  have same (a : NodeId) : (d'.insertChildAt p ⟨d.size⟩ place).content a = d'.content a :=
    Relinked.insertChildAt.content a
  have others (q : NodeId) (ne : q ≠ p) : (d'.insertChildAt p ⟨d.size⟩ place).children q = d'.children q := by
    rw [inserted.children, Function.update_of_ne ne]
  have newer (q : NodeId) (outside : ¬ d.Has q) : q ≠ p := fun e => outside (e ▸ hp)
  refine ⟨{ copied.toKeeps.trans inserted.toKeeps with
    wellLinked := inserted.wellLinked
    place := ?_
    others := fun q has ne => (others q ne).trans (copied.children q has)
    new := fun q outside c mem has => ?_ }, (same _).trans copied.content_top, ?_⟩
  · rw [inserted.children, Function.update_self, copied.children p hp, childrenWith]
  · -- A node that was there has its parent among those that were.
    rw [others q (newer q outside)] at mem
    have parent := (copied.wellLinked.parent c q).mp mem
    rw [copied.parent c has] at parent
    exact outside (h.has_parent parent)
  · rw [others _ (newer _ not_has_new)]
    refine copied.shown.frame (Nat.le_refl _) fun a new has => ⟨inserted.has has, same a, others a ?_⟩
    exact newer a (Nat.not_lt_of_le new)

/-- New nodes without children hold what they are made for. -/
theorem Shows.leaves {ids : List NodeId} {n : Nat} {contents : List Content}
    (shown : d.Shows n ids (leaves contents)) : ids.map d.content = contents ∧ ∀ c ∈ ids, d.children c = [] := by
  induction contents generalizing ids with
  | nil =>
    rw [shown]
    exact ⟨rfl, nofun⟩
  | cons content contents ih =>
    obtain ⟨id, others, rfl, -, -, rfl, childless, rest⟩ := shown
    obtain ⟨same, alone⟩ := ih rest
    exact ⟨congrArg _ same, List.forall_mem_cons.mpr ⟨childless, alone⟩⟩

/-- The new element is put among the children of a node that was there. -/
theorem planted_insertChildAt (h : d.WellLinked) (hp : d.Has p) (tag : Element) (text : String) (place : Nat) :
    Planted d ((d.withElement tag text).insertChildAt p ⟨d.size⟩ place) p place tag text := by
  obtain ⟨placed, element, shown⟩ := placed_insertChildAt h hp (copied_graft h (.element tag) _) place
  exact { placed with element, texts := shown.leaves.1, leaves := shown.leaves.2 }

namespace Placed

variable {q : NodeId} {qualifier : Option String} (placed : Placed d d' p place)

include placed

theorem parent_new : d'.parent? ⟨d.size⟩ = some p :=
  (placed.wellLinked.parent _ p).mp (placed.place ▸ mem_childrenWith ..)

theorem has_new : d'.Has ⟨d.size⟩ := has_of_target placed.parent_new

/-- Every list of children is as it was but for new nodes. -/
theorem kept (h : d.WellLinked) (q : NodeId) : (d'.children q).filter (d.Has ·) = d.children q := by
  have old : ∀ q, ∀ c ∈ d.children q, d.Has c := fun q c mem => h.lists.has_child mem
  by_cases has : d.Has q
  · by_cases here : q = p
    · rw [here, placed.place, filter_childrenWith (old p)]
    · rw [placed.others q has here]
      exact List.filter_eq_self.mpr fun c mem => by simpa using old q c mem
  · rw [children_of_not_has has]
    exact List.filter_eq_nil_iff.mpr fun c mem => by simpa using placed.new q has c mem

theorem parent_old (h : d.WellLinked) (has : d.Has a) : d'.parent? a = d.parent? a := by
  ext q
  rw [← placed.wellLinked.parent, ← h.parent, ← placed.kept h q, List.mem_filter]
  simp [has]

theorem ancestors_old (h : d.WellLinked) (has : d.Has a) : d'.ancestors a = d.ancestors a :=
  h.ancestors_congr placed.wellLinked has (placed.has has) fun _ mem => placed.parent_old h (h.has_ancestor has mem)

theorem lookupNamespace_old (h : d.WellLinked) (has : d.Has a) :
    d'.lookupNamespace a qualifier = d.lookupNamespace a qualifier := by
  have scope : d'.scope a = d.scope a := by
    rw [scope, placed.ancestors_old h has, scope]
    refine List.flatMap_congr fun b mem => ?_
    rw [placed.content b (h.has_ancestor has mem)]
  rw [lookupNamespace, scope, lookupNamespace]

/-- The nodes that there were keep their order. -/
theorem documentOrder (h : d.Rooted) : d'.documentOrder.filter (d.Has ·) = d.documentOrder :=
  h.wellLinked.documentOrder_filter placed.wellLinked h.has_root (placed.has h.has_root) (placed.kept h.wellLinked)

end Placed

/-- A text is left out only if it is empty. -/
theorem joinCharacters_filled (text : String) :
    Content.joinCharacters (([text].filter (!·.isEmpty)).map .text) = text := by
  rw [List.filter_singleton]
  cases empty : text.isEmpty with
  | true =>
    rw [String.isEmpty_iff.mp empty]
    rfl
  | false => simp [Content.joinCharacters, Content.characters?]

namespace Planted

variable {q : NodeId} {qualifier : Option String} (planted : Planted d d' p place tag text)

include planted

theorem directText_new : d'.directText ⟨d.size⟩ = text := by
  rw [directText, planted.texts, joinCharacters_filled]

/-- At the new element, without declarations of its own, a qualifier stands for what it stands for above. -/
theorem lookupNamespace_new (h : d.WellLinked) (hp : d.Has p) (undeclared : tag.bindings = [])
    (qualifier : Option String) :
    d'.lookupNamespace ⟨d.size⟩ qualifier = d.lookupNamespace p qualifier := by
  have scope : d'.scope ⟨d.size⟩ = d'.scope p := by
    rw [scope, planted.wellLinked.ancestors_eq planted.parent_new, List.flatMap_cons, planted.element]
    exact congrArg (· ++ _) undeclared
  rw [← planted.lookupNamespace_old h hp, lookupNamespace, scope, lookupNamespace]

theorem retag {tag' : Element} (retagged : Retagged d' d'' ⟨d.size⟩ tag') : Planted d d'' p place tag' text := by
  obtain ⟨linked, children⟩ := planted.wellLinked.congr retagged.target
  have content (a : NodeId) (ne : a ≠ ⟨d.size⟩) : d''.content a = d'.content a := by
    rw [retagged.content, if_neg ne]
  have inner : ∀ c ∈ d'.children ⟨d.size⟩, c ≠ ⟨d.size⟩ := by
    rintro c mem rfl
    rw [planted.leaves _ mem] at mem
    cases mem
  exact {
    size := retagged.size ▸ planted.size
    content := fun a has => (content a fun e => not_has_new (e ▸ has)).trans (planted.content a has)
    declaration := retagged.declaration.trans planted.declaration
    wellLinked := linked
    place := children ▸ planted.place
    others := children ▸ planted.others
    new := children ▸ planted.new
    element := by rw [retagged.content, if_pos rfl]
    texts := by
      rw [children, ← planted.texts]
      exact List.map_congr_left fun c mem => content c (inner c mem)
    leaves := children ▸ planted.leaves }

end Planted

/-- The document with a new element at a place among the children of a node, in a given namespace or in the one
that its qualifier stands for there. -/
def insertElement (d : Document) (p : NodeId) (name : String) (uri : Option String) (text : String) (place : Nat) :
    Document :=
  let placed := (d.withElement (.named (.ofString name)) text).insertChildAt p ⟨d.size⟩ place
  match uri with
  | some uri => placed.inNamespace ⟨d.size⟩ (QName.ofString name).qualifier uri
  | none => placed.rename ⟨d.size⟩ name

/-- The tag of such an element. A namespace that is given is declared if its qualifier does not stand for it. -/
def newTag (d : Document) (p : NodeId) (name : String) (uri : Option String) : Element :=
  let name := QName.ofString name
  let inForce := d.lookupNamespace p name.qualifier
  { name, uri := uri.or inForce, bindings := (uri.toList.filter (some · ≠ inForce)).map (⟨name.qualifier, ·⟩),
    attributes := [] }

theorem planted_insertElement (h : d.WellLinked) (hp : d.Has p) (name : String) (uri : Option String)
    (text : String) (place : Nat) :
    Planted d (d.insertElement p name uri text place) p place (d.newTag p name uri) text := by
  have planted := planted_insertChildAt h hp (.named (.ofString name)) text place
  have has := planted.has_new
  cases uri with
  | none =>
    have inForce := planted.lookupNamespace_new h hp rfl (QName.ofString name).qualifier
    have tag : d.newTag p name none = ⟨.ofString name, d.lookupNamespace p (QName.ofString name).qualifier, [], []⟩ :=
      rfl
    rw [insertElement, tag, ← inForce]
    exact planted.retag (retagged_modifyTag has planted.element _)
  | some uri =>
    rw [insertElement, inNamespace]
    have provided : ((d.withElement (.named (.ofString name)) text).insertChildAt p ⟨d.size⟩ place).Provided
        ⟨d.size⟩ (QName.ofString name).qualifier uri ↔
          d.lookupNamespace p (QName.ofString name).qualifier = some uri := by
      rw [Provided, planted.parent_new, Option.bind_some, planted.lookupNamespace_old h hp, planted.element]
      exact or_iff_left List.not_mem_nil
    split
    · rename_i inForce
      rw [provided] at inForce
      have tag : d.newTag p name (some uri) = ⟨.ofString name, some uri, [], []⟩ := by simp [newTag, inForce]
      rw [tag]
      exact planted.retag (retagged_modifyTag has planted.element _)
    · rename_i differs
      rw [provided, eq_comm] at differs
      have tag : d.newTag p name (some uri) =
          ⟨.ofString name, some uri, [⟨(QName.ofString name).qualifier, uri⟩], []⟩ := by simp [newTag, differs]
      have bound := planted.retag (retagged_modifyTag has planted.element (·.bind (QName.ofString name).qualifier uri))
      rw [tag]
      exact bound.retag (retagged_modifyTag bound.has_new bound.element _)

end Document

/-! ## The edit -/

namespace Edit

variable {o : OpenDocument} {path name : String} {uri text : Option String} {place : Nat} {p : NodeId}

theorem ensures_withElement {tag : Element} {characters : String} :
    Ensures (fun u => u.document = (o.document.create (.element tag)).2) (appendText ⟨o.document.size⟩ characters)
      (fun _ u => u.document = o.document.withElement tag characters) fun _ => False := by
  rw [appendText, Document.withElement_eq]
  cases empty : characters.isEmpty with
  | true => exact .pure fun u made => made
  | false =>
    refine .bind (Q := fun child u => ∃ before, before = (o.document.create (.element tag)).2 ∧
        child = ⟨before.size⟩ ∧ u.document = (before.create (.text characters)).2)
      (.modifyGet fun u made => ⟨u.document, made, rfl, rfl⟩) fun child => .modify ?_
    rintro u ⟨before, rfl, rfl, made⟩
    dsimp only
    rw [made]
    rfl

theorem ensures_insertElement_new (selected : o.select (Lookup.withoutSlash path) = .ok [.node p])
    (inner : (o.document.content p).isInner = true) (valid : isQName name = true) (filled : uri ≠ some "") :
    Ensures (· = o) (insertElement path name uri text place)
      (fun id u => id = ⟨o.document.size⟩ ∧
        u.document = o.document.insertElement p name uri (text.getD "") place) fun _ => False := by
  rw [insertElement, requireName, valid]
  dsimp only
  rw [if_neg (by decide), if_neg filled]
  refine .bind (Q := fun _ => (· = o)) (.pure fun _ h => h) fun _ => ?_
  refine .bind (ensures_found selected inner) fun found => .assume fun same => ?_
  subst same
  let tag : Element := .named (.ofString name)
  have created : Ensures (· = o) (create (.element tag)) (fun id u =>
      u.document = (o.document.create (.element tag)).2 ∧ id = ⟨o.document.size⟩) fun _ => False :=
    .modifyGet fun u same => by rw [same]; exact ⟨rfl, rfl⟩
  refine .bind created fun id => .assume fun same => ?_
  subst same
  refine .bind ensures_withElement fun _ => ?_
  let placed := (o.document.withElement tag (text.getD "")).insertChildAt found ⟨o.document.size⟩ place
  have put : Ensures (fun u => u.document = o.document.withElement tag (text.getD ""))
      (change (·.insertChildAt found ⟨o.document.size⟩ place)) (fun _ u => u.document = placed) fun _ => False :=
    .modify fun u made => by dsimp only; rw [made]
  refine .bind put fun _ => ?_
  cases uri with
  | some uri =>
    refine .bind ensures_inNamespace fun _ => .pure ?_
    rintro u ⟨before, made, named⟩
    rw [named, made]
    exact ⟨rfl, rfl⟩
  | none =>
    have renamed : Ensures (fun u => u.document = placed) (change (·.rename ⟨o.document.size⟩ name))
        (fun _ u => u.document = placed.rename ⟨o.document.size⟩ name) fun _ => False :=
      .modify fun u made => by dsimp only; rw [made]
    exact .bind renamed fun _ => .pure fun _ h => ⟨rfl, h⟩

theorem ensures_insertElement_done (selected : o.select (Lookup.withoutSlash path) = .ok [.node p])
    (inner : (o.document.content p).isInner = true) (valid : isQName name = true) (filled : uri ≠ some "") :
    Ensures (· = o) (insertElement path name uri text place)
      (fun _ u => u.document = o.document.insertElement p name uri (text.getD "") place) fun _ => False :=
  (ensures_insertElement_new selected inner valid filled).imp (fun _ same => same) fun _ _ made => made.2

/-- An element that has been put in is below the only node at the path. -/
theorem ensures_inserted (sound : o.document.Sound) : Ensures (· = o) (insertElement path name uri text place)
    (fun id u => id = ⟨o.document.size⟩ ∧ ∃ p, Lookup.Finds o path p ∧
      u.document = o.document.insertElement p name uri (text.getD "") place) Left := by
  by_cases possible : isQName name = true ∧ uri ≠ some "" ∧ ∃ p, Lookup.Finds o path p
  · obtain ⟨valid, filled, p, finds⟩ := possible
    exact ((ensures_insertElement_new finds.selected finds.inner valid filled).imp (fun _ same => same)
      fun _ _ made => ⟨made.1, p, finds, made.2⟩).fails fun _ => False.elim
  · have left := left_of_eq sound
    rw [insertElement]
    refine .bind (ensures_requireName left) fun _ => .assume fun valid => ?_
    dsimp only
    split
    · exact .refuse left
    · rename_i filled
      exact .bind (ensures_finds sound) fun p => .assume fun finds => absurd ⟨valid, filled, p, finds⟩ possible

end Edit

/-! ## The call -/

/-- An element that is added by a call stands at the place among the children of its parent, or behind them if
there is no such place. It has the name, no attributes, the text below it if there is one, and the namespace that
was given or else the one that its qualifier stands for there. Every other node holds what it held, below the
same parent and in the same order. -/
theorem answered_addElement {s : Session} {handle : Handle} {o : OpenDocument} (reachable : s.Reachable)
    (found : s.store.document? handle = some o) (editable : o.status = .editable) {parent name : String} {p : NodeId}
    (selected : o.select (Lookup.withoutSlash parent) = .ok [.node p]) (inner : (o.document.content p).isInner = true)
    (valid : isQName name = true) (text uri : Option String) (filled : uri ≠ some "") (place : Int) (patience : Nat) :
    let (reply, s') := s.call patience (.change handle (.addElement parent name uri (text.map .text) place))
    let d := o.document
    let e : NodeId := ⟨d.size⟩
    let inForce := d.lookupNamespace p (QName.ofString name).qualifier
    reply.outcome = .answered .done ∧ ∃ d', s'.store.document? handle = some { o with document := d', cache := none } ∧
      (d'.children p = if 1 ≤ place ∧ place ≤ (d.children p).length then (d.children p).insertIdx (place.toNat - 1) e
        else d.children p ++ [e]) ∧
      (∃ tag, d'.content e = .element tag ∧ tag.name = .ofString name ∧ tag.attributes = [] ∧
        tag.uri = uri.or inForce ∧
        tag.bindings = (uri.toList.filter (some · ≠ inForce)).map (⟨tag.name.qualifier, ·⟩)) ∧
      (d'.children e).map d'.content = (text.toList.filter (!·.isEmpty)).map .text ∧
      (∀ c ∈ d'.children e, d'.children c = []) ∧
      (∀ n, d.Has n → d'.content n = d.content n ∧ d'.parent? n = d.parent? n ∧
        (n ≠ p → d'.children n = d.children n)) ∧
      d'.documentOrder.filter (d.Has ·) = d.documentOrder := by
  have rooted := (reachable.allSound.of_document? found).made.rooted
  have linked := rooted.wellLinked
  have attached : o.document.Attached p :=
    Lookup.attached_of_select rooted selected (.node p) List.mem_cons_self
  have accepted : (Change.addElement parent name uri (text.map .text) place).edit =
      .ok (do discard (Edit.insertElement parent name uri text place.toNat); return .done) := by
    cases text <;> rfl
  have edited : Ensures (· = o) (discard (Edit.insertElement parent name uri text place.toNat))
      (fun _ u => u.document = o.document.insertElement p name uri (text.getD "") place.toNat) fun _ => False :=
    .discard (Edit.ensures_insertElement_done selected inner valid filled)
  obtain ⟨answered, d', found', rfl⟩ := Session.answered_of_ensures found editable accepted
    (Q := (· = o.document.insertElement p name uri (text.getD "") place.toNat))
    (.bind edited fun _ => .pure fun u made => ⟨rfl, made⟩) patience
  have planted := Document.planted_insertElement linked attached.has name uri (text.getD "") place.toNat
  refine ⟨answered, _, found', ?_, ⟨_, planted.element, rfl, rfl, rfl, rfl⟩, ?_, planted.leaves,
    fun n has => ⟨planted.content n has, planted.parent_old linked has, planted.others n has⟩,
    planted.documentOrder rooted⟩
  · have range : (1 ≤ place.toNat ∧ place.toNat ≤ (o.document.children p).length) ↔
        1 ≤ place ∧ place ≤ (o.document.children p).length := by omega
    rw [planted.place, Document.childrenWith]
    simp only [range]
  · rw [planted.texts]
    cases text <;> rfl

/-- An element with a text before the only child of the root element, if that is where it is to go; for every
other place behind it. -/
theorem answered_addElement_places : ∃ o, Session.qualified.store.document? 1 = some o ∧ ∀ place : Int,
    let (reply, s') :=
      Session.qualified.call 0 (.change 1 (.addElement "/a" "p:d" none (some (.text "t")) place))
    reply.outcome = .answered .done ∧ ∃ d', s'.store.document? 1 = some { o with document := d', cache := none } ∧
      d'.children ⟨1⟩ = (if place = 1 then [⟨4⟩, ⟨2⟩] else [⟨2⟩, ⟨4⟩]) ∧
      (d'.children ⟨4⟩).map d'.content = [.text "t"] ∧
      ∃ tag, d'.content ⟨4⟩ = .element tag ∧ tag.uri = some "u" := by
  have evaluated : (Session.qualified.store.document? 1).map (fun o => (o.document.size,
      (o.select (Lookup.withoutSlash "/a")).toOption, o.document.children ⟨1⟩,
      decide (o.status = .editable ∧ (o.document.content ⟨1⟩).isInner = true ∧
        o.document.lookupNamespace ⟨1⟩ (QName.ofString "p:d").qualifier = some "u"))) =
      some (4, some [.node ⟨1⟩], [⟨2⟩], true) := by decide +kernel
  obtain ⟨o, found, facts⟩ := Option.map_eq_some_iff.mp evaluated
  simp only [Prod.mk.injEq, decide_eq_true_eq] at facts
  obtain ⟨size, selects, children, editable, inner, inForce⟩ := facts
  refine ⟨o, found, fun place => ?_⟩
  obtain ⟨answered, d', found', placed, ⟨tag, element, -, -, uri, -⟩, texts, -⟩ :=
    answered_addElement Session.reachable_qualified found editable (eq_ok_of_toOption selects) inner
      (by decide +kernel : isQName "p:d" = true) (some "t") none (by decide) place 0
  rw [size] at placed element texts
  refine ⟨answered, d', found', ?_, texts, tag, element, uri.trans inForce⟩
  rw [placed, children]
  by_cases first : place = 1
  · rw [if_pos first, first]
    rfl
  · rw [if_neg first, if_neg (by simp; omega)]
    rfl

end XmlStore
