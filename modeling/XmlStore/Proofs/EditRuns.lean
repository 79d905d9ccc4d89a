/-
Runs of the edits that are put by paths. Whether it succeeds or fails, an edit
leaves a document that came about by steps: it looks for its nodes and checks
its names in time, so that every step it takes is one that it may take.
-/
import XmlStore.Store.Header
import XmlStore.Store.Matrix
import XmlStore.Store.Namespaces
import XmlStore.Proofs.Lookups
import XmlStore.Proofs.Spelling

namespace XmlStore

open Tracked (Ensures)

/-- A document that was made by calls and has certain nodes, below which others may be put. -/
structure Document.Holds (d : Document) (ids : List NodeId) : Prop where
  sound : d.Sound
  inner : ∀ id ∈ ids, d.Inner id

namespace Document.Holds

variable {d d' : Document} {ids : List NodeId} {id : NodeId}

theorem has (h : d.Holds ids) (id : NodeId) (hid : id ∈ ids) : d.Has id := (h.inner id hid).has

theorem cons (h : d.Holds ids) (inner : d.Inner id) : d.Holds (id :: ids) :=
  ⟨h.sound, List.forall_mem_cons.mpr ⟨inner, h.inner⟩⟩

theorem sub {fewer : List NodeId} (h : d.Holds ids) (sub : fewer ⊆ ids) : d.Holds fewer :=
  ⟨h.sound, fun _ hid => h.inner _ (sub hid)⟩

theorem rooted (h : d.Holds ids) : d.Rooted := h.sound.made.rooted

theorem step (h : d.Holds ids) (advance : d.Advance d') : d'.Holds ids :=
  ⟨h.sound.advance advance, fun id hid => (advance.step.retains h.rooted).inner (h.inner id hid)⟩

end Document.Holds

namespace Edit

variable {α : Type} {P : OpenDocument → Prop} {ids : List NodeId} {id p : NodeId}
variable {name path text uri value : String}

/-- The condition of an edit that works on certain nodes. -/
abbrev Holding (ids : List NodeId) (o : OpenDocument) : Prop := o.document.Holds ids

/-- The condition of an edit that fails. -/
abbrev Left (o : OpenDocument) : Prop := o.document.Sound

theorem left_of_holding (o : OpenDocument) (h : Holding ids o) : Left o := h.sound

/-- A question leaves the document as it is, and is answered with nothing remembered. -/
theorem ensures_asked {question : Lookup α} {Q : OpenDocument → α → Prop} {R : OpenDocument → Prop}
    (hP : ∀ o, P o → R o) (answer : ∀ o : OpenDocument, P o →
      Lookup.Yields { o with preferences := { o.preferences with caching := false } } question (Q o)) :
    Ensures P (look question) (fun a o => P o ∧ Q o a) R := by
  rw [look]
  refine .bind (.get (Q := fun d o => P o ∧ o = d) fun o ho => ⟨ho, rfl⟩) fun d => ?_
  refine .bind (Q := fun a o => P o ∧ Q o a.1) (.report (fun o ho => hP o ho.1) ?_) fun a =>
    .pure fun _ ho => ho
  rintro o ⟨ho, rfl⟩ messages a returns
  refine ⟨ho, Tracked.returns_runOn (Q := fun a _ => Q o a) (R := fun _ => True) ?_ messages a returns⟩
  exact (answer o ho).imp (fun _ _ => trivial) fun _ _ h => h

/-- A question that is answered by the document alone. -/
theorem ensures_look {question : Lookup α} {Q : OpenDocument → α → Prop} (hP : ∀ o, P o → Left o)
    (answer : ∀ o, P o → ∀ u : OpenDocument, u.document = o.document → u.preferences.caching = false →
      Lookup.Yields u question (Q o)) :
    Ensures P (look question) (fun a o => P o ∧ Q o a) Left :=
  ensures_asked hP fun o ho => answer o ho _ rfl rfl

theorem ensures_node :
    Ensures (Holding ids) (look (Lookup.node path)) (fun id => Holding (id :: ids)) Left := by
  refine (ensures_look (Q := fun o id => o.document.Attached id ∧ (o.document.content id).isInner = true)
    left_of_holding fun o ho u same uncached => ?_).imp
      (fun _ h => h) fun id o h => h.1.cons ⟨h.2.1.has, h.2.2⟩
  rw [← same]
  exact (Lookup.yields_node (same ▸ ho.rooted) uncached).imp (fun _ h => h) fun _ _ h => ⟨h.attached, h.inner⟩

theorem ensures_document {R : OpenDocument → Prop} :
    Ensures P document (fun d o => P o ∧ o.document = d) R := by
  rw [document]
  exact .bind (.get (Q := fun d o => P o ∧ o = d) fun o ho => ⟨ho, rfl⟩) fun d =>
    .pure fun o ho => ⟨ho.1, congrArg _ ho.2⟩

/-- Reading the document keeps what holds, where the proof needs no more of what was read. -/
theorem ensures_peek {R : OpenDocument → Prop} : Ensures P document (fun _ => P) R :=
  ensures_document.imp (fun _ h => h) fun _ _ h => h.1

/-- A change that is a step keeps the nodes. -/
theorem ensures_step {f : Document → Document} (step : ∀ d : Document, d.Holds ids → d.Advance (f d)) :
    Ensures (Holding ids) (change f) (fun _ => Holding ids) Left :=
  .modify fun o ho => ho.step (step o.document ho)

theorem ensures_requireName (hP : ∀ o, P o → Left o) :
    Ensures P (requireName name) (fun _ o => P o ∧ isQName name = true) Left := by
  rw [requireName]
  split
  · exact .throw hP
  · rename_i valid
    exact .pure fun _ ho => ⟨ho, by simpa using valid⟩

theorem ensures_create (content : Content) : Ensures P (create content)
    (fun id o => ∃ before, P before ∧ id = ⟨before.document.size⟩ ∧
      o = { before with document := (before.document.create content).2 }) Left :=
  .modifyGet fun o ho => ⟨o, ho, rfl, rfl⟩

/-- Adding a text keeps what is kept when the document gets a text below that node. -/
theorem ensures_appendText
    (stable : ∀ o, P o → P { o with document := o.document.addText id text }) :
    Ensures P (appendText id text) (fun _ => P) Left := by
  rw [appendText]
  split
  · refine .bind (ensures_create _) fun child => .modify ?_
    rintro _ ⟨o, ho, rfl, rfl⟩
    exact stable o ho
  · exact .pure fun _ ho => ho

theorem ensures_appendElement (hp : p ∈ ids) (valid : isQName name = true) :
    Ensures (Holding ids) (appendElement p name text) (fun id => Holding (id :: ids)) Left := by
  rw [appendElement]
  refine .bind (ensures_create _) fun id => ?_
  refine .bind (Q := fun _ => Holding (id :: ids)) (.modify ?_) fun _ => ?_
  · rintro _ ⟨o, ho, rfl, rfl⟩
    exact (ho.step (.addElement (ho.inner p hp) name valid)).cons (Document.inner_addElement name)
  · refine .bind (ensures_appendText fun o ho => ?_) fun _ => .pure fun _ ho => ho
    exact ho.step (.addText (ho.inner id List.mem_cons_self) text)

theorem ensures_applyNamespace {qualifier : Option String} (chars : ∀ q ∈ qualifier, Cursor.NameChars q) :
    Ensures (Holding ids) (applyNamespace id qualifier uri) (fun _ => Holding ids) Left := by
  rw [applyNamespace]
  refine .bind ensures_peek fun d => ?_
  dsimp only
  split
  · refine .bind (ensures_step fun d _ => .bind id chars uri) fun _ => ?_
    exact ensures_step fun d _ => .setNamespace id chars uri
  · exact ensures_step fun d _ => .setNamespace id chars uri

/-- The condition of an edit that has made a node beside those of an earlier document, which has
certain nodes. -/
def Placing (ids : List NodeId) (id : NodeId) (o : OpenDocument) : Prop :=
  Holding (id :: ids) o ∧
    ∃ before : Document, before.Rooted ∧ (∀ i ∈ ids, before.Has i) ∧ before.Beside o.document id

/-- The node made may be put below the nodes there were. -/
theorem Placing.step {o : OpenDocument} (h : Placing ids id o) (hp : p ∈ ids) (place : Nat) :
    o.document.Advance (o.document.insertChildAt p id place) := by
  obtain ⟨held, before, rooted, has, beside⟩ := h
  exact .insertChildAt place (beside.insertable rooted.wellLinked held.rooted.wellLinked (has p hp))
    (held.inner p (List.mem_cons_of_mem id hp)) (beside.ne_root rooted)

theorem Placing.addText {o : OpenDocument} (h : Placing ids id o) (text : String) :
    Placing ids id { o with document := o.document.addText id text } := by
  obtain ⟨held, before, rooted, has, beside⟩ := h
  exact ⟨held.step (.addText (held.inner id List.mem_cons_self) text), before, rooted, has,
    beside.addText held.rooted.wellLinked text⟩

theorem placing_newElement {o : OpenDocument} (ho : Holding ids o) (valid : isQName name = true) :
    Placing ids ⟨o.document.size⟩
      { o with document := (o.document.create (.element (.named (.ofString name)))).2 } := by
  have beside := Document.beside_create (d := o.document) (.element (.named (.ofString name)))
  exact ⟨(ho.step (.newElement name valid)).cons (Document.inner_create _), o.document, ho.rooted,
    ho.has, beside⟩

theorem ensures_newElement (valid : isQName name = true) :
    Ensures (Holding ids) (create (.element (.named (.ofString name)))) (Placing ids) Left := by
  refine (ensures_create _).imp (fun _ h => h) ?_
  rintro _ _ ⟨o, ho, rfl, rfl⟩
  exact placing_newElement ho valid

theorem ensures_insertChildAt {place : Nat} (hp : p ∈ ids) :
    Ensures (Placing ids id) (change (·.insertChildAt p id place)) (fun _ => Holding (id :: ids)) Left :=
  .modify fun _ ho => ho.1.step (ho.step hp place)

theorem ensures_insertElement {uri text : Option String} {place : Nat} :
    Ensures (Holding ids) (insertElement path name uri text place) (fun id => Holding (id :: ids))
      Left := by
  rw [insertElement]
  refine .bind (ensures_requireName left_of_holding) fun _ => .assume fun valid => ?_
  dsimp only
  split
  · exact .refuse left_of_holding
  refine .bind ensures_node fun parent => ?_
  refine .bind (ensures_newElement valid) fun id => ?_
  refine .bind (ensures_appendText fun o ho => ho.addText _) fun _ => ?_
  refine .bind (ensures_insertChildAt List.mem_cons_self) fun _ => ?_
  have forget : ∀ (_ : PUnit) o, Holding (id :: parent :: ids) o → Holding (id :: ids) o :=
    fun _ o ho => ho.sub (List.cons_subset_cons id (List.subset_cons_self parent ids))
  split
  · have chars : ∀ q ∈ (QName.ofString name).qualifier, Cursor.NameChars q :=
      (nameChars_text.mp (by rw [QName.text_ofString]; exact nameChars_of_isQName valid)).1
    exact .bind ((ensures_applyNamespace chars).imp (fun _ h => h) forget) fun _ => .pure fun _ ho => ho
  · have renamed : Ensures (Holding (id :: parent :: ids)) (change (·.rename id name))
        (fun _ => Holding (id :: parent :: ids)) Left := ensures_step fun d _ => .rename id name valid
    exact .bind (renamed.imp (fun _ h => h) forget) fun _ => .pure fun _ ho => ho

theorem ensures_replaceText (hid : id ∈ ids) :
    Ensures (Holding ids) (replaceText id text) (fun _ => Holding ids) Left := by
  rw [replaceText]
  refine .bind (ensures_create _) fun child => .modify ?_
  rintro _ ⟨o, ho, rfl, rfl⟩
  have replaced := ho.step (.replaceText (ho.inner id hid) text)
  have same : (o.document.create (.text text)).2.firstChild? id = o.document.firstChild? id :=
    Document.target_create _
  rw [Document.replaceText] at replaced
  dsimp only [Holding]
  rw [same]
  exact replaced

theorem ensures_updateText :
    Ensures (Holding ids) (updateText path text) (fun _ => Holding ids) Left := by
  rw [updateText]
  refine .bind ensures_node fun id => ?_
  exact (ensures_replaceText List.mem_cons_self).imp (fun _ h => h) fun _ _ h => h.sub (List.subset_cons_self ..)

theorem ensures_renameChildren {old new : String} :
    Ensures (Holding ids) (renameChildren path old new) (fun _ => Holding ids) Left := by
  rw [renameChildren]
  refine .bind (ensures_requireName left_of_holding) fun _ => .assume fun valid => ?_
  refine .bind ensures_node fun id => ?_
  refine .bind ensures_peek fun d => ?_
  dsimp only
  split
  · exact .refuse left_of_holding
  · exact (Ensures.forM fun target _ => ensures_step fun d _ => .rename target new valid).imp
      (fun _ h => h.sub (List.subset_cons_self ..)) fun _ _ h => h

theorem ensures_remove : Ensures (Holding ids) (remove path) (fun _ => Holding ids) Left := by
  rw [remove]
  refine .bind ((ensures_look (Q := fun _ _ => True) left_of_holding fun _ _ _ _ _ => .any).imp
    (fun _ h => h) fun _ _ h => h.1) fun hit => ?_
  rcases hit with id | ⟨owner, index⟩
  · dsimp only
    split
    · exact .refuse left_of_holding
    · exact ensures_step fun d _ => .detach id
  · exact .throw left_of_holding

theorem ensures_attachedNode (hP : ∀ o, P o → Left o) : Ensures P (look (Lookup.node path))
    (fun id o => P o ∧ o.document.Attached id) Left := by
  refine ensures_look (Q := fun o => o.document.Attached) hP fun o ho u same uncached => ?_
  rw [← same]
  exact (Lookup.yields_node (same ▸ (hP o ho).made.rooted) uncached).imp (fun _ h => h) fun _ _ h => h.attached

theorem ensures_swap {a b : String} : Ensures (Holding ids) (swap a b) (fun _ => Holding ids) Left := by
  rw [swap]
  refine .bind (ensures_attachedNode left_of_holding) fun first => ?_
  refine .bind (ensures_attachedNode fun o ho => ho.1.sound) fun second => ?_
  refine .bind ensures_document fun d => ?_
  dsimp only
  split
  · rename_i ne
    split
    · exact .refuse fun o ho => ho.1.1.1.sound
    · rename_i apart
      refine .modify ?_
      rintro o ⟨⟨⟨ho, first_attached⟩, second_attached⟩, rfl⟩
      obtain ⟨below, above⟩ := not_or.mp (mt (Bool.or_eq_true ..).mpr apart)
      refine ho.step (.swap first_attached.has second_attached.has (Bool.eq_false_iff.mpr below)
        (Bool.eq_false_iff.mpr above) ?_ ?_)
      · rintro rfl
        exact below (second_attached.isAncestor_root ho.rooted (Ne.symm ne))
      · rintro rfl
        exact above (first_attached.isAncestor_root ho.rooted ne)
  · exact .pure fun o ho => ho.1.1.1

theorem ensures_importMarkup {place : Nat} :
    Ensures (Holding ids) (importMarkup path text place) (fun _ => Holding ids) Left := by
  rw [importMarkup]
  refine .bind (.get (Q := fun _ => Holding ids) fun o ho => ho) fun d => ?_
  split
  · exact .throw left_of_holding
  · rename_i source read
    refine .bind ensures_node fun parent => ?_
    split
    · exact .throw left_of_holding
    · rename_i top found
      refine .bind ensures_document fun d => ?_
      refine .modify ?_
      rintro o ⟨ho, rfl⟩
      obtain ⟨m, parsed, rfl⟩ := Document.ofString_ok.mp read
      have copied := Document.copied_graft ho.rooted.wellLinked
        ((Document.ofMarkup m).content top) ((Document.ofMarkup m).contents top)
      have grafted := ho.step (.graft ⟨_, _, parsed⟩ (Document.root?_of_rootElement? found))
      have fit := copied.beside.insertable ho.rooted.wellLinked copied.wellLinked
        (ho.has parent List.mem_cons_self)
      have inner := grafted.inner parent List.mem_cons_self
      exact (grafted.step (.insertChildAt place fit inner (copied.beside.ne_root ho.rooted))).sub
        (List.subset_cons_self ..)

theorem ensures_setAttribute :
    Ensures (Holding ids) (setAttribute path name value) (fun _ => Holding ids) Left := by
  rw [setAttribute]
  dsimp only
  split
  · exact .refuse left_of_holding
  refine .bind (ensures_requireName left_of_holding) fun _ => .assume fun valid => ?_
  refine .bind (ensures_node.imp (fun _ h => h) fun id _ h => h.sub (List.subset_cons_self ..)) fun id => ?_
  refine .bind ensures_peek fun d => ?_
  have set : Ensures (Holding ids) (change (·.setAttribute id name value)) (fun _ => Holding ids) Left :=
    ensures_step fun d _ => .setAttribute id name value valid
  split
  · exact .refuse left_of_holding
  split
  · split
    · exact .refuse left_of_holding
    · exact set
  · exact set

theorem ensures_removeAttribute :
    Ensures (Holding ids) (removeAttribute path name) (fun _ => Holding ids) Left := by
  rw [removeAttribute]
  refine .bind ((ensures_look (Q := fun _ _ => True) left_of_holding fun _ _ _ _ _ => .any).imp
    (fun _ h => h) fun _ _ h => h.1) fun hit => ?_
  rcases hit with id | ⟨owner, index⟩
  · exact ensures_step fun d _ => .removeAttribute id name
  · exact .pure fun _ ho => ho

end Edit

end XmlStore
