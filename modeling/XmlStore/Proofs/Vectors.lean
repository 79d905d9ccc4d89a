/-
Vectors that are written and read again. A new element has nothing but the text
with the numbers, so that they are read from it one by one. In an element that
there was this text takes the place of the first child only: what the other
children hold comes behind it, and the numbers are found again exactly if that
is nothing but white space and semicolons.
-/
import XmlStore.Proofs.Matrices
import XmlStore.Proofs.Siblings
import XmlStore.Proofs.VectorTexts

namespace XmlStore

open Tracked (Ensures)

/-! ## The texts of the numbers -/

section

variable {numbers : List Float} {x : Float}

/-- A number in the default format has no gaps and is read back. -/
theorem writtenAs_default (x : Float) : writeFloat none x = .ok (writtenAs none x) ∧ writtenAs none x ≠ "" ∧
    (∀ c ∈ (writtenAs none x).toList, isGap c = false) ∧ readBack none x ≠ none := by
  obtain ⟨cs, written, filled, solid, read⟩ := written_default x
  have text : writtenAs none x = String.ofList cs := by
    rw [writtenAs, written]
    rfl
  have trimmed : trimBy isSpace cs = cs := trimBy_eq_self fun c here => (not_isGap.mp (solid c here)).1
  have back : readBack none x = readFloat? cs := by
    rw [readBack, written, Except.toOption, Option.bind_eq_bind, Option.bind_some, String.toList_ofList, trimmed]
  rw [text, back, String.toList_ofList]
  exact ⟨written, mt String.ofList_eq_empty_iff.mp filled, solid, Option.isSome_iff_ne_none.mp read⟩

/-- The text of a vector in the default format. -/
def defaultVector (numbers : List Float) : String := ";".intercalate (numbers.map (writtenAs none))

theorem writeVector_default (numbers : List Float) : writeVector none numbers = .ok (defaultVector numbers) := by
  have all : numbers.mapM (writeFloat none) = .ok (numbers.map (writtenAs none)) :=
    Document.mapM_eq_ok fun x _ => (writtenAs_default x).1
  rw [writeVector, all]
  rfl

/-- The numbers of a vector are its pieces exactly if nothing but gaps stands behind them. -/
theorem vectorPieces_defaultVector_iff (filled : numbers ≠ []) (rest : String) :
    vectorPieces (defaultVector numbers ++ rest) = numbers.map (writtenAs none) ↔
      ∀ c ∈ rest.toList, isGap c = true :=
  vectorPieces_intercalate_iff (mt List.map_eq_nil_iff.mp filled)
    (List.forall_mem_map.mpr fun x _ => (writtenAs_default x).2.1)
    (List.forall_mem_map.mpr fun x _ => (writtenAs_default x).2.2.1)

theorem vectorPieces_defaultVector (filled : numbers ≠ []) :
    vectorPieces (defaultVector numbers) = numbers.map (writtenAs none) := by
  have alone := (vectorPieces_defaultVector_iff filled "").mpr (List.forall_mem_nil _)
  rwa [String.append_empty] at alone

/-- Every number is read as something from its text. -/
theorem exists_readings (numbers : List Float) : ∃ l, List.Forall₂ (fun x y => readBack none x = some y) numbers l ∧
    List.Forall₂ ReadsAs (numbers.map (writtenAs none)) l := by
  induction numbers with
  | nil => exact ⟨[], .nil, .nil⟩
  | cons x numbers ih =>
    obtain ⟨l, back, reads⟩ := ih
    obtain ⟨y, read⟩ := Option.ne_none_iff_exists'.mp (writtenAs_default x).2.2.2
    exact ⟨y :: l, .cons read back, .cons (writtenAs_of_readBack read).2 reads⟩

end

/-! ## Texts in place of the first child -/

namespace Document

variable {d d' : Document} {a e p : NodeId} {text : String}

theorem joinCharacters_text_cons (text : String) (contents : List Content) :
    Content.joinCharacters (.text text :: contents) = text ++ Content.joinCharacters contents := by
  have first : (Content.text text).characters? = some text := rfl
  rw [Content.joinCharacters, List.filterMap_cons_some first, String.join_cons, Content.joinCharacters]

theorem edited_replaceText (h : d.WellLinked) (hp : d.Has p) (text : String) :
    ∃ L, Edited d (d.replaceText p text) L ∧ L p = ⟨d.size⟩ :: (d.children p).tail := by
  have first := h.lists.first p
  rw [replaceText]
  split
  · rename_i old known
    rw [known] at first
    obtain ⟨rest, children⟩ := List.head?_eq_some_iff.mp first.symm
    have created := edited_create h (.text text)
    have fit : ∀ q, (d.create (.text text)).2.parent? old = some q →
        (d.create (.text text)).2.Insertable ⟨d.size⟩ q := fun q hq =>
      insertable_create h (h.has_parent ((target_create _).symm.trans hq)) _
    refine ⟨_, created.trans (edited_replace created.wellLinked fit), ?_⟩
    have once := h.nodup p
    rw [children, List.nodup_cons] at once
    rw [created.children, children, List.map_cons, if_pos rfl, List.tail_cons]
    refine congrArg _ ((List.map_congr_left fun c here => if_neg ?_).trans (List.map_id rest))
    rintro rfl
    exact once.1 here
  · rename_i none
    rw [none] at first
    have children := List.head?_eq_none_iff.mp first.symm
    refine ⟨_, edited_add h hp _, ?_⟩
    rw [Function.update_self, children]
    rfl

/-- The text stands before what the other children hold. -/
theorem directText_replaceText (h : d.WellLinked) (hp : d.Has p) (text : String) :
    (d.replaceText p text).directText p = text ++ Content.joinCharacters ((d.children p).tail.map d.content) := by
  obtain ⟨L, edited, children⟩ := edited_replaceText h hp text
  have new : (d.replaceText p text).content ⟨d.size⟩ = .text text := by
    rw [relinked_replaceText.content, content_create, if_pos rfl]
  have old : ((d.children p).tail.map (d.replaceText p text).content) = (d.children p).tail.map d.content :=
    List.map_congr_left fun c here => edited.content c (h.lists.has_child (List.mem_of_mem_tail here))
  rw [directText, edited.children, children, List.map_cons, new, old, joinCharacters_text_cons]

/-- What an element holds itself is no text. -/
theorem Retagged.directText {tag old : Element} (retagged : Retagged d d' e tag) (h : d.WellLinked)
    (element : d.content e = .element old) (a : NodeId) : d'.directText a = d.directText a := by
  obtain ⟨-, children⟩ := h.congr retagged.target
  have same (c : NodeId) : (d'.content c).characters? = (d.content c).characters? := by
    rw [retagged.content]
    split
    · rename_i here
      rw [here, element]
      rfl
    · rfl
  rw [Document.directText, Document.directText, children, Content.joinCharacters, Content.joinCharacters,
    List.filterMap_map, List.filterMap_map]
  exact congrArg (fun f => String.join ((d.children a).filterMap f)) (funext same)

/-- An element that is marked as a vector, and so may be read as one. -/
theorem marked_setAttribute {tag : Element} (h : d.WellLinked) (has : d.Has e)
    (element : d.content e = .element tag) :
    let d' := d.setAttribute e mapType vectorType
    d'.attribute? e mapType = some vectorType ∧ (d'.content e).isInner = true ∧ d'.directText e = d.directText e := by
  let uri := d.attributeNamespace e (.ofString mapType)
  have retagged : Retagged d (d.setAttribute e mapType vectorType) e (tag.setAttribute mapType vectorType uri) :=
    retagged_modifyTag has element _
  refine ⟨?_, ?_, retagged.directText h element e⟩
  · rw [attribute?_setAttribute has (by rw [isElement, element]; rfl), if_pos ⟨rfl, rfl⟩]
  · rw [retagged.content, if_pos rfl]
    rfl

end Document

/-! ## The edits -/

namespace Edit

variable {o : OpenDocument} {path name : String} {e : NodeId} {numbers : List Float}

theorem ensures_vectorWritten (filled : numbers ≠ []) {R : OpenDocument → Prop} :
    Ensures (· = o) (vectorText name numbers none) (fun text u => u = o ∧ text = defaultVector numbers) R := by
  rw [vectorText, if_neg (by simpa using filled), writeVector_default]
  exact .pure fun _ same => ⟨same, rfl⟩

/-- The element at a path has the numbers in place of its first child, and is marked as a vector. -/
def vectorUpdated (d : Document) (e : NodeId) (numbers : List Float) : Document :=
  (d.replaceText e (defaultVector numbers)).setAttribute e mapType vectorType

theorem ensures_vectorUpdated (selected : o.select (Lookup.withoutSlash path) = .ok [.node e])
    (inner : (o.document.content e).isInner = true) (filled : numbers ≠ []) :
    Ensures (· = o) (updateVector path numbers none)
      (fun _ u => u.document = vectorUpdated o.document e numbers) fun _ => False := by
  rw [updateVector]
  refine .bind (ensures_vectorWritten filled) fun text => .assume fun same => ?_
  subst same
  refine .bind (ensures_found selected inner) fun found => .assume fun same => ?_
  subst same
  have replaced : Ensures (· = o) (replaceText found (defaultVector numbers))
      (fun _ u => u.document = o.document.replaceText found (defaultVector numbers)) fun _ => False := by
    rw [replaceText]
    have created : Ensures (· = o) (create (.text (defaultVector numbers))) (fun id u =>
        u.document = (o.document.create (.text (defaultVector numbers))).2 ∧ id = ⟨o.document.size⟩) fun _ => False :=
      .modifyGet fun u same => by rw [same]; exact ⟨rfl, rfl⟩
    refine .bind created fun child => .assume fun same => .modify fun u made => ?_
    have links : (o.document.create (.text (defaultVector numbers))).2.firstChild? found =
        o.document.firstChild? found := Document.target_create _
    dsimp only
    rw [made, links, same, Document.replaceText]
    rfl
  refine .bind replaced fun _ => .modify fun u made => ?_
  dsimp only
  rw [made, vectorUpdated]

theorem ensures_vectorAdded (sound : o.document.Sound) (filled : numbers ≠ []) :
    Ensures (· = o) (addVector path name numbers none) (fun _ u => ∃ p, Lookup.Finds o path p ∧ u.document =
      (o.document.insertElement p name none (defaultVector numbers) 0).setAttribute ⟨o.document.size⟩ mapType
        vectorType) Left := by
  rw [addVector]
  refine .bind (ensures_vectorWritten filled) fun text => .assume fun same => ?_
  subst same
  refine .bind (ensures_inserted sound) fun id => .modify ?_
  rintro u ⟨rfl, p, finds, made⟩
  exact ⟨p, finds, by dsimp only; rw [made]; rfl⟩

end Edit

/-! ## The lookups -/

namespace Lookup

variable {o : OpenDocument} {path : String} {e : NodeId} {texts : List String} {l : List Float}

theorem comesTo_vectorText (selected : o.select (withoutSlash path) = .ok [.node e])
    (inner : (o.document.content e).isInner = true) (marked : o.document.attribute? e mapType = some vectorType) :
    ComesTo o (vectorText path) (.ok (o.document.directText e)) := by
  refine .bind (comesTo_node selected inner) (.reading ?_)
  dsimp only [OpenDocument.recached_document]
  rw [marked]
  dsimp only
  rw [if_neg (by decide)]
  exact .pure _

/-- The first numbers of a vector are read from its pieces. -/
theorem comesTo_vector (selected : o.select (withoutSlash path) = .ok [.node e])
    (inner : (o.document.content e).isInner = true) (marked : o.document.attribute? e mapType = some vectorType)
    (pieces : vectorPieces (o.document.directText e) = texts) (reads : List.Forall₂ ReadsAs texts l) :
    ComesTo o (vector path l.length) (.ok l) := by
  have number (piece : String) (x : Float) (reads : ReadsAs piece x) :
      ComesTo o (readFloat path piece : Lookup Float) (.ok x) := by
    have read : readFloat path piece = .ok x := by
      rw [readFloat, show readFloat? (trimBy isSpace piece.toList) = some x from reads]
    rw [read]
    exact .pure x
  have all : texts.take l.length = texts := List.take_of_length_le reads.length_eq.le
  refine .bind (comesTo_vectorText selected inner marked) ?_
  rw [pieces, all]
  refine .bind (.mapM (reads.imp number)) ?_
  rw [if_neg (Nat.lt_irrefl _)]
  exact .pure l

end Lookup

/-! ## The calls -/

namespace Session

variable {s : Session} {handle : Handle} {o : OpenDocument} {e : NodeId} {numbers : List Float}

/-- At every path of an element some numbers are counted, and what they are read as when they have been written is
read. -/
def HoldsVector (s : Session) (handle : Handle) (o : OpenDocument) (e : NodeId) (numbers : List Float) : Prop :=
  ∀ path, o.select (Lookup.withoutSlash path) = .ok [.node e] →
    s.Gives handle (.vectorSize path) (.answered (.integer numbers.length)) ∧
    ∃ l, s.Gives handle (.vector path numbers.length) (.answered (.floats l)) ∧
      List.Forall₂ (fun x y => readBack none x = some y) numbers l

theorem holdsVector (found : s.store.document? handle = some o) (right : o.Right)
    (inner : (o.document.content e).isInner = true) (marked : o.document.attribute? e mapType = some vectorType)
    (pieces : vectorPieces (o.document.directText e) = numbers.map (writtenAs none)) :
    s.HoldsVector handle o e numbers := by
  intro path selected
  obtain ⟨l, back, reads⟩ := exists_readings numbers
  have size : (Question.vectorSize path).lookup.ComesTo o (.ok (.integer numbers.length)) := by
    refine .bind (.bind (Lookup.comesTo_vectorText selected inner marked) (.pure _)) ?_
    rw [pieces, List.length_map]
    exact .pure _
  have floats : (Question.vector path l.length).lookup.ComesTo o (.ok (.floats l)) :=
    .bind (Lookup.comesTo_vector selected inner marked pieces reads) (.pure _)
  rw [← back.length_eq] at floats
  exact ⟨gives_of_comesTo found right size, l, gives_of_comesTo found right floats, back⟩

/-- Numbers that are written into an element come before what its children but the first one hold. -/
theorem vector_of_updateVector (reachable : s.Reachable) (found : s.store.document? handle = some o)
    (editable : o.status = .editable) (filled : numbers ≠ []) {path : String}
    (selected : o.select (Lookup.withoutSlash path) = .ok [.node e]) (isElement : o.document.isElement e = true)
    (patience : Nat) :
    let (reply, s') := s.call patience (.change handle (.updateVector path numbers none))
    let behind := Content.joinCharacters ((o.document.children e).tail.map o.document.content)
    reply.outcome = .answered .done ∧ ∃ o', s'.store.document? handle = some o' ∧
      o'.document.directText e = defaultVector numbers ++ behind ∧
      ((∀ c ∈ behind.toList, isGap c = true) → s'.HoldsVector handle o' e numbers) := by
  have rooted := (reachable.allSound.of_document? found).made.rooted
  have linked := rooted.wellLinked
  have has : o.document.Has e :=
    (Lookup.attached_of_select rooted selected (.node e) List.mem_cons_self).has
  obtain ⟨tag, element⟩ : ∃ tag, o.document.content e = .element tag := by
    cases content : o.document.content e with
    | element tag => exact ⟨tag, rfl⟩
    | _ =>
      rw [Document.isElement, content] at isElement
      cases isElement
  have inner : (o.document.content e).isInner = true := by
    rw [element]
    rfl
  obtain ⟨answered, d', found', rfl⟩ := answered_of_ensures found editable
    (c := .updateVector path numbers none) rfl (Q := (· = Edit.vectorUpdated o.document e numbers))
    (.bind (Edit.ensures_vectorUpdated selected inner filled) fun _ => .pure fun u made => ⟨rfl, made⟩) patience
  obtain ⟨L, replaced, -⟩ := Document.edited_replaceText linked has (defaultVector numbers)
  obtain ⟨marked, inner', kept⟩ :=
    Document.marked_setAttribute replaced.wellLinked (replaced.has has) ((replaced.content e has).trans element)
  have text := kept.trans (Document.directText_replaceText linked has (defaultVector numbers))
  have after := reachable.call patience (.change handle (.updateVector path numbers none))
  refine ⟨answered, _, found', text, fun gaps => ?_⟩
  refine holdsVector found' (after.sound.right.of_document? found') inner' marked ?_
  rw [Edit.vectorUpdated, text]
  exact (vectorPieces_defaultVector_iff filled _).mpr gaps

/-- Numbers that are added in a new element are all of its text. -/
theorem vector_of_addVector (reachable : s.Reachable) (found : s.store.document? handle = some o)
    (filled : numbers ≠ []) (parent name : String) (patience : Nat) :
    let (reply, s') := s.call patience (.change handle (.addVector parent name numbers none))
    reply.outcome = .answered .done → ∃ o' p, s'.store.document? handle = some o' ∧
      o.select (Lookup.withoutSlash parent) = .ok [.node p] ∧ o'.document.parent? ⟨o.document.size⟩ = some p ∧
      o'.document.directText ⟨o.document.size⟩ = defaultVector numbers ∧
      s'.HoldsVector handle o' ⟨o.document.size⟩ numbers := by
  intro answered
  have sound := reachable.allSound.of_document? found
  have linked := sound.made.rooted.wellLinked
  obtain ⟨o', found', p, finds, made⟩ := changed_of_answered found (c := .addVector parent name numbers none) rfl
    (Q := fun d => ∃ p, Lookup.Finds o parent p ∧ d = (o.document.insertElement p name none (defaultVector numbers)
      0).setAttribute ⟨o.document.size⟩ mapType vectorType)
    (.bind (Edit.ensures_vectorAdded sound filled) fun _ => .pure fun _ h => h) answered
  have planted := Document.planted_insertElement linked finds.attached.has name none (defaultVector numbers) 0
  obtain ⟨marked, inner, kept⟩ := Document.marked_setAttribute planted.wellLinked planted.has_new planted.element
  rw [← made] at marked inner kept
  have text : o'.document.directText ⟨o.document.size⟩ = defaultVector numbers := kept.trans planted.directText_new
  have below : o'.document.parent? ⟨o.document.size⟩ = some p := by
    rw [made]
    exact (Document.target_modifyContent _).trans planted.parent_new
  have after := reachable.call patience (.change handle (.addVector parent name numbers none))
  exact ⟨o', p, found', finds.selected, below, text, holdsVector found' (after.sound.right.of_document? found') inner
    marked (text ▸ vectorPieces_defaultVector filled)⟩

end Session

/-- Numbers that are written as a vector in the default format. In a new element they are the pieces of its text, and
they are counted and read back at every path of the element. In an element that there was they come before what its
children but the first one hold, and are the pieces of its text, counted and read back, exactly if that is nothing but
gaps. -/
theorem vector_read_back {s : Session} {handle : Handle} {o : OpenDocument} (reachable : s.Reachable)
    (found : s.store.document? handle = some o) (editable : o.status = .editable) {numbers : List Float}
    (filled : numbers ≠ []) (patience : Nat) :
    let texts := numbers.map (writtenAs none)
    (∀ x ∈ numbers, writeFloat none x = .ok (writtenAs none x)) ∧
    (∀ path e, o.select (Lookup.withoutSlash path) = .ok [.node e] → o.document.isElement e = true →
      let (reply, s') := s.call patience (.change handle (.updateVector path numbers none))
      let behind := Content.joinCharacters ((o.document.children e).tail.map o.document.content)
      reply.outcome = .answered .done ∧ ∃ o', s'.store.document? handle = some o' ∧
        o'.document.directText e = ";".intercalate texts ++ behind ∧
        (vectorPieces (o'.document.directText e) = texts ↔ ∀ c ∈ behind.toList, isGap c = true) ∧
        ((∀ c ∈ behind.toList, isGap c = true) → s'.HoldsVector handle o' e numbers)) ∧
    ∀ parent name,
      let (reply, s') := s.call patience (.change handle (.addVector parent name numbers none))
      reply.outcome = .answered .done → ∃ o' p, s'.store.document? handle = some o' ∧
        o.select (Lookup.withoutSlash parent) = .ok [.node p] ∧ o'.document.parent? ⟨o.document.size⟩ = some p ∧
        o'.document.directText ⟨o.document.size⟩ = ";".intercalate texts ∧
        vectorPieces (o'.document.directText ⟨o.document.size⟩) = texts ∧
        s'.HoldsVector handle o' ⟨o.document.size⟩ numbers := by
  refine ⟨fun x _ => (writtenAs_default x).1, fun path e selected isElement => ?_, fun parent name answered => ?_⟩
  · obtain ⟨answered, o', found', text, holds⟩ :=
      Session.vector_of_updateVector reachable found editable filled selected isElement patience
    refine ⟨answered, o', found', text, ?_, holds⟩
    rw [text]
    exact vectorPieces_defaultVector_iff filled _
  · obtain ⟨o', p, found', selected, below, text, holds⟩ :=
      Session.vector_of_addVector reachable found filled parent name patience answered
    exact ⟨o', p, found', selected, below, text, text ▸ vectorPieces_defaultVector filled, holds⟩

/-- Two numbers in a new element. -/
theorem vector_read_back_new :
    let change : Change := .addVector "/a" "v" [1, 2.5] none
    let (reply, s') := Session.linked.call 0 (.change 1 change)
    reply.outcome = .answered .done ∧ s'.Gives 1 (.vectorSize "/a/v") (.answered (.integer 2)) ∧
      ∃ l, s'.Gives 1 (.vector "/a/v" 2) (.answered (.floats l)) ∧
        List.Forall₂ (fun x y => readBack none x = some y) [1, 2.5] l := by
  intro change
  obtain ⟨o, found, -⟩ := Session.document?_linked
  have evaluated : (Session.linked.store.document? 1).map
        (fun o => (decide (o.status = .editable), o.document.size)) = some (true, 3) ∧
      ((Session.linked.call 0 (.change 1 change)).2.store.document? 1).map
        (fun o => (o.select (Lookup.withoutSlash "/a/v")).toOption) = some (some [.node ⟨3⟩]) := by
    decide +kernel
  rw [found, Option.map_some, Option.some.injEq, Prod.mk.injEq, decide_eq_true_eq] at evaluated
  obtain ⟨⟨editable, size⟩, selected⟩ := evaluated
  have answered : (Session.linked.call 0 (.change 1 change)).1.outcome = .answered .done :=
    Outcome.eq_done (by decide +kernel)
  obtain ⟨-, -, added⟩ := vector_read_back Session.reachable_linked found editable (List.cons_ne_nil 1 [2.5]) 0
  obtain ⟨o', p, found', -, -, -, -, holds⟩ := added "/a" "v" answered
  have changed : (Session.linked.call 0 (.change 1 change)).2.store.document? 1 = some o' := found'
  rw [changed, Option.map_some, Option.some.injEq] at selected
  exact ⟨answered, holds "/a/v" (by rw [size]; exact eq_ok_of_toOption selected)⟩

/-- A session with a document in which an element has a child before its text. -/
def Session.annotated : Session :=
  ((Session.mk (.ofOptions .default) ⟨[], []⟩).call 0 (.importText "<a><x><b/>7</x></a>")).2

/-- A number that is written into an element is not read back if a text behind the first child goes on with it. -/
theorem vector_lost_of_updateVector : ¬ ∀ (s : Session) (handle : Handle) (o o' : OpenDocument) (path : String)
    (e : NodeId) (numbers : List Float), s.Reachable → s.store.document? handle = some o → o.status = .editable →
    o.select (Lookup.withoutSlash path) = .ok [.node e] → o.document.isElement e = true → numbers ≠ [] →
    let (reply, s') := s.call 0 (.change handle (.updateVector path numbers none))
    reply.outcome = .answered .done → s'.store.document? handle = some o' →
      vectorPieces (o'.document.directText e) = numbers.map (writtenAs none) := by
  intro always
  let s' := (Session.annotated.call 0 (.change 1 (.updateVector "/a/x" [5] none))).2
  have before : (Session.annotated.store.document? 1).map (fun o => (decide (o.status = .editable),
      (o.select (Lookup.withoutSlash "/a/x")).toOption, o.document.isElement ⟨2⟩)) =
      some (true, some [.node ⟨2⟩], true) := by decide +kernel
  have after : (s'.store.document? 1).map (fun o => vectorPieces (o.document.directText ⟨2⟩)) = some ["57"] := by
    decide +kernel
  obtain ⟨o, found, facts⟩ := Option.map_eq_some_iff.mp before
  obtain ⟨o', found', pieces⟩ := Option.map_eq_some_iff.mp after
  simp only [Prod.mk.injEq, decide_eq_true_eq] at facts
  obtain ⟨editable, selected, element⟩ := facts
  have read := always Session.annotated 1 o o' "/a/x" ⟨2⟩ [5] (.call (.start .default ⟨[], []⟩) 0 _) found editable
    (eq_ok_of_toOption selected) element (List.cons_ne_nil 5 []) (Outcome.eq_done (by decide +kernel)) found'
  have written : [(5 : Float)].map (writtenAs none) = ["5"] := by decide +kernel
  rw [pieces, written] at read
  exact absurd read (by decide)

end XmlStore
