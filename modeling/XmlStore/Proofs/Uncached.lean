/-
Edits without a cache. An edit neither reads nor changes what a document
remembers, nor whether it is to remember anything: from a document with another
cache it comes to the same, and leaves the document with that other cache.
-/
import XmlStore.Store.External
import XmlStore.Proofs.Remembered

namespace XmlStore

namespace Edit

variable {α β : Type} {id p : NodeId} {path name text uri value : String}

/-- The edit does the same whatever is remembered, which stays as it is. -/
def Indifferent (x : Edit α) : Prop :=
  ∀ (d : OpenDocument) caching cache messages,
    (x.run.run (d.recached caching cache)).run messages =
      match (x.run.run d).run messages with
      | ((result, d'), messages') => ((result, d'.recached caching cache), messages')

namespace Indifferent

theorem pure {a : α} : Indifferent (Pure.pure a) := fun _ _ _ _ => rfl

theorem throw {e : Error} : Indifferent (MonadExcept.throw e : Edit α) := fun _ _ _ _ => rfl

/-- A refusal ends the edit, whatever would come after it. -/
theorem refuse {e : Error} {f : β → Edit α} : Indifferent (MonadExcept.throw e >>= f) :=
  fun _ _ _ _ => rfl

theorem report {c : Reported α} : Indifferent (liftM c) := fun _ _ _ _ => rfl

theorem lift {c : Except Error α} : Indifferent (liftM c) := by
  intro d caching cache messages
  cases c <;> rfl

theorem bind {x : Edit α} {f : α → Edit β} (hx : Indifferent x) (hf : ∀ a, Indifferent (f a)) :
    Indifferent (x >>= f) := by
  intro d caching cache messages
  simp only [ExceptT.run_bind, StateT.run_bind]
  rw [hx d caching cache messages]
  match (x.run.run d).run messages with
  | ((.ok a, d'), messages') => exact hf a d' caching cache messages'
  | ((.error _, d'), messages') => rfl

theorem ite {q : Prop} [Decidable q] {x y : Edit α} (hx : Indifferent x) (hy : Indifferent y) :
    Indifferent (if q then x else y) := by
  split
  · exact hx
  · exact hy

/-- An edit may read everything of the document but the cache. -/
theorem reading {f : OpenDocument → Edit α}
    (same : ∀ d caching cache, f (OpenDocument.recached d caching cache) = f d)
    (h : ∀ d, Indifferent (f d)) : Indifferent (get >>= f) := by
  intro d caching cache messages
  have run (d' : OpenDocument) : (get >>= f : Edit α).run.run d' = (f d').run.run d' := rfl
  rw [run, run, same]
  exact h d d caching cache messages

theorem discard {x : Edit α} (h : Indifferent x) : Indifferent (Functor.discard x) := by
  have as_bind : Functor.discard x = x >>= fun _ => Pure.pure ⟨⟩ := (bind_pure_comp _ x).symm
  rw [as_bind]
  exact bind h fun _ => pure

theorem forM {l : List α} {f : α → Edit PUnit} (h : ∀ a, Indifferent (f a)) :
    Indifferent (l.forM f) := by
  induction l with
  | nil => exact pure
  | cons a l ih => exact bind (h a) fun _ => ih

theorem mapM {l : List α} {f : α → Edit β} (h : ∀ a, Indifferent (f a)) :
    Indifferent (l.mapM f) := by
  induction l with
  | nil =>
    rw [List.mapM_nil]
    exact pure
  | cons a l ih =>
    rw [List.mapM_cons]
    exact bind (h a) fun _ => bind ih fun _ => pure

/-- What is remembered, and whether anything is to be, stays as it is. -/
theorem keeps {x : Edit α} (h : Indifferent x) (d : OpenDocument) :
    Tracked.Ensures (· = d) x
      (fun _ d' => d'.cache = d.cache ∧ d'.preferences.caching = d.preferences.caching)
      fun _ => True := by
  intro s messages start
  subst start
  have same : (x.run.run s).run messages = _ := h s s.preferences.caching s.cache messages
  match e : (x.run.run s).run messages with
  | ((.ok a, d'), messages') =>
    rw [e] at same
    have kept : d' = d'.recached s.preferences.caching s.cache := congrArg (·.1.2) same
    rw [kept]
    exact ⟨rfl, rfl⟩
  | ((.error _, d'), messages') => trivial

end Indifferent

/-- A question is put to the document with caching turned off. -/
theorem run_look (question : Lookup α) (d : OpenDocument) (messages : List Message) :
    ((look question).run.run d).run messages =
      match ((question.run (d.recached false d.cache)).run.run none).run messages with
      | ((result, _), messages) => ((result, d), messages) := by
  have run : ((look question).run.run d).run messages =
      match (Tracked.runOn none (question.run (d.recached false d.cache))).run.run messages with
      | (result, messages) => ((do
          let (answer, _) ← (liftM result : Edit (α × QueryCache))
          return answer).run.run d).run messages := rfl
  rw [run, Tracked.run_runOn]
  rcases ((question.run (d.recached false d.cache)).run.run none).run messages with
    ⟨⟨_ | a, cache⟩, messages⟩ <;> rfl

/-- What a question comes to does not depend on what is remembered. -/
theorem indifferent_look {question : Lookup α} (h : question.Transparent) :
    Indifferent (look question) := by
  intro d caching cache messages
  have outcome (own : QueryCache) : ∃ cache',
      ((question.run (d.recached false own)).run.run none).run messages =
        (((((question.run d.uncached).run.run none).run messages).1.1, cache'),
          (((question.run d.uncached).run.run none).run messages).2) := by
    have same := h d false own none messages d.remembers_none
    match e : ((question.run (d.recached false own)).run.run none).run messages with
    | ((result, cache'), messages') =>
      rw [e] at same
      exact ⟨cache', by rw [same.2]⟩
  obtain ⟨_, here⟩ := outcome d.cache
  obtain ⟨_, there⟩ := outcome cache
  have cached : (d.recached caching cache).cache = cache := rfl
  rw [run_look, run_look, here, OpenDocument.recached_recached, cached, there]

theorem indifferent_document : Indifferent document := fun _ _ _ _ => rfl

theorem indifferent_change {f : Document → Document} : Indifferent (change f) := fun _ _ _ _ => rfl

theorem indifferent_create {content : Content} : Indifferent (create content) := fun _ _ _ _ => rfl

/-! ## Edits by paths -/

theorem indifferent_node : Indifferent (look (Lookup.node path)) :=
  indifferent_look Lookup.transparent_node

theorem indifferent_requireName : Indifferent (requireName name) := .ite .throw .pure

theorem indifferent_appendText : Indifferent (appendText id text) :=
  .ite (.bind indifferent_create fun _ => indifferent_change) .pure

theorem indifferent_appendElement : Indifferent (appendElement p name text) :=
  .bind indifferent_create fun _ => .bind indifferent_change fun _ =>
    .bind indifferent_appendText fun _ => .pure

theorem indifferent_applyNamespace {qualifier : Option String} :
    Indifferent (applyNamespace id qualifier uri) := by
  rw [applyNamespace]
  refine .bind indifferent_document fun d => ?_
  exact .ite (.bind indifferent_change fun _ => indifferent_change) indifferent_change

theorem indifferent_insertElement {uri text : Option String} {place : Nat} :
    Indifferent (insertElement path name uri text place) := by
  rw [insertElement]
  refine .bind indifferent_requireName fun _ => .ite .refuse ?_
  refine .bind indifferent_node fun parent => .bind indifferent_create fun id => ?_
  refine .bind indifferent_appendText fun _ => .bind indifferent_change fun _ => ?_
  split
  · exact .bind indifferent_applyNamespace fun _ => .pure
  · exact .bind indifferent_change fun _ => .pure

theorem indifferent_replaceText : Indifferent (replaceText id text) :=
  .bind indifferent_create fun _ => indifferent_change

theorem indifferent_updateText : Indifferent (updateText path text) :=
  .bind indifferent_node fun _ => indifferent_replaceText

theorem indifferent_renameChildren {old new : String} :
    Indifferent (renameChildren path old new) := by
  rw [renameChildren]
  refine .bind indifferent_requireName fun _ => .bind indifferent_node fun id => ?_
  refine .bind indifferent_document fun d => .ite .refuse ?_
  exact .forM fun target => indifferent_change

theorem indifferent_remove : Indifferent (remove path) := by
  rw [remove]
  refine .bind (indifferent_look Lookup.transparent_selectOne) fun hit => ?_
  cases hit with
  | node id => exact .ite .refuse indifferent_change
  | «attribute» owner index => exact .throw

theorem indifferent_swap {a b : String} : Indifferent (swap a b) := by
  rw [swap]
  refine .bind indifferent_node fun first => .bind indifferent_node fun second => ?_
  exact .bind indifferent_document fun d => .ite (.ite .refuse indifferent_change) .pure

theorem indifferent_importMarkup {markup : String} {place : Nat} :
    Indifferent (importMarkup path markup place) := by
  rw [importMarkup]
  refine .reading (fun _ _ _ => rfl) fun d => ?_
  split
  · exact .throw
  · refine .bind indifferent_node fun parent => ?_
    split
    · exact .throw
    · exact .bind indifferent_document fun _ => indifferent_change

theorem indifferent_setAttribute : Indifferent (setAttribute path name value) := by
  rw [setAttribute]
  refine .ite .refuse (.bind indifferent_requireName fun _ => .bind indifferent_node fun id => ?_)
  refine .bind indifferent_document fun d => .ite .refuse ?_
  dsimp only
  split
  · exact .ite .refuse indifferent_change
  · exact indifferent_change

theorem indifferent_removeAttribute : Indifferent (removeAttribute path name) := by
  rw [removeAttribute]
  refine .bind (indifferent_look Lookup.transparent_selectOne) fun hit => ?_
  cases hit with
  | node id => exact indifferent_change
  | «attribute» owner index => exact .pure

/-! ## Namespaces, identifiers and links -/

theorem indifferent_element : Indifferent (element path) :=
  .bind indifferent_node fun _ => .bind indifferent_document fun _ => .ite .refuse .pure

theorem indifferent_setNamespace {qualifier : String} :
    Indifferent (setNamespace path uri qualifier) := by
  rw [setNamespace]
  have named : Indifferent (element path >>= fun id =>
      applyNamespace id (if qualifier.isEmpty then none else some qualifier) uri) :=
    .bind indifferent_element fun _ => indifferent_applyNamespace
  exact .bind .lift fun _ => .ite (.bind .lift fun _ => named) named

theorem indifferent_declareNamespace {qualifier : String} :
    Indifferent (declareNamespace path uri qualifier) :=
  .bind .lift fun _ => .bind .lift fun _ => .bind indifferent_element fun _ =>
    .bind indifferent_document fun _ => .ite indifferent_change .pure

theorem indifferent_setUid : Indifferent (setUid path value) :=
  .bind indifferent_document fun _ => .bind .report fun _ => indifferent_setAttribute

theorem indifferent_addLink {target : String} {mode : LinkMode} :
    Indifferent (addLink path name target mode) := by
  rw [addLink]
  refine .bind indifferent_requireName fun _ => ?_
  refine .bind (indifferent_look Lookup.transparent_withUid) fun found => ?_
  refine .bind indifferent_document fun d => .bind indifferent_node fun id => ?_
  refine .bind indifferent_document fun d' => .ite ?_ .pure
  exact .bind indifferent_appendElement fun link => .bind indifferent_change fun _ => .pure

/-! ## Lists of numbers and matrices -/

theorem indifferent_vectorText {numbers : List Float} {format : Option String} :
    Indifferent (vectorText name numbers format) := .ite .refuse .lift

theorem indifferent_addVector {numbers : List Float} {format : Option String} :
    Indifferent (addVector path name numbers format) :=
  .bind indifferent_vectorText fun _ => .bind indifferent_insertElement fun _ => indifferent_change

theorem indifferent_updateVector {numbers : List Float} {format : Option String} :
    Indifferent (updateVector path numbers format) :=
  .bind indifferent_vectorText fun _ => .bind indifferent_node fun _ =>
    .bind indifferent_replaceText fun _ => indifferent_change

theorem indifferent_texts {numbers : List Float} {format : Option String} :
    Indifferent (numbers.mapM fun x => (writeFloat format x : Edit String)) := .mapM fun _ => .lift

theorem indifferent_addPoint {x y z : Float} {format : Option String} :
    Indifferent (addPoint path x y z format) :=
  .bind indifferent_texts fun _ => .bind indifferent_node fun _ =>
    .forM fun _ => .discard indifferent_appendElement

theorem indifferent_addList {list child : String} {numbers : List Float} {format : Option String}
    {values : List String} :
    Indifferent (addList path list child name numbers format values) := by
  rw [addList]
  refine .bind (.forM fun _ => indifferent_requireName) fun _ => .ite .refuse ?_
  refine .bind indifferent_texts fun texts => .bind indifferent_insertElement fun id => ?_
  exact .forM fun _ => .bind indifferent_appendElement fun _ => indifferent_change

theorem indifferent_requireNames {names : MatrixNames} : Indifferent (requireNames names) :=
  .forM fun _ => indifferent_requireName

theorem indifferent_requireDimension {rows cols : Int} : Indifferent (requireDimension rows cols) :=
  .ite .refuse .pure

theorem indifferent_buildMatrix {names : MatrixNames} {rows cols : Nat} {cell : Nat → Nat → String} :
    Indifferent (buildMatrix path names rows cols cell) :=
  .bind indifferent_insertElement fun _ => .forM fun _ => .bind indifferent_appendElement fun _ =>
    .forM fun _ => .discard indifferent_appendElement

theorem indifferent_addEmptyMatrix {names : MatrixNames} {rows cols : Int} :
    Indifferent (addEmptyMatrix path names rows cols) :=
  .bind indifferent_requireDimension fun _ => .bind indifferent_requireNames fun _ =>
    indifferent_buildMatrix

theorem indifferent_addMatrix {names : MatrixNames} {rows cols : Int} {numbers : List Float}
    {mode : StorageMode} {format : Option String} :
    Indifferent (addMatrix path names rows cols numbers mode format) := by
  rw [addMatrix]
  refine .bind indifferent_requireDimension fun size => .ite .refuse ?_
  exact .bind indifferent_requireNames fun _ => .bind indifferent_texts fun _ =>
    indifferent_buildMatrix

/-! ## Headers -/

theorem indifferent_appendHeader : Indifferent appendHeader := by
  rw [appendHeader]
  refine .bind indifferent_document fun d => ?_
  split
  · exact indifferent_appendElement
  · exact .throw

theorem indifferent_appendFields {fields : List (String × String)} :
    Indifferent (appendFields id fields) := .forM fun _ => .discard indifferent_appendElement

theorem indifferent_addToolHeader {h : ToolHeader} {time : String} :
    Indifferent (addToolHeader h time) :=
  .bind indifferent_appendHeader fun _ => .bind indifferent_appendElement fun _ =>
    .bind indifferent_appendFields fun _ => indifferent_appendFields

theorem indifferent_addDataHeader {h : DataHeader} {time : String} :
    Indifferent (addDataHeader h time) :=
  .bind indifferent_appendHeader fun _ => indifferent_appendFields

theorem indifferent_addExternalLink {format : Option String} :
    Indifferent (addExternalLink path uri format) := by
  rw [addExternalLink]
  refine .bind indifferent_insertElement fun id => ?_
  split
  · exact indifferent_change
  · exact .pure

end Edit

/-! ## Changes and external data -/

theorem Change.indifferent_edit (c : Change) {edit : Edit Answer} (accepted : c.edit = .ok edit) :
    edit.Indifferent := by
  have done {x : Edit Unit} (h : x.Indifferent) : Edit.Indifferent (do x; return Answer.done) :=
    .bind h fun _ => .pure
  cases c with
  | updateElement path value =>
    cases e : value.write with
    | error => rw [Change.edit, e] at accepted; cases accepted
    | ok text => rw [Change.edit, e] at accepted; cases accepted; exact done Edit.indifferent_updateText
  | addElement parent name uri value place =>
    cases e : value.mapM Scalar.write with
    | error => rw [Change.edit, e] at accepted; cases accepted
    | ok text =>
      rw [Change.edit, e] at accepted
      cases accepted
      exact done (.discard Edit.indifferent_insertElement)
  | setAttribute path name value =>
    cases e : value.write with
    | error => rw [Change.edit, e] at accepted; cases accepted
    | ok text =>
      rw [Change.edit, e] at accepted
      cases accepted
      exact done Edit.indifferent_setAttribute
  | renameChildren => cases accepted; exact done Edit.indifferent_renameChildren
  | remove => cases accepted; exact done Edit.indifferent_remove
  | swap => cases accepted; exact done Edit.indifferent_swap
  | importMarkup => cases accepted; exact done Edit.indifferent_importMarkup
  | removeAttribute => cases accepted; exact done Edit.indifferent_removeAttribute
  | setNamespace => cases accepted; exact done Edit.indifferent_setNamespace
  | declareNamespace => cases accepted; exact done Edit.indifferent_declareNamespace
  | setUid => cases accepted; exact done Edit.indifferent_setUid
  | addLink => cases accepted; exact .bind Edit.indifferent_addLink fun _ => .pure
  | addVector => cases accepted; exact done Edit.indifferent_addVector
  | updateVector => cases accepted; exact done Edit.indifferent_updateVector
  | addPoint => cases accepted; exact done Edit.indifferent_addPoint
  | addList => cases accepted; exact done Edit.indifferent_addList
  | addEmptyMatrix => cases accepted; exact done Edit.indifferent_addEmptyMatrix
  | addMatrix => cases accepted; exact done Edit.indifferent_addMatrix
  | addToolHeader => cases accepted; exact done Edit.indifferent_addToolHeader
  | addDataHeader => cases accepted; exact done Edit.indifferent_addDataHeader
  | addExternalLink => cases accepted; exact done Edit.indifferent_addExternalLink

namespace External

open Edit (Indifferent)

variable {files : Files} {reference : NodeId} {path : String} {marks : List (String × String)}

theorem indifferent_includeFile : Indifferent (includeFile files reference path marks) := by
  rw [includeFile]
  split
  · exact .throw
  refine .reading (fun _ _ _ => rfl) fun d => ?_
  split
  · exact .bind .report fun _ => .pure
  · dsimp only
    split
    · exact .pure
    · exact .bind Edit.indifferent_change fun _ => .pure

theorem indifferent_includeReference : Indifferent (includeReference files reference) := by
  rw [includeReference]
  refine .bind Edit.indifferent_document fun d => .bind .lift fun found => ?_
  refine .reading (fun _ _ _ => rfl) fun o => ?_
  dsimp only
  split
  · exact .throw
  · refine .bind (.mapM fun _ => indifferent_includeFile) fun counts => ?_
    exact .bind Edit.indifferent_change fun _ => .pure

theorem indifferent_includeAll {patience : Nat} : Indifferent (includeAll files patience) := by
  induction patience with
  | zero =>
    rw [includeAll]
    refine .bind Edit.indifferent_document fun d => ?_
    split <;> exact .pure
  | succ patience ih =>
    rw [includeAll]
    refine .bind Edit.indifferent_document fun d => ?_
    split
    · exact .pure
    · exact .bind indifferent_includeReference fun _ => .bind ih fun _ => .pure

end External

end XmlStore
