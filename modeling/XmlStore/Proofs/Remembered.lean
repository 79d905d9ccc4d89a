/-
Remembered selections. A lookup may answer an expression from the cache, and
may put what it found there. As long as the cache holds what its expression
selects, neither shows: a lookup comes to the same as without any cache.
-/
import XmlStore.Store.Call
import XmlStore.Proofs.Ensures

namespace XmlStore

namespace OpenDocument

variable {d : OpenDocument} {caching : Bool} {cache : QueryCache}

/-- The document with another cache, and with caching turned on or off. -/
def recached (d : OpenDocument) (caching : Bool) (cache : QueryCache) : OpenDocument :=
  { d with preferences := { d.preferences with caching }, cache }

@[simp] theorem recached_document : (d.recached caching cache).document = d.document := rfl

@[simp] theorem recached_recached (caching' : Bool) (cache' : QueryCache) :
    (d.recached caching cache).recached caching' cache' = d.recached caching' cache' := rfl

/-- The document with nothing remembered, now or later. -/
abbrev uncached (d : OpenDocument) : OpenDocument := d.recached false none

/-- What is in the cache is what the expression selects. -/
def Remembers (d : OpenDocument) (cache : QueryCache) : Prop :=
  ∀ entry ∈ cache, d.select entry.1 = .ok entry.2

theorem remembers_none (d : OpenDocument) : d.Remembers none := nofun

theorem Remembers.congr {d' : OpenDocument} (h : d.Remembers cache)
    (document : d'.document = d.document)
    (namespaces : d'.preferences.namespaces = d.preferences.namespaces) : d'.Remembers cache := by
  intro entry hentry
  rw [select, document, namespaces]
  exact h entry hentry

end OpenDocument

namespace Lookup

variable {α β : Type} {path name : String} {names : MatrixNames} {cache : QueryCache}

/-- From a cache that is right, the lookup leads to one that is right, and it returns or fails and
gives off messages as it does without any cache. -/
def Transparent (x : Lookup α) : Prop :=
  ∀ (d : OpenDocument) caching own cache messages, d.Remembers cache →
    match ((x.run (d.recached caching own)).run.run cache).run messages with
    | ((result, cache'), messages') => d.Remembers cache' ∧
      ((x.run d.uncached).run.run none).run messages = ((result, none), messages')

namespace Transparent

theorem pure {a : α} : Transparent (Pure.pure a) := fun _ _ _ _ _ right => ⟨right, rfl⟩

theorem throw {e : Error} : Transparent (MonadExcept.throw e : Lookup α) :=
  fun _ _ _ _ _ right => ⟨right, rfl⟩

theorem report {c : Reported α} : Transparent (liftM c) := fun _ _ _ _ _ right => ⟨right, rfl⟩

theorem lift {c : Except Error α} : Transparent (liftM c) := by
  intro d caching own cache messages right
  cases c <;> exact ⟨right, rfl⟩

theorem checked {c : Except Error α} {f : α → β} :
    Transparent (do let a ← (liftM c : Lookup α); return f a) := by
  intro d caching own cache messages right
  cases c <;> exact ⟨right, rfl⟩

theorem bind {x : Lookup α} {f : α → Lookup β} (hx : Transparent x) (hf : ∀ a, Transparent (f a)) :
    Transparent (x >>= f) := by
  intro d caching own cache messages right
  have first := hx d caching own cache messages right
  simp only [ReaderT.run_bind, ExceptT.run_bind, StateT.run_bind]
  match e : ((x.run (d.recached caching own)).run.run cache).run messages with
  | ((.ok a, cache'), messages') =>
    rw [e] at first
    rw [first.2]
    exact hf a d caching own cache' messages' first.1
  | ((.error _, cache'), messages') =>
    rw [e] at first
    rw [first.2]
    exact ⟨first.1, rfl⟩

/-- A lookup may read everything of the document but the cache. -/
theorem reading {f : OpenDocument → Lookup α}
    (same : ∀ d caching own, f (OpenDocument.recached d caching own) = f d)
    (h : ∀ d, Transparent (f d)) : Transparent (read >>= f) := by
  intro d caching own cache messages right
  have result := h d d caching own cache messages right
  have run (d' : OpenDocument) : (read >>= f : Lookup α).run d' = (f d').run d' := rfl
  rw [run, run, same, same]
  exact result

theorem discard {x : Lookup α} (h : Transparent x) : Transparent (Functor.discard x) := by
  have as_bind : Functor.discard x = x >>= fun _ => Pure.pure ⟨⟩ := (bind_pure_comp _ x).symm
  rw [as_bind]
  exact bind h fun _ => pure

theorem handle {x : Lookup α} {f : Error → Lookup α} (hx : Transparent x)
    (hf : ∀ e, Transparent (f e)) : Transparent (tryCatch x f) := by
  intro d caching own cache messages right
  have first := hx d caching own cache messages right
  have run (d' : OpenDocument) (cache : QueryCache) :
      (((tryCatch x f).run d').run.run cache).run messages =
        match ((x.run d').run.run cache).run messages with
        | ((.ok a, cache), messages) => ((.ok a, cache), messages)
        | ((.error e, cache), messages) => (((f e).run d').run.run cache).run messages := by
    have inner : (tryCatch x f).run d' = tryCatch (x.run d') fun e => (f e).run d' := rfl
    rw [inner, ExceptT.run_tryCatch, StateT.run_bind, StateT.run_bind]
    rcases ((x.run d').run.run cache).run messages with ⟨⟨_ | a, cache'⟩, messages'⟩ <;> rfl
  rw [run, run]
  match e : ((x.run (d.recached caching own)).run.run cache).run messages with
  | ((.ok a, cache'), messages') =>
    rw [e] at first
    rw [first.2]
    exact ⟨first.1, rfl⟩
  | ((.error cause, cache'), messages') =>
    rw [e] at first
    rw [first.2]
    exact hf cause d caching own cache' messages' first.1

theorem ite {p : Prop} [Decidable p] {x y : Lookup α} (hx : Transparent x) (hy : Transparent y) :
    Transparent (if p then x else y) := by
  split
  · exact hx
  · exact hy

/-- A refusal ends the lookup, whatever would come after it. -/
theorem refuse {e : Error} {f : β → Lookup α} : Transparent (MonadExcept.throw e >>= f) :=
  fun _ _ _ _ _ right => ⟨right, rfl⟩

theorem forM {l : List α} {f : α → Lookup PUnit} (h : ∀ a, Transparent (f a)) :
    Transparent (l.forM f) := by
  induction l with
  | nil => exact pure
  | cons a l ih => exact bind (h a) fun _ => ih

theorem mapM {l : List α} {f : α → Lookup β} (h : ∀ a, Transparent (f a)) :
    Transparent (l.mapM f) := by
  induction l with
  | nil =>
    rw [List.mapM_nil]
    exact pure
  | cons a l ih =>
    rw [List.mapM_cons]
    exact bind (h a) fun _ => bind ih fun _ => pure

end Transparent

/-- With caching turned off, nothing is taken from the cache or put there. -/
theorem run_select_off (d : OpenDocument) (own cache : QueryCache) (messages : List Message) :
    (((select path).run (d.recached false own)).run.run cache).run messages =
      ((d.select path, cache), messages) := by
  have run : (((select path).run (d.recached false own)).run.run cache).run messages =
      ((((liftM (d.select path) : Lookup _) >>= fun hits => Pure.pure hits).run d).run.run
        cache).run messages := rfl
  rw [run]
  cases d.select path <;> rfl

/-- What an expression selects in a document, remembered from then on. -/
def selectAnew (d : OpenDocument) (path : String) : Lookup (List Hit) := do
  let hits ← d.select path
  set (some (path, hits))
  return hits

theorem right_selectAnew (d d' : OpenDocument) (messages : List Message)
    (right : d.Remembers cache) :
    match (((selectAnew d path).run d').run.run cache).run messages with
    | ((result, cache'), messages') => d.Remembers cache' ∧
      ((d.select path, (none : QueryCache)), messages) = ((result, none), messages') := by
  rw [selectAnew]
  cases e : d.select path with
  | error cause => exact ⟨right, rfl⟩
  | ok hits =>
    refine ⟨?_, rfl⟩
    rintro _ ⟨⟩
    exact e

/-- With caching turned on, an expression is looked for in the cache first. -/
theorem run_select_on (d : OpenDocument) (own cache : QueryCache) (messages : List Message) :
    (((select path).run (d.recached true own)).run.run cache).run messages =
      match cache with
      | some (known, hits) =>
        (((if known == path then return hits else selectAnew d path : Lookup _).run
          (d.recached true own)).run.run cache).run messages
      | none => (((selectAnew d path).run (d.recached true own)).run.run cache).run messages := by
  rcases cache with _ | ⟨known, hits⟩ <;> rfl

/-- The one lookup that uses the cache. -/
theorem transparent_select : Transparent (select path) := by
  intro d caching own cache messages right
  rw [run_select_off]
  cases caching with
  | false =>
    rw [run_select_off]
    exact ⟨right, rfl⟩
  | true =>
    rw [run_select_on]
    match cache with
    | none => exact right_selectAnew d _ messages right
    | some (known, hits) =>
      dsimp only
      by_cases same : known = path
      · rw [if_pos (beq_iff_eq.mpr same)]
        have found := right (known, hits) rfl
        rw [same] at found
        exact ⟨right, congrArg (fun result => ((result, none), messages)) found⟩
      · rw [if_neg (mt beq_iff_eq.mp same)]
        exact right_selectAnew d _ messages right

/-! ## Nodes and attributes -/

theorem transparent_selectSome : Transparent (selectSome path) := by
  rw [selectSome]
  exact .bind transparent_select fun hits => .ite .refuse .pure

theorem transparent_selectOne : Transparent (selectOne path) := by
  rw [selectOne]
  refine .bind transparent_selectSome fun hits => ?_
  split
  · exact .pure
  · exact .throw

theorem transparent_node : Transparent (node path) := by
  rw [node]
  refine .reading (fun _ _ _ => rfl) fun d => .bind transparent_selectOne fun hit => ?_
  cases hit with
  | node id =>
    dsimp only
    split
    · exact .pure
    · exact .pure
    · exact .throw
  | «attribute» owner index => exact .throw

theorem transparent_atIndex {members : List α} {index : Int} :
    Transparent (atIndex path members index) := by
  unfold atIndex
  split
  · exact .pure
  · exact .throw

theorem transparent_hit {index : Int} : Transparent (hit path index) :=
  .bind transparent_selectSome fun _ => transparent_atIndex

theorem transparent_checkElement : Transparent (checkElement path) := .discard transparent_node

theorem transparent_checkAttribute : Transparent (checkAttribute path name) :=
  .bind transparent_node fun _ => .reading (fun _ _ _ => rfl) fun _ => .ite .throw .pure

/-- What is a value of the document and of a node. -/
theorem transparent_ofNode {value : OpenDocument → NodeId → α}
    (same : ∀ d caching own, value (OpenDocument.recached d caching own) = value d) :
    Transparent (do let id ← node path; return value (← read) id) :=
  .bind transparent_node fun id =>
    .reading (fun d caching own => congrArg (fun f => pure (f id)) (same d caching own)) fun _ => .pure

theorem transparent_namedChildCount : Transparent (namedChildCount path name) :=
  transparent_ofNode fun _ _ _ => rfl

theorem transparent_childCount : Transparent (childCount path) :=
  transparent_ofNode fun _ _ _ => rfl

theorem transparent_childName {index : Int} : Transparent (childName path index) := by
  rw [childName]
  refine .ite .refuse (.bind transparent_node fun id => .reading (fun _ _ _ => rfl) fun d => ?_)
  exact .bind transparent_atIndex fun _ => .pure

theorem transparent_nodeType : Transparent (nodeType path) := by
  rw [nodeType]
  refine .bind transparent_selectOne fun hit => ?_
  cases hit with
  | node id => exact .reading (fun _ _ _ => rfl) fun _ => .pure
  | «attribute» owner index => exact .pure

theorem transparent_count : Transparent (count path) :=
  .bind transparent_select fun _ => .pure

theorem transparent_hitText {index : Int} : Transparent (hitText path index) :=
  .reading (fun _ _ _ => rfl) fun _ => .bind transparent_hit fun _ => .pure

theorem transparent_hitName {index : Int} : Transparent (hitName path index) := by
  rw [hitName]
  refine .reading (fun _ _ _ => rfl) fun d => .bind transparent_hit fun hit => ?_
  cases hit with
  | node id =>
    dsimp only
    split
    · exact .pure
    · exact .throw
  | «attribute» owner index => exact .throw

theorem transparent_hitLocation {index : Int} : Transparent (hitLocation path index) :=
  .reading (fun _ _ _ => rfl) fun _ => .bind transparent_hit fun _ => .pure

theorem transparent_elementText : Transparent (elementText path) :=
  transparent_ofNode fun _ _ _ => rfl

theorem transparent_attributeText : Transparent (attributeText path name) := by
  rw [attributeText]
  refine .bind transparent_node fun id => .reading (fun _ _ _ => rfl) fun d => ?_
  split
  · exact .pure
  · exact .throw

theorem transparent_attributeCount : Transparent (attributeCount path) :=
  transparent_ofNode fun _ _ _ => rfl

theorem transparent_attributeName {index : Int} : Transparent (attributeName path index) :=
  .bind transparent_node fun _ => .reading (fun _ _ _ => rfl) fun _ =>
    .bind transparent_atIndex fun _ => .pure

theorem transparent_elementMarkup : Transparent (elementMarkup path) :=
  transparent_ofNode fun _ _ _ => rfl

/-! ## Identifiers -/

theorem transparent_checkUids : Transparent checkUids :=
  .reading (fun _ _ _ => rfl) fun _ => .report

theorem transparent_checkLinks : Transparent checkLinks := by
  rw [checkLinks]
  refine .reading (fun _ _ _ => rfl) fun d => ?_
  dsimp only
  split
  · exact .throw
  · exact .pure

theorem transparent_withUid : Transparent (withUid name) := by
  rw [withUid]
  refine .reading (fun _ _ _ => rfl) fun d => ?_
  split
  · exact .pure
  · exact .throw

theorem transparent_uidLocation : Transparent (uidLocation name) := by
  rw [uidLocation]
  refine .reading (fun _ _ _ => rfl) fun d => ?_
  refine .bind (.handle transparent_checkUids fun e => .report) fun _ => ?_
  exact .bind transparent_withUid fun _ => .pure

theorem transparent_checkUid : Transparent (checkUid name) :=
  .bind transparent_checkUids fun _ => .discard transparent_withUid

/-! ## Lists of numbers -/

theorem transparent_vectorText : Transparent (vectorText path) := by
  rw [vectorText]
  refine .bind transparent_node fun id => .reading (fun _ _ _ => rfl) fun d => ?_
  dsimp only
  split
  · exact .throw
  · exact .ite .refuse .pure

theorem transparent_vectorSize : Transparent (vectorSize path) :=
  .bind transparent_vectorText fun _ => .pure

theorem transparent_vector {count : Nat} : Transparent (vector path count) := by
  rw [vector]
  refine .bind transparent_vectorText fun text => .bind (.mapM fun _ => .lift) fun numbers => ?_
  exact .ite .refuse .pure

theorem transparent_coordinate {point : NodeId} : Transparent (coordinate path point name) := by
  rw [coordinate]
  refine .reading (fun _ _ _ => by simp only [OpenDocument.recached_document]) fun d => ?_
  dsimp only
  split
  · exact .pure
  · split
    · exact .pure
    · exact .throw

theorem transparent_firstElement? : Transparent (firstElement? path) :=
  .reading (fun _ _ _ => rfl) fun _ => .bind transparent_select fun _ => .pure

theorem transparent_point : Transparent (point path) := by
  rw [point]
  refine .bind transparent_firstElement? fun first => ?_
  split
  · exact .throw
  · refine .bind transparent_coordinate fun x => .bind transparent_coordinate fun y => ?_
    exact .bind transparent_coordinate fun z => .ite .refuse .pure

/-! ## Matrices -/

theorem transparent_rowCells {row : NodeId} : Transparent (rowCells name row) :=
  .reading (fun _ _ _ => rfl) fun _ => .bind (.forM fun _ => .ite .throw .pure) fun _ => .pure

theorem transparent_matrixRows : Transparent (matrixRows path names) := by
  rw [matrixRows]
  refine .bind (.discard transparent_selectSome) fun _ => .bind transparent_select fun rows => ?_
  exact .ite .refuse (.mapM fun _ => transparent_rowCells)

theorem transparent_matrixSize : Transparent (matrixSize path names) := by
  rw [matrixSize]
  refine .bind transparent_matrixRows fun rows => ?_
  dsimp only
  split
  · exact .refuse
  · exact .pure

theorem transparent_rowNumbers {cols : Nat} {cells : List NodeId} :
    Transparent (rowNumbers path cols cells) := by
  rw [rowNumbers]
  refine .ite .refuse (.reading (fun _ _ _ => by simp only [OpenDocument.recached_document]) ?_)
  refine fun d => .mapM fun cell => ?_
  dsimp only
  split
  · exact .pure
  · exact .throw

theorem transparent_matrix {rows cols : Nat} {mode : StorageMode} :
    Transparent (matrix path names rows cols mode) := by
  rw [matrix]
  refine .bind transparent_matrixRows fun found => .ite .refuse ?_
  exact .bind (.mapM fun _ => transparent_rowNumbers) fun _ => .pure

/-! ## Arrays -/

theorem transparent_arrayParts : Transparent (arrayParts path name) := by
  rw [arrayParts]
  refine .reading (fun _ _ _ => rfl) fun d => .bind transparent_select fun parents => ?_
  exact .ite .refuse .pure

theorem transparent_arrayPartCount : Transparent (arrayPartCount path name) :=
  .bind transparent_arrayParts fun _ => .pure

theorem transparent_arrayPartNames : Transparent (arrayPartNames path name) :=
  .reading (fun _ _ _ => rfl) fun _ => .bind transparent_arrayParts fun _ => .pure

theorem transparent_dimensionText {id : NodeId} : Transparent (dimensionText id) :=
  .reading (fun _ _ _ => rfl) fun _ => .ite .refuse .pure

theorem transparent_dimensionSizes : Transparent (dimensionSizes path) := by
  rw [dimensionSizes]
  refine .bind transparent_arrayParts fun parts => .bind (.mapM fun id => ?_) fun _ => .pure
  exact .bind transparent_dimensionText fun _ => .pure

theorem transparent_dimensionValues {dimension : Nat} :
    Transparent (dimensionValues path dimension) := by
  rw [dimensionValues]
  refine .bind transparent_arrayParts fun parts => ?_
  split
  · exact .throw
  · exact .reading (fun _ _ _ => rfl) fun d => .bind transparent_dimensionText fun _ => .lift

theorem transparent_arrayNode : Transparent (arrayNode path) := by
  rw [arrayNode]
  refine .reading (fun _ _ _ => rfl) fun d => .bind transparent_selectSome fun hits => ?_
  split
  · exact .ite .pure .throw
  · exact .throw

theorem transparent_array {size : Nat} : Transparent (array path name size) := by
  rw [array]
  refine .bind transparent_arrayNode fun id => .reading (fun _ _ _ => rfl) fun d => ?_
  exact .bind .lift fun numbers => .ite .refuse .pure

end Lookup

theorem Question.transparent_lookup (q : Question) : q.lookup.Transparent := by
  open Lookup in
  cases q with
  | isOpen => exact .pure
  | filePath => exact .reading (fun _ _ _ => rfl) fun _ => .pure
  | wholeText => exact .reading (fun _ _ _ => rfl) fun _ => .pure
  | checkElement => exact .bind transparent_checkElement fun _ => .pure
  | checkAttribute => exact .bind transparent_checkAttribute fun _ => .pure
  | namedChildCount => exact .bind transparent_namedChildCount fun _ => .pure
  | childCount => exact .bind transparent_childCount fun _ => .pure
  | childName => exact .bind transparent_childName fun _ => .pure
  | nodeType => exact .bind transparent_nodeType fun _ => .pure
  | hitCount => exact .bind transparent_count fun _ => .pure
  | hitText => exact .bind transparent_hitText fun _ => .pure
  | hitName => exact .bind transparent_hitName fun _ => .pure
  | hitLocation => exact .bind transparent_hitLocation fun _ => .pure
  | text => exact .bind transparent_elementText fun _ => .pure
  | integer => exact .bind transparent_elementText fun _ => .checked
  | float => exact .bind transparent_elementText fun _ => .checked
  | boolean => exact .bind transparent_elementText fun _ => .checked
  | elementMarkup => exact .bind transparent_elementMarkup fun _ => .pure
  | attributeText => exact .bind transparent_attributeText fun _ => .pure
  | attributeInteger => exact .bind transparent_attributeText fun _ => .checked
  | attributeFloat => exact .bind transparent_attributeText fun _ => .checked
  | attributeBoolean => exact .bind transparent_attributeText fun _ => .checked
  | attributeCount => exact .bind transparent_attributeCount fun _ => .pure
  | attributeName => exact .bind transparent_attributeName fun _ => .pure
  | checkUids => exact .bind transparent_checkUids fun _ => .pure
  | checkLinks => exact .bind transparent_checkLinks fun _ => .pure
  | uidLocation => exact .bind transparent_uidLocation fun _ => .pure
  | checkUid => exact .bind transparent_checkUid fun _ => .pure
  | vectorSize => exact .bind transparent_vectorSize fun _ => .pure
  | vector => exact .bind transparent_vector fun _ => .pure
  | point => exact .bind transparent_point fun _ => .pure
  | matrixSize => exact .bind transparent_matrixSize fun _ => .pure
  | matrix => exact .bind transparent_matrix fun _ => .pure
  | arrayPartCount => exact .bind transparent_arrayPartCount fun _ => .pure
  | arrayPartNames => exact .bind transparent_arrayPartNames fun _ => .pure
  | dimensionSizes => exact .bind transparent_dimensionSizes fun _ => .pure
  | dimensionValues => exact .bind transparent_dimensionValues fun _ => .pure
  | array => exact .bind transparent_array fun _ => .pure

end XmlStore
