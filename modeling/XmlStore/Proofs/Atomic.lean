/-
Refused calls change nothing. An edit first reads, which may fail and leaves the
document as it is, and then writes, which never fails; so an edit that fails has
left everything as it was. What a call does to the store it does when nothing
can fail any more.
-/
import XmlStore.Proofs.CacheRuns

namespace XmlStore

/-! ## Reading and writing -/

namespace Tracked

variable {σ α β : Type}

/-- The computation leaves the state as it is, whether it fails or not. -/
def Reads (x : Tracked σ α) : Prop := ∀ s, Ensures (· = s) x (fun _ => (· = s)) (· = s)

/-- The computation never fails. -/
def Succeeds (x : Tracked σ α) : Prop := Ensures (fun _ => True) x (fun _ _ => True) fun _ => False

/-- Where the computation fails, the state is as it was. -/
def Atomic (x : Tracked σ α) : Prop := ∀ s, Ensures (· = s) x (fun _ _ => True) (· = s)

namespace Reads

theorem pure {a : α} : Reads (Pure.pure a : Tracked σ α) := fun _ => .pure fun _ h => h

theorem throw {e : Error} : Reads (MonadExcept.throw e : Tracked σ α) := fun _ => .throw fun _ h => h

theorem get : Reads (MonadState.get : Tracked σ σ) := fun _ => .get fun _ h => h

theorem report {c : Reported α} : Reads (liftM c : Tracked σ α) := fun _ =>
  .report (fun _ h => h) fun _ h _ _ _ => h

theorem lift {c : Except Error α} : Reads (liftM c : Tracked σ α) := fun _ =>
  .lift (fun _ h => h) fun _ _ h _ => h

theorem bind {x : Tracked σ α} {f : α → Tracked σ β} (hx : x.Reads) (hf : ∀ a, (f a).Reads) :
    (x >>= f).Reads := fun s => .bind (hx s) fun a => hf a s

theorem ite {p : Prop} [Decidable p] {x y : Tracked σ α} (hx : x.Reads) (hy : y.Reads) :
    (if p then x else y).Reads := by
  split
  · exact hx
  · exact hy

theorem forM {l : List α} {f : α → Tracked σ PUnit} (h : ∀ a, (f a).Reads) : (l.forM f).Reads :=
  fun s => .forM fun a _ => h a s

theorem mapM {l : List α} {f : α → Tracked σ β} (h : ∀ a, (f a).Reads) : (l.mapM f).Reads :=
  fun s => .mapM fun a _ => h a s

end Reads

namespace Succeeds

theorem pure {a : α} : Succeeds (Pure.pure a : Tracked σ α) := Ensures.pure fun _ h => h

theorem get : Succeeds (MonadState.get : Tracked σ σ) := Ensures.get fun _ h => h

theorem modify {f : σ → σ} : Succeeds (modify f : Tracked σ PUnit) := Ensures.modify fun _ h => h

theorem modifyGet {f : σ → α × σ} : Succeeds (modifyGet f : Tracked σ α) := Ensures.modifyGet fun _ h => h

theorem bind {x : Tracked σ α} {f : α → Tracked σ β} (hx : x.Succeeds) (hf : ∀ a, (f a).Succeeds) :
    (x >>= f).Succeeds := Ensures.bind hx hf

theorem discard {x : Tracked σ α} (h : x.Succeeds) : Succeeds (Functor.discard x) := Ensures.discard h

theorem forM {l : List α} {f : α → Tracked σ PUnit} (h : ∀ a, (f a).Succeeds) : (l.forM f).Succeeds :=
  Ensures.forM fun a _ => h a

end Succeeds

namespace Atomic

theorem of_reads {x : Tracked σ α} (h : x.Reads) : x.Atomic := fun s =>
  (h s).imp (fun _ h => h) fun _ _ _ => trivial

theorem of_succeeds {x : Tracked σ α} (h : x.Succeeds) : x.Atomic := fun _ =>
  (h.imp (fun _ _ => trivial) fun _ _ h => h).fails fun _ => False.elim

/-- What has been read before may decide what is done. -/
theorem bind {x : Tracked σ α} {f : α → Tracked σ β} (hx : x.Reads) (hf : ∀ a, (f a).Atomic) :
    (x >>= f).Atomic := fun s => .bind (hx s) fun a => hf a s

/-- What never fails may follow. -/
theorem before {x : Tracked σ α} {f : α → Tracked σ β} (hx : x.Atomic) (hf : ∀ a, (f a).Succeeds) :
    (x >>= f).Atomic := fun s => .bind (hx s) fun a => (hf a).fails fun _ => False.elim

theorem discard {x : Tracked σ α} (h : x.Atomic) : Atomic (Functor.discard x) := fun s => .discard (h s)

theorem throw {e : Error} : Atomic (MonadExcept.throw e : Tracked σ α) := of_reads .throw

/-- A refusal ends the computation, whatever would come after it. -/
theorem refuse {e : Error} {f : α → Tracked σ β} : Atomic (MonadExcept.throw e >>= f) := fun _ =>
  .refuse fun _ h => h

end Atomic

/-- A refusal of an atomic computation leaves the state that there was. -/
theorem Atomic.of_conclude {x : Tracked σ Answer} {s s' : σ} {e : Error} {messages : List Message}
    (h : x.Atomic) (refused : x.conclude s = ((.refused e, messages), s')) : s' = s := by
  have result := h s s [] rfl
  rw [conclude] at refused
  rcases run : (x.run.run s).run [] with ⟨⟨cause | a, after⟩, others⟩
  · rw [run] at refused result
    cases refused
    exact result
  · rw [run] at refused
    cases refused

end Tracked

/-! ## Edits -/

namespace Edit

open Tracked (Reads Succeeds Atomic)

variable {α β : Type} {id p : NodeId} {name path text uri value : String}

theorem reads_look {question : Lookup α} : (look question).Reads := by
  rintro _ d messages rfl
  rw [run_look]
  rcases ((question.run (d.recached false d.cache)).run.run none).run messages with
    ⟨⟨_ | a, cache⟩, messages⟩ <;> rfl

theorem reads_document : document.Reads := .bind .get fun _ => .pure

theorem reads_requireName : (requireName name).Reads := .ite .throw .pure

theorem succeeds_document : document.Succeeds := .bind .get fun _ => .pure

theorem succeeds_change {f : Document → Document} : (change f).Succeeds := .modify

theorem succeeds_create {content : Content} : (create content).Succeeds := .modifyGet

theorem succeeds_appendText : (appendText id text).Succeeds := by
  rw [appendText]
  split
  · exact .bind succeeds_create fun _ => succeeds_change
  · exact .pure

theorem succeeds_appendElement : (appendElement p name text).Succeeds :=
  .bind succeeds_create fun _ => .bind succeeds_change fun _ => .bind succeeds_appendText fun _ => .pure

theorem succeeds_appendFields {fields : List (String × String)} : (appendFields id fields).Succeeds :=
  .forM fun _ => .discard succeeds_appendElement

theorem succeeds_applyNamespace {qualifier : Option String} :
    (applyNamespace id qualifier uri).Succeeds := by
  refine .bind succeeds_document fun d => ?_
  dsimp only
  split
  · exact .bind succeeds_change fun _ => succeeds_change
  · exact succeeds_change

theorem succeeds_replaceText : (replaceText id text).Succeeds :=
  .bind succeeds_create fun _ => succeeds_change

theorem atomic_insertElement {uri text : Option String} {place : Nat} :
    (insertElement path name uri text place).Atomic := by
  refine .bind reads_requireName fun _ => ?_
  dsimp only
  split
  · exact .refuse
  refine .bind reads_look fun parent => .of_succeeds ?_
  refine .bind succeeds_create fun id => .bind succeeds_appendText fun _ => .bind succeeds_change fun _ => ?_
  split
  · exact .bind succeeds_applyNamespace fun _ => .pure
  · exact .bind succeeds_change fun _ => .pure

theorem atomic_updateText : (updateText path text).Atomic :=
  .bind reads_look fun _ => .of_succeeds succeeds_replaceText

theorem atomic_renameChildren {old new : String} : (renameChildren path old new).Atomic := by
  refine .bind reads_requireName fun _ => .bind reads_look fun id => .bind reads_document fun d => ?_
  dsimp only
  split
  · exact .refuse
  · exact .of_succeeds (.forM fun _ => succeeds_change)

theorem atomic_remove : (remove path).Atomic := by
  refine .bind reads_look fun hit => ?_
  rcases hit with id | ⟨owner, index⟩
  · dsimp only
    split
    · exact .refuse
    · exact .of_succeeds succeeds_change
  · exact .throw

theorem atomic_swap {a b : String} : (swap a b).Atomic := by
  refine .bind reads_look fun first => .bind reads_look fun second => .bind reads_document fun d => ?_
  dsimp only
  split
  · split
    · exact .refuse
    · exact .of_succeeds succeeds_change
  · exact .of_reads .pure

theorem atomic_importMarkup {place : Nat} : (importMarkup path text place).Atomic := by
  refine .bind .get fun d => ?_
  split
  · exact .throw
  refine .bind reads_look fun parent => ?_
  split
  · exact .throw
  · exact .bind reads_document fun d => .of_succeeds succeeds_change

theorem atomic_setAttribute : (setAttribute path name value).Atomic := by
  rw [setAttribute]
  dsimp only
  split
  · exact .refuse
  refine .bind reads_requireName fun _ => .bind reads_look fun id => .bind reads_document fun d => ?_
  split
  · exact .refuse
  split
  · split
    · exact .refuse
    · exact .of_succeeds succeeds_change
  · exact .of_succeeds succeeds_change

theorem atomic_removeAttribute : (removeAttribute path name).Atomic := by
  refine .bind reads_look fun hit => ?_
  rcases hit with id | ⟨owner, index⟩
  · exact .of_succeeds succeeds_change
  · exact .of_reads .pure

theorem reads_element : (element path).Reads := by
  refine .bind reads_look fun id => .bind reads_document fun d => ?_
  dsimp only
  split
  · exact .bind .throw fun _ => .pure
  · exact .pure

theorem atomic_setNamespace {qualifier : String} : (setNamespace path uri qualifier).Atomic := by
  have named (bare : Option String) : Atomic (element path >>= fun id => applyNamespace id bare uri) :=
    .bind reads_element fun _ => .of_succeeds succeeds_applyNamespace
  refine .bind .lift fun _ => ?_
  dsimp only
  split
  · exact .bind .lift fun _ => named _
  · exact named _

theorem atomic_declareNamespace {qualifier : String} : (declareNamespace path uri qualifier).Atomic := by
  refine .bind .lift fun _ => .bind .lift fun _ => .bind reads_element fun id => .bind reads_document fun d => ?_
  split
  · exact .of_succeeds succeeds_change
  · exact .of_reads .pure

theorem atomic_setUid : (setUid path value).Atomic :=
  .bind reads_document fun _ => .bind .report fun _ => atomic_setAttribute

theorem atomic_addLink {target : String} {mode : LinkMode} : (addLink path name target mode).Atomic := by
  refine .bind reads_requireName fun _ => .bind reads_look fun found => .bind reads_document fun d => ?_
  refine .bind reads_look fun id => .bind reads_document fun d' => ?_
  dsimp only
  split
  · refine .of_succeeds (.bind succeeds_appendElement fun link => ?_)
    exact .bind succeeds_change fun _ => .pure
  · exact .of_reads .pure

/-! ## Edits with numbers -/

variable {numbers : List Float} {format : Option String}

theorem reads_vectorText : (vectorText name numbers format).Reads := by
  rw [vectorText]
  dsimp only
  split
  · exact .bind .throw fun _ => .lift
  · exact .lift

theorem atomic_addVector : (addVector path name numbers format).Atomic :=
  .bind reads_vectorText fun _ => .before atomic_insertElement fun _ => succeeds_change

theorem atomic_updateVector : (updateVector path numbers format).Atomic :=
  .bind reads_vectorText fun _ => .bind reads_look fun _ =>
    .of_succeeds (.bind succeeds_replaceText fun _ => succeeds_change)

theorem reads_texts : Reads (numbers.mapM fun x => (writeFloat format x : Edit String)) :=
  .mapM fun _ => .lift

theorem atomic_addPoint {x y z : Float} : (addPoint path x y z format).Atomic :=
  .bind reads_texts fun _ => .bind reads_look fun _ =>
    .of_succeeds (.forM fun _ => .discard succeeds_appendElement)

theorem atomic_addList {list child : String} {values : List String} :
    (addList path list child name numbers format values).Atomic := by
  refine .bind (.forM fun _ => reads_requireName) fun _ => ?_
  dsimp only
  split
  · exact .refuse
  refine .bind reads_texts fun texts => .before atomic_insertElement fun id => .forM fun pair => ?_
  exact .bind succeeds_appendElement fun _ => succeeds_change

theorem atomic_buildMatrix {names : MatrixNames} {rows cols : Nat} {cell : Nat → Nat → String} :
    (buildMatrix path names rows cols cell).Atomic :=
  .before atomic_insertElement fun _ => .forM fun _ =>
    .bind succeeds_appendElement fun _ => .forM fun _ => .discard succeeds_appendElement

theorem reads_requireDimension {rows cols : Int} : (requireDimension rows cols).Reads := by
  rw [requireDimension]
  dsimp only
  split
  · exact .bind .throw fun _ => .pure
  · exact .pure

theorem reads_requireNames {names : MatrixNames} : (requireNames names).Reads :=
  .forM fun _ => reads_requireName

theorem atomic_addEmptyMatrix {names : MatrixNames} {rows cols : Int} :
    (addEmptyMatrix path names rows cols).Atomic :=
  .bind reads_requireDimension fun _ => .bind reads_requireNames fun _ => atomic_buildMatrix

theorem atomic_addMatrix {names : MatrixNames} {rows cols : Int} {mode : StorageMode} :
    (addMatrix path names rows cols numbers mode format).Atomic := by
  refine .bind reads_requireDimension fun size => ?_
  dsimp only
  split
  · exact .refuse
  · exact .bind reads_requireNames fun _ => .bind reads_texts fun _ => atomic_buildMatrix

/-! ## Headers -/

theorem atomic_appendHeader : appendHeader.Atomic := by
  refine .bind reads_document fun d => ?_
  split
  · exact .of_succeeds succeeds_appendElement
  · exact .throw

theorem atomic_addToolHeader {h : ToolHeader} {time : String} : (addToolHeader h time).Atomic :=
  .before atomic_appendHeader fun _ => .bind succeeds_appendElement fun _ =>
    .bind succeeds_appendFields fun _ => succeeds_appendFields

theorem atomic_addDataHeader {h : DataHeader} {time : String} : (addDataHeader h time).Atomic :=
  .before atomic_appendHeader fun _ => succeeds_appendFields

theorem atomic_addExternalLink : (addExternalLink path uri format).Atomic := by
  refine .before atomic_insertElement fun id => ?_
  split
  · exact succeeds_change
  · exact .pure

end Edit

/-! ## Changes -/

/-- A change that is refused has left the document as it was. -/
theorem Change.atomic_edit (c : Change) {edit : Edit Answer} (accepted : c.edit = .ok edit) :
    edit.Atomic := by
  have done : ∀ {x : Edit Unit}, x.Atomic → Tracked.Atomic (do x; return Answer.done) :=
    fun h => .before h fun _ => .pure
  cases c with
  | updateElement path value =>
    obtain ⟨text, -, accepted⟩ := bind_eq_ok.1 accepted
    cases accepted
    exact done Edit.atomic_updateText
  | addElement parent name uri value place =>
    obtain ⟨text, -, accepted⟩ := bind_eq_ok.1 accepted
    cases accepted
    exact done (.discard Edit.atomic_insertElement)
  | setAttribute path name value =>
    obtain ⟨text, -, accepted⟩ := bind_eq_ok.1 accepted
    cases accepted
    exact done Edit.atomic_setAttribute
  | renameChildren => cases accepted; exact done Edit.atomic_renameChildren
  | remove => cases accepted; exact done Edit.atomic_remove
  | swap => cases accepted; exact done Edit.atomic_swap
  | importMarkup => cases accepted; exact done Edit.atomic_importMarkup
  | removeAttribute => cases accepted; exact done Edit.atomic_removeAttribute
  | setNamespace => cases accepted; exact done Edit.atomic_setNamespace
  | declareNamespace => cases accepted; exact done Edit.atomic_declareNamespace
  | setUid => cases accepted; exact done Edit.atomic_setUid
  | addLink => cases accepted; exact .before Edit.atomic_addLink fun _ => .pure
  | addVector => cases accepted; exact done Edit.atomic_addVector
  | updateVector => cases accepted; exact done Edit.atomic_updateVector
  | addPoint => cases accepted; exact done Edit.atomic_addPoint
  | addList => cases accepted; exact done Edit.atomic_addList
  | addEmptyMatrix => cases accepted; exact done Edit.atomic_addEmptyMatrix
  | addMatrix => cases accepted; exact done Edit.atomic_addMatrix
  | addToolHeader => cases accepted; exact done Edit.atomic_addToolHeader
  | addDataHeader => cases accepted; exact done Edit.atomic_addDataHeader
  | addExternalLink => cases accepted; exact done Edit.atomic_addExternalLink

/-! ## Calls -/

namespace Store

variable {s : Store} {handle : Handle} {d : OpenDocument} {e : Error}

/-- The same documents under the same handles; only what they remember may differ. -/
structure Unchanged (s s' : Store) : Prop where
  handles : s'.handles = s.handles
  nextHandle : s'.nextHandle = s.nextHandle
  documents : ∀ handle d, s.document? handle = some d →
    ∃ cache, s'.document? handle = some { d with cache }

theorem Unchanged.refl : s.Unchanged s := ⟨rfl, rfl, fun _ d found => ⟨d.cache, found⟩⟩

theorem unchanged_update (found : s.document? handle = some d) (cache : QueryCache) :
    s.Unchanged (s.update handle { d with cache }) := by
  refine ⟨handles_update, rfl, fun other old known => ?_⟩
  rw [document?_update, known, Option.map_some]
  by_cases same : other = handle
  · obtain rfl := same
    obtain rfl := Option.some.inj (known.symm.trans found)
    exact ⟨cache, by rw [if_pos rfl]⟩
  · exact ⟨old.cache, by rw [if_neg same]⟩

theorem unchanged_add {new : Except Error OpenDocument} (refused : (s.add new).1.outcome = .refused e) :
    s.Unchanged (s.add new).2 := by
  cases new with
  | ok d => cases refused
  | error cause => exact .refl

theorem unchanged_openFile {files : Files} {patience : Nat} {path : String} {mode : OpenMode}
    (refused : (s.openFile files patience path mode).1.outcome = .refused e) :
    s.Unchanged (s.openFile files patience path mode).2 := by
  rw [openFile] at refused ⊢
  split at refused
  · cases refused
  · cases refused
  · exact .refl

theorem unchanged_ask (q : Question) : s.Unchanged (s.ask handle q).2 := by
  rw [ask]
  split
  · exact .refl
  · rename_i d found
    exact unchanged_update found _

theorem unchanged_change {c : Change} (refused : (s.change handle c).1.outcome = .refused e) :
    s.Unchanged (s.change handle c).2 := by
  rw [change] at refused ⊢
  split
  · exact .refl
  · rename_i edit accepted
    rw [accepted] at refused
    dsimp only at refused
    split
    · exact .refl
    · rename_i d found
      rw [found] at refused
      dsimp only at refused
      split
      · exact .refl
      · rename_i editable
        rw [if_neg editable] at refused
        rcases ended : Tracked.conclude d edit with ⟨⟨outcome, messages⟩, after⟩
        rw [ended] at refused
        obtain rfl : outcome = .refused e := refused
        obtain rfl := (c.atomic_edit accepted).of_conclude ended
        exact unchanged_update found none

theorem unchanged_set {setting : Setting} (refused : (s.set handle setting).1.outcome = .refused e) :
    s.Unchanged (s.set handle setting).2 := by
  rw [set] at refused ⊢
  split
  · exact .refl
  · rename_i d found
    rw [found] at refused
    dsimp only at refused
    split at refused
    · cases refused
    · exact unchanged_update found none

theorem unchanged_save {files : Files} {path : String} {mode : SaveMode}
    (refused : (s.save files handle path mode).1.outcome = .refused e) :
    s.Unchanged (s.save files handle path mode).2.1 := by
  rw [save] at refused ⊢
  split
  · exact .refl
  · rename_i d found
    rw [found] at refused
    dsimp only at refused
    split at refused
    · exact .refl
    · cases refused

theorem unchanged_close (refused : (s.close handle).1.outcome = .refused e) :
    s.Unchanged (s.close handle).2 := by
  rw [close] at refused ⊢
  split
  · exact .refl
  · rename_i d found
    rw [found] at refused
    cases refused

end Store

/-- A call that is refused leaves the same documents under the same handles, with the same trees,
states, paths and preferences, and the same handle to be given out next. -/
theorem unchanged_of_refused {s : Session} {patience : Nat} {c : Call} {e : Error}
    (refused : (s.call patience c).1.outcome = .refused e) :
    s.store.Unchanged (s.call patience c).2.store := by
  cases c with
  | create rootName => exact Store.unchanged_add refused
  | importText markup => exact Store.unchanged_add refused
  | openFile path mode => exact Store.unchanged_openFile refused
  | save handle path mode => exact Store.unchanged_save refused
  | close handle => exact Store.unchanged_close refused
  | closeAll => cases refused
  | ask handle q => exact Store.unchanged_ask q
  | change handle c => exact Store.unchanged_change refused
  | set handle setting => exact Store.unchanged_set refused
  | listen on => cases refused
  | silence on => cases refused

/-- A vector without numbers is refused for a new document. -/
theorem unchanged_of_refused_emptyVector :
    let s := ((Session.mk (.ofOptions .default) ⟨[], []⟩).call 0 (.create "a")).2
    let c := Call.change 1 (.addVector "/a" "x" [] none)
    (s.call 0 c).1.outcome = .refused (.emptyVector "x") ∧ s.store.handles = [1] ∧
      s.store.Unchanged (s.call 0 c).2.store :=
  ⟨rfl, rfl, unchanged_of_refused (e := .emptyVector "x") rfl⟩

end XmlStore
