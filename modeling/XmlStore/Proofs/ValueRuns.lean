/-
Runs of the edits that are made of others: namespaces, identifiers and links,
lists of numbers, matrices and headers. All names they give are either checked
or fixed and valid.
-/
import XmlStore.Proofs.EditRuns
import XmlStore.Store.Call

namespace XmlStore

open Tracked (Ensures)

namespace Edit

variable {α : Type} {P : OpenDocument → Prop} {ids : List NodeId} {id p : NodeId}
variable {name path text uri value : String}

/-- A node that was found or made need not be kept in mind. -/
theorem ensures_forget {x : Edit α} {Q : α → OpenDocument → Prop} (h : Ensures (Holding ids) x Q Left) :
    Ensures (Holding (id :: ids)) x Q Left :=
  h.imp (fun _ h => h.sub (List.subset_cons_self ..)) fun _ _ h => h

/-- What a check accepts may be assumed. -/
theorem ensures_accepted {P : OpenDocument → Prop} {c : Except Error α} (hP : ∀ o, P o → Left o) :
    Ensures P (liftM c) (fun a o => P o ∧ c = .ok a) Left :=
  .lift hP fun _ _ h accepted => ⟨h, accepted⟩

theorem ensures_accept {c : Except Error α} :
    Ensures (Holding ids) (liftM c) (fun a o => Holding ids o ∧ c = .ok a) Left :=
  ensures_accepted left_of_holding

theorem ensures_check {c : Except Error α} :
    Ensures (Holding ids) (liftM c) (fun _ => Holding ids) Left :=
  ensures_accept.imp (fun _ h => h) fun _ _ h => h.1

theorem ensures_setAttributeOf (valid : isQName name = true) :
    Ensures (Holding ids) (change (·.setAttribute id name value)) (fun _ => Holding ids) Left :=
  ensures_step fun _ _ => .setAttribute id name value valid

/-! ## Namespaces -/

theorem ensures_element :
    Ensures (Holding ids) (element path) (fun id => Holding (id :: ids)) Left := by
  rw [element]
  refine .bind ensures_node fun id => ?_
  refine .bind ensures_peek fun d => ?_
  dsimp only
  split
  · exact .refuse left_of_holding
  · exact .pure fun _ ho => ho

theorem nameChars_of_checkQualifier {qualifier : String} (accepted : checkQualifier qualifier = .ok ()) :
    Cursor.NameChars qualifier := by
  rw [checkQualifier] at accepted
  split at accepted
  · rename_i valid
    rw [Bool.and_eq_true] at valid
    exact nameChars_of_isQName valid.1
  · cases accepted

theorem ensures_setNamespace {qualifier : String} :
    Ensures (Holding ids) (setNamespace path uri qualifier) (fun _ => Holding ids) Left := by
  rw [setNamespace]
  have named {qualifier : Option String} (chars : ∀ q ∈ qualifier, Cursor.NameChars q) :
      Ensures (Holding ids) (element path >>= fun id => applyNamespace id qualifier uri)
        (fun _ => Holding ids) Left :=
    .bind ensures_element fun id => ensures_forget (ensures_applyNamespace chars)
  refine .bind ensures_check fun _ => ?_
  dsimp only
  split
  · rename_i filled
    refine .bind ensures_accept fun _ => .assume fun accepted => named ?_
    rw [if_neg (by simpa using filled)]
    exact fun q e => Option.some.inj e ▸ nameChars_of_checkQualifier accepted
  · rename_i unfilled
    refine named ?_
    rw [if_pos (by simpa using unfilled)]
    exact nofun

theorem ensures_declareNamespace {qualifier : String} :
    Ensures (Holding ids) (declareNamespace path uri qualifier) (fun _ => Holding ids) Left := by
  rw [declareNamespace]
  refine .bind ensures_accept fun _ => .assume fun accepted => .bind ensures_check fun _ => ?_
  refine .bind ensures_element fun id => ?_
  refine .bind ensures_peek fun d => ?_
  have chars : ∀ q ∈ some qualifier, Cursor.NameChars q := fun q e =>
    Option.some.inj e ▸ nameChars_of_checkQualifier accepted
  split
  · exact ensures_forget (ensures_step fun _ _ => .bind id chars uri)
  · exact ensures_forget (.pure fun _ ho => ho)

/-! ## Identifiers and links -/

theorem ensures_setUid :
    Ensures (Holding ids) (setUid path value) (fun _ => Holding ids) Left := by
  rw [setUid]
  refine .bind ensures_peek fun d => ?_
  exact .bind (.report left_of_holding fun _ h _ _ _ => h) fun _ => ensures_setAttribute

theorem ensures_addLink {target : String} {mode : LinkMode} :
    Ensures (Holding ids) (addLink path name target mode) (fun _ => Holding ids) Left := by
  rw [addLink]
  refine .bind (ensures_requireName left_of_holding) fun _ => .assume fun valid => ?_
  refine .bind ((ensures_look (Q := fun _ _ => True) left_of_holding fun _ _ _ _ _ => .any).imp
    (fun _ h => h) fun _ _ h => h.1) fun found => ?_
  refine .bind ensures_peek fun d => ?_
  refine .bind ensures_node fun id => ?_
  refine .bind ensures_peek fun d' => ?_
  dsimp only
  split
  · refine .bind (ensures_appendElement List.mem_cons_self valid) fun link => ?_
    refine ensures_forget (ensures_forget ?_)
    exact .bind (ensures_setAttributeOf (by decide)) fun _ => .pure fun _ ho => ho
  · exact ensures_forget (.pure fun _ ho => ho)

/-! ## Lists of numbers -/

theorem ensures_vectorText {numbers : List Float} {format : Option String} :
    Ensures (Holding ids) (vectorText name numbers format) (fun _ => Holding ids) Left := by
  rw [vectorText]
  dsimp only
  split
  · exact .refuse left_of_holding
  · exact ensures_check

theorem ensures_addVector {numbers : List Float} {format : Option String} :
    Ensures (Holding ids) (addVector path name numbers format) (fun _ => Holding ids) Left := by
  rw [addVector]
  refine .bind ensures_vectorText fun text => .bind ensures_insertElement fun id => ?_
  exact ensures_forget (ensures_setAttributeOf (by decide))

theorem ensures_updateVector {numbers : List Float} {format : Option String} :
    Ensures (Holding ids) (updateVector path numbers format) (fun _ => Holding ids) Left := by
  rw [updateVector]
  refine .bind ensures_vectorText fun text => .bind ensures_node fun id => ?_
  refine .bind (ensures_replaceText List.mem_cons_self) fun _ => ?_
  exact ensures_forget (ensures_setAttributeOf (by decide))

/-- Numbers are written before anything is changed. -/
theorem ensures_texts {numbers : List Float} {format : Option String} :
    Ensures (Holding ids) (numbers.mapM fun x => (writeFloat format x : Edit String))
      (fun _ => Holding ids) Left :=
  .mapM fun _ _ => ensures_check

/-- An element is added and not needed any more. -/
theorem ensures_addElement (hp : p ∈ ids) (valid : isQName name = true) :
    Ensures (Holding ids) (discard (appendElement p name text)) (fun _ => Holding ids) Left :=
  .discard ((ensures_appendElement hp valid).imp (fun _ h => h) fun _ _ h =>
    h.sub (List.subset_cons_self ..))

/-- Elements with fixed and valid names are added below a node. -/
theorem ensures_addElements (hp : p ∈ ids) {fields : List (String × String)}
    (valid : ∀ field ∈ fields, isQName field.1 = true) :
    Ensures (Holding ids) (fields.forM fun (name, text) => discard (appendElement p name text))
      (fun _ => Holding ids) Left :=
  .forM fun field hfield => ensures_addElement hp (valid field hfield)

theorem ensures_addPoint {x y z : Float} {format : Option String} :
    Ensures (Holding ids) (addPoint path x y z format) (fun _ => Holding ids) Left := by
  rw [addPoint]
  refine .bind ensures_texts fun texts => .bind ensures_node fun id => ?_
  have axes : ∀ axis ∈ ["x", "y", "z"], isQName axis = true := by decide
  exact (ensures_addElements List.mem_cons_self fun field hfield =>
    axes field.1 (List.of_mem_zip hfield).1).imp (fun _ h => h) fun _ _ h =>
      h.sub (List.subset_cons_self ..)

/-- Names are checked one after the other. -/
theorem ensures_requireAll {names : List String} :
    Ensures (Holding ids) (names.forM requireName)
      (fun _ o => Holding ids o ∧ ∀ name ∈ names, isQName name = true) Left := by
  induction names with
  | nil => exact .pure fun _ ho => ⟨ho, by simp⟩
  | cons name names ih =>
    refine .bind (ensures_requireName left_of_holding) fun _ => .assume fun valid => ?_
    exact ih.imp (fun _ h => h) fun _ _ h => ⟨h.1, List.forall_mem_cons.mpr ⟨valid, h.2⟩⟩

theorem ensures_addList {list child : String} {numbers : List Float} {format : Option String}
    {values : List String} :
    Ensures (Holding ids) (addList path list child name numbers format values) (fun _ => Holding ids)
      Left := by
  rw [addList]
  refine .bind ensures_requireAll fun _ => .assume fun valid => ?_
  dsimp only
  split
  · exact .refuse left_of_holding
  refine .bind ensures_texts fun texts => .bind ensures_insertElement fun id => ?_
  refine Ensures.imp (.forM fun pair _ => ?_) (fun _ h => h) fun _ _ h =>
    h.sub (List.subset_cons_self ..)
  refine .bind (ensures_appendElement List.mem_cons_self (valid child (by simp))) fun member => ?_
  exact ensures_forget (ensures_setAttributeOf (valid name (by simp)))

/-! ## Matrices -/

theorem ensures_buildMatrix {names : MatrixNames} {rows cols : Nat} {cell : Nat → Nat → String}
    (row : isQName names.row = true) (col : isQName names.col = true) :
    Ensures (Holding ids) (buildMatrix path names rows cols cell) (fun _ => Holding ids) Left := by
  rw [buildMatrix]
  refine .bind ensures_insertElement fun id => ?_
  refine Ensures.imp (.forM fun i _ => ?_) (fun _ h => h) fun _ _ h =>
    h.sub (List.subset_cons_self ..)
  refine .bind (ensures_appendElement List.mem_cons_self row) fun rowId => ?_
  refine Ensures.imp (.forM fun j _ => ?_) (fun _ h => h) fun _ _ h =>
    h.sub (List.subset_cons_self ..)
  exact ensures_addElement List.mem_cons_self col

theorem ensures_requireDimension {rows cols : Int} :
    Ensures (Holding ids) (requireDimension rows cols) (fun _ => Holding ids) Left := by
  rw [requireDimension]
  dsimp only
  split
  · exact .refuse left_of_holding
  · exact .pure fun _ ho => ho

theorem ensures_requireNames {names : MatrixNames} :
    Ensures (Holding ids) (requireNames names) (fun _ o => Holding ids o ∧
      isQName names.row = true ∧ isQName names.col = true) Left :=
  ensures_requireAll.imp (fun _ h => h) fun _ _ h =>
    ⟨h.1, h.2 names.row (by simp), h.2 names.col (by simp)⟩

theorem ensures_addEmptyMatrix {names : MatrixNames} {rows cols : Int} :
    Ensures (Holding ids) (addEmptyMatrix path names rows cols) (fun _ => Holding ids) Left := by
  rw [addEmptyMatrix]
  refine .bind ensures_requireDimension fun size => ?_
  exact .bind ensures_requireNames fun _ => .assume fun valid => ensures_buildMatrix valid.1 valid.2

theorem ensures_addMatrix {names : MatrixNames} {rows cols : Int} {numbers : List Float}
    {mode : StorageMode} {format : Option String} :
    Ensures (Holding ids) (addMatrix path names rows cols numbers mode format) (fun _ => Holding ids)
      Left := by
  rw [addMatrix]
  refine .bind ensures_requireDimension fun size => ?_
  dsimp only
  split
  · exact .refuse left_of_holding
  refine .bind ensures_requireNames fun _ => .assume fun valid => ?_
  exact .bind ensures_texts fun texts => ensures_buildMatrix valid.1 valid.2

/-! ## Headers -/

theorem ensures_appendHeader :
    Ensures (Holding ids) appendHeader (fun id => Holding (id :: ids)) Left := by
  rw [appendHeader]
  refine .bind ensures_document fun d => ?_
  split
  · rename_i top found
    have appended : Ensures (Holding (top :: ids)) (appendElement top "header" "")
        (fun id => Holding (id :: top :: ids)) Left :=
      ensures_appendElement List.mem_cons_self (by decide)
    refine appended.imp ?_
      fun id o h => h.sub (List.cons_subset_cons id (List.subset_cons_self top ids))
    rintro o ⟨ho, rfl⟩
    refine ho.cons ⟨ho.rooted.wellLinked.lists.has_child (List.mem_of_find?_eq_some found), ?_⟩
    exact Content.isInner_of_isElement (List.find?_some (p := o.document.isElement) found)
  · exact .throw fun _ ho => ho.1.sound

theorem ensures_addToolHeader {h : ToolHeader} {time : String} :
    Ensures (Holding ids) (addToolHeader h time) (fun _ => Holding ids) Left := by
  rw [addToolHeader]
  refine .bind ensures_appendHeader fun header => ?_
  refine .bind (ensures_appendElement List.mem_cons_self (by decide)) fun tool => ?_
  have names : ∀ field ∈ [("toolName", h.tool), ("version", h.version)], isQName field.1 = true := by
    simp; decide
  have names' : ∀ field ∈ [("author", h.author), ("timestamp", time)], isQName field.1 = true := by
    simp; decide
  refine .bind (ensures_addElements List.mem_cons_self names) fun _ => ensures_forget ?_
  exact (ensures_addElements List.mem_cons_self names').imp (fun _ h => h) fun _ _ h =>
    h.sub (List.subset_cons_self ..)

theorem ensures_addDataHeader {h : DataHeader} {time : String} :
    Ensures (Holding ids) (addDataHeader h time) (fun _ => Holding ids) Left := by
  rw [addDataHeader]
  refine .bind ensures_appendHeader fun header => ?_
  refine (ensures_addElements List.mem_cons_self ?_).imp (fun _ h => h) fun _ _ h =>
    h.sub (List.subset_cons_self ..)
  simp; decide

theorem ensures_addExternalLink {format : Option String} :
    Ensures (Holding ids) (addExternalLink path uri format) (fun _ => Holding ids) Left := by
  rw [addExternalLink]
  refine .bind ensures_insertElement fun id => ?_
  split
  · exact ensures_forget (ensures_setAttributeOf (by decide))
  · exact ensures_forget (.pure fun _ ho => ho)

end Edit

/-! ## Changes -/

/-- What a change does leads to a document that was made by calls, whether it succeeds or not. -/
theorem Change.ensures_edit (c : Change) {edit : Edit Answer} (accepted : c.edit = .ok edit) :
    Ensures (Edit.Holding []) edit (fun _ => Edit.Left) Edit.Left := by
  have done : ∀ {x : Edit Unit}, Ensures (Edit.Holding []) x (fun _ => Edit.Holding []) Edit.Left →
      Ensures (Edit.Holding []) (do x; return Answer.done) (fun _ => Edit.Left) Edit.Left :=
    fun h => .bind h fun _ => .pure fun _ ho => ho.sound
  cases c with
  | updateElement path value =>
    cases e : value.write with
    | error => rw [Change.edit, e] at accepted; cases accepted
    | ok text => rw [Change.edit, e] at accepted; cases accepted; exact done Edit.ensures_updateText
  | addElement parent name uri value place =>
    cases e : value.mapM Scalar.write with
    | error => rw [Change.edit, e] at accepted; cases accepted
    | ok text =>
      rw [Change.edit, e] at accepted
      cases accepted
      refine done (.discard (Edit.ensures_insertElement.imp (fun _ h => h) fun _ _ h => ?_))
      exact h.sub (List.subset_cons_self ..)
  | setAttribute path name value =>
    cases e : value.write with
    | error => rw [Change.edit, e] at accepted; cases accepted
    | ok text => rw [Change.edit, e] at accepted; cases accepted; exact done Edit.ensures_setAttribute
  | renameChildren => cases accepted; exact done Edit.ensures_renameChildren
  | remove => cases accepted; exact done Edit.ensures_remove
  | swap => cases accepted; exact done Edit.ensures_swap
  | importMarkup => cases accepted; exact done Edit.ensures_importMarkup
  | removeAttribute => cases accepted; exact done Edit.ensures_removeAttribute
  | setNamespace => cases accepted; exact done Edit.ensures_setNamespace
  | declareNamespace => cases accepted; exact done Edit.ensures_declareNamespace
  | setUid => cases accepted; exact done Edit.ensures_setUid
  | addLink =>
    cases accepted
    exact .bind Edit.ensures_addLink fun _ => .pure fun _ ho => ho.sound
  | addVector => cases accepted; exact done Edit.ensures_addVector
  | updateVector => cases accepted; exact done Edit.ensures_updateVector
  | addPoint => cases accepted; exact done Edit.ensures_addPoint
  | addList => cases accepted; exact done Edit.ensures_addList
  | addEmptyMatrix => cases accepted; exact done Edit.ensures_addEmptyMatrix
  | addMatrix => cases accepted; exact done Edit.ensures_addMatrix
  | addToolHeader => cases accepted; exact done Edit.ensures_addToolHeader
  | addDataHeader => cases accepted; exact done Edit.ensures_addDataHeader
  | addExternalLink => cases accepted; exact done Edit.ensures_addExternalLink

end XmlStore
