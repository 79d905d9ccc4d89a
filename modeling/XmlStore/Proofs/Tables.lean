/-
Matrices as forests. Adding a matrix adds its elements one by one, rows and
cells alike behind the children of a node. Where no default namespace is in
force and the names have no qualifier, naming an element changes nothing, so
that the document afterwards is the one with a forest added: an element, in
it the rows, and in each of these the cells with their texts. Its nodes can
still be located if those of the document could.
-/
import XmlStore.Proofs.Insertions
import XmlStore.Proofs.Trails

namespace XmlStore

open Tracked (Ensures)

/-! ## Tables -/

section

variable {α β : Type} {R : α → β → Prop} {rows cols : Nat} {f : Nat → Nat → α} {g : Nat → Nat → β}

/-- The values of a function of two indices, row by row. -/
def tabulate (rows cols : Nat) (f : Nat → Nat → α) : List (List α) :=
  (List.range rows).map fun i => (List.range cols).map (f i)

theorem length_tabulate (rows cols : Nat) (f : Nat → Nat → α) : (tabulate rows cols f).length = rows := by
  rw [tabulate, List.length_map, List.length_range]

theorem length_of_mem_tabulate {l : List α} (listed : l ∈ tabulate rows cols f) : l.length = cols := by
  obtain ⟨i, -, rfl⟩ := List.mem_map.mp listed
  rw [List.length_map, List.length_range]

theorem forall₂_tabulate (related : ∀ i < rows, ∀ j < cols, R (f i j) (g i j)) :
    List.Forall₂ (fun u v => v.length = cols ∧ List.Forall₂ R u v) (tabulate rows cols f) (tabulate rows cols g) := by
  rw [tabulate, tabulate, List.forall₂_map_left_iff, List.forall₂_map_right_iff, List.forall₂_same]
  intro i hi
  rw [List.length_map, List.length_range, List.forall₂_map_left_iff, List.forall₂_map_right_iff, List.forall₂_same]
  exact ⟨rfl, fun j hj => related i (List.mem_range.mp hi) j (List.mem_range.mp hj)⟩

end

/-! ## The forest of a matrix -/

/-- The content of an element that has a name and nothing else. -/
def plainElement (name : String) : Content := .element (.named ⟨none, name⟩)

/-- What an element with a text holds; nothing if the text is empty. -/
def textForest (text : String) : Forest Content := leaves (([text].filter (!·.isEmpty)).map .text)

/-- Cells with these texts. -/
def cellForest (col : String) : List String → Forest Content
  | [] => .nil
  | text :: texts => .cons (plainElement col) (textForest text) (cellForest col texts)

/-- Rows of cells with these texts. -/
def rowForest (row col : String) : List (List String) → Forest Content
  | [] => .nil
  | texts :: rows => .cons (plainElement row) (cellForest col texts) (rowForest row col rows)

/-- A matrix with these texts, given row by row. -/
def matrixForest (names : MatrixNames) (table : List (List String)) : Forest Content :=
  .tree (plainElement names.matrix) (rowForest names.row names.col table)

/-- The condition holds of every label and the number of its children. -/
def Forest.Each {α : Type} (K : α → Nat → Prop) : Forest α → Prop
  | .nil => True
  | .cons a children rest => K a children.length ∧ children.Each K ∧ rest.Each K

theorem length_cellForest (col : String) (texts : List String) : (cellForest col texts).length = texts.length := by
  induction texts with
  | nil => rfl
  | cons text texts ih => rw [cellForest, Forest.length, ih, List.length_cons]

theorem length_rowForest (row col : String) (table : List (List String)) :
    (rowForest row col table).length = table.length := by
  induction table with
  | nil => rfl
  | cons texts table ih => rw [rowForest, Forest.length, ih, List.length_cons]

section

variable {bound : Nat}

theorem each_textForest (some : 0 < bound) (text : String) :
    (textForest text).length ≤ 1 ∧ (textForest text).Each fun content n => content.Unqualified ∧ n < bound := by
  rw [textForest, List.filter_singleton]
  cases text.isEmpty with
  | true => exact ⟨Nat.zero_le 1, trivial⟩
  | false => exact ⟨Nat.le_refl 1, ⟨trivial, some⟩, trivial, trivial⟩

theorem unqualified_plainElement (name : String) : (plainElement name).Unqualified := ⟨rfl, rfl, nofun⟩

theorem each_cellForest (some : 1 < bound) (col : String) (texts : List String) :
    (cellForest col texts).Each fun content n => content.Unqualified ∧ n < bound := by
  induction texts with
  | nil => trivial
  | cons text texts ih =>
    obtain ⟨short, inner⟩ := each_textForest (Nat.zero_lt_of_lt some) text
    exact ⟨⟨unqualified_plainElement col, Nat.lt_of_le_of_lt short some⟩, inner, ih⟩

theorem each_rowForest (some : 1 < bound) (row col : String) {table : List (List String)}
    (narrow : ∀ texts ∈ table, texts.length < bound) :
    (rowForest row col table).Each fun content n => content.Unqualified ∧ n < bound := by
  induction table with
  | nil => trivial
  | cons texts table ih =>
    rw [List.forall_mem_cons] at narrow
    refine ⟨⟨unqualified_plainElement row, ?_⟩, each_cellForest some col texts, ih narrow.2⟩
    rw [length_cellForest]
    exact narrow.1

theorem each_matrixForest (some : 1 < bound) (names : MatrixNames) {table : List (List String)}
    (high : table.length < bound) (narrow : ∀ texts ∈ table, texts.length < bound) :
    (matrixForest names table).Each fun content n => content.Unqualified ∧ n < bound := by
  refine ⟨⟨unqualified_plainElement names.matrix, ?_⟩, each_rowForest some names.row names.col narrow, trivial⟩
  rw [length_rowForest]
  exact high

end

namespace Document

variable {d d' : Document} {a p : NodeId} {ids : List NodeId} {n : Nat} {f : Forest Content} {name : String}
  {tag : Element} {qualifier : Option String}

/-! ## Forests that are added -/

theorem Shows.length_eq (shown : d.Shows n ids f) : ids.length = f.length := by
  induction f generalizing ids with
  | nil =>
    rw [shown]
    rfl
  | cons content children rest _ ih =>
    obtain ⟨id, others, rfl, -, -, -, -, shown⟩ := shown
    rw [List.length_cons, ih shown, Forest.length]

/-- New nodes below a node leave the path from any other one up to the top. -/
theorem Grown.ancestors (grown : Grown d d' p f) (h : d.WellLinked) (ha : d.Has a) :
    d'.ancestors a = d.ancestors a :=
  h.ancestors_congr grown.wellLinked ha (grown.has ha) fun c hc => grown.parent c (h.has_ancestor ha hc)

/-- What holds throughout a forest holds of the nodes that are new when it is added. -/
theorem each_addForest {K : Content → Nat → Prop} (h : d.WellLinked) (hp : d.Has p) (each : f.Each K)
    (has : (addForest p f d).Has a) (new : ¬ d.Has a) :
    K ((addForest p f d).content a) ((addForest p f d).children a).length := by
  induction f generalizing d p with
  | nil => exact absurd has new
  | cons content children rest ihc ihr =>
    obtain ⟨here, inner, outer⟩ := each
    let added := (d.create content).2.append p ⟨d.size⟩
    have edited : Edited d added _ := edited_add h hp content
    have fit := insertable_create h hp content
    have has_new : added.Has ⟨d.size⟩ := Keeps.append.has fit.has
    have below := grown_addForest (f := children) edited.wellLinked has_new
    have behind := grown_addForest (f := rest) below.wellLinked (below.has (edited.has hp))
    have ne : a ≠ p := fun e => new (e ▸ hp)
    by_cases earlier : (addForest ⟨d.size⟩ children added).Has a
    · show K ((addForest p rest (addForest ⟨d.size⟩ children added)).content a)
        ((addForest p rest (addForest ⟨d.size⟩ children added)).children a).length
      rw [behind.content a earlier, behind.others a earlier ne]
      by_cases first : added.Has a
      · have size : added.size = d.size + 1 := Relinked.append.size.trans (size_create content)
        obtain rfl : a = ⟨d.size⟩ := by
          rw [Has, size] at first
          exact congrArg NodeId.mk (Nat.le_antisymm (Nat.le_of_lt_succ first) (Nat.le_of_not_lt new))
        have own : added.content ⟨d.size⟩ = content := by
          rw [Keeps.append.content _ fit.has, content_create, if_pos rfl]
        have childless : added.children ⟨d.size⟩ = [] := by
          rw [edited.children, Function.update_of_ne ne, children_of_not_has new]
        obtain ⟨ids, children_eq, shown⟩ := below.grown
        rw [below.content _ has_new, own, children_eq, childless, List.nil_append, shown.length_eq]
        exact here
      · exact ihc edited.wellLinked has_new inner earlier first
    · exact ihr below.wellLinked (below.has (edited.has hp)) outer has earlier

/-- Nodes can still be located when such are added below one of them whose contents have no qualifier and no
namespace. -/
theorem locatable_addForest (h : d.Locatable) (hp : d.Has p) (made : (addForest p f d).Made)
    (few : ∀ q, (d.children q).length + f.length < 2 ^ 53)
    (each : f.Each fun content n => content.Unqualified ∧ n < 2 ^ 53) : (addForest p f d).Locatable := by
  have linked := h.rooted.wellLinked
  have grown := grown_addForest (f := f) linked hp
  refine ⟨made, fun a ha => ?_, fun q => ?_⟩
  · by_cases has : d.Has a
    · rw [grown.content a has]
      exact h.unqualified a ⟨has, grown.ancestors linked has ▸ ha.below_root⟩
    · exact (each_addForest linked hp each ha.has has).1
  · by_cases has : d.Has q
    · by_cases here : q = p
      · obtain ⟨ids, children, shown⟩ := grown.grown
        rw [here, children, List.length_append, shown.length_eq]
        exact few p
      · rw [grown.others q has here]
        exact h.few q
    · by_cases new : (addForest p f d).Has q
      · exact (each_addForest linked hp each new has).2
      · rw [children_of_not_has new]
        exact Nat.two_pow_pos 53

/-! ## The nodes of a matrix -/

/-- Cells of a name with these texts. -/
def Cells (d : Document) (col : String) : List NodeId → List String → Prop :=
  List.Forall₂ fun c text => d.content c = plainElement col ∧ d.directText c = text

/-- Rows of a name with cells of another one, these with the texts of a table. -/
def Rows (d : Document) (row col : String) : List NodeId → List (List String) → Prop :=
  List.Forall₂ fun r texts => d.content r = plainElement row ∧ d.Cells col (d.children r) texts

theorem Shows.directText {text : String} (shown : d.Shows n (d.children a) (textForest text)) :
    d.directText a = text := by
  rw [Document.directText, shown.leaves.1, joinCharacters_filled]

theorem Shows.cells {col : String} {texts : List String} (shown : d.Shows n ids (cellForest col texts)) :
    d.Cells col ids texts := by
  induction texts generalizing ids with
  | nil =>
    rw [shown]
    exact .nil
  | cons text texts ih =>
    obtain ⟨id, others, rfl, -, -, content, below, rest⟩ := shown
    exact .cons ⟨content, below.directText⟩ (ih rest)

theorem Shows.rows {row col : String} {table : List (List String)} (shown : d.Shows n ids (rowForest row col table)) :
    d.Rows row col ids table := by
  induction table generalizing ids with
  | nil =>
    rw [shown]
    exact .nil
  | cons texts table ih =>
    obtain ⟨id, others, rfl, -, -, content, below, rest⟩ := shown
    exact .cons ⟨content, below.cells⟩ (ih rest)

/-- A matrix that is added is one more child, which has the rows for children. -/
theorem Grown.matrix {names : MatrixNames} {table : List (List String)}
    (grown : Grown d d' p (matrixForest names table)) : ∃ m, d'.children p = d.children p ++ [m] ∧ ¬ d.Has m ∧
      d'.content m = plainElement names.matrix ∧ d'.Rows names.row names.col (d'.children m) table := by
  obtain ⟨ids, children, m, others, rfl, new, -, content, shown, rfl⟩ := grown.grown
  exact ⟨m, children, Nat.not_lt_of_le new, content, shown.rows⟩

/-! ## Elements in no namespace -/

theorem modifyTag_eq_self {f : Element → Element} (element : d.content a = .element tag) (fixed : f tag = tag) :
    d.modifyTag a f = d := by
  rw [modifyTag, modifyContent, modify]
  refine congrArg (Document.mk · d.declaration) ?_
  refine Array.ext (by simp) fun i _ inside => ?_
  rw [Array.getElem_modify]
  split
  · rename_i here
    subst here
    have own : d.nodes[a.index].content = .element tag := by
      rw [← element, content, node, Array.getD_eq_getD_getElem?, Array.getElem?_eq_getElem inside]
      rfl
    rw [own, Content.mapElement, fixed, ← own]
  · rfl

/-- A node below which a name without a qualifier stands for no namespace. -/
structure Bare (d : Document) (p : NodeId) : Prop where
  wellLinked : d.WellLinked
  has : d.Has p
  unbound : d.lookupNamespace p none = none

/-- New nodes below a node leave the namespaces that are in force at the others. -/
theorem Grown.lookupNamespace (grown : Grown d d' p f) (h : d.WellLinked) (ha : d.Has a) :
    d'.lookupNamespace a qualifier = d.lookupNamespace a qualifier := by
  have scope : d'.scope a = d.scope a := by
    rw [Document.scope, Document.scope, grown.ancestors h ha]
    refine List.flatMap_congr fun c hc => ?_
    rw [grown.content c (h.has_ancestor ha hc)]
  rw [Document.lookupNamespace, scope, Document.lookupNamespace]

namespace Bare

theorem addForest (bare : d.Bare p) (f : Forest Content) : (addForest p f d).Bare p := by
  have grown := grown_addForest (f := f) bare.wellLinked bare.has
  exact ⟨grown.wellLinked, grown.has bare.has, (grown.lookupNamespace bare.wellLinked bare.has).trans bare.unbound⟩

/-- An element without text, put behind the children. -/
theorem planted (bare : d.Bare p) (name : String) :
    Planted d (Document.addForest p (.tree (plainElement name) .nil) d) p 0 (.named ⟨none, name⟩) "" :=
  planted_insertChildAt bare.wellLinked bare.has (.named ⟨none, name⟩) "" 0

theorem child (bare : d.Bare p) (name : String) :
    (Document.addForest p (.tree (plainElement name) .nil) d).Bare ⟨d.size⟩ := by
  have planted := bare.planted name
  refine ⟨planted.wellLinked, planted.has_new, ?_⟩
  rw [planted.lookupNamespace_new bare.wellLinked bare.has rfl, bare.unbound]

/-- Naming a new element changes nothing. -/
theorem addElement_eq (bare : d.Bare p) (plain : QName.ofString name = ⟨none, name⟩) :
    d.addElement p name = Document.addForest p (.tree (plainElement name) .nil) d := by
  have planted := bare.planted name
  have unbound := (bare.child name).unbound
  rw [addElement, rename, plain]
  refine modifyTag_eq_self planted.element ?_
  exact congrArg (fun uri => Element.mk ⟨none, name⟩ uri [] []) unbound

end Bare

end Document

/-! ## The edits -/

namespace Edit

variable {d : Document} {p : NodeId} {name row col text path : String} {names : MatrixNames}

theorem ensures_appendText_forest : Ensures (fun u => u.document = d) (appendText p text)
    (fun _ u => u.document = Document.addForest p (textForest text) d) fun _ => False := by
  rw [appendText, textForest, List.filter_singleton]
  cases text.isEmpty with
  | true => exact .pure fun u same => same
  | false =>
    refine .bind (Q := fun child u => child = ⟨d.size⟩ ∧ u.document = (d.create (.text text)).2)
      (.modifyGet fun u same => ?_) fun child => .modify ?_
    · rw [same]
      exact ⟨rfl, rfl⟩
    · intro u created
      dsimp only
      rw [created.1, created.2]
      rfl

theorem ensures_appendElement_forest (bare : d.Bare p) (plain : QName.ofString name = ⟨none, name⟩) :
    Ensures (fun u => u.document = d) (appendElement p name text)
      (fun id u => id = ⟨d.size⟩ ∧
        u.document = Document.addForest p (.tree (plainElement name) (textForest text)) d) fun _ => False := by
  rw [appendElement]
  have created : Ensures (fun u => u.document = d) (create (plainElement name))
      (fun id u => u.document = (d.create (plainElement name)).2 ∧ id = ⟨d.size⟩) fun _ => False :=
    .modifyGet fun u same => by
      rw [same]
      exact ⟨rfl, rfl⟩
  refine .bind created fun id => .assume fun same => ?_
  subst same
  refine .bind (Q := fun _ u => u.document = Document.addForest p (.tree (plainElement name) .nil) d)
    (.modify fun u made => ?_) fun _ => ?_
  · dsimp only
    rw [made, ← bare.addElement_eq plain]
    rfl
  · exact .bind ensures_appendText_forest fun _ => .pure fun u made => ⟨rfl, made⟩

/-- Cells, one after the other behind the children of a node. -/
theorem ensures_cells (bare : d.Bare p) (plain : QName.ofString col = ⟨none, col⟩) (l : List Nat)
    (cell : Nat → String) : Ensures (fun u => u.document = d) (l.forM fun i => discard (appendElement p col (cell i)))
      (fun _ u => u.document = Document.addForest p (cellForest col (l.map cell)) d) fun _ => False := by
  induction l generalizing d with
  | nil => exact .pure fun u same => same
  | cons i l ih =>
    rw [List.forM]
    exact .bind (.discard ((ensures_appendElement_forest bare plain).imp (fun _ same => same) fun _ _ made => made.2))
      fun _ => ih (bare.addForest _)

/-- Rows, each with its cells. -/
theorem ensures_rows (bare : d.Bare p) (row_plain : QName.ofString row = ⟨none, row⟩)
    (col_plain : QName.ofString col = ⟨none, col⟩) (l cols : List Nat) (cell : Nat → Nat → String) :
    Ensures (fun u => u.document = d)
      (l.forM fun i => do
        let id ← appendElement p row ""
        cols.forM fun j => discard (appendElement id col (cell i j)))
      (fun _ u => u.document = Document.addForest p (rowForest row col (l.map fun i => cols.map (cell i))) d)
      fun _ => False := by
  induction l generalizing d with
  | nil => exact .pure fun u same => same
  | cons i l ih =>
    rw [List.forM]
    have begun : Ensures (fun u => u.document = d) (appendElement p row "") (fun id u =>
        u.document = Document.addForest p (.tree (plainElement row) .nil) d ∧ id = ⟨d.size⟩) fun _ => False :=
      (ensures_appendElement_forest bare row_plain).imp (fun _ same => same) fun _ _ made => made.symm
    have next := bare.addForest (.tree (plainElement row) (cellForest col (cols.map (cell i))))
    refine .bind (.bind begun fun id => .assume fun same => ?_) fun _ => ih next
    subst same
    exact ensures_cells (bare.child row) col_plain cols (cell i)

/-- The matrix goes behind the children of the node at the path. -/
theorem ensures_buildMatrix_forest {o : OpenDocument} (bare : o.document.Bare p)
    (selected : o.select (Lookup.withoutSlash path) = .ok [.node p])
    (inner : (o.document.content p).isInner = true) (valid : isQName names.matrix = true)
    (plain : ∀ name ∈ [names.matrix, names.row, names.col], QName.ofString name = ⟨none, name⟩)
    (rows cols : Nat) (cell : Nat → Nat → String) :
    Ensures (· = o) (buildMatrix path names rows cols cell)
      (fun _ u => u.document = Document.addForest p (matrixForest names (tabulate rows cols cell)) o.document)
      fun _ => False := by
  simp only [List.forall_mem_cons, List.not_mem_nil, false_imp_iff, implies_true, and_true] at plain
  obtain ⟨matrix_plain, row_plain, col_plain⟩ := plain
  have alone : o.document.insertElement p names.matrix none "" 0 =
      Document.addForest p (.tree (plainElement names.matrix) .nil) o.document := by
    rw [← bare.addElement_eq matrix_plain, Document.insertElement, matrix_plain]
    rfl
  rw [buildMatrix]
  have inserted : Ensures (· = o) (insertElement path names.matrix none none 0) (fun id u =>
      id = ⟨o.document.size⟩ ∧ u.document = o.document.insertElement p names.matrix none "" 0) fun _ => False :=
    ensures_insertElement_new selected inner valid (by decide)
  rw [alone] at inserted
  refine .bind (inserted.imp (fun _ same => same) fun _ _ made => made.symm) fun id => .assume fun same => ?_
  subst same
  exact ensures_rows (bare.child names.matrix) row_plain col_plain (List.range rows) (List.range cols) cell

end Edit

end XmlStore
