/-
Matrices that are read back. A matrix that was added is found again by its
location: the rows by a path that ends in their name, and the cells as the
children of each. In whichever order numbers are listed, every cell has one
place in the list and every place one cell, so that each cell is worth the
number that was listed for it.
-/
import Mathlib.Data.Set.Function
import XmlStore.Proofs.ChildPaths
import XmlStore.Proofs.Tables

namespace XmlStore

open Tracked (Ensures)

/-! ## The order of the cells -/

namespace StorageMode

/-- In a list of lists of one length the place of a member is given by two indices. -/
theorem getElem?_flatMap_range {α : Type} {n m i j : Nat} (f : Nat → Nat → α) (hi : i < n) (hj : j < m) :
    ((List.range n).flatMap fun i => (List.range m).map (f i))[i * m + j]? = some (f i j) := by
  induction n with
  | zero => exact absurd hi (Nat.not_lt_zero i)
  | succ n ih =>
    have length : ((List.range n).flatMap fun i => (List.range m).map (f i)).length = n * m := by simp
    rw [List.range_succ, List.flatMap_append, List.flatMap_singleton]
    rcases Nat.lt_or_eq_of_le (Nat.le_of_lt_succ hi) with earlier | rfl
    · have inside : i * m + j < n * m := by
        calc i * m + j < (i + 1) * m := by rw [Nat.succ_mul]; omega
          _ ≤ n * m := Nat.mul_le_mul_right m earlier
      rw [List.getElem?_append_left (length ▸ inside), ih earlier]
    · rw [List.getElem?_append_right (by omega), length]
      simp [hj]

variable {i j rows cols : Nat}

/-- The cells are listed where the index says. -/
theorem getElem?_cells (mode : StorageMode) (hi : i < rows) (hj : j < cols) :
    (mode.cells rows cols)[mode.index i j rows cols]? = some (i, j) := by
  cases mode with
  | rowWise => exact getElem?_flatMap_range (fun row col => (row, col)) hi hj
  | columnWise =>
    rw [index, Nat.add_comm]
    exact getElem?_flatMap_range (fun col row => (row, col)) hj hi

theorem mem_cells {mode : StorageMode} {c : Nat × Nat} : c ∈ mode.cells rows cols ↔ c.1 < rows ∧ c.2 < cols := by
  obtain ⟨i, j⟩ := c
  cases mode <;> simp [cells, and_comm]

/-- Every cell has a place in the list, and every place is that of one cell. -/
theorem bijOn_index (mode : StorageMode) (rows cols : Nat) :
    Set.BijOn (fun c : Nat × Nat => mode.index c.1 c.2 rows cols) {c | c.1 < rows ∧ c.2 < cols}
      (Set.Iio (rows * cols)) := by
  refine ⟨fun c hc => ?_, fun c hc c' hc' same => ?_, fun k hk => ?_⟩
  · obtain ⟨inside, -⟩ := List.getElem?_eq_some_iff.mp (mode.getElem?_cells hc.1 hc.2)
    exact mode.length_cells rows cols ▸ inside
  · have here := mode.getElem?_cells hc.1 hc.2
    rw [show mode.index c.1 c.2 rows cols = _ from same, mode.getElem?_cells hc'.1 hc'.2] at here
    exact (Option.some.inj here).symm
  · have some : 0 < rows * cols := Nat.zero_lt_of_lt hk
    cases mode with
    | rowWise =>
      have within : k / cols < rows := Nat.div_lt_of_lt_mul (Nat.mul_comm rows cols ▸ hk)
      exact ⟨(k / cols, k % cols), ⟨within, Nat.mod_lt k (Nat.pos_of_mul_pos_left some)⟩, Nat.div_add_mod' k cols⟩
    | columnWise =>
      have within : k / rows < cols := Nat.div_lt_of_lt_mul hk
      exact ⟨(k % rows, k / rows), ⟨Nat.mod_lt k (Nat.pos_of_mul_pos_right some), within⟩, Nat.mod_add_div' k rows⟩

end StorageMode

/-! ## Matrices in documents -/

namespace Document

variable {d : Document} {m p : NodeId} {names : MatrixNames} {table : List (List String)}

/-- A node of the tree that is a matrix with these texts, given row by row. -/
structure IsMatrix (d : Document) (names : MatrixNames) (m : NodeId) (table : List (List String)) : Prop where
  locatable : d.Locatable
  attached : d.Attached m
  element : d.content m = plainElement names.matrix
  rows : d.Rows names.row names.col (d.children m) table
  filled : table ≠ []
  plain : IsPlain names.row

theorem IsMatrix.childrenNamed (h : d.IsMatrix names m table) : d.childrenNamed m names.row = d.children m := by
  have contents := ((List.forall₂_and_left ..).mp h.rows).1
  refine List.filter_eq_self.mpr fun r hr => ?_
  rw [contents r hr]
  simp [plainElement, Content.isNamed, Content.qualifiedName?, Content.element?, Element.named, QName.text]

theorem IsMatrix.children_ne_nil (h : d.IsMatrix names m table) : d.children m ≠ [] := by
  intro none
  have rows := h.rows
  rw [none] at rows
  exact h.filled (List.forall₂_nil_left_iff.mp rows)

/-- A matrix that is added to a document without qualifiers and namespaces is one more child, and can be located. -/
theorem Locatable.isMatrix_addForest (h : d.Locatable) (hp : d.Attached p)
    (made : (addForest p (matrixForest names table) d).Made) (few : ∀ q, (d.children q).length + 1 < 2 ^ 53)
    (high : table.length < 2 ^ 53) (narrow : ∀ texts ∈ table, texts.length < 2 ^ 53) (filled : table ≠ [])
    (plain : IsPlain names.row) : ∃ m, (addForest p (matrixForest names table) d).children p = d.children p ++ [m] ∧
      ¬ d.Has m ∧ (addForest p (matrixForest names table) d).IsMatrix names m table := by
  have linked := h.rooted.wellLinked
  have grown := grown_addForest (f := matrixForest names table) linked hp.has
  obtain ⟨m, children, new, element, rows⟩ := grown.matrix
  have parent : (addForest p (matrixForest names table) d).parent? m = some p :=
    (grown.wellLinked.parent m p).mp (by simp [children])
  have above : (addForest p (matrixForest names table) d).Attached p :=
    ⟨grown.has hp.has, grown.ancestors linked hp.has ▸ hp.below_root⟩
  exact ⟨m, children, new, {
    locatable := locatable_addForest h hp.has made few (each_matrixForest (by decide) names high narrow)
    attached := above.child made.rooted parent
    element, rows, filled, plain }⟩

end Document

/-! ## Reading a matrix -/

/-- That a text is read as a number. -/
def ReadsAs (text : String) (x : Float) : Prop := readFloat? (trimBy isSpace text.toList) = some x

section

variable {α β γ : Type} {R : α → β → Prop} {S : β → γ → Prop} {T : α → γ → Prop} {P : α → Prop} {l : List α}
  {m : List β} {n : List γ}

theorem forall_mem_of_forall₂ (related : List.Forall₂ R l m) (each : ∀ a, ∀ b ∈ m, R a b → P a) : ∀ a ∈ l, P a := by
  induction related with
  | nil => exact nofun
  | cons first _ ih =>
    rw [List.forall_mem_cons]
    exact ⟨each _ _ List.mem_cons_self first, ih fun a b hb => each a b (List.mem_cons_of_mem _ hb)⟩

theorem forall₂_comp (comp : ∀ a b c, R a b → S b c → T a c) (first : List.Forall₂ R l m)
    (second : List.Forall₂ S m n) : List.Forall₂ T l n := by
  induction first generalizing n with
  | nil =>
    cases second
    exact .nil
  | cons hab _ ih =>
    cases second with
    | cons hbc others => exact .cons (comp _ _ _ hab hbc) (ih others)

end

namespace Lookup

variable {o : OpenDocument} {m r : NodeId} {names : MatrixNames} {col : String} {cells : List NodeId}
  {texts : List String} {numbers : List Float} {table : List (List String)}

/-- A row of cells is found with all of them. -/
theorem comesTo_rowCells (cells : o.document.Cells col (o.document.children r) texts) :
    ComesTo o (rowCells col r) (.ok (o.document.children r)) := by
  have contents := ((List.forall₂_and_left ..).mp cells).1
  have all : (o.document.children r).filter o.document.isElement = o.document.children r :=
    List.filter_eq_self.mpr fun c hc => by
      rw [Document.isElement, contents c hc]
      rfl
  have named : ∀ c ∈ o.document.children r, (o.document.content c).qualifiedName?.getD "" = col := fun c hc => by
    rw [contents c hc]
    rfl
  refine .reading ?_
  change ComesTo o (((o.document.children r).filter o.document.isElement).forM _ >>= fun _ =>
    Pure.pure ((o.document.children r).filter o.document.isElement)) _
  rw [all]
  refine .bind (.forM fun c hc => ?_) (.pure _)
  dsimp only
  split
  · rename_i other
    exact absurd (named c hc) other
  · exact .pure ()

/-- At its location a matrix is found with the cells of each of its rows. -/
theorem comesTo_matrixRows (h : o.document.IsMatrix names m table) :
    ComesTo o (matrixRows (o.document.location m) names)
      (.ok ((o.document.children m).map o.document.children)) := by
  have other : (o.document.content m).isDoctype = false := by
    rw [h.element]
    rfl
  have whole := withoutSlash_eq (h.locatable.getLast?_location h.attached h.element)
  have selected := OpenDocument.select_eq_ok (h.locatable.select_node h.attached other)
  have below := OpenDocument.select_eq_ok (h.locatable.select_pathBelow h.attached h.element h.plain)
  rw [h.childrenNamed, ← withoutSlash_pathBelow h.plain] at below
  have found : ComesTo o (select (withoutSlash (pathBelow (o.document.location m) names.row)))
      (.ok ((o.document.children m).map .node)) := below ▸ comesTo_select
  refine .bind (comesTo_selectSome (whole.symm ▸ selected) (List.cons_ne_nil _ _)).discard (found.bind ?_)
  rw [if_neg (by simpa using h.children_ne_nil)]
  have nodes : ((o.document.children m).map Hit.node).filterMap Hit.node? = o.document.children m := by
    rw [List.filterMap_map]
    exact List.filterMap_some
  rw [nodes]
  refine .mapM (List.forall₂_map_right_iff.mpr (List.forall₂_same.mpr ?_))
  exact forall_mem_of_forall₂ h.rows fun r _ _ row => comesTo_rowCells row.2

/-- The size of a matrix whose rows are of one length. -/
theorem comesTo_matrixSize {cols : Nat} (h : o.document.IsMatrix names m table)
    (uniform : ∀ texts ∈ table, texts.length = cols) :
    ComesTo o (matrixSize (o.document.location m) names) (.ok (table.length, cols)) := by
  have lengths : ∀ r ∈ o.document.children m, (o.document.children r).length = cols :=
    forall_mem_of_forall₂ h.rows fun r texts listed row => row.2.length_eq.trans (uniform texts listed)
  have first : ((((o.document.children m).map o.document.children).head?.map List.length).getD 0) = cols := by
    cases children : o.document.children m with
    | nil => exact absurd children h.children_ne_nil
    | cons r others => exact lengths r (children ▸ List.mem_cons_self)
  refine .bind (comesTo_matrixRows h) ?_
  dsimp only
  rw [first]
  have same : ((o.document.children m).map o.document.children).find? (·.length ≠ cols) = none := by
    rw [List.find?_eq_none, List.forall_mem_map]
    exact fun r hr => by simpa using lengths r hr
  rw [same, List.length_map, h.rows.length_eq]
  exact .pure _

/-- The numbers in a row of cells. -/
theorem comesTo_rowNumbers {path : String} (shown : o.document.Cells col cells texts)
    (readings : List.Forall₂ ReadsAs texts numbers) :
    ComesTo o (rowNumbers path numbers.length cells) (.ok numbers) := by
  have length : cells.length = numbers.length := shown.length_eq.trans readings.length_eq
  rw [rowNumbers, if_neg (not_not.mpr length)]
  refine .reading (.mapM (forall₂_comp (fun c text x cell reads => ?_) shown readings))
  have read : readFloat? (trimBy isSpace (o.document.directText c).toList) = some x := cell.2.symm ▸ reads
  dsimp only [OpenDocument.recached_document]
  rw [read]
  exact .pure x

/-- The numbers of a matrix, in one of the orders of its cells. -/
theorem comesTo_matrix {rows cols : Nat} {cell : Nat → Nat → String} {value : Nat → Nat → Float}
    (h : o.document.IsMatrix names m (tabulate rows cols cell))
    (readings : ∀ i < rows, ∀ j < cols, ReadsAs (cell i j) (value i j)) (mode : StorageMode) :
    ComesTo o (matrix (o.document.location m) names rows cols mode)
      (.ok ((mode.cells rows cols).map fun c => value c.1 c.2)) := by
  let found := (o.document.children m).map o.document.children
  have length : found.length = rows := by rw [List.length_map, h.rows.length_eq, length_tabulate]
  have shown : List.Forall₂ (o.document.Cells names.col) ((found.zipIdx 1).map Prod.fst) (tabulate rows cols cell) := by
    rw [List.zipIdx_map_fst]
    exact List.forall₂_map_left_iff.mpr (h.rows.imp fun _ _ row => row.2)
  have each : List.Forall₂ (fun (cells : List NodeId × Nat) xs =>
      ComesTo o (rowNumbers s!"{o.document.location m}/{names.row}[{cells.2}]" cols cells.1) (.ok xs))
      (found.zipIdx 1) (tabulate rows cols value) := by
    refine forall₂_comp (fun cells texts xs cell row => ?_) (List.forall₂_map_left_iff.mp shown)
      (forall₂_tabulate readings)
    rw [← row.1]
    exact comesTo_rowNumbers cell row.2
  refine .bind (comesTo_matrixRows h) ?_
  rw [if_neg (not_not.mpr length)]
  refine .bind (.mapM each) ?_
  have listed : ∀ c ∈ mode.cells rows cols,
      (((tabulate rows cols value).map List.toArray).toArray[c.1]?.bind (·[c.2]?)).getD 0 = value c.1 c.2 := by
    intro c hc
    obtain ⟨hi, hj⟩ := StorageMode.mem_cells.mp hc
    simp [tabulate, hi, hj]
  rw [← List.map_congr_left listed]
  exact .pure _

end Lookup

/-! ## Adding a matrix of numbers -/

/-- A number as a text in a format, if it can be written. -/
def writtenAs (format : Option String) (x : Float) : String := (writeFloat format x).toOption.getD ""

/-- What a number is read as when it has been written in a format. -/
def readBack (format : Option String) (x : Float) : Option Float := do
  let text ← (writeFloat format x).toOption
  readFloat? (trimBy isSpace text.toList)

theorem writtenAs_of_readBack {format : Option String} {x y : Float} (read : readBack format x = some y) :
    writeFloat format x = .ok (writtenAs format x) ∧ ReadsAs (writtenAs format x) y := by
  obtain ⟨text, written, reads⟩ := Option.bind_eq_some_iff.mp read
  have same : writtenAs format x = text := by rw [writtenAs, written, Option.getD_some]
  exact ⟨same.symm ▸ eq_ok_of_toOption written, same.symm ▸ reads⟩

namespace Edit

variable {o : OpenDocument} {p : NodeId} {path : String} {names : MatrixNames} {rows cols : Nat}
  {numbers : List Float} {format : Option String}

/-- The number that is listed for a cell, as a text. -/
def cellText (mode : StorageMode) (rows cols : Nat) (numbers : List Float) (format : Option String) (i j : Nat) :
    String :=
  ((numbers.take (rows * cols)).map (writtenAs format)).toArray.getD (mode.index i j rows cols) ""

/-- The texts of the numbers, row by row. -/
def textTable (mode : StorageMode) (rows cols : Nat) (numbers : List Float) (format : Option String) :
    List (List String) :=
  tabulate rows cols (cellText mode rows cols numbers format)

theorem ensures_addMatrix_forest (bare : o.document.Bare p)
    (selected : o.select (Lookup.withoutSlash path) = .ok [.node p])
    (inner : (o.document.content p).isInner = true)
    (valid : ∀ name ∈ [names.matrix, names.row, names.col], isQName name = true)
    (plain : ∀ name ∈ [names.matrix, names.row, names.col], QName.ofString name = ⟨none, name⟩)
    (high : 1 ≤ rows) (wide : 1 ≤ cols) (enough : rows * cols ≤ numbers.length)
    (written : ∀ x ∈ numbers.take (rows * cols), writeFloat format x = .ok (writtenAs format x)) (mode : StorageMode) :
    Ensures (· = o) (addMatrix path names rows cols numbers mode format)
      (fun _ u => u.document =
        Document.addForest p (matrixForest names (textTable mode rows cols numbers format)) o.document)
      fun _ => False := by
  have dimension : requireDimension rows cols = pure (rows, cols) := by
    rw [requireDimension, if_neg (by simp; omega), Int.toNat_natCast, Int.toNat_natCast]
  rw [addMatrix, dimension, pure_bind]
  dsimp only
  rw [if_neg (Nat.not_lt_of_le enough)]
  have named : requireNames names = pure () := by
    simp only [List.forall_mem_cons] at valid
    simp [requireNames, List.forM, requireName, valid]
  rw [named, pure_bind]
  refine .bind (.mapM_lift written) fun texts => .assume fun same => ?_
  subst same
  exact ensures_buildMatrix_forest bare selected inner (valid _ List.mem_cons_self) plain rows cols _

/-- Where a cell's number is listed, and what it is read as. -/
theorem reads_cellText (enough : rows * cols ≤ numbers.length)
    (legible : ∀ x ∈ numbers.take (rows * cols), readBack format x ≠ none) (mode : StorageMode) {i j : Nat}
    (hi : i < rows) (hj : j < cols) : ∃ y x, numbers[mode.index i j rows cols]? = some x ∧
      readBack format x = some y ∧ ReadsAs (cellText mode rows cols numbers format i j) y := by
  have inside : mode.index i j rows cols < rows * cols := (mode.bijOn_index rows cols).mapsTo (x := (i, j)) ⟨hi, hj⟩
  have place : numbers[mode.index i j rows cols]? = some numbers[mode.index i j rows cols] :=
    List.getElem?_eq_getElem (Nat.lt_of_lt_of_le inside enough)
  have taken := (List.getElem?_take_of_lt inside).trans place
  obtain ⟨y, read⟩ := Option.ne_none_iff_exists'.mp (legible _ (List.mem_of_getElem? taken))
  have text : cellText mode rows cols numbers format i j = writtenAs format numbers[mode.index i j rows cols] := by
    rw [cellText, Array.getD_eq_getD_getElem?, List.getElem?_toArray, List.getElem?_map, taken]
    rfl
  exact ⟨y, _, place, read, text ▸ (writtenAs_of_readBack read).2⟩

end Edit

/-- A matrix that a call adds below a node is found at its location, in a document without qualifiers and
namespaces, none of which is in force at the node either: it has as many rows and columns as were asked for, and
whatever the orders are in which its numbers were given and are asked for, every cell is worth what the number
given for it is read as when it has been written in the format. In either order every cell has one place, and every
place one cell. Rows, columns and the children of a node may be as many as a position can count. -/
theorem matrix_of_addMatrix {s : Session} {handle : Handle} {o : OpenDocument} (reachable : s.Reachable)
    (found : s.store.document? handle = some o) (editable : o.status = .editable)
    (unqualified : ∀ a ∈ o.document.documentOrder, (o.document.content a).Unqualified)
    (few : ∀ q, (o.document.children q).length + 1 < 2 ^ 53) {parent : String} {p : NodeId}
    (selected : o.select (Lookup.withoutSlash parent) = .ok [.node p]) (inner : (o.document.content p).isInner = true)
    (unbound : o.document.lookupNamespace p none = none) {names : MatrixNames}
    (valid : ∀ name ∈ [names.matrix, names.row, names.col],
      isQName name = true ∧ (QName.ofString name).qualifier = none)
    {rows cols : Nat} (high : 1 ≤ rows ∧ rows < 2 ^ 53) (wide : 1 ≤ cols ∧ cols < 2 ^ 53) {numbers : List Float}
    (enough : rows * cols ≤ numbers.length) {format : Option String}
    (legible : ∀ x ∈ numbers.take (rows * cols), readBack format x ≠ none) (given asked : StorageMode)
    (patience : Nat) :
    let (reply, s') := s.call patience (.change handle (.addMatrix parent names rows cols numbers given format))
    let cells : Set (Nat × Nat) := {c | c.1 < rows ∧ c.2 < cols}
    reply.outcome = .answered .done ∧
      (∃ d' m, s'.store.document? handle = some { o with document := d', cache := none } ∧
        d'.children p = o.document.children p ++ [m] ∧ ¬ o.document.Has m ∧ d'.content m = plainElement names.matrix ∧
        s'.Gives handle (.matrixSize (d'.location m) names) (.answered (.shape rows cols)) ∧
        ∃ l, s'.Gives handle (.matrix (d'.location m) names rows cols asked) (.answered (.floats l)) ∧
          l.length = rows * cols ∧ ∀ c ∈ cells, ∃ x y, numbers[given.index c.1 c.2 rows cols]? = some x ∧
            readBack format x = some y ∧ l[asked.index c.1 c.2 rows cols]? = some y) ∧
      ∀ mode ∈ [given, asked], Set.BijOn (fun c => mode.index c.1 c.2 rows cols) cells (Set.Iio (rows * cols)) := by
  have made := reachable.allMade.of_document? found
  have attached : o.document.Attached p :=
    Lookup.attached_of_select made.rooted selected (.node p) List.mem_cons_self
  have locatable : o.document.Locatable :=
    ⟨made, fun a ha => unqualified a (made.rooted.mem_documentOrder.mpr ha), fun q => Nat.lt_of_succ_lt (few q)⟩
  have plain : ∀ name ∈ [names.matrix, names.row, names.col], IsPlain name := fun name listed =>
    isPlain_of_isQName_whole (valid name listed).1 (valid name listed).2
  have written : ∀ x ∈ numbers.take (rows * cols), writeFloat format x = .ok (writtenAs format x) := fun x hx => by
    obtain ⟨y, read⟩ := Option.ne_none_iff_exists'.mp (legible x hx)
    exact (writtenAs_of_readBack read).1
  have added := Edit.ensures_addMatrix_forest ⟨made.rooted.wellLinked, attached.has, unbound⟩ selected inner
    (fun name listed => (valid name listed).1) (fun name listed => ofString_plain (plain name listed)) high.1 wide.1
    enough written given
  let table := Edit.textTable given rows cols numbers format
  obtain ⟨answered, d', found', rfl⟩ := Session.answered_of_ensures found editable
    (c := .addMatrix parent names rows cols numbers given format) rfl
    (Q := (· = Document.addForest p (matrixForest names table) o.document))
    (.bind added fun _ => .pure fun u made => ⟨rfl, made⟩) patience
  have after := reachable.call patience (.change handle (.addMatrix parent names rows cols numbers given format))
  have right := after.sound.right.of_document? found'
  -- In the document there is now a matrix with the texts of the numbers, of the size that was asked for.
  have height : table.length = rows := length_tabulate ..
  have width : ∀ texts ∈ table, texts.length = cols := fun _ => length_of_mem_tabulate
  obtain ⟨m, children, new, matrix⟩ := locatable.isMatrix_addForest attached (after.allMade.of_document? found') few
    (height ▸ high.2) (fun texts listed => width texts listed ▸ wide.2) (List.ne_nil_of_length_pos (height ▸ high.1))
    (plain names.row (by simp))
  have size := Lookup.comesTo_matrixSize (o := { o with document := _, cache := none }) matrix width
  rw [height] at size
  -- The number of every cell is chosen, with the one that was given for it.
  have readings : ∀ i j, i < rows → j < cols → ∃ y x, numbers[given.index i j rows cols]? = some x ∧
      readBack format x = some y ∧ ReadsAs (Edit.cellText given rows cols numbers format i j) y :=
    fun i j hi hj => Edit.reads_cellText enough legible given hi hj
  choose! value number listed read reads using readings
  have floats := Lookup.comesTo_matrix (o := { o with document := _, cache := none }) matrix
    (fun i hi j hj => reads i j hi hj) asked
  refine ⟨answered, ⟨_, m, found', children, new, matrix.element,
    Session.gives_of_comesTo (q := .matrixSize _ names) found' right (size.bind (.pure _)), _,
    Session.gives_of_comesTo (q := .matrix _ names rows cols asked) found' right (floats.bind (.pure _)), ?_, ?_⟩,
    fun mode _ => mode.bijOn_index rows cols⟩
  · rw [List.length_map, asked.length_cells]
  · intro c hc
    refine ⟨number c.1 c.2, value c.1 c.2, listed c.1 c.2 hc.1 hc.2, read c.1 c.2 hc.1 hc.2, ?_⟩
    rw [List.getElem?_map, asked.getElem?_cells hc.1 hc.2]
    rfl

/-- Four numbers, given row by row and asked for column by column: the third one is the second that is answered. -/
theorem matrix_of_addMatrix_two_by_two :
    let names : MatrixNames := ⟨"matrix", "r", "c"⟩
    let (reply, s') := Session.identified.call 0
      (.change 1 (.addMatrix "/a/b" names 2 2 [1, 2.5, -3, 4e100] .rowWise none))
    reply.outcome = .answered .done ∧ ∃ path l,
      s'.Gives 1 (.matrixSize path names) (.answered (.shape 2 2)) ∧
      s'.Gives 1 (.matrix path names 2 2 .columnWise) (.answered (.floats l)) ∧
      l.length = 4 ∧ l[1]? = readBack none (-3) := by
  obtain ⟨o, found, unqualified, few, -⟩ := Session.document?_identified
  have evaluated : (Session.identified.store.document? 1).map (fun o =>
      ((o.select (Lookup.withoutSlash "/a/b")).toOption, decide (o.status = .editable ∧
        (o.document.content ⟨3⟩).isInner = true ∧ o.document.lookupNamespace ⟨3⟩ none = none))) =
      some (some [.node ⟨3⟩], true) := by decide +kernel
  rw [found, Option.map_some, Option.some.injEq, Prod.mk.injEq, decide_eq_true_eq] at evaluated
  obtain ⟨selects, editable, inner, unbound⟩ := evaluated
  let names : MatrixNames := ⟨"matrix", "r", "c"⟩
  have valid : ∀ name ∈ [names.matrix, names.row, names.col],
      isQName name = true ∧ (QName.ofString name).qualifier = none := by decide +kernel
  have all : ([1, 2.5, -3, (4e100 : Float)].take (2 * 2)).all fun x => (readBack none x).isSome := by decide +kernel
  have legible : ∀ x ∈ [1, 2.5, -3, (4e100 : Float)].take (2 * 2), readBack none x ≠ none := fun x hx =>
    Option.isSome_iff_ne_none.mp (List.all_eq_true.mp all x hx)
  obtain ⟨answered, ⟨d', m, -, -, -, -, size, l, floats, length, entries⟩, -⟩ :=
    matrix_of_addMatrix Session.reachable_identified found editable unqualified few (eq_ok_of_toOption selects) inner
      unbound valid (by decide : 1 ≤ 2 ∧ 2 < 2 ^ 53) (by decide : 1 ≤ 2 ∧ 2 < 2 ^ 53)
      (by decide) legible .rowWise .columnWise 0
  obtain ⟨x, y, listed, read, there⟩ := entries (1, 0) (by decide)
  obtain rfl : -3 = x := Option.some.inj listed
  exact ⟨answered, _, l, size, floats, length, there.trans read.symm⟩

end XmlStore
