/-
Matrices in documents: an element for the matrix, in it one for every row,
and in each of these one for every cell. The numbers of a matrix are listed
row by row or column by column.
-/
import XmlStore.Store.Numbers

namespace XmlStore

/-- In which order the cells of a matrix are listed. -/
inductive StorageMode where
  | rowWise
  | columnWise
deriving DecidableEq, Repr

namespace StorageMode

def name : StorageMode → String
  | rowWise => "RowWise"
  | columnWise => "ColumnWise"

def ofNumber (mode : Int) : Except Error StorageMode :=
  if mode = 0 then .ok rowWise
  else if mode = 1 then .ok columnWise
  else .error (.unknownStorageMode mode)

/-- Where a cell is in the list. -/
def index (mode : StorageMode) (row col rows cols : Nat) : Nat :=
  match mode with
  | rowWise => row * cols + col
  | columnWise => row + col * rows

/-- The cells, by row and column, in the order they are listed. -/
def cells (mode : StorageMode) (rows cols : Nat) : List (Nat × Nat) :=
  match mode with
  | rowWise => (List.range rows).flatMap fun row => (List.range cols).map fun col => (row, col)
  | columnWise => (List.range cols).flatMap fun col => (List.range rows).map fun row => (row, col)

theorem length_cells (mode : StorageMode) (rows cols : Nat) :
    (mode.cells rows cols).length = rows * cols := by
  have count (n m : Nat) (f : Nat → Nat → Nat × Nat) :
      ((List.range n).flatMap fun i => (List.range m).map (f i)).length = n * m := by
    induction n with
    | zero => simp
    | succ n ih => simp [List.range_succ, ih, Nat.succ_mul]
  cases mode with
  | rowWise => exact count rows cols _
  | columnWise => rw [Nat.mul_comm]; exact count cols rows fun col row => (row, col)

end StorageMode

/-- What the elements of a matrix are called. -/
structure MatrixNames where
  matrix : String
  row : String
  col : String
deriving DecidableEq, Repr

/-- The given names, and the usual one for each that is not given. -/
def MatrixNames.ofOptions (matrix row col : Option String) : MatrixNames :=
  ⟨matrix.getD "matrix", row.getD "r", col.getD "c"⟩

namespace Lookup

/-- The cells of a row, all of which have to have the right name. -/
def rowCells (col : String) (row : NodeId) : Lookup (List NodeId) := do
  let document := (← read).document
  let cells := (document.children row).filter document.isElement
  cells.forM fun cell => do
    let name := (document.content cell).qualifiedName?.getD ""
    if name ≠ col then throw (.otherName (document.location row) col name)
  return cells

/-- The cells of a matrix, row by row. -/
def matrixRows (path : String) (names : MatrixNames) : Lookup (List (List NodeId)) := do
  discard (selectSome path)
  let rows ← select (withoutSlash (pathBelow path names.row))
  if rows.isEmpty then throw (.otherName path names.row "")
  (rows.filterMap Hit.node?).mapM (rowCells names.col)

/-- The numbers of rows and columns; all rows have to be of one length. -/
def matrixSize (path : String) (names : MatrixNames) : Lookup (Nat × Nat) := do
  let rows ← matrixRows path names
  let cols := (rows.head?.map List.length).getD 0
  if let some row := rows.find? (·.length ≠ cols) then throw (.otherSize path cols row.length)
  return (rows.length, cols)

/-- The numbers in a row with so many cells. -/
def rowNumbers (path : String) (cols : Nat) (cells : List NodeId) : Lookup (List Float) := do
  if cells.length ≠ cols then throw (.otherSize path cols cells.length)
  let document := (← read).document
  cells.mapM fun cell => do
    let text := document.directText cell
    let some x := readFloat? (trimBy isSpace text.toList)
      | throw (.noNumber (document.location cell) text)
    return x

/-- The numbers of a matrix with so many rows and columns. -/
def matrix (path : String) (names : MatrixNames) (rows cols : Nat) (mode : StorageMode) :
    Lookup (List Float) := do
  let found ← matrixRows path names
  if found.length ≠ rows then throw (.otherSize path rows found.length)
  let numbers ← (found.zipIdx 1).mapM fun (cells, place) =>
    rowNumbers s!"{path}/{names.row}[{place}]" cols cells
  let numbers := (numbers.map List.toArray).toArray
  return (mode.cells rows cols).map fun (row, col) => ((numbers[row]?.bind (·[col]?)).getD 0)

end Lookup

namespace Edit

def requireNames (names : MatrixNames) : Edit Unit :=
  [names.matrix, names.row, names.col].forM requireName

/-- A matrix has at least one row and one column. -/
def requireDimension (rows cols : Int) : Edit (Nat × Nat) := do
  if rows ≤ 0 || cols ≤ 0 then throw (.badMatrixDimension rows cols)
  return (rows.toNat, cols.toNat)

/-- Adds a matrix with the texts of its cells. -/
def buildMatrix (parent : String) (names : MatrixNames) (rows cols : Nat)
    (cell : Nat → Nat → String) : Edit Unit := do
  let id ← insertElement parent names.matrix none none 0
  (List.range rows).forM fun row => do
    let rowId ← appendElement id names.row ""
    (List.range cols).forM fun col => discard (appendElement rowId names.col (cell row col))

/-- Adds a matrix of empty cells. -/
def addEmptyMatrix (parent : String) (names : MatrixNames) (rows cols : Int) : Edit Unit := do
  let (rows, cols) ← requireDimension rows cols
  requireNames names
  buildMatrix parent names rows cols fun _ _ => ""

/-- Adds a matrix of numbers; numbers beyond its last cell are left out. -/
def addMatrix (parent : String) (names : MatrixNames) (rows cols : Int) (numbers : List Float)
    (mode : StorageMode) (format : Option String) : Edit Unit := do
  let (rowCount, colCount) ← requireDimension rows cols
  if numbers.length < rowCount * colCount then throw (.badMatrixDimension rows cols)
  requireNames names
  let texts ← (numbers.take (rowCount * colCount)).mapM fun x => (writeFloat format x : Edit String)
  let texts := texts.toArray
  buildMatrix parent names rowCount colCount fun row col =>
    texts.getD (mode.index row col rowCount colCount) ""

end Edit

end XmlStore
