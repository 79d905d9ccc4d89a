/-
Lists of numbers in documents. A vector is one element whose text holds the
numbers with semicolons between them; a point has an element for each of its
coordinates; a list has an element for each number.
-/
import XmlStore.Store.Edit
import XmlStore.Store.Scalar
import XmlStore.Store.Size

namespace XmlStore

/-- The attribute that says what the numbers in an element are. -/
def mapType : String := "mapType"

def vectorType : String := "vector"

def arrayType : String := "array"

/-- The pieces of a vector, white space around them and empty ones left out. -/
def vectorPieces (text : String) : List String :=
  ((text.toList.splitOn ';').map fun piece => String.ofList (trimBy isSpace piece)).filter
    (!·.isEmpty)

/-- The numbers of a vector. -/
def readVector (path text : String) : Except Error (List Float) :=
  (vectorPieces text).mapM (readFloat path)

def writeVector (format : Option String) (numbers : List Float) : Except Error String := do
  return ";".intercalate (← numbers.mapM (writeFloat format))

namespace Lookup

/-- The text of a vector; the element has to be marked as one, in any case of letters. -/
def vectorText (path : String) : Lookup String := do
  let id ← node path
  let document := (← read).document
  match document.attribute? id mapType with
  | none => throw (.attributeNotFound path mapType)
  | some kind =>
    if lowerAscii kind ≠ vectorType then
      throw (.elementNotFound s!"{path}[@{mapType}='{vectorType}']")
    return document.directText id

def vectorSize (path : String) : Lookup Nat := return (vectorPieces (← vectorText path)).length

/-- The first numbers of a vector; it has to have as many. -/
def vector (path : String) (count : Nat) : Lookup (List Float) := do
  let text ← vectorText path
  let numbers ← ((vectorPieces text).take count).mapM fun piece => (readFloat path piece : Lookup _)
  if numbers.length < count then
    throw (.indexOutOfRange path (Size.reported count))
  return numbers

/-- A coordinate of a point, if the point has it. -/
def coordinate (path : String) (point : NodeId) (axis : String) : Lookup (Option Float) := do
  let document := (← read).document
  match (document.childrenNamed point axis).head? with
  | none => return none
  | some child =>
    match readFloat? (trimBy isSpace (document.directText child).toList) with
    | some x => return some x
    | none => throw (.badCoordinate s!"{path}/{axis}")

/-- The first element that an expression selects. -/
def firstElement? (path : String) : Lookup (Option NodeId) := do
  let document := (← read).document
  return ((← select (withoutSlash path)).filterMap Hit.node?).find? document.isElement

/-- The coordinates of a point. One that is missing is zero, but not all of them may be. -/
def point (path : String) : Lookup (Float × Float × Float) := do
  match ← firstElement? path with
  | none => throw (.noPoint path)
  | some id =>
    let x ← coordinate path id "x"
    let y ← coordinate path id "y"
    let z ← coordinate path id "z"
    if x.isNone && y.isNone && z.isNone then throw (.noPoint path)
    return (x.getD 0, y.getD 0, z.getD 0)

end Lookup

namespace Edit

/-- The text of a vector, which must not be empty. -/
def vectorText (name : String) (numbers : List Float) (format : Option String) : Edit String := do
  if numbers.isEmpty then throw (.emptyVector name)
  writeVector format numbers

def addVector (parent name : String) (numbers : List Float) (format : Option String) :
    Edit Unit := do
  let text ← vectorText name numbers format
  let id ← insertElement parent name none (some text) 0
  change (·.setAttribute id mapType vectorType)

def updateVector (path : String) (numbers : List Float) (format : Option String) :
    Edit Unit := do
  let text ← vectorText path numbers format
  let id ← look (Lookup.node path)
  replaceText id text
  change (·.setAttribute id mapType vectorType)

def addPoint (parent : String) (x y z : Float) (format : Option String) : Edit Unit := do
  let texts ← [x, y, z].mapM fun value => (writeFloat format value : Edit String)
  let id ← look (Lookup.node parent)
  (["x", "y", "z"].zip texts).forM fun (axis, text) => discard (appendElement id axis text)

/-- Adds a list of numbers, each in an element of its own with an attribute. -/
def addList (parent list child name : String) (numbers : List Float) (format : Option String)
    (values : List String) : Edit Unit := do
  [list, child, name].forM requireName
  if numbers.length ≠ values.length then
    throw (.otherSize s!"{parent}/{list}" numbers.length values.length)
  let texts ← numbers.mapM fun x => (writeFloat format x : Edit String)
  let id ← insertElement parent list none none 0
  (texts.zip values).forM fun (text, value) => do
    let member ← appendElement id child text
    change (·.setAttribute member name value)

end Edit

end XmlStore
