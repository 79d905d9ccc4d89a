/-
Arrays of several dimensions in documents. An array is an element with one
vector for every dimension, which holds the values along it, and with lists of
numbers for all combinations of these, the last dimension varying fastest.
-/
import XmlStore.Store.Numbers

namespace XmlStore

/-- The index that positions stand for in a list of numbers; `dimension` counts the sizes before. -/
def arrayIndex (dimension index : Nat) : List Nat → List Nat → Except Error Nat
  | size :: sizes, position :: positions =>
    if position < size then
      arrayIndex (dimension + 1) (Size.wrap (index * size + position)) sizes positions
    else .error (.indexOutOfRange s!"dimension {dimension}" (Size.reported position))
  | _, _ => .ok index

/-- The number at a position for every dimension. -/
def arrayValue (numbers : List Float) (sizes positions : List Nat) : Except Error Float := do
  if sizes.isEmpty || sizes.length ≠ positions.length then
    throw (.positionCount sizes.length positions.length)
  let index ← arrayIndex 0 0 sizes positions
  match numbers[index]? with
  | some x => return x
  | none => throw (.indexOutOfRange "array" (Size.reported index))

namespace Lookup

/-- The parts of an array that are marked as vectors or as arrays. -/
def arrayParts (path kind : String) : Lookup (List NodeId) := do
  let document := (← read).document
  let parents := (← select path).filterMap Hit.node?
  let parts := (parents.flatMap document.children).filter fun id =>
    document.attribute? id mapType == some kind
  if parts.isEmpty then throw (.elementNotFound s!"{path}/*[@{mapType}='{kind}']")
  return parts

def arrayPartCount (path kind : String) : Lookup Nat := return (← arrayParts path kind).length

def arrayPartNames (path kind : String) : Lookup (List String) := do
  let document := (← read).document
  return (← arrayParts path kind).filterMap fun id => (document.content id).qualifiedName?

/-- The text of a dimension, which must not be empty. -/
def dimensionText (id : NodeId) : Lookup String := do
  let document := (← read).document
  if (document.children id).isEmpty then
    throw (.elementNotFound s!"{document.location id}/text()")
  return document.directText id

/-- The sizes of all dimensions, and the number of their combinations. -/
def dimensionSizes (path : String) : Lookup (List Nat × Nat) := do
  let parts ← arrayParts path vectorType
  let sizes ← parts.mapM fun id => return (vectorPieces (← dimensionText id)).length
  return (sizes, sizes.foldl (fun total size => Size.wrap (total * size)) 1)

/-- The values along a dimension, counted from zero. -/
def dimensionValues (path : String) (dimension : Nat) : Lookup (List Float) := do
  let parts ← arrayParts path vectorType
  match parts[dimension]? with
  | none =>
    let place := Size.wrap (dimension + 1)
    throw (.elementNotFound s!"{path}/*[@{mapType}='{vectorType}'][{place}]")
  | some id => readVector ((← read).document.location id) (← dimensionText id)

/-- The first node that an expression selects, if it is an array that holds something. -/
def arrayNode (path : String) : Lookup NodeId := do
  let document := (← read).document
  match (← selectSome path).head? with
  | some (.node id) =>
    if document.attribute? id mapType == some arrayType && !(document.children id).isEmpty then
      return id
    throw (.attributeNotFound path mapType)
  | _ => throw (.attributeNotFound path mapType)

/-- The numbers of an array, of which there have to be so many. -/
def array (path element : String) (size : Nat) : Lookup (List Float) := do
  let path := pathBelow path element
  let id ← arrayNode path
  let numbers ← (readVector path ((← read).document.directText id) : Lookup _)
  if numbers.length ≠ size then throw (.otherSize path size numbers.length)
  return numbers

end Lookup

end XmlStore
