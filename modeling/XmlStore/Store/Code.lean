/-
The numbers and names by which the outcome of a call is known outside. Some
of them belong to outcomes that no call of this library has.
-/
namespace XmlStore

inductive Code where
  | success
  | failed
  | invalidName
  | notWellFormed
  | notSchemaCompliant
  | notDtdCompliant
  | invalidHandle
  | invalidPath
  | elementNotFound
  | indexOutOfRange
  | noPoint
  | notAnElement
  | attributeNotFound
  | openFailed
  | openSchemaFailed
  | openDtdFailed
  | closeFailed
  | alreadySaved
  | elementPathNotUnique
  | noElementName
  | noChildren
  | childNotFound
  | rootNotCreated
  | deallocationFailed
  | noNumber
  | noAttributeName
  | stringTruncated
  | otherName
  | otherSize
  | badMatrixDimension
  | coordinateNotFound
  | unknownStorageMode
  | uidNotUnique
  | uidUnknown
  | uidLinkBroken
  | invalidNamespaceUri
  | invalidNamespacePrefix
deriving DecidableEq, Repr

namespace Code

/-- Every code, in the order of their numbers. -/
def all : List Code :=
  [success, failed, invalidName, notWellFormed, notSchemaCompliant, notDtdCompliant,
    invalidHandle, invalidPath, elementNotFound, indexOutOfRange, noPoint, notAnElement,
    attributeNotFound, openFailed, openSchemaFailed, openDtdFailed, closeFailed, alreadySaved,
    elementPathNotUnique, noElementName, noChildren, childNotFound, rootNotCreated,
    deallocationFailed, noNumber, noAttributeName, stringTruncated, otherName, otherSize,
    badMatrixDimension, coordinateNotFound, unknownStorageMode, uidNotUnique, uidUnknown,
    uidLinkBroken, invalidNamespaceUri, invalidNamespacePrefix]

/-- The name of a code. -/
def name : Code → String
  | success => "SUCCESS"
  | failed => "FAILED"
  | invalidName => "INVALID_XML_NAME"
  | notWellFormed => "NOT_WELL_FORMED"
  | notSchemaCompliant => "NOT_SCHEMA_COMPLIANT"
  | notDtdCompliant => "NOT_DTD_COMPLIANT"
  | invalidHandle => "INVALID_HANDLE"
  | invalidPath => "INVALID_XPATH"
  | elementNotFound => "ELEMENT_NOT_FOUND"
  | indexOutOfRange => "INDEX_OUT_OF_RANGE"
  | noPoint => "NO_POINT_FOUND"
  | notAnElement => "NOT_AN_ELEMENT"
  | attributeNotFound => "ATTRIBUTE_NOT_FOUND"
  | openFailed => "OPEN_FAILED"
  | openSchemaFailed => "OPEN_SCHEMA_FAILED"
  | openDtdFailed => "OPEN_DTD_FAILED"
  | closeFailed => "CLOSE_FAILED"
  | alreadySaved => "ALREADY_SAVED"
  | elementPathNotUnique => "ELEMENT_PATH_NOT_UNIQUE"
  | noElementName => "NO_ELEMENT_NAME"
  | noChildren => "NO_CHILDREN"
  | childNotFound => "CHILD_NOT_FOUND"
  | rootNotCreated => "EROROR_CREATE_ROOT_NODE"
  | deallocationFailed => "DEALLOCATION_FAILED"
  | noNumber => "NO_NUMBER"
  | noAttributeName => "NO_ATTRIBUTE_NAME"
  | stringTruncated => "STRING_TRUNCATED"
  | otherName => "NON_MATCHING_NAME"
  | otherSize => "NON_MATCHING_SIZE"
  | badMatrixDimension => "MATRIX_DIMENSION_ERROR"
  | coordinateNotFound => "COORDINATE_NOT_FOUND"
  | unknownStorageMode => "UNKNOWN_STORAGE_MODE"
  | uidNotUnique => "UID_NOT_UNIQUE"
  | uidUnknown => "UID_DONT_EXISTS"
  | uidLinkBroken => "UID_LINK_BROKEN"
  | invalidNamespaceUri => "INVALID_NAMESPACE_URI"
  | invalidNamespacePrefix => "INVALID_NAMESPACE_PREFIX"

/-- The number of a code, counted from zero. -/
def number (code : Code) : Nat := code.ctorIdx

def ofNumber? (n : Int) : Option Code := if n < 0 then none else all[n.toNat]?

theorem ofNumber?_number (code : Code) : ofNumber? code.number = some code := by
  cases code <;> rfl

end Code

end XmlStore
