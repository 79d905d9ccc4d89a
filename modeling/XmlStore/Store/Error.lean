/-
Why a call is refused. Every cause has its own constructor with what is needed
to tell about it, a code and a message.
-/
import XmlStore.Store.Code
import XmlStore.Markup.Flaw
import XmlStore.Path.Token
import XmlStore.Decimal.Format
import XmlStore.Files.Basic

namespace XmlStore

/-- Why external data cannot be included. -/
inductive ExternalFlaw where
  | noPath
  | noFileName
  | notLocal
deriving DecidableEq, Repr

def ExternalFlaw.message : ExternalFlaw → String
  | noPath => "no path defined in externaldata node"
  | noFileName => "no filename defined in externaldata node"
  | notLocal => "only local files can be included"

inductive Error where
  | noBooleanValue (path text : String)
  | noBooleanAttribute (path name text : String)
  | badFormat (format : String) (flaw : FormatFlaw)
  | emptyVector (name : String)
  | noRootElement
  | nothingImported
  | nestedSwap (a b : String)
  | positionCount (sizes positions : Nat)
  | unknownOpenMode (mode : Int)
  | unknownLinkMode (mode : Int)
  | badPrettyPrintFlag (flag : Int)
  | unwritableFile (path : String) (cause : FileError)
  | invalidName (name : String)
  | notWellFormed (cause : ReadError)
  | invalidHandle (handle : Int)
  | invalidPath (path : String) (cause : PathError)
  | elementNotFound (path : String)
  | indexOutOfRange (path : String) (index : Int)
  | noPoint (path : String)
  | notAnElement (path : String)
  | attributeNotFound (path name : String)
  | unreadableFile (path : String) (cause : FileError)
  | unusableExternal (location : String) (cause : ExternalFlaw)
  | alreadySaved (handle : Int)
  | pathNotUnique (path : String) (count : Nat)
  | noNumber (path value : String)
  | noAttributeName
  | otherName (path expected found : String)
  | otherSize (path : String) (expected found : Nat)
  | badMatrixDimension (rows cols : Int)
  | badCoordinate (path : String)
  | unknownStorageMode (mode : Int)
  | uidNotUnique (uid : String)
  | uidUnknown (uid : String)
  | uidLinkBroken (uid : String)
  | invalidNamespaceUri (uri : String)
  | invalidNamespacePrefix (qualifier : String)
deriving DecidableEq, Repr

namespace Error

def code : Error → Code
  | noBooleanValue .. | noBooleanAttribute .. | badFormat .. | emptyVector _ | noRootElement
  | nothingImported | nestedSwap .. | positionCount .. | unknownOpenMode _ | unknownLinkMode _
  | badPrettyPrintFlag _ | unwritableFile .. => .failed
  | invalidName _ => .invalidName
  | notWellFormed _ => .notWellFormed
  | invalidHandle _ => .invalidHandle
  | invalidPath .. => .invalidPath
  | elementNotFound _ => .elementNotFound
  | indexOutOfRange .. => .indexOutOfRange
  | noPoint _ => .noPoint
  | notAnElement _ => .notAnElement
  | attributeNotFound .. => .attributeNotFound
  | unreadableFile .. | unusableExternal .. => .openFailed
  | alreadySaved _ => .alreadySaved
  | pathNotUnique .. => .elementPathNotUnique
  | noNumber .. => .noNumber
  | noAttributeName => .noAttributeName
  | otherName .. => .otherName
  | otherSize .. => .otherSize
  | badMatrixDimension .. => .badMatrixDimension
  | badCoordinate _ => .coordinateNotFound
  | unknownStorageMode _ => .unknownStorageMode
  | uidNotUnique _ => .uidNotUnique
  | uidUnknown _ => .uidUnknown
  | uidLinkBroken _ => .uidLinkBroken
  | invalidNamespaceUri _ => .invalidNamespaceUri
  | invalidNamespacePrefix _ => .invalidNamespacePrefix

def message : Error → String
  | noBooleanValue path text => s!"no boolean value at '{path}': '{text}'"
  | noBooleanAttribute path name text =>
    s!"attribute '{name}' at '{path}' is not a boolean: '{text}'"
  | badFormat format flaw => s!"invalid number format '{format}': {flaw.reason}"
  | emptyVector name => s!"vector '{name}' has no values"
  | noRootElement => "document has no root element"
  | nothingImported => "imported string has no element"
  | nestedSwap a b => s!"cannot swap '{a}' and '{b}': one contains the other"
  | positionCount sizes positions => s!"{sizes} dimension sizes but {positions} positions"
  | unknownOpenMode mode => s!"unknown open mode {mode}"
  | unknownLinkMode mode => s!"unknown link mode {mode}"
  | badPrettyPrintFlag flag => s!"pretty print flag must be 0 or 1, got {flag}"
  | unwritableFile path cause => s!"failed to write '{path}': {cause.message}"
  | invalidName name => s!"invalid XML name '{name}'"
  | notWellFormed cause => s!"document is not well-formed: {cause.message}"
  | invalidHandle handle => s!"invalid document handle {handle}"
  | invalidPath path cause => s!"invalid XPath expression '{path}': {cause.message}"
  | elementNotFound path => s!"element '{path}' not found"
  | indexOutOfRange path index => s!"index {index} out of range for '{path}'"
  | noPoint path => s!"no point found at '{path}'"
  | notAnElement path => s!"'{path}' is not an element"
  | attributeNotFound path name => s!"attribute '{name}' not found at '{path}'"
  | unreadableFile path cause => s!"failed to open '{path}': {cause.message}"
  | unusableExternal location cause => s!"failed to open '{location}': {cause.message}"
  | alreadySaved handle => s!"document {handle} has already been saved"
  | pathNotUnique path count => s!"path '{path}' matches {count} nodes"
  | noNumber path value => s!"value '{value}' at '{path}' is not a number"
  | noAttributeName => "no attribute name given"
  | otherName path expected found =>
    s!"unexpected element name '{found}' at '{path}', expected '{expected}'"
  | otherSize path expected found =>
    s!"size mismatch at '{path}': expected {expected}, found {found}"
  | badMatrixDimension rows cols => s!"invalid matrix dimension {rows}x{cols}"
  | badCoordinate path => s!"coordinate '{path}' is not a number"
  | unknownStorageMode mode => s!"unknown storage mode {mode}"
  | uidNotUnique uid => s!"uID '{uid}' is not unique"
  | uidUnknown uid => s!"uID '{uid}' does not exist"
  | uidLinkBroken uid => s!"link to uID '{uid}' is broken"
  | invalidNamespaceUri uri => s!"invalid namespace URI '{uri}'"
  | invalidNamespacePrefix qualifier => s!"invalid namespace prefix '{qualifier}'"

/-- The file that could not be read or written. -/
def file? : Error → Option String
  | unreadableFile path _ | unwritableFile path _ => some path
  | _ => none

end Error

end XmlStore
