/-
What can be asked of a document, done to it and set for it, as data, and what
the answers are.
-/
import XmlStore.Store.Array
import XmlStore.Store.Header
import XmlStore.Store.Identifiers
import XmlStore.Store.Matrix
import XmlStore.Store.Namespaces

namespace XmlStore

inductive Answer where
  | done
  | text (s : String)
  | optionalText (s : Option String)
  | texts (list : List String)
  | boolean (b : Bool)
  | integer (n : Int)
  | float (x : Float)
  | floats (list : List Float)
  /-- Numbers of rows and columns. -/
  | shape (rows cols : Nat)
  /-- The sizes of dimensions, and the number of their combinations. -/
  | sizes (list : List Nat) (total : Nat)

/-- A question about one document. -/
inductive Question where
  /-- Whether the document is open at all. -/
  | isOpen
  | filePath
  | wholeText
  | checkElement (path : String)
  | checkAttribute (path name : String)
  | namedChildCount (path name : String)
  | childCount (path : String)
  | childName (path : String) (index : Int)
  | nodeType (path : String)
  | hitCount (expression : String)
  | hitText (expression : String) (index : Int)
  | hitName (expression : String) (index : Int)
  | hitLocation (expression : String) (index : Int)
  | text (path : String)
  | integer (path : String)
  | float (path : String)
  | boolean (path : String)
  | elementMarkup (path : String)
  | attributeText (path name : String)
  | attributeInteger (path name : String)
  | attributeFloat (path name : String)
  | attributeBoolean (path name : String)
  | attributeCount (path : String)
  | attributeName (path : String) (index : Int)
  | checkUids
  | checkLinks
  | uidLocation (uid : String)
  | checkUid (uid : String)
  | vectorSize (path : String)
  | vector (path : String) (count : Nat)
  | point (path : String)
  | matrixSize (path : String) (names : MatrixNames)
  | matrix (path : String) (names : MatrixNames) (rows cols : Nat) (mode : StorageMode)
  | arrayPartCount (path kind : String)
  | arrayPartNames (path kind : String)
  | dimensionSizes (path : String)
  | dimensionValues (path : String) (dimension : Nat)
  | array (path element : String) (size : Nat)
deriving DecidableEq, Repr

/-- The place of an attribute in reports. -/
def attributePath (path name : String) : String := s!"{path}/@{name}"

def Question.lookup : Question → Lookup Answer
  | isOpen => return .done
  | filePath => return .optionalText (← read).path
  | wholeText => return .text (← read).write
  | checkElement path => do Lookup.checkElement path; return .done
  | checkAttribute path name => do Lookup.checkAttribute path name; return .done
  | namedChildCount path name => return .integer (← Lookup.namedChildCount path name)
  | childCount path => return .integer (← Lookup.childCount path)
  | childName path index => return .text (← Lookup.childName path index)
  | nodeType path => return .text (← Lookup.nodeType path)
  | hitCount expression => return .integer (← Lookup.count expression)
  | hitText expression index => return .text (← Lookup.hitText expression index)
  | hitName expression index => return .text (← Lookup.hitName expression index)
  | hitLocation expression index => return .text (← Lookup.hitLocation expression index)
  | text path => return .text (← Lookup.elementText path)
  | integer path => return .integer (← readInteger path (← Lookup.elementText path))
  | float path => return .float (← readFloat path (← Lookup.elementText path))
  | boolean path => return .boolean (← readElementBoolean path (← Lookup.elementText path))
  | elementMarkup path => return .text (← Lookup.elementMarkup path)
  | attributeText path name => return .text (← Lookup.attributeText path name)
  | attributeInteger path name =>
    return .integer (← readInteger (attributePath path name) (← Lookup.attributeText path name))
  | attributeFloat path name =>
    return .float (← readFloat (attributePath path name) (← Lookup.attributeText path name))
  | attributeBoolean path name =>
    return .boolean (← readAttributeBoolean path name (← Lookup.attributeText path name))
  | attributeCount path => return .integer (← Lookup.attributeCount path)
  | attributeName path index => return .text (← Lookup.attributeName path index)
  | checkUids => do Lookup.checkUids; return .done
  | checkLinks => do Lookup.checkLinks; return .done
  | uidLocation uid => return .text (← Lookup.uidLocation uid)
  | checkUid uid => do Lookup.checkUid uid; return .done
  | vectorSize path => return .integer (← Lookup.vectorSize path)
  | vector path count => return .floats (← Lookup.vector path count)
  | point path => do
    let (x, y, z) ← Lookup.point path
    return .floats [x, y, z]
  | matrixSize path names => do
    let (rows, cols) ← Lookup.matrixSize path names
    return .shape rows cols
  | matrix path names rows cols mode => return .floats (← Lookup.matrix path names rows cols mode)
  | arrayPartCount path kind => return .integer (← Lookup.arrayPartCount path kind)
  | arrayPartNames path kind => return .texts (← Lookup.arrayPartNames path kind)
  | dimensionSizes path => do
    let (sizes, total) ← Lookup.dimensionSizes path
    return .sizes sizes total
  | dimensionValues path dimension => return .floats (← Lookup.dimensionValues path dimension)
  | array path element size => return .floats (← Lookup.array path element size)

/-- A change of one document. Places among children are counted from 1; where there is no such
place, the last one is meant. -/
inductive Change where
  | updateElement (path : String) (value : Scalar)
  | addElement (parent name : String) (uri : Option String) (value : Option Scalar) (place : Int)
  | renameChildren (parent old new : String)
  | remove (path : String)
  | swap (a b : String)
  | importMarkup (parent markup : String) (place : Int)
  | setAttribute (path name : String) (value : Scalar)
  | removeAttribute (path name : String)
  | setNamespace (path uri qualifier : String)
  | declareNamespace (path uri qualifier : String)
  | setUid (path uid : String)
  | addLink (parent name target : String) (mode : LinkMode)
  | addVector (parent name : String) (numbers : List Float) (format : Option String)
  | updateVector (path : String) (numbers : List Float) (format : Option String)
  | addPoint (parent : String) (x y z : Float) (format : Option String)
  | addList (parent list child name : String) (numbers : List Float) (format : Option String)
      (values : List String)
  | addEmptyMatrix (parent : String) (names : MatrixNames) (rows cols : Int)
  | addMatrix (parent : String) (names : MatrixNames) (rows cols : Int) (numbers : List Float)
      (mode : StorageMode) (format : Option String)
  | addToolHeader (header : ToolHeader) (time : String)
  | addDataHeader (header : DataHeader) (time : String)
  | addExternalLink (parent url : String) (format : Option String)

/-- The edit that a change asks for. A single value is written before any document is looked at,
so that a bad format is noticed first. -/
def Change.edit : Change → Except Error (Edit Answer)
  | updateElement path value => do
    let text ← value.write
    return do Edit.updateText path text; return .done
  | addElement parent name uri value place => do
    let text ← value.mapM Scalar.write
    return do discard (Edit.insertElement parent name uri text place.toNat); return .done
  | setAttribute path name value => do
    let text ← value.write
    return do Edit.setAttribute path name text; return .done
  | renameChildren parent old new => return do Edit.renameChildren parent old new; return .done
  | remove path => return do Edit.remove path; return .done
  | swap a b => return do Edit.swap a b; return .done
  | importMarkup parent markup place =>
    return do Edit.importMarkup parent markup place.toNat; return .done
  | removeAttribute path name => return do Edit.removeAttribute path name; return .done
  | setNamespace path uri qualifier =>
    return do Edit.setNamespace path uri qualifier; return .done
  | declareNamespace path uri qualifier =>
    return do Edit.declareNamespace path uri qualifier; return .done
  | setUid path uid => return do Edit.setUid path uid; return .done
  | addLink parent name target mode =>
    return do return .optionalText (← Edit.addLink parent name target mode)
  | addVector parent name numbers format =>
    return do Edit.addVector parent name numbers format; return .done
  | updateVector path numbers format =>
    return do Edit.updateVector path numbers format; return .done
  | addPoint parent x y z format => return do Edit.addPoint parent x y z format; return .done
  | addList parent list child name numbers format values =>
    return do Edit.addList parent list child name numbers format values; return .done
  | addEmptyMatrix parent names rows cols =>
    return do Edit.addEmptyMatrix parent names rows cols; return .done
  | addMatrix parent names rows cols numbers mode format =>
    return do Edit.addMatrix parent names rows cols numbers mode format; return .done
  | addToolHeader header time => return do Edit.addToolHeader header time; return .done
  | addDataHeader header time => return do Edit.addDataHeader header time; return .done
  | addExternalLink parent url format =>
    return do Edit.addExternalLink parent url format; return .done

/-- What can be set for a document, saved ones included. -/
inductive Setting where
  /-- 1 turns indentation on and 0 turns it off. -/
  | prettyPrint (flag : Int)
  | caching (on : Bool)
  | registerNamespace (uri qualifier : String)
  | registerAll
deriving DecidableEq, Repr

def Setting.apply (document : Document) (p : Preferences) : Setting → Reported Preferences
  | prettyPrint flag =>
    if flag = 0 then return { p with prettyPrint := false }
    else if flag = 1 then return { p with prettyPrint := true }
    else throw (.badPrettyPrintFlag flag)
  | caching on => return { p with caching := on }
  | registerNamespace uri qualifier => do
    checkQualifier qualifier
    checkUri uri
    return p.register qualifier uri
  | registerAll => p.registerAll document

end XmlStore
