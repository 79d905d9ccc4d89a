/-
Single values in documents: how they are written, and how the text of an
element or of an attribute is read as a number or as a truth.
-/
import XmlStore.Store.Error
import XmlStore.Decimal.Read

namespace XmlStore

/-- A value to be written; a number may come with a format. -/
inductive Scalar where
  | text (s : String)
  | boolean (b : Bool)
  | float (x : Float) (format : Option String)
  | integer (n : Int) (format : Option String)

/-- A number in a format. -/
def writeNumber (format : String) (value : FormatValue) : Except Error String :=
  match NumberFormat.ofString format with
  | .ok f => .ok (f.write value)
  | .error flaw => .error (.badFormat format flaw)

def writeFloat (format : Option String) (x : Float) : Except Error String :=
  writeNumber (format.getD defaultFloatFormat) (.float x)

def writeInteger (format : Option String) (n : Int) : Except Error String :=
  writeNumber (format.getD defaultIntegerFormat) (.integer n)

def Scalar.write : Scalar → Except Error String
  | text s => .ok s
  | boolean b => .ok (if b then "true" else "false")
  | float x format => writeFloat format x
  | integer n format => writeInteger format n

/-- The number that a text is, white space around it aside; `path` is where it was found. -/
def readFloat (path text : String) : Except Error Float :=
  match readFloat? (trimBy isSpace text.toList) with
  | some x => .ok x
  | none => .error (.noNumber path text)

def readInteger (path text : String) : Except Error Int :=
  match readInt32? (trimBy isSpace text.toList) with
  | some n => .ok n
  | none => .error (.noNumber path text)

/-- The truth that the text of an element is. -/
def readElementBoolean (path text : String) : Except Error Bool :=
  if text = "true" || text = "1" then .ok true
  else if text = "false" || text = "0" then .ok false
  else .error (.noBooleanValue path text)

/-- The truth that the value of an attribute is; the words may be capitalised. -/
def readAttributeBoolean (path name text : String) : Except Error Bool :=
  if ["true", "True", "1"].contains text then .ok true
  else if ["false", "False", "0"].contains text then .ok false
  else .error (.noBooleanAttribute path name text)

end XmlStore
