/-
What can be wrong with a document, and what is only worth a warning. Every
report names a cause and a place; the wording is in the two `message`
functions.
-/
import XmlStore.Text.Cursor
import XmlStore.Text.Chars
import XmlStore.Encoding.Charset

namespace XmlStore

/-- Why a text is not a well-formed document. -/
inductive Flaw where
  | undecodable (error : DecodeError)
  | unexpectedEnd
  | expected (wanted found : Char)
  | invalidChar (c : Char)
  | blankRequired
  | nameAtEnd
  | badNameStart (c : Char)
  | nameTooLong (length limit : Nat)
  | badHexReference
  | badDecimalReference
  | referenceToNoChar (code : Nat)
  | unknownEntity (name : String)
  | valueNotQuoted
  | valueUnfinished
  | markupInValue
  | literalNotQuoted
  | commentUnfinished
  | doubleHyphen
  | cdataUnfinished
  | reservedTarget
  | instructionUnfinished
  | unsupportedVersion (version : String)
  | badStandalone
  | subsetUnfinished
  | missingRoot
  | contentAfterRoot
  | tooDeep (limit : Nat)
  | attributesRunTogether
  | bindingUndone (qualifier : String)
  | duplicateAttribute (name : String)
  | mismatchedEndTag (opened closed : String)
  | contentUnfinished
  | cdataEndInText
deriving DecidableEq, Repr

def Flaw.message : Flaw → String
  | undecodable error => error.message
  | unexpectedEnd => "unexpected end of input"
  | expected wanted found => s!"expected '{wanted}', found '{found}'"
  | invalidChar c => s!"invalid XML character: U+{hexDigits 4 c.toNat}"
  | blankRequired => "whitespace required"
  | nameAtEnd => "expected name, found end of input"
  | badNameStart c => s!"invalid name start character: '{c}'"
  | nameTooLong length limit => s!"name length ({length}) exceeds maximum ({limit})"
  | badHexReference => "invalid hex character reference"
  | badDecimalReference => "invalid decimal character reference"
  | referenceToNoChar code =>
    s!"character reference U+{hexDigits 4 code} is not a valid XML character"
  | unknownEntity name => s!"unknown entity reference: &{name};"
  | valueNotQuoted => "attribute value must be quoted"
  | valueUnfinished => "unexpected end of input in attribute value"
  | markupInValue => "'<' not allowed in attribute values"
  | literalNotQuoted => "expected quoted value"
  | commentUnfinished => "unexpected end of input in comment"
  | doubleHyphen => "'--' not allowed inside comments"
  | cdataUnfinished => "unexpected end of input in CDATA section"
  | reservedTarget => "PI target 'xml' is reserved"
  | instructionUnfinished => "unexpected end of input in processing instruction"
  | unsupportedVersion version => s!"unsupported XML version '{version}'"
  | badStandalone => "standalone must be 'yes' or 'no'"
  | subsetUnfinished => "unexpected end of input in DOCTYPE internal subset"
  | missingRoot => "missing root element"
  | contentAfterRoot => "content after document element"
  | tooDeep limit => s!"maximum nesting depth exceeded ({limit})"
  | attributesRunTogether => "whitespace required between attributes"
  | bindingUndone qualifier => s!"namespace prefix '{qualifier}' cannot be undeclared"
  | duplicateAttribute name => s!"duplicate attribute: '{name}'"
  | mismatchedEndTag opened closed =>
    s!"mismatched end tag: expected </{opened}>, found </{closed}>"
  | contentUnfinished => "unexpected end of input in element content"
  | cdataEndInText => "']]>' not allowed in character data"

/-- What a reader may want to know about a document that is accepted. -/
inductive Caveat where
  | subsetIgnored (doctype : String)
  | unboundQualifier (qualifier name : String)
deriving DecidableEq, Repr

def Caveat.message : Caveat → String
  | subsetIgnored doctype => s!"internal subset of DOCTYPE '{doctype}' ignored"
  | unboundQualifier qualifier name =>
    s!"namespace prefix '{qualifier}' on '{name}' is not defined"

structure Warning where
  caveat : Caveat
  position : Position
deriving DecidableEq, Repr

def Warning.text (w : Warning) : String :=
  s!"warning: {w.caveat.message} at {w.position.text}"

/-- A flaw and its place. -/
structure Fault where
  flaw : Flaw
  position : Position
deriving DecidableEq, Repr

/-- The first fault of a document, and the warnings that came before it. -/
structure ReadError where
  fault : Fault
  warnings : List Warning
deriving DecidableEq, Repr

def ReadError.message (e : ReadError) : String :=
  s!"parse error at {e.fault.position.text}: {e.fault.flaw.message}"

end XmlStore
