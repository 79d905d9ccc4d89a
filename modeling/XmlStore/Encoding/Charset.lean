/-
The character encodings of documents and the labels that name them. Labels
are those of the WHATWG encoding standard for the four encodings known here.
-/
import XmlStore.Text.Chars

namespace XmlStore

inductive Charset where
  | utf8
  | utf16le
  | utf16be
  | windows1252
deriving DecidableEq, Repr

namespace Charset

/-- The name an encoding is reported by. -/
def label : Charset → String
  | utf8 => "UTF-8"
  | utf16le => "UTF-16LE"
  | utf16be => "UTF-16BE"
  | windows1252 => "windows-1252"

/-- Every label of every encoding, in lower case. -/
def labels : List (Charset × List String) :=
  [(utf8, ["unicode-1-1-utf-8", "unicode11utf8", "unicode20utf8", "utf-8", "utf8",
      "x-unicode20utf8"]),
    (utf16le, ["csunicode", "iso-10646-ucs-2", "ucs-2", "unicode", "unicodefeff", "utf-16",
      "utf-16le"]),
    (utf16be, ["unicodefffe", "utf-16be"]),
    (windows1252, ["ansi_x3.4-1968", "ascii", "cp1252", "cp819", "csisolatin1", "ibm819",
      "iso-8859-1", "iso-ir-100", "iso8859-1", "iso88591", "iso_8859-1", "iso_8859-1:1987", "l1",
      "latin1", "us-ascii", "windows-1252", "x-cp1252"])]

/-- The encoding a label names; case and surrounding ASCII white space do not matter. -/
def ofLabel? (label : String) : Option Charset :=
  let wanted := lowerAscii (String.ofList (trimBy isAsciiSpace label.toList))
  (labels.find? fun (_, names) => names.contains wanted).map (·.1)

theorem ofLabel?_label (c : Charset) : ofLabel? c.label = some c := by
  cases c <;> decide +kernel

end Charset

/-- Why bytes did not become a text. -/
inductive DecodeError where
  | unsupported (label : String)
  | malformed (label : String)
deriving DecidableEq, Repr

def DecodeError.message : DecodeError → String
  | unsupported label => s!"unsupported encoding: {label}"
  | malformed label => s!"malformed byte sequence for encoding {label}"

end XmlStore
