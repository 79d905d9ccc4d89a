/-
Which encoding a document is in. A byte order mark of UTF-16 decides; else
the declaration at the start of the text is looked at, as far as its first
200 bytes show it; else the text is UTF-8.
-/
import XmlStore.Encoding.Decode

namespace XmlStore

/-- The encoding a byte order mark stands for, and the length of the mark. -/
def byteOrderMark : Bytes → Charset × Nat
  | 0xEF :: 0xBB :: 0xBF :: _ => (.utf8, 3)
  | 0xFE :: 0xFF :: _ => (.utf16be, 2)
  | 0xFF :: 0xFE :: _ => (.utf16le, 2)
  | _ => (.utf8, 0)

/-- The bytes before the first `?>`. -/
def beforeClose? : Bytes → Option Bytes
  | [] => none
  | 0x3F :: 0x3E :: _ => some []
  | b :: rest => (beforeClose? rest).map (b :: ·)

/-- The value of the first `encoding = "…"` in the characters of a declaration. -/
def encodingValue? (declaration : List Char) : Option String := do
  let rest ← afterFirst? "encoding".toList declaration
  let rest ← ['='].isPrefixOf? (rest.dropWhile isSpace)
  match rest.dropWhile isSpace with
  | quote :: value =>
    if quote = '"' || quote = '\'' then
      (beforeFirst? [quote] value).map String.ofList
    else none
  | [] => none

/-- How far into the text a declaration is looked for. -/
def declarationWindow : Nat := 200

/-- The encoding that the declaration at the start of the bytes names. -/
def declaredEncoding? (bytes : Bytes) : Option String := do
  let window := bytes.take declarationWindow
  if (utf8Bytes "<?xml").isPrefixOf window then
    let declaration ← beforeClose? window
    let text ← decodeUtf8? declaration
    encodingValue? text.toList
  else none

/-- Labels under which a text is read as UTF-8 without further ado. -/
def isUtf8Label (label : String) : Bool :=
  ["utf-8", "utf8", "us-ascii", "ascii"].contains (lowerAscii label)

/-- Decodes a document. The mark of UTF-16 wins over the declaration; the mark of UTF-8 is only
passed over. -/
def decodeDocument (bytes : Bytes) : Except DecodeError String :=
  let (charset, length) := byteOrderMark bytes
  let content := bytes.drop length
  if charset ≠ .utf8 then transcode content charset.label
  else
    let asUtf8 := match decodeUtf8? content with
      | some s => .ok s
      | none => .error (.malformed Charset.utf8.label)
    match declaredEncoding? content with
    | some label => if isUtf8Label label then asUtf8 else transcode content label
    | none => asUtf8

end XmlStore
