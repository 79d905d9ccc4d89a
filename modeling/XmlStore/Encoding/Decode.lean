/-
Bytes to characters in each encoding. UTF-8 and UTF-16 reject what is not
well formed; windows-1252 gives every byte a character.
-/
import XmlStore.Encoding.Charset

namespace XmlStore

/-- A list of bytes, first byte first. -/
abbrev Bytes := List UInt8

def decodeUtf8? (bytes : Bytes) : Option String := String.fromUTF8? bytes.toByteArray

/-- Which byte of a 16-bit unit comes first. -/
inductive ByteOrder where
  | little
  | big
deriving DecidableEq, Repr

def ByteOrder.unit : ByteOrder → UInt8 → UInt8 → Nat
  | little, low, high => high.toNat * 256 + low.toNat
  | big, high, low => high.toNat * 256 + low.toNat

/-- The 16-bit units of an even number of bytes. -/
def units? (order : ByteOrder) : Bytes → Option (List Nat)
  | [] => some []
  | [_] => none
  | a :: b :: rest => (units? order rest).map (order.unit a b :: ·)

def isHighSurrogate (u : Nat) : Bool := 0xD800 ≤ u && u < 0xDC00

def isLowSurrogate (u : Nat) : Bool := 0xDC00 ≤ u && u < 0xE000

/-- The characters of a list of units; a surrogate has to stand in a pair. -/
def charsOfUnits? : List Nat → Option (List Char)
  | [] => some []
  | [u] => if isHighSurrogate u || isLowSurrogate u then none else some [Char.ofNat u]
  | u :: v :: rest =>
    if isHighSurrogate u then
      if isLowSurrogate v then
        (charsOfUnits? rest).map (Char.ofNat (0x10000 + (u - 0xD800) * 0x400 + (v - 0xDC00)) :: ·)
      else none
    else if isLowSurrogate u then none
    else (charsOfUnits? (v :: rest)).map (Char.ofNat u :: ·)

def decodeUtf16? (order : ByteOrder) (bytes : Bytes) : Option String :=
  ((units? order bytes).bind charsOfUnits?).map String.ofList

/-- The characters of the bytes 80 to 9F in windows-1252. -/
def windows1252High : List Nat :=
  [0x20AC, 0x81, 0x201A, 0x192, 0x201E, 0x2026, 0x2020, 0x2021, 0x2C6, 0x2030, 0x160, 0x2039,
    0x152, 0x8D, 0x17D, 0x8F, 0x90, 0x2018, 0x2019, 0x201C, 0x201D, 0x2022, 0x2013, 0x2014, 0x2DC,
    0x2122, 0x161, 0x203A, 0x153, 0x9D, 0x17E, 0x178]

def windows1252Char (b : UInt8) : Char :=
  if 0x80 ≤ b && b < 0xA0 then Char.ofNat (windows1252High.getD (b.toNat - 0x80) 0)
  else Char.ofNat b.toNat

def Charset.decode? : Charset → Bytes → Option String
  | utf8, bytes => decodeUtf8? bytes
  | utf16le, bytes => decodeUtf16? .little bytes
  | utf16be, bytes => decodeUtf16? .big bytes
  | windows1252, bytes => some (String.ofList (bytes.map windows1252Char))

/-- Decodes bytes under the encoding a label names. A byte order mark is kept. -/
def transcode (bytes : Bytes) (label : String) : Except DecodeError String :=
  match Charset.ofLabel? label with
  | none => .error (.unsupported label)
  | some charset =>
    match charset.decode? bytes with
    | some s => .ok s
    | none => .error (.malformed label)

/-- The bytes of a text in UTF-8. -/
def utf8Bytes (s : String) : Bytes := s.toUTF8.toList

end XmlStore
