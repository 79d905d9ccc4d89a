/-
Character classes: the characters a document may hold, the characters of
names, and the blanks that separate and surround values. The classes of the
markup are the ranges of XML 1.0, sections 2.2 and 2.3; `isSpace` is the
Unicode property White_Space.
-/
namespace XmlStore

/-- Inclusive ranges of code points. -/
abbrev Ranges := List (Nat × Nat)

def Ranges.has (ranges : Ranges) (c : Char) : Bool :=
  ranges.any fun (low, high) => low ≤ c.toNat && c.toNat ≤ high

/-- The characters a document may contain. -/
def xmlChars : Ranges :=
  [(0x09, 0x0A), (0x0D, 0x0D), (0x20, 0xD7FF), (0xE000, 0xFFFD), (0x10000, 0x10FFFF)]

/-- The characters a name may start with; the colon is one of them. -/
def nameStartChars : Ranges :=
  [(0x3A, 0x3A), (0x41, 0x5A), (0x5F, 0x5F), (0x61, 0x7A), (0xC0, 0xD6), (0xD8, 0xF6),
    (0xF8, 0x2FF), (0x370, 0x37D), (0x37F, 0x1FFF), (0x200C, 0x200D), (0x2070, 0x218F),
    (0x2C00, 0x2FEF), (0x3001, 0xD7FF), (0xF900, 0xFDCF), (0xFDF0, 0xFFFD), (0x10000, 0xEFFFF)]

/-- The further characters a name may go on with. -/
def nameFurtherChars : Ranges :=
  [(0x2D, 0x2E), (0x30, 0x39), (0xB7, 0xB7), (0x300, 0x36F), (0x203F, 0x2040)]

def isXmlChar (c : Char) : Bool := xmlChars.has c

def isNameStart (c : Char) : Bool := nameStartChars.has c

def isNameChar (c : Char) : Bool := isNameStart c || nameFurtherChars.has c

/-- The white space of markup and of path expressions. -/
def isBlank (c : Char) : Bool := c = ' ' || c = '\t' || c = '\r' || c = '\n'

/-- ASCII white space: the blanks and the form feed. -/
def isAsciiSpace (c : Char) : Bool := isBlank c || c = '\x0c'

/-- White space of any script. -/
def spaces : Ranges :=
  [(0x09, 0x0D), (0x20, 0x20), (0x85, 0x85), (0xA0, 0xA0), (0x1680, 0x1680), (0x2000, 0x200A),
    (0x2028, 0x2029), (0x202F, 0x202F), (0x205F, 0x205F), (0x3000, 0x3000)]

def isSpace (c : Char) : Bool := spaces.has c

/-- ASCII letters in lower case, every other character as it is. -/
def lowerAscii (s : String) : String := String.ofList (s.toList.map Char.toLower)

/-- The characters between the first and the last one that `p` does not hold of. -/
def trimBy (p : Char → Bool) (cs : List Char) : List Char :=
  ((cs.dropWhile p).reverse.dropWhile p).reverse

/-- A text without the white space around it. -/
def trimSpace (s : String) : String := String.ofList (trimBy isSpace s.toList)

/-- The words of a text: its pieces between white space, empty ones left out. -/
def wordsBy (p : Char → Bool) (cs : List Char) : List (List Char) :=
  (cs.splitOnP p).filter (!·.isEmpty)

/-- What follows the first place where `word` stands in a text. -/
def afterFirst? (word : List Char) : List Char → Option (List Char)
  | [] => if word.isEmpty then some [] else none
  | c :: cs => (word.isPrefixOf? (c :: cs)).or (afterFirst? word cs)

/-- What precedes the first place where `word` stands in a text. -/
def beforeFirst? (word : List Char) : List Char → Option (List Char)
  | [] => if word.isEmpty then some [] else none
  | c :: cs => if word.isPrefixOf (c :: cs) then some [] else (beforeFirst? word cs).map (c :: ·)

theorem beforeFirst?_quote {quote : Char} {body rest : List Char} (clear : ∀ ch ∈ body, ch ≠ quote) :
    beforeFirst? [quote] (body ++ quote :: rest) = some body := by
  induction body with
  | nil => simp [beforeFirst?]
  | cons ch body ih =>
    rw [List.forall_mem_cons] at clear
    have other : ¬ [quote].isPrefixOf (ch :: (body ++ quote :: rest)) = true := by
      simp [Ne.symm clear.1]
    rw [List.cons_append, beforeFirst?, if_neg other, ih clear.2]
    rfl

theorem length_add_of_isPrefixOf? {front cs rest : List Char}
    (h : front.isPrefixOf? cs = some rest) : rest.length + front.length = cs.length := by
  induction front generalizing cs with
  | nil =>
    cases Option.some.inj h
    rfl
  | cons c front ih =>
    cases cs with
    | nil => cases h
    | cons d cs =>
      have h : (if c == d then front.isPrefixOf? cs else none) = some rest := h
      split at h
      · have := ih h
        simp only [List.length_cons]
        omega
      · simp at h

/-- Upper-case hexadecimal digits, at least `width` of them. -/
def hexDigits (width n : Nat) : String :=
  let digits := (Nat.toDigits 16 n).map Char.toUpper
  String.ofList (List.replicate (width - digits.length) '0' ++ digits)

/-- Decimal digits, at least `width` of them. -/
def paddedDigits (width n : Nat) : List Char :=
  let digits := Nat.toDigits 10 n
  List.replicate (width - digits.length) '0' ++ digits

/-- The value of a decimal digit. -/
def digitValue (c : Char) : Nat := c.toNat - '0'.toNat

/-- The number a list of decimal digits writes. -/
def natOfDigits (cs : List Char) : Nat := cs.foldl (fun n c => n * 10 + digitValue c) 0

/-- The value of a hexadecimal digit. -/
def hexValue (c : Char) : Nat :=
  if c.isDigit then digitValue c else c.toLower.toNat - 'a'.toNat + 10

/-- The number a list of hexadecimal digits writes. -/
def natOfHexDigits (cs : List Char) : Nat := cs.foldl (fun n c => n * 16 + hexValue c) 0

def isHexDigit (c : Char) : Bool :=
  c.isDigit || ('a' ≤ c && c ≤ 'f') || ('A' ≤ c && c ≤ 'F')

end XmlStore
