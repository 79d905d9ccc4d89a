/-
The smallest pieces of markup: expected characters, names, references and
quoted values. Each reader takes a cursor and gives what it read with the
cursor behind it, or the fault at the place where reading stopped.
-/
import XmlStore.Markup.Reader

namespace XmlStore

namespace Cursor

/-- The character that stands for the first byte of another in a report. -/
def firstByte (ch : Char) : Char := Char.ofNat ((String.utf8EncodeChar ch).headD 0).toNat

def expect (wanted : Char) (c : Cursor) : Except Fault Cursor :=
  match c.rest with
  | [] => .error (c.fault .unexpectedEnd)
  | ch :: _ =>
    if ch = wanted then .ok c.next
    else .error ⟨.expected wanted (firstByte ch), c.position.afterByte ch⟩

theorem remaining_expect {wanted : Char} {c d : Cursor} (h : c.expect wanted = .ok d) :
    d.remaining + 1 = c.remaining := by
  unfold expect at h
  split at h
  · cases h
  · rename_i ch rest hrest
    split at h
    · cases h
      rw [remaining_next]
      simp [remaining, hrest]
    · cases h

def expectWord (word : String) (c : Cursor) : Except Fault Cursor :=
  word.toList.foldlM (fun c ch => c.expect ch) c

theorem remaining_expectWord {word : String} {c d : Cursor} (h : c.expectWord word = .ok d) :
    d.remaining + word.toList.length = c.remaining := by
  unfold expectWord at h
  generalize word.toList = chars at h ⊢
  induction chars generalizing c with
  | nil => cases h; rfl
  | cons ch chars ih =>
    rw [List.foldlM_cons] at h
    obtain ⟨e, hexpect, hrest⟩ := bind_eq_ok.1 h
    have := remaining_expect hexpect
    have := ih hrest
    rw [List.length_cons]
    omega

def skipBlanks (c : Cursor) : Cursor := c.skipWhile isBlank

theorem remaining_skipBlanks_le (c : Cursor) : c.skipBlanks.remaining ≤ c.remaining :=
  remaining_skipWhile_le isBlank c

def requireBlanks (c : Cursor) : Except Fault Cursor :=
  if (c.peek?).any isBlank then .ok c.skipBlanks else .error (c.fault .blankRequired)

/-- One character of a document; every line end reads as a line feed. -/
def readChar (c : Cursor) : Except Fault (Char × Cursor) :=
  match c.rest with
  | [] => .error (c.fault .unexpectedEnd)
  | '\r' :: '\n' :: _ => .ok ('\n', c.next.next)
  | '\r' :: _ => .ok ('\n', c.next)
  | ch :: _ => if isXmlChar ch then .ok (ch, c.next) else .error (c.next.fault (.invalidChar ch))

theorem advances_readChar : Advances readChar := by
  intro c ch d h
  unfold readChar at h
  split at h
  · cases h
  · rename_i rest hrest
    cases h
    rw [remaining_next, remaining_next]
    simp only [remaining, hrest, List.length_cons]
    omega
  · rename_i rest _ hrest
    cases h
    rw [remaining_next]
    simp [remaining, hrest]
  · rename_i rest _ _ hrest
    split at h
    · cases h
      rw [remaining_next]
      simp [remaining, hrest]
    · cases h

/-- The most bytes a name may have. -/
def nameLimit : Nat := 50000

def readName (c : Cursor) : Except Fault (String × Cursor) :=
  match c.rest with
  | [] => .error (c.fault .nameAtEnd)
  | ch :: _ =>
    if isNameStart ch then
      let (chars, c) := c.span isNameChar
      let name := String.ofList chars
      if name.utf8ByteSize ≤ nameLimit then .ok (name, c)
      else .error (c.fault (.nameTooLong name.utf8ByteSize nameLimit))
    else .error (c.fault (.badNameStart ch))

theorem remaining_readName_le {name : String} {c d : Cursor} (h : c.readName = .ok (name, d)) :
    d.remaining ≤ c.remaining := by
  unfold readName at h
  split at h
  · cases h
  · split at h
    · have := remaining_span_le isNameChar c
      grind
    · cases h

/-- The five entities every document knows. -/
def entities : List (String × Char) :=
  [("amp", '&'), ("lt", '<'), ("gt", '>'), ("apos", '\''), ("quot", '"')]

/-- The number of a character reference has to fit into 32 bits. -/
def referenceLimit : Nat := 0x100000000

/-- The digits of a character reference, its sign `#` and the base already passed. -/
def readCode (p : Char → Bool) (value : List Char → Nat) (flaw : Flaw) (c : Cursor) :
    Except Fault (Char × Cursor) := do
  let (digits, c) := c.span p
  if digits.isEmpty || value digits ≥ referenceLimit then .error (c.fault flaw)
  else
    let c ← c.expect ';'
    let ch := Char.ofNat (value digits)
    if isXmlChar ch then .ok (ch, c) else .error (c.fault (.referenceToNoChar (value digits)))

theorem remaining_readCode_le {p : Char → Bool} {value : List Char → Nat} {flaw : Flaw} {ch : Char}
    {c d : Cursor} (h : c.readCode p value flaw = .ok (ch, d)) : d.remaining ≤ c.remaining := by
  unfold readCode at h
  have := remaining_span_le p c
  split at h
  split at h
  · cases h
  · obtain ⟨e, hexpect, hrest⟩ := bind_eq_ok.1 h
    have := remaining_expect hexpect
    grind

/-- A reference to a character by number, or to one of the five entities. -/
def readReference (c : Cursor) : Except Fault (Char × Cursor) := do
  let c ← c.expect '&'
  if c.sees ['#', 'x'] then
    c.next.next.readCode isHexDigit natOfHexDigits .badHexReference
  else if c.sees ['#'] then
    c.next.readCode Char.isDigit natOfDigits .badDecimalReference
  else
    let (name, c) ← c.readName
    let c ← c.expect ';'
    match entities.lookup name with
    | some ch => .ok (ch, c)
    | none => .error (c.fault (.unknownEntity name))

theorem advances_readReference : Advances readReference := by
  intro c ch d h
  obtain ⟨e, hexpect, h⟩ := bind_eq_ok.1 h
  have := remaining_expect hexpect
  have := remaining_next e
  have := remaining_next e.next
  split at h
  · have := remaining_readCode_le h
    omega
  · split at h
    · have := remaining_readCode_le h
      omega
    · obtain ⟨⟨name, f⟩, hname, h⟩ := bind_eq_ok.1 h
      have := remaining_readName_le hname
      obtain ⟨g, hsemi, h⟩ := bind_eq_ok.1 h
      have := remaining_expect hsemi
      grind

def isQuote (ch : Char) : Bool := ch = '"' || ch = '\''

/-- One character of an attribute value; a line end or a tab reads as a space. -/
def readValueChar (c : Cursor) : Except Fault (Char × Cursor) := do
  if c.atEnd then .error (c.fault .valueUnfinished)
  else if c.sees ['&'] then c.readReference
  else if c.sees ['<'] then .error (c.fault .markupInValue)
  else
    let (ch, c) ← c.readChar
    return (if ch = '\n' || ch = '\t' then ' ' else ch, c)

theorem advances_readValueChar : Advances readValueChar := by
  intro c ch d h
  unfold readValueChar at h
  split at h
  · cases h
  · split at h
    · exact advances_readReference h
    · split at h
      · cases h
      · obtain ⟨⟨taken, e⟩, hread, h⟩ := bind_eq_ok.1 h
        cases h
        exact advances_readChar hread

def readAttributeValue (c : Cursor) : Except Fault (String × Cursor) := do
  match c.rest with
  | [] => .error (c.fault .unexpectedEnd)
  | quote :: _ =>
    if isQuote quote then
      let (value, c) ← c.next.readUntil (·.sees [quote]) readValueChar advances_readValueChar
      return (value, c.next)
    else .error ⟨.valueNotQuoted, c.position.afterByte quote⟩

theorem advances_readAttributeValue : Advances readAttributeValue := by
  intro c value d h
  unfold readAttributeValue at h
  split at h
  · cases h
  · rename_i quote rest hrest
    split at h
    · obtain ⟨⟨taken, e⟩, huntil, h⟩ := bind_eq_ok.1 h
      cases h
      have := remaining_readUntil_le huntil
      have := remaining_next e
      have := remaining_next c
      have : c.remaining = rest.length + 1 := by simp [remaining, hrest]
      omega
    · cases h

/-- The characters up to a quote, taken as they are and counted in bytes. -/
def literalBody (quote : Char) (position : Position) (taken : List Char) :
    List Char → List Char × Cursor
  | [] => (taken.reverse, ⟨[], position⟩)
  | ch :: rest =>
    if ch = quote then (taken.reverse, ⟨ch :: rest, position⟩)
    else literalBody quote (position.afterBytes ch) (ch :: taken) rest

theorem remaining_literalBody_le (quote : Char) (position : Position) (taken cs : List Char) :
    (literalBody quote position taken cs).2.remaining ≤ cs.length := by
  induction cs generalizing position taken with
  | nil => exact Nat.le_refl 0
  | cons ch cs ih =>
    unfold literalBody
    split
    · exact Nat.le_refl _
    · exact Nat.le_succ_of_le (ih _ _)

/-- A quoted literal, in which nothing is replaced. -/
def readLiteral (c : Cursor) : Except Fault (String × Cursor) := do
  match c.rest with
  | [] => .error (c.fault .unexpectedEnd)
  | quote :: rest =>
    if isQuote quote then
      let (chars, c) := literalBody quote (c.position.after quote) [] rest
      let c ← c.expect quote
      return (String.ofList chars, c)
    else .error ⟨.literalNotQuoted, c.position.afterByte quote⟩

theorem advances_readLiteral : Advances readLiteral := by
  intro c value d h
  unfold readLiteral at h
  split at h
  · cases h
  · rename_i quote rest hrest
    have := remaining_literalBody_le quote (c.position.after quote) [] rest
    have : c.remaining = rest.length + 1 := by simp [remaining, hrest]
    split at h
    · split at h
      obtain ⟨e, hexpect, h⟩ := bind_eq_ok.1 h
      cases h
      have := remaining_expect hexpect
      grind
    · cases h

end Cursor

end XmlStore
