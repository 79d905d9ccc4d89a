/-
A place in a text that is being read: the characters still to come and the
line, column and byte offset reached. Columns count characters, except in a
quoted literal, where they count bytes.
-/
namespace XmlStore

/-- A place in a text: line and column from 1, byte offset from 0. -/
structure Position where
  line : Nat
  column : Nat
  offset : Nat
deriving DecidableEq, Repr

namespace Position

/-- The first place of every text. -/
def start : Position := ⟨1, 1, 0⟩

/-- The place reported when a text could not be decoded at all. -/
def nowhere : Position := ⟨0, 0, 0⟩

/-- The first place of the next line. -/
def nextLine (p : Position) : Position := ⟨p.line + 1, 1, p.offset + 1⟩

/-- The place after a character. -/
def after (p : Position) (c : Char) : Position :=
  if c = '\n' then p.nextLine else ⟨p.line, p.column + 1, p.offset + c.utf8Size⟩

/-- The place after the first byte of a character. -/
def afterByte (p : Position) (c : Char) : Position :=
  if c = '\n' then p.nextLine else ⟨p.line, p.column + 1, p.offset + 1⟩

/-- The place after a character whose bytes take a column each. -/
def afterBytes (p : Position) (c : Char) : Position :=
  if c = '\n' then p.nextLine else ⟨p.line, p.column + c.utf8Size, p.offset + c.utf8Size⟩

def text (p : Position) : String := s!"{p.line}:{p.column}"

end Position

/-- A reading place: what is still to be read, and where it begins. -/
structure Cursor where
  rest : List Char
  position : Position
deriving DecidableEq, Repr

namespace Cursor

def ofString (s : String) : Cursor := ⟨s.toList, .start⟩

def peek? (c : Cursor) : Option Char := c.rest.head?

def atEnd (c : Cursor) : Bool := c.rest.isEmpty

/-- Whether the given characters come next. -/
def sees (c : Cursor) (word : List Char) : Bool := word.isPrefixOf c.rest

/-- Passes over one character. -/
def next (c : Cursor) : Cursor :=
  match c.rest with
  | [] => c
  | ch :: rest => ⟨rest, c.position.after ch⟩

/-- Passes over `n` characters. -/
def skip : Nat → Cursor → Cursor
  | 0, c => c
  | n + 1, c => skip n c.next

/-- Passes over the characters at the front that `p` holds of, and hands them out. -/
def spanFrom (p : Char → Bool) (position : Position) (taken : List Char) :
    List Char → List Char × Cursor
  | [] => (taken.reverse, ⟨[], position⟩)
  | ch :: rest =>
    if p ch then spanFrom p (position.after ch) (ch :: taken) rest
    else (taken.reverse, ⟨ch :: rest, position⟩)

/-- The characters at the front that `p` holds of, and the place after them. -/
def span (p : Char → Bool) (c : Cursor) : List Char × Cursor :=
  spanFrom p c.position [] c.rest

/-- Passes over the characters at the front that `p` holds of. -/
def skipWhile (p : Char → Bool) (c : Cursor) : Cursor := (c.span p).2

theorem spanFrom_eq (p : Char → Bool) (position : Position) (taken cs : List Char) :
    spanFrom p position taken cs =
      (taken.reverse ++ cs.takeWhile p,
        ⟨cs.dropWhile p, (cs.takeWhile p).foldl Position.after position⟩) := by
  induction cs generalizing position taken with
  | nil => simp [spanFrom]
  | cons c cs ih => by_cases h : p c = true <;> simp [spanFrom, h, ih]

/-- What `span` takes is the longest run at the front. -/
theorem span_eq (p : Char → Bool) (c : Cursor) :
    c.span p = (c.rest.takeWhile p,
      ⟨c.rest.dropWhile p, (c.rest.takeWhile p).foldl Position.after c.position⟩) := by
  simp [span, spanFrom_eq]

/-! How far a place is from the end of the text. -/

/-- The number of characters still to come. -/
def remaining (c : Cursor) : Nat := c.rest.length

theorem remaining_next (c : Cursor) : c.next.remaining = c.remaining - 1 := by
  unfold next remaining
  split <;> simp_all

theorem remaining_skip (n : Nat) (c : Cursor) : (skip n c).remaining = c.remaining - n := by
  induction n generalizing c with
  | zero => rfl
  | succ n ih => rw [skip, ih, remaining_next]; omega

theorem remaining_span_le (p : Char → Bool) (c : Cursor) :
    (c.span p).2.remaining ≤ c.remaining := by
  rw [span_eq]
  exact (List.dropWhile_sublist p).length_le

theorem remaining_skipWhile_le (p : Char → Bool) (c : Cursor) :
    (c.skipWhile p).remaining ≤ c.remaining := remaining_span_le p c

end Cursor

end XmlStore
