/-
The tokens of path expressions, and what can be wrong with an expression. A
fault of form is reported with the byte offset where it was seen.
-/
import XmlStore.Path.Expr
import XmlStore.Decimal.Digits

namespace XmlStore

inductive Symbol where
  | leftParen
  | rightParen
  | leftBracket
  | rightBracket
  | dot
  | dotDot
  | atSign
  | comma
  | colonColon
  | slash
  | doubleSlash
  | bar
  | plus
  | minus
  | equal
  | notEqual
  | less
  | lessEqual
  | greater
  | greaterEqual
deriving DecidableEq, Repr

namespace Symbol

def spelling : Symbol → String
  | leftParen => "("
  | rightParen => ")"
  | leftBracket => "["
  | rightBracket => "]"
  | dot => "."
  | dotDot => ".."
  | atSign => "@"
  | comma => ","
  | colonColon => "::"
  | slash => "/"
  | doubleSlash => "//"
  | bar => "|"
  | plus => "+"
  | minus => "-"
  | equal => "="
  | notEqual => "!="
  | less => "<"
  | lessEqual => "<="
  | greater => ">"
  | greaterEqual => ">="

/-- Every symbol, those of two characters before the symbols they begin with. -/
def longestFirst : List Symbol :=
  [dotDot, colonColon, doubleSlash, notEqual, lessEqual, greaterEqual, leftParen, rightParen,
    leftBracket, rightBracket, dot, atSign, comma, slash, bar, plus, minus, equal, less, greater]

/-- The longest symbol at the front of a text, and what follows it. -/
def read? (cs : List Char) : Option (Symbol × List Char) :=
  longestFirst.findSome? fun symbol =>
    (symbol.spelling.toList.isPrefixOf? cs).map fun rest => (symbol, rest)

theorem length_read?_lt {cs rest : List Char} {symbol : Symbol}
    (h : read? cs = some (symbol, rest)) : rest.length < cs.length := by
  obtain ⟨found, _, hfound⟩ := List.exists_of_findSome?_eq_some h
  obtain ⟨after, hafter, heq⟩ := Option.map_eq_some_iff.1 hfound
  cases heq
  have := length_add_of_isPrefixOf? hafter
  have : 0 < symbol.spelling.toList.length := by cases symbol <;> decide
  omega

end Symbol

inductive Token where
  | symbol (s : Symbol)
  /-- One of `*`, `and`, `or`, `div` and `mod` behind an operand. -/
  | operator (op : BinaryOp)
  | number (x : Float)
  | literal (s : String)
  /-- A name test: a name, `*` or `qualifier:*`. -/
  | name (s : String)
  | reference (variableName : String)
  | function (name : String)
  | nodeType (name : String)
  | axis (name : String)

/-- The text a token is reported by. -/
def Token.spelling : Token → String
  | symbol s => s.spelling
  | operator op => op.spelling
  | number x => plainFloat x
  | literal s => s!"\"{s}\""
  | reference s => s!"${s}"
  | name s | function s | nodeType s | axis s => s

/-- A token and the text that it begins. -/
structure Lexeme where
  token : Token
  text : List Char

/-- The number of bytes of a text. -/
def byteLength : List Char → Nat
  | [] => 0
  | c :: cs => c.utf8Size + byteLength cs

/-- The byte offset at which the last part of an expression begins. -/
def offsetIn (expression : String) (text : List Char) : Nat :=
  expression.utf8ByteSize - byteLength text

def Lexeme.offsetIn (expression : String) (l : Lexeme) : Nat := XmlStore.offsetIn expression l.text

/-- What the grammar asks for at a place. -/
inductive Wanted where
  | symbol (s : Symbol)
  | expression
  | primary
  | nodeTest
  /-- An axis other than the one of this name, which does not exist. -/
  | axisOtherThan (name : String)
deriving DecidableEq, Repr

def Wanted.text : Wanted → String
  | symbol s => s!"expected '{s.spelling}'"
  | expression => "expected an expression"
  | primary => "expected a primary expression"
  | nodeTest => "expected a node test"
  | axisOtherThan name => s!"unknown axis '{name}'"

/-- Why a text is not an expression. -/
inductive PathFlaw where
  | strayColon
  | strayBang
  | openLiteral
  | nameMissing
  | strayChar (c : Char)
  | badNumber (digits : String)
  | empty
  | trailing (token : String)
  | unexpected (wanted : Wanted) (found : Option String)
deriving DecidableEq, Repr

def PathFlaw.message : PathFlaw → String
  | strayColon => "expected '::'"
  | strayBang => "expected '=' after '!'"
  | openLiteral => "unterminated string literal"
  | nameMissing => "expected a name after '$'"
  | strayChar c => s!"unexpected character '{c}'"
  | badNumber digits => s!"invalid number '{digits}'"
  | empty => "empty expression"
  | trailing token => s!"unexpected '{token}' after expression"
  | unexpected wanted (some found) => s!"{wanted.text}, found '{found}'"
  | unexpected wanted none => s!"{wanted.text}, found end of expression"

/-- Why an expression has no value. -/
inductive PathError where
  | misread (offset : Nat) (flaw : PathFlaw)
  | notNodes (found : String)
  | undefinedVariable (name : String)
  | undefinedFunction (name : String)
  | wrongArity (function : String) (least : Nat) (most : Option Nat) (found : Nat)
  | unknownQualifier (qualifier : String)
deriving DecidableEq, Repr

/-- A range of argument counts. -/
def arityText (least : Nat) : Option Nat → String
  | none => s!"at least {least}"
  | some most => if least = most then s!"{least}" else s!"{least} to {most}"

def PathError.message : PathError → String
  | misread offset flaw => s!"syntax error at position {offset}: {flaw.message}"
  | notNodes found => s!"type error: expected node-set, found {found}"
  | undefinedVariable name => s!"undefined variable: ${name}"
  | undefinedFunction name => s!"undefined function: {name}()"
  | wrongArity function least most found =>
    s!"{function}() expects {arityText least most} argument(s), got {found}"
  | unknownQualifier qualifier => s!"undefined namespace prefix: {qualifier}"

end XmlStore
