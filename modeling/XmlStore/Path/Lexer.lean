/-
From the text of an expression to its tokens. What a name is depends on its
neighbours: behind an operand it may be an operator, before a parenthesis it
is a function or a node type, and before `::` it is an axis.
-/
import XmlStore.Path.Token
import XmlStore.Decimal.Read

namespace XmlStore

namespace Lexer

/-- Whether a token ends an operand, so that an operator may follow. -/
def endsOperand : Token → Bool
  | .symbol s => [.rightParen, .rightBracket, .dot, .dotDot].contains s
  | .number _ | .literal _ | .name _ | .reference _ => true
  | _ => false

/-- The operators that look like names. -/
def namedOperators : List BinaryOp := [.and, .or, .divide, .modulo]

/-- The characters at the front of a text that `p` holds of, and what follows them. -/
def splitWhile (p : Char → Bool) (cs : List Char) : List Char × List Char :=
  (cs.takeWhile p, cs.dropWhile p)

/-- A name without a colon, and what follows it. -/
def readPlainName? (cs : List Char) : Option (List Char × List Char) :=
  match cs with
  | [] => none
  | c :: _ =>
    if c ≠ ':' && isNameStart c then some (splitWhile (fun c => c ≠ ':' && isNameChar c) cs)
    else none

/-- A name, possibly with a qualifier; behind a qualifier `*` may stand for the local part. -/
def readName? (cs : List Char) : Option (String × List Char) := do
  let (first, rest) ← readPlainName? cs
  let alone := (String.ofList first, rest)
  match rest with
  | ':' :: '*' :: rest => some (String.ofList (first ++ [':', '*']), rest)
  | ':' :: rest =>
    match readPlainName? rest with
    | some (second, rest) => some (String.ofList (first ++ ':' :: second), rest)
    | none => some alone
  | _ => some alone

def isNumberChar (c : Char) : Bool := c.isDigit || c = '.'

def startsNumber : List Char → Bool
  | '.' :: c :: _ => c.isDigit
  | c :: _ => c.isDigit
  | [] => false

/-- The token at the front of a text that begins with no blank, and what follows it. -/
def readToken (afterOperand : Bool) (cs : List Char) : Except PathFlaw (Token × List Char) :=
  if startsNumber cs then
    let (digits, rest) := splitWhile isNumberChar cs
    match readUnsigned? digits with
    | some x => .ok (.number x, rest)
    | none => .error (.badNumber (String.ofList digits))
  else match Symbol.read? cs with
    | some (symbol, rest) => .ok (.symbol symbol, rest)
    | none => match cs with
      | [] => .error .empty
      | '*' :: rest => .ok (if afterOperand then .operator .multiply else .name "*", rest)
      | ':' :: _ => .error .strayColon
      | '!' :: _ => .error .strayBang
      | '$' :: rest => match readName? rest with
        | some (name, rest) => .ok (.reference name, rest)
        | none => .error .nameMissing
      | c :: rest =>
        if c = '"' || c = '\'' then
          match beforeFirst? [c] rest with
          | some body => .ok (.literal (String.ofList body), rest.drop (body.length + 1))
          | none => .error .openLiteral
        else match readName? cs with
          | some (name, rest) =>
            match namedOperators.find? (·.spelling == name), afterOperand with
            | some op, true => .ok (.operator op, rest)
            | _, _ => .ok (.name name, rest)
          | none => .error (.strayChar c)

/-! Every token takes at least one character. -/

theorem length_splitWhile_lt {p : Char → Bool} {c : Char} {cs front rest : List Char}
    (hc : p c = true) (h : splitWhile p (c :: cs) = (front, rest)) :
    rest.length < (c :: cs).length := by
  rw [splitWhile, List.dropWhile_cons_of_pos hc, Prod.mk.injEq] at h
  rw [← h.2]
  exact Nat.lt_succ_of_le (List.dropWhile_suffix p).length_le

theorem length_readPlainName?_lt {cs name rest : List Char}
    (h : readPlainName? cs = some (name, rest)) : rest.length < cs.length := by
  cases cs with
  | nil => simp [readPlainName?] at h
  | cons c cs =>
    simp only [readPlainName?] at h
    split at h
    · exact length_splitWhile_lt (by simp_all [isNameChar]) (Option.some.inj h)
    · simp at h

theorem length_readName?_lt {cs rest : List Char} {name : String}
    (h : readName? cs = some (name, rest)) : rest.length < cs.length := by
  simp only [readName?, Option.bind_eq_bind, Option.bind_eq_some_iff] at h
  obtain ⟨⟨first, after⟩, hfirst, h⟩ := h
  have := length_readPlainName?_lt hfirst
  simp only at h
  split at h
  · cases h
    simp only [List.length_cons] at this
    omega
  · split at h
    · rename_i hsecond
      have := length_readPlainName?_lt hsecond
      cases h
      simp only [List.length_cons] at *
      omega
    · cases h
      exact this
  · cases h
    exact this

theorem isNumberChar_of_startsNumber {c : Char} {cs : List Char}
    (h : startsNumber (c :: cs) = true) : isNumberChar c = true := by
  unfold startsNumber at h
  split at h <;> simp_all [isNumberChar]

theorem length_readToken_lt {afterOperand : Bool} {cs rest : List Char} {token : Token}
    (h : readToken afterOperand cs = .ok (token, rest)) : rest.length < cs.length := by
  unfold readToken at h
  split at h
  · rename_i hstart
    cases cs with
    | nil => simp [startsNumber] at hstart
    | cons c cs =>
      split at h
      rename_i hsplit
      split at h
      · cases h
        exact length_splitWhile_lt (isNumberChar_of_startsNumber hstart) hsplit
      · simp at h
  · split at h
    · rename_i hsymbol
      cases h
      exact Symbol.length_read?_lt hsymbol
    · split at h
      · simp at h
      · cases h; simp
      · simp at h
      · simp at h
      · split at h
        · rename_i hname
          have := length_readName?_lt hname
          cases h
          exact Nat.lt_succ_of_lt this
        · simp at h
      · split at h
        · split at h
          · cases h
            simp only [List.length_drop, List.length_cons]
            omega
          · simp at h
        · split at h
          · rename_i hname
            have := length_readName?_lt hname
            split at h <;> cases h <;> exact this
          · simp at h

/-- The tokens of a text, names not yet told apart; otherwise what is wrong, and the text from
there on. -/
def readTokens (afterOperand : Bool) (cs : List Char) :
    Except (PathFlaw × List Char) (List Lexeme) :=
  let text := cs.dropWhile isBlank
  if text.isEmpty then .ok []
  else match _ : readToken afterOperand text with
    | .error flaw => .error (flaw, text)
    | .ok (token, rest) =>
      match readTokens (endsOperand token) rest with
      | .error found => .error found
      | .ok lexemes => .ok (⟨token, text⟩ :: lexemes)
termination_by cs.length
decreasing_by
  exact Nat.lt_of_lt_of_le (length_readToken_lt ‹_›) (List.dropWhile_suffix isBlank).length_le

/-- The names that before a parenthesis are node types. -/
def nodeTypes : List String := ["comment", "text", "processing-instruction", "node"]

/-- What a name is before another token. -/
def classifyBefore (next : Token) : Token → Token
  | .name name =>
    match next with
    | .symbol .leftParen => if nodeTypes.contains name then .nodeType name else .function name
    | .symbol .colonColon => .axis name
    | _ => .name name
  | token => token

def classify : List Lexeme → List Lexeme
  | first :: next :: rest =>
    { first with token := classifyBefore next.token first.token } :: classify (next :: rest)
  | lexemes => lexemes

/-- The tokens of an expression. -/
def tokenize (expression : String) : Except PathError (List Lexeme) :=
  match readTokens false expression.toList with
  | .error (flaw, text) => .error (.misread (offsetIn expression text) flaw)
  | .ok lexemes => .ok (classify lexemes)

end Lexer

end XmlStore
