/-
The tokens that the text of an expression falls into. A name becomes an axis
only before `::`, and a node type only if there is one of its name; operators
that could be symbols are always symbols.
-/
import XmlStore.Proofs.Locators
import XmlStore.Proofs.Productions

namespace XmlStore

/-! ## Operators and symbols -/

theorem Symbol.mem_longestFirst (s : Symbol) : s ∈ longestFirst := by cases s <;> decide

/-- No two symbols are written the same. -/
theorem Symbol.eq_of_spelling {s other : Symbol} (h : s.spelling = other.spelling) : s = other := by
  have back (s : Symbol) : longestFirst.find? (·.spelling == s.spelling) = some s := by
    cases s <;> decide +kernel
  have same := back s
  rw [h, back other] at same
  exact (Option.some.inj same).symm

theorem BinaryOp.token_of_spelling {op : BinaryOp} {s : Symbol} (h : op.spelling = s.spelling) :
    op.token = .symbol s := by
  have letters : ∀ op ∈ [or, and, multiply, divide, modulo], ∀ s ∈ Symbol.longestFirst,
      op.spelling ≠ s.spelling := by decide +kernel
  cases op with
  | or | and | multiply | divide | modulo => exact absurd h (letters _ (by decide) s s.mem_longestFirst)
  | _ => exact congrArg Token.symbol (Symbol.eq_of_spelling h)

/-! ## Lexed tokens -/

/-- What is known of a token before names are told apart. -/
def Token.Raw : Token → Prop
  | .operator op => op.token = .operator op
  | .function _ | .nodeType _ | .axis _ => False
  | _ => True

/-- What is known of a token and the one behind it. -/
def Token.Fits (next : Option Token) : Token → Prop
  | .operator op => op.token = .operator op
  | .nodeType kind => kind ∈ Lexer.nodeTypes
  | .axis _ => next = some (.symbol .colonColon)
  | _ => True

/-- Tokens each of which fits before the next one. -/
def Lexed : List Token → Prop
  | [] => True
  | token :: rest => token.Fits rest.head? ∧ Lexed rest

theorem Lexed.behind {u v : List Token} (h : Lexed (u ++ v)) : Lexed v := by
  induction u with
  | nil => exact h
  | cons token u ih => exact ih h.2

namespace Lexer

variable {afterOperand : Bool} {cs rest : List Char} {token : Token} {tokens : List Token}
variable {lexemes : List Lexeme}

theorem token_of_named {op : BinaryOp} (h : op ∈ namedOperators) : op.token = .operator op := by
  revert op
  simp [namedOperators, BinaryOp.token]

theorem raw_readToken (h : readToken afterOperand cs = .ok (token, rest)) : token.Raw := by
  unfold readToken at h
  split at h
  · dsimp only at h
    split at h
    · cases h
      trivial
    · cases h
  · split at h
    · cases h
      trivial
    · split at h
      · cases h
      · cases h
        cases afterOperand
        · trivial
        · rfl
      · cases h
      · cases h
      · split at h
        · cases h
          trivial
        · cases h
      · split at h
        · split at h
          · cases h
            trivial
          · cases h
        · split at h
          · split at h
            · rename_i named
              cases h
              exact token_of_named (List.mem_of_find?_eq_some named)
            · cases h
              trivial
          · cases h

theorem raw_readTokens {cs : List Char} {lexemes : List Lexeme} (h : readTokens afterOperand cs = .ok lexemes) :
    ∀ l ∈ lexemes, l.token.Raw := by
  induction lexemes generalizing afterOperand cs with
  | nil => exact fun _ none => absurd none List.not_mem_nil
  | cons first lexemes ih =>
    rw [readTokens] at h
    split at h
    · cases h
    · split at h
      · cases h
      · rename_i read
        split at h
        · cases h
        · rename_i later
          cases h
          exact List.forall_mem_cons.mpr ⟨raw_readToken read, ih later⟩

theorem fits_classifyAmong (raw : token.Raw) : (classifyAmong tokens token).Fits tokens.head? := by
  cases tokens with
  | nil =>
    cases token with
    | operator => exact raw
    | function | nodeType | «axis» => exact raw.elim
    | _ => trivial
  | cons next tokens =>
    cases token with
    | operator => exact raw
    | function | nodeType | «axis» => exact raw.elim
    | name name =>
      unfold classifyAmong classifyBefore
      dsimp only
      split
      · split
        · rename_i known
          exact List.contains_iff_mem.mp known
        · trivial
      · rfl
      · trivial
    | _ => trivial

theorem lexed_classify (raw : ∀ l ∈ lexemes, l.token.Raw) : Lexed ((classify lexemes).map (·.token)) := by
  induction lexemes with
  | nil => trivial
  | cons first lexemes ih =>
    rw [List.forall_mem_cons] at raw
    rw [map_token_classify]
    exact ⟨fits_classifyAmong raw.1, ih raw.2⟩

theorem lexed_tokenize {s : String} (h : tokenize s = .ok lexemes) : Lexed (lexemes.map (·.token)) := by
  rw [tokenize] at h
  split at h
  · cases h
  · rename_i read
    cases h
    exact lexed_classify (raw_readTokens read)

end Lexer

end XmlStore
