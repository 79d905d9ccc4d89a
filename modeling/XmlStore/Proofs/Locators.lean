/-
Locations as tokens. A location is a slash and a step, again and again, and
falls into tokens piece by piece: what a piece is read as depends on what is
before it only by whether an operand ends there, and on what is behind it only
by the next token.
-/
import XmlStore.Path.Lexer
import XmlStore.Proofs.PlainNames
import XmlStore.Proofs.WholeDoubles

namespace XmlStore

namespace Lexer

variable {afterOperand : Bool} {cs rest : List Char} {token : Token} {tokens : List Token}
variable {lexemes : List Lexeme} {ch : Char} {name : String} {n : Nat}

/-- The text falls into these tokens, names told apart. -/
def Lexes (afterOperand : Bool) (cs : List Char) (tokens : List Token) : Prop :=
  ∃ lexemes, readTokens afterOperand cs = .ok lexemes ∧ (classify lexemes).map (·.token) = tokens

/-- What a token is before others. -/
def classifyAmong : List Token → Token → Token
  | [], token => token
  | next :: _, token => classifyBefore next token

/-! ## One token and those behind it -/

theorem classifyBefore_cases (next token : Token) : classifyBefore next token = token ∨
    ∃ s, token = .name s ∧ (classifyBefore next token = .nodeType s ∨
      classifyBefore next token = .function s ∨ classifyBefore next token = .axis s) := by
  unfold classifyBefore
  split
  · rename_i s
    split
    · split
      · exact .inr ⟨s, rfl, .inl rfl⟩
      · exact .inr ⟨s, rfl, .inr (.inl rfl)⟩
    · exact .inr ⟨s, rfl, .inr (.inr rfl)⟩
    · exact .inl rfl
  · exact .inl rfl

/-- For a token it makes no difference whether the next one has been told apart. -/
theorem classifyBefore_classifyBefore (after next token : Token) :
    classifyBefore (classifyBefore after next) token = classifyBefore next token := by
  rcases classifyBefore_cases after next with e | ⟨s, rfl, e | e | e⟩
  · rw [e]
  · rw [e]
    cases token <;> rfl
  · rw [e]
    cases token <;> rfl
  · rw [e]
    cases token <;> rfl

theorem map_token_classify (first : Lexeme) :
    (classify (first :: lexemes)).map (·.token) =
      classifyAmong ((classify lexemes).map (·.token)) first.token ::
        (classify lexemes).map (·.token) := by
  cases lexemes with
  | nil => rfl
  | cons next lexemes =>
    rw [classify, List.map_cons]
    refine congrArg (· :: _) ?_
    cases lexemes with
    | nil => rfl
    | cons after lexemes =>
      rw [classify, List.map_cons, classifyAmong]
      exact (classifyBefore_classifyBefore after.token next.token first.token).symm

theorem lexes_nil : Lexes afterOperand [] [] := by
  refine ⟨[], ?_, rfl⟩
  rw [readTokens]
  rfl

theorem lexes_cons (solid : ∀ ch ∈ cs.head?, isBlank ch = false)
    (read : readToken afterOperand cs = .ok (token, rest)) (more : Lexes (endsOperand token) rest tokens) :
    Lexes afterOperand cs (classifyAmong tokens token :: tokens) := by
  obtain ⟨lexemes, later, rfl⟩ := more
  cases cs with
  | nil => cases read
  | cons ch cs =>
    have text : (ch :: cs).dropWhile isBlank = ch :: cs :=
      List.dropWhile_cons_of_neg (by simp [solid ch rfl])
    refine ⟨⟨token, ch :: cs⟩ :: lexemes, ?_, map_token_classify _⟩
    rw [readTokens, text, if_neg (by simp)]
    split
    · rename_i read'
      rw [read] at read'
      cases read'
    · rename_i read'
      rw [read] at read'
      cases read'
      rw [later]

/-! ## Symbols, names, numbers and literals -/

/-- Apart from the colon, symbols have no characters that names start with. -/
theorem not_starts_of_symbol (s : Symbol) :
    s.spelling.toList.head?.any (fun ch => ch = ':' || !isNameStart ch) = true := by
  cases s <;> decide

theorem read?_eq_none (other : ∀ s : Symbol, s.spelling.toList.head? ≠ some ch) :
    Symbol.read? (ch :: cs) = none := by
  rw [Symbol.read?, List.findSome?_eq_none_iff]
  intro s _
  rw [Option.map_eq_none_iff]
  have nonempty := not_starts_of_symbol s
  have apart := other s
  cases e : s.spelling.toList with
  | nil => rw [e] at nonempty; cases nonempty
  | cons first more =>
    rw [e] at apart
    have ne : (first == ch) = false := by simpa using apart
    show (if first == ch then more.isPrefixOf? cs else none) = none
    rw [ne]
    rfl

theorem splitWhile_append {p : Char → Bool} {front : List Char} (all : ∀ ch ∈ front, p ch = true)
    (stops : ∀ ch ∈ rest.head?, p ch = false) : splitWhile p (front ++ rest) = (front, rest) := by
  have behind : rest.takeWhile p = [] ∧ rest.dropWhile p = rest := by
    cases rest with
    | nil => exact ⟨rfl, rfl⟩
    | cons ch rest =>
      have other : ¬ p ch = true := by simp [stops ch rfl]
      exact ⟨List.takeWhile_cons_of_neg other, List.dropWhile_cons_of_neg other⟩
  rw [splitWhile, List.takeWhile_append_of_pos all, List.dropWhile_append_of_pos all, behind.1, behind.2,
    List.append_nil]

theorem readPlainName?_plain (plain : IsPlain name)
    (stops : ∀ ch ∈ rest.head?, (ch ≠ ':' && isNameChar ch) = false) :
    readPlainName? (name.toList ++ rest) = some (name.toList, rest) := by
  obtain ⟨⟨first, hfirst, starts⟩, further⟩ := plain
  obtain ⟨more, hname⟩ := List.head?_eq_some_iff.mp hfirst
  have inner : ∀ ch ∈ name.toList, (ch ≠ ':' && isNameChar ch) = true := by
    intro ch hch
    simp [further ch hch]
  rw [← splitWhile_append inner stops, hname, List.cons_append, readPlainName?]
  exact if_pos (by simp [starts, further first (List.mem_of_mem_head? hfirst)])

theorem readName?_plain (plain : IsPlain name) (stops : ∀ ch ∈ rest.head?, isNameChar ch = false) :
    readName? (name.toList ++ rest) = some (name, rest) := by
  have plain : readPlainName? (name.toList ++ rest) = some (name.toList, rest) :=
    readPlainName?_plain plain fun ch hch => by simp [stops ch hch]
  have colon : rest.head? ≠ some ':' := by
    intro e
    have := stops ':' e
    exact absurd this (by decide)
  rw [readName?, plain]
  dsimp only [Option.bind_eq_bind, Option.bind]
  rw [String.ofList_toList]
  split
  · exact absurd rfl colon
  · exact absurd rfl colon
  · rfl

theorem readName?_qualified {qualifier : String} (plain : IsPlain qualifier) (plain' : IsPlain name)
    (stops : ∀ ch ∈ rest.head?, isNameChar ch = false) :
    readName? ((QName.mk (some qualifier) name).text.toList ++ rest) =
      some ((QName.mk (some qualifier) name).text, rest) := by
  have outer : readPlainName? (qualifier.toList ++ ':' :: (name.toList ++ rest)) =
      some (qualifier.toList, ':' :: (name.toList ++ rest)) :=
    readPlainName?_plain plain (by rintro _ ⟨⟩; decide)
  have inner : readPlainName? (name.toList ++ rest) = some (name.toList, rest) :=
    readPlainName?_plain plain' fun ch hch => by simp [stops ch hch]
  have spelled : (QName.mk (some qualifier) name).text.toList = qualifier.toList ++ ':' :: name.toList := by
    simp [QName.text]
  have whole : String.ofList (qualifier.toList ++ ':' :: name.toList) = (QName.mk (some qualifier) name).text := by
    rw [← spelled, String.ofList_toList]
  obtain ⟨⟨first, hfirst, starts⟩, -⟩ := plain'
  obtain ⟨more, hname⟩ := List.head?_eq_some_iff.mp hfirst
  rw [spelled, List.append_assoc, List.cons_append, readName?, outer]
  dsimp only [Option.bind_eq_bind, Option.bind]
  split
  · rename_i e
    rw [hname] at e
    obtain ⟨rfl, -⟩ := List.cons_eq_cons.mp (List.cons_eq_cons.mp e).2
    exact absurd starts (by decide)
  · rename_i e
    rw [← (List.cons_eq_cons.mp e).2, inner]
    exact congrArg (fun s => some (s, rest)) whole
  · rename_i other
    exact absurd rfl (other _)

/-- What is read as a name is a name token where an operand may stand. -/
theorem readToken_of_readName? (starts : ∃ ch ∈ cs.head?, isNameStart ch = true ∧ ch ≠ ':')
    (named : readName? cs = some (name, rest)) : readToken false cs = .ok (.name name, rest) := by
  obtain ⟨first, hfirst, starts, proper⟩ := starts
  obtain ⟨more, rfl⟩ := List.head?_eq_some_iff.mp hfirst
  have ne (other : Char) (h : isNameStart other = false) : first ≠ other := by
    rintro rfl
    rw [h] at starts
    cases starts
  have number : startsNumber (first :: more) = false := by
    unfold startsNumber
    split
    · rename_i e
      exact absurd (List.cons_eq_cons.mp e).1 (ne _ (by decide))
    · rename_i e
      rw [← (List.cons_eq_cons.mp e).1]
      exact not_isDigit_of_starts starts
    · rfl
  have symbol : Symbol.read? (first :: more) = none := by
    refine read?_eq_none fun s e => ?_
    have other := not_starts_of_symbol s
    rw [e, Option.any_some, starts] at other
    exact proper (by simpa using other)
  unfold readToken
  rw [if_neg (by rw [number]; decide), symbol]
  dsimp only
  split
  · rename_i e
    cases e
  · rename_i e
    exact absurd (List.cons_eq_cons.mp e).1 (ne _ (by decide))
  · rename_i e
    exact absurd (List.cons_eq_cons.mp e).1 proper
  · rename_i e
    exact absurd (List.cons_eq_cons.mp e).1 (ne _ (by decide))
  · rename_i e
    exact absurd (List.cons_eq_cons.mp e).1 (ne _ (by decide))
  · rename_i ch more' _ _ _ _ e
    obtain ⟨rfl, -⟩ := List.cons_eq_cons.mp e
    rw [if_neg (by simp [ne '"' (by decide), ne '\'' (by decide)]), named]
    dsimp only
    split
    · rename_i e
      cases e
    · rfl

theorem starts_of_isPlain (plain : IsPlain name) :
    ∃ ch ∈ (name.toList ++ rest).head?, isNameStart ch = true ∧ ch ≠ ':' := by
  obtain ⟨⟨first, hfirst, starts⟩, further⟩ := plain
  have proper := (further first (List.mem_of_mem_head? hfirst)).2
  obtain ⟨more, hname⟩ := List.head?_eq_some_iff.mp hfirst
  exact ⟨first, by rw [hname]; rfl, starts, proper⟩

theorem begins_toDigits (n : Nat) :
    ∃ first more, Nat.toDigits 10 n = first :: more ∧ first.isDigit = true := by
  obtain ⟨first, more, e⟩ := List.exists_cons_of_ne_nil (Nat.toDigits_ne_nil (n := n) (b := 10))
  have mem : first ∈ Nat.toDigits 10 n := e ▸ List.mem_cons_self
  exact ⟨first, more, e, Nat.isDigit_of_mem_toDigits (by decide) (by decide) mem⟩

theorem readToken_number (pos : 0 < n) (bounded : n < 2 ^ 53)
    (stops : ∀ ch ∈ rest.head?, isNumberChar ch = false) :
    readToken afterOperand (Nat.toDigits 10 n ++ rest) = .ok (.number (Float.ofNat n), rest) := by
  have begins : startsNumber (Nat.toDigits 10 n ++ rest) = true := by
    obtain ⟨first, more, e, digit⟩ := begins_toDigits n
    rw [e, List.cons_append]
    unfold startsNumber
    split
    · rename_i e
      rw [(List.cons_eq_cons.mp e).1] at digit
      cases digit
    · rename_i e
      rw [← (List.cons_eq_cons.mp e).1]
      exact digit
    · rename_i e
      cases e
  have all : ∀ ch ∈ Nat.toDigits 10 n, isNumberChar ch = true := by
    intro ch hch
    rw [isNumberChar, Nat.isDigit_of_mem_toDigits (by decide) (by decide) hch, Bool.true_or]
  unfold readToken
  rw [if_pos begins, splitWhile_append all stops]
  dsimp only
  rw [readUnsigned?_toDigits pos bounded]

theorem readToken_literal {s : String} (clear : ∀ ch ∈ s.toList, ch ≠ '\'') :
    readToken afterOperand ('\'' :: (s.toList ++ '\'' :: rest)) = .ok (.literal s, rest) := by
  have symbol : Symbol.read? ('\'' :: (s.toList ++ '\'' :: rest)) = none := by
    refine read?_eq_none fun s => ?_
    cases s <;> decide
  have number : ¬ startsNumber ('\'' :: (s.toList ++ '\'' :: rest)) = true := Bool.false_ne_true
  have behind : (s.toList ++ '\'' :: rest).drop (s.toList.length + 1) = rest := by simp
  unfold readToken
  rw [if_neg number, symbol]
  simp [beforeFirst?_quote clear, behind]

theorem readToken_slash (single : rest.head? ≠ some '/') :
    readToken afterOperand ('/' :: rest) = .ok (.symbol .slash, rest) := by
  have symbol : Symbol.read? ('/' :: rest) = some (.slash, rest) := by
    cases rest with
    | nil => rfl
    | cons ch rest =>
      have other : ('/' == ch) = false := by simpa using fun e => single (congrArg some e.symm)
      simp [Symbol.read?, Symbol.longestFirst, Symbol.spelling, List.isPrefixOf?, other]
  have number : ¬ startsNumber ('/' :: rest) = true := Bool.false_ne_true
  unfold readToken
  rw [if_neg number, symbol]

/-- The other symbols of locations are of one character, with which no longer symbol begins. -/
theorem readToken_symbol :
    readToken afterOperand ('(' :: rest) = .ok (.symbol .leftParen, rest) ∧
    readToken afterOperand (')' :: rest) = .ok (.symbol .rightParen, rest) ∧
    readToken afterOperand ('[' :: rest) = .ok (.symbol .leftBracket, rest) ∧
    readToken afterOperand (']' :: rest) = .ok (.symbol .rightBracket, rest) ∧
    readToken afterOperand ('@' :: rest) = .ok (.symbol .atSign, rest) :=
  ⟨rfl, rfl, rfl, rfl, rfl⟩

/-! ## Pieces of locations -/

theorem classifyAmong_symbol (tokens : List Token) (s : Symbol) :
    classifyAmong tokens (.symbol s) = .symbol s := by
  cases tokens <;> rfl

theorem lexes_symbol {s : Symbol} (solid : isBlank ch = false)
    (read : readToken afterOperand (ch :: rest) = .ok (.symbol s, rest))
    (more : Lexes (endsOperand (.symbol s)) rest tokens) :
    Lexes afterOperand (ch :: rest) (.symbol s :: tokens) := by
  have lexes := lexes_cons (by simpa using solid) read more
  rwa [classifyAmong_symbol] at lexes

theorem lexes_slash (single : rest.head? ≠ some '/') (more : Lexes false rest tokens) :
    Lexes afterOperand ('/' :: rest) (.symbol .slash :: tokens) :=
  lexes_symbol (by decide) (readToken_slash single) more

theorem lexes_readName? (starts : ∃ ch ∈ cs.head?, isNameStart ch = true ∧ ch ≠ ':')
    (named : readName? cs = some (name, rest)) (more : Lexes true rest tokens) :
    Lexes false cs (classifyAmong tokens (.name name) :: tokens) := by
  refine lexes_cons (fun ch hch => ?_) (readToken_of_readName? starts named) more
  obtain ⟨first, hfirst, starts, -⟩ := starts
  obtain rfl := Option.some.inj ((Option.mem_def.mp hch).symm.trans (Option.mem_def.mp hfirst))
  exact not_blank_of_starts starts

theorem lexes_name (plain : IsPlain name) (stops : ∀ ch ∈ rest.head?, isNameChar ch = false)
    (more : Lexes true rest tokens) :
    Lexes false (name.toList ++ rest) (classifyAmong tokens (.name name) :: tokens) :=
  lexes_readName? (starts_of_isPlain plain) (readName?_plain plain stops) more

/-- A position in brackets. -/
theorem lexes_position (pos : 0 < n) (bounded : n < 2 ^ 53) (more : Lexes true rest tokens) :
    Lexes afterOperand ('[' :: (Nat.toDigits 10 n ++ ']' :: rest))
      (.symbol .leftBracket :: .number (Float.ofNat n) :: .symbol .rightBracket :: tokens) := by
  have closing : Lexes true (']' :: rest) (.symbol .rightBracket :: tokens) :=
    lexes_symbol (by decide) readToken_symbol.2.2.2.1 more
  have stops : ∀ ch ∈ (']' :: rest).head?, isNumberChar ch = false := by
    rintro _ ⟨⟩
    decide
  have read : readToken false (Nat.toDigits 10 n ++ ']' :: rest) = .ok (.number (Float.ofNat n), ']' :: rest) :=
    readToken_number pos bounded stops
  refine lexes_symbol (by decide) readToken_symbol.2.2.1 (lexes_cons (fun ch hch => ?_) read closing)
  obtain ⟨first, more, e, digit⟩ := begins_toDigits n
  rw [e] at hch
  obtain rfl := Option.some.inj hch
  rw [Bool.eq_false_iff]
  intro blank
  simp only [isBlank, Bool.or_eq_true, decide_eq_true_eq] at blank
  rcases blank with ((rfl | rfl) | rfl) | rfl <;> cases digit

/-- A node type with what stands in its parentheses. -/
theorem lexes_kind {kind : String} (known : nodeTypes.contains kind = true) (plain : IsPlain kind)
    (more : Lexes false rest tokens) :
    Lexes false (kind.toList ++ '(' :: rest) (.nodeType kind :: .symbol .leftParen :: tokens) := by
  have stops : ∀ ch ∈ ('(' :: rest).head?, isNameChar ch = false := by
    rintro _ ⟨⟩
    decide
  have opened : Lexes true ('(' :: rest) (.symbol .leftParen :: tokens) :=
    lexes_symbol (by decide) readToken_symbol.1 more
  have named := lexes_name plain stops opened
  have typed : classifyAmong (.symbol .leftParen :: tokens) (.name kind) = .nodeType kind := if_pos known
  rwa [typed] at named

end Lexer

/-! ## Steps of locations -/

/-- What locations test for. -/
inductive Locates : NodeTest → Prop where
  | name {name : String} (plain : IsPlain name) : Locates (.name ⟨none, name⟩)
  | text : Locates .text
  | comment : Locates .comment
  | instruction {target : String} (clear : ∀ ch ∈ target.toList, ch ≠ '\'') :
      Locates (.instruction (some target))

/-- The tokens of a test for a type of node. -/
def kindTokens (kind : String) (arguments : List Token) : List Token :=
  .nodeType kind :: .symbol .leftParen :: (arguments ++ [.symbol .rightParen])

/-- The tokens that what a location tests for is written as. -/
def NodeTest.tokens : NodeTest → List Token
  | name n => [.name n.text]
  | text => kindTokens "text" []
  | comment => kindTokens "comment" []
  | instruction (some target) => kindTokens "processing-instruction" [.literal target]
  | _ => []

/-- A step of a location: what it tests for, and the position among the siblings that pass the test
where that is not enough. -/
structure Locator where
  test : NodeTest
  position : Option Nat

namespace Locator

def text (l : Locator) : List Char :=
  l.test.spelling.toList ++ l.position.elim [] fun n => '[' :: (Nat.toDigits 10 n ++ [']'])

def tokens (l : Locator) : List Token :=
  l.test.tokens ++ l.position.elim [] fun n =>
    [.symbol .leftBracket, .number (Float.ofNat n), .symbol .rightBracket]

/-- The step that a locator stands for. -/
def step (l : Locator) : Step :=
  .mk .child l.test (l.position.elim [] fun n => [.number (Float.ofNat n)])

/-- A locator that is read as it is written. -/
structure Readable (l : Locator) : Prop where
  test : Locates l.test
  position : ∀ n ∈ l.position, 0 < n ∧ n < 2 ^ 53

end Locator

namespace Lexer

variable {l : Locator} {rest : List Char} {tokens : List Token} {b : Bool}

theorem lexes_test {test : NodeTest} (locates : Locates test)
    (stops : ∀ ch ∈ rest.head?, isNameChar ch = false)
    (alone : ∀ s, classifyAmong tokens (.name s) = .name s) (more : Lexes true rest tokens) :
    Lexes false (test.spelling.toList ++ rest) (test.tokens ++ tokens) := by
  have closing {b : Bool} : Lexes b (')' :: rest) (.symbol .rightParen :: tokens) :=
    lexes_symbol (by decide) readToken_symbol.2.1 more
  have plain {kind : String} (h : kind = "text" ∨ kind = "comment" ∨ kind = "processing-instruction") :
      IsPlain kind := by
    rcases h with rfl | rfl | rfl
    · exact isPlain_of_all (by decide) (by decide)
    · exact isPlain_of_all (by decide) (by decide)
    · exact isPlain_of_all (by decide) (by decide)
  cases locates with
  | name named =>
    have lexes := lexes_name named stops more
    rw [alone] at lexes
    exact lexes
  | text => exact lexes_kind (by decide) (plain (.inl rfl)) closing
  | comment => exact lexes_kind (by decide) (plain (.inr (.inl rfl))) closing
  | @instruction target clear =>
    have literal : Lexes false ('\'' :: (target.toList ++ '\'' :: (')' :: rest)))
        (.literal target :: .symbol .rightParen :: tokens) :=
      lexes_cons (by rintro _ ⟨⟩; decide) (readToken_literal clear) closing
    have lexes := lexes_kind (by decide) (plain (.inr (.inr rfl))) literal
    have opening : "processing-instruction('".toList = "processing-instruction".toList ++ ['(', '\''] :=
      rfl
    have spelled : (NodeTest.instruction (some target)).spelling.toList ++ rest =
        "processing-instruction".toList ++ '(' :: '\'' :: (target.toList ++ '\'' :: (')' :: rest)) := by
      show ("processing-instruction('" ++ target ++ "')").toList ++ rest = _
      rw [String.toList_append, String.toList_append, opening]
      simp only [List.append_assoc, List.cons_append, List.nil_append]
      rfl
    rw [spelled]
    exact lexes

/-- Where a step ends: at the end of a location, or before the next slash. -/
inductive EndsStep : List Char → List Token → Prop where
  | nil : EndsStep [] []
  | slash {rest : List Char} {tokens : List Token} : EndsStep ('/' :: rest) (.symbol .slash :: tokens)

theorem lexes_locator (readable : l.Readable) (ends : EndsStep rest tokens) (more : Lexes true rest tokens) :
    Lexes false (l.text ++ rest) (l.tokens ++ tokens) := by
  rw [Locator.text, Locator.tokens, List.append_assoc, List.append_assoc]
  cases e : l.position with
  | none =>
    refine lexes_test readable.test ?_ ?_ more
    · cases ends with
      | nil => exact nofun
      | slash => rintro _ ⟨⟩; decide
    · cases ends <;> exact fun _ => rfl
  | some n =>
    obtain ⟨pos, bounded⟩ := readable.position n e
    refine lexes_test readable.test ?_ (fun _ => rfl) ?_
    · rintro _ ⟨⟩
      decide
    · dsimp only [Option.elim]
      rw [List.cons_append, List.append_assoc]
      exact lexes_position pos bounded more

/-- A test does not begin with a slash. -/
theorem head?_text_ne (readable : l.Readable) : (l.text ++ rest).head? ≠ some '/' := by
  have spelled : ∃ first ∈ l.test.spelling.toList.head?, first ≠ '/' := by
    have locates := readable.test
    generalize l.test = test at locates ⊢
    cases locates with
    | name plain =>
      obtain ⟨first, hfirst, starts⟩ := plain.starts
      refine ⟨first, hfirst, ?_⟩
      rintro rfl
      exact absurd starts (by decide)
    | text => exact ⟨'t', rfl, by decide⟩
    | comment => exact ⟨'c', rfl, by decide⟩
    | @instruction target =>
      refine ⟨'p', ?_, by decide⟩
      show _ ∈ ("processing-instruction('" ++ target ++ "')").toList.head?
      rw [String.toList_append, String.toList_append]
      rfl
  obtain ⟨first, hfirst, ne⟩ := spelled
  obtain ⟨more, e⟩ := List.head?_eq_some_iff.mp hfirst
  rw [Locator.text, e]
  exact fun found => ne (Option.some.inj found)

theorem lexes_locators {ls : List Locator} (readable : ∀ l ∈ ls, l.Readable) (ends : EndsStep rest tokens)
    (more : ∀ b, Lexes b rest tokens) (b : Bool) :
    Lexes b (ls.flatMap (fun l => '/' :: l.text) ++ rest)
      (ls.flatMap (fun l => .symbol .slash :: l.tokens) ++ tokens) := by
  induction ls generalizing b with
  | nil => exact more b
  | cons l ls ih =>
    rw [List.forall_mem_cons] at readable
    rw [List.flatMap_cons, List.flatMap_cons, List.append_assoc, List.append_assoc]
    refine lexes_slash (head?_text_ne readable.1) (lexes_locator readable.1 ?_ (ih readable.2 true))
    cases ls with
    | nil => exact ends
    | cons => exact .slash

/-- The step to an attribute of a plain name. -/
theorem lexes_attribute {name : String} (plain : IsPlain name) (b : Bool) :
    Lexes b ('/' :: '@' :: name.toList) [.symbol .slash, .symbol .atSign, .name name] := by
  have stops : ∀ ch ∈ ([] : List Char).head?, isNameChar ch = false := nofun
  have named := lexes_name plain stops lexes_nil
  rw [List.append_nil] at named
  have single : ('@' :: name.toList).head? ≠ some '/' := by
    rintro ⟨⟩
  exact lexes_slash single (lexes_symbol (by decide) readToken_symbol.2.2.2.2 named)

end Lexer

end XmlStore
