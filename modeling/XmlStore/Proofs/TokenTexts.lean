/-
How the tokens of an expression lie in its text. Every token is written in one
of a few ways, and what is read at a place is one of them, taken from the front
of the text. So the tokens lie one behind the other with nothing but blanks
between them; names that are told apart afterwards are written as before. The
scanner itself is followed without a bound on its passes: it takes a character
at least for every token, and therefore stops.
-/
import XmlStore.Proofs.Positions
import XmlStore.Proofs.Tokens

namespace XmlStore

/-! ## How tokens are written -/

/-- A plain name, or two of them joined by a colon. -/
inductive IsQualified : String → Prop where
  | plain {name : String} (plain : IsPlain name) : IsQualified name
  | joined {qualifier localPart : String} (outer : IsPlain qualifier) (inner : IsPlain localPart) :
    IsQualified (QName.mk (some qualifier) localPart).text

/-- A plain name and `*` joined by a colon. -/
inductive IsAnyOf : String → Prop where
  | mk {qualifier : String} (outer : IsPlain qualifier) : IsAnyOf (QName.mk (some qualifier) "*").text

/-- What may stand where nodes are tested for their names. -/
inductive IsNameTest : String → Prop where
  | qualified {name : String} (qualified : IsQualified name) : IsNameTest name
  | anyOf {name : String} (anyOf : IsAnyOf name) : IsNameTest name
  | any : IsNameTest "*"

/-- How a token is written. A number is digits with one point at most, a literal stands between quotes of
a kind that it does not contain. -/
inductive Token.Writes : Token → List Char → Prop where
  | symbol (s : Symbol) : Writes (.symbol s) s.spelling.toList
  | operator (op : BinaryOp) : Writes (.operator op) op.spelling.toList
  | whole {digits : List Char} (filled : digits ≠ []) (all : ∀ ch ∈ digits, ch.isDigit = true) :
    Writes (.number (floatOfDecimal (natOfDigits digits) 0)) digits
  | pointed {whole fraction : List Char} (filled : whole ++ fraction ≠ [])
    (all : ∀ ch ∈ whole ++ fraction, ch.isDigit = true) :
    Writes (.number (floatOfDecimal (natOfDigits (whole ++ fraction)) (-fraction.length)))
      (whole ++ '.' :: fraction)
  | literal {quote : Char} {s : String} (quotes : quote = '"' ∨ quote = '\'')
    (clear : ∀ ch ∈ s.toList, ch ≠ quote) : Writes (.literal s) (quote :: (s.toList ++ [quote]))
  | name {s : String} (form : IsNameTest s) : Writes (.name s) s.toList
  | reference {s : String} (form : IsQualified s ∨ IsAnyOf s) : Writes (.reference s) ('$' :: s.toList)
  | function {s : String} (form : IsNameTest s) (other : s ∉ Lexer.nodeTypes) : Writes (.function s) s.toList
  | nodeType {s : String} (known : s ∈ Lexer.nodeTypes) : Writes (.nodeType s) s.toList
  | axis {s : String} (form : IsNameTest s) : Writes (.axis s) s.toList

theorem toList_joined (qualifier localPart : String) :
    (QName.mk (some qualifier) localPart).text.toList = qualifier.toList ++ ':' :: localPart.toList := by
  simp [QName.text]

/-- What names begin with: what may start one, but for the colon. -/
def BeginsName (text : List Char) : Prop := ∃ ch ∈ text.head?, isNameStart ch = true ∧ ch ≠ ':'

theorem BeginsName.ne_nil {text : List Char} (begins : BeginsName text) : text ≠ [] := by
  obtain ⟨ch, here, -⟩ := begins
  exact List.ne_nil_of_mem (List.mem_of_mem_head? here)

theorem BeginsName.append {text : List Char} (begins : BeginsName text) (behind : List Char) :
    BeginsName (text ++ behind) := by
  rwa [BeginsName, List.head?_append_of_ne_nil _ begins.ne_nil]

theorem IsPlain.begins {name : String} (plain : IsPlain name) : BeginsName name.toList := by
  obtain ⟨ch, here, starts⟩ := plain.starts
  exact ⟨ch, here, starts, (plain.further ch (List.mem_of_mem_head? here)).2⟩

theorem IsQualified.begins {name : String} (qualified : IsQualified name) : BeginsName name.toList := by
  cases qualified with
  | plain plain => exact plain.begins
  | joined outer =>
    rw [toList_joined]
    exact outer.begins.append _

theorem IsAnyOf.begins {name : String} (anyOf : IsAnyOf name) : BeginsName name.toList := by
  cases anyOf with
  | mk outer =>
    rw [toList_joined]
    exact outer.begins.append _

theorem IsNameTest.begins {name : String} (form : IsNameTest name) (other : name ≠ "*") : BeginsName name.toList := by
  cases form with
  | qualified qualified => exact qualified.begins
  | anyOf anyOf => exact anyOf.begins
  | any => exact absurd rfl other

theorem IsNameTest.toList_ne_nil {name : String} (form : IsNameTest name) : name.toList ≠ [] := by
  by_cases star : name = "*"
  · rw [star]
    decide
  · exact (form.begins star).ne_nil

/-- No token is written as nothing. -/
theorem Token.Writes.ne_nil {token : Token} {spelling : List Char} (writes : token.Writes spelling) :
    spelling ≠ [] := by
  cases writes with
  | symbol s => cases s <;> decide
  | operator op => cases op <;> decide
  | whole filled => exact filled
  | pointed => exact List.append_ne_nil_of_right_ne_nil _ (List.cons_ne_nil _ _)
  | literal | reference => exact List.cons_ne_nil _ _
  | name form | function form | «axis» form => exact form.toList_ne_nil
  | nodeType known =>
    have each : ∀ s ∈ Lexer.nodeTypes, s.toList ≠ [] := by decide
    exact each _ known

/-- A name that is told apart before another token is written as before. -/
theorem Token.Writes.classifyBefore {token : Token} {spelling : List Char} (writes : token.Writes spelling)
    (next : Token) : (Lexer.classifyBefore next token).Writes spelling := by
  cases writes with
  | name form =>
    unfold Lexer.classifyBefore
    dsimp only
    split
    · split
      · rename_i known
        exact .nodeType (List.contains_iff_mem.mp known)
      · rename_i other
        exact .function form fun known => other (List.contains_iff_mem.mpr known)
    · exact .axis form
    · exact .name form
  | symbol s => exact .symbol s
  | operator op => exact .operator op
  | whole filled all => exact .whole filled all
  | pointed filled all => exact .pointed filled all
  | literal quotes clear => exact .literal quotes clear
  | reference form => exact .reference form
  | function form other => exact .function form other
  | nodeType known => exact .nodeType known
  | «axis» form => exact .axis form

/-! ## What is read at a place -/

namespace Lexer

variable {afterOperand : Bool} {cs rest text stop : List Char} {name s : String} {token : Token}
variable {lexemes : List Lexeme} {flaw : Option PathFlaw}

/-- No exponent is written with the characters of numbers. -/
theorem readExponent?_eq_some {n : Int} (numeric : ∀ ch ∈ cs, isNumberChar ch = true)
    (read : readExponent? cs = some n) : cs = [] ∧ n = 0 := by
  cases cs with
  | nil => exact ⟨rfl, (Option.some.inj read).symm⟩
  | cons mark cs =>
    have own := numeric mark List.mem_cons_self
    unfold readExponent? at read
    dsimp only at read
    split at read
    · rename_i marked
      simp only [Bool.and_eq_true, Bool.or_eq_true, decide_eq_true_eq] at marked
      rcases marked.1.1 with rfl | rfl <;> exact absurd own (by decide)
    · cases read

/-- Behind its first digits, what is written with the characters of numbers ends or has a point. -/
theorem dropWhile_isDigit (numeric : ∀ ch ∈ cs, isNumberChar ch = true) :
    cs.dropWhile Char.isDigit = [] ∨ ∃ behind, cs.dropWhile Char.isDigit = '.' :: behind := by
  cases e : cs.dropWhile Char.isDigit with
  | nil => exact .inl rfl
  | cons ch behind =>
    have other := List.head?_dropWhile_not Char.isDigit cs
    rw [e] at other
    have own := numeric ch ((List.dropWhile_suffix _).subset (e ▸ List.mem_cons_self))
    rw [isNumberChar, Bool.or_eq_true, decide_eq_true_eq] at own
    rcases own with digit | rfl
    · simp [digit] at other
    · exact .inr ⟨behind, rfl⟩

theorem writes_readUnsigned? {x : Float} (numeric : ∀ ch ∈ cs, isNumberChar ch = true)
    (read : readUnsigned? cs = some x) : (Token.number x).Writes cs := by
  have parts : cs.takeWhile Char.isDigit ++ cs.dropWhile Char.isDigit = cs := List.takeWhile_append_dropWhile
  have digits : ∀ ch ∈ cs.takeWhile Char.isDigit, ch.isDigit = true := fun ch => List.mem_takeWhile_imp
  rw [readUnsigned?, List.span_eq_takeWhile_dropWhile] at read
  generalize cs.takeWhile Char.isDigit = whole at *
  rcases dropWhile_isDigit numeric with none | ⟨behind, point⟩
  · rw [none] at read parts
    obtain rfl : whole = cs := by simpa using parts
    dsimp only at read
    split at read
    · cases read
    · rename_i filled
      obtain ⟨_, ⟨⟩, value⟩ := Option.bind_eq_some_iff.mp read
      cases value
      rw [List.append_nil]
      exact .whole (by simpa using filled) digits
  · rw [point] at read parts
    subst parts
    have numeric' : ∀ ch ∈ behind, isNumberChar ch = true := fun ch mem => numeric ch (by simp [mem])
    have parts : behind.takeWhile Char.isDigit ++ behind.dropWhile Char.isDigit = behind :=
      List.takeWhile_append_dropWhile
    have digits' : ∀ ch ∈ behind.takeWhile Char.isDigit, ch.isDigit = true := fun ch => List.mem_takeWhile_imp
    simp only [List.span_eq_takeWhile_dropWhile] at read
    split at read
    · cases read
    · rename_i filled
      obtain ⟨n, exponent, value⟩ := Option.bind_eq_some_iff.mp read
      obtain ⟨ends, rfl⟩ := readExponent?_eq_some (fun ch mem => numeric' ch
        ((List.dropWhile_suffix _).subset mem)) exponent
      rw [ends, List.append_nil] at parts
      cases value
      rw [parts] at filled digits' ⊢
      rw [Int.zero_sub]
      exact .pointed (by simpa [List.append_eq_nil_iff] using filled) (List.forall_mem_append.mpr ⟨digits, digits'⟩)

/-- What is read as a plain name is one, and stands in front. -/
theorem readPlainName?_eq_some {front : List Char} (read : readPlainName? cs = some (front, rest)) :
    cs = front ++ rest ∧ IsPlain (String.ofList front) := by
  cases cs with
  | nil => cases read
  | cons ch cs =>
    rw [readPlainName?] at read
    split at read
    · rename_i starts
      rw [Bool.and_eq_true, decide_eq_true_eq] at starts
      have goes : (ch ≠ ':' && isNameChar ch) = true := by simp [isNameChar, starts]
      cases read
      refine ⟨List.takeWhile_append_dropWhile.symm, ?_, ?_⟩
      · rw [String.toList_ofList, List.takeWhile_cons_of_pos (by exact goes)]
        exact ⟨ch, rfl, starts.2⟩
      · rw [String.toList_ofList]
        intro other mem
        have further := List.mem_takeWhile_imp mem
        rw [Bool.and_eq_true, decide_eq_true_eq] at further
        exact further.symm
    · cases read

/-- What is read as a name has a form of names, and stands in front. -/
theorem readName?_eq_some (read : readName? cs = some (name, rest)) :
    cs = name.toList ++ rest ∧ (IsQualified name ∨ IsAnyOf name) := by
  simp only [readName?, Option.bind_eq_bind, Option.bind_eq_some_iff] at read
  obtain ⟨⟨first, after⟩, outer, read⟩ := read
  obtain ⟨rfl, plain⟩ := readPlainName?_eq_some outer
  have alone : first ++ after = (String.ofList first).toList ++ after := by rw [String.toList_ofList]
  have joined (localPart : List Char) : String.ofList (first ++ ':' :: localPart) =
      (QName.mk (some (String.ofList first)) (String.ofList localPart)).text := by
    rw [← String.toList_inj, toList_joined, String.toList_ofList, String.toList_ofList, String.toList_ofList]
  split at read
  · rename_i colon
    cases read
    obtain rfl := colon
    refine ⟨by simp, .inr ?_⟩
    rw [joined]
    exact .mk plain
  · rename_i colon
    obtain rfl := colon
    split at read
    · rename_i second rest' inner
      cases read
      obtain ⟨rfl, plain'⟩ := readPlainName?_eq_some inner
      refine ⟨by simp, .inl ?_⟩
      rw [joined]
      exact .joined plain plain'
    · cases read
      exact ⟨alone, .inl (.plain plain)⟩
  · cases read
    exact ⟨alone, .inl (.plain plain)⟩

theorem beforeFirst?_eq_some {quote : Char} {body : List Char} (found : beforeFirst? [quote] cs = some body) :
    cs = body ++ quote :: cs.drop (body.length + 1) ∧ ∀ ch ∈ body, ch ≠ quote := by
  induction cs generalizing body with
  | nil => cases found
  | cons ch cs ih =>
    rw [beforeFirst?] at found
    split at found
    · rename_i begins
      cases found
      have same : quote = ch := by simpa using begins
      exact ⟨by rw [same]; rfl, List.forall_mem_nil _⟩
    · rename_i other
      obtain ⟨body, later, rfl⟩ := Option.map_eq_some_iff.mp found
      have ne : ch ≠ quote := by
        rintro rfl
        exact other (by simp)
      obtain ⟨whole, clear⟩ := ih later
      exact ⟨congrArg (ch :: ·) whole, List.forall_mem_cons.mpr ⟨ne, clear⟩⟩

theorem eq_append_of_read? {s : Symbol} (read : Symbol.read? cs = some (s, rest)) : cs = s.spelling.toList ++ rest := by
  obtain ⟨found, -, here⟩ := List.exists_of_findSome?_eq_some read
  obtain ⟨behind, begins, same⟩ := Option.map_eq_some_iff.mp here
  cases same
  exact (List.append_eq_of_isPrefixOf?_eq_some begins).symm

/-- What is read as a token is written at the front. -/
theorem writes_readToken (read : readToken afterOperand cs = .ok (token, rest)) :
    ∃ spelling, cs = spelling ++ rest ∧ token.Writes spelling := by
  unfold readToken at read
  split at read
  · dsimp only at read
    split at read
    · rename_i x number
      cases read
      refine ⟨cs.takeWhile isNumberChar, List.takeWhile_append_dropWhile.symm, ?_⟩
      exact writes_readUnsigned? (fun ch => List.mem_takeWhile_imp) number
    · cases read
  · split at read
    · rename_i s rest' symbol
      cases read
      exact ⟨_, eq_append_of_read? symbol, .symbol s⟩
    · split at read
      · cases read
      · rename_i rest'
        cases read
        refine ⟨['*'], rfl, ?_⟩
        cases afterOperand
        · exact .name .any
        · exact .operator .multiply
      · cases read
      · cases read
      · split at read
        · rename_i named
          cases read
          obtain ⟨rfl, form⟩ := readName?_eq_some named
          exact ⟨_, rfl, .reference form⟩
        · cases read
      · split at read
        · rename_i quotes
          split at read
          · rename_i body found
            cases read
            obtain ⟨whole, clear⟩ := beforeFirst?_eq_some found
            refine ⟨_, ?_, .literal (by simpa using quotes) (by rwa [String.toList_ofList])⟩
            rw [String.toList_ofList, List.cons_append, List.append_assoc]
            exact congrArg _ whole
          · cases read
        · split at read
          · rename_i named
            obtain ⟨e, form⟩ := readName?_eq_some named
            split at read
            · rename_i op found
              cases read
              have spelled := List.find?_some found
              rw [beq_iff_eq] at spelled
              refine ⟨_, ?_, .operator op⟩
              rw [spelled]
              exact e
            · cases read
              exact ⟨_, e, .name (form.elim .qualified .anyOf)⟩
          · cases read

/-! ## The scanner, pass by pass -/

/-- How the scanner goes through a text, with no bound on its passes: the tokens that it finds, and where
it stops, at the end or before something that is no token. -/
inductive Scans : Bool → List Char → List Lexeme → Option PathFlaw → List Char → Prop where
  | ended {afterOperand : Bool} {cs : List Char} (blank : cs.dropWhile isBlank = []) :
    Scans afterOperand cs [] none []
  | flawed {afterOperand : Bool} {cs : List Char} {flaw : PathFlaw} (filled : cs.dropWhile isBlank ≠ [])
    (refused : readToken afterOperand (cs.dropWhile isBlank) = .error flaw) :
    Scans afterOperand cs [] (some flaw) (cs.dropWhile isBlank)
  | token {afterOperand : Bool} {cs rest stop : List Char} {token : Token} {lexemes : List Lexeme}
    {flaw : Option PathFlaw} (read : readToken afterOperand (cs.dropWhile isBlank) = .ok (token, rest))
    (onward : Scans (endsOperand token) rest lexemes flaw stop) :
    Scans afterOperand cs (⟨token, cs.dropWhile isBlank⟩ :: lexemes) flaw stop

theorem length_dropWhile_isBlank_le (cs : List Char) : (cs.dropWhile isBlank).length ≤ cs.length :=
  (List.dropWhile_suffix isBlank).length_le

/-- The scanner stops, as the text that is left becomes shorter with every token. -/
theorem exists_scans (afterOperand : Bool) (cs : List Char) :
    ∃ lexemes flaw stop, Scans afterOperand cs lexemes flaw stop := by
  induction length : cs.length using Nat.strong_induction_on generalizing afterOperand cs with
  | _ n shorter =>
    by_cases filled : cs.dropWhile isBlank = []
    · exact ⟨[], none, [], .ended filled⟩
    · rcases read : readToken afterOperand (cs.dropWhile isBlank) with flaw | ⟨token, rest⟩
      · exact ⟨[], some flaw, _, .flawed filled read⟩
      · have less := length_readToken_lt read
        have := length_dropWhile_isBlank_le cs
        obtain ⟨lexemes, flaw, stop, onward⟩ := shorter rest.length (by omega) (endsOperand token) rest rfl
        exact ⟨_, flaw, stop, .token read onward⟩

/-- Every token takes a character at least. -/
theorem Scans.length_le (scans : Scans afterOperand cs lexemes flaw stop) :
    lexemes.length + stop.length ≤ cs.length := by
  induction scans with
  | ended => simp
  | @flawed _ cs =>
    have := length_dropWhile_isBlank_le cs
    rwa [List.length_nil, Nat.zero_add]
  | @token _ cs _ _ _ _ _ read _ ih =>
    have := length_readToken_lt read
    have := length_dropWhile_isBlank_le cs
    rw [List.length_cons]
    omega

/-- Without a flaw it stops at the end only. -/
theorem Scans.stop_eq_nil (scans : Scans afterOperand cs lexemes flaw stop) (fine : flaw = none) : stop = [] := by
  induction scans with
  | ended => rfl
  | flawed => cases fine
  | token _ _ ih => exact ih fine

theorem Scans.readTokens_eq (scans : Scans afterOperand cs lexemes flaw stop) :
    readTokens afterOperand cs = flaw.elim (.ok lexemes) fun flaw => .error (flaw, stop) := by
  induction scans with
  | ended blank =>
    rw [readTokens, blank]
    rfl
  | flawed filled refused =>
    rw [readTokens, if_neg (by simpa using filled)]
    split
    · rename_i refused'
      rw [refused] at refused'
      cases refused'
      rfl
    · rename_i read
      rw [refused] at read
      cases read
  | @token afterOperand cs _ _ _ _ flaw read onward ih =>
    have filled : ¬ (cs.dropWhile isBlank).isEmpty = true := by
      intro empty
      rw [List.isEmpty_iff.mp empty] at read
      cases read
    rw [readTokens, if_neg filled]
    split
    · rename_i refused
      rw [read] at refused
      cases refused
    · rename_i read'
      rw [read] at read'
      cases read'
      rw [ih]
      cases flaw <;> rfl

/-! ## Tiles -/

/-- Tokens at the front of a text, up to a place in it: each is written where its text begins, and nothing but
blanks are before the next one. -/
inductive Tiles : List Char → List Lexeme → List Char → Prop where
  | stop (text : List Char) : Tiles text [] text
  | tile {spelling blanks rest stop : List Char} {token : Token} {lexemes : List Lexeme}
    (writes : token.Writes spelling) (blank : ∀ ch ∈ blanks, isBlank ch = true) (onward : Tiles rest lexemes stop) :
    Tiles (spelling ++ blanks ++ rest) (⟨token, spelling ++ blanks ++ rest⟩ :: lexemes) stop

theorem Scans.tiles (scans : Scans afterOperand cs lexemes flaw stop) :
    ∃ blanks text, cs = blanks ++ text ∧ (∀ ch ∈ blanks, isBlank ch = true) ∧ Tiles text lexemes stop := by
  have parts (cs : List Char) : cs = cs.takeWhile isBlank ++ cs.dropWhile isBlank :=
    List.takeWhile_append_dropWhile.symm
  have blanks (cs : List Char) : ∀ ch ∈ cs.takeWhile isBlank, isBlank ch = true := fun ch => List.mem_takeWhile_imp
  induction scans with
  | @ended _ cs blank => exact ⟨_, _, parts cs, blanks cs, blank ▸ .stop []⟩
  | @flawed _ cs => exact ⟨_, _, parts cs, blanks cs, .stop _⟩
  | @token _ cs rest _ _ _ _ read _ ih =>
    obtain ⟨between, text, rfl, blank, onward⟩ := ih
    obtain ⟨spelling, front, writes⟩ := writes_readToken read
    refine ⟨_, _, parts cs, blanks cs, ?_⟩
    rw [front, ← List.append_assoc]
    exact .tile writes blank onward

theorem Tiles.classify (tiles : Tiles text lexemes stop) : Tiles text (classify lexemes) stop := by
  induction tiles with
  | stop text => exact .stop text
  | @tile _ _ _ _ token lexemes writes blank onward ih =>
    cases lexemes with
    | nil => exact .tile writes blank onward
    | cons next lexemes => exact .tile (writes.classifyBefore next.token) blank ih

/-- Every token among tiles is written where its text begins. -/
theorem Tiles.written (tiles : Tiles text lexemes stop) :
    ∀ l ∈ lexemes, ∃ spelling behind, l.text = spelling ++ behind ∧ l.token.Writes spelling := by
  induction tiles with
  | stop => exact List.forall_mem_nil _
  | tile writes _ _ ih => exact List.forall_mem_cons.mpr ⟨⟨_, _, List.append_assoc .., writes⟩, ih⟩

end Lexer

/-! ## Offsets -/

/-- From one byte of a text up to another, both of them where characters begin or at the end, stand these
characters. -/
def Stretch (s : String) (start stop : Nat) (cs : List Char) : Prop :=
  ∃ before after, s.toList = before ++ cs ++ after ∧ start = byteLength before ∧ stop = byteLength (before ++ cs)

/-- Where a token begins in the text of an expression, or the end of the text if there is no such token. -/
def boundary (s : String) (lexemes : List Lexeme) (i : Nat) : Nat :=
  (lexemes[i]?).elim s.utf8ByteSize (·.offsetIn s)

/-- The tokens of an expression divide its text: ahead of the first one there are blanks, from where one
begins to where the next one begins, or the text ends, it is written and followed by blanks. -/
structure Tiled (s : String) (lexemes : List Lexeme) : Prop where
  ascending : (lexemes.map (·.offsetIn s)).Pairwise (· < ·)
  ahead : ∃ blanks, Stretch s 0 (boundary s lexemes 0) blanks ∧ ∀ ch ∈ blanks, isBlank ch = true
  tile : ∀ i l, lexemes[i]? = some l → ∃ spelling blanks, l.token.Writes spelling ∧
    (∀ ch ∈ blanks, isBlank ch = true) ∧ Stretch s (l.offsetIn s) (boundary s lexemes (i + 1)) (spelling ++ blanks)

theorem byteLength_eq (cs : List Char) : byteLength cs = (String.ofList cs).utf8ByteSize := by
  induction cs with
  | nil => rfl
  | cons ch cs ih => simp [byteLength, ih]

theorem byteLength_pos {cs : List Char} (filled : cs ≠ []) : 0 < byteLength cs := by
  cases cs with
  | nil => exact absurd rfl filled
  | cons ch cs =>
    have := ch.utf8Size_pos
    rw [byteLength]
    omega

theorem byteLength_toList (s : String) : byteLength s.toList = s.utf8ByteSize := by
  rw [byteLength_eq, String.ofList_toList]

theorem offsetIn_eq {s : String} {before text : List Char} (whole : s.toList = before ++ text) :
    offsetIn s text = byteLength before := by
  rw [offsetIn, ← byteLength_toList, whole, Position.byteLength_append, Nat.add_sub_cancel]

namespace Lexer.Tiles

variable {s : String} {before text : List Char} {lexemes : List Lexeme}

/-- The first token begins where the text does that is tiled. -/
theorem boundary_zero (tiles : Tiles text lexemes []) (whole : s.toList = before ++ text) :
    boundary s lexemes 0 = byteLength before := by
  cases tiles with
  | stop =>
    rw [List.append_nil] at whole
    rw [← whole, byteLength_toList]
    rfl
  | tile => exact offsetIn_eq whole

theorem le_offsetIn (tiles : Tiles text lexemes []) (whole : s.toList = before ++ text) :
    ∀ l ∈ lexemes, byteLength before ≤ l.offsetIn s := by
  induction lexemes generalizing text before with
  | nil => exact List.forall_mem_nil _
  | cons first lexemes ih =>
    cases tiles with
    | tile writes blank onward =>
      rw [← List.append_assoc] at whole
      refine List.forall_mem_cons.mpr ⟨(tile writes blank onward).boundary_zero ?_ |>.ge, fun l mem => ?_⟩
      · rw [whole, List.append_assoc]
      · have later := ih onward whole l mem
        rw [Position.byteLength_append] at later
        omega

theorem ascending (tiles : Tiles text lexemes []) (whole : s.toList = before ++ text) :
    (lexemes.map (·.offsetIn s)).Pairwise (· < ·) := by
  induction lexemes generalizing text before with
  | nil => exact .nil
  | cons first lexemes ih =>
    cases tiles with
    | @tile spelling blanks rest _ _ _ writes blank onward =>
      have here : offsetIn s (spelling ++ blanks ++ rest) = byteLength before := offsetIn_eq whole
      rw [← List.append_assoc] at whole
      refine List.Pairwise.cons ?_ (ih onward whole)
      simp only [List.forall_mem_map]
      intro l mem
      have later := onward.le_offsetIn whole l mem
      have := byteLength_pos writes.ne_nil
      rw [Position.byteLength_append, Position.byteLength_append] at later
      rw [Lexeme.offsetIn, here]
      omega

theorem tile_at (tiles : Tiles text lexemes []) (whole : s.toList = before ++ text) {i : Nat} {l : Lexeme}
    (here : lexemes[i]? = some l) : ∃ spelling blanks, l.token.Writes spelling ∧
      (∀ ch ∈ blanks, isBlank ch = true) ∧
      Stretch s (l.offsetIn s) (boundary s lexemes (i + 1)) (spelling ++ blanks) := by
  induction lexemes generalizing text before i with
  | nil => cases here
  | cons first lexemes ih =>
    cases tiles with
    | @tile spelling blanks rest _ _ _ writes blank onward =>
      have start : offsetIn s (spelling ++ blanks ++ rest) = byteLength before := offsetIn_eq whole
      rw [← List.append_assoc] at whole
      cases i with
      | zero =>
        cases here
        exact ⟨spelling, blanks, writes, blank, before, rest, whole, start, onward.boundary_zero whole⟩
      | succ i => exact ih onward whole here

end Lexer.Tiles

theorem Lexer.Scans.tokenize_eq {s : String} {lexemes : List Lexeme} {flaw : Option PathFlaw} {stop : List Char}
    (scans : Scans false s.toList lexemes flaw stop) :
    tokenize s = flaw.elim (.ok (classify lexemes)) fun flaw => .error (.misread (offsetIn s stop) flaw) := by
  rw [tokenize, scans.readTokens_eq]
  cases flaw <;> rfl

/-- The tokens of an expression are tiles of its text, but for the blanks ahead. -/
theorem Lexer.tiles_tokenize {s : String} {lexemes : List Lexeme} (lexed : tokenize s = .ok lexemes) :
    ∃ blanks text, s.toList = blanks ++ text ∧ (∀ ch ∈ blanks, isBlank ch = true) ∧ Tiles text lexemes [] := by
  obtain ⟨raw, flaw, stop, scans⟩ := exists_scans false s.toList
  have result := scans.tokenize_eq
  rw [lexed] at result
  cases flaw with
  | some flaw => cases result
  | none =>
    cases result
    obtain rfl := scans.stop_eq_nil rfl
    obtain ⟨blanks, text, whole, blank, tiles⟩ := scans.tiles
    exact ⟨blanks, text, whole, blank, tiles.classify⟩

theorem Lexer.tiled_tokenize {s : String} {lexemes : List Lexeme} (lexed : tokenize s = .ok lexemes) :
    Tiled s lexemes := by
  obtain ⟨blanks, text, whole, blank, tiles⟩ := tiles_tokenize lexed
  refine ⟨tiles.ascending whole, ⟨blanks, ⟨[], text, whole, rfl, ?_⟩, blank⟩, fun _ _ => tiles.tile_at whole⟩
  exact tiles.boundary_zero whole

/-- The scanner stops on every text, having taken a character at least for every token, and the tokens that it
found are those of the expression unless it stopped at a flaw. The tokens of an expression divide its text. -/
theorem tokens_tile (s : String) :
    (∃ lexemes flaw stop, Lexer.Scans false s.toList lexemes flaw stop ∧
      lexemes.length + stop.length ≤ s.length ∧
      Lexer.tokenize s = flaw.elim (.ok (Lexer.classify lexemes))
        fun flaw => .error (.misread (offsetIn s stop) flaw)) ∧
    ∀ lexemes, Lexer.tokenize s = .ok lexemes → Tiled s lexemes := by
  obtain ⟨lexemes, flaw, stop, scans⟩ := Lexer.exists_scans false s.toList
  exact ⟨⟨lexemes, flaw, stop, scans, scans.length_le, scans.tokenize_eq⟩, fun _ => Lexer.tiled_tokenize⟩

/-- A name and a literal with characters of two bytes, and an operator. -/
theorem tokens_tile_literal : ∃ lexemes, Lexer.tokenize " é:b* 'ü'" = .ok lexemes ∧
    lexemes.map (·.offsetIn " é:b* 'ü'") = [1, 5, 7] ∧ Tiled " é:b* 'ü'" lexemes := by
  have scans : Lexer.Scans false [' ', 'é', ':', 'b', '*', ' ', '\'', 'ü', '\'']
      [⟨.name "é:b", ['é', ':', 'b', '*', ' ', '\'', 'ü', '\'']⟩,
        ⟨.operator .multiply, ['*', ' ', '\'', 'ü', '\'']⟩, ⟨.literal "ü", ['\'', 'ü', '\'']⟩] none [] :=
    .token rfl (.token rfl (.token rfl (.ended rfl)))
  have whole : " é:b* 'ü'".toList = [' ', 'é', ':', 'b', '*', ' ', '\'', 'ü', '\''] := by decide
  rw [← whole] at scans
  have lexed := scans.tokenize_eq
  exact ⟨_, lexed, by decide +kernel, (tokens_tile _).2 _ lexed⟩

end XmlStore
