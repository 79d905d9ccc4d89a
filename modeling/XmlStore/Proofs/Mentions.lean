/-
The functions that an expression calls, and the variables that it refers to.
Both are in its tree exactly what they are among its tokens, in the order of
the text. Their names are names of one part or of two, unless `*` stands for
the local part: what names are tested for is read in the same way wherever a
name may stand.
-/
import XmlStore.Proofs.LocatorSteps
import XmlStore.Proofs.TokenTexts

namespace XmlStore

/-! ## In a token and in a tree -/

/-- A function that is called, or a variable that is referred to. -/
inductive Mention where
  | call (function : String)
  | reference (variableName : String)

def Token.mention? : Token → Option Mention
  | .function s => some (.call s)
  | .reference s => some (.reference s)
  | _ => none

mutual

/-- What an expression mentions, in the order of its text. -/
def Expr.mentions : Expr → List Mention
  | .number _ | .literal _ => []
  | .reference name => [.reference name]
  | .binary _ a b | .union a b => a.mentions ++ b.mentions
  | .negate e => e.mentions
  | .call name arguments => .call name :: Expr.mentionsOfAll arguments
  | .path steps | .rootPath steps => Step.mentionsOfAll steps
  | .filter base predicates => base.mentions ++ Expr.mentionsOfAll predicates
  | .pathFrom base steps => base.mentions ++ Step.mentionsOfAll steps

def Expr.mentionsOfAll : List Expr → List Mention
  | [] => []
  | e :: rest => e.mentions ++ Expr.mentionsOfAll rest

def Step.mentions : Step → List Mention
  | .mk _ _ predicates => Expr.mentionsOfAll predicates

def Step.mentionsOfAll : List Step → List Mention
  | [] => []
  | step :: rest => step.mentions ++ Step.mentionsOfAll rest

end

def Nonterminal.mentions : (kind : Nonterminal) → kind.Tree → List Mention
  | .steps, ss | .furtherSteps, ss => Step.mentionsOfAll ss
  | .step, s => s.mentions
  | .predicates, es | .furtherArguments, es => Expr.mentionsOfAll es
  | .operation _, e | .negation, e | .union, e | .path, e | .filter, e | .primary, e => e.mentions

variable {u v : List Token} {token : Token}

theorem BinaryOp.mention?_token (op : BinaryOp) : op.token.mention? = none := by cases op <;> rfl

theorem Axis.Derives.filterMap_mention? {axis : Axis} (along : axis.Derives u) : u.filterMap Token.mention? = [] := by
  cases along <;> rfl

theorem NodeTest.Derives.filterMap_mention? {test : NodeTest} (passes : test.Derives u) :
    u.filterMap Token.mention? = [] := by
  cases passes <;> rfl

/-- What a phrase mentions is what its tokens do. -/
theorem Derives.mentions_eq {kind : Nonterminal} {tree : kind.Tree} (h : Derives kind u tree) :
    kind.mentions tree = u.filterMap Token.mention? := by
  induction h with
  | @operation op _ _ _ _ _ _ ihl ihr =>
    rw [List.filterMap_append, List.filterMap_cons_none op.mention?_token, ← ihl, ← ihr]
    rfl
  | union _ _ ihl ihr | fromFilter _ _ ihl ihr =>
    rw [List.filterMap_append, List.filterMap_cons_none rfl, ← ihl, ← ihr]
    rfl
  | anywhereFrom _ _ ihb ihs =>
    rw [List.filterMap_append, List.filterMap_cons_none rfl, ← ihb, ← ihs]
    rfl
  | operand _ _ ih | strongest _ ih | unnegated _ ih | single _ ih | relative _ ih | filtered _ ih
  | unfiltered _ ih => exact ih
  | negated _ ih | absolute _ ih | anywhere _ ih =>
    rw [List.filterMap_cons_none rfl, ← ih]
    rfl
  | root | reference | literal | number | call | noArguments | noSteps | here | up | noPredicates => rfl
  | filter _ _ ihb ihk =>
    rw [List.filterMap_append, ← ihb, ← ihk]
    rfl
  | grouped _ ih =>
    rw [List.filterMap_cons_none rfl, List.filterMap_append, ← ih]
    exact (List.append_nil _).symm
  | callWith name _ _ ihf iho =>
    refine congrArg (Mention.call name :: ·) ?_
    rw [List.filterMap_cons_none rfl, List.filterMap_append, List.filterMap_append, ← ihf, ← iho]
    exact (List.append_nil _).symm
  | arguments _ _ ihf iho | nextStep _ _ ihf iho | deeperStep _ _ ihf iho =>
    rw [List.filterMap_cons_none rfl, List.filterMap_append, ← ihf, ← iho]
    rfl
  | steps _ _ ihf iho =>
    rw [List.filterMap_append, ← ihf, ← iho]
    rfl
  | step along passes _ ih =>
    rw [List.filterMap_append, List.filterMap_append, along.filterMap_mention?, passes.filterMap_mention?, ← ih]
    rfl
  | predicates _ _ ihf iho =>
    rw [List.filterMap_cons_none rfl, List.filterMap_append, List.filterMap_cons_none rfl, ← ihf, ← iho]
    rfl

/-! ## Ahead of a parenthesis -/

/-- Whether a parenthesis may stand behind a token: one around arguments, or around an expression. -/
def Token.opens : Token → Bool
  | .function _ | .nodeType _ | .operator _ => true
  | .symbol s => [.leftParen, .leftBracket, .comma, .bar, .plus, .minus, .equal, .notEqual, .less, .lessEqual,
      .greater, .greaterEqual].contains s
  | _ => false

def Token.MayPrecede (token next : Token) : Prop := next = .symbol .leftParen → token.opens = true

theorem BinaryOp.opens_token (op : BinaryOp) : op.token.opens = true := by cases op <;> rfl

theorem BinaryOp.token_ne (op : BinaryOp) : op.token ≠ .symbol .leftParen := by cases op <;> exact nofun

/-- The first token is no parenthesis. -/
def Unparenthesized (tokens : List Token) : Prop := ∀ t ∈ tokens.head?, t ≠ .symbol .leftParen

theorem unparenthesized_cons (other : token ≠ .symbol .leftParen) : Unparenthesized (token :: u) := by
  rintro _ ⟨⟩
  exact other

theorem mayPrecede_append (left : u.IsChain Token.MayPrecede) (right : v.IsChain Token.MayPrecede)
    (apart : Unparenthesized v) : (u ++ v).IsChain Token.MayPrecede :=
  List.isChain_append.mpr ⟨left, right, fun _ _ t first same => absurd same (apart t first)⟩

theorem mayPrecede_cons (opens : token.opens = true) (others : u.IsChain Token.MayPrecede) :
    (token :: u).IsChain Token.MayPrecede :=
  List.isChain_cons.mpr ⟨fun _ _ _ => opens, others⟩

theorem mayPrecede_cons_apart (apart : Unparenthesized u) (others : u.IsChain Token.MayPrecede) :
    (token :: u).IsChain Token.MayPrecede :=
  List.isChain_cons.mpr ⟨fun t first same => absurd same (apart t first), others⟩

theorem unparenthesized_of_startsStep (begins : ∃ t rest, u = t :: rest ∧ Grammar.startsStep t = true) :
    Unparenthesized (u ++ v) := by
  obtain ⟨t, rest, rfl, starts⟩ := begins
  rintro _ ⟨⟩ paren
  rw [paren] at starts
  cases starts

theorem unparenthesized_of_steps {ss : List Step} (below : Derives .steps u ss) : Unparenthesized u := by
  simpa using unparenthesized_of_startsStep (v := []) (Grammar.begins below)

theorem unparenthesized_of_furtherSteps (begins : Grammar.Begins .furtherSteps u) : Unparenthesized u := by
  intro t first
  rcases begins t first with rfl | rfl <;> exact nofun

theorem unparenthesized_of_furtherArguments (begins : Grammar.Begins .furtherArguments u) : Unparenthesized u := by
  intro t first
  rw [begins t first]
  exact nofun

theorem unparenthesized_of_predicates {ps : List Expr} (kept : Derives .predicates u ps) : Unparenthesized u := by
  cases kept <;> rintro _ ⟨⟩
  exact nofun

theorem mayPrecede_test {axis : Axis} {test : NodeTest} (along : axis.Derives u) (passes : test.Derives v) :
    (u ++ v).IsChain Token.MayPrecede := by
  cases along <;> cases passes <;> simp [Token.MayPrecede, Token.opens]

/-- In a phrase, no other token stands ahead of a parenthesis. -/
theorem Derives.mayPrecede {kind : Nonterminal} {tree : kind.Tree} (h : Derives kind u tree) :
    u.IsChain Token.MayPrecede := by
  have closed {u : List Token} (inner : u.IsChain Token.MayPrecede) :
      List.IsChain Token.MayPrecede (u ++ [.symbol .rightParen]) :=
    mayPrecede_append inner (.singleton _) (unparenthesized_cons nofun)
  induction h with
  | @operation op _ _ _ _ _ _ ihl ihr =>
    exact mayPrecede_append ihl (mayPrecede_cons op.opens_token ihr) (unparenthesized_cons op.token_ne)
  | union _ _ ihl ihr => exact mayPrecede_append ihl (mayPrecede_cons rfl ihr) (unparenthesized_cons nofun)
  | operand _ _ ih | strongest _ ih | unnegated _ ih | single _ ih | relative _ ih | filtered _ ih
  | unfiltered _ ih => exact ih
  | negated _ ih => exact mayPrecede_cons rfl ih
  | root | reference | literal | number | here | up => exact .singleton _
  | noArguments | noSteps | noPredicates => exact .nil
  | absolute below ih | anywhere below ih => exact mayPrecede_cons_apart (unparenthesized_of_steps below) ih
  | fromFilter _ below ihb ihs | anywhereFrom _ below ihb ihs =>
    have begins := unparenthesized_of_steps below
    exact mayPrecede_append ihb (mayPrecede_cons_apart begins ihs) (unparenthesized_cons nofun)
  | filter _ kept ihb ihk => exact mayPrecede_append ihb ihk (unparenthesized_of_predicates kept)
  | grouped _ ih => exact mayPrecede_cons rfl (closed ih)
  | call => exact mayPrecede_cons rfl (mayPrecede_cons rfl (.singleton _))
  | callWith _ _ others ihf iho =>
    have begins := unparenthesized_of_furtherArguments (Grammar.begins others)
    exact mayPrecede_cons rfl (mayPrecede_cons rfl (closed (mayPrecede_append ihf iho begins)))
  | arguments _ others ihf iho =>
    have begins := unparenthesized_of_furtherArguments (Grammar.begins others)
    exact mayPrecede_cons rfl (mayPrecede_append ihf iho begins)
  | steps _ others ihf iho =>
    exact mayPrecede_append ihf iho (unparenthesized_of_furtherSteps (Grammar.begins others))
  | nextStep first others ihf iho | deeperStep first others ihf iho =>
    have begins := unparenthesized_of_furtherSteps (Grammar.begins others)
    exact mayPrecede_cons_apart (unparenthesized_of_startsStep (Grammar.begins first))
      (mayPrecede_append ihf iho begins)
  | step along passes kept ih =>
    exact mayPrecede_append (mayPrecede_test along passes) ih (unparenthesized_of_predicates kept)
  | predicates _ others ihf iho =>
    have begins := unparenthesized_of_predicates others
    exact mayPrecede_cons rfl (mayPrecede_append ihf (mayPrecede_cons_apart begins iho) (unparenthesized_cons nofun))

/-! ## Names of functions and variables -/

namespace Mention

/-- As an expression may call it or refer to it: by a name of one part or of two. Node types are no functions. -/
def Proper : Mention → Prop
  | call name => IsQualified name ∧ name ∉ Lexer.nodeTypes
  | reference name => IsQualified name

/-- By something with `*` in the place of the local part. -/
def Starred : Mention → Prop
  | call name => name = "*" ∨ IsAnyOf name
  | reference name => IsAnyOf name

/-- The mention alone, a call without arguments. -/
def text : Mention → String
  | call name => name ++ "()"
  | reference name => "$" ++ name

def expr : Mention → Expr
  | call name => .call name []
  | reference name => .reference name

end Mention

theorem IsPlain.star_not_mem {name : String} (plain : IsPlain name) : '*' ∉ name.toList :=
  fun star => absurd (plain.further '*' star).1 (by decide)

theorem IsQualified.star_not_mem {name : String} (qualified : IsQualified name) : '*' ∉ name.toList := by
  cases qualified with
  | plain plain => exact plain.star_not_mem
  | joined outer inner =>
    rw [toList_joined, List.mem_append, List.mem_cons]
    rintro (star | same | star)
    · exact outer.star_not_mem star
    · exact absurd same (by decide)
    · exact inner.star_not_mem star

theorem IsAnyOf.star_mem {name : String} (anyOf : IsAnyOf name) : '*' ∈ name.toList := by
  cases anyOf
  rw [toList_joined]
  simp

theorem IsQualified.not_starred {name : String} (qualified : IsQualified name) : ¬ (name = "*" ∨ IsAnyOf name) := by
  rintro (rfl | anyOf)
  · exact qualified.star_not_mem (by decide)
  · exact qualified.star_not_mem anyOf.star_mem

/-- What a token mentions is proper unless it is starred. -/
theorem Token.Writes.proper_iff {spelling : List Char} {mention : Mention} (writes : token.Writes spelling)
    (mentions : token.mention? = some mention) : mention.Proper ↔ ¬ mention.Starred := by
  cases writes with
  | function form other =>
    cases mentions
    refine ⟨fun proper => proper.1.not_starred, fun unstarred => ⟨?_, other⟩⟩
    cases form with
    | qualified qualified => exact qualified
    | anyOf anyOf => exact absurd (.inr anyOf) unstarred
    | any => exact absurd (.inl rfl) unstarred
  | reference form =>
    cases mentions
    exact ⟨fun proper starred => proper.not_starred (.inr starred), form.resolve_right⟩
  | _ => cases mentions

/-- Whatever begins with a dollar sign refers to a variable. -/
theorem Token.Writes.reference_of_head? {spelling : List Char} (writes : token.Writes spelling)
    (dollar : spelling.head? = some '$') : ∃ name, token = .reference name := by
  have named {name : String} (form : IsNameTest name) : name.toList.head? ≠ some '$' := by
    intro first
    have other : name ≠ "*" := by
      rintro rfl
      exact absurd first (by decide)
    obtain ⟨ch, here, starts, -⟩ := form.begins other
    rw [first] at here
    cases here
    exact absurd starts (by decide)
  have digits {cs : List Char} (all : ∀ ch ∈ cs, ch.isDigit = true) : cs.head? ≠ some '$' :=
    fun first => absurd (all '$' (List.mem_of_head? first)) (by decide)
  cases writes with
  | reference => exact ⟨_, rfl⟩
  | symbol s => exact absurd dollar (by cases s <;> decide)
  | operator op => exact absurd dollar (by cases op <;> decide)
  | whole filled all => exact absurd dollar (digits all)
  | @pointed whole fraction filled all =>
    cases whole with
    | nil => cases dollar
    | cons => exact (digits (List.forall_mem_append.mp all).1 dollar).elim
  | literal quotes =>
    cases dollar
    exact absurd quotes (by decide)
  | name form | function form | «axis» form => exact absurd dollar (named form)
  | nodeType known =>
    have each : ∀ s ∈ Lexer.nodeTypes, s.toList.head? ≠ some '$' := by decide
    exact absurd dollar (each _ known)

/-! ## Mentions in their text -/

namespace Lexer

variable {name : String} {rest : List Char}

theorem readName?_anyOf {qualifier : String} (outer : IsPlain qualifier) :
    readName? ((QName.mk (some qualifier) "*").text.toList ++ rest) =
      some ((QName.mk (some qualifier) "*").text, rest) := by
  have first : readPlainName? (qualifier.toList ++ ':' :: '*' :: rest) =
      some (qualifier.toList, ':' :: '*' :: rest) :=
    readPlainName?_plain outer (by rintro _ ⟨⟩; decide)
  have whole : String.ofList (qualifier.toList ++ [':', '*']) = (QName.mk (some qualifier) "*").text := by
    rw [← String.toList_inj, toList_joined, String.toList_ofList]
    rfl
  have star : "*".toList = ['*'] := rfl
  rw [toList_joined, star, List.append_assoc, List.cons_append, List.singleton_append, readName?, first]
  exact congrArg (fun s => some (s, rest)) whole

/-- Every name is read where one may stand, and so is one with `*` in the place of the local part. -/
theorem readName?_of_form (form : IsQualified name ∨ IsAnyOf name)
    (stops : ∀ ch ∈ rest.head?, isNameChar ch = false) : readName? (name.toList ++ rest) = some (name, rest) := by
  rcases form with qualified | anyOf
  · cases qualified with
    | plain plain => exact readName?_plain plain stops
    | joined outer inner => exact readName?_qualified outer inner stops
  · cases anyOf with
    | mk outer => exact readName?_anyOf outer

theorem lexes_reference (form : IsQualified name ∨ IsAnyOf name) :
    Lexes false ('$' :: name.toList) [.reference name] := by
  have named : readName? (name.toList ++ []) = some (name, []) := readName?_of_form form nofun
  have symbol : Symbol.read? ('$' :: name.toList) = none := by
    refine read?_eq_none fun s => ?_
    cases s <;> decide
  have read : readToken false ('$' :: name.toList) = .ok (.reference name, []) := by
    rw [List.append_nil] at named
    have number : ¬ startsNumber ('$' :: name.toList) = true := Bool.false_ne_true
    unfold readToken
    rw [if_neg number, symbol]
    simp [named]
  exact lexes_cons (by rintro _ ⟨⟩; decide) read lexes_nil

theorem lexes_call (form : IsNameTest name) (other : name ∉ nodeTypes) :
    Lexes false (name.toList ++ ['(', ')']) [.function name, .symbol .leftParen, .symbol .rightParen] := by
  have behind : Lexes true ['(', ')'] [.symbol .leftParen, .symbol .rightParen] :=
    lexes_symbol (by decide) readToken_symbol.1 (lexes_symbol (by decide) readToken_symbol.2.1 lexes_nil)
  have called : classifyAmong [.symbol .leftParen, .symbol .rightParen] (.name name) = .function name :=
    if_neg fun known => other (List.contains_iff_mem.mp known)
  have stops : ∀ ch ∈ ['(', ')'].head?, isNameChar ch = false := by
    rintro _ ⟨⟩
    decide
  have named (form : IsQualified name ∨ IsAnyOf name) (begins : BeginsName name.toList) :
      Lexes false (name.toList ++ ['(', ')']) [.function name, .symbol .leftParen, .symbol .rightParen] := by
    have lexes := lexes_readName? (begins.append _) (readName?_of_form form stops) behind
    rwa [called] at lexes
  cases form with
  | qualified qualified => exact named (.inl qualified) qualified.begins
  | anyOf anyOf => exact named (.inr anyOf) anyOf.begins
  | any =>
    have read : readToken false ['*', '(', ')'] = .ok (.name "*", ['(', ')']) := rfl
    have lexes := lexes_cons (by rintro _ ⟨⟩; decide) read behind
    rwa [called] at lexes

end Lexer

/-! ## Whole expressions -/

theorem Expr.exists_tokenize {s : String} {e : Expr} (read : ofString s = .ok e) :
    ∃ lexemes, Lexer.tokenize s = .ok lexemes := by
  obtain ⟨lexemes, lexed, -⟩ := bind_eq_ok.1 read
  exact ⟨lexemes, lexed⟩

/-- An expression that is refused is refused for its form. -/
theorem Expr.misread_of_error {s : String} {error : PathError} (refused : ofString s = .error error) :
    ∃ position flaw, error = .misread position flaw := by
  rcases lexed : Lexer.tokenize s with error' | lexemes
  · rw [ofString, lexed] at refused
    cases refused
    rw [Lexer.tokenize] at lexed
    split at lexed <;> cases lexed
    exact ⟨_, _, rfl⟩
  · obtain ⟨position, flaw, same, -⟩ := misread_of_ofString lexed refused
    exact ⟨position, flaw, same⟩

/-- Every mention is read, those with `*` too. -/
theorem Expr.ofString_mention {mention : Mention} (named : mention.Proper ∨ mention.Starred) :
    ofString mention.text = .ok mention.expr := by
  cases mention with
  | reference name =>
    have lexes := Lexer.lexes_reference named
    have text : (Mention.reference name).text.toList = '$' :: name.toList := by simp [Mention.text]
    rw [← text] at lexes
    exact ofString_of_lexes lexes (.filtered (.unfiltered (.reference name)))
  | call name =>
    have form : IsNameTest name := by
      rcases named with proper | rfl | anyOf
      · exact .qualified proper.1
      · exact .any
      · exact .anyOf anyOf
    have other : name ∉ Lexer.nodeTypes := by
      have clear : ∀ s ∈ Lexer.nodeTypes, '*' ∉ s.toList := by decide
      rcases named with proper | rfl | anyOf
      · exact proper.2
      · exact fun known => clear _ known (by decide)
      · exact fun known => clear _ known anyOf.star_mem
    have lexes := Lexer.lexes_call form other
    have text : (Mention.call name).text.toList = name.toList ++ ['(', ')'] := by simp [Mention.text]
    rw [← text] at lexes
    exact ofString_of_lexes lexes (.filtered (.unfiltered (.call name)))

/-- Functions and variables of all names are read, and those with `*` in the place of the local part. All that an
expression mentions has such a name; what begins with a dollar sign refers to a variable. If an expression is read,
its tree mentions what its tokens do, and a parenthesis stands only where there may be one; if it is refused, then
for its form. -/
theorem mentions_of_tokens (s : String) :
    (∀ mention : Mention, mention.Proper ∨ mention.Starred → Expr.ofString mention.text = .ok mention.expr) ∧
    (∀ lexemes, Lexer.tokenize s = .ok lexemes → ∀ l ∈ lexemes,
      (∀ mention, l.token.mention? = some mention → (mention.Proper ↔ ¬ mention.Starred)) ∧
      (l.text.head? = some '$' → ∃ name, l.token = .reference name)) ∧
    (∀ e, Expr.ofString s = .ok e → ∃ lexemes, Lexer.tokenize s = .ok lexemes ∧
      e.mentions = lexemes.filterMap (·.token.mention?) ∧
      (∀ mention ∈ e.mentions, (mention.Proper ↔ ¬ mention.Starred)) ∧
      (lexemes.map (·.token)).IsChain Token.MayPrecede) ∧
    ∀ error, Expr.ofString s = .error error → ∃ position flaw, error = .misread position flaw := by
  have tokens {lexemes : List Lexeme} (lexed : Lexer.tokenize s = .ok lexemes) : ∀ l ∈ lexemes,
      ∃ spelling behind, l.text = spelling ++ behind ∧ l.token.Writes spelling := by
    obtain ⟨_, _, -, -, tiles⟩ := Lexer.tiles_tokenize lexed
    exact tiles.written
  refine ⟨fun _ => Expr.ofString_mention, fun lexemes lexed l among => ?_, fun e read => ?_,
    fun error => Expr.misread_of_error⟩
  · obtain ⟨spelling, behind, text, writes⟩ := tokens lexed l among
    refine ⟨fun mention mentions => writes.proper_iff mentions, fun dollar => writes.reference_of_head? ?_⟩
    rwa [text, List.head?_append_of_ne_nil _ writes.ne_nil] at dollar
  · obtain ⟨lexemes, lexed⟩ := Expr.exists_tokenize read
    have derived := Expr.derives_of_ofString lexed read
    have mentions : e.mentions = lexemes.filterMap (·.token.mention?) := by
      rw [← Function.comp_def Token.mention?, ← List.filterMap_map]
      exact derived.mentions_eq
    refine ⟨lexemes, lexed, mentions, fun mention among => ?_, derived.mayPrecede⟩
    rw [mentions, List.mem_filterMap] at among
    obtain ⟨l, here, mentioned⟩ := among
    obtain ⟨spelling, -, -, writes⟩ := tokens lexed l here
    exact writes.proper_iff mentioned

/-- A function that is called, alone and with a variable. -/
theorem mentions_of_tokens_call : Expr.ofString "f()" = .ok (.call "f" []) ∧
    ∃ lexemes e, Lexer.tokenize "f($x)" = .ok lexemes ∧
      Expr.ofString "f($x)" = .ok e ∧ e.mentions = [.call "f", .reference "x"] ∧
      (∀ mention ∈ e.mentions, mention.Proper ↔ ¬ mention.Starred) ∧
      ∀ l ∈ lexemes, l.text.head? = some '$' → ∃ name, l.token = .reference name := by
  have scans : Lexer.Scans false ['f', '(', '$', 'x', ')']
      [⟨.name "f", ['f', '(', '$', 'x', ')']⟩, ⟨.symbol .leftParen, ['(', '$', 'x', ')']⟩,
        ⟨.reference "x", ['$', 'x', ')']⟩, ⟨.symbol .rightParen, [')']⟩] none [] :=
    .token rfl (.token rfl (.token rfl (.token rfl (.ended rfl))))
  have whole : "f($x)".toList = ['f', '(', '$', 'x', ')'] := by decide
  rw [← whole] at scans
  have lexed := scans.tokenize_eq
  have argument : Derives .expression [.reference "x"] (Expr.reference "x") :=
    .of_path (.filtered (.unfiltered (.reference "x")))
  have called : Derives .expression _ (Expr.call "f" [Expr.reference "x"]) :=
    .of_path (.filtered (.unfiltered (.callWith "f" argument .noArguments)))
  have read := Expr.ofString_of_derives lexed called
  have proper : (Mention.call "f").Proper := ⟨.plain (isPlain_of_all (by decide) (by decide)), by decide⟩
  obtain ⟨alone, tokens, tree, -⟩ := mentions_of_tokens "f($x)"
  obtain ⟨_, -, -, named, -⟩ := tree _ read
  exact ⟨alone _ (.inl proper), _, _, lexed, read, rfl, named, fun l among => (tokens _ lexed l among).2⟩

/-- Variables are referred to, and functions called, with `*` in the place of a name. -/
theorem starred_mentions :
    Expr.ofString "$p:*" = .ok (.reference "p:*") ∧ ¬ (Mention.reference "p:*").Proper ∧
    Expr.ofString "*()" = .ok (.call "*" []) ∧ ¬ (Mention.call "*").Proper := by
  have plain : IsPlain "p" := isPlain_of_all (by decide) (by decide)
  have text : (QName.mk (some "p") "*").text = "p:*" := by decide
  have reference : (Mention.reference "p:*").Starred := text ▸ IsAnyOf.mk plain
  have call : (Mention.call "*").Starred := .inl rfl
  exact ⟨Expr.ofString_mention (.inr reference), fun proper => proper.star_not_mem (by decide),
    Expr.ofString_mention (.inr call), fun proper => proper.1.star_not_mem (by decide)⟩

end XmlStore
