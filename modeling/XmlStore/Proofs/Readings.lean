/-
What derives from the productions is read by the grammar. A rule reads a
phrase before everything that may not go on with it: a closing symbol, or an
operator that binds less strongly. Left operands are read before an operator
of their own strength too; how the rule goes on from there is then part of
what is said of it.
-/
import XmlStore.Proofs.Derived

namespace XmlStore

namespace Grammar

variable {α : Type} {strength depth : Nat} {op : BinaryOp} {token : Token} {u v tokens rest tail : List Token}
variable {a b e : Expr} {inner operand : Rule Expr} {ts : List Lexeme}

/-! ## Rules and tokens -/

/-- From these tokens the rule reads `a` and stops before `rest`. -/
def Reads (rule : Rule α) (tokens : List Token) (a : α) (rest : List Token) : Prop :=
  ∀ ts : List Lexeme, ts.map (·.token) = tokens →
    ∃ ts', rule ts = .ok (a, ts') ∧ ts'.map (·.token) = rest

theorem lexeme_of_token (h : ts.map (·.token) = token :: tokens) :
    ∃ text more, ts = ⟨token, text⟩ :: more ∧ more.map (·.token) = tokens := by
  obtain ⟨⟨_, text⟩, more, rfl, rfl, rest⟩ := List.map_eq_cons_iff.mp h
  exact ⟨text, more, rfl, rest⟩

theorem length_lt_of_tokens {l : Lexeme} {ts' : List Lexeme} (h : ts.map (·.token) = tokens)
    (h' : ts'.map (·.token) = rest) (shorter : rest.length ≤ tokens.length) : ts'.length < (l :: ts).length := by
  rw [← h, ← h', List.length_map, List.length_map] at shorter
  exact Nat.lt_succ_of_le shorter

theorem expect_symbol {s : Symbol} (h : ts.map (·.token) = .symbol s :: rest) :
    ∃ ts', expect s ts = .ok ts' ∧ ts'.map (·.token) = rest := by
  obtain ⟨text, more, rfl, hmore⟩ := lexeme_of_token h
  exact ⟨more, if_pos rfl, hmore⟩

/-! ## Repetition -/

section

variable {x : α} {piece? : List Lexeme → Option (Except Refusal (α × List Lexeme))} {as : List α}

theorem many_none (none : piece? ts = none) : many piece? ts = .ok ([], ts) := by
  rw [many, none]

theorem many_some {ts' ts'' : List Lexeme} (first : piece? ts = some (.ok (x, ts')))
    (shorter : ts'.length < ts.length) (others : many piece? ts' = .ok (as, ts'')) :
    many piece? ts = .ok (x :: as, ts'') := by
  rw [many, first]
  dsimp only
  rw [if_pos shorter, others]

end

/-! ## What may follow -/

/-- Whether a token goes on with a path: a separator, or the start of a predicate or of a step. -/
def goesOn : Token → Bool
  | .symbol s => [.leftBracket, .slash, .doubleSlash, .dot, .dotDot, .atSign].contains s
  | .name _ | .nodeType _ | .axis _ => true
  | _ => false

/-- What does not go on with an expression whose operators are of a strength or greater; unions are
of strength 6, and nothing binds more strongly. -/
inductive Ends (strength : Nat) : List Token → Prop where
  | nil : Ends strength []
  | closed {s : Symbol} (rest : List Token) (closes : s ∈ [.rightParen, .rightBracket, .comma]) :
    Ends strength (.symbol s :: rest)
  | operator {op : BinaryOp} (rest : List Token) (weaker : op.strength < strength) :
    Ends strength (op.token :: rest)
  | bar (rest : List Token) (strong : 6 < strength) : Ends strength (.symbol .bar :: rest)

namespace Ends

theorem mono {n m : Nat} (h : Ends n rest) (le : n ≤ m) : Ends m rest := by
  cases h with
  | nil => exact nil
  | closed rest closes => exact closed rest closes
  | operator rest weaker => exact operator rest (Nat.lt_of_lt_of_le weaker le)
  | bar rest strong => exact bar rest (Nat.lt_of_lt_of_le strong le)

theorem operatorAt? {n : Nat} (h : Ends n rest) (le : n ≤ strength) (loose : strength < 6) :
    ∀ t ∈ rest.head?, operatorAt? strength t = none := by
  have closing : ∀ n < 6, ∀ s ∈ [Symbol.rightParen, .rightBracket, .comma],
      Grammar.operatorAt? n (.symbol s) = none := by decide +kernel
  cases h with
  | nil => exact nofun
  | closed rest closes =>
    rintro _ ⟨⟩
    exact closing strength loose _ closes
  | operator rest weaker =>
    rintro _ ⟨⟩
    rw [operatorAt?_token _ loose, if_neg (by omega)]
  | bar rest strong => omega

theorem not_bar (h : Ends 6 rest) : rest.head? ≠ some (.symbol .bar) := by
  cases h with
  | nil => exact nofun
  | @closed s rest closes =>
    rintro ⟨⟩
    exact absurd closes (by decide)
  | @operator op => cases op <;> exact nofun
  | bar rest strong => omega

theorem goesOn {n : Nat} (h : Ends n rest) : ∀ t ∈ rest.head?, goesOn t = false := by
  cases h with
  | nil => exact nofun
  | closed rest closes =>
    rintro _ ⟨⟩
    have closing : ∀ s ∈ [Symbol.rightParen, .rightBracket, .comma], Grammar.goesOn (.symbol s) = false := by
      decide
    exact closing _ closes
  | @operator op rest weaker =>
    rintro _ ⟨⟩
    cases op <;> rfl
  | bar rest strong =>
    rintro _ ⟨⟩
    rfl

end Ends

/-! ## Operators -/

section

variable {operator? : Token → Option (Expr → Expr → Expr)} {f : Expr → Expr → Expr} {e' : Expr}

/-- An operator with its right operand, waiting for the left one. -/
def operation? (operator? : Token → Option (Expr → Expr → Expr)) (operand : Rule Expr) :
    List Lexeme → Option (Except Refusal ((Expr → Expr) × List Lexeme))
  | [] => none
  | t :: rest => (operator? t.token).map fun operator => do
    let (right, rest) ← operand rest
    return (fun left => operator left right, rest)

/-- Behind the left operand `e`, operators and their right operands lead to `e'`, before `tail`. -/
def Goes (operator? : Token → Option (Expr → Expr → Expr)) (operand : Rule Expr) (e : Expr) (rest : List Token)
    (e' : Expr) (tail : List Token) : Prop :=
  ∀ ts : List Lexeme, ts.map (·.token) = rest → ∃ fs ts', many (operation? operator? operand) ts = .ok (fs, ts') ∧
    ts'.map (·.token) = tail ∧ fs.foldl (fun left apply => apply left) e = e'

theorem goes_none (ends : ∀ t ∈ rest.head?, operator? t = none) : Goes operator? operand e rest e rest := by
  intro ts hts
  refine ⟨[], ts, many_none ?_, hts, rfl⟩
  cases ts with
  | nil => rfl
  | cons t ts =>
    rw [← hts] at ends
    rw [operation?, ends t.token rfl]
    rfl

theorem goes_on (known : operator? token = some f) (right : Reads operand tokens b rest)
    (shorter : rest.length ≤ tokens.length) (others : Goes operator? operand (f a b) rest e' tail) :
    Goes operator? operand a (token :: tokens) e' tail := by
  intro ts hts
  obtain ⟨text, more, rfl, hmore⟩ := lexeme_of_token hts
  obtain ⟨ts₁, read, hts₁⟩ := right more hmore
  obtain ⟨fs, ts₂, repeated, hts₂, folded⟩ := others ts₁ hts₁
  refine ⟨(fun left => f left b) :: fs, ts₂, many_some ?_ ?_ repeated, hts₂, folded⟩
  · rw [operation?, known]
    exact congrArg some (bind_eq_ok.2 ⟨_, read, rfl⟩)
  · exact length_lt_of_tokens hmore hts₁ shorter

theorem reads_goes (left : Reads operand tokens e rest) (onward : Goes operator? operand e rest e' tail) :
    Reads (chain operator? operand) tokens e' tail := by
  intro ts hts
  obtain ⟨ts₁, first, hts₁⟩ := left ts hts
  obtain ⟨fs, ts₂, repeated, hts₂, rfl⟩ := onward ts₁ hts₁
  exact ⟨ts₂, bind_eq_ok.2 ⟨_, first, bind_eq_ok.2 ⟨_, repeated, rfl⟩⟩, hts₂⟩

end

/-! ## Node tests and axes -/

/-- What a step begins with, if it is no short form. -/
def Starts (token : Token) : Prop :=
  token = .symbol .atSign ∨ ∃ name, token = .name name ∨ token = .nodeType name ∨ token = .axis name

theorem starts_of_derives {axis : Axis} {test : NodeTest} (along : axis.Derives u) (passes : test.Derives v) :
    ∃ token rest, u ++ v = token :: rest ∧ Starts token := by
  cases along with
  | named axis => exact ⟨_, _, rfl, .inr ⟨axis.name, .inr (.inr rfl)⟩⟩
  | attributes => exact ⟨_, _, rfl, .inl rfl⟩
  | child =>
    cases passes with
    | any | anyOf | name => exact ⟨_, _, rfl, .inr ⟨_, .inl rfl⟩⟩
    | node | text | comment | instruction | target => exact ⟨_, _, rfl, .inr ⟨_, .inr (.inl rfl)⟩⟩

theorem nameTest_of_derives {name : String} {test : NodeTest} (passes : test.Derives [.name name]) :
    nameTest name = test := by
  unfold nameTest
  dsimp only
  cases passes with
  | any => exact if_pos rfl
  | anyOf proper split =>
    rw [if_neg proper, split]
    rfl
  | name proper whole =>
    rw [if_neg proper]
    split
    · rename_i qualifier hq hl
      refine absurd ?_ (whole qualifier)
      rw [← hq, ← hl]
    · rfl

theorem reads_test {test : NodeTest} (passes : test.Derives v) : Reads nodeTest (v ++ rest) test rest := by
  intro ts hts
  have named {name : String} (e : v = [.name name]) : ∃ ts', nodeTest ts = .ok (test, ts') ∧
      ts'.map (·.token) = rest := by
    subst e
    obtain ⟨text, more, rfl, hmore⟩ := lexeme_of_token hts
    refine ⟨more, ?_, hmore⟩
    rw [nodeTest, nameTest_of_derives passes]
  cases passes with
  | any | anyOf | name => exact named rfl
  | target target =>
    obtain ⟨text, more, rfl, hmore⟩ := lexeme_of_token hts
    obtain ⟨text', more', rfl, hmore'⟩ := lexeme_of_token hmore
    obtain ⟨text'', more'', rfl, hmore''⟩ := lexeme_of_token hmore'
    obtain ⟨text₃, more₃, rfl, hmore₃⟩ := lexeme_of_token hmore''
    exact ⟨more₃, rfl, hmore₃⟩
  | node | text | comment | instruction =>
    obtain ⟨text, more, rfl, hmore⟩ := lexeme_of_token hts
    obtain ⟨text', more', rfl, hmore'⟩ := lexeme_of_token hmore
    obtain ⟨text'', more'', rfl, hmore''⟩ := lexeme_of_token hmore'
    exact ⟨more'', rfl, hmore''⟩

theorem reads_axis {axis : Axis} {test : NodeTest} (along : axis.Derives u) (passes : test.Derives v) :
    Reads Grammar.axis (u ++ (v ++ rest)) axis (v ++ rest) := by
  intro ts hts
  cases along with
  | named =>
    obtain ⟨text, more, rfl, hmore⟩ := lexeme_of_token hts
    obtain ⟨text', more', rfl, hmore'⟩ := lexeme_of_token hmore
    refine ⟨more', ?_, hmore'⟩
    rw [Grammar.axis, Axis.ofName?_name]
    rfl
  | attributes =>
    obtain ⟨text, more, rfl, hmore⟩ := lexeme_of_token hts
    exact ⟨more, rfl, hmore⟩
  | child =>
    refine ⟨ts, ?_, hts⟩
    cases passes <;> obtain ⟨text, more, rfl, hmore⟩ := lexeme_of_token hts <;> rfl

/-! ## Steps -/

theorem step_eq {text : List Char} (starts : Starts token) : step inner (⟨token, text⟩ :: ts) = do
    let (axis, ts) ← axis (⟨token, text⟩ :: ts)
    let (test, ts) ← nodeTest ts
    let (predicates, ts) ← predicates inner ts
    return (.mk axis test predicates, ts) := by
  rcases starts with rfl | ⟨name, rfl | rfl | rfl⟩ <;> rfl

theorem reads_fullStep {axis : Axis} {test : NodeTest} {ps : List Expr} (along : axis.Derives u)
    (passes : test.Derives v) (kept : Reads (predicates inner) tokens ps rest) :
    Reads (step inner) (u ++ v ++ tokens) (.mk axis test ps) rest := by
  intro ts hts
  have starts := starts_of_derives along passes
  rw [List.append_assoc] at hts
  obtain ⟨ts₁, first, hts₁⟩ := reads_axis along passes ts hts
  obtain ⟨ts₂, second, hts₂⟩ := reads_test passes ts₁ hts₁
  obtain ⟨ts₃, third, hts₃⟩ := kept ts₂ hts₂
  refine ⟨ts₃, ?_, hts₃⟩
  obtain ⟨token, others, e, starts⟩ := starts
  rw [← List.append_assoc, e] at hts
  obtain ⟨text, more, rfl, hmore⟩ := lexeme_of_token hts
  rw [step_eq starts]
  exact bind_eq_ok.2 ⟨_, first, bind_eq_ok.2 ⟨_, second, bind_eq_ok.2 ⟨_, third, rfl⟩⟩⟩

theorem reads_predicates_none (ends : rest.head? ≠ some (.symbol .leftBracket)) :
    Reads (predicates inner) rest [] rest := by
  intro ts hts
  refine ⟨ts, many_none ?_, hts⟩
  split
  · rename_i more
    rw [← hts] at ends
    exact absurd rfl ends
  · rfl

theorem reads_predicate {p : Expr} {ps : List Expr}
    (first : Reads inner tokens p (.symbol .rightBracket :: rest)) (shorter : rest.length ≤ tokens.length)
    (others : Reads (predicates inner) rest ps tail) :
    Reads (predicates inner) (.symbol .leftBracket :: tokens) (p :: ps) tail := by
  intro ts hts
  obtain ⟨text, more, rfl, hmore⟩ := lexeme_of_token hts
  obtain ⟨ts₁, read, hts₁⟩ := first more hmore
  obtain ⟨ts₂, closed, hts₂⟩ := expect_symbol hts₁
  obtain ⟨ts₃, kept, hts₃⟩ := others ts₂ hts₂
  refine ⟨ts₃, many_some ?_ (length_lt_of_tokens hmore hts₂ shorter) kept, hts₃⟩
  exact congrArg some (bind_eq_ok.2 ⟨_, read, bind_eq_ok.2 ⟨_, closed, rfl⟩⟩)

theorem furtherSteps_separated {s : Step} {between steps : List Step}
    (separates : ∀ text rest, separator? (⟨token, text⟩ :: rest) = some (between, rest))
    (first : Reads (step inner) tokens s rest) (shorter : rest.length ≤ tokens.length)
    (others : Reads (furtherSteps inner) rest steps tail) :
    Reads (furtherSteps inner) (token :: tokens) (between ++ s :: steps) tail := by
  intro ts hts
  obtain ⟨text, more, rfl, hmore⟩ := lexeme_of_token hts
  obtain ⟨ts₁, stepped, hts₁⟩ := first more hmore
  obtain ⟨ts₂, further, hts₂⟩ := others ts₁ hts₁
  obtain ⟨⟨pieces, ts₂'⟩, repeated, e⟩ := bind_eq_ok.1 further
  cases e
  refine ⟨ts₂, bind_eq_ok.2 ⟨((between ++ [s]) :: pieces, ts₂), many_some ?_ ?_ repeated, ?_⟩, hts₂⟩
  · rw [separates]
    exact congrArg some (bind_eq_ok.2 ⟨_, stepped, rfl⟩)
  · exact length_lt_of_tokens hmore hts₁ shorter
  · have flat : ((between ++ [s]) :: pieces).flatten = between ++ s :: pieces.flatten := by simp
    exact congrArg (fun steps => Except.ok (steps, ts₂)) flat

theorem furtherSteps_cons {s : Step} {steps : List Step} (first : Reads (step inner) tokens s rest)
    (shorter : rest.length ≤ tokens.length) (others : Reads (furtherSteps inner) rest steps tail) :
    Reads (furtherSteps inner) (.symbol .slash :: tokens) (s :: steps) tail := by
  show Reads (furtherSteps inner) (.symbol .slash :: tokens) ([] ++ s :: steps) tail
  exact furtherSteps_separated (fun _ _ => rfl) first shorter others

theorem furtherSteps_none (ends : ∀ t ∈ rest.head?, goesOn t = false) : Reads (furtherSteps inner) rest [] rest := by
  intro ts hts
  refine ⟨ts, bind_eq_ok.2 ⟨([], ts), many_none ?_, rfl⟩, hts⟩
  unfold separator?
  split
  · rw [← hts] at ends
    cases ends _ rfl
  · rw [← hts] at ends
    cases ends _ rfl
  · rfl

/-! ## What phrases begin with -/

/-- What a path may begin with. -/
def startsPath : Token → Bool
  | .symbol s => [.slash, .doubleSlash, .dot, .dotDot, .atSign, .leftParen].contains s
  | .operator _ => false
  | _ => true

/-- What is known of the first token of a phrase, if there is one. -/
def Begins (kind : Nonterminal) (tokens : List Token) : Prop :=
  match kind with
  | .step | .steps => ∃ t rest, tokens = t :: rest ∧ startsStep t = true
  | .primary | .filter => ∃ t rest, tokens = t :: rest ∧ startsPrimary t = true
  | .path | .union => ∃ t rest, tokens = t :: rest ∧ startsPath t = true
  | .negation | .operation _ => ∃ t rest, tokens = t :: rest ∧ (t = .symbol .minus ∨ startsPath t = true)
  | .furtherSteps => ∀ t ∈ tokens.head?, t = .symbol .slash ∨ t = .symbol .doubleSlash
  | .furtherArguments => ∀ t ∈ tokens.head?, t = .symbol .comma
  | .predicates => True

theorem startsPath_of_startsStep {t : Token} (h : startsStep t = true) : startsPath t = true := by
  cases t with
  | symbol s =>
    revert h
    cases s <;> decide
  | name | nodeType | «axis» => rfl
  | _ => cases h

theorem startsPath_of_startsPrimary {t : Token} (h : startsPrimary t = true) : startsPath t = true := by
  cases t with
  | symbol s =>
    revert h
    cases s <;> decide
  | reference | literal | number | function => rfl
  | _ => cases h

theorem begins {kind : Nonterminal} {tree : kind.Tree} (h : Derives kind u tree) : Begins kind u := by
  induction h with
  | operation left right ihl ihr =>
    obtain ⟨t, rest, rfl, begins⟩ := ihl
    exact ⟨t, _, rfl, begins⟩
  | operand loose tighter ih => exact ih
  | strongest operand ih => exact ih
  | negated inner ih => exact ⟨_, _, rfl, .inl rfl⟩
  | unnegated inner ih =>
    obtain ⟨t, rest, rfl, begins⟩ := ih
    exact ⟨t, rest, rfl, .inr begins⟩
  | union left right ihl ihr =>
    obtain ⟨t, rest, rfl, begins⟩ := ihl
    exact ⟨t, _, rfl, begins⟩
  | single path ih => exact ih
  | root | absolute | anywhere => exact ⟨_, _, rfl, rfl⟩
  | relative _ ih =>
    obtain ⟨t, rest, rfl, begins⟩ := ih
    exact ⟨t, rest, rfl, startsPath_of_startsStep begins⟩
  | filtered base ih =>
    obtain ⟨t, rest, rfl, begins⟩ := ih
    exact ⟨t, rest, rfl, startsPath_of_startsPrimary begins⟩
  | fromFilter base below ih _ | anywhereFrom base below ih _ =>
    obtain ⟨t, rest, rfl, begins⟩ := ih
    exact ⟨t, _, rfl, startsPath_of_startsPrimary begins⟩
  | unfiltered base ih => exact ih
  | filter base kept ih _ =>
    obtain ⟨t, rest, rfl, begins⟩ := ih
    exact ⟨t, _, rfl, begins⟩
  | reference | literal | number | grouped | call | callWith => exact ⟨_, _, rfl, rfl⟩
  | noArguments => exact nofun
  | arguments =>
    rintro _ ⟨⟩
    rfl
  | noPredicates | predicates => trivial
  | steps first others ih _ =>
    obtain ⟨t, rest, rfl, begins⟩ := ih
    exact ⟨t, _, rfl, begins⟩
  | noSteps => exact nofun
  | nextStep =>
    rintro _ ⟨⟩
    exact .inl rfl
  | deeperStep =>
    rintro _ ⟨⟩
    exact .inr rfl
  | here | up => exact ⟨_, _, rfl, rfl⟩
  | step along passes kept =>
    obtain ⟨t, rest, e, starts⟩ := starts_of_derives along passes
    rw [e]
    refine ⟨t, _, rfl, ?_⟩
    rcases starts with rfl | ⟨name, rfl | rfl | rfl⟩ <;> rfl

end Grammar

end XmlStore
