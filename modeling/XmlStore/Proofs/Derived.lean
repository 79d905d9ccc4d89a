/-
What the grammar reads is derived by its productions. A rule reads a front of
the tokens, and that front derives what it gives; or it refuses something that
begins with one of the tokens, or is missing behind all of them.
-/
import XmlStore.Proofs.Tokens

namespace XmlStore

namespace Grammar

variable {α β : Type} {a : α} {ts front rest : List Lexeme} {token : Token}
variable {P : List Token → α → Prop} {Q : List Token → β → Prop} {rule : Rule α} {inner operand : Rule Expr}

/-- What a rule may come to: a front of the lexemes is read as it should be, or something is refused
that begins among them. -/
def Reaches (P : List Token → α → Prop) (ts : List Lexeme) : Except Refusal (α × List Lexeme) → Prop
  | .ok (a, rest) => ∃ front, ts = front ++ rest ∧ P (front.map (·.token)) a
  | .error refusal => refusal.found <:+ ts

/-- Whether a rule reads nothing but this from the tokens of a text. -/
def Obeys (rule : Rule α) (P : List Token → α → Prop) : Prop :=
  ∀ ts : List Lexeme, Lexed (ts.map (·.token)) → Reaches P ts (rule ts)

/-! ## One thing after the other -/

theorem Reaches.done (h : P [] a) : Reaches P ts (.ok (a, ts)) := ⟨[], rfl, h⟩

theorem Reaches.behind {x : Except Refusal (α × List Lexeme)}
    (h : Reaches (fun u => P (front.map (·.token) ++ u)) rest x) : Reaches P (front ++ rest) x := by
  rcases x with refusal | ⟨a, rest'⟩
  · exact List.IsSuffix.trans h (List.suffix_append ..)
  · obtain ⟨more, rfl, read⟩ := h
    refine ⟨front ++ more, (List.append_assoc ..).symm, ?_⟩
    rw [List.map_append]
    exact read

theorem Reaches.imp {R : List Token → α → Prop} {x : Except Refusal (α × List Lexeme)} (h : Reaches P ts x)
    (weaker : ∀ u a, P u a → R u a) : Reaches R ts x := by
  rcases x with refusal | ⟨a, rest⟩
  · exact h
  · obtain ⟨front, e, read⟩ := h
    exact ⟨front, e, weaker _ _ read⟩

theorem Reaches.bind {x : Except Refusal (α × List Lexeme)}
    {f : α × List Lexeme → Except Refusal (β × List Lexeme)} (first : Reaches P ts x)
    (lexed : Lexed (ts.map (·.token)))
    (next : ∀ u a rest, P u a → Lexed (rest.map (·.token)) → Reaches (fun v => Q (u ++ v)) rest (f (a, rest))) :
    Reaches Q ts (x >>= f) := by
  rcases x with refusal | ⟨a, rest⟩
  · exact first
  · obtain ⟨front, rfl, read⟩ := first
    rw [List.map_append] at lexed
    exact .behind (next _ a rest read lexed.behind)

/-- As `bind`, where nothing is read any more. -/
theorem Reaches.last {x : Except Refusal (α × List Lexeme)}
    {f : α × List Lexeme → Except Refusal (β × List Lexeme)} (first : Reaches P ts x)
    (next : ∀ u a rest, P u a → ∃ b, f (a, rest) = .ok (b, rest) ∧ Q u b) : Reaches Q ts (x >>= f) := by
  rcases x with refusal | ⟨a, rest⟩
  · exact first
  · obtain ⟨front, e, read⟩ := first
    obtain ⟨b, given, derived⟩ := next _ a rest read
    show Reaches Q ts (f (a, rest))
    rw [given]
    exact ⟨front, e, derived⟩

theorem Reaches.expect {s : Symbol} {f : List Lexeme → Except Refusal (β × List Lexeme)}
    (lexed : Lexed (ts.map (·.token)))
    (next : ∀ rest, Lexed (rest.map (·.token)) → Reaches (fun v => Q (.symbol s :: v)) rest (f rest)) :
    Reaches Q ts (expect s ts >>= f) := by
  unfold Grammar.expect
  split
  · rename_i found text rest
    split
    · rename_i e
      subst e
      exact @Reaches.behind _ [⟨.symbol found, text⟩] rest Q _ (next rest lexed.2)
    · exact List.suffix_refl _
  · exact List.suffix_refl _

/-! ## Repetition -/

/-- What one piece puts in front of others may be said of the whole by induction on the pieces. -/
theorem obeys_many {piece? : List Lexeme → Option (Except Refusal (α × List Lexeme))}
    {Q : List Token → List α → Prop}
    (each : ∀ ts x, Lexed (ts.map (·.token)) → piece? ts = some x → Reaches P ts x) (nil : Q [] [])
    (cons : ∀ u v a as, P u a → Q v as → Q (u ++ v) (a :: as)) : Obeys (many piece?) Q := by
  intro ts lexed
  fun_induction many piece? ts with
  | case1 ts none => exact .done nil
  | case2 ts refusal refused => exact each ts _ lexed refused
  | case3 ts a rest found shorter refusal refused ih =>
    obtain ⟨front, rfl, -⟩ := each ts _ lexed found
    rw [List.map_append] at lexed
    have refusal := ih lexed.behind
    rw [refused] at refusal
    exact List.IsSuffix.trans refusal (List.suffix_append ..)
  | case4 ts a rest found shorter as rest' others ih =>
    obtain ⟨front, rfl, read⟩ := each ts _ lexed found
    rw [List.map_append] at lexed
    have more := ih lexed.behind
    rw [others] at more
    obtain ⟨front', rfl, reads⟩ := more
    refine ⟨front ++ front', (List.append_assoc ..).symm, ?_⟩
    rw [List.map_append]
    exact cons _ _ _ _ read reads
  | case5 ts a rest found longer =>
    obtain ⟨front, rfl, read⟩ := each ts _ lexed found
    refine ⟨front, rfl, ?_⟩
    have single := cons _ _ _ _ read nil
    rw [List.append_nil] at single
    exact single

/-! ## Node tests and axes -/

theorem derives_nameTest (name : String) : (nameTest name).Derives [.name name] := by
  unfold nameTest
  dsimp only
  split
  · rename_i e
    subst e
    exact .any
  · rename_i proper
    split
    · rename_i qualifier hq hl
      refine .anyOf proper ?_
      rw [← hq, ← hl]
    · rename_i whole
      refine .name proper fun qualifier e => whole qualifier ?_ ?_
      · rw [e]
      · rw [e]

theorem derives_typeTest {kind : String} {test : NodeTest} (known : kind ∈ Lexer.nodeTypes)
    (e : typeTest kind ts = (test, rest)) : ∃ front, ts = front ++ rest ∧
      test.Derives (.nodeType kind :: .symbol .leftParen :: (front.map (·.token) ++ [.symbol .rightParen])) := by
  simp only [Lexer.nodeTypes, List.mem_cons, List.not_mem_nil, or_false] at known
  rcases known with rfl | rfl | rfl | rfl
  · cases e
    exact ⟨[], rfl, .comment⟩
  · cases e
    exact ⟨[], rfl, .text⟩
  · rcases ts with _ | ⟨⟨token, text⟩, ts⟩
    · cases e
      exact ⟨[], rfl, .instruction⟩
    · cases token with
      | literal target =>
        cases e
        exact ⟨[⟨.literal target, text⟩], rfl, .target target⟩
      | _ =>
        cases e
        exact ⟨[], rfl, .instruction⟩
  · cases e
    exact ⟨[], rfl, .node⟩

theorem obeys_nodeTest : Obeys nodeTest NodeTest.Derives := by
  intro ts lexed
  unfold nodeTest
  split
  · rename_i name text rest
    exact ⟨[⟨.name name, text⟩], rfl, derives_nameTest name⟩
  · rename_i kind text rest
    refine @Reaches.behind _ [⟨.nodeType kind, text⟩] rest NodeTest.Derives _ ?_
    refine .expect lexed.2 fun rest lexed' => ?_
    rcases e : typeTest kind rest with ⟨test, rest'⟩
    obtain ⟨front, rfl, derived⟩ := derives_typeTest lexed.1 e
    rw [List.map_append] at lexed'
    exact .behind (.expect lexed'.behind fun _ _ => .done derived)
  · exact List.suffix_refl _

theorem name_of_ofName? {name : String} {axis : Axis} (h : Axis.ofName? name = some axis) : axis.name = name := by
  rw [Axis.ofName?] at h
  have found := List.find?_some h
  exact beq_iff_eq.mp found

theorem obeys_axis : Obeys axis Axis.Derives := by
  intro ts lexed
  unfold Grammar.axis
  split
  · rename_i text rest
    exact ⟨[⟨.symbol .atSign, text⟩], rfl, .attributes⟩
  · rename_i name text rest
    split
    · rename_i axis known
      obtain rfl := name_of_ofName? known
      rcases rest with _ | ⟨⟨next, text'⟩, rest⟩
      · cases lexed.1
      · obtain rfl : next = .symbol .colonColon := Option.some.inj lexed.1
        exact ⟨[⟨.axis axis.name, text⟩, ⟨.symbol .colonColon, text'⟩], rfl, .named axis⟩
    · exact List.suffix_refl _
  · exact .done .child

/-! ## Steps -/

/-- A predicate in its brackets. -/
def Bracketed (u : List Token) (e : Expr) : Prop :=
  ∃ v, u = .symbol .leftBracket :: (v ++ [.symbol .rightBracket]) ∧ Derives .expression v e

theorem obeys_predicates (whole : Obeys inner (Derives .expression)) :
    Obeys (predicates inner) (Derives .predicates) := by
  refine @obeys_many _ Bracketed _ _ (fun ts x lexed found => ?_) .noPredicates ?_
  · split at found
    · rename_i text rest
      cases found
      refine @Reaches.behind _ [⟨.symbol .leftBracket, text⟩] rest Bracketed _ ?_
      refine (whole rest lexed.2).bind lexed.2 fun u e rest' derived lexed' => ?_
      exact .expect lexed' fun _ _ => .done ⟨u, rfl, derived⟩
    · cases found
  · rintro _ v p ps ⟨u, rfl, first⟩ others
    have both := Derives.predicates first others
    rw [List.cons_append, List.append_assoc]
    exact both

theorem obeys_step (whole : Obeys inner (Derives .expression)) : Obeys (step inner) (Derives .step) := by
  intro ts lexed
  unfold Grammar.step
  split
  · rename_i text rest
    exact ⟨[⟨.symbol .dot, text⟩], rfl, .here⟩
  · rename_i text rest
    exact ⟨[⟨.symbol .dotDot, text⟩], rfl, .up⟩
  · refine (obeys_axis ts lexed).bind lexed fun u axis rest along lexed => ?_
    refine (obeys_nodeTest rest lexed).bind lexed fun v test rest passes lexed => ?_
    refine (obeys_predicates whole rest lexed).last fun w ps rest kept => ⟨_, rfl, ?_⟩
    rw [← List.append_assoc]
    exact .step along passes kept

/-- Steps behind a separator. -/
def Separated (u : List Token) (steps : List Step) : Prop :=
  ∃ v s, Derives .step v s ∧ (u = .symbol .slash :: v ∧ steps = [s] ∨
    u = .symbol .doubleSlash :: v ∧ steps = [.anyDepth, s])

theorem obeys_furtherSteps (whole : Obeys inner (Derives .expression)) :
    Obeys (furtherSteps inner) (Derives .furtherSteps) := by
  intro ts lexed
  refine (@obeys_many _ Separated _ (fun u pieces => Derives .furtherSteps u pieces.flatten)
    (fun ts x lexed found => ?_) .noSteps ?_ ts lexed).last fun u pieces rest derived => ⟨_, rfl, derived⟩
  · obtain ⟨⟨between, rest⟩, separated, rfl⟩ := Option.map_eq_some_iff.mp found
    unfold separator? at separated
    split at separated
    · rename_i text rest'
      cases separated
      refine @Reaches.behind _ [⟨.symbol .slash, text⟩] rest Separated _ ?_
      exact (obeys_step whole rest lexed.2).last fun u s _ derived =>
        ⟨_, rfl, u, s, derived, .inl ⟨rfl, rfl⟩⟩
    · rename_i text rest'
      cases separated
      refine @Reaches.behind _ [⟨.symbol .doubleSlash, text⟩] rest Separated _ ?_
      exact (obeys_step whole rest lexed.2).last fun u s _ derived =>
        ⟨_, rfl, u, s, derived, .inr ⟨rfl, rfl⟩⟩
    · cases separated
  · rintro _ v _ pieces ⟨u, s, first, ⟨rfl, rfl⟩ | ⟨rfl, rfl⟩⟩ others
    · exact .nextStep first others
    · exact .deeperStep first others

theorem obeys_steps (whole : Obeys inner (Derives .expression)) : Obeys (steps inner) (Derives .steps) := by
  intro ts lexed
  refine (obeys_step whole ts lexed).bind lexed fun u s rest first lexed => ?_
  exact (obeys_furtherSteps whole rest lexed).last fun v others _ further => ⟨_, rfl, .steps first further⟩

/-! ## Primary expressions -/

/-- Arguments up to the closing parenthesis. -/
inductive Closed : List Token → List Expr → Prop where
  | none : Closed [.symbol .rightParen] []
  | some {u v : List Token} {e : Expr} {es : List Expr} (first : Derives .expression u e)
    (others : Derives .furtherArguments v es) : Closed (u ++ v ++ [.symbol .rightParen]) (e :: es)

/-- An argument behind a comma. -/
def Listed (u : List Token) (e : Expr) : Prop := ∃ v, u = .symbol .comma :: v ∧ Derives .expression v e

theorem obeys_arguments (whole : Obeys inner (Derives .expression)) : Obeys (arguments inner) Closed := by
  intro ts lexed
  unfold arguments
  split
  · rename_i text rest
    exact ⟨[⟨.symbol .rightParen, text⟩], rfl, .none⟩
  · refine (whole ts lexed).bind lexed fun u e rest first lexed => ?_
    refine (@obeys_many _ Listed _ (Derives .furtherArguments) (fun ts x lexed found => ?_) .noArguments ?_
      rest lexed).bind lexed fun v es rest others lexed => ?_
    · split at found
      · rename_i text rest
        cases found
        refine @Reaches.behind _ [⟨.symbol .comma, text⟩] rest Listed _ ?_
        exact (whole rest lexed.2).imp fun u e derived => ⟨u, rfl, derived⟩
      · cases found
    · rintro _ v e es ⟨u, rfl, first⟩ others
      exact .arguments first others
    · dsimp only
      split
      · rename_i text rest
        refine ⟨[⟨.symbol .rightParen, text⟩], rfl, ?_⟩
        have closed := Closed.some first others
        rw [List.append_assoc] at closed
        exact closed
      · exact List.suffix_refl _

theorem obeys_primary (whole : Obeys inner (Derives .expression)) : Obeys (primary inner) (Derives .primary) := by
  intro ts lexed
  unfold primary
  split
  · rename_i name text rest
    exact ⟨[⟨.reference name, text⟩], rfl, .reference name⟩
  · rename_i s text rest
    exact ⟨[⟨.literal s, text⟩], rfl, .literal s⟩
  · rename_i x text rest
    exact ⟨[⟨.number x, text⟩], rfl, .number x⟩
  · rename_i text rest
    refine @Reaches.behind _ [⟨.symbol .leftParen, text⟩] rest (Derives .primary) _ ?_
    refine (whole rest lexed.2).bind lexed.2 fun u e rest inside lexed => ?_
    exact .expect lexed fun _ _ => .done (.grouped inside)
  · rename_i name text rest
    refine @Reaches.behind _ [⟨.function name, text⟩] rest (Derives .primary) _ ?_
    refine .expect lexed.2 fun rest lexed => ?_
    refine (obeys_arguments whole rest lexed).last fun u es rest closed => ⟨_, rfl, ?_⟩
    cases closed with
    | none => exact .call name
    | some first others => exact .callWith name first others
  · exact List.suffix_refl _

/-! ## Paths -/

theorem obeys_filter (whole : Obeys inner (Derives .expression)) : Obeys (filter inner) (Derives .path) := by
  intro ts lexed
  refine (obeys_primary whole ts lexed).bind lexed fun u base rest primary lexed => ?_
  refine (obeys_predicates whole rest lexed).bind lexed fun v ps rest kept lexed => ?_
  have filtered : Derives .filter (u ++ v) (if ps.isEmpty then base else .filter base ps) := by
    cases ps with
    | nil =>
      cases kept
      rw [List.append_nil]
      exact .unfiltered primary
    | cons p ps => exact .filter primary kept
  refine (obeys_furtherSteps whole rest lexed).last fun w steps rest further => ⟨_, rfl, ?_⟩
  rw [← List.append_assoc]
  cases further with
  | noSteps =>
    rw [List.append_nil]
    exact .filtered filtered
  | nextStep first others => exact .fromFilter filtered (.steps first others)
  | deeperStep first others => exact .anywhereFrom filtered (.steps first others)

theorem obeys_path (whole : Obeys inner (Derives .expression)) : Obeys (path inner) (Derives .path) := by
  intro ts lexed
  unfold path
  split
  · rename_i text rest
    refine @Reaches.behind _ [⟨.symbol .slash, text⟩] rest (Derives .path) _ ?_
    split
    · exact (obeys_steps whole rest lexed.2).last fun u steps _ below => ⟨_, rfl, .absolute below⟩
    · exact .done .root
  · rename_i text rest
    refine @Reaches.behind _ [⟨.symbol .doubleSlash, text⟩] rest (Derives .path) _ ?_
    exact (obeys_steps whole rest lexed.2).last fun u steps _ below => ⟨_, rfl, .anywhere below⟩
  · split
    · exact (obeys_steps whole _ lexed).last fun u steps _ read => ⟨_, rfl, .relative read⟩
    · split
      · exact obeys_filter whole _ lexed
      · exact List.suffix_refl _
  · exact List.suffix_refl _

/-! ## Operators -/

theorem obeys_chain {operator? : Token → Option (Expr → Expr → Expr)} {P Q : List Token → Expr → Prop}
    (first : Obeys operand P) (single : ∀ u e, P u e → Q u e)
    (grouped : ∀ t next f u v a b, t.Fits next → operator? t = some f → Q u a → P v b → Q (u ++ t :: v) (f a b)) :
    Obeys (chain operator? operand) Q := by
  intro ts lexed
  refine (first ts lexed).bind lexed fun u e rest left lexed => ?_
  -- A piece, or several of them, may follow whatever there is as a left operand.
  let Appends (v : List Token) (f : Expr → Expr) : Prop := ∀ u a, Q u a → Q (u ++ v) (f a)
  refine (@obeys_many _ Appends _ (fun v fs => Appends v fun e => fs.foldl (fun left apply => apply left) e)
    (fun ts x lexed found => ?_) ?_ ?_ rest lexed).last fun v fs rest appends =>
      ⟨_, rfl, appends u e (single u e left)⟩
  · rcases ts with _ | ⟨⟨t, text⟩, ts⟩
    · cases found
    · obtain ⟨f, known, rfl⟩ := Option.map_eq_some_iff.mp found
      refine @Reaches.behind _ [⟨t, text⟩] ts Appends _ ?_
      exact (first ts lexed.2).last fun v b _ right =>
        ⟨_, rfl, fun u a left => grouped t _ f u v a b lexed.1 known left right⟩
  · intro u a left
    rw [List.append_nil]
    exact left
  · intro u v f fs first others w a left
    rw [← List.append_assoc]
    exact others _ _ (first w a left)

theorem obeys_union (whole : Obeys inner (Derives .expression)) : Obeys (union inner) (Derives .union) := by
  refine obeys_chain (obeys_path whole) (fun _ _ => .single) fun t _ f u v a b _ known left right => ?_
  split at known
  · cases known
    exact .union left right
  · cases known

theorem obeys_negation (whole : Obeys inner (Derives .expression)) :
    Obeys (negation inner) (Derives .negation) := by
  intro ts
  fun_induction negation inner ts with
  | case1 text rest ih =>
    intro lexed
    refine @Reaches.behind _ [⟨.symbol .minus, text⟩] rest (Derives .negation) _ ?_
    exact (ih lexed.2).last fun u e _ inside => ⟨_, rfl, .negated inside⟩
  | case2 ts => exact fun lexed => (obeys_union whole ts lexed).imp fun _ _ => .unnegated

/-! ## Strengths -/

/-- The operator of a strength that a token is. -/
def operatorAt? (strength : Nat) (token : Token) : Option BinaryOp := operatorOf? (levels.getD strength []) token

theorem operatorAt?_token {strength : Nat} (op : BinaryOp) (h : strength < 6) :
    operatorAt? strength op.token = if op.strength = strength then some op else none := by
  revert strength
  cases op <;> decide +kernel

theorem strength_of_mem {strength : Nat} {op : BinaryOp} (h : op ∈ levels.getD strength []) :
    op.strength = strength := by
  have each : ∀ n < 6, ∀ op ∈ levels.getD n [], op.strength = n := by decide
  by_cases loose : strength < 6
  · exact each strength loose op h
  · have none : levels.getD strength [] = [] := List.getD_eq_default _ _ (Nat.le_of_not_lt loose)
    rw [none] at h
    exact absurd h List.not_mem_nil

theorem of_operatorAt? {strength : Nat} {token : Token} {next : Option Token} {op : BinaryOp}
    (fits : token.Fits next) (h : operatorAt? strength token = some op) :
    token = op.token ∧ op.strength = strength := by
  unfold operatorAt? operatorOf? at h
  split at h
  · split at h
    · rename_i known
      cases h
      exact ⟨fits.symm, strength_of_mem (List.contains_iff_mem.mp known)⟩
    · cases h
  · have same := List.find?_some h
    exact ⟨(BinaryOp.token_of_spelling (beq_iff_eq.mp same)).symm, strength_of_mem (List.mem_of_find?_eq_some h)⟩
  · cases h

/-- Expressions with operators of a strength or of a greater one. -/
def operation (inner : Rule Expr) (strength : Nat) : Rule Expr :=
  (levels.drop strength).foldr (fun level => chain fun token => (operatorOf? level token).map .binary)
    (negation inner)

theorem operation_eq {strength : Nat} (loose : strength < 6) : operation inner strength =
    chain (fun token => (operatorAt? strength token).map .binary) (operation inner (strength + 1)) := by
  interval_cases strength <;> rfl

theorem obeys_operation (whole : Obeys inner (Derives .expression)) {strength more : Nat}
    (h : strength + more = 6) : Obeys (operation inner strength) (Derives (.operation strength)) := by
  induction more generalizing strength with
  | zero =>
    obtain rfl : strength = 6 := h
    exact fun ts lexed => (obeys_negation whole ts lexed).imp fun _ _ => .strongest
  | succ more ih =>
    have loose : strength < 6 := by omega
    rw [operation_eq loose]
    refine obeys_chain (ih (by omega)) (fun _ _ => .operand loose) fun t next f u v a b fits known left right => ?_
    obtain ⟨op, found, rfl⟩ := Option.map_eq_some_iff.mp known
    obtain ⟨rfl, rfl⟩ := of_operatorAt? fits found
    exact .operation left right

/-- By the levels of nesting. -/
theorem obeys_expression (depth : Nat) : Obeys (expression depth) (Derives .expression) := by
  induction depth with
  | zero => exact fun ts _ => List.suffix_refl ts
  | succ depth ih => exact @obeys_operation _ ih 0 6 rfl

end Grammar

end XmlStore
