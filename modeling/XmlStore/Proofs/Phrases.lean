/-
Expressions are read as the productions say. Every rule of the grammar reads
the phrases of its kind, by induction on their derivations; together with what
the rules obey, an expression has a tree exactly if its tokens derive one, and
then it is that tree.
-/
import XmlStore.Proofs.Readings

namespace XmlStore

namespace Grammar

variable {strength depth : Nat} {op : BinaryOp} {token : Token} {u v rest tail : List Token}
variable {a b e : Expr} {inner : Rule Expr} {ts : List Lexeme}

/-! ## Phrases and their rules -/

/-- The operators of a strength, ready for their operands. -/
def binary? (strength : Nat) (token : Token) : Option (Expr → Expr → Expr) :=
  (operatorAt? strength token).map .binary

def bar? : Token → Option (Expr → Expr → Expr)
  | .symbol .bar => some .union
  | _ => none

/-- One more argument, behind a comma. -/
def argument? (inner : Rule Expr) : List Lexeme → Option (Except Refusal (Expr × List Lexeme))
  | ⟨.symbol .comma, _⟩ :: rest => some (inner rest)
  | _ => none

/-- What the rules for a kind of phrases do at one of its phrases: they read it before all that ends it.
Nesting is no deeper than `depth`. -/
def ReadsPhrase (depth : Nat) (kind : Nonterminal) (u : List Token) (tree : kind.Tree) : Prop :=
  let inner := expression depth
  match kind, tree with
  | .operation strength, e =>
    (∀ rest, Ends strength rest → Reads (operation inner strength) (u ++ rest) e rest) ∧
      (strength < 6 → ∀ rest e' tail, Ends (strength + 1) rest →
        Goes (binary? strength) (operation inner (strength + 1)) e rest e' tail →
        Reads (operation inner strength) (u ++ rest) e' tail)
  | .negation, e => ∀ rest, Ends 6 rest → Reads (negation inner) (u ++ rest) e rest
  | .union, e => ∀ rest e' tail, Ends 7 rest → Goes bar? (path inner) e rest e' tail →
    Reads (union inner) (u ++ rest) e' tail
  | .path, e => ∀ rest, Ends 7 rest → Reads (path inner) (u ++ rest) e rest
  | .filter, e => ∀ rest, rest.head? ≠ some (.symbol .leftBracket) → ∃ base ps behind,
    e = (if ps.isEmpty then base else .filter base ps) ∧ Reads (primary inner) (u ++ rest) base behind ∧
      Reads (predicates inner) behind ps rest
  | .primary, e => ∀ rest, Reads (primary inner) (u ++ rest) e rest
  | .steps, ss => ∀ rest, Ends 7 rest → Reads (steps inner) (u ++ rest) ss rest ∧
    Reads (furtherSteps inner) (.symbol .slash :: (u ++ rest)) ss rest ∧
      Reads (furtherSteps inner) (.symbol .doubleSlash :: (u ++ rest)) (.anyDepth :: ss) rest
  | .furtherSteps, ss => ∀ rest, Ends 7 rest → Reads (furtherSteps inner) (u ++ rest) ss rest
  | .step, s => ∀ rest, rest.head? ≠ some (.symbol .leftBracket) → Reads (step inner) (u ++ rest) s rest
  | .predicates, ps => ∀ rest, rest.head? ≠ some (.symbol .leftBracket) →
    Reads (predicates inner) (u ++ rest) ps rest
  | .furtherArguments, es => ∀ rest, Reads (many (argument? inner)) (u ++ .symbol .rightParen :: rest) es
    (.symbol .rightParen :: rest)

theorem reads_inner (h : ∀ depth, u.length ≤ depth → ReadsPhrase depth .expression u e) (enough : u.length < depth)
    (ends : Ends 0 rest) : Reads (expression depth) (u ++ rest) e rest := by
  obtain ⟨n, rfl⟩ : ∃ n, depth = n + 1 := ⟨depth - 1, by omega⟩
  exact (h n (by omega)).1 rest ends

section

variable {s : Step} {steps' : List Step} {es ps : List Expr}

/-! ## Operators, the loosest first -/

theorem strength_lt (op : BinaryOp) : op.strength < 6 := by cases op <;> decide

/-- It is enough to know how a rule for operators goes on behind a phrase. -/
theorem reads_operation (loose : strength < 6) (onward : ∀ rest e' tail, Ends (strength + 1) rest →
      Goes (binary? strength) (operation (expression depth) (strength + 1)) e rest e' tail →
      Reads (operation (expression depth) strength) (u ++ rest) e' tail) :
    ReadsPhrase depth (.operation strength) u e := by
  refine ⟨fun rest ends => onward rest e rest (ends.mono (Nat.le_succ _)) (goes_none fun t ht => ?_), fun _ => onward⟩
  rw [binary?, ends.operatorAt? (Nat.le_refl _) loose t ht]
  rfl

theorem reads_operand (loose : strength < 6) (h : ReadsPhrase depth (.operation (strength + 1)) u e) :
    ReadsPhrase depth (.operation strength) u e := by
  refine reads_operation loose fun rest e' tail ends onward => ?_
  rw [operation_eq loose]
  exact reads_goes (h.1 rest ends) onward

theorem reads_binary (left : ReadsPhrase depth (.operation op.strength) u a)
    (right : ReadsPhrase depth (.operation (op.strength + 1)) v b) :
    ReadsPhrase depth (.operation op.strength) (u ++ op.token :: v) (Expr.binary op a b) := by
  have loose := strength_lt op
  have known : binary? op.strength op.token = some (.binary op) := by
    rw [binary?, operatorAt?_token op loose, if_pos rfl]
    rfl
  refine reads_operation loose fun rest e' tail ends onward => ?_
  rw [List.append_assoc, List.cons_append]
  refine left.2 loose _ e' tail (.operator _ (Nat.lt_succ_self _)) ?_
  exact goes_on known (right.1 rest ends) (by simp) onward

theorem reads_negated (h : ReadsPhrase depth .negation u e) :
    ReadsPhrase depth .negation (.symbol .minus :: u) (Expr.negate e) := by
  intro rest ends ts hts
  obtain ⟨text, more, rfl, hmore⟩ := lexeme_of_token hts
  obtain ⟨ts₁, read, hts₁⟩ := h rest ends more hmore
  refine ⟨ts₁, ?_, hts₁⟩
  rw [negation]
  exact bind_eq_ok.2 ⟨_, read, rfl⟩

theorem reads_unnegated (begins : Begins .union u) (h : ReadsPhrase depth .union u e) :
    ReadsPhrase depth .negation u e := by
  intro rest ends ts hts
  have single : Goes bar? (path (expression depth)) e rest e rest := by
    refine goes_none fun t ht => ?_
    have := ends.not_bar
    unfold bar?
    split
    · exact absurd ht this
    · rfl
  obtain ⟨ts₁, read, hts₁⟩ := h rest e rest (ends.mono (by decide)) single ts hts
  refine ⟨ts₁, ?_, hts₁⟩
  obtain ⟨t, others, rfl, starts⟩ := begins
  unfold negation
  split
  · obtain rfl : .symbol .minus = t := (List.cons.inj hts).1
    cases starts
  · exact read

theorem reads_union (left : ReadsPhrase depth .union u a) (right : ReadsPhrase depth .path v b) :
    ReadsPhrase depth .union (u ++ .symbol .bar :: v) (Expr.union a b) := by
  intro rest e' tail ends onward
  rw [List.append_assoc, List.cons_append]
  refine left _ e' tail (.bar _ (by decide)) ?_
  exact goes_on rfl (right rest ends) (by simp) onward

theorem reads_single (h : ReadsPhrase depth .path u e) : ReadsPhrase depth .union u e :=
  fun rest _ _ ends onward => reads_goes (h rest ends) onward

/-! ## Paths -/

theorem startsStep_of_goesOn (h : goesOn token = false) : startsStep token = false := by
  cases token with
  | symbol s =>
    revert h
    cases s <;> decide
  | name | nodeType | «axis» => cases h
  | _ => rfl

theorem reads_root : ReadsPhrase depth .path [.symbol .slash] (Expr.rootPath []) := by
  intro rest ends ts hts
  obtain ⟨text, more, rfl, hmore : more.map (·.token) = rest⟩ := lexeme_of_token hts
  refine ⟨more, ?_, hmore⟩
  have alone : more.head?.any (startsStep ·.token) = false := by
    cases more with
    | nil => rfl
    | cons t more =>
      rw [← hmore] at ends
      exact startsStep_of_goesOn (ends.goesOn t.token rfl)
  rw [path, alone]
  rfl

theorem reads_absolute (begins : Begins .steps u) (h : ReadsPhrase depth .steps u steps') :
    ReadsPhrase depth .path (.symbol .slash :: u) (Expr.rootPath steps') := by
  intro rest ends ts hts
  obtain ⟨text, more, rfl, hmore⟩ := lexeme_of_token hts
  obtain ⟨ts₁, read, hts₁⟩ := (h rest ends).1 more hmore
  refine ⟨ts₁, ?_, hts₁⟩
  obtain ⟨t, others, rfl, starts⟩ := begins
  obtain ⟨text', more', rfl, -⟩ := lexeme_of_token hmore
  rw [path]
  dsimp only
  rw [List.head?_cons, Option.any_some, if_pos starts]
  exact bind_eq_ok.2 ⟨_, read, rfl⟩

theorem reads_anywhere (h : ReadsPhrase depth .steps u steps') :
    ReadsPhrase depth .path (.symbol .doubleSlash :: u) (Expr.rootPath (.anyDepth :: steps')) := by
  intro rest ends ts hts
  obtain ⟨text, more, rfl, hmore⟩ := lexeme_of_token hts
  obtain ⟨ts₁, read, hts₁⟩ := (h rest ends).1 more hmore
  exact ⟨ts₁, bind_eq_ok.2 ⟨_, read, rfl⟩, hts₁⟩

theorem path_of_startsStep {text : List Char} (starts : startsStep token = true) :
    path inner (⟨token, text⟩ :: ts) = do
      let (steps, ts) ← steps inner (⟨token, text⟩ :: ts)
      return (.path steps, ts) := by
  unfold path
  split
  · rename_i e
    cases e
    cases starts
  · rename_i e
    cases e
    cases starts
  · rename_i e
    cases e
    rw [if_pos starts]
  · rename_i e
    cases e

theorem path_of_startsPrimary {text : List Char} (starts : startsPrimary token = true) :
    path inner (⟨token, text⟩ :: ts) = filter inner (⟨token, text⟩ :: ts) := by
  have other : startsStep token = false := by
    cases token with
    | symbol s =>
      revert starts
      cases s <;> decide
    | name | nodeType | «axis» => cases starts
    | _ => rfl
  unfold path
  split
  · rename_i e
    cases e
    cases starts
  · rename_i e
    cases e
    cases starts
  · rename_i e
    cases e
    rw [other, if_neg Bool.false_ne_true, if_pos starts]
  · rename_i e
    cases e

theorem reads_relative (begins : Begins .steps u) (h : ReadsPhrase depth .steps u steps') :
    ReadsPhrase depth .path u (Expr.path steps') := by
  intro rest ends ts hts
  obtain ⟨ts₁, read, hts₁⟩ := (h rest ends).1 ts hts
  refine ⟨ts₁, ?_, hts₁⟩
  obtain ⟨t, others, rfl, starts⟩ := begins
  obtain ⟨text, more, rfl, -⟩ := lexeme_of_token hts
  rw [path_of_startsStep starts]
  exact bind_eq_ok.2 ⟨_, read, rfl⟩

/-- A filter expression and the steps from there, if any, up to what ends them. -/
theorem reads_from (begins : Begins .filter u) (h : ReadsPhrase depth .filter u e)
    (apart : rest.head? ≠ some (.symbol .leftBracket))
    (further : Reads (furtherSteps (expression depth)) rest steps' tail) :
    Reads (path (expression depth)) (u ++ rest) (if steps'.isEmpty then e else .pathFrom e steps') tail := by
  intro ts hts
  obtain ⟨base, ps, behind, rfl, first, kept⟩ := h rest apart
  obtain ⟨ts₁, read, hts₁⟩ := first ts hts
  obtain ⟨ts₂, kept, hts₂⟩ := kept ts₁ hts₁
  obtain ⟨ts₃, further, hts₃⟩ := further ts₂ hts₂
  refine ⟨ts₃, ?_, hts₃⟩
  obtain ⟨t, others, rfl, starts⟩ := begins
  obtain ⟨text, more, rfl, -⟩ := lexeme_of_token hts
  rw [path_of_startsPrimary starts]
  exact bind_eq_ok.2 ⟨_, read, bind_eq_ok.2 ⟨_, kept, bind_eq_ok.2 ⟨_, further, rfl⟩⟩⟩

theorem reads_filtered (begins : Begins .filter u) (h : ReadsPhrase depth .filter u e) :
    ReadsPhrase depth .path u e := by
  intro rest ends
  refine reads_from begins h ?_ (furtherSteps_none ends.goesOn)
  intro bracket
  cases ends.goesOn _ bracket

theorem reads_fromFilter (begins : Begins .filter u) (h : ReadsPhrase depth .filter u e)
    (below : ReadsPhrase depth .steps v (s :: steps')) :
    ReadsPhrase depth .path (u ++ .symbol .slash :: v) (Expr.pathFrom e (s :: steps')) := by
  intro rest ends
  rw [List.append_assoc, List.cons_append]
  refine reads_from begins h ?_ (below rest ends).2.1
  exact nofun

theorem reads_anywhereFrom (begins : Begins .filter u) (h : ReadsPhrase depth .filter u e)
    (below : ReadsPhrase depth .steps v steps') :
    ReadsPhrase depth .path (u ++ .symbol .doubleSlash :: v) (Expr.pathFrom e (.anyDepth :: steps')) := by
  intro rest ends
  rw [List.append_assoc, List.cons_append]
  refine reads_from begins h ?_ (below rest ends).2.2
  exact nofun

/-! ## Primary expressions -/

theorem reads_unfiltered (h : ReadsPhrase depth .primary u e) : ReadsPhrase depth .filter u e :=
  fun rest apart => ⟨e, [], rest, rfl, h rest, reads_predicates_none apart⟩

theorem reads_filter {p : Expr} (h : ReadsPhrase depth .primary u e)
    (kept : ReadsPhrase depth .predicates v (p :: ps)) :
    ReadsPhrase depth .filter (u ++ v) (Expr.filter e (p :: ps)) := by
  intro rest apart
  rw [List.append_assoc]
  exact ⟨e, p :: ps, v ++ rest, rfl, h (v ++ rest), kept rest apart⟩

theorem reads_primary_one (alone : ∀ text more, primary (expression depth) (⟨token, text⟩ :: more) = .ok (e, more)) :
    ReadsPhrase depth .primary [token] e := by
  intro rest ts hts
  obtain ⟨text, more, rfl, hmore⟩ := lexeme_of_token hts
  exact ⟨more, alone text more, hmore⟩

theorem reads_grouped (h : ∀ rest, Ends 0 rest → Reads (expression depth) (u ++ rest) e rest) :
    ReadsPhrase depth .primary (.symbol .leftParen :: (u ++ [.symbol .rightParen])) e := by
  intro rest ts hts
  rw [List.cons_append, List.append_assoc] at hts
  obtain ⟨text, more, rfl, hmore⟩ := lexeme_of_token hts
  obtain ⟨ts₁, read, hts₁⟩ := h _ (.closed rest (by decide)) more hmore
  obtain ⟨ts₂, closed, hts₂⟩ := expect_symbol hts₁
  exact ⟨ts₂, bind_eq_ok.2 ⟨_, read, bind_eq_ok.2 ⟨_, closed, rfl⟩⟩, hts₂⟩

theorem reads_call (name : String) : ReadsPhrase depth .primary
    [.function name, .symbol .leftParen, .symbol .rightParen] (Expr.call name []) := by
  intro rest ts hts
  obtain ⟨text, more, rfl, hmore⟩ := lexeme_of_token hts
  obtain ⟨text', more', rfl, hmore'⟩ := lexeme_of_token hmore
  obtain ⟨text'', more'', rfl, hmore''⟩ := lexeme_of_token hmore'
  exact ⟨more'', rfl, hmore''⟩

/-! ## Arguments -/

theorem ends_arguments (begins : Begins .furtherArguments v) : Ends 0 (v ++ .symbol .rightParen :: rest) := by
  cases v with
  | nil => exact .closed rest (by decide)
  | cons t v =>
    obtain rfl : t = .symbol .comma := begins t rfl
    exact .closed _ (by decide)

theorem reads_noArguments : ReadsPhrase depth .furtherArguments [] [] :=
  fun _ ts hts => by
    obtain ⟨text, more, rfl, hmore⟩ := lexeme_of_token hts
    exact ⟨_, many_none rfl, hts⟩

theorem reads_argument (begins : Begins .furtherArguments v)
    (first : ∀ rest, Ends 0 rest → Reads (expression depth) (u ++ rest) e rest)
    (others : ReadsPhrase depth .furtherArguments v es) :
    ReadsPhrase depth .furtherArguments (.symbol .comma :: (u ++ v)) (e :: es) := by
  intro rest ts hts
  rw [List.cons_append, List.append_assoc] at hts
  obtain ⟨text, more, rfl, hmore⟩ := lexeme_of_token hts
  obtain ⟨ts₁, read, hts₁⟩ := first _ (ends_arguments begins) more hmore
  obtain ⟨ts₂, repeated, hts₂⟩ := others rest ts₁ hts₁
  have shorter : (v ++ .symbol .rightParen :: rest).length ≤ (u ++ (v ++ .symbol .rightParen :: rest)).length := by
    simp
  refine ⟨ts₂, many_some ?_ (length_lt_of_tokens hmore hts₁ shorter) repeated, hts₂⟩
  rw [argument?, read]

/-- The first argument, which begins an expression, keeps the parenthesis from closing at once. -/
theorem arguments_of_begins {ts₁ : List Lexeme} {ts₂ : List Lexeme} {text : List Char} (filled : Begins .expression u)
    (hts : ts.map (·.token) = u ++ rest) (first : inner ts = .ok (e, ts₁))
    (others : many (argument? inner) ts₁ = .ok (es, ⟨.symbol .rightParen, text⟩ :: ts₂)) :
    arguments inner ts = .ok (e :: es, ts₂) := by
  obtain ⟨t, u, rfl, starts⟩ := filled
  unfold arguments
  split
  · obtain rfl : .symbol .rightParen = t := (List.cons.inj hts).1
    rcases starts with e | e <;> cases e
  · exact bind_eq_ok.2 ⟨_, first, bind_eq_ok.2 ⟨_, others, rfl⟩⟩

theorem reads_callWith (name : String) (filled : Begins .expression u) (begins : Begins .furtherArguments v)
    (first : ∀ rest, Ends 0 rest → Reads (expression depth) (u ++ rest) e rest)
    (others : ReadsPhrase depth .furtherArguments v es) : ReadsPhrase depth .primary
      (.function name :: .symbol .leftParen :: (u ++ v ++ [.symbol .rightParen])) (Expr.call name (e :: es)) := by
  intro rest ts hts
  rw [List.cons_append, List.cons_append, List.append_assoc, List.append_assoc] at hts
  obtain ⟨text, more, rfl, hmore⟩ := lexeme_of_token hts
  obtain ⟨text', more', rfl, hmore'⟩ := lexeme_of_token hmore
  obtain ⟨ts₁, read, hts₁⟩ := first _ (ends_arguments begins) more' hmore'
  obtain ⟨ts₂, repeated, hts₂⟩ := others rest ts₁ hts₁
  obtain ⟨text₃, ts₃, rfl, hts₃⟩ := lexeme_of_token hts₂
  have arguments := arguments_of_begins filled hmore' read repeated
  exact ⟨ts₃, bind_eq_ok.2 ⟨more', rfl, bind_eq_ok.2 ⟨_, arguments, rfl⟩⟩, hts₃⟩

/-! ## Steps and predicates -/

theorem apart_furtherSteps (begins : Begins .furtherSteps v) (ends : Ends 7 rest) :
    (v ++ rest).head? ≠ some (.symbol .leftBracket) := by
  cases v with
  | nil =>
    intro bracket
    cases ends.goesOn _ bracket
  | cons t v =>
    rcases begins t rfl with rfl | rfl <;> exact nofun

theorem reads_steps (begins : Begins .furtherSteps v) (first : ReadsPhrase depth .step u s)
    (others : ReadsPhrase depth .furtherSteps v steps') :
    ReadsPhrase depth .steps (u ++ v) (s :: steps') := by
  intro rest ends
  have step := first _ (apart_furtherSteps begins ends)
  have further := others rest ends
  have shorter : (v ++ rest).length ≤ (u ++ (v ++ rest)).length := by simp
  rw [List.append_assoc]
  refine ⟨fun ts hts => ?_, furtherSteps_cons step shorter further, ?_⟩
  · obtain ⟨ts₁, read, hts₁⟩ := step ts hts
    obtain ⟨ts₂, further, hts₂⟩ := further ts₁ hts₁
    exact ⟨ts₂, bind_eq_ok.2 ⟨_, read, bind_eq_ok.2 ⟨_, further, rfl⟩⟩, hts₂⟩
  · show Reads _ _ ([Step.anyDepth] ++ s :: steps') rest
    exact furtherSteps_separated (fun _ _ => rfl) step shorter further

theorem reads_noSteps : ReadsPhrase depth .furtherSteps [] [] := fun _ ends => furtherSteps_none ends.goesOn

theorem reads_short (alone : ∀ text more, step (expression depth) (⟨token, text⟩ :: more) = .ok (s, more)) :
    ReadsPhrase depth .step [token] s := by
  intro rest _ ts hts
  obtain ⟨text, more, rfl, hmore⟩ := lexeme_of_token hts
  exact ⟨more, alone text more, hmore⟩

theorem reads_step_full {axis : Axis} {test : NodeTest} {w : List Token} (along : axis.Derives u)
    (passes : test.Derives v) (kept : ReadsPhrase depth .predicates w ps) :
    ReadsPhrase depth .step (u ++ v ++ w) (Step.mk axis test ps) := by
  intro rest apart
  rw [List.append_assoc (u ++ v)]
  exact reads_fullStep along passes (kept rest apart)

theorem reads_predicate_first {p : Expr}
    (first : ∀ rest, Ends 0 rest → Reads (expression depth) (u ++ rest) p rest)
    (others : ReadsPhrase depth .predicates v ps) :
    ReadsPhrase depth .predicates (.symbol .leftBracket :: (u ++ .symbol .rightBracket :: v)) (p :: ps) := by
  intro rest apart
  rw [List.cons_append, List.append_assoc, List.cons_append]
  refine reads_predicate (first _ (.closed _ (by decide))) ?_ (others rest apart)
  simp only [List.length_append, List.length_cons]
  omega

end

theorem readsPhrase {kind : Nonterminal} {tree : kind.Tree} (h : Derives kind u tree) :
    ∀ depth, u.length ≤ depth → ReadsPhrase depth kind u tree := by
  induction h with
  | operation left right ihl ihr =>
    intro depth enough
    rw [List.length_append, List.length_cons] at enough
    exact reads_binary (ihl depth (by omega)) (ihr depth (by omega))
  | operand loose _ ih => exact fun depth enough => reads_operand loose (ih depth enough)
  | strongest _ ih => exact fun depth enough => ⟨ih depth enough, fun loose => absurd loose (by decide)⟩
  | negated _ ih =>
    intro depth enough
    rw [List.length_cons] at enough
    exact reads_negated (ih depth (by omega))
  | unnegated inner ih => exact fun depth enough => reads_unnegated (begins inner) (ih depth enough)
  | union left right ihl ihr =>
    intro depth enough
    rw [List.length_append, List.length_cons] at enough
    exact reads_union (ihl depth (by omega)) (ihr depth (by omega))
  | single _ ih => exact fun depth enough => reads_single (ih depth enough)
  | root => exact fun _ _ => reads_root
  | absolute below ih =>
    intro depth enough
    rw [List.length_cons] at enough
    exact reads_absolute (begins below) (ih depth (by omega))
  | anywhere _ ih =>
    intro depth enough
    rw [List.length_cons] at enough
    exact reads_anywhere (ih depth (by omega))
  | relative steps ih => exact fun depth enough => reads_relative (begins steps) (ih depth enough)
  | filtered base ih => exact fun depth enough => reads_filtered (begins base) (ih depth enough)
  | fromFilter base below ihb ihs =>
    intro depth enough
    rw [List.length_append, List.length_cons] at enough
    cases below
    exact reads_fromFilter (begins base) (ihb depth (by omega)) (ihs depth (by omega))
  | anywhereFrom base _ ihb ihs =>
    intro depth enough
    rw [List.length_append, List.length_cons] at enough
    exact reads_anywhereFrom (begins base) (ihb depth (by omega)) (ihs depth (by omega))
  | unfiltered _ ih => exact fun depth enough => reads_unfiltered (ih depth enough)
  | filter _ _ ihb ihk =>
    intro depth enough
    rw [List.length_append] at enough
    exact reads_filter (ihb depth (by omega)) (ihk depth (by omega))
  | reference | literal | number => exact fun _ _ => reads_primary_one fun _ _ => rfl
  | grouped _ ih =>
    intro depth enough
    rw [List.length_cons, List.length_append] at enough
    exact reads_grouped fun rest => reads_inner ih (by omega)
  | call name => exact fun _ _ => reads_call name
  | callWith name first others ihf iho =>
    intro depth enough
    simp only [List.length_cons, List.length_append] at enough
    exact reads_callWith name (begins first) (begins others) (fun rest => reads_inner ihf (by omega))
      (iho depth (by omega))
  | noArguments => exact fun _ _ => reads_noArguments
  | arguments _ others ihf iho =>
    intro depth enough
    rw [List.length_cons, List.length_append] at enough
    exact reads_argument (begins others) (fun rest => reads_inner ihf (by omega)) (iho depth (by omega))
  | steps _ others ihf iho =>
    intro depth enough
    rw [List.length_append] at enough
    exact reads_steps (begins others) (ihf depth (by omega)) (iho depth (by omega))
  | noSteps => exact fun _ _ => reads_noSteps
  | nextStep _ others ihf iho =>
    intro depth enough
    rw [List.length_cons, List.length_append] at enough
    exact fun rest ends => (reads_steps (begins others) (ihf depth (by omega)) (iho depth (by omega)) rest ends).2.1
  | deeperStep _ others ihf iho =>
    intro depth enough
    rw [List.length_cons, List.length_append] at enough
    exact fun rest ends => (reads_steps (begins others) (ihf depth (by omega)) (iho depth (by omega)) rest ends).2.2
  | here | up => exact fun _ _ => reads_short fun _ _ => rfl
  | step along passes _ ih =>
    intro depth enough
    rw [List.length_append] at enough
    exact reads_step_full along passes (ih depth (by omega))
  | noPredicates => exact fun _ _ _ => reads_predicates_none
  | predicates _ _ ihf iho =>
    intro depth enough
    rw [List.length_cons, List.length_append, List.length_cons] at enough
    exact reads_predicate_first (fun rest => reads_inner ihf (by omega)) (iho depth (by omega))

end Grammar

/-! ## Whole expressions -/

namespace Expr

variable {s : String} {lexemes : List Lexeme} {e : Expr} {error : PathError}

theorem ofString_eq (lexed : Lexer.tokenize s = .ok lexemes) : ofString s =
    if lexemes.isEmpty then .error (.misread 0 .empty)
    else match Grammar.expression (lexemes.length + 1) lexemes with
      | .error refusal => .error (refusal.error s)
      | .ok (_, found :: _) => .error (.misread (found.offsetIn s) (.trailing found.token.spelling))
      | .ok (e, []) => .ok e := by
  rw [ofString, lexed]
  rfl

theorem derives_of_ofString (lexed : Lexer.tokenize s = .ok lexemes) (h : ofString s = .ok e) :
    Derives .expression (lexemes.map (·.token)) e := by
  have obeys := Grammar.obeys_expression (lexemes.length + 1) lexemes (Lexer.lexed_tokenize lexed)
  rw [ofString_eq lexed] at h
  split at h
  · cases h
  · split at h
    · cases h
    · cases h
    · rename_i read
      cases h
      rw [read] at obeys
      obtain ⟨front, rfl, derived⟩ := obeys
      rw [List.append_nil]
      exact derived

theorem ofString_of_derives (lexed : Lexer.tokenize s = .ok lexemes)
    (h : Derives .expression (lexemes.map (·.token)) e) : ofString s = .ok e := by
  have reads := Grammar.reads_inner (Grammar.readsPhrase h) (Nat.lt_succ_self _) .nil
  rw [List.append_nil] at reads
  obtain ⟨ts, read, none⟩ := reads lexemes rfl
  obtain rfl := List.map_eq_nil_iff.mp none
  rw [List.length_map] at read
  obtain ⟨first, others, some, -⟩ := Grammar.begins h
  have filled : ¬ lexemes.isEmpty = true := by
    rintro empty
    rw [List.isEmpty_iff.mp empty] at some
    cases some
  rw [ofString_eq lexed, if_neg filled, read]

theorem misread_of_refusal {refusal : Refusal} (among : refusal.found <:+ lexemes) :
    ∃ position flaw, refusal.error s = .misread position flaw ∧
      (position = 0 ∨ (∃ l ∈ lexemes, position = l.offsetIn s) ∨ position = s.utf8ByteSize) := by
  unfold Refusal.error
  split
  · rename_i found more here
    rw [here] at among
    exact ⟨_, _, rfl, .inr (.inl ⟨found, among.subset List.mem_cons_self, rfl⟩)⟩
  · exact ⟨_, _, rfl, .inr (.inr rfl)⟩

theorem misread_of_ofString (lexed : Lexer.tokenize s = .ok lexemes) (h : ofString s = .error error) :
    ∃ position flaw, error = .misread position flaw ∧
      (position = 0 ∨ (∃ l ∈ lexemes, position = l.offsetIn s) ∨ position = s.utf8ByteSize) := by
  have obeys := Grammar.obeys_expression (lexemes.length + 1) lexemes (Lexer.lexed_tokenize lexed)
  rw [ofString_eq lexed] at h
  split at h
  · cases h
    exact ⟨_, _, rfl, .inl rfl⟩
  · split at h
    · rename_i read
      cases h
      rw [read] at obeys
      exact misread_of_refusal obeys
    · rename_i found more read
      cases h
      rw [read] at obeys
      obtain ⟨front, rfl, -⟩ := obeys
      exact ⟨_, _, rfl, .inr (.inl ⟨found, by simp, rfl⟩)⟩
    · cases h

end Expr

/-- An expression that falls into tokens is read exactly if these derive it, as the tree of the
derivation. If they derive none, it is said to be misread at the start, at one of its tokens, or at its
end. -/
theorem ofString_iff_derives {s : String} {lexemes : List Lexeme} (lexed : Lexer.tokenize s = .ok lexemes) :
    (∀ e, Expr.ofString s = .ok e ↔ Derives .expression (lexemes.map (·.token)) e) ∧
    ((∀ e, ¬ Derives .expression (lexemes.map (·.token)) e) → ∃ position flaw,
      Expr.ofString s = .error (.misread position flaw) ∧
        (position = 0 ∨ (∃ l ∈ lexemes, position = l.offsetIn s) ∨ position = s.utf8ByteSize)) := by
  refine ⟨fun _ => ⟨Expr.derives_of_ofString lexed, Expr.ofString_of_derives lexed⟩, fun none => ?_⟩
  rcases h : Expr.ofString s with error | e
  · obtain ⟨position, flaw, rfl, place⟩ := Expr.misread_of_ofString lexed h
    exact ⟨position, flaw, rfl, place⟩
  · exact absurd (Expr.derives_of_ofString lexed h) (none e)

/-- A union binds more strongly than an equality. -/
theorem ofString_iff_derives_equality : ∃ lexemes, Lexer.tokenize "/|/=/" = .ok lexemes ∧
    Expr.ofString "/|/=/" = .ok (.binary .equal (.union (.rootPath []) (.rootPath [])) (.rootPath [])) := by
  have lexes : Lexer.Lexes false "/|/=/".toList
      [.symbol .slash, .symbol .bar, .symbol .slash, .symbol .equal, .symbol .slash] := by
    refine Lexer.lexes_slash (by decide) (Lexer.lexes_symbol (by decide) rfl ?_)
    refine Lexer.lexes_slash (by decide) (Lexer.lexes_symbol (by decide) rfl ?_)
    exact Lexer.lexes_slash (by decide) Lexer.lexes_nil
  obtain ⟨raw, read, tokens⟩ := lexes
  have lexed : Lexer.tokenize "/|/=/" = .ok (Lexer.classify raw) := by rw [Lexer.tokenize, read]
  refine ⟨_, lexed, ((ofString_iff_derives lexed).1 _).mpr ?_⟩
  have top : Derives .union [.symbol .slash] (Expr.rootPath []) := .single .root
  have both : Derives .union [.symbol .slash, .symbol .bar, .symbol .slash]
      (Expr.union (.rootPath []) (.rootPath [])) := .union top .root
  have equality := @Derives.operation .equal _ _ _ _ (both.of_union (by decide)) (top.of_union (by decide))
  rw [tokens]
  exact equality.loosen (Nat.zero_le 2) (by decide)

end XmlStore
