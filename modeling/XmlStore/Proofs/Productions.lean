/-
The grammar of expressions as a set of productions over tokens. It says which
lists of tokens are expressions, and with which trees, without a word on how
they are read. Operators are told apart by how strongly they bind; those of
one strength group to the left.
-/
import XmlStore.Path.Grammar

namespace XmlStore

/-! ## Operators -/

/-- The token that an operator is written as: a symbol, or what else would be a name or `*`. -/
def BinaryOp.token (op : BinaryOp) : Token :=
  match op with
  | .equal => .symbol .equal
  | .notEqual => .symbol .notEqual
  | .less => .symbol .less
  | .lessEqual => .symbol .lessEqual
  | .greater => .symbol .greater
  | .greaterEqual => .symbol .greaterEqual
  | .add => .symbol .plus
  | .subtract => .symbol .minus
  | .or | .and | .multiply | .divide | .modulo => .operator op

/-- How strongly an operator binds: `or` least, then `and`, equality, order, sums and products. -/
def BinaryOp.strength : BinaryOp → Nat
  | .or => 0
  | .and => 1
  | .equal | .notEqual => 2
  | .less | .lessEqual | .greater | .greaterEqual => 3
  | .add | .subtract => 4
  | .multiply | .divide | .modulo => 5

/-! ## Steps without their predicates -/

/-- The node tests and how they are written. -/
inductive NodeTest.Derives : List Token → NodeTest → Prop where
  | any : Derives [.name "*"] .any
  | anyOf {name qualifier : String} (proper : name ≠ "*") (split : QName.ofString name = ⟨some qualifier, "*"⟩) :
    Derives [.name name] (.anyOf qualifier)
  | name {name : String} (proper : name ≠ "*")
    (whole : ∀ qualifier, QName.ofString name ≠ ⟨some qualifier, "*"⟩) :
    Derives [.name name] (.name (QName.ofString name))
  | node : Derives [.nodeType "node", .symbol .leftParen, .symbol .rightParen] .node
  | text : Derives [.nodeType "text", .symbol .leftParen, .symbol .rightParen] .text
  | comment : Derives [.nodeType "comment", .symbol .leftParen, .symbol .rightParen] .comment
  | instruction : Derives [.nodeType "processing-instruction", .symbol .leftParen, .symbol .rightParen]
      (.instruction none)
  | target (name : String) : Derives [.nodeType "processing-instruction", .symbol .leftParen, .literal name,
      .symbol .rightParen] (.instruction (some name))

/-- The axis of a step: by its name, by `@`, or the children if nothing is said. -/
inductive Axis.Derives : List Token → Axis → Prop where
  | named (axis : Axis) : Derives [.axis axis.name, .symbol .colonColon] axis
  | attributes : Derives [.symbol .atSign] .attributes
  | child : Derives [] .child

/-! ## Expressions -/

/-- The kinds of phrases. -/
inductive Nonterminal where
  /-- Expressions with operators that bind at least so strongly, outside of parentheses. -/
  | operation (strength : Nat)
  | negation
  | union
  | path
  | filter
  | primary
  | steps
  /-- Steps behind others, each with its separator. -/
  | furtherSteps
  | step
  | predicates
  /-- Arguments behind others, each with its comma. -/
  | furtherArguments

namespace Nonterminal

/-- What phrases of a kind stand for. -/
@[reducible]
def Tree : Nonterminal → Type
  | steps | furtherSteps => List Step
  | step => Step
  | predicates | furtherArguments => List Expr
  | operation _ | negation | union | path | filter | primary => Expr

/-- Whole expressions. -/
@[reducible]
def expression : Nonterminal := operation 0

end Nonterminal

/-- The phrases of a kind with their trees. -/
inductive Derives : (kind : Nonterminal) → List Token → kind.Tree → Prop where
  | operation {op : BinaryOp} {u v : List Token} {a b : Expr} (left : Derives (.operation op.strength) u a)
      (right : Derives (.operation (op.strength + 1)) v b) :
    Derives (.operation op.strength) (u ++ op.token :: v) (Expr.binary op a b)
  | operand {strength : Nat} {u : List Token} {e : Expr} (loose : strength < 6)
      (tighter : Derives (.operation (strength + 1)) u e) : Derives (.operation strength) u e
  | strongest {u : List Token} {e : Expr} (operand : Derives .negation u e) : Derives (.operation 6) u e
  | negated {u : List Token} {e : Expr} (inner : Derives .negation u e) :
    Derives .negation (.symbol .minus :: u) (Expr.negate e)
  | unnegated {u : List Token} {e : Expr} (inner : Derives .union u e) : Derives .negation u e
  | union {u v : List Token} {a b : Expr} (left : Derives .union u a) (right : Derives .path v b) :
    Derives .union (u ++ .symbol .bar :: v) (Expr.union a b)
  | single {u : List Token} {e : Expr} (path : Derives .path u e) : Derives .union u e
  | root : Derives .path [.symbol .slash] (Expr.rootPath [])
  | absolute {u : List Token} {steps : List Step} (below : Derives .steps u steps) :
    Derives .path (.symbol .slash :: u) (Expr.rootPath steps)
  | anywhere {u : List Token} {steps : List Step} (below : Derives .steps u steps) :
    Derives .path (.symbol .doubleSlash :: u) (Expr.rootPath (.anyDepth :: steps))
  | relative {u : List Token} {steps : List Step} (here : Derives .steps u steps) :
    Derives .path u (Expr.path steps)
  | filtered {u : List Token} {e : Expr} (base : Derives .filter u e) : Derives .path u e
  | fromFilter {u v : List Token} {e : Expr} {steps : List Step} (base : Derives .filter u e)
      (below : Derives .steps v steps) : Derives .path (u ++ .symbol .slash :: v) (Expr.pathFrom e steps)
  | anywhereFrom {u v : List Token} {e : Expr} {steps : List Step} (base : Derives .filter u e)
      (below : Derives .steps v steps) :
    Derives .path (u ++ .symbol .doubleSlash :: v) (Expr.pathFrom e (.anyDepth :: steps))
  | unfiltered {u : List Token} {e : Expr} (base : Derives .primary u e) : Derives .filter u e
  | filter {u v : List Token} {e p : Expr} {ps : List Expr} (base : Derives .primary u e)
      (kept : Derives .predicates v (p :: ps)) : Derives .filter (u ++ v) (Expr.filter e (p :: ps))
  | reference (name : String) : Derives .primary [.reference name] (Expr.reference name)
  | literal (s : String) : Derives .primary [.literal s] (Expr.literal s)
  | number (x : Float) : Derives .primary [.number x] (Expr.number x)
  | grouped {u : List Token} {e : Expr} (inner : Derives .expression u e) :
    Derives .primary (.symbol .leftParen :: (u ++ [.symbol .rightParen])) e
  | call (name : String) :
    Derives .primary [.function name, .symbol .leftParen, .symbol .rightParen] (Expr.call name [])
  | callWith (name : String) {u v : List Token} {e : Expr} {es : List Expr} (first : Derives .expression u e)
      (others : Derives .furtherArguments v es) :
    Derives .primary (.function name :: .symbol .leftParen :: (u ++ v ++ [.symbol .rightParen]))
      (Expr.call name (e :: es))
  | noArguments : Derives .furtherArguments [] []
  | arguments {u v : List Token} {e : Expr} {es : List Expr} (first : Derives .expression u e)
      (others : Derives .furtherArguments v es) :
    Derives .furtherArguments (.symbol .comma :: (u ++ v)) (e :: es)
  | steps {u v : List Token} {s : Step} {steps : List Step} (first : Derives .step u s)
      (others : Derives .furtherSteps v steps) : Derives .steps (u ++ v) (s :: steps)
  | noSteps : Derives .furtherSteps [] []
  | nextStep {u v : List Token} {s : Step} {steps : List Step} (first : Derives .step u s)
      (others : Derives .furtherSteps v steps) :
    Derives .furtherSteps (.symbol .slash :: (u ++ v)) (s :: steps)
  | deeperStep {u v : List Token} {s : Step} {steps : List Step} (first : Derives .step u s)
      (others : Derives .furtherSteps v steps) :
    Derives .furtherSteps (.symbol .doubleSlash :: (u ++ v)) (.anyDepth :: s :: steps)
  | here : Derives .step [.symbol .dot] Step.here
  | up : Derives .step [.symbol .dotDot] Step.up
  | step {u v w : List Token} {axis : Axis} {test : NodeTest} {ps : List Expr} (along : axis.Derives u)
      (passes : test.Derives v) (kept : Derives .predicates w ps) :
    Derives .step (u ++ v ++ w) (Step.mk axis test ps)
  | noPredicates : Derives .predicates [] []
  | predicates {u v : List Token} {p : Expr} {ps : List Expr} (first : Derives .expression u p)
      (others : Derives .predicates v ps) :
    Derives .predicates (.symbol .leftBracket :: (u ++ .symbol .rightBracket :: v)) (p :: ps)

/-- What has operators of a strength only has also, trivially, operators of no lesser one. -/
theorem Derives.loosen {n m : Nat} {u : List Token} {e : Expr} (h : Derives (.operation m) u e) (le : n ≤ m)
    (bound : m ≤ 6) : Derives (.operation n) u e := by
  obtain ⟨more, rfl⟩ := Nat.exists_eq_add_of_le le
  induction more with
  | zero => exact h
  | succ more ih => exact ih (.operand (by omega) h) (by omega) (by omega)

theorem Derives.of_union {n : Nat} {u : List Token} {e : Expr} (h : Derives .union u e) (le : n ≤ 6) :
    Derives (.operation n) u e := (Derives.strongest (.unnegated h)).loosen le (Nat.le_refl 6)

theorem Derives.of_path {u : List Token} {e : Expr} (h : Derives .path u e) : Derives .expression u e :=
  of_union (.single h) (Nat.zero_le 6)

end XmlStore
