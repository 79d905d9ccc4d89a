/-
The grammar of expressions over tokens, loosest first: `or`, `and`, equality,
order, sums, products, negation, unions, paths. A rule takes the tokens to
come and gives what it read and the tokens after it. Rules that contain whole
expressions, in parentheses, predicates or arguments, are given the rule for
these; it is tied to itself once for every level of nesting, of which there
are no more than tokens.
-/
import XmlStore.Path.Lexer

namespace XmlStore

/-- What the grammar asked for, and the tokens that it met instead. -/
structure Refusal where
  wanted : Wanted
  found : List Lexeme

/-- The fault that a refusal stands for. -/
def Refusal.error (expression : String) (refusal : Refusal) : PathError :=
  match refusal.found with
  | found :: _ =>
    .misread (found.offsetIn expression) (.unexpected refusal.wanted found.token.spelling)
  | [] => .misread expression.utf8ByteSize (.unexpected refusal.wanted none)

/-- A rule of the grammar. -/
abbrev Rule (α : Type) := List Lexeme → Except Refusal (α × List Lexeme)

namespace Grammar

/-- The tokens behind an expected symbol. -/
def expect (wanted : Symbol) (ts : List Lexeme) : Except Refusal (List Lexeme) :=
  match ts with
  | ⟨.symbol found, _⟩ :: rest =>
    if found = wanted then .ok rest else .error ⟨.symbol wanted, ts⟩
  | _ => .error ⟨.symbol wanted, ts⟩

/-- As many pieces as there are; `piece?` is `none` where no piece begins. A piece has at least one
token, and reading ends after one that has not. -/
def many {α : Type} (piece? : List Lexeme → Option (Except Refusal (α × List Lexeme))) :
    Rule (List α) := fun ts =>
  match piece? ts with
  | none => .ok ([], ts)
  | some (.error refusal) => .error refusal
  | some (.ok (a, rest)) =>
    if rest.length < ts.length then
      match many piece? rest with
      | .error refusal => .error refusal
      | .ok (as, rest) => .ok (a :: as, rest)
    else .ok ([a], rest)
termination_by ts => ts.length

/-- Operands with operators between them, grouped from the left. -/
def chain (operator? : Token → Option (Expr → Expr → Expr)) (operand : Rule Expr) : Rule Expr :=
  fun ts => do
    let piece? : List Lexeme → Option (Except Refusal ((Expr → Expr) × List Lexeme))
      | [] => none
      | t :: rest => (operator? t.token).map fun operator => do
        let (right, rest) ← operand rest
        return (fun left => operator left right, rest)
    let (first, ts) ← operand ts
    let (others, ts) ← many piece? ts
    return (others.foldl (fun left apply => apply left) first, ts)

/-- The binary operator that a token is at a level of the grammar with these operators. -/
def operatorOf? (level : List BinaryOp) (token : Token) : Option BinaryOp :=
  match token with
  | .operator op => if level.contains op then some op else none
  | .symbol s => level.find? (·.spelling == s.spelling)
  | _ => none

/-- The binary operators by how loosely they bind, the loosest first. -/
def levels : List (List BinaryOp) :=
  [[.or], [.and], [.equal, .notEqual], [.less, .lessEqual, .greater, .greaterEqual],
    [.add, .subtract], [.multiply, .divide, .modulo]]

/-- What a step may begin with. -/
def startsStep : Token → Bool
  | .symbol s => [.dot, .dotDot, .atSign].contains s
  | .name _ | .nodeType _ | .axis _ => true
  | _ => false

/-- What an expression that is not a path may begin with. -/
def startsPrimary : Token → Bool
  | .symbol s => s = .leftParen
  | .reference _ | .literal _ | .number _ | .function _ => true
  | _ => false

/-- The test that a name token stands for. -/
def nameTest (name : String) : NodeTest :=
  let test := QName.ofString name
  if name = "*" then .any
  else match test.qualifier, test.localPart with
    | some qualifier, "*" => .anyOf qualifier
    | _, _ => .name test

/-- The test that a node type stands for; only a processing instruction may be named. -/
def typeTest (kind : String) (ts : List Lexeme) : NodeTest × List Lexeme :=
  match kind, ts with
  | "node", ts => (.node, ts)
  | "text", ts => (.text, ts)
  | "comment", ts => (.comment, ts)
  | _, ⟨.literal target, _⟩ :: rest => (.instruction (some target), rest)
  | _, ts => (.instruction none, ts)

def nodeTest : Rule NodeTest
  | ⟨.name name, _⟩ :: rest => .ok (nameTest name, rest)
  | ⟨.nodeType kind, _⟩ :: rest => do
    let rest ← expect .leftParen rest
    let (test, rest) := typeTest kind rest
    let rest ← expect .rightParen rest
    return (test, rest)
  | ts => .error ⟨.nodeTest, ts⟩

/-- The axis of a step; a step that names none goes to children. -/
def axis : Rule Axis
  | ⟨.symbol .atSign, _⟩ :: rest => .ok (.attributes, rest)
  | ⟨.axis name, text⟩ :: rest =>
    match Axis.ofName? name with
    | some axis => .ok (axis, rest.drop 1)
    | none => .error ⟨.axisOtherThan name, ⟨.axis name, text⟩ :: rest⟩
  | ts => .ok (.child, ts)

def predicates (inner : Rule Expr) : Rule (List Expr) :=
  many fun
    | ⟨.symbol .leftBracket, _⟩ :: rest => some do
      let (predicate, rest) ← inner rest
      let rest ← expect .rightBracket rest
      return (predicate, rest)
    | _ => none

/-- One step; the short forms `.` and `..` take no predicates. -/
def step (inner : Rule Expr) : Rule Step
  | ⟨.symbol .dot, _⟩ :: rest => .ok (.here, rest)
  | ⟨.symbol .dotDot, _⟩ :: rest => .ok (.up, rest)
  | ts => do
    let (axis, ts) ← axis ts
    let (test, ts) ← nodeTest ts
    let (predicates, ts) ← predicates inner ts
    return (.mk axis test predicates, ts)

/-- The steps that a separator of steps itself stands for. -/
def separator? : List Lexeme → Option (List Step × List Lexeme)
  | ⟨.symbol .slash, _⟩ :: rest => some ([], rest)
  | ⟨.symbol .doubleSlash, _⟩ :: rest => some ([.anyDepth], rest)
  | _ => none

/-- Further steps, each with the separator before it. -/
def furtherSteps (inner : Rule Expr) : Rule (List Step) := fun ts => do
  let (steps, ts) ← many (fun ts => (separator? ts).map fun (between, ts) => do
    let (step, ts) ← step inner ts
    return (between ++ [step], ts)) ts
  return (steps.flatten, ts)

def steps (inner : Rule Expr) : Rule (List Step) := fun ts => do
  let (first, ts) ← step inner ts
  let (others, ts) ← furtherSteps inner ts
  return (first :: others, ts)

/-- The arguments of a function, from behind the opening parenthesis to the closing one. -/
def arguments (inner : Rule Expr) : Rule (List Expr)
  | ⟨.symbol .rightParen, _⟩ :: rest => .ok ([], rest)
  | ts => do
    let (first, ts) ← inner ts
    let (others, ts) ← many (fun
      | ⟨.symbol .comma, _⟩ :: rest => some (inner rest)
      | _ => none) ts
    match ts with
    | ⟨.symbol .rightParen, _⟩ :: rest => return (first :: others, rest)
    | ts => .error ⟨.symbol .comma, ts⟩

def primary (inner : Rule Expr) : Rule Expr
  | ⟨.reference name, _⟩ :: rest => .ok (.reference name, rest)
  | ⟨.literal s, _⟩ :: rest => .ok (.literal s, rest)
  | ⟨.number x, _⟩ :: rest => .ok (.number x, rest)
  | ⟨.symbol .leftParen, _⟩ :: rest => do
    let (e, rest) ← inner rest
    let rest ← expect .rightParen rest
    return (e, rest)
  | ⟨.function name, _⟩ :: rest => do
    let rest ← expect .leftParen rest
    let (arguments, rest) ← arguments inner rest
    return (.call name arguments, rest)
  | ts => .error ⟨.primary, ts⟩

/-- A primary expression with its predicates, and the steps from there. -/
def filter (inner : Rule Expr) : Rule Expr := fun ts => do
  let (base, ts) ← primary inner ts
  let (predicates, ts) ← predicates inner ts
  let base := if predicates.isEmpty then base else .filter base predicates
  let (steps, ts) ← furtherSteps inner ts
  return (if steps.isEmpty then base else .pathFrom base steps, ts)

def path (inner : Rule Expr) : Rule Expr := fun ts =>
  match ts with
  | ⟨.symbol .slash, _⟩ :: rest =>
    if (rest.head?).any (startsStep ·.token) then do
      let (steps, rest) ← steps inner rest
      return (.rootPath steps, rest)
    else .ok (.rootPath [], rest)
  | ⟨.symbol .doubleSlash, _⟩ :: rest => do
    let (steps, rest) ← steps inner rest
    return (.rootPath (.anyDepth :: steps), rest)
  | ⟨token, _⟩ :: _ =>
    if startsStep token then do
      let (steps, ts) ← steps inner ts
      return (.path steps, ts)
    else if startsPrimary token then filter inner ts
    else .error ⟨.expression, ts⟩
  | [] => .error ⟨.expression, ts⟩

def union (inner : Rule Expr) : Rule Expr :=
  chain (fun
    | .symbol .bar => some .union
    | _ => none) (path inner)

def negation (inner : Rule Expr) : Rule Expr
  | ⟨.symbol .minus, _⟩ :: rest => do
    let (e, rest) ← negation inner rest
    return (.negate e, rest)
  | ts => union inner ts

/-- An expression nested at most so many levels deep. -/
def expression : Nat → Rule Expr
  | 0 => fun ts => .error ⟨.expression, ts⟩
  | depth + 1 =>
    levels.foldr (fun level => chain fun token => (operatorOf? level token).map .binary)
      (negation (expression depth))

end Grammar

/-- Reads an expression. -/
def Expr.ofString (expression : String) : Except PathError Expr := do
  let lexemes ← Lexer.tokenize expression
  if lexemes.isEmpty then .error (.misread 0 .empty)
  else match Grammar.expression (lexemes.length + 1) lexemes with
    | .error refusal => .error (refusal.error expression)
    | .ok (_, found :: _) =>
      .error (.misread (found.offsetIn expression) (.trailing found.token.spelling))
    | .ok (e, []) => .ok e

end XmlStore
