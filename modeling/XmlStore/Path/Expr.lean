/-
Path expressions: location paths of steps, filters, unions, operators,
literals, variables and function calls. Qualifiers of names are kept as
written; what they stand for is known only when an expression is evaluated.
-/
import XmlStore.Markup.Name

namespace XmlStore

/-- The thirteen directions a step can take. -/
inductive Axis where
  | ancestor
  | ancestorOrSelf
  | attributes
  | child
  | descendant
  | descendantOrSelf
  | following
  | followingSibling
  | namespaces
  | parent
  | preceding
  | precedingSibling
  | self
deriving DecidableEq, Repr

namespace Axis

def all : List Axis :=
  [ancestor, ancestorOrSelf, attributes, child, descendant, descendantOrSelf, following,
    followingSibling, namespaces, parent, preceding, precedingSibling, self]

def name : Axis → String
  | ancestor => "ancestor"
  | ancestorOrSelf => "ancestor-or-self"
  | attributes => "attribute"
  | child => "child"
  | descendant => "descendant"
  | descendantOrSelf => "descendant-or-self"
  | following => "following"
  | followingSibling => "following-sibling"
  | namespaces => "namespace"
  | parent => "parent"
  | preceding => "preceding"
  | precedingSibling => "preceding-sibling"
  | self => "self"

def ofName? (name : String) : Option Axis := all.find? (·.name == name)

/-- Whether positions along the axis are counted against document order. -/
def isReverse : Axis → Bool
  | ancestor | ancestorOrSelf | parent | preceding | precedingSibling => true
  | _ => false

theorem mem_all (axis : Axis) : axis ∈ all := by cases axis <;> decide

theorem ofName?_name (axis : Axis) : ofName? axis.name = some axis := by
  cases axis <;> decide +kernel

end Axis

/-- Which of the nodes along an axis a step selects. -/
inductive NodeTest where
  | name (name : QName)
  | any
  | anyOf (qualifier : String)
  | node
  | text
  | comment
  | instruction (target : Option String)
deriving DecidableEq, Repr

def NodeTest.spelling : NodeTest → String
  | name n => n.text
  | any => "*"
  | anyOf qualifier => s!"{qualifier}:*"
  | node => "node()"
  | text => "text()"
  | comment => "comment()"
  | instruction none => "processing-instruction()"
  | instruction (some target) => s!"processing-instruction('{target}')"

inductive BinaryOp where
  | or
  | and
  | equal
  | notEqual
  | less
  | lessEqual
  | greater
  | greaterEqual
  | add
  | subtract
  | multiply
  | divide
  | modulo
deriving DecidableEq, Repr

def BinaryOp.spelling : BinaryOp → String
  | or => "or"
  | and => "and"
  | equal => "="
  | notEqual => "!="
  | less => "<"
  | lessEqual => "<="
  | greater => ">"
  | greaterEqual => ">="
  | add => "+"
  | subtract => "-"
  | multiply => "*"
  | divide => "div"
  | modulo => "mod"

mutual

inductive Expr where
  | number (x : Float)
  | literal (s : String)
  | reference (variableName : String)
  | binary (op : BinaryOp) (left right : Expr)
  | negate (e : Expr)
  | call (function : String) (arguments : List Expr)
  /-- Steps from the context node. -/
  | path (steps : List Step)
  /-- Steps from the document node. -/
  | rootPath (steps : List Step)
  | filter (base : Expr) (predicates : List Expr)
  /-- Steps from the nodes of another expression. -/
  | pathFrom (base : Expr) (steps : List Step)
  | union (left right : Expr)

inductive Step where
  | mk (axis : Axis) (test : NodeTest) (predicates : List Expr)

end

namespace Step

def axis : Step → Axis
  | mk axis _ _ => axis

def test : Step → NodeTest
  | mk _ test _ => test

def predicates : Step → List Expr
  | mk _ _ predicates => predicates

/-- The step that `//` stands for. -/
def anyDepth : Step := mk .descendantOrSelf .node []

/-- The step `.`. -/
def here : Step := mk .self .node []

/-- The step `..`. -/
def up : Step := mk .parent .node []

end Step

end XmlStore
