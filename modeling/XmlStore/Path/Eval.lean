/-
The value of an expression at an item of a tree. Every step collects what it
finds from each item of the selection so far, and puts it into document order;
predicates count positions along the axis of their step.
-/
import XmlStore.Path.Function
import XmlStore.Path.Grammar

namespace XmlStore

/-- What an expression is evaluated in. -/
structure Env where
  tree : Tree
  /-- The namespaces that qualifiers stand for. -/
  namespaces : List (String × String)
  /-- The values of variables. -/
  values : List (String × Value)

namespace Env

/-- The namespace of a qualifier, if a test mentions one. -/
def resolve (env : Env) : Option String → Except PathError (Option String)
  | none => .ok none
  | some qualifier =>
    if qualifier = "xml" then .ok (some xmlNamespace)
    else match env.namespaces.lookup qualifier with
      | some uri => .ok (some uri)
      | none => .error (.unknownQualifier qualifier)

end Env

/-- Whether a predicate with this value keeps the item at a position. -/
def Value.keeps (position : Nat) : Value → Bool
  | number x => x == Float.ofNat position
  | other => other.toBool

/-- The items for which a predicate holds, the first one being at `position` of `size`. -/
def keepFrom (predicate : Focus → Except PathError Value) (size position : Nat) :
    List Item → Except PathError (List Item)
  | [] => .ok []
  | item :: rest => do
    let value ← predicate ⟨item, position, size⟩
    let kept ← keepFrom predicate size (position + 1) rest
    return if value.keeps position then item :: kept else kept

mutual

def Expr.eval (env : Env) : Expr → Focus → Except PathError Value
  | .number x, _ => .ok (.number x)
  | .literal s, _ => .ok (.text s)
  | .reference name, _ =>
    match env.values.lookup name with
    | some value => .ok value
    | none => .error (.undefinedVariable name)
  | .binary .or a b, focus => do
    if (← a.eval env focus).toBool then return .boolean true
    else return .boolean (← b.eval env focus).toBool
  | .binary .and a b, focus => do
    if (← a.eval env focus).toBool then return .boolean (← b.eval env focus).toBool
    else return .boolean false
  | .binary op a b, focus => do
    let x ← a.eval env focus
    let y ← b.eval env focus
    match op with
    | .equal | .notEqual | .less | .lessEqual | .greater | .greaterEqual =>
      return .boolean (Value.compare env.tree.text op x y)
    | _ =>
      return .number (Value.arithmetic op (x.numberBy env.tree.text) (y.numberBy env.tree.text))
  | .negate a, focus => do return .number (-((← a.eval env focus).numberBy env.tree.text))
  | .call name arguments, focus =>
    match Function.ofName? name with
    | none => .error (.undefinedFunction name)
    | some f =>
      if f.accepts arguments.length then do
        f.apply env.tree focus (← Expr.evalAll env arguments focus)
      else .error (.wrongArity name f.arity.1 f.arity.2 arguments.length)
  | .path steps, focus => do return .items (← Step.walk env steps [focus.item])
  | .rootPath steps, _ => do return .items (← Step.walk env steps [.node 0])
  | .filter base predicates, focus => do
    let items ← (← base.eval env focus).items?
    return .items (← Expr.keep env predicates items)
  | .pathFrom base steps, focus => do
    let items ← (← base.eval env focus).items?
    return .items (← Step.walk env steps items)
  | .union a b, focus => do
    let left ← (← a.eval env focus).items?
    let right ← (← b.eval env focus).items?
    return .items (Item.ordered (left ++ right))

def Expr.evalAll (env : Env) : List Expr → Focus → Except PathError (List Value)
  | [], _ => .ok []
  | e :: rest, focus => do
    let value ← e.eval env focus
    return value :: (← Expr.evalAll env rest focus)

/-- The items for which predicates hold, one predicate after the other. -/
def Expr.keep (env : Env) : List Expr → List Item → Except PathError (List Item)
  | [], items => .ok items
  | predicate :: rest, items => do
    let kept ← keepFrom (predicate.eval env) items.length 1 items
    Expr.keep env rest kept

def Step.walk (env : Env) : List Step → List Item → Except PathError (List Item)
  | [], items => .ok items
  | step :: rest, items => do
    let found ← step.take env items
    Step.walk env rest found

def Step.take (env : Env) : Step → List Item → Except PathError (List Item)
  | .mk axis test predicates, items => do
    let uri ← env.resolve test.qualifier?
    let found ← items.mapM fun item =>
      Expr.keep env predicates
        ((env.tree.axis axis item).filter (test.admitsItem uri axis env.tree))
    return Item.ordered found.flatten

end

/-- The value of an expression at an item. -/
def Env.value (env : Env) (e : Expr) (item : Item) : Except PathError Value :=
  e.eval env ⟨item, 1, 1⟩

/-- The items that an expression selects from the document node. -/
def Env.select (env : Env) (e : Expr) : Except PathError (List Item) := do
  (← env.value e (.node 0)).items?

end XmlStore
