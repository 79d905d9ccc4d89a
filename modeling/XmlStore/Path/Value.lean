/-
The four kinds of values, how one is taken for another, and comparisons. A
selection stands for the text of its first item, except in comparisons, which
ask for some item that fulfils them.
-/
import XmlStore.Path.Item
import XmlStore.Path.Number
import XmlStore.Path.Token

namespace XmlStore

inductive Value where
  | boolean (b : Bool)
  | number (x : Float)
  | text (s : String)
  /-- A selection in document order, without repetition. -/
  | items (selected : List Item)

namespace Value

def kind : Value → String
  | boolean _ => "boolean"
  | number _ => "number"
  | text _ => "string"
  | items _ => "node-set"

def toBool : Value → Bool
  | boolean b => b
  | number x => x != 0 && !x.isNaN
  | text s => !s.isEmpty
  | items selected => !selected.isEmpty

/-- The selection that a value is. -/
def items? : Value → Except PathError (List Item)
  | items selected => .ok selected
  | other => .error (.notNodes other.kind)

def numberOfBool (b : Bool) : Float := if b then 1 else 0

/-- The text of a value, given that of items. -/
def textBy (textOf : Item → String) : Value → String
  | boolean b => if b then "true" else "false"
  | number x => textOfNumber x
  | text s => s
  | items selected => (selected.head?.map textOf).getD ""

def numberBy (textOf : Item → String) : Value → Float
  | boolean b => numberOfBool b
  | number x => x
  | text s => numberOfText s
  | items selected => numberOfText ((items selected).textBy textOf)

/-- The text of a value for a report, which does not look into selections. -/
def display : Value → String
  | items selected => s!"<node-set of {selected.length} nodes>"
  | scalar => scalar.textBy fun _ => ""

/-- Equality of values that are no selections: as truths if one is a truth, else as numbers if one
is a number, else as texts. -/
def same (a b : Value) : Bool :=
  match a, b with
  | boolean _, _ | _, boolean _ => a.toBool == b.toBool
  | number _, _ | _, number _ => a.numberBy (fun _ => "") == b.numberBy fun _ => ""
  | _, _ => a.textBy (fun _ => "") == b.textBy fun _ => ""

/-- The values one of which has to fulfil a comparison with `other`: the texts of a selection, but
its truth beside a truth. -/
def candidates (textOf : Item → String) (v other : Value) : List Value :=
  match v, other with
  | items selected, boolean _ => [boolean !selected.isEmpty]
  | items selected, _ => selected.map fun item => text (textOf item)
  | scalar, _ => [scalar]

/-- The order of numbers that an operator asks for. -/
def inOrder (op : BinaryOp) (x y : Float) : Bool :=
  match op with
  | .less => x < y
  | .lessEqual => x ≤ y
  | .greater => x > y
  | _ => x ≥ y

/-- A comparison of two values: some two candidates have to be the same, or not the same, or in the
order of their numbers. -/
def compare (textOf : Item → String) (op : BinaryOp) (a b : Value) : Bool :=
  let first := a.candidates textOf b
  let second := b.candidates textOf a
  let number (v : Value) : Float := v.numberBy fun _ => ""
  match op with
  | .equal => first.any fun x => second.any fun y => same x y
  | .notEqual => first.any fun x => second.any fun y => !same x y
  | _ =>
    let second := second.map number
    (first.map number).any fun x => second.any fun y => inOrder op x y

def arithmetic (op : BinaryOp) (x y : Float) : Float :=
  match op with
  | .add => x + y
  | .subtract => x - y
  | .multiply => x * y
  | .divide => x / y
  | _ => remainderFloat x y

end Value

end XmlStore
