/-
The functions that expressions can call: their names, how many arguments they
take, and their values. A function that may be called without an argument is
then about the item in focus.
-/
import XmlStore.Path.Value

namespace XmlStore

/-- The item that an expression is evaluated for, and its position among so many. -/
structure Focus where
  item : Item
  position : Nat
  size : Nat
deriving DecidableEq, Repr

inductive Function where
  | last
  | position
  | count
  | id
  | localName
  | name
  | namespaceUri
  | string
  | concat
  | startsWith
  | contains
  | substringBefore
  | substringAfter
  | substring
  | stringLength
  | normalizeSpace
  | translate
  | boolean
  | not
  | always
  | never
  | lang
  | number
  | sum
  | floor
  | ceiling
  | round
deriving DecidableEq, Repr

namespace Function

def all : List Function :=
  [last, position, count, id, localName, name, namespaceUri, string, concat, startsWith, contains,
    substringBefore, substringAfter, substring, stringLength, normalizeSpace, translate, boolean,
    not, always, never, lang, number, sum, floor, ceiling, round]

/-- What the function is called in an expression. -/
def spelling : Function → String
  | last => "last"
  | position => "position"
  | count => "count"
  | id => "id"
  | localName => "local-name"
  | name => "name"
  | namespaceUri => "namespace-uri"
  | string => "string"
  | concat => "concat"
  | startsWith => "starts-with"
  | contains => "contains"
  | substringBefore => "substring-before"
  | substringAfter => "substring-after"
  | substring => "substring"
  | stringLength => "string-length"
  | normalizeSpace => "normalize-space"
  | translate => "translate"
  | boolean => "boolean"
  | not => "not"
  | always => "true"
  | never => "false"
  | lang => "lang"
  | number => "number"
  | sum => "sum"
  | floor => "floor"
  | ceiling => "ceiling"
  | round => "round"

def ofName? (name : String) : Option Function := all.find? (·.spelling == name)

/-- The least and the greatest number of arguments; none if there is no greatest. -/
def arity : Function → Nat × Option Nat
  | last | position | always | never => (0, some 0)
  | localName | name | namespaceUri | string | stringLength | normalizeSpace | number =>
    (0, some 1)
  | count | id | boolean | not | lang | sum | floor | ceiling | round => (1, some 1)
  | startsWith | contains | substringBefore | substringAfter => (2, some 2)
  | substring => (2, some 3)
  | translate => (3, some 3)
  | concat => (2, none)

def accepts (f : Function) (count : Nat) : Bool :=
  f.arity.1 ≤ count && f.arity.2.all (count ≤ ·)

theorem mem_all (f : Function) : f ∈ all := by cases f <;> decide

theorem ofName?_spelling (f : Function) : ofName? f.spelling = some f := by
  cases f <;> decide +kernel

end Function

/-- The name and the namespace of an item that has a name. -/
def Item.names? (t : Tree) : Item → Option (QName × Option String)
  | .attribute owner index => ((t.attributes owner)[index]?).map fun a => (a.name, a.uri)
  | .node n => match t.content? n with
    | some (.element tag) => some (tag.name, tag.uri)
    | some (.instruction target _) => some (⟨none, target⟩, none)
    | _ => none

/-- The characters of a text at the positions from `start` on and below `stop`, counted from 1. -/
def charsBetween (start stop : Float) (s : String) : String :=
  let inside : Char × Nat → Bool := fun (_, position) =>
    Float.ofNat position ≥ start && Float.ofNat position < stop
  String.ofList (((s.toList.zipIdx 1).filter inside).map (·.1))

/-- Replaces a character by the one at the same index; without one it is left out. -/
def translateChar (source target : List Char) (c : Char) : Option Char :=
  match source.idxOf? c with
  | some i => target[i]?
  | none => some c

/-- Whether a language is the one asked for or a variant of it, in any case of letters. -/
def isLanguage (asked found : String) : Bool :=
  let asked := (lowerAscii asked).toList
  let found := (lowerAscii found).toList
  found == asked || (asked ++ ['-']).isPrefixOf found

/-- The language in force at a node. -/
def Tree.language? (t : Tree) (n : Rank) : Option String :=
  (n :: t.above n).findSome? fun m => t.attribute? m "xml:lang"

/-- The value of a function of texts. -/
def Function.ofTexts (f : Function) (s u : String) : Value :=
  let found := beforeFirst? u.toList s.toList
  match f with
  | .startsWith => .boolean (u.toList.isPrefixOf s.toList)
  | .contains => .boolean found.isSome
  | .substringBefore => .text (String.ofList (found.getD []))
  | _ => .text (String.ofList ((afterFirst? u.toList s.toList).getD []))

/-- The value of a function of one number. -/
def Function.ofNumber (f : Function) (x : Float) : Float :=
  match f with
  | .floor => floorFloat x
  | .ceiling => ceilingFloat x
  | _ => roundFloat x

/-- The part of a name that a function gives. -/
def Function.nameText (f : Function) (name : QName) (uri : Option String) : String :=
  match f with
  | .name => name.text
  | .localName => name.localPart
  | _ => uri.getD ""

/-- The value of a call with as many arguments as the function accepts. -/
def Function.apply (t : Tree) (focus : Focus) (f : Function) (arguments : List Value) :
    Except PathError Value :=
  let subject := arguments.headD (.items [focus.item])
  let text (i : Nat) : String := ((arguments[i]?).map (·.textBy t.text)).getD ""
  let number (i : Nat) : Float := ((arguments[i]?).map (·.numberBy t.text)).getD 0
  match f with
  | .last => .ok (.number (Float.ofNat focus.size))
  | .position => .ok (.number (Float.ofNat focus.position))
  | .count => do return .number (Float.ofNat (← subject.items?).length)
  | .id => .ok (.items [])
  | .localName | .name | .namespaceUri => do
    let found := (← subject.items?).head?.bind (Item.names? t)
    return .text ((found.map fun named => f.nameText named.1 named.2).getD "")
  | .string => .ok (.text (subject.textBy t.text))
  | .concat => .ok (.text (String.join (arguments.map (·.textBy t.text))))
  | .startsWith | .contains | .substringBefore | .substringAfter =>
    .ok (f.ofTexts (text 0) (text 1))
  | .substring =>
    let start := roundFloat (number 1)
    let stop := if arguments.length < 3 then Binary.toFloat (.infinite false)
      else start + roundFloat (number 2)
    .ok (.text (charsBetween start stop (text 0)))
  | .stringLength => .ok (.number (Float.ofNat (subject.textBy t.text).length))
  | .normalizeSpace =>
    let words := wordsBy isAsciiSpace (subject.textBy t.text).toList
    .ok (.text (" ".intercalate (words.map String.ofList)))
  | .translate =>
    let chars := (text 0).toList.filterMap (translateChar (text 1).toList (text 2).toList)
    .ok (.text (String.ofList chars))
  | .boolean => .ok (.boolean subject.toBool)
  | .not => .ok (.boolean !subject.toBool)
  | .always => .ok (.boolean true)
  | .never => .ok (.boolean false)
  | .lang => .ok (.boolean ((t.language? focus.item.rank).any (isLanguage (text 0))))
  | .number => .ok (.number (subject.numberBy t.text))
  | .sum => do
    let numbers := (← subject.items?).map fun item => numberOfText (t.text item)
    return .number (numbers.foldl (· + ·) (-0.0))
  | .floor | .ceiling | .round => .ok (.number (f.ofNumber (number 0)))

end XmlStore
