/-
The location of a node: a path expression that selects this node alone. A
step carries a position only where a sibling of the same kind makes it
necessary.
-/
import XmlStore.Document.Names

namespace XmlStore

/-- What a step of a location is written as, and whether it stands for any element. -/
def Content.stepName : Content → String × Bool
  | .element tag =>
    match tag.uri, tag.name.qualifier with
    | some _, some _ => (tag.name.text, false)
    | some _, none => ("*", true)
    | none, _ => (tag.name.localPart, false)
  | .text _ | .cdata _ => ("text()", false)
  | .comment _ => ("comment()", false)
  | .instruction target _ => (s!"processing-instruction('{target}')", false)
  | .document | .doctype .. => ("", false)

/-- Whether two siblings are counted together; `anyElement` makes no difference of names. -/
def Content.countsWith (anyElement : Bool) : Content → Content → Bool
  | .element a, .element b => anyElement || a.name == b.name
  | .text _, .text _ | .text _, .cdata _ | .cdata _, .text _ | .cdata _, .cdata _ => true
  | .comment _, .comment _ => true
  | .instruction a _, .instruction b _ => a == b
  | _, _ => false

/-- The step to a node with the given siblings before and after it. -/
def Content.step (content : Content) (before after : List Content) : String :=
  let (name, anyElement) := content.stepName
  let earlier := before.countP (content.countsWith anyElement)
  if 0 < earlier then s!"{name}[{earlier + 1}]"
  else if after.any (content.countsWith anyElement) then s!"{name}[1]"
  else name

namespace Document

/-- The step from the parent of a node to the node. -/
def step (d : Document) (id : NodeId) : String :=
  (d.content id).step ((d.siblingsBefore id).map d.content) ((d.siblingsAfter id).map d.content)

/-- The location of a node, from the document node or from the topmost node above it. -/
def location (d : Document) (id : NodeId) : String :=
  match ((d.ancestors id).takeWhile (· ≠ root)).map d.step with
  | [] => "/"
  | steps => "/" ++ "/".intercalate steps.reverse

/-- The location of the attribute at an index. -/
def attributeLocation (d : Document) (id : NodeId) (index : Nat) : String :=
  let name := ((d.attributes id)[index]?.map (·.name.text)).getD ""
  s!"{d.location id}/@{name}"

end Document

end XmlStore
