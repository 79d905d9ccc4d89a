/-
Start and end tags. The attributes of a tag are first read as written, then
qualifiers are resolved in the scope of the declarations around the tag and
on it; a qualifier that stands for nothing is worth a warning, not a fault.
-/
import XmlStore.Markup.Prolog

namespace XmlStore

/-- The declarations in force at a place, innermost first. -/
abbrev Scope := List Binding

namespace Scope

/-- What holds before anything is declared. -/
def initial : Scope := [⟨some "xml", xmlNamespace⟩]

/-- The scope inside an element with these declarations; of two for one qualifier the later
wins. -/
def enter (scope : Scope) (bindings : List Binding) : Scope := bindings.reverse ++ scope

/-- The namespace a qualifier stands for; an empty one undoes a declaration. -/
def resolve (scope : Scope) (qualifier : Option String) : Option String :=
  ((scope.find? (·.qualifier == qualifier)).map (·.uri)).filter (!·.isEmpty)

end Scope

/-- The warning about a name whose qualifier resolved to nothing. -/
def unboundWarning (position : Position) (name : QName) (uri : Option String) : List Warning :=
  match name.qualifier, uri with
  | some qualifier, none => [⟨.unboundQualifier qualifier name.text, position⟩]
  | _, _ => []

/-- Gives an attribute its namespace; one without a qualifier has none. -/
def Scope.resolveAttribute (scope : Scope) (a : Attribute) : Attribute :=
  { a with uri := a.name.qualifier.bind fun qualifier => scope.resolve (some qualifier) }

/-- Gives a tag and its attributes their namespaces. -/
def Scope.resolveTag (scope : Scope) (tag : Element) : Element :=
  { tag with
    uri := scope.resolve tag.name.qualifier
    attributes := tag.attributes.map scope.resolveAttribute }

/-- The warnings about the names of a resolved tag. -/
def Element.warnings (tag : Element) (position : Position) : List Warning :=
  unboundWarning position tag.name tag.uri ++
    tag.attributes.flatMap fun a => unboundWarning position a.name a.uri

namespace Cursor

/-- Whether the attributes of a start tag end here. -/
def seesTagEnd (c : Cursor) : Bool := c.sees ['>'] || c.sees ['/', '>']

/-- Adds an attribute as written to a tag: a declaration or an attribute proper. -/
def addAttribute (tag : Element) (name value : String) (c : Cursor) : Except Fault Element :=
  if name = "xmlns" then .ok { tag with bindings := tag.bindings ++ [⟨none, value⟩] }
  else match "xmlns:".toList.isPrefixOf? name.toList with
    | some qualifier =>
      let qualifier := String.ofList qualifier
      if value.isEmpty then .error (c.fault (.bindingUndone qualifier))
      else .ok { tag with bindings := tag.bindings ++ [⟨some qualifier, value⟩] }
    | none =>
      if tag.attributes.any (·.answersTo name) then
        .error (c.fault (.duplicateAttribute name))
      else .ok { tag with attributes := tag.attributes ++ [.ofString name value] }

/-- One more attribute of a tag, with the blanks before it. -/
def readAttribute (tag : Element) (c : Cursor) : Except Fault (Element × Cursor) := do
  if !(c.peek?).any isBlank then .error (c.fault .attributesRunTogether)
  else
    let (name, c) ← c.skipBlanks.readName
    let c ← c.expectEquals
    let (value, c) ← c.readAttributeValue
    let tag ← addAttribute tag name value c
    return (tag, c)

theorem advances_readAttribute (tag : Element) : Advances (readAttribute tag) := by
  intro c written d h
  unfold readAttribute at h
  split at h
  · cases h
  · obtain ⟨⟨name, e⟩, hname, h⟩ := bind_eq_ok.1 h
    obtain ⟨f, hequals, h⟩ := bind_eq_ok.1 h
    obtain ⟨⟨value, g⟩, hvalue, h⟩ := bind_eq_ok.1 h
    obtain ⟨tag, hadd, h⟩ := bind_eq_ok.1 h
    cases h
    have := remaining_skipBlanks_le c
    have := remaining_readName_le hname
    have := remaining_expectEquals_le hequals
    have := advances_readAttributeValue hvalue
    omega

/-- A start tag as written, up to the place where `>` or `/>` is next. -/
def readTag (c : Cursor) : Except Fault (Element × Cursor) := do
  let c ← c.expect '<'
  let (name, c) ← c.readName
  let (tag, c) ← c.readWhile (fun c => !c.skipBlanks.seesTagEnd) readAttribute
    advances_readAttribute (.named (.ofString name))
  return (tag, c.skipBlanks)

theorem advances_readTag : Advances readTag := by
  intro c tag d h
  obtain ⟨e, hexpect, h⟩ := bind_eq_ok.1 h
  obtain ⟨⟨name, f⟩, hname, h⟩ := bind_eq_ok.1 h
  obtain ⟨⟨written, g⟩, hwhile, h⟩ := bind_eq_ok.1 h
  cases h
  have := remaining_expect hexpect
  have := remaining_readName_le hname
  have := remaining_readWhile_le hwhile
  have := remaining_skipBlanks_le g
  omega

/-- The end tag of an element of the given name. -/
def readEndTag (name : String) (c : Cursor) : Except Fault Cursor := do
  let c ← c.expectWord "</"
  let (closed, c) ← c.readName
  if closed = name then c.skipBlanks.expect '>'
  else .error (c.fault (.mismatchedEndTag name closed))

theorem remaining_readEndTag_lt {name : String} {c d : Cursor} (h : c.readEndTag name = .ok d) :
    d.remaining < c.remaining := by
  obtain ⟨e, hopen, h⟩ := bind_eq_ok.1 h
  obtain ⟨⟨closed, f⟩, hname, h⟩ := bind_eq_ok.1 h
  have : e.remaining + 2 = c.remaining := remaining_expectWord hopen
  have := remaining_readName_le hname
  have := remaining_skipBlanks_le f
  dsimp only at h
  split at h
  · have := remaining_expect h
    omega
  · cases h

end Cursor

end XmlStore
