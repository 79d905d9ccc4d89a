/-
What a node holds, apart from its place in a tree: the tag of an element, the
characters of a text, and so on. Namespace declarations stand beside the
attributes, not among them.
-/
import XmlStore.Markup.Name

namespace XmlStore

/-- The namespace that the reserved qualifier `xml` stands for. -/
def xmlNamespace : String := "http://www.w3.org/XML/1998/namespace"

/-- A namespace declaration; without a qualifier it sets the default namespace. -/
structure Binding where
  qualifier : Option String
  uri : String
deriving DecidableEq, Repr

structure Attribute where
  name : QName
  value : String
  /-- The namespace its qualifier stands for. -/
  uri : Option String
deriving DecidableEq, Repr

/-- The tag of an element. -/
structure Element where
  name : QName
  uri : Option String
  bindings : List Binding
  attributes : List Attribute
deriving DecidableEq, Repr

/-- The content of a node. -/
inductive Content where
  | document
  | element (tag : Element)
  | text (characters : String)
  | cdata (characters : String)
  | comment (characters : String)
  | instruction (target : String) (data : Option String)
  | doctype (name : String) (systemId publicId : Option String)
deriving DecidableEq, Repr

namespace Attribute

/-- An attribute in no namespace so far. -/
def ofString (name value : String) : Attribute := ⟨.ofString name, value, none⟩

/-- Whether the attribute goes by this name, qualifier included. -/
def answersTo (a : Attribute) (name : String) : Bool := a.name.text == name

end Attribute

namespace Element

/-- A tag that has a name and nothing else. -/
def named (name : QName) : Element := ⟨name, none, [], []⟩

def attribute? (e : Element) (name : String) : Option String :=
  (e.attributes.find? (·.answersTo name)).map (·.value)

/-- Gives the attribute of that name a value; a new one comes last. -/
def setAttribute (e : Element) (name value : String) (uri : Option String) : Element :=
  if e.attributes.any (·.answersTo name) then
    { e with attributes := replaceFirst e.attributes }
  else
    { e with attributes := e.attributes ++ [⟨.ofString name, value, uri⟩] }
where
  replaceFirst : List Attribute → List Attribute
    | [] => []
    | a :: rest => if a.answersTo name then { a with value } :: rest else a :: replaceFirst rest

def removeAttribute (e : Element) (name : String) : Element :=
  { e with attributes := e.attributes.filter (!·.answersTo name) }

/-- The namespace this tag itself gives a qualifier: the first declaration of it. -/
def binding? (e : Element) (qualifier : Option String) : Option String :=
  (e.bindings.find? (·.qualifier == qualifier)).map (·.uri)

/-- Declares a namespace, in place of an earlier declaration of the same qualifier. -/
def bind (e : Element) (qualifier : Option String) (uri : String) : Element :=
  if e.bindings.any (·.qualifier == qualifier) then
    { e with bindings := replaceFirst e.bindings }
  else
    { e with bindings := e.bindings ++ [⟨qualifier, uri⟩] }
where
  replaceFirst : List Binding → List Binding
    | [] => []
    | b :: rest =>
      if b.qualifier == qualifier then { b with uri } :: rest else b :: replaceFirst rest

theorem attribute?_setAttribute (e : Element) (name value : String) (uri : Option String) :
    (e.setAttribute name value uri).attribute? name = some value := by
  unfold setAttribute attribute?
  split
  · rename_i found
    simp only
    generalize e.attributes = l at found
    induction l with
    | nil => simp at found
    | cons a rest ih =>
      by_cases h : a.answersTo name = true
      · have : ({ a with value } : Attribute).answersTo name = true := h
        simp [setAttribute.replaceFirst, h, this]
      · rw [List.any_cons] at found
        simp only [h, Bool.false_or] at found
        simp only [setAttribute.replaceFirst, h, Bool.false_eq_true, if_false, List.find?_cons]
        exact ih found
  · rename_i absent
    have none : e.attributes.find? (·.answersTo name) = none := by simpa using absent
    have new : (Attribute.mk (.ofString name) value uri).answersTo name = true := by
      simp [Attribute.answersTo, QName.text_ofString]
    simp [List.find?_append, none, new]

theorem attribute?_setAttribute_of_ne (e : Element) {name other : String} (ne : other ≠ name)
    (value : String) (uri : Option String) :
    (e.setAttribute name value uri).attribute? other = e.attribute? other := by
  have apart {a : Attribute} (answers : a.answersTo name = true) : a.answersTo other = false := by
    rw [Attribute.answersTo, beq_iff_eq] at answers
    rw [Attribute.answersTo, answers]
    exact beq_false_of_ne ne.symm
  rw [setAttribute]
  split
  · rw [attribute?, attribute?]
    refine congrArg (Option.map _) ?_
    induction e.attributes with
    | nil => rfl
    | cons a rest ih =>
      rw [setAttribute.replaceFirst]
      split
      · rename_i answers
        have replaced : ({ a with value } : Attribute).answersTo name = true := answers
        rw [List.find?_cons, List.find?_cons, apart answers, apart replaced]
      · rw [List.find?_cons, List.find?_cons, ih]
  · have new : (Attribute.mk (.ofString name) value uri).answersTo name = true := by
      simp [Attribute.answersTo, QName.text_ofString]
    rw [attribute?, attribute?, List.find?_append, List.find?_singleton, apart new]
    simp

theorem attribute?_removeAttribute (e : Element) (name : String) :
    (e.removeAttribute name).attribute? name = none := by
  simp [removeAttribute, attribute?]

theorem binding?_bind (e : Element) (qualifier : Option String) (uri : String) :
    (e.bind qualifier uri).binding? qualifier = some uri := by
  unfold bind binding?
  split
  · rename_i found
    simp only
    generalize e.bindings = l at found
    induction l with
    | nil => simp at found
    | cons b rest ih =>
      by_cases h : b.qualifier = qualifier
      · simp [bind.replaceFirst, h]
      · have differs : (b.qualifier == qualifier) = false := by simpa using h
        rw [List.any_cons, differs, Bool.false_or] at found
        simp only [bind.replaceFirst, differs, Bool.false_eq_true, if_false, List.find?_cons]
        exact ih found
  · rename_i absent
    have none : e.bindings.find? (·.qualifier == qualifier) = none := by simpa using absent
    simp [List.find?_append, none]

theorem binding?_bind_of_ne (e : Element) {qualifier other : Option String} (ne : other ≠ qualifier)
    (uri : String) : (e.bind qualifier uri).binding? other = e.binding? other := by
  have apart {b : Binding} (same : (b.qualifier == qualifier) = true) : (b.qualifier == other) = false := by
    rw [beq_iff_eq.mp same]
    exact beq_false_of_ne ne.symm
  rw [bind]
  split
  · rw [binding?, binding?]
    refine congrArg (Option.map _) ?_
    induction e.bindings with
    | nil => rfl
    | cons b rest ih =>
      rw [bind.replaceFirst]
      split
      · rename_i same
        have replaced : ({ b with uri } : Binding).qualifier = b.qualifier := rfl
        rw [List.find?_cons, List.find?_cons, replaced, apart same]
      · rw [List.find?_cons, List.find?_cons, ih]
  · rw [binding?, binding?, List.find?_append, List.find?_singleton, beq_false_of_ne ne.symm]
    simp

end Element

namespace Content

def isElement : Content → Bool
  | element _ => true
  | _ => false

def element? : Content → Option Element
  | element tag => some tag
  | _ => none

/-- Changes the tag of an element; any other content stays as it is. -/
def mapElement (f : Element → Element) : Content → Content
  | element tag => element (f tag)
  | content => content

/-- The characters of a text or a CDATA section. -/
def characters? : Content → Option String
  | text s | cdata s => some s
  | _ => none

def isCharacters (content : Content) : Bool := content.characters?.isSome

/-- The local name of an element, the target of a processing instruction. -/
def name? : Content → Option String
  | element tag => some tag.name.localPart
  | instruction target _ => some target
  | _ => none

/-- The name of an element as written. -/
def qualifiedName? (content : Content) : Option String := content.element?.map (·.name.text)

def isNamed (content : Content) (name : String) : Bool := content.qualifiedName? == some name

/-- The content of a node that cannot have children. -/
def ownText? : Content → Option String
  | text s | cdata s | comment s => some s
  | instruction _ data => data
  | _ => none

def attributes (content : Content) : List Attribute :=
  (content.element?.map (·.attributes)).getD []

def bindings (content : Content) : List Binding :=
  (content.element?.map (·.bindings)).getD []

def attribute? (content : Content) (name : String) : Option String :=
  content.element?.bind (·.attribute? name)

/-- The characters of a list of contents, one after the other. -/
def joinCharacters (contents : List Content) : String :=
  String.join (contents.filterMap characters?)

/-- The text of a content with these contents below it: its own, if it cannot have any. -/
def fullText (content : Content) (below : List Content) : String :=
  match content with
  | document | element _ | doctype .. => joinCharacters below
  | leaf => leaf.ownText?.getD ""

/-- The name that the document object model gives to a kind of node. -/
def nodeType : Content → String
  | document => "DOCUMENT_NODE"
  | element _ => "ELEMENT_NODE"
  | text _ => "TEXT_NODE"
  | cdata _ => "CDATA_SECTION_NODE"
  | comment _ => "COMMENT_NODE"
  | instruction .. => "PROCESSING_INSTRUCTION_NODE"
  | doctype .. => "DOCUMENT_TYPE_NODE"

end Content

end XmlStore
