/-
Writing a document as text. With indentation on, an element that holds no
characters but white space has its children on lines of their own; any other
content is written on one line, so that texts keep every character.
-/
import XmlStore.Markup.Prolog
import XmlStore.Forest

namespace XmlStore

structure WriteOptions where
  indent : Bool
  /-- What one level of indentation is written as. -/
  indentUnit : String
  /-- The encoding to declare; without one, what the document declares itself. -/
  encoding : Option String
deriving DecidableEq, Repr

/-- No indentation; two spaces a level if it is turned on. -/
def WriteOptions.default : WriteOptions := ⟨false, "  ", none⟩

/-- How the trees of a forest are set apart. -/
inductive Layout where
  /-- Not at all. -/
  | inline
  /-- A line each, indented; texts are left out. -/
  | block
  /-- A line end after each. -/
  | lines
deriving DecidableEq, Repr

def escapeTextChar (c : Char) : List Char :=
  if c = '&' then "&amp;".toList
  else if c = '<' then "&lt;".toList
  else if c = '>' then "&gt;".toList
  else if c = '\r' then "&#13;".toList
  else [c]

def escapeValueChar (c : Char) : List Char :=
  if c = '"' then "&quot;".toList
  else if c = '\n' then "&#10;".toList
  else if c = '\t' then "&#9;".toList
  else escapeTextChar c

def escapeText (s : String) : List Char := s.toList.flatMap escapeTextChar

def escapeValue (s : String) : List Char := s.toList.flatMap escapeValueChar

/-- A value between double quotes. -/
def quoted (s : String) : List Char := '"' :: escapeValue s ++ ['"']

def Binding.write (b : Binding) : List Char :=
  let name := match b.qualifier with
    | some qualifier => "xmlns:" ++ qualifier
    | none => "xmlns"
  ' ' :: name.toList ++ '=' :: quoted b.uri

def Attribute.write (a : Attribute) : List Char :=
  ' ' :: a.name.text.toList ++ '=' :: quoted a.value

/-- A start tag without its closing bracket. -/
def Element.write (tag : Element) : List Char :=
  '<' :: tag.name.text.toList ++ tag.bindings.flatMap Binding.write ++
    tag.attributes.flatMap Attribute.write

def writeDoctype (name : String) (systemId publicId : Option String) : List Char :=
  let external := match publicId, systemId with
    | some p, some s => s!" PUBLIC \"{p}\" \"{s}\""
    | none, some s => s!" SYSTEM \"{s}\""
    | _, _ => ""
  s!"<!DOCTYPE {name}{external}>".toList

/-- Whether a node may stand on a line of its own: a text only if it is white space. -/
def allowsBlock : Content → Bool
  | .text s => s.toList.all isSpace
  | .cdata _ => false
  | _ => true

/-- Whether nodes can be laid out as a block: there is markup, and no characters to keep. -/
def isBlockContent (nodes : List Content) : Bool :=
  nodes.all allowsBlock && nodes.any fun content => !content.isCharacters

def WriteOptions.childLayout (o : WriteOptions) (children : Forest Content) : Layout :=
  if o.indent && isBlockContent children.roots then .block else .inline

def WriteOptions.pad (o : WriteOptions) (depth : Nat) : List Char :=
  (List.replicate depth o.indentUnit.toList).flatten

/-- What stands before a node in a layout. -/
def WriteOptions.before (o : WriteOptions) (layout : Layout) (depth : Nat) : Content → List Char
  | .element _ | .comment _ | .instruction .. => if layout = .block then o.pad depth else []
  | _ => []

/-- What stands after a node in a layout. -/
def Layout.after : Layout → List Char
  | inline => []
  | block | lines => ['\n']

def Content.isText : Content → Bool
  | text _ => true
  | _ => false

/-- The trees of a forest at a depth, and `after` behind them. -/
def WriteOptions.writeForest (o : WriteOptions) (layout : Layout) (depth : Nat) :
    Forest Content → List Char → List Char
  | .nil, after => after
  | .cons content children later, after =>
    let after := o.writeForest layout depth later after
    if layout = .block && content.isText then after
    else
      let after := layout.after ++ after
      o.before layout depth content ++ match content with
        | .element tag =>
          if children.isEmpty then tag.write ++ ("/>".toList ++ after)
          else
            let inner := o.childLayout children
            let (opening, closing) :=
              if inner = .block then ("\n".toList, o.pad depth) else ([], [])
            let after := closing ++ ("</".toList ++ (tag.name.text.toList ++ '>' :: after))
            tag.write ++ '>' :: (opening ++ o.writeForest inner (depth + 1) children after)
        | .text s => escapeText s ++ after
        | .cdata s => "<![CDATA[".toList ++ (s.toList ++ ("]]>".toList ++ after))
        | .comment s => "<!--".toList ++ (s.toList ++ ("-->".toList ++ after))
        | .instruction target data =>
          "<?".toList ++ (target.toList ++ ((data.elim [] fun d => ' ' :: d.toList) ++
            ("?>".toList ++ after)))
        | .doctype name systemId publicId => writeDoctype name systemId publicId ++ after
        | .document => o.writeForest .lines depth children after

/-- What stands behind the trees has no part in how they are written. -/
theorem WriteOptions.writeForest_append (o : WriteOptions) (layout : Layout) (depth : Nat)
    (f : Forest Content) (after more : List Char) :
    o.writeForest layout depth f (after ++ more) = o.writeForest layout depth f after ++ more := by
  induction f generalizing layout depth after with
  | nil => rfl
  | cons content children later ihc ihl =>
    simp only [writeForest, ihl]
    split
    · rfl
    · cases content <;> by_cases h : children.isEmpty <;> simp [← ihc, h]

/-- The XML declaration, always written, and its line end. -/
def WriteOptions.writeDeclaration (o : WriteOptions) (d : Declaration) : List Char :=
  let setting (name : String) : Option String → String
    | some value => s!" {name}=\"{value}\""
    | none => ""
  let version := setting "version" (d.version.getD "1.0")
  let encoding := setting "encoding" (o.encoding.or d.encoding)
  let standalone := setting "standalone" (d.standalone.map fun b => if b then "yes" else "no")
  s!"<?xml{version}{encoding}{standalone}?>\n".toList

/-- A whole document: the declaration, then each top-level node on a line. -/
def WriteOptions.writeDocument (o : WriteOptions) (d : Declaration) (nodes : Forest Content) :
    String :=
  String.ofList (o.writeDeclaration d ++ o.writeForest .lines 0 nodes [])

/-- One node with what is below it. -/
def WriteOptions.writeNode (o : WriteOptions) (content : Content) (children : Forest Content) :
    String :=
  String.ofList (o.writeForest .inline 0 (.tree content children) [])

end XmlStore
