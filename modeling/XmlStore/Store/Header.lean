/-
Headers and external links. A header is an element below the root element
that says by what and when a document was made; the time is given by the
caller.
-/
import XmlStore.Store.Edit

namespace XmlStore

/-- Who made a document: the tool and its version, and the author. -/
structure ToolHeader where
  tool : String
  version : String
  author : String
deriving DecidableEq, Repr

/-- What a data set says about itself. -/
structure DataHeader where
  name : String
  creator : String
  version : String
  description : String
  /-- The version of the data format. -/
  formatVersion : String
deriving DecidableEq, Repr

namespace Edit

/-- Adds an empty header below the root element. -/
def appendHeader : Edit NodeId := do
  match (← document).rootElement? with
  | some top => appendElement top "header" ""
  | none => throw .noRootElement

/-- Adds elements with texts below a node. -/
def appendFields (id : NodeId) (fields : List (String × String)) : Edit Unit :=
  fields.forM fun (name, text) => discard (appendElement id name text)

def addToolHeader (h : ToolHeader) (time : String) : Edit Unit := do
  let header ← appendHeader
  let tool ← appendElement header "tool" ""
  appendFields tool [("toolName", h.tool), ("version", h.version)]
  appendFields header [("author", h.author), ("timestamp", time)]

def addDataHeader (h : DataHeader) (time : String) : Edit Unit := do
  let header ← appendHeader
  appendFields header
    [("name", h.name), ("version", h.version), ("cpacsVersion", h.formatVersion),
      ("creator", h.creator), ("description", h.description), ("timestamp", time)]

/-- Adds a reference to a file elsewhere. -/
def addExternalLink (parent url : String) (format : Option String) : Edit Unit := do
  let id ← insertElement parent "externalFile" none (some url) 0
  if let some format := format then change (·.setAttribute id "format" format)

end Edit

end XmlStore
