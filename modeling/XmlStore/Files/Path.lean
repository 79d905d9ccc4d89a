/-
File paths as text. Pieces between slashes that are empty or a single dot
mean nothing, except a dot that begins a path; what is left is taken apart
without looking at any file.
-/
namespace XmlStore

namespace FilePath

/-- The pieces of a path between its slashes. -/
def pieces (path : String) : List String :=
  (path.toList.splitOn '/').map String.ofList

def isAbsolute (path : String) : Bool := path.toList.head? == some '/'

/-- Whether a piece behind the first one means nothing. -/
def isIdle (piece : String) : Bool := piece == "" || piece == "."

/-- Drops pieces that mean nothing from the front of a reversed path, never the first piece. -/
def dropIdle : List String → List String
  | [] => []
  | [first] => [first]
  | piece :: rest => if isIdle piece then dropIdle rest else piece :: rest

/-- The pieces of a path in reverse, the last one being a name or dots. -/
def reversed (path : String) : List String := dropIdle (pieces path).reverse

/-- The last name in a path, unless it ends in dots. -/
def fileName? (path : String) : Option String :=
  match (reversed path).head? with
  | some name => if isIdle name || name == ".." then none else some name
  | none => none

/-- What is left of a path without its last piece. The root has none, and leaves an empty path. -/
def directory (path : String) : String :=
  match reversed path with
  | [] | [""] => ""
  | _ :: rest =>
    let above := (dropIdle rest).reverse
    if isAbsolute path && above.all (· == "") then "/" else "/".intercalate above

/-- A path seen from another; an absolute one stays as it is. -/
def join (base path : String) : String :=
  if isAbsolute path || base.isEmpty then path
  else if base.toList.getLast? == some '/' then base ++ path
  else base ++ "/" ++ path

end FilePath

end XmlStore
