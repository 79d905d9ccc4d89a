/-
A tree of files as a value. A path is followed piece by piece, from the root
or from the working directory, and every piece but the last has to be a
directory.
-/
import XmlStore.Files.Path
import XmlStore.Encoding.Decode

namespace XmlStore

/-- Why a file cannot be read or written. -/
inductive FileError where
  | missing
  | notDirectory
  | isDirectory
deriving DecidableEq, Repr

def FileError.message : FileError → String
  | missing => "No such file or directory (os error 2)"
  | notDirectory => "Not a directory (os error 20)"
  | isDirectory => "Is a directory (os error 21)"

inductive FileEntry where
  | directory
  | file (content : Bytes)
deriving DecidableEq, Repr

/-- Entries by the names on the way to them from the root. A directory that something is known to
be in needs no entry. -/
structure Files where
  /-- The way to the working directory. -/
  home : List String
  entries : List (List String × FileEntry)
deriving DecidableEq, Repr

namespace Files

/-- A working directory with nothing in it. -/
def empty (home : List String) : Files := ⟨home, []⟩

/-- What is at a place, directories without an entry included. -/
def find? (f : Files) (place : List String) : Option FileEntry :=
  match f.entries.lookup place with
  | some entry => some entry
  | none =>
    if place.isPrefixOf f.home || f.entries.any (place.isPrefixOf ·.1) then some .directory
    else none

/-- Requires a directory at a place. -/
def enter (f : Files) (place : List String) : Except FileError Unit :=
  match f.find? place with
  | some .directory => .ok ()
  | some (.file _) => .error .notDirectory
  | none => .error .missing

/-- The place that pieces of a path lead to from another place. -/
def follow (f : Files) (place : List String) : List String → Except FileError (List String)
  | [] => .ok place
  | piece :: rest => do
    f.enter place
    if FilePath.isIdle piece then f.follow place rest
    else if piece == ".." then f.follow place.dropLast rest
    else f.follow (place ++ [piece]) rest

/-- Where a path starts from. -/
def base (f : Files) (path : String) : List String :=
  if FilePath.isAbsolute path then [] else f.home

/-- The places on the way along pieces of a path, its end included. -/
def waypoints (place : List String) : List String → List (List String)
  | [] => [place]
  | piece :: rest =>
    if FilePath.isIdle piece then waypoints place rest
    else
      let next := if piece == ".." then place.dropLast else place ++ [piece]
      place :: waypoints next rest

def read (f : Files) (path : String) : Except FileError Bytes := do
  if path.isEmpty then .error .missing
  else
    let place ← f.follow (f.base path) (FilePath.pieces path)
    match f.find? place with
    | some (.file content) => .ok content
    | some .directory => .error .isDirectory
    | none => .error .missing

/-- Sets the entry at a place. -/
def put (f : Files) (place : List String) (entry : FileEntry) : Files :=
  if f.entries.any (·.1 == place) then
    { f with entries := f.entries.map fun old => if old.1 == place then (place, entry) else old }
  else { f with entries := f.entries ++ [(place, entry)] }

theorem find?_put (f : Files) (place : List String) (entry : FileEntry) :
    (f.put place entry).find? place = some entry := by
  have found : (f.put place entry).entries.lookup place = some entry := by
    unfold put
    split
    · rename_i known
      simp only
      generalize f.entries = l at known
      induction l with
      | nil => simp at known
      | cons old rest ih =>
        obtain ⟨other, content⟩ := old
        by_cases h : other = place
        · simp [h]
        · have differs : (place == other) = false := by simpa using fun e => h e.symm
          have later : rest.any (·.1 == place) = true := by simpa [h] using known
          simpa [h, List.lookup_cons, differs] using ih later
    · rename_i absent
      simp only
      generalize f.entries = l at absent
      induction l with
      | nil => simp
      | cons old rest ih =>
        obtain ⟨other, content⟩ := old
        by_cases h : other = place
        · simp [h] at absent
        · have differs : (place == other) = false := by simpa using fun e => h e.symm
          have later : ¬rest.any (·.1 == place) = true := by simpa [h] using absent
          simpa [h, List.lookup_cons, differs] using ih later
  unfold find?
  rw [found]

/-- The names in a path. -/
def names (path : String) : List String := (FilePath.pieces path).filter (!·.isEmpty)

def endsInSlash (path : String) : Bool := path.toList.getLast? == some '/'

/-- Writes a file, in place of what it held before. Its directory has to exist; a path that ends in
a slash or in dots names no file. -/
def write (f : Files) (path : String) (content : Bytes) : Except FileError Files := do
  if path.isEmpty then .error .missing
  else
    let place ← f.follow (f.base path) (names path).dropLast
    f.enter place
    let name := (names path).getLastD ""
    if FilePath.isIdle name || name == ".." || endsInSlash path then .error .isDirectory
    else match f.find? (place ++ [name]) with
      | some .directory => .error .isDirectory
      | _ => .ok (f.put (place ++ [name]) (.file content))

/-- Adds a file, or a directory if the path ends in a slash, whatever was there before. -/
def add (f : Files) (path : String) (content : Bytes) : Files :=
  let place := f.base path ++ (FilePath.pieces path).filter (!FilePath.isIdle ·)
  f.put place (if endsInSlash path then .directory else .file content)

/-- The files below the working directory with their paths from there, in ascending order. -/
def listing (f : Files) : List (String × Bytes) :=
  let found := f.entries.filterMap fun (place, entry) =>
    match entry, f.home.isPrefixOf? place with
    | .file content, some below => some ("/".intercalate below, content)
    | _, _ => none
  found.mergeSort fun a b => a.1 ≤ b.1

end Files

end XmlStore
