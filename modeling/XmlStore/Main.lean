/-
The program. It computes a run from the files known so far, looks up a file
whenever the run fails for want of it, and starts over; when nothing more is
wanted, it writes what the run wrote and prints what it printed.
-/
import XmlStore.CommandLine

namespace XmlStore

namespace Program

/-- A place as an absolute path. -/
def pathOf (place : List String) : String := "/" ++ "/".intercalate place

/-- What is at a place, if anything can be read there. -/
def probe (place : List String) : IO (Option FileEntry) := do
  try
    let content ← IO.FS.readBinFile (pathOf place)
    return some (.file content.toList)
  catch _ =>
    let isDirectory ← try (← IO.FS.realPath (pathOf place)).isDir catch _ => pure false
    return if isDirectory then some .directory else none

/-- Looks up every place on the way along a path. -/
def learn (files : Files) (path : String) : IO Files :=
  (Files.waypoints (files.base path) (FilePath.pieces path)).foldlM (fun files place => do
    match files.find? place with
    | some _ => return files
    | none =>
      match ← probe place with
      | some entry => return files.put place entry
      | none => return files) files

/-- Runs the program until no file is wanted that has not been looked up. -/
def settle (arguments : List String) : Nat → List String → Files → IO (Files × CommandLine.Report)
  | 0, _, files => return (files, CommandLine.run arguments files)
  | rounds + 1, tried, files => do
    let report := CommandLine.run arguments files
    match report.cause.bind Error.file? with
    | none => return (files, report)
    | some path =>
      if tried.contains path then return (files, report)
      else settle arguments rounds (path :: tried) (← learn files path)

/-- Writes the files that a run changed. -/
def writeBack (before after : Files) : IO Unit :=
  after.entries.forM fun (place, entry) => do
    match entry with
    | .directory => return
    | .file content =>
      if before.entries.lookup place ≠ some entry then
        IO.FS.writeBinFile (pathOf place) content.toByteArray

end Program

end XmlStore

open XmlStore in
def main (arguments : List String) : IO UInt32 := do
  let home := Files.names (toString (← IO.currentDir))
  let request := CommandLine.Request.ofArguments arguments
  let known ← request.paths.foldlM Program.learn (Files.empty home)
  let (before, report) ← Program.settle arguments CommandLine.patience [] known
  Program.writeBack before report.files
  report.notices.forM fun notice => IO.eprintln (notice.severity.name ++ ": " ++ notice.text)
  IO.print report.output
  if let some complaint := report.complaint then IO.eprintln complaint
  return report.exit.toUInt32
