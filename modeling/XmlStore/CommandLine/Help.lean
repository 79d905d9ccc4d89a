/-
The words of the command line: what each action is called, what it takes and
what it is for, and the help texts that are laid out from this.
-/
namespace XmlStore

namespace CommandLine

/-- A row of a help text. -/
structure Entry where
  label : String
  purpose : String
deriving DecidableEq, Repr

/-- An action as it is written on the command line. -/
structure Form where
  word : String
  purpose : String
  parameters : List String
  flags : List Entry
deriving DecidableEq, Repr

def helpFlag : Entry := ⟨"-h, --help", "Print help"⟩

/-- An option without a letter of its own stands below the long names of the others. -/
def longFlag (word purpose : String) : Entry := ⟨"    " ++ word, purpose⟩

/-- The actions there are. -/
def forms : List Form :=
  [⟨"export", "Print the whole document", [], [longFlag "--pretty" "Indent the output"]⟩,
    ⟨"text", "Print the text of the element an XPath selects", ["XPATH"], []⟩,
    ⟨"count", "Print how many nodes an XPath selects", ["XPATH"], []⟩,
    ⟨"paths", "Print the canonical path of every node an XPath selects", ["XPATH"], []⟩,
    ⟨"attr", "Print an attribute of the element an XPath selects", ["XPATH", "NAME"], []⟩,
    ⟨"uid-check", "Check that uIDs are unique and every link resolves", [], []⟩,
    ⟨"resolve", "Open recursively and save the complete document to a new file", ["OUT"], []⟩]

def form? (word : String) : Option Form := forms.find? (·.word == word)

/-- A title, and below it the entries with their purposes in one column. -/
def table (title : String) (entries : List Entry) : List String :=
  let width := (entries.map (·.label.length)).max?.getD 0
  (title ++ ":") :: entries.map fun entry =>
    "  " ++ entry.label ++ String.ofList (List.replicate (width - entry.label.length) ' ') ++ "  " ++
      entry.purpose

/-- A place for an argument. -/
def slot (parameter : String) : String := "<" ++ parameter ++ ">"

/-- How the program is called. -/
def usage : String := "Usage: tixi [OPTIONS] <FILE> <COMMAND>"

def helpPurpose : String := "Print this message or the help of the given subcommand(s)"

/-- The parts of the help text on the whole program. -/
def overview : List (List String) :=
  [["Handle-based XML data access with XPath addressing, typed values, matrices and UID links"],
    [usage],
    table "Commands" (forms.map (fun form => ⟨form.word, form.purpose⟩) ++ [⟨"help", helpPurpose⟩]),
    table "Arguments" [⟨slot "FILE", "XML file to open"⟩],
    table "Options"
      [longFlag "--recursive" "Splice the files referenced by `externaldata` nodes into the tree",
        helpFlag, ⟨"-V, --version", "Print version"⟩]]

/-- The parts of the help text on asking for help. -/
def helpOnHelp : List (List String) :=
  [[helpPurpose], ["Usage: tixi <FILE> help [COMMAND]..."],
    table "Arguments" [⟨"[COMMAND]...", "Print help for the subcommand(s)"⟩]]

/-- The parts of the help text on an action. -/
def Form.help (form : Form) : List (List String) :=
  let slots := form.parameters.map slot
  let options := if form.flags.isEmpty then [] else ["[OPTIONS]"]
  [[form.purpose],
    [" ".intercalate (["Usage: tixi", slot "FILE", form.word] ++ options ++ slots)]] ++
    (if slots.isEmpty then [] else [table "Arguments" (slots.map (⟨·, ""⟩))]) ++
    [table "Options" (form.flags ++ [helpFlag])]

/-- What help is asked for. -/
inductive Topic where
  | program
  | help
  | action (form : Form)
deriving DecidableEq, Repr

/-- The lines of a help text; its parts stand apart by an empty line. -/
def Topic.lines (topic : Topic) : List String :=
  let parts := match topic with
    | program => overview
    | help => helpOnHelp
    | action form => form.help
  [""].intercalate parts

end CommandLine

end XmlStore
