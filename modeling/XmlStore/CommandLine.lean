/-
The command line: one document is opened, one question is put to it or one
copy of it is written. What a run prints and writes is computed from its
arguments and the files there are.
-/
import XmlStore.Store.Basic
import XmlStore.CommandLine.Help

namespace XmlStore

namespace CommandLine

/-- What is to be done with the document. -/
inductive Action where
  | wholeText (pretty : Bool)
  | text (path : String)
  | count (expression : String)
  | paths (expression : String)
  | attributeText (path name : String)
  | checkUids
  | resolve (out : String)
deriving DecidableEq, Repr

/-- What the arguments ask for. -/
inductive Request where
  | run (file : String) (recursive : Bool) (action : Action)
  | version
  | help (topic : Topic)
  | misused
deriving DecidableEq, Repr

/-- The action that a word and its arguments ask for. -/
def action? (word : String) (pretty : Bool) : List String → Option Action
  | [] =>
    if word = "export" then some (.wholeText pretty)
    else if word = "uid-check" then some .checkUids
    else none
  | [a] =>
    if word = "text" then some (.text a)
    else if word = "count" then some (.count a)
    else if word = "paths" then some (.paths a)
    else if word = "resolve" then some (.resolve a)
    else none
  | [a, b] => if word = "attr" then some (.attributeText a b) else none
  | _ => none

/-- Whether an argument is an option; a single hyphen is none. -/
def isOption (argument : String) : Bool :=
  argument.toList.head? == some '-' && argument ≠ "-"

/-- Whether an argument begins with this letter as its first short option. -/
def asks (letter : Char) (argument : String) : Bool := ['-', letter].isPrefixOf argument.toList

/-- Reads the arguments of an action. `taken` are those read so far, `literal` says that no options
follow. -/
def readAction (form : Form) (pretty literal : Bool) (taken : List String)
    (finish : Action → Request) : List String → Request
  | [] =>
    match action? form.word pretty taken with
    | some action => finish action
    | none => .misused
  | argument :: rest =>
    if !literal && argument = "--" then readAction form pretty true taken finish rest
    else if !literal && isOption argument then
      if argument = "--help" || asks 'h' argument then .help (.action form)
      else if argument = "--pretty" && form.word = "export" && !pretty then
        readAction form true literal taken finish rest
      else .misused
    else if taken.length < form.parameters.length then
      readAction form pretty literal (taken ++ [argument]) finish rest
    else .misused

/-- What follows a call for help: the word for one action, or nothing. -/
def readHelp : List String → Request
  | [] => .help .program
  | [word] =>
    match form? word with
    | some form => .help (.action form)
    | none => if word = "help" then .help .help else .misused
  | _ => .misused

/-- Reads arguments up to the word for an action, and those of the action. -/
def readRequest (recursive : Bool) (file : Option String) : List String → Request
  | [] => .misused
  | argument :: rest =>
    if argument = "--version" || asks 'V' argument then .version
    else if argument = "help" then readHelp rest
    else if argument = "--help" || asks 'h' argument then .help .program
    else if argument = "--recursive" && !recursive then readRequest true file rest
    else if isOption argument then .misused
    else match form? argument with
      | some form =>
        readAction form false false [] (fun action =>
          match file with
          | some file => .run file recursive action
          | none => .misused) rest
      | none => if file.isNone then readRequest recursive (some argument) rest else .misused

def Request.ofArguments (arguments : List String) : Request := readRequest false none arguments

/-- The paths that a request names. -/
def Request.paths : Request → List String
  | .run file _ (.resolve out) => [file, out]
  | .run file _ _ => [file]
  | _ => []

/-- What a run leaves behind. -/
structure Report where
  exit : Nat
  output : String
  /-- The warnings and errors that came up. -/
  notices : List Message
  /-- The text written about an error, behind the notices. -/
  complaint : Option String
  /-- Why the run failed, if it did. -/
  cause : Option Error
  files : Files

/-- A session, and the notices of the run so far. -/
structure RunState where
  session : Session
  notices : List Message

abbrev Run := ExceptT Error (StateM RunState)

/-- How many references a run replaces before it gives up. -/
def patience : Nat := 100000

/-- Makes a call; one that cannot be finished counts as one that does nothing. News is no notice. -/
def perform (call : Call) : Run Answer := do
  let state ← getThe RunState
  let (reply, session) := state.session.call patience call
  set (RunState.mk session (state.notices ++ reply.messages.filter (·.severity ≠ .status)))
  match reply.outcome with
  | .answered a => return a
  | .refused e => throw e
  | .unfinished => return .done

/-- A line for each text. -/
def lines (texts : List String) : String := String.join (texts.map (· ++ "\n"))

/-- The text of an answer. -/
def answerText : Answer → String
  | .text s => s
  | .integer n => toString n
  | _ => ""

/-- Does what is asked with the document under a handle, and gives what is printed. -/
def Action.run (handle : Handle) : Action → Run String
  | wholeText pretty => do
    discard (perform (.set handle (.prettyPrint (if pretty then 1 else 0))))
    return answerText (← perform (.ask handle .wholeText))
  | text path => return lines [answerText (← perform (.ask handle (.text path)))]
  | count expression => return lines [answerText (← perform (.ask handle (.hitCount expression)))]
  | paths expression => do
    match ← perform (.ask handle (.hitCount expression)) with
    | .integer total =>
      let found ← (List.range total.toNat).mapM fun (i : Nat) =>
        perform (.ask handle (.hitLocation expression (i + 1)))
      return lines (found.map answerText)
    | _ => return ""
  | attributeText path name =>
    return lines [answerText (← perform (.ask handle (.attributeText path name)))]
  | checkUids => do
    discard (perform (.ask handle .checkUids))
    discard (perform (.ask handle .checkLinks))
    return lines ["ok"]
  | resolve out => do
    discard (perform (.save handle out .complete))
    return ""

/-- Whether an action asks for external data on its own account. -/
def Action.includes : Action → Bool
  | resolve _ => true
  | _ => false

/-- Opens a file and does what is asked. -/
def runAction (file : String) (recursive : Bool) (action : Action) (files : Files) : Report :=
  let report (exit : Nat) (output : String) (complaint : Option String) (cause : Option Error)
      (state : RunState) : Report :=
    ⟨exit, output, state.notices, complaint, cause, state.session.files⟩
  let store := { Store.ofOptions .default with listening := true }
  let mode := if recursive || action.includes then .recursive else .plain
  match (perform (.openFile file mode)).run.run ⟨⟨store, files⟩, []⟩ with
  | (.error e, state) => report 1 "" (some s!"{file}: {e.message}") (some e) state
  | (.ok (.integer handle), state) =>
    match (action.run handle).run.run state with
    | (.ok output, state) => report 0 output none none state
    | (.error e, state) =>
      report 2 "" (some s!"{file}: {e.message} ({e.code.name})") (some e) state
  | (.ok _, state) => report 1 "" (some s!"{file}: external data without end") none state

/-- Runs the program on its arguments. -/
def run (arguments : List String) (files : Files) : Report :=
  match Request.ofArguments arguments with
  | .version => ⟨0, lines [s!"tixi {libraryVersion}"], [], none, none, files⟩
  | .help topic => ⟨0, lines topic.lines, [], none, none, files⟩
  | .misused => ⟨2, "", [], some usage, none, files⟩
  | .run file recursive action => runAction file recursive action files

end CommandLine

end XmlStore
