/-
The store: documents that are open under handles. Handles are counted up and
never given out twice. A call on a document finds it by its handle; what it
returns is the outcome of the call, and the messages for whoever listens.
-/
import XmlStore.Store.Call
import XmlStore.Store.External

namespace XmlStore

/-- The version of this library. -/
def libraryVersion : String := "0.1.0"

/-- Whether references to external data are followed when a document is opened. -/
inductive OpenMode where
  | plain
  | recursive
deriving DecidableEq, Repr

namespace OpenMode

def name : OpenMode → String
  | plain => "Plain"
  | recursive => "Recursive"

def ofNumber (mode : Int) : Except Error OpenMode :=
  if mode = 0 then .ok plain
  else if mode = 1 then .ok recursive
  else .error (.unknownOpenMode mode)

end OpenMode

abbrev Handle := Int

structure Store where
  /-- The open documents, in ascending order of their handles. -/
  documents : List (Handle × OpenDocument)
  nextHandle : Handle
  options : StoreOptions
  /-- Whether somebody listens to messages. -/
  listening : Bool
  /-- Whether messages are held back. -/
  silenced : Bool

/-- What a call comes to. -/
inductive Outcome where
  | answered (a : Answer)
  | refused (e : Error)
  /-- No answer within the patience that the call was given. -/
  | unfinished

structure Reply where
  outcome : Outcome
  messages : List Message

/-- The outcome of a computation on a state, its messages with an error as the last one, and the
state that it leaves. -/
def Tracked.conclude {σ : Type} (state : σ) (computation : Tracked σ Answer) :
    (Outcome × List Message) × σ :=
  match (computation.run.run state).run [] with
  | ((.ok a, state), messages) => ((.answered a, messages), state)
  | ((.error e, state), messages) => ((.refused e, messages ++ [e.toMessage]), state)

/-- The name of the file of a document that was imported from text. -/
def importedFileName : String := "tixiDocument.xml"

/-- The directory of a document that was imported from text. -/
def importedDirectory : String := "./"

/-- Runs a computation; its error is the last of its messages. -/
def Reported.finish {α : Type} (computation : Reported α) : Except Error α × List Message :=
  match computation.run.run [] with
  | (.ok a, messages) => (.ok a, messages)
  | (.error e, messages) => (.error e, messages ++ [e.toMessage])

namespace OpenDocument

/-- A new document with a root element. -/
def create (o : StoreOptions) (rootName : String) : Except Error OpenDocument :=
  if isQName rootName then
    let (id, document) := Document.empty.create (.element (.named (.ofString rootName)))
    let document := (document.rename id rootName).append Document.root id
    .ok (.ofDocument o document)
  else .error (.invalidName rootName)

/-- The document that a markup stands for. It is written in an encoding of its own, whatever the
markup declares. -/
def ofMarkup (o : StoreOptions) (markup : Markup) : OpenDocument :=
  .ofDocument o (.ofMarkup { markup with declaration.encoding := none })

def importText (o : StoreOptions) (markup : String) : Except Error OpenDocument :=
  match Markup.ofString o.readOptions markup with
  | .ok markup =>
    let d := ofMarkup o markup
    .ok { d with fileName := some importedFileName, directory := some importedDirectory }
  | .error cause => .error (.notWellFormed cause)

/-- Reads a document from a file. -/
def readFile (o : StoreOptions) (files : Files) (path : String) : Reported OpenDocument := do
  match files.read path with
  | .error cause => throw (.unreadableFile path cause)
  | .ok bytes =>
    match Markup.ofBytes o.readOptions bytes with
    | .error cause => throw (.notWellFormed cause)
    | .ok markup =>
      markup.warnings.forM fun warning => Reported.warn warning.text
      return { ofMarkup o markup with
        path := some path
        fileName := FilePath.fileName? path
        directory := some (FilePath.directory path) }

/-- Reads a document from a file and includes external data; none if the patience for that does not
suffice. -/
def readFiles (o : StoreOptions) (files : Files) (patience : Nat) (path : String)
    (mode : OpenMode) : Reported (Option OpenDocument) := do
  let d ← readFile o files path
  match mode with
  | .plain => return some d
  | .recursive =>
    let (count, d) ← Tracked.runOn d (External.includeAll files patience)
    return count.map fun count => { d with hasIncluded := 0 < count }

end OpenDocument

namespace Store

/-- A store without documents, to which nobody listens. -/
def ofOptions (options : StoreOptions) : Store := ⟨[], 1, options, false, false⟩

def document? (s : Store) (handle : Handle) : Option OpenDocument := s.documents.lookup handle

def handles (s : Store) : List Handle := s.documents.map (·.1)

/-- Takes a document under a new handle. -/
def insert (s : Store) (d : OpenDocument) : Store :=
  { s with documents := s.documents ++ [(s.nextHandle, d)], nextHandle := s.nextHandle + 1 }

/-- Puts a document in place of the one under a handle. -/
def update (s : Store) (handle : Handle) (d : OpenDocument) : Store :=
  { s with documents := s.documents.map fun (h, old) => (h, if h = handle then d else old) }

def erase (s : Store) (handle : Handle) : Store :=
  { s with documents := s.documents.filter (·.1 ≠ handle) }

def clear (s : Store) : Store := { s with documents := [] }

theorem document?_erase (s : Store) (handle : Handle) :
    (s.erase handle).document? handle = none := by
  simp only [erase, document?, List.lookup_eq_none_iff, List.mem_filter, decide_eq_true_eq]
  rintro ⟨other, d⟩ ⟨_, differs⟩
  simpa using fun e => differs e.symm

/-- A reply to whoever listens. -/
def reply (s : Store) (outcome : Outcome) (messages : List Message) : Reply :=
  ⟨outcome, if s.listening && !s.silenced then messages else []⟩

def answer (s : Store) (a : Answer) : Reply := s.reply (.answered a) []

/-- A refusal that is reported. -/
def refuse (s : Store) (e : Error) (messages : List Message) : Reply :=
  s.reply (.refused e) (messages ++ [e.toMessage])

/-- Takes a document that could be made, and answers with its handle. -/
def add (s : Store) (d : Except Error OpenDocument) : Reply × Store :=
  match d with
  | .ok d => (s.answer (.integer s.nextHandle), s.insert d)
  | .error e => (s.refuse e [], s)

def openFile (s : Store) (files : Files) (patience : Nat) (path : String) (mode : OpenMode) :
    Reply × Store :=
  match (OpenDocument.readFiles s.options files patience path mode).finish with
  | (.ok (some d), messages) =>
    let news := ⟨.status, s!"opened {path} as document {s.nextHandle}"⟩
    (s.reply (.answered (.integer s.nextHandle)) (messages ++ [news]), s.insert d)
  | (.ok none, messages) => (s.reply .unfinished messages, s)
  | (.error e, messages) => (s.reply (.refused e) messages, s)

/-- Puts a question to the document under a handle; its answer may be remembered. -/
def ask (s : Store) (handle : Handle) (q : Question) : Reply × Store :=
  match s.document? handle with
  | none => (s.refuse (.invalidHandle handle) [], s)
  | some d =>
    let ((outcome, messages), cache) := (q.lookup.run d).conclude d.cache
    (s.reply outcome messages, s.update handle { d with cache })

/-- Changes the document under a handle, unless it has been saved. -/
def change (s : Store) (handle : Handle) (c : Change) : Reply × Store :=
  match c.edit with
  | .error e => (s.reply (.refused e) [], s)
  | .ok edit =>
    match s.document? handle with
    | none => (s.refuse (.invalidHandle handle) [], s)
    | some d =>
      if d.status = .saved then (s.refuse (.alreadySaved handle) [], s)
      else
        let ((outcome, messages), after) := edit.conclude d
        (s.reply outcome messages,
          s.update handle { d with document := after.document, cache := none })

/-- Sets something for the document under a handle, even if it has been saved. -/
def set (s : Store) (handle : Handle) (setting : Setting) : Reply × Store :=
  match s.document? handle with
  | none => (s.refuse (.invalidHandle handle) [], s)
  | some d =>
    match (setting.apply d.document d.preferences).finish with
    | (.ok preferences, messages) =>
      (s.reply (.answered .done) messages, s.update handle { d with preferences, cache := none })
    | (.error e, messages) =>
      (s.reply (.refused e) messages, s.update handle { d with cache := none })

/-- Saves the document under a handle. Files that were written before something failed stay
written. -/
def save (s : Store) (files : Files) (handle : Handle) (path : String) (mode : SaveMode) :
    Reply × Store × Files :=
  match s.document? handle with
  | none => (s.refuse (.invalidHandle handle) [], s, files)
  | some d =>
    match (External.save d path mode).run.run files with
    | (.error e, files) => (s.refuse e [], s, files)
    | (.ok (), files) =>
      let news := ⟨.status, s!"saved document {handle} to {path}"⟩
      (s.reply (.answered .done) [news],
        s.update handle { d with path := some path, status := .saved }, files)

def close (s : Store) (handle : Handle) : Reply × Store :=
  match s.document? handle with
  | none => (s.refuse (.invalidHandle handle) [], s)
  | some _ => (s.answer .done, s.erase handle)

end Store

/-- A call to a store. -/
inductive Call where
  | create (rootName : String)
  | importText (markup : String)
  | openFile (path : String) (mode : OpenMode)
  | save (handle : Handle) (path : String) (mode : SaveMode)
  | close (handle : Handle)
  | closeAll
  | ask (handle : Handle) (q : Question)
  | change (handle : Handle) (c : Change)
  | set (handle : Handle) (setting : Setting)
  | listen (on : Bool)
  | silence (on : Bool)

/-- A store and the files that its calls read and write. -/
structure Session where
  store : Store
  files : Files

namespace Session

/-- One call. Its patience is the number of references that it may replace to open a document. -/
def call (patience : Nat) (s : Session) (c : Call) : Reply × Session :=
  let store := s.store
  let inStore (result : Reply × Store) : Reply × Session := (result.1, { s with store := result.2 })
  match c with
  | .create rootName => inStore (store.add (OpenDocument.create store.options rootName))
  | .importText markup => inStore (store.add (OpenDocument.importText store.options markup))
  | .openFile path mode => inStore (store.openFile s.files patience path mode)
  | .save handle path mode =>
    let (reply, store, files) := store.save s.files handle path mode
    (reply, ⟨store, files⟩)
  | .close handle => inStore (store.close handle)
  | .closeAll => inStore (store.answer .done, store.clear)
  | .ask handle q => inStore (store.ask handle q)
  | .change handle c => inStore (store.change handle c)
  | .set handle setting => inStore (store.set handle setting)
  | .listen on => inStore (store.answer .done, { store with listening := on })
  | .silence on => inStore (store.answer .done, { store with silenced := on })

end Session

end XmlStore
