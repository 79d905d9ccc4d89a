/-
Documents with external data that are saved and opened again. The main file
is written without what was included, and the other files hold what they held,
up to the form of references. So what comes of the files is what came of them
before, and the document has the same nodes in the same order. For this it is
taken that each reference names one file and comes last in its element: the
references that are put back when a document is saved do.
-/
import XmlStore.Proofs.HandleRuns
import XmlStore.Proofs.Openings
import XmlStore.Proofs.Splits

namespace XmlStore

namespace External

variable {files files' : Files} {options : ReadOptions} {o : WriteOptions} {base path : String} {n : Nat}
variable {contents before after : List Content} {top : Content} {below f whole : Forest Content} {bytes : Bytes}
variable {m : Markup}

/-! ## What stands beside a document element -/

section

variable (asides : ∀ content ∈ contents, Aside content)

include asides

theorem normal_leaves_append : normal (leaves contents ++ f) = leaves contents ++ normal f := by
  induction contents with
  | nil => rfl
  | cons content contents ih =>
    rw [List.forall_mem_cons] at asides
    have other : ¬ isReference content = true := fun reference =>
      Bool.false_ne_true ((isElement_of_aside asides.1).symm.trans (isElement_of_isReference reference))
    exact (normal_other other).trans (congrArg (Forest.cons content .nil) (ih asides.2))

theorem normal_leaves : normal (leaves contents) = leaves contents := by
  have alone : _ = leaves contents ++ .nil := normal_leaves_append (f := .nil) asides
  rwa [Forest.append_nil] at alone

theorem tidy_leaves_append (tidy : Tidy f) : Tidy (leaves contents ++ f) := by
  induction contents with
  | nil => exact tidy
  | cons content contents ih =>
    rw [List.forall_mem_cons] at asides
    refine ⟨?_, ih asides.2⟩
    cases asides.1.reread <;> exact ⟨rfl, fun some => absurd rfl some, trivial⟩

theorem tidy_leaves : Tidy (leaves contents) := by
  have alone := tidy_leaves_append (f := .nil) asides trivial
  rwa [Forest.append_nil] at alone

end

theorem hidesText_leaves_append : (leaves contents ++ f).hidesText = f.hidesText := by
  induction contents with
  | nil => rfl
  | cons content contents ih =>
    rw [leaves, Forest.cons_append, Forest.hidesText, ih]
    simp [Forest.hidesText, Forest.roots]

theorem hidesText_leaves : (leaves contents).hidesText = false := by
  have alone := @hidesText_leaves_append contents .nil
  rwa [Forest.append_nil] at alone

/-! ## The main file -/

/-- A document of which nothing is lost but the form of references when it is written to its file again. -/
structure Rewritable (options : ReadOptions) (m : Markup) (top : Content) (below : Forest Content)
    (before after : List Content) : Prop where
  shape : m.nodes = leaves before ++ .cons top below (leaves after)
  ahead : ∀ content ∈ before, Aside content
  behind : ∀ content ∈ after, Aside content
  rereadable : Rereadable options top below
  sieved : m.nodes.Sieved true
  version : m.declaration.version.getD "1.0" = "1.0"

theorem rewritable_of_ofBytes (sieves : options.noBlanks = true) (parsed : Markup.ofBytes options bytes = .ok m)
    (root : m.root? = some (top, below)) (restorable : Restorable top below)
    (version : m.declaration.version.getD "1.0" = "1.0")
    (untyped : ∀ name systemId publicId, Content.doctype name systemId publicId ∉ m.nodes.roots) :
    ∃ before after, Rewritable options m top below before after := by
  rw [Markup.ofBytes] at parsed
  split at parsed
  · obtain ⟨rereadable, before, after, shape, ahead, behind⟩ :=
      rereadable_of_readDocument sieves parsed root restorable
    refine ⟨before, after, shape, fun content mem => (ahead content mem).isAside ?_, behind, rereadable,
      sieved_of_readDocument sieves parsed untyped, version⟩
    rintro name systemId publicId rfl
    exact untyped name systemId publicId (shape ▸ mem_roots_leaves_append mem)
  · cases parsed

namespace Rewritable

variable (h : Rewritable options m top below before after)

include h

theorem other : ¬ isReference top = true := Bool.eq_false_iff.mp h.rereadable.restorable.other

theorem tidy : Tidy m.nodes := by
  have inner := h.rereadable.restorable.tidy.1
  rw [if_neg h.other] at inner
  rw [h.shape]
  refine tidy_leaves_append h.ahead ⟨?_, tidy_leaves h.behind⟩
  rwa [if_neg h.other]

theorem normal_nodes : normal m.nodes = leaves before ++ .cons top (normal below) (leaves after) := by
  rw [h.shape, normal_leaves_append h.ahead, normal_other h.other, normal_leaves h.behind]

theorem hidesText_nodes : m.nodes.hidesText = false := by
  have inner := h.rereadable.restorable.shown
  rw [Forest.tree, Forest.hidesText] at inner
  rw [h.shape, hidesText_leaves_append, Forest.hidesText, hidesText_leaves]
  exact inner

theorem root?_of_nodes {m' : Markup} (nodes : m'.nodes = normal m.nodes) : m'.root? = some (top, normal below) := by
  obtain ⟨tag, -, rfl, -⟩ := h.rereadable.tag
  rw [Markup.root?, nodes, h.normal_nodes]
  exact find?_leaves fun content mem => isElement_of_aside (h.ahead content mem)

/-- What is written to the main file is read from it again, and is what it held. -/
theorem ofBytes_rewritten (sieves : options.noBlanks = true)
    (unit : ∀ ch ∈ o.indentUnit.toList, ch = ' ' ∨ ch = '\t') (encoded : o.encoding = some "utf-8")
    {declaration : Declaration} (version : declaration.version = m.declaration.version) :
    ∃ m', Markup.ofBytes options (utf8Bytes (o.writeDocument declaration (normal m.nodes))) = .ok m' ∧
      m'.nodes = normal m.nodes ∧
      normalRoot? options (utf8Bytes (o.writeDocument declaration (normal m.nodes))) =
        some (.tree top (normal below)) := by
  have again : TopLevel options (normal m.nodes) := h.normal_nodes ▸ h.rereadable.topLevel h.ahead h.behind
  obtain ⟨m', read, nodes⟩ := ofBytes_writeDocument sieves unit encoded (version ▸ h.version) again
    (sieved_normal h.sieved) (hidesText_normal h.hidesText_nodes)
  refine ⟨m', read, nodes, ?_⟩
  rw [normalRoot?_eq h.other (by rw [contentRoot?, read]; exact h.root?_of_nodes nodes), normal_normal]

end Rewritable

/-! ## Saving -/

theorem Alike.refl : Alike options files files := fun _ bytes read => ⟨bytes, read, rfl⟩

/-- What comes of including everything can go back to its files. -/
theorem Expands.returnable (expands : Expands files options (some base) n m.nodes whole)
    (orderly : Orderly files options (some base) path) (read : files.read path = .ok bytes)
    (parsed : Markup.ofBytes options bytes = .ok m) (tidy : Tidy m.nodes) :
    Returnable files options (some base) (normal m.nodes) whole := by
  have led : Led files options (some base) path m.nodes := fun item mem =>
    ⟨path, .refl, fileReferences_eq read parsed ▸ mem⟩
  obtain ⟨sourced, back⟩ := expands.sourced orderly led tidy.sourced
  exact ⟨sourced, normal_of_references_eq_nil expands.references_eq_nil, back.trans tidy.collapsed_eq⟩

variable {d : OpenDocument}

theorem run_save {mode : SaveMode} {split : Document} {files₁ : Files}
    (prepared : (prepare d path mode).run.run files = (.ok split, files₁))
    (written : files₁.write path (utf8Bytes (split.write d.fileOptions)) = .ok files') :
    (save d path mode).run.run files = (.ok (), files') := by
  rw [save, ExceptT.run_bind, StateT.run_bind, prepared]
  exact run_writeFile written

/-- A document with its external data is saved, and its files hold what they held. -/
theorem Rewritable.save (h : Rewritable options m top below before after) (sieves : options.noBlanks = true)
    (unit : ∀ ch ∈ d.indentUnit.toList, ch = ' ' ∨ ch = '\t') (read : files.read path = .ok bytes)
    (parsed : Markup.ofBytes options bytes = .ok m) (root : m.root? = some (top, below))
    (version : d.document.declaration.version = m.declaration.version)
    (parting : Parting files options (FilePath.directory path) (normal m.nodes) d.document.declaration d.document
      files) :
    ∃ files' bytes' m', (save d path .split).run.run files = (.ok (), files') ∧ Alike options files files' ∧
      files'.read path = .ok bytes' ∧ Markup.ofBytes options bytes' = .ok m' ∧ m'.nodes = normal m.nodes := by
  obtain ⟨split, files₁, parted, ⟨-, -, declared, -, grounded, alike⟩, contents⟩ :=
    parting.split (o := d.fileOptions) sieves unit rfl
  have text : split.write d.fileOptions = d.fileOptions.writeDocument d.document.declaration (normal m.nodes) := by
    rw [Document.write, declared, contents]
  obtain ⟨m', parsed', nodes, held⟩ :=
    h.ofBytes_rewritten (o := d.fileOptions) sieves unit rfl version
  rw [← text] at parsed' held
  have known : normalRoot? options bytes = some (.tree top (normal below)) :=
    normalRoot?_eq h.other (by rw [contentRoot?, parsed]; exact root)
  obtain ⟨old, before, -⟩ := alike path bytes read
  obtain ⟨files', written, -, read', reads⟩ :=
    Files.write_of_read grounded before (utf8Bytes (split.write d.fileOptions))
  exact ⟨files', _, m', run_save parted written, alike.overwritten read (held.trans known.symm) before reads, read',
    parsed', nodes⟩

end External

/-! ## Opening -/

namespace OpenDocument

open External (Expands Shows includeAll)

/-- The document is what comes of opening a file with everything that it leads to. -/
structure OpenedWith (o : StoreOptions) (files : Files) (n : Nat) (path : String) (bytes : Bytes) (m : Markup)
    (whole : Forest Content) (d : OpenDocument) : Prop where
  read : files.read path = .ok bytes
  parsed : Markup.ofBytes o.readOptions bytes = .ok m
  expands : Expands files o.readOptions (some (FilePath.directory path)) n m.nodes whole
  rooted : d.document.Rooted
  contents : d.document.contents Document.root = whole
  version : d.document.declaration.version = m.declaration.version
  indentUnit : d.indentUnit = o.indentUnit

variable {o : StoreOptions} {files : Files} {path : String} {n : Nat} {bytes : Bytes} {m : Markup}
variable {whole : Forest Content} {d : OpenDocument}

theorem openedWith_of_shows (read : files.read path = .ok bytes) (parsed : Markup.ofBytes o.readOptions bytes = .ok m)
    (expands : Expands files o.readOptions (some (FilePath.directory path)) n m.nodes whole)
    (shows_whole : Shows (ofFile o path m) whole d) (included : Bool) :
    OpenedWith o files n path bytes m whole { d with hasIncluded := included } where
  read := read
  parsed := parsed
  expands := expands
  rooted := shows_whole.rooted
  contents := shows_whole.contents
  version := by
    have declared : (Document.ofMarkup { m with declaration.encoding := none }).declaration =
        { m.declaration with encoding := none } := (Document.grown_ofMarkup _).declaration
    rw [shows_whole.declaration, ofFile, ofMarkup, ofDocument, declared]
  indentUnit := congrArg OpenDocument.indentUnit shows_whole.only

theorem returns_readFiles_openedWith : (readFiles o files n path .recursive).Returns fun d =>
    ∀ d' ∈ d, ∃ bytes m whole, OpenedWith o files n path bytes m whole d' := by
  refine (returns_readFiles_of_ensures (Q := fun finished d => finished = true →
    ∀ included, ∃ bytes m whole, OpenedWith o files n path bytes m whole { d with hasIncluded := included })
    fun bytes m read parsed => ?_).imp fun d hd => ?_
  · refine External.ensures_includeAll_expands.imp (fun _ ho => ho) fun count d hd finished included => ?_
    obtain ⟨whole, expands, shows_whole⟩ := hd finished
    exact ⟨bytes, m, whole, openedWith_of_shows read parsed expands shows_whole included⟩
  · intro d' mem
    obtain ⟨d'', included, finished, rfl⟩ := hd.2 d' mem
    exact finished rfl included

theorem gives_readFiles_openedWith (read : files.read path = .ok bytes)
    (parsed : Markup.ofBytes o.readOptions bytes = .ok m)
    (expands : Expands files o.readOptions (some (FilePath.directory path)) n m.nodes whole) :
    (readFiles o files n path .recursive).Gives fun d =>
      ∃ d', d = some d' ∧ OpenedWith o files n path bytes m whole d' := by
  rw [readFiles]
  refine .bind (gives_readFile_eq read parsed) ?_
  rintro d rfl
  have run : Tracked.Ensures (Shows (ofFile o path m) m.nodes) (includeAll files n)
      (fun count d => count.isSome = true ∧ Shows (ofFile o path m) whole d) fun _ => False :=
    Expands.ensures expands
  refine .bind (.runOn (run.imp (fun _ e => e ▸ shows_ofFile) fun _ _ h => h)) ?_
  rintro ⟨count, d⟩ ⟨finished, shows_whole⟩
  obtain ⟨k, rfl⟩ := Option.isSome_iff_exists.mp finished
  exact .pure ⟨_, rfl, openedWith_of_shows read parsed expands shows_whole (0 < k)⟩

/-- What opens a file depends on the text of this by what was parsed only. -/
theorem readFiles_eq (read : files.read path = .ok bytes) (parsed : Markup.ofBytes o.readOptions bytes = .ok m) :
    readFiles o files n path .recursive = (do
      m.warnings.forM fun warning => Reported.warn warning.text
      let (count, d) ← Tracked.runOn (ofFile o path m) (includeAll files n)
      return count.map fun count => { d with hasIncluded := 0 < count }) := by
  rw [readFiles, readFile, read]
  dsimp only
  rw [parsed]
  dsimp only
  rw [bind_assoc]
  simp only [pure_bind]
  rfl

/-- When the main file and the files that it leads to are orderly, a document that is opened can be saved, and when
it is opened again the same comes of its files. -/
theorem OpenedWith.reopened (h : OpenedWith o files n path bytes m whole d)
    (content : d.document.content Document.root = .document) (grounded : files.Grounded) (sieves : o.keepBlanks = false)
    (unit : ∀ ch ∈ o.indentUnit.toList, ch = ' ' ∨ ch = '\t')
    (orderly : External.Orderly files o.readOptions (some (FilePath.directory path)) path)
    (version : m.declaration.version.getD "1.0" = "1.0")
    (untyped : ∀ name systemId publicId, Content.doctype name systemId publicId ∉ m.nodes.roots) :
    ∃ files' d' messages, (External.save d path .split).run.run files = (.ok (), files') ∧
      (readFiles o files' n path .recursive).finish = (.ok (some d'), messages) ∧
      d'.document.contents Document.root = d.document.contents Document.root := by
  have noBlanks : o.readOptions.noBlanks = true := by rw [StoreOptions.readOptions, sieves]; rfl
  obtain ⟨top, below, file, restorable⟩ := orderly path .refl
  rw [External.fileRoot?, h.read] at file
  have root : m.root? = some (top, below) := by
    dsimp only at file
    rwa [External.contentRoot?, h.parsed] at file
  obtain ⟨before, after, main⟩ := External.rewritable_of_ofBytes noBlanks h.parsed root restorable version untyped
  have parting : External.Parting files o.readOptions (FilePath.directory path) (External.normal m.nodes)
      d.document.declaration d.document files :=
    ⟨h.rooted, content, rfl, h.contents ▸ h.expands.returnable orderly h.read h.parsed main.tidy, grounded, .refl⟩
  obtain ⟨files', bytes', m', saved, alike, read', parsed', nodes⟩ :=
    main.save noBlanks (h.indentUnit ▸ unit) h.read h.parsed root h.version parting
  have expands : Expands files' o.readOptions (some (FilePath.directory path)) n m'.nodes whole :=
    h.expands.alike alike (nodes ▸ External.normal_normal m.nodes)
  obtain ⟨_, messages, finished, d', rfl, again⟩ := (gives_readFiles_openedWith read' parsed' expands).finish
  exact ⟨files', d', messages, saved, finished, again.contents.trans h.contents.symm⟩

end OpenDocument

namespace Store

variable {s : Store} {files : Files} {patience : Nat} {path : String} {mode : OpenMode} {d : OpenDocument}

theorem openFile_of_finish {messages : List Message}
    (finished : (OpenDocument.readFiles s.options files patience path mode).finish = (.ok (some d), messages)) :
    (s.openFile files patience path mode).1.outcome = .answered (.integer s.nextHandle) ∧
      (s.openFile files patience path mode).2 = s.insert d := by
  rw [openFile, finished]
  exact ⟨rfl, rfl⟩

theorem finish_of_openFile {a : Answer} (opened : (s.openFile files patience path mode).1.outcome = .answered a) :
    ∃ d messages, (OpenDocument.readFiles s.options files patience path mode).finish = (.ok (some d), messages) ∧
      a = .integer s.nextHandle := by
  rw [openFile] at opened
  split at opened
  · rename_i d messages finished
    exact ⟨d, messages, finished, (Outcome.answered.inj opened).symm⟩
  · cases opened
  · cases opened

theorem save_of_run {files' : Files} {handle : Handle} {mode : SaveMode} (found : s.document? handle = some d)
    (saved : (External.save d path mode).run.run files = (.ok (), files')) :
    (s.save files handle path mode).1.outcome = .answered .done ∧
      (s.save files handle path mode).2 = (s.update handle { d with path := some path, status := .saved }, files') := by
  rw [save, found]
  dsimp only
  rw [saved]
  exact ⟨rfl, rfl⟩

end Store

namespace Session

open External (Orderly)

variable {s : Session} {patience : Nat} {path : String} {handle : Handle} {bytes : Bytes} {m : Markup}

theorem openFile_of_finish {d : OpenDocument} {messages : List Message} (reachable : s.Reachable)
    (finished : (OpenDocument.readFiles s.store.options s.files patience path .recursive).finish =
      (.ok (some d), messages)) :
    (s.call patience (.openFile path .recursive)).1.outcome = .answered (.integer s.store.nextHandle) ∧
      (s.call patience (.openFile path .recursive)).2 = ⟨s.store.insert d, s.files⟩ ∧
      (s.call patience (.openFile path .recursive)).2.store.document? s.store.nextHandle = some d := by
  obtain ⟨given, inserted⟩ := Store.openFile_of_finish finished
  have left : (s.call patience (.openFile path .recursive)).2 = ⟨s.store.insert d, s.files⟩ :=
    congrArg (Session.mk · s.files) inserted
  refine ⟨given, left, ?_⟩
  rw [left]
  exact reachable.sound.numbered.document?_insert d

/-- A document that is opened, saved and opened again is in the store twice: as it came of the files at first, and as
it comes of what is written to them. -/
theorem documents_reopened {files' : Files} {d d' : OpenDocument} {messages messages' : List Message}
    (reachable : s.Reachable)
    (finished : (OpenDocument.readFiles s.store.options s.files patience path .recursive).finish =
      (.ok (some d), messages))
    (written : (External.save d path .split).run.run s.files = (.ok (), files'))
    (again : (OpenDocument.readFiles s.store.options files' patience path .recursive).finish =
      (.ok (some d'), messages')) :
    let first := (s.call patience (.openFile path .recursive)).2
    let saved := first.call patience (.save s.store.nextHandle path .split)
    let second := saved.2.call patience (.openFile path .recursive)
    saved.1.outcome = .answered .done ∧ second.1.outcome = .answered (.integer (s.store.nextHandle + 1)) ∧
      first.store.document? s.store.nextHandle = some d ∧
      second.2.store.document? (s.store.nextHandle + 1) = some d' := by
  intro first saved second
  obtain ⟨-, shape, found⟩ := openFile_of_finish reachable finished
  obtain ⟨answered, kept⟩ := Store.save_of_run (s := first.store) found written
  have left : saved.2 =
      ⟨first.store.update s.store.nextHandle { d with path := some path, status := .saved }, files'⟩ :=
    congrArg (fun result => Session.mk result.1 result.2) kept
  have opens : (OpenDocument.readFiles saved.2.store.options saved.2.files patience path .recursive).finish =
      (.ok (some d'), messages') := by
    rw [left, Store.update, show first = _ from shape]
    exact again
  have next : saved.2.store.nextHandle = s.store.nextHandle + 1 := by
    rw [left, Store.update, show first = _ from shape]
    rfl
  have reached : saved.2.Reachable := (reachable.call patience _).call patience _
  obtain ⟨given, -, found'⟩ := openFile_of_finish reached opens
  exact ⟨answered, next ▸ given, found, next ▸ found'⟩

/-- A document with its external data that is saved and opened again has the nodes that it had, in the same order,
if each reference names one file and comes last in its element, and nothing else that is in the files gets lost. -/
theorem reopened_of_saved (reachable : s.Reachable) (grounded : s.files.Grounded)
    (sieves : s.store.options.keepBlanks = false)
    (unit : ∀ ch ∈ s.store.options.indentUnit.toList, ch = ' ' ∨ ch = '\t')
    (orderly : Orderly s.files s.store.options.readOptions (some (FilePath.directory path)) path)
    (read : s.files.read path = .ok bytes) (parsed : Markup.ofBytes s.store.options.readOptions bytes = .ok m)
    (version : m.declaration.version.getD "1.0" = "1.0")
    (untyped : ∀ name systemId publicId, Content.doctype name systemId publicId ∉ m.nodes.roots)
    (opened : (s.call patience (.openFile path .recursive)).1.outcome = .answered (.integer handle)) :
    let first := (s.call patience (.openFile path .recursive)).2
    let saved := first.call patience (.save handle path .split)
    let second := saved.2.call patience (.openFile path .recursive)
    saved.1.outcome = .answered .done ∧ ∃ handle' d d', second.1.outcome = .answered (.integer handle') ∧
      first.store.document? handle = some d ∧ second.2.store.document? handle' = some d' ∧
      d'.document.contents Document.root = d.document.contents Document.root := by
  intro first saved second
  obtain ⟨d, messages, finished, e⟩ :=
    Store.finish_of_openFile (show (s.store.openFile ..).1.outcome = _ from opened)
  obtain rfl := Answer.integer.inj e
  obtain ⟨bytes', m', whole, held⟩ := OpenDocument.returns_readFiles_openedWith.of_finish finished d rfl
  obtain rfl : bytes' = bytes := Except.ok.inj (held.read.symm.trans read)
  obtain rfl : m' = m := Except.ok.inj (held.parsed.symm.trans parsed)
  obtain ⟨-, -, found⟩ := openFile_of_finish reachable finished
  have made := (reachable.call patience (.openFile path .recursive)).allMade.of_document? found
  obtain ⟨files', d', messages', written, again, same⟩ :=
    held.reopened made.content_root grounded sieves unit orderly version untyped
  obtain ⟨answered, given, -, found'⟩ := documents_reopened reachable finished written again
  exact ⟨answered, _, d, d', given, found, found', same⟩

end Session

/-! ## A file in another's place -/

/-- A result of which something holds is one that was reached. -/
theorem exists_ok_of_any {ε α σ : Type} {r : Except ε α × σ} {p : α → Bool} (checked : r.1.toOption.any p = true) :
    ∃ a, r = (.ok a, r.2) ∧ p a = true := by
  match r, checked with
  | (.ok a, _), checked => exact ⟨a, rfl, checked⟩

namespace External

/-- A main file, and a file that it may refer to. -/
def annexed (main : String) : Files :=
  ⟨[], [(["main.xml"], .file (utf8Bytes main)), (["d", "w.xml"], .file (utf8Bytes "<w/>"))]⟩

/-- A reference that comes last in its element. -/
def behindText : String := "<a><b/><externaldata><path>d</path><filename>w.xml</filename></externaldata></a>"

/-- What the reference holds. -/
def annexItem : Forest Content :=
  .cons (.element (.named ⟨none, "path"⟩)) (leaves [.text "d"])
    (.cons (.element (.named ⟨none, "filename"⟩)) (leaves [.text "w.xml"]) .nil)

def behindMarkup : Markup :=
  ⟨.absent, .tree (.element (.named ⟨none, "a"⟩)) (.cons (.element (.named ⟨none, "b"⟩)) .nil
    (.tree (.element (.named ⟨none, "externaldata"⟩)) annexItem)), []⟩

theorem grounded_annexed (main : String) : (annexed main).Grounded := by
  intro place bytes found name
  have listed : place = ["main.xml"] ∨ place = ["d", "w.xml"] := by
    rw [Files.find?] at found
    split at found
    · rename_i entry known
      obtain ⟨before, after, split, -⟩ := List.lookup_eq_some_iff.mp known
      have mem : (place, entry) ∈ (annexed main).entries := by simp [split]
      simp only [annexed, List.mem_cons, List.not_mem_nil, Prod.mk.injEq, or_false] at mem
      exact mem.imp And.left And.left
    · split at found <;> cases found
  rcases listed with rfl | rfl <;> rfl

theorem ofBytes_behind : Markup.ofBytes ⟨true, 256⟩ (utf8Bytes behindText) = .ok behindMarkup := by
  rw [Markup.ofBytes_utf8Bytes (by decide +kernel) (by decide +kernel)]
  decide +kernel

theorem read_annexed (main : String) : (annexed main).read "main.xml" = .ok (utf8Bytes main) := rfl

theorem fileRoot?_behind : fileRoot? (annexed behindText) ⟨true, 256⟩ "main.xml" = behindMarkup.root? := by
  rw [fileRoot?, read_annexed]
  dsimp only
  rw [contentRoot?, ofBytes_behind]

theorem fileRoot?_annex : fileRoot? (annexed behindText) ⟨true, 256⟩ "d/w.xml" =
    some (.element (.named ⟨none, "w"⟩), .nil) := by
  decide +kernel

theorem targets_annex : targets (some "") annexItem = ["d/w.xml"] := rfl

theorem orderly_behind : Orderly (annexed behindText) ⟨true, 256⟩ (some "") "main.xml" := by
  intro other reached
  have listed : other = "main.xml" ∨ other = "d/w.xml" := by
    induction reached with
    | refl => exact .inl rfl
    | tail _ next ih =>
      obtain ⟨item, mem, target⟩ := next
      rcases ih with rfl | rfl
      · rw [fileReferences, fileRoot?_behind] at mem
        obtain rfl : item = annexItem := List.mem_singleton.mp mem
        rw [targets_annex] at target
        exact .inr (List.mem_singleton.mp target)
      · rw [fileReferences, fileRoot?_annex] at mem
        cases mem
  rcases listed with rfl | rfl
  · refine ⟨_, _, fileRoot?_behind, rfl, List.forall_mem_nil _, ?_, rfl⟩
    exact ⟨⟨rfl, fun _ => rfl, ⟨rfl, fun _ => rfl, trivial⟩, ⟨rfl, "d", "w.xml", rfl⟩, trivial⟩, trivial⟩
  · exact ⟨_, _, fileRoot?_annex, rfl, List.forall_mem_nil _, ⟨⟨rfl, fun _ => rfl, trivial⟩, trivial⟩, rfl⟩

theorem untyped_behind (name : String) (systemId publicId : Option String) :
    Content.doctype name systemId publicId ∉ behindMarkup.nodes.roots := by
  intro mem
  cases List.mem_singleton.mp mem

/-- What comes of the main file when the other one holds an empty element. -/
def behindWhole : Forest Content :=
  .tree (.element (.named ⟨none, "a"⟩)) (.cons (.element (.named ⟨none, "b"⟩)) .nil
    (.tree (marked "w.xml" "file://d" "/a" (.element (.named ⟨none, "w"⟩))) .nil))

theorem expands_behind {f : Forest Content}
    (annex : fileRoot? files ⟨true, 256⟩ "d/w.xml" = some (.element (.named ⟨none, "w"⟩), .nil))
    (readable : files.read "d/w.xml" = .ok bytes) (same : normal f = normal behindMarkup.nodes) :
    Expands files ⟨true, 256⟩ (some "") 1 f behindWhole := by
  have next : references (normal behindMarkup.nodes) = [canonical annexItem] := rfl
  have spliced_eq : spliced files ⟨true, 256⟩ (some "") (normal behindMarkup.nodes) = behindWhole := by
    have found : broughtBy files ⟨true, 256⟩ "d" "file://d" "/a" "w.xml" =
        .tree (marked "w.xml" "file://d" "/a" (.element (.named ⟨none, "w"⟩))) .nil := by
      rw [broughtBy, show FilePath.join "d" "w.xml" = "d/w.xml" from rfl, annex]
    rw [spliced_of_references next]
    exact congrArg (fun item => (normal behindMarkup.nodes).replaceFirst isReference (item ++ .nil)) found
  have usable : Usable files (some "") (canonical annexItem) :=
    ⟨"file://d", ["w.xml"], "d", rfl, rfl, List.forall_mem_singleton.mpr ⟨bytes, readable⟩⟩
  have expands : Expands files ⟨true, 256⟩ (some "") 1 (normal behindMarkup.nodes) behindWhole :=
    .next next usable (by rw [spliced_eq]; exact .done rfl)
  exact expands.alike .refl (same.trans (normal_normal _).symm)

end External

namespace Session

open External (annexed behindText)

theorem openFile_behind :
    (call 1 ⟨.ofOptions .default, annexed behindText⟩ (.openFile "main.xml" .recursive)).1.outcome =
      .answered (.integer 1) := by
  have expands := External.expands_behind External.fileRoot?_annex rfl rfl
  obtain ⟨_, messages, finished, d, rfl, -⟩ := (OpenDocument.gives_readFiles_openedWith (o := .default)
    (External.read_annexed behindText) External.ofBytes_behind expands).finish
  exact (openFile_of_finish (.start .default _) finished).1

/-- The element of the other file comes after the element beside it, as it did. -/
theorem reopened_of_saved_behind :
    let first := (call 1 ⟨.ofOptions .default, annexed behindText⟩ (.openFile "main.xml" .recursive)).2
    let saved := first.call 1 (.save 1 "main.xml" .split)
    let second := saved.2.call 1 (.openFile "main.xml" .recursive)
    saved.1.outcome = .answered .done ∧ ∃ handle d d', second.1.outcome = .answered (.integer handle) ∧
      first.store.document? 1 = some d ∧ second.2.store.document? handle = some d' ∧
      d'.document.contents Document.root = d.document.contents Document.root := by
  have base : FilePath.directory "main.xml" = "" := rfl
  refine reopened_of_saved (.start .default (annexed behindText)) (External.grounded_annexed _) rfl ?_ ?_
    (External.read_annexed _) External.ofBytes_behind rfl ?_ openFile_behind
  · simp [Store.ofOptions, StoreOptions.default]
  · rw [base]
    exact External.orderly_behind
  · exact External.untyped_behind

end Session

namespace External

open OpenDocument (readFiles readFiles_eq gives_readFiles_openedWith)

/-- A reference that comes first. -/
def aheadText : String := "<a><externaldata><path>d</path><filename>w.xml</filename></externaldata><b/></a>"

def aheadMarkup : Markup :=
  ⟨.absent, .tree (.element (.named ⟨none, "a"⟩)) (.tree (.element (.named ⟨none, "externaldata"⟩)) annexItem ++
    leaves [.element (.named ⟨none, "b"⟩)]), []⟩

/-- The files when the other one has been written. -/
def restored (main : String) : Files :=
  ⟨[], [(["main.xml"], .file (utf8Bytes main)),
    (["d", "w.xml"], .file (utf8Bytes "<?xml version=\"1.0\" encoding=\"utf-8\"?>\n<w/>\n"))]⟩

theorem read_restored (main : String) : (restored main).read "main.xml" = .ok (utf8Bytes main) := rfl

theorem fileRoot?_restored (main : String) : fileRoot? (restored main) ⟨true, 256⟩ "d/w.xml" =
    some (.element (.named ⟨none, "w"⟩), .nil) := by
  rw [fileRoot?, show (restored main).read "d/w.xml" = .ok _ from rfl]
  decide +kernel

/-- When the reference that came first is put back, it is last. -/
theorem finish_ahead : ∃ d messages split,
    (readFiles .default (annexed aheadText) 1 "main.xml" .recursive).finish = (.ok (some d), messages) ∧
      (d.document.contents Document.root).preorder.filterMap Content.qualifiedName? = ["a", "w", "b"] ∧
      d.indentUnit = "  " ∧
      (prepare d "main.xml" .split).run.run (annexed aheadText) = (.ok split, restored aheadText) ∧
      split.declaration = .absent ∧ split.contents Document.root = normal behindMarkup.nodes := by
  have parsed : Markup.ofBytes ⟨true, 256⟩ (utf8Bytes aheadText) = .ok aheadMarkup := by
    rw [Markup.ofBytes_utf8Bytes (by decide +kernel) (by decide +kernel)]
    decide +kernel
  have opened : (readFiles .default (annexed aheadText) 1 "main.xml" .recursive).finish.1.toOption.any (fun d =>
      d.any fun d =>
        (d.document.contents Document.root).preorder.filterMap Content.qualifiedName? = ["a", "w", "b"] ∧
          d.indentUnit = "  " ∧
          ((prepare d "main.xml" .split).run.run (annexed aheadText)).1.toOption.any (fun split =>
            split.declaration = .absent ∧ split.contents Document.root = normal behindMarkup.nodes) ∧
          ((prepare d "main.xml" .split).run.run (annexed aheadText)).2 = restored aheadText) = true := by
    rw [readFiles_eq (o := .default) (read_annexed _) parsed]
    decide +kernel
  obtain ⟨_, finished, held⟩ := exists_ok_of_any opened
  obtain ⟨d, rfl, held⟩ := (Option.any_eq_true ..).mp held
  obtain ⟨names, unit, prepared, left⟩ := of_decide_eq_true held
  obtain ⟨split, parted, held⟩ := exists_ok_of_any prepared
  obtain ⟨declared, contents⟩ := of_decide_eq_true held
  exact ⟨d, _, split, finished, names, unit, left ▸ parted, declared, contents⟩

/-- What is read then is what a reference that came last comes to. -/
theorem finish_restored {o : WriteOptions} (unit : o.indentUnit = "  ") (encoded : o.encoding = some "utf-8") :
    ∃ d messages, (readFiles .default (restored (o.writeDocument .absent (normal behindMarkup.nodes))) 1 "main.xml"
      .recursive).finish = (.ok (some d), messages) ∧ d.document.contents Document.root = behindWhole := by
  obtain ⟨top, below, file, restorable⟩ := orderly_behind "main.xml" .refl
  rw [fileRoot?_behind] at file
  obtain ⟨before, after, main⟩ := rewritable_of_ofBytes rfl ofBytes_behind file restorable rfl untyped_behind
  obtain ⟨m, parsed, nodes, -⟩ := main.ofBytes_rewritten (o := o) rfl (by simp [unit]) encoded
    (show Declaration.absent.version = _ from rfl)
  have expands := expands_behind (fileRoot?_restored (o.writeDocument .absent (normal behindMarkup.nodes))) rfl
    (show normal m.nodes = _ from nodes ▸ normal_normal _)
  obtain ⟨_, messages, finished, d, rfl, held⟩ :=
    (gives_readFiles_openedWith (o := .default) (read_restored _) parsed expands).finish
  exact ⟨d, messages, finished, held.contents⟩

end External

namespace Session

open External (annexed aheadText)

/-- The names of the elements of a document. -/
def elementNames (s : Session) (handle : Handle) : Option (List String) :=
  (s.store.document? handle).map fun d =>
    (d.document.contents Document.root).preorder.filterMap Content.qualifiedName?

/-- A reference that came first in its element comes last when it is put back, and so does the element of its file
when the document is opened again. -/
theorem elementNames_reopened_ahead :
    let first := (call 1 ⟨.ofOptions .default, annexed aheadText⟩ (.openFile "main.xml" .recursive)).2
    let second := ((first.call 1 (.save 1 "main.xml" .split)).2.call 1 (.openFile "main.xml" .recursive)).2
    first.elementNames 1 = some ["a", "w", "b"] ∧ second.elementNames 2 = some ["a", "b", "w"] := by
  obtain ⟨d, messages, split, finished, names, unit, parted, declared, contents⟩ := External.finish_ahead
  have text : split.write d.fileOptions =
      d.fileOptions.writeDocument .absent (External.normal External.behindMarkup.nodes) := by
    rw [Document.write, declared, contents]
  have written := External.run_save (d := d) parted rfl
  rw [text] at written
  obtain ⟨d', messages', again, whole⟩ := External.finish_restored (o := d.fileOptions) unit rfl
  obtain ⟨-, -, found, found'⟩ := documents_reopened (.start .default (annexed aheadText)) finished written again
  refine ⟨(congrArg (Option.map _) found).trans (congrArg some names), (congrArg (Option.map _) found').trans ?_⟩
  rw [Option.map_some, whole]
  rfl

end Session

end XmlStore
