/-
What including a reference does, in full. Where every file that a reference
names can be read, it succeeds: the root elements of those files that hold
documents take the place of the reference, in the order in which it names them
and marked with where they came from, and of every other file there is a
warning. The other nodes, and their lists of children, stay as they are.
-/
import XmlStore.Proofs.Openings
import XmlStore.Proofs.Preorder

namespace XmlStore

/-! ## Computations whose messages are known -/

namespace Tracked

variable {σ α β : Type} {P Q T : σ → Prop} {news later : List Message}

/-- From a state with `P`, the computation returns this value and gives off these messages, and leads
to a state with `Q`. -/
def Tells (P : σ → Prop) (computation : Tracked σ α) (a : α) (news : List Message) (Q : σ → Prop) : Prop :=
  ∀ s messages, P s →
    ∃ s', (computation.run.run s).run messages = ((.ok a, s'), messages ++ news) ∧ Q s'

namespace Tells

variable {x : Tracked σ α} {a : α} {b : β}

theorem silent (runs : ∀ s messages, P s → ∃ s', (x.run.run s).run messages = ((.ok a, s'), messages) ∧ Q s') :
    Tells P x a [] Q := by
  intro s messages hs
  rw [List.append_nil]
  exact runs s messages hs

theorem pure : Tells P (Pure.pure a : Tracked σ α) a [] P := silent fun s _ hs => ⟨s, rfl, hs⟩

theorem bind {f : α → Tracked σ β} (first : Tells P x a news Q) (second : Tells Q (f a) b later T) :
    Tells P (x >>= f) b (news ++ later) T := by
  intro s messages hs
  obtain ⟨s', run, hs'⟩ := first s messages hs
  obtain ⟨s'', run', hs''⟩ := second s' (messages ++ news) hs'
  refine ⟨s'', ?_, hs''⟩
  rw [ExceptT.run_bind, StateT.run_bind, StateT.run_bind, run, ← List.append_assoc]
  exact run'

/-- A first step that gives off nothing. -/
theorem after {f : α → Tracked σ β} (first : Tells P x a [] Q) (second : Tells Q (f a) b news T) :
    Tells P (x >>= f) b news T := first.bind second

/-- A step that looks at the state. -/
theorem look {f : σ → Tracked σ β} (onwards : ∀ s, P s → Tells P (f s) b news T) :
    Tells P (MonadState.get >>= f) b news T := fun s messages hs => onwards s hs s messages hs

theorem modify {f : σ → σ} (changed : ∀ s, P s → Q (f s)) :
    Tells P (modify f : Tracked σ PUnit) ⟨⟩ [] Q :=
  silent fun s _ hs => ⟨f s, rfl, changed s hs⟩

theorem lift : Tells P (liftM (Except.ok a : Except Error α) : Tracked σ α) a [] P :=
  silent fun s _ hs => ⟨s, rfl, hs⟩

theorem warn {text : String} :
    Tells P (liftM (Reported.warn text) : Tracked σ Unit) ⟨⟩ [⟨.warning, text⟩] P :=
  fun s _ hs => ⟨s, rfl, hs⟩

theorem mapM {l : List α} {f : α → Tracked σ β} {value : α → β} {told : α → List Message}
    (rounds : ∀ a ∈ l, Tells P (f a) (value a) (told a) P) :
    Tells P (l.mapM f) (l.map value) (l.flatMap told) P := by
  induction l with
  | nil => exact pure
  | cons a l ih =>
    rw [List.forall_mem_cons] at rounds
    rw [List.mapM_cons, List.flatMap_cons]
    have rest : Tells P (l.mapM f >>= fun values => Pure.pure (value a :: values))
        (value a :: l.map value) (l.flatMap told ++ []) P := (ih rounds.2).bind pure
    rw [List.append_nil] at rest
    exact rounds.1.bind rest

theorem imp {P' Q' : σ → Prop} (tells : Tells P x a news Q) (before : ∀ s, P' s → P s) (after : ∀ s, Q s → Q' s) :
    Tells P' x a news Q' := by
  intro s messages hs
  obtain ⟨s', run, hs'⟩ := tells s messages (before s hs)
  exact ⟨s', run, after s' hs'⟩

/-- What is known otherwise of the state that the computation leads to. -/
theorem ensured {R : σ → Prop} (tells : Tells P x a news Q) (ensures : Ensures P x (fun _ => T) R) :
    Tells P x a news T := by
  intro s messages hs
  obtain ⟨s', run, -⟩ := tells s messages hs
  have leads := ensures s messages hs
  rw [run] at leads
  exact ⟨s', run, leads⟩

end Tells

end Tracked

theorem Forest.of_find?_eq_some {α : Type} {p : α → Bool} {f children : Forest α} {a : α}
    (found : f.find? p = some (a, children)) : p a = true := by
  induction f with
  | nil => cases found
  | cons b inner rest _ ih =>
    rw [find?] at found
    split at found
    · cases found
      assumption
    · exact ih found

namespace External

open Tracked (Tells)

variable {files : Files} {options : ReadOptions} {d : Document} {id reference : NodeId} {path : String}
variable {directory resolved location : String} {names : List String} {bytes : String → Bytes}

/-! ## One file -/

/-- Whether bytes hold a document. -/
def holdsDocument (options : ReadOptions) (bytes : Bytes) : Bool := (Markup.ofBytes options bytes).isOk

/-- The warning that a file is passed over, if it holds no document. -/
def skipWarning? (options : ReadOptions) (path : String) (bytes : Bytes) : Option Message :=
  match Markup.ofBytes options bytes with
  | .ok _ => none
  | .error cause =>
    let reason := s!"not a valid XML document: {cause.message}"
    some ⟨.warning, s!"document {path} will be ignored, {reason}"⟩

/-- A document has a root element. -/
theorem exists_root {bytes : Bytes} {m : Markup} (parsed : Markup.ofBytes options bytes = .ok m) :
    ∃ tag below, m.root? = some (.element tag, below) := by
  rw [Markup.ofBytes] at parsed
  split at parsed
  · obtain ⟨top, below, root, -⟩ := references_of_readDocument parsed
    have element : top.isElement = true := Forest.of_find?_eq_some root
    cases top with
    | element tag => exact ⟨tag, below, root⟩
    | _ => cases element
  · cases parsed

theorem tells_includeFile {bytes : Bytes} (read : files.read path = .ok bytes) (marks : List (String × String)) :
    Tells (fun o => o.readOptions = options) (includeFile files reference path marks)
      (if holdsDocument options bytes then 1 else 0) (skipWarning? options path bytes).toList
      (fun o => o.readOptions = options) := by
  rw [includeFile, read, holdsDocument, skipWarning?]
  refine .look fun o same => ?_
  rw [same]
  cases parsed : Markup.ofBytes options bytes with
  | error cause => exact Tells.warn.bind .pure
  | ok m =>
    dsimp only
    obtain ⟨tag, below, root⟩ := exists_root parsed
    rw [root?_eq] at root
    obtain ⟨top, found, -⟩ := Option.map_eq_some_iff.mp root
    rw [found]
    exact .after (.modify fun o same => same) .pure

/-! ## Marked copies -/

/-- A node is a copy of an element, marked with its file, the directory of this and a location. -/
structure MarkedCopy (d : Document) (id : NodeId) (tag : Element) (below : Forest Content)
    (name directory location : String) : Prop where
  content : d.content id = marked name directory location (.element tag)
  contents : d.contents id = below
  file : d.attribute? id fileMark = some name
  directory : d.attribute? id directoryMark = some (directoryUri directory)
  location : d.attribute? id locationMark = some location
  others : ∀ other ∉ marks, d.attribute? id other = tag.attribute? other

/-- Marks that were there before are replaced. -/
theorem markedCopy_of_content {tag : Element} {below : Forest Content} {name : String}
    (content : d.content id = marked name directory location (.element tag)) (contents : d.contents id = below) :
    MarkedCopy d id tag below name directory location := by
  have apart : fileMark ≠ directoryMark ∧ fileMark ≠ locationMark ∧ directoryMark ≠ locationMark := by decide
  obtain ⟨fd, fl, dl⟩ := apart
  let once := tag.setAttribute fileMark name none
  let twice := once.setAttribute directoryMark (directoryUri directory) none
  have read (other : String) :
      d.attribute? id other = (twice.setAttribute locationMark location none).attribute? other := by
    rw [Document.attribute?, content]
    rfl
  refine ⟨content, contents, ?_, ?_, ?_, fun other absent => ?_⟩
  · rw [read, Element.attribute?_setAttribute_of_ne _ fl, Element.attribute?_setAttribute_of_ne _ fd,
      Element.attribute?_setAttribute]
  · rw [read, Element.attribute?_setAttribute_of_ne _ dl, Element.attribute?_setAttribute]
  · rw [read, Element.attribute?_setAttribute]
  · obtain ⟨f, d, l⟩ : other ≠ fileMark ∧ other ≠ directoryMark ∧ other ≠ locationMark := by
      simpa [marks] using absent
    rw [read, Element.attribute?_setAttribute_of_ne _ l, Element.attribute?_setAttribute_of_ne _ d,
      Element.attribute?_setAttribute_of_ne _ f]

/-- A node has been made of the document that bytes hold: it is a marked copy of its root element. -/
def CopiedFrom (options : ReadOptions) (bytes : Bytes) (name directory location : String) (d : Document)
    (id : NodeId) : Prop :=
  ∃ m tag below, Markup.ofBytes options bytes = .ok m ∧ m.root? = some (.element tag, below) ∧
    MarkedCopy d id tag below name directory location

/-- The nodes that show what files bring in are copies from those that hold documents, in their order. -/
theorem forall₂_copiedFrom {ids : List NodeId}
    (readable : ∀ name ∈ names, files.read (FilePath.join resolved name) = .ok (bytes name))
    (shown : d.forest ids = broughtByAll files options resolved directory location names) :
    List.Forall₂ (fun id name => CopiedFrom options (bytes name) name directory location d id) ids
      (names.filter fun name => holdsDocument options (bytes name)) := by
  induction names generalizing ids with
  | nil =>
    cases ids with
    | nil => exact .nil
    | cons id ids => cases shown
  | cons name names ih =>
    rw [List.forall_mem_cons] at readable
    rw [broughtByAll, broughtBy, fileRoot?, readable.1] at shown
    dsimp only [contentRoot?] at shown
    rw [List.filter_cons, holdsDocument]
    cases parsed : Markup.ofBytes options (bytes name) with
    | error cause =>
      rw [parsed] at shown
      exact ih readable.2 shown
    | ok m =>
      obtain ⟨tag, below, root⟩ := exists_root parsed
      rw [parsed] at shown
      dsimp only at shown
      rw [root] at shown
      cases ids with
      | nil => cases shown
      | cons id ids =>
        obtain ⟨content, contents, rest⟩ := Forest.cons.inj shown
        exact .cons ⟨m, tag, below, parsed, root, markedCopy_of_content content contents⟩ (ih readable.2 rest)

/-! ## The whole reference -/

theorem foldl_counts (p : String → Bool) (names : List String) (n : Nat) :
    (names.map fun name => if p name then 1 else 0).foldl (· + ·) n = n + (names.filter p).length := by
  induction names generalizing n with
  | nil => rfl
  | cons name names ih =>
    rw [List.map_cons, List.foldl_cons, ih, List.filter_cons]
    split
    · rw [List.length_cons]
      omega
    · omega

section

variable {o : OpenDocument} (rooted : o.document.Rooted) (has : o.document.Has reference)
  (readable : ∀ name ∈ names, files.read (FilePath.join resolved name) = .ok (bytes name))
include rooted has readable

theorem tells_includeFiles (directory location : String) :
    Tells (· = o)
      (names.mapM fun name => includeFile files reference (FilePath.join resolved name)
        [(fileMark, name), (directoryMark, directoryUri directory), (locationMark, location)])
      (names.map fun name => if holdsDocument o.readOptions (bytes name) then 1 else 0)
      (names.filterMap fun name => skipWarning? o.readOptions (FilePath.join resolved name) (bytes name))
      (Gained o reference (broughtByAll files o.readOptions resolved directory location names)) := by
  rw [List.filterMap_eq_flatMap_toList]
  refine Tells.ensured (Q := fun s : OpenDocument => s.readOptions = o.readOptions) ?_
    ((ensures_includeFiles rooted has).imp (fun _ same => same) fun _ _ reached => reached.1)
  refine Tells.imp (P := fun s : OpenDocument => s.readOptions = o.readOptions) (.mapM fun name listed => ?_) ?_
    fun _ same => same
  · exact tells_includeFile (readable name listed) _
  · exact fun _ same => congrArg OpenDocument.readOptions same

theorem tells_includeReference (named : target o.document reference = .ok (directory, names))
    (found : localDirectory? o.directory directory = some resolved) :
    Tells (· = o) (includeReference files reference)
      (names.filter fun name => holdsDocument o.readOptions (bytes name)).length
      (names.filterMap fun name => skipWarning? o.readOptions (FilePath.join resolved name) (bytes name))
      fun o' => ∃ d', o' = { o with document := d'.detach reference } ∧
        o.document.Preceded d' reference
          (broughtByAll files o.readOptions resolved directory
            (o.document.location ((o.document.parent? reference).getD Document.root)) names) := by
  have opened : Tells (· = o) Edit.document o.document [] (· = o) := .look fun _ same => same ▸ .pure
  rw [includeReference]
  refine opened.after ?_
  rw [named]
  refine Tells.lift.after (.look fun start same => ?_)
  dsimp only
  rw [same, found]
  have loop := tells_includeFiles rooted has readable directory
    (o.document.location ((o.document.parent? reference).getD Document.root))
  have count := foldl_counts (fun name => holdsDocument o.readOptions (bytes name)) names 0
  rw [Nat.zero_add] at count
  rw [← count, ← List.append_nil (List.filterMap ..)]
  refine loop.bind (.after (.modify fun s gained => ?_) .pure)
  have only := congrArg (fun o => { o with document := s.document.detach reference })
    (show { s with document := o.document } = o from gained.only)
  exact ⟨s.document, only, gained.preceded⟩

end

/--
Including a reference that stands somewhere in the tree, names a local directory and names files
that can all be read. Copies of the root elements of those files that hold documents take its place
among the children of its parent, in the order of the files; they are counted, and of each of the
other files there is one warning.
-/
theorem includeReference_replaces (files : Files) {o : OpenDocument} (rooted : o.document.Rooted)
    (standing : reference ∈ o.document.descendants Document.root)
    (leads : (childTexts o.document reference pathName).head? = some directory)
    (names_listed : childTexts o.document reference fileNameName = names) (nonempty : names ≠ [])
    (found : localDirectory? o.directory directory = some resolved)
    (readable : ∀ name ∈ names, files.read (FilePath.join resolved name) = .ok (bytes name))
    (messages : List Message) :
    ∃ parent before after ids d',
      o.document.children parent = before ++ reference :: after ∧
      ((includeReference files reference).run.run o).run messages =
        ((.ok ids.length, { o with document := d' }),
          messages ++ names.filterMap fun name =>
            skipWarning? o.readOptions (FilePath.join resolved name) (bytes name)) ∧
      d'.Rooted ∧
      d'.children parent = before ++ ids ++ after ∧
      List.Forall₂
        (fun id name =>
          CopiedFrom o.readOptions (bytes name) name directory (o.document.location parent) d' id)
        ids (names.filter fun name => holdsDocument o.readOptions (bytes name)) ∧
      (∀ id ∈ ids, ¬ o.document.Has id) ∧
      (∀ a, o.document.Has a → d'.content a = o.document.content a) ∧
      ∀ q, o.document.Has q → q ≠ parent → d'.children q = o.document.children q := by
  have linked := rooted.wellLinked
  obtain ⟨parent, child⟩ : ∃ parent, reference ∈ o.document.children parent := by
    obtain ⟨parent, -, child⟩ := Relation.TransGen.tail'_iff.mp (linked.mem_descendants.mp standing)
    exact ⟨parent, child⟩
  have above := (linked.parent reference parent).mp child
  have has : o.document.Has reference := linked.lists.has_child child
  obtain ⟨before, after, place⟩ := List.append_of_mem child
  have named : target o.document reference = .ok (directory, names) := by
    obtain ⟨first, rest, rfl⟩ := List.exists_cons_of_ne_nil nonempty
    rw [target, leads, names_listed]
  obtain ⟨_, run, d', rfl, preceded⟩ := tells_includeReference rooted has readable named found o messages rfl
  rw [above, Option.getD_some] at preceded
  obtain ⟨ids, new, shown, children⟩ := preceded.detach rooted has
  have copies := forall₂_copiedFrom readable shown
  have replaced := preceded.replaced rooted has
  refine ⟨parent, before, after, ids, d'.detach reference, place, ?_, replaced.rooted, ?_, copies,
    fun id mem => (new id mem).2, replaced.content, fun q hq other => ?_⟩
  · rw [copies.length_eq]
    exact run
  · rw [children parent (linked.lists.has_parent child), place]
    exact Document.inPlace_of_nodup (place ▸ linked.nodup parent)
  · rw [children q hq]
    refine Document.inPlace_of_not_mem fun mem => other ?_
    exact linked.lists.unique_parent mem child

/-- Two documents, one of them marked before, and a file that holds none. -/
def mixedFiles : Files :=
  ⟨[], [(["a.xml"], .file (utf8Bytes "<x/>")), (["b.xml"], .file (utf8Bytes "text")),
    (["c.xml"], .file (utf8Bytes "<y externalFileName='old'/>"))]⟩

/-- A reference to them between two other elements. -/
def mixedDocument : OpenDocument :=
  let named (name : String) : Content := .element (.named ⟨none, name⟩)
  let files := ["a.xml", "b.xml", "c.xml"].foldr
    (fun name rest => .cons (named "filename") (leaves [.text name]) rest) .nil
  .ofMarkup .default ⟨.absent, .tree (named "r") (.cons (named "s") .nil
    (.cons (named "externaldata") (.cons (named "path") (leaves [.text "."]) files) (.tree (named "t") .nil))), []⟩

theorem includeReference_replaces_mixed : ∃ (parent : NodeId) (ids : List NodeId) (d' : Document),
    ((includeReference mixedFiles ⟨3⟩).run.run mixedDocument).run [] =
      ((.ok 2, { mixedDocument with document := d' }),
        [⟨.warning, "document ./b.xml will be ignored, not a valid XML document: " ++
          "parse error at 1:1: missing root element"⟩]) ∧
    (∀ id ∈ ids, id ∈ d'.children parent) ∧
    ids.map (d'.attribute? · fileMark) = [some "a.xml", some "c.xml"] := by
  let names := ["a.xml", "b.xml", "c.xml"]
  let bytes (name : String) := ((mixedFiles.read (FilePath.join "." name)).toOption).getD []
  let holds (name : String) := holdsDocument mixedDocument.readOptions (bytes name)
  have standing : ⟨3⟩ ∈ mixedDocument.document.descendants Document.root := by decide +kernel
  have leads : (childTexts mixedDocument.document ⟨3⟩ pathName).head? = some "." := by decide +kernel
  have listed : childTexts mixedDocument.document ⟨3⟩ fileNameName = names := by decide +kernel
  have found : localDirectory? mixedDocument.directory "." = some "." := by decide +kernel
  have readable : ∀ name ∈ names, mixedFiles.read (FilePath.join "." name) = .ok (bytes name) := by decide +kernel
  obtain ⟨parent, before, after, ids, d', -, run, -, placed, copies, -⟩ := includeReference_replaces mixedFiles
    (Document.rooted_ofMarkup _) standing leads listed (List.cons_ne_nil _ _) found readable []
  have good : names.filter holds = ["a.xml", "c.xml"] := by decide +kernel
  have told : (names.filterMap fun name =>
      skipWarning? mixedDocument.readOptions (FilePath.join "." name) (bytes name)) =
        [⟨.warning, "document ./b.xml will be ignored, not a valid XML document: " ++
          "parse error at 1:1: missing root element"⟩] := by
    decide +kernel
  rw [good] at copies
  rw [told, copies.length_eq] at run
  refine ⟨parent, ids, d', run, fun id mem => ?_, ?_⟩
  · rw [placed]
    exact List.mem_append_left _ (List.mem_append_right _ mem)
  · obtain _ | ⟨⟨_, _, _, _, _, first⟩, _ | ⟨⟨_, _, _, _, _, second⟩, _ | _⟩⟩ := copies
    simp [first.file, second.file]

end External

end XmlStore
