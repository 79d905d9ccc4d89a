/-
Including external data, as a change of forests. What takes the place of a
reference depends on the texts in it, on the files it names and on where it
stands; the rest of the document stays as it is.
-/
import XmlStore.Proofs.Regrafts
import XmlStore.Proofs.Sessions

namespace XmlStore

open Tracked (Ensures)

namespace Tracked.Ensures

variable {σ α β : Type} {P : σ → Prop} {Q : α → σ → Prop} {R : σ → Prop}

/-- A refusal tells what it comes from. -/
theorem lift_eq {c : Except Error α} (h : ∀ e s, P s → c = .error e → R s)
    (h' : ∀ a s, P s → c = .ok a → Q a s) : Ensures P (liftM c : Tracked σ α) Q R := by
  intro s messages hs
  cases c with
  | ok a => exact h' a s hs rfl
  | error e => exact h e s hs rfl

/-- Warnings are never refused. -/
theorem warn {text : String} : Ensures P (liftM (Reported.warn text) : Tracked σ Unit) (fun _ => P) R :=
  fun _ _ hs => hs

/-- A loop over a list, where each round goes on from what the rounds before it have led to. -/
theorem mapM_upTo {l : List α} {f : α → Tracked σ β} {I : List α → σ → Prop}
    (h : ∀ before a after, l = before ++ a :: after → Ensures (I before) (f a) (fun _ => I (before ++ [a])) R) :
    Ensures (I []) (l.mapM f) (fun _ => I l) R := by
  have rounds : ∀ after before, l = before ++ after → Ensures (I before) (after.mapM f) (fun _ => I l) R := by
    intro after
    induction after with
    | nil =>
      intro before e
      rw [List.mapM_nil]
      exact pure fun _ hs => by rwa [e, List.append_nil]
    | cons a after ih =>
      intro before e
      rw [List.mapM_cons]
      refine bind (h before a after e) fun _ => ?_
      exact bind (ih (before ++ [a]) (by rw [e, List.append_assoc]; rfl)) fun _ => pure fun _ hs => hs
  exact rounds l [] rfl

end Tracked.Ensures

namespace External

open Document (Preceded Replaced)

variable {files : Files} {options : ReadOptions} {base : Option String} {d : Document} {id reference : NodeId}
variable {start : OpenDocument}
variable {children f g : Forest Content} {path name directory resolved location : String} {names : List String}

/-! ## What a reference says -/

def isReference (content : Content) : Bool := content.isNamed referenceName

/-- The texts of the trees that have a certain name. -/
def namedTexts (name : String) : Forest Content → List String
  | .nil => []
  | .cons content children later =>
    if content.isNamed name then Content.joinCharacters children.roots :: namedTexts name later
    else namedTexts name later

theorem roots_forest (d : Document) (ids : List NodeId) : (d.forest ids).roots = ids.map d.content := by
  induction ids with
  | nil => rfl
  | cons a ids ih => exact congrArg (d.content a :: ·) ih

theorem childTexts_eq (h : d.WellLinked) (hid : d.Has id) (name : String) :
    childTexts d id name = namedTexts name (d.contents id) := by
  rw [childTexts, Document.childrenNamed, h.contents_eq hid]
  have inside : ∀ c ∈ d.children id, d.Has c := fun c hc => h.lists.has_child hc
  generalize d.children id = ids at inside
  induction ids with
  | nil => rfl
  | cons c ids ih =>
    rw [List.forall_mem_cons] at inside
    have text : d.directText c = Content.joinCharacters (d.contents c).roots := by
      rw [Document.directText, h.contents_eq inside.1, roots_forest]
    have others := ih inside.2
    rw [List.filter_cons, Document.forest, List.foldr_cons, namedTexts]
    split
    · rw [List.map_cons, text, others]
      rfl
    · exact others

/-- The directory and the files that a reference with these children names. -/
def target? (children : Forest Content) : Option (String × List String) :=
  match (namedTexts pathName children).head?, namedTexts fileNameName children with
  | some directory, name :: names => some (directory, name :: names)
  | _, _ => none

theorem target_eq_ok (h : d.WellLinked) (hid : d.Has id) {t : String × List String} :
    target d id = .ok t ↔ target? (d.contents id) = some t := by
  rw [target, target?, childTexts_eq h hid, childTexts_eq h hid]
  cases (namedTexts pathName (d.contents id)).head? <;> cases namedTexts fileNameName (d.contents id) <;> simp

/-- Whether everything that a reference needs is there. -/
def Usable (files : Files) (base : Option String) (children : Forest Content) : Prop :=
  ∃ directory names resolved, target? children = some (directory, names) ∧
    localDirectory? base directory = some resolved ∧
    ∀ name ∈ names, ∃ bytes, files.read (FilePath.join resolved name) = .ok bytes

/-! ## What takes its place -/

/-- The root element of a document that bytes hold, and what is in it. -/
def contentRoot? (options : ReadOptions) (bytes : Bytes) : Option (Content × Forest Content) :=
  match Markup.ofBytes options bytes with
  | .ok m => m.root?
  | .error _ => none

/-- The root element of a file and what is in it, if the file holds a document. -/
def fileRoot? (files : Files) (options : ReadOptions) (path : String) : Option (Content × Forest Content) :=
  match files.read path with
  | .ok bytes => contentRoot? options bytes
  | .error _ => none

/-- The content of an included element, marked with its file, the directory of this and a location. -/
def marked (name directory location : String) (top : Content) : Content :=
  top.mapElement fun tag =>
    ((tag.setAttribute fileMark name none).setAttribute directoryMark (directoryUri directory) none).setAttribute
      locationMark location none

/-- What a file brings in. -/
def broughtBy (files : Files) (options : ReadOptions) (resolved directory location name : String) :
    Forest Content :=
  match fileRoot? files options (FilePath.join resolved name) with
  | some (top, below) => .tree (marked name directory location top) below
  | none => .nil

/-- What files bring in, one after the other. -/
def broughtByAll (files : Files) (options : ReadOptions) (resolved directory location : String) :
    List String → Forest Content
  | [] => .nil
  | name :: names =>
    broughtBy files options resolved directory location name ++
      broughtByAll files options resolved directory location names

/-- What takes the place of a reference with these children. -/
def brought (files : Files) (options : ReadOptions) (base : Option String) (location : String)
    (children : Forest Content) : Forest Content :=
  match target? children with
  | some (directory, names) =>
    match localDirectory? base directory with
    | some resolved => broughtByAll files options resolved directory location names
    | none => .nil
  | none => .nil

/-! ## Including one file -/

/-- The second open document is the first one with another document. -/
def SameBut (start o : OpenDocument) : Prop := { o with document := start.document } = start

theorem SameBut.changed {o : OpenDocument} (h : SameBut start o) (d : Document) :
    SameBut start { o with document := d } := h

theorem SameBut.readOptions_eq {o : OpenDocument} (h : SameBut start o) : o.readOptions = start.readOptions := by
  have same := congrArg OpenDocument.readOptions (show _ = start from h)
  exact same

theorem SameBut.directory_eq {o : OpenDocument} (h : SameBut start o) : o.directory = start.directory := by
  have same := congrArg OpenDocument.directory (show _ = start from h)
  exact same

theorem SameBut.trans {o o' : OpenDocument} (h : SameBut start o) (h' : SameBut o o') : SameBut start o' := by
  have same := congrArg (fun o : OpenDocument => { o with document := start.document }) (show _ = o from h')
  exact same.trans h

/-- An open document has come about by putting new nodes before a node. -/
structure Gained (start : OpenDocument) (reference : NodeId) (g : Forest Content) (o : OpenDocument) : Prop where
  preceded : Preceded start.document o.document reference g
  only : SameBut start o

theorem find?_forest (d : Document) (ids : List NodeId) : (d.forest ids).find? Content.isElement =
    (ids.find? d.isElement).map fun id => (d.content id, d.contents id) := by
  induction ids with
  | nil => rfl
  | cons a ids ih =>
    rw [Document.forest, List.foldr_cons, Forest.find?, List.find?_cons]
    cases e : (d.content a).isElement with
    | true => simp [Document.isElement, e]
    | false =>
      rw [Document.isElement, e]
      exact ih

theorem root?_eq (m : Markup) : m.root? = (Document.ofMarkup m).rootElement?.map fun id =>
    ((Document.ofMarkup m).content id, (Document.ofMarkup m).contents id) := by
  have rooted := Document.rooted_ofMarkup m
  rw [Markup.root?, ← Document.contents_ofMarkup m, rooted.wellLinked.contents_eq rooted.has_root, find?_forest]
  rfl

/-- An attribute without a qualifier is in no namespace. -/
theorem setAttribute_plain (plain : (QName.ofString name).qualifier = none) (d : Document) (id : NodeId)
    (value : String) : d.setAttribute id name value = d.modifyTag id (·.setAttribute name value none) := by
  rw [Document.setAttribute, Document.attributeNamespace, plain]
  rfl

theorem preceded_insertMarked (name directory location : String) (source : Document) (top : NodeId) (h : d.Rooted)
    (hr : d.Has reference) :
    Preceded d (insertMarked reference
      [(fileMark, name), (directoryMark, directoryUri directory), (locationMark, location)] source top d)
      reference (.tree (marked name directory location (source.content top)) (source.contents top)) := by
  have copied := Document.copied_graft h.wellLinked (source.content top) (source.contents top)
  have copy := (((copied.copy h).modifyTag (·.setAttribute fileMark name none)).modifyTag
    (·.setAttribute directoryMark (directoryUri directory) none)).modifyTag
    (·.setAttribute locationMark location none)
  rw [Document.Content.mapElement_mapElement, Document.Content.mapElement_mapElement] at copy
  simp only [insertMarked, List.foldl, setAttribute_plain (show (QName.ofString fileMark).qualifier = none by decide),
    setAttribute_plain (show (QName.ofString directoryMark).qualifier = none by decide),
    setAttribute_plain (show (QName.ofString locationMark).qualifier = none by decide)]
  exact copy.preceded h hr

theorem ensures_includeFile_gained (h : start.document.Rooted) (hr : start.document.Has reference) :
    Ensures (Gained start reference g)
      (includeFile files reference (FilePath.join resolved name)
        [(fileMark, name), (directoryMark, directoryUri directory), (locationMark, location)])
      (fun _ o =>
        Gained start reference (g ++ broughtBy files start.readOptions resolved directory location name) o ∧
          ∃ bytes, files.read (FilePath.join resolved name) = .ok bytes)
      (fun _ => ¬ ∃ bytes, files.read (FilePath.join resolved name) = .ok bytes) := by
  have unchanged {f : Forest Content} (o : OpenDocument) (ho : Gained start reference g o)
      (none : f = .nil) : Gained start reference (g ++ f) o := by
    rw [none, Forest.append_nil]
    exact ho
  rw [includeFile, broughtBy, fileRoot?]
  cases read : files.read (FilePath.join resolved name) with
  | error cause => exact .throw fun o _ => by simp
  | ok bytes =>
    refine .bind (.get (Q := fun o s => Gained start reference g s ∧ o.readOptions = start.readOptions)
      fun o ho => ⟨ho, ho.only.readOptions_eq⟩) fun o => .assume fun same => ?_
    rw [same]
    dsimp only
    rw [contentRoot?]
    cases parsed : Markup.ofBytes start.readOptions bytes with
    | error cause =>
      dsimp only
      exact .bind .warn fun _ => .pure fun o ho => ⟨unchanged o ho rfl, bytes, rfl⟩
    | ok m =>
      dsimp only
      rw [root?_eq]
      cases found : (Document.ofMarkup m).rootElement? with
      | none => exact .pure fun o ho => ⟨unchanged o ho rfl, bytes, rfl⟩
      | some top =>
        rw [Option.map_some]
        dsimp only
        refine .bind (.modify fun s hs => ?_) fun _ => .pure fun o ho => ⟨ho, bytes, rfl⟩
        have inserted := preceded_insertMarked name directory location (.ofMarkup m) top hs.preceded.rooted
          (hs.preceded.has hr)
        refine ⟨?_, hs.only.changed _⟩
        dsimp only
        exact hs.preceded.trans h hr inserted

/-! ## Including what a reference names -/

theorem broughtByAll_append (before : List String) :
    broughtByAll files options resolved directory location (before ++ [name]) =
      broughtByAll files options resolved directory location before ++
        broughtBy files options resolved directory location name := by
  induction before with
  | nil => exact Forest.append_nil _
  | cons first before ih =>
    rw [List.cons_append, broughtByAll, ih, ← Forest.append_assoc]
    rfl

theorem ensures_includeFiles (h : start.document.Rooted) (hr : start.document.Has reference) :
    Ensures (· = start)
      (names.mapM fun name => includeFile files reference (FilePath.join resolved name)
        [(fileMark, name), (directoryMark, directoryUri directory), (locationMark, location)])
      (fun _ o =>
        Gained start reference (broughtByAll files start.readOptions resolved directory location names) o ∧
          ∀ name ∈ names, ∃ bytes, files.read (FilePath.join resolved name) = .ok bytes)
      (fun _ => ¬ ∀ name ∈ names, ∃ bytes, files.read (FilePath.join resolved name) = .ok bytes) := by
  refine Ensures.imp (P := fun o => Gained start reference .nil o ∧ ∀ name ∈ ([] : List String), ∃ bytes,
      files.read (FilePath.join resolved name) = .ok bytes)
    (.mapM_upTo (I := fun before o =>
      Gained start reference (broughtByAll files start.readOptions resolved directory location before) o ∧
        ∀ name ∈ before, ∃ bytes, files.read (FilePath.join resolved name) = .ok bytes) ?_) ?_ fun _ _ ho => ho
  · intro before name after split
    rw [broughtByAll_append]
    refine .assume fun earlier => ?_
    refine ((ensures_includeFile_gained h hr).imp (fun _ ho => ho) fun _ o ho => ⟨ho.1, ?_⟩).fails
      fun _ missing all => missing (all name (by rw [split]; simp))
    rw [List.forall_mem_append, List.forall_mem_singleton]
    exact ⟨earlier, ho.2⟩
  · rintro o rfl
    exact ⟨⟨.refl h, rfl⟩, fun name mem => absurd mem List.not_mem_nil⟩

/-- An open document has come about by putting a forest in place of a node. -/
structure Advanced (start : OpenDocument) (reference : NodeId) (g : Forest Content) (o : OpenDocument) : Prop where
  replaced : Replaced start.document o.document reference g
  only : SameBut start o

/-- What a reference names takes its place, unless something that it needs is not there. -/
theorem ensures_includeReference_advanced (h : start.document.Rooted) (hr : start.document.Has reference) :
    Ensures (· = start) (includeReference files reference)
      (fun _ o =>
        Advanced start reference
          (brought files start.readOptions start.directory
            (start.document.location ((start.document.parent? reference).getD Document.root))
            (start.document.contents reference)) o ∧
          Usable files start.directory (start.document.contents reference))
      (fun _ => ¬ Usable files start.directory (start.document.contents reference)) := by
  have linked := h.wellLinked
  rw [includeReference]
  refine .bind (Edit.ensures_document.imp (fun _ ho => ho) fun _ _ ho => ⟨ho.1, ho.2.symm.trans (by rw [ho.1])⟩)
    fun d => .assume fun (same : d = start.document) => ?_
  rw [same]
  refine .bind (.lift_eq (Q := fun t o => o = start ∧ target? (start.document.contents reference) = some t)
    ?_ ?_) ?_
  · rintro cause o - failed ⟨directory, names, resolved, named, -⟩
    rw [(target_eq_ok linked hr).mpr named] at failed
    cases failed
  · exact fun t o ho found => ⟨ho, (target_eq_ok linked hr).mp found⟩
  rintro ⟨directory, names⟩
  refine .assume fun named => ?_
  refine .bind (.get (Q := fun o s => s = start ∧ o.directory = start.directory) fun o ho => ⟨ho, by rw [ho]⟩)
    fun o => .assume fun at_base => ?_
  rw [at_base, brought, named]
  dsimp only
  cases found : localDirectory? start.directory directory with
  | none =>
    refine .throw ?_
    rintro o - ⟨directory', names', resolved, named', found', -⟩
    cases named.symm.trans named'
    cases found.symm.trans found'
  | some resolved =>
    dsimp only
    refine .bind ((ensures_includeFiles h hr).fails fun o missing usable => missing ?_) fun counts =>
      .assume fun all => ?_
    · obtain ⟨directory', names', resolved', named', found', all⟩ := usable
      cases named.symm.trans named'
      cases found.symm.trans found'
      exact all
    · have usable : Usable files start.directory (start.document.contents reference) :=
        ⟨directory, names, resolved, named, found, all⟩
      refine .bind (.modify fun o ho => ?_) fun _ => .pure fun o ho => ⟨ho, usable⟩
      exact ⟨ho.preceded.replaced h hr, ho.only.changed _⟩

end External

end XmlStore
