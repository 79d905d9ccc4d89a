/-
Saved documents are done. From the moment it is saved to the moment its handle
is closed a document keeps its tree, refuses every change, and is written as the
last setting for indentation says, whatever else is called.
-/
import XmlStore.Proofs.CacheRuns

namespace XmlStore

/-! ## Settings -/

/-- Whether a document is indented after a setting. -/
def Setting.indents (before : Bool) : Setting → Bool
  | prettyPrint flag => if flag = 0 then false else if flag = 1 then true else before
  | _ => before

theorem Preferences.returns_registerAll (p : Preferences) (document : Document) :
    (p.registerAll document).Returns fun p' => p'.prettyPrint = p.prettyPrint := by
  rw [registerAll]
  generalize (document.descendants Document.root).flatMap
    (fun id => (document.content id).bindings) = bindings
  induction bindings generalizing p with
  | nil => exact .pure rfl
  | cons b bindings ih =>
    rw [List.foldlM_cons]
    refine .bind (Q := fun p' => p'.prettyPrint = p.prettyPrint) ?_ fun p' same => ?_
    · obtain ⟨_ | qualifier, uri⟩ := b
      · exact .bind .any fun _ _ => .pure rfl
      · refine .pure ?_
        split
        · rfl
        · rfl
    · exact (ih p').imp fun _ kept => kept.trans same

theorem Setting.returns_apply (setting : Setting) (document : Document) (p : Preferences) :
    (setting.apply document p).Returns fun p' => p'.prettyPrint = setting.indents p.prettyPrint := by
  cases setting with
  | prettyPrint flag =>
    rw [apply, indents]
    split
    · exact .pure rfl
    · split
      · exact .pure rfl
      · exact .throw
  | caching on => exact .pure rfl
  | registerNamespace uri qualifier => exact .bind .any fun _ _ => .bind .any fun _ _ => .pure rfl
  | registerAll => exact p.returns_registerAll document

/-- A setting that is refused is none for indentation. -/
theorem Setting.indents_of_refused {setting : Setting} {document : Document} {p : Preferences} {e : Error}
    {messages : List Message} (refused : (setting.apply document p).finish = (.error e, messages))
    (before : Bool) : setting.indents before = before := by
  cases setting with
  | prettyPrint flag =>
    rw [apply] at refused
    rw [indents]
    split at refused
    · cases refused
    · rename_i on
      split at refused
      · cases refused
      · rename_i off
        rw [if_neg on, if_neg off]
  | _ => rfl

/-! ## Saved documents -/

/-- A document that has been saved, with the tree that it has and the options it is written with. -/
structure OpenDocument.Sealed (document : Document) (options : WriteOptions) (d : OpenDocument) : Prop where
  status : d.status = .saved
  document : d.document = document
  options : d.writeOptions = options

namespace Store

variable {s : Store} {handle : Handle} {d : OpenDocument} {document : Document} {options : WriteOptions}

/-- Under the handle stands a saved document. -/
def Seals (handle : Handle) (document : Document) (options : WriteOptions) (s : Store) : Prop :=
  ∃ d, s.document? handle = some d ∧ d.Sealed document options

theorem document?_insert (found : s.document? handle = some d) (new : OpenDocument) :
    (s.insert new).document? handle = some d := by
  rw [document?, insert, List.lookup_append, ← document?, found, Option.some_or]

theorem document?_erase_of_ne {other : Handle} (ne : handle ≠ other) :
    (s.erase other).document? handle = s.document? handle := by
  rw [document?, document?, erase]
  induction s.documents with
  | nil => rfl
  | cons entry entries ih =>
    obtain ⟨h, d⟩ := entry
    by_cases erased : h = other
    · have differs : (handle == h) = false := beq_eq_false_iff_ne.mpr fun same => ne (same.trans erased)
      rw [List.filter_cons_of_neg (by simpa using erased), List.lookup_cons, differs]
      exact ih
    · rw [List.filter_cons_of_pos (by simpa using erased), List.lookup_cons, List.lookup_cons, ih]

namespace Seals

theorem insert (h : s.Seals handle document options) (new : OpenDocument) :
    (s.insert new).Seals handle document options := by
  obtain ⟨d, found, isSealed⟩ := h
  exact ⟨d, document?_insert found new, isSealed⟩

/-- Another document in place of one is as good, if it is as good in place of the saved one. -/
theorem update {other : Handle} {new : OpenDocument} {options' : WriteOptions}
    (h : s.Seals handle document options) (known : s.document? other = some d)
    (here : other = handle → d.Sealed document options → new.Sealed document options')
    (elsewhere : other ≠ handle → options' = options) :
    (s.update other new).Seals handle document options' := by
  obtain ⟨old, found, isSealed⟩ := h
  rw [Seals, document?_update, found, Option.map_some]
  by_cases same : handle = other
  · subst same
    obtain rfl := Option.some.inj (known.symm.trans found)
    rw [if_pos rfl]
    exact ⟨new, rfl, here rfl isSealed⟩
  · rw [if_neg same, elsewhere (Ne.symm same)]
    exact ⟨old, rfl, isSealed⟩

theorem erase {other : Handle} (h : s.Seals handle document options) (ne : handle ≠ other) :
    (s.erase other).Seals handle document options := by
  obtain ⟨d, found, isSealed⟩ := h
  exact ⟨d, (document?_erase_of_ne ne).trans found, isSealed⟩

theorem add {new : Except Error OpenDocument} (h : s.Seals handle document options) :
    (s.add new).2.Seals handle document options := by
  cases new with
  | ok d => exact h.insert d
  | error e => exact h

theorem openFile {files : Files} {patience : Nat} {path : String} {mode : OpenMode}
    (h : s.Seals handle document options) :
    (s.openFile files patience path mode).2.Seals handle document options := by
  rw [Store.openFile]
  split
  · exact h.insert _
  · exact h
  · exact h

theorem ask {other : Handle} {q : Question} (h : s.Seals handle document options) :
    (s.ask other q).2.Seals handle document options := by
  rw [Store.ask]
  split
  · exact h
  · rename_i d known
    exact h.update known (fun _ isSealed => ⟨isSealed.status, isSealed.document, isSealed.options⟩) fun _ => rfl

/-- Only documents that have not been saved are changed. -/
theorem change {other : Handle} {c : Change} (h : s.Seals handle document options) :
    (s.change other c).2.Seals handle document options := by
  rw [Store.change]
  split
  · exact h
  · split
    · exact h
    · rename_i d known
      split
      · exact h
      · rename_i editable
        exact h.update known (fun _ isSealed => absurd isSealed.status editable) fun _ => rfl

theorem set {other : Handle} {setting : Setting} (h : s.Seals handle document options) :
    (s.set other setting).2.Seals handle document
      { options with indent := if other = handle then setting.indents options.indent else options.indent } := by
  rw [Store.set]
  cases known : s.document? other with
  | none =>
    obtain ⟨d, found, isSealed⟩ := h
    have ne : other ≠ handle := by
      rintro rfl
      rw [known] at found
      cases found
    rw [if_neg ne]
    exact ⟨d, found, isSealed⟩
  | some d =>
    dsimp only
    rcases finished : (setting.apply d.document d.preferences).finish with ⟨e | preferences, messages⟩
    · rw [setting.indents_of_refused finished, ite_self]
      exact h.update known (fun _ isSealed => ⟨isSealed.status, isSealed.document, isSealed.options⟩)
        fun _ => rfl
    · refine h.update known (fun same isSealed => ?_) fun ne => by rw [if_neg ne]
      have indents := (setting.returns_apply d.document d.preferences).of_finish finished
      rw [if_pos same, ← isSealed.options]
      exact ⟨isSealed.status, isSealed.document, congrArg (WriteOptions.mk · d.indentUnit none) indents⟩

theorem save {files : Files} {other : Handle} {path : String} {mode : SaveMode}
    (h : s.Seals handle document options) :
    (s.save files other path mode).2.1.Seals handle document options := by
  rw [Store.save]
  split
  · exact h
  · rename_i d known
    split
    · exact h
    · exact h.update known (fun _ isSealed => ⟨rfl, isSealed.document, isSealed.options⟩) fun _ => rfl

theorem close {other : Handle} (h : s.Seals handle document options) (ne : handle ≠ other) :
    (s.close other).2.Seals handle document options := by
  rw [Store.close]
  split
  · exact h
  · exact h.erase ne

/-- A saved document refuses to be changed. -/
theorem refuses (h : s.Seals handle document options) (c : Change) :
    ∃ e, (s.change handle c).1.outcome = .refused e := by
  obtain ⟨d, found, isSealed⟩ := h
  rw [Store.change]
  split
  · exact ⟨_, rfl⟩
  · rw [found]
    dsimp only
    rw [if_pos isSealed.status]
    exact ⟨_, rfl⟩

/-- As a whole it is written as the options say. -/
theorem wholeText (h : s.Seals handle document options) :
    (s.ask handle .wholeText).1.outcome = .answered (.text (document.write options)) := by
  obtain ⟨d, found, isSealed⟩ := h
  rw [Store.ask, found, ← isSealed.document, ← isSealed.options]
  rfl

end Seals

/-- What is saved is sealed. -/
theorem seals_save {files : Files} {path : String} {mode : SaveMode} {a : Answer}
    (saved : (s.save files handle path mode).1.outcome = .answered a) :
    ∃ d, s.document? handle = some d ∧
      (s.save files handle path mode).2.1.Seals handle d.document d.writeOptions := by
  rw [save] at saved ⊢
  split at saved
  · cases saved
  · rename_i d found
    refine ⟨d, found, ?_⟩
    split at saved
    · cases saved
    · refine ⟨{ d with path := some path, status := .saved }, ?_, ⟨rfl, rfl, rfl⟩⟩
      rw [document?_update, found, Option.map_some, if_pos rfl]

end Store

/-! ## Runs -/

/-- Whether a call closes the document under a handle. -/
def Call.closes (handle : Handle) : Call → Bool
  | close other => handle == other
  | closeAll => true
  | _ => false

/-- Whether the document under a handle is indented after a call. -/
def Call.indents (handle : Handle) (before : Bool) : Call → Bool
  | set other setting => if other = handle then setting.indents before else before
  | _ => before

namespace Event

def closes (handle : Handle) : Event → Bool
  | call _ c => c.closes handle
  | otherFiles _ => false

def indents (handle : Handle) (before : Bool) : Event → Bool
  | call _ c => c.indents handle before
  | otherFiles _ => before

end Event

namespace Session

variable {s : Session} {handle : Handle} {document : Document} {options : WriteOptions}

theorem seals_call (h : s.store.Seals handle document options) (patience : Nat) {c : Call}
    (stays : c.closes handle = false) :
    (s.call patience c).2.store.Seals handle document
      { options with indent := c.indents handle options.indent } := by
  cases c with
  | create rootName => exact h.add
  | importText markup => exact h.add
  | openFile path mode => exact h.openFile
  | save other path mode => exact h.save
  | close other => exact h.close (beq_eq_false_iff_ne.mp stays)
  | closeAll => cases stays
  | ask other q => exact h.ask
  | change other c => exact h.change
  | set other setting => exact h.set
  | listen on => exact h
  | silence on => exact h

theorem seals_run {events : List Event} (h : s.store.Seals handle document options)
    (stays : ∀ event ∈ events, event.closes handle = false) :
    (s.run events).2.store.Seals handle document
      { options with indent := events.foldl (Event.indents handle) options.indent } := by
  induction events generalizing s options with
  | nil => exact h
  | cons event events ih =>
    rw [List.forall_mem_cons] at stays
    cases event with
    | call patience c => exact ih (seals_call h patience stays.1) stays.2
    | otherFiles files => exact ih (s := { s with files }) h stays.2

end Session

/-- Once it has been saved, and as long as its handle is not closed, a document has the tree it had,
refuses every change, and is written indented or not as it was last set. -/
theorem sealed_of_saved {s : Session} {patience : Nat} {handle : Handle} {path : String} {mode : SaveMode}
    {a : Answer} (saved : (s.call patience (.save handle path mode)).1.outcome = .answered a)
    {events : List Event} (stays : ∀ event ∈ events, event.closes handle = false) :
    let last := ((s.call patience (.save handle path mode)).2.run events).2
    ∃ d d', s.store.document? handle = some d ∧ last.store.document? handle = some d' ∧
      d'.status = .saved ∧ d'.document = d.document ∧
      (∀ patience c, ∃ e, (last.call patience (.change handle c)).1.outcome = .refused e) ∧
      ∀ patience, (last.call patience (.ask handle .wholeText)).1.outcome =
        .answered (.text (d.document.write
          ⟨events.foldl (Event.indents handle) d.preferences.prettyPrint, d.indentUnit, none⟩)) := by
  intro last
  obtain ⟨d, found, seals⟩ := Store.seals_save saved
  have kept : last.store.Seals handle d.document
      ⟨events.foldl (Event.indents handle) d.preferences.prettyPrint, d.indentUnit, none⟩ :=
    Session.seals_run (s := (s.call patience (.save handle path mode)).2) seals stays
  have ⟨d', found', isSealed⟩ := kept
  exact ⟨d, d', found, found', isSealed.status, isSealed.document, fun _ => kept.refuses,
    fun _ => kept.wholeText⟩

/-- A new document that is saved, and written without indentation after that is turned off. -/
theorem sealed_of_saved_new :
    let s := ((Session.mk (.ofOptions .default) ⟨[], []⟩).call 0 (.create "a")).2
    let events := [Event.call 0 (.set 1 (.prettyPrint 0)), .call 0 (.create "b")]
    (s.call 0 (.save 1 "a.xml" .complete)).1.outcome = .answered .done ∧
      ∃ d, s.store.document? 1 = some d ∧
        ((((s.call 0 (.save 1 "a.xml" .complete)).2.run events).2).call 0 (.ask 1 .wholeText)).1.outcome =
          .answered (.text (d.document.write ⟨false, "  ", none⟩)) := by
  intro s events
  have saved : (s.call 0 (.save 1 "a.xml" .complete)).1.outcome = .answered .done := rfl
  obtain ⟨d, -, found, -, -, -, -, text⟩ := @sealed_of_saved s 0 1 _ _ _ saved events (by decide)
  obtain rfl : d = OpenDocument.ofDocument .default _ := Option.some.inj (found.symm.trans rfl)
  exact ⟨saved, _, found, text 0⟩

end XmlStore
