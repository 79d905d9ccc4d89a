/-
Opening a document with its external data. Whether the calls for that come to
an end is seen from the files: they do unless some file that the document
leads to leads back to itself.
-/
import XmlStore.Proofs.Pending

namespace XmlStore

open Relation (ReflTransGen TransGen)
open Tracked (Ensures)

/-! ## Computations that do not fail -/

namespace Reported

variable {α β : Type} {Q : α → Prop} {T : β → Prop}

/-- The computation returns something of which this holds. -/
def Gives (c : Reported α) (Q : α → Prop) : Prop :=
  ∀ messages, ∃ a messages', c.run.run messages = (.ok a, messages') ∧ Q a

namespace Gives

theorem pure {a : α} (h : Q a) : Gives (Pure.pure a) Q := fun messages => ⟨a, messages, rfl, h⟩

theorem bind {c : Reported α} {f : α → Reported β} (hc : c.Gives Q) (hf : ∀ a, Q a → (f a).Gives T) :
    (c >>= f).Gives T := by
  intro messages
  obtain ⟨a, between, first, ha⟩ := hc messages
  obtain ⟨b, after, second, hb⟩ := hf a ha between
  refine ⟨b, after, ?_, hb⟩
  rw [ExceptT.run_bind, StateT.run_bind, first]
  exact second

theorem warn (text : String) : (Reported.warn text).Gives fun _ => True := fun _ => ⟨⟨⟩, _, rfl, trivial⟩

theorem forM {l : List α} {f : α → Reported PUnit} (h : ∀ a ∈ l, (f a).Gives fun _ => True) :
    Gives (l.forM f) fun _ => True := by
  induction l with
  | nil => exact .pure trivial
  | cons a l ih =>
    rw [List.forall_mem_cons] at h
    exact h.1.bind fun _ _ => ih h.2

theorem runOn {τ : Type} {state : τ} {x : Tracked τ α} {Q : α → τ → Prop}
    (h : Ensures (· = state) x Q fun _ => False) : (Tracked.runOn state x).Gives fun a => Q a.1 a.2 := by
  intro messages
  have result := h state messages rfl
  rw [Tracked.run_runOn]
  match e : (x.run.run state).run messages with
  | ((.ok a, s), messages') =>
    rw [e] at result
    exact ⟨(a, s), messages', rfl, result⟩
  | ((.error _, s), messages') =>
    rw [e] at result
    exact result.elim

theorem finish {c : Reported α} (h : c.Gives Q) : ∃ a messages, c.finish = (.ok a, messages) ∧ Q a := by
  obtain ⟨a, messages, run, ha⟩ := h []
  exact ⟨a, messages, by rw [Reported.finish, run], ha⟩

end Gives

end Reported

/-! ## What a document file refers to -/

namespace External

variable {files : Files} {options : ReadOptions} {path : String} {m : Markup} {f : Forest Content} {content : Content}

theorem isElement_of_isReference {content : Content} (h : isReference content = true) : content.isElement = true := by
  cases content <;> first | rfl | cases h

theorem references_leaves {contents : List Content} (plain : ∀ content ∈ contents, content.isElement = false) :
    references (leaves contents ++ f) = references f := by
  induction contents with
  | nil => rfl
  | cons content contents ih =>
    rw [List.forall_mem_cons] at plain
    have other : ¬ isReference content = true := fun h =>
      Bool.false_ne_true (plain.1.symm.trans (isElement_of_isReference h))
    have first : references (leaves (content :: contents) ++ f) = references (leaves contents ++ f) := by
      rw [references, leaves, Forest.cons_append, Forest.outermost, if_neg other]
      rfl
    exact first.trans (ih plain.2)

/-- All references in a document are in its root element. -/
theorem references_of_readDocument {c : Cursor} (h : readDocument options c = .ok m) :
    ∃ top below, m.root? = some (top, below) ∧ references m.nodes = references (.tree top below) := by
  obtain ⟨before, after, tag, children, shape, ahead, behind, -⟩ := shape_of_readDocument h
  have ahead' : ∀ content ∈ before, content.isElement = false := fun content mem => isElement_of_ahead (ahead content mem)
  have behind' : ∀ content ∈ after, content.isElement = false := fun content mem => isElement_of_aside (behind content mem)
  have split : Forest.cons (.element ((Scope.initial.enter tag.bindings).resolveTag tag)) children (leaves after) =
    .tree (.element ((Scope.initial.enter tag.bindings).resolveTag tag)) children ++ leaves after := rfl
  have none : references (leaves after) = [] := by
    have := references_leaves (f := .nil) behind'
    rwa [Forest.append_nil] at this
  refine ⟨.element ((Scope.initial.enter tag.bindings).resolveTag tag), children, ?_, ?_⟩
  · rw [Markup.root?, shape]
    exact find?_leaves ahead'
  · rw [shape, references_leaves ahead', split, references_append, none, List.append_nil]

theorem fileReferences_eq {bytes : Bytes} (read : files.read path = .ok bytes)
    (parsed : Markup.ofBytes options bytes = .ok m) : fileReferences files options path = references m.nodes := by
  have document := parsed
  rw [Markup.ofBytes] at document
  split at document
  · obtain ⟨top, below, root, e⟩ := references_of_readDocument document
    rw [fileReferences, fileRoot?, read]
    dsimp only
    rw [contentRoot?, parsed]
    dsimp only
    rw [root, e]
  · cases document

end External

/-! ## Opening -/

namespace OpenDocument

open External (Shows Enough Endless fileReferences references)

variable {o : StoreOptions} {files : Files} {path : String} {n : Nat} {bytes : Bytes} {m : Markup}

/-- What a file is opened as. -/
def ofFile (o : StoreOptions) (path : String) (m : Markup) : OpenDocument :=
  { ofMarkup o m with
    path := some path
    fileName := FilePath.fileName? path
    directory := some (FilePath.directory path) }

theorem shows_ofFile : Shows (ofFile o path m) m.nodes (ofFile o path m) :=
  ⟨rfl, Document.rooted_ofMarkup _, rfl, Document.contents_ofMarkup _⟩

theorem returns_readFile_eq : (readFile o files path).Returns fun d => ∃ bytes m,
    files.read path = .ok bytes ∧ Markup.ofBytes o.readOptions bytes = .ok m ∧ d = ofFile o path m := by
  rw [readFile]
  split
  · exact .throw
  · rename_i bytes read
    split
    · exact .throw
    · rename_i m parsed
      exact .bind .any fun _ _ => .pure ⟨bytes, m, read, parsed, rfl⟩

theorem gives_readFile_eq (read : files.read path = .ok bytes) (parsed : Markup.ofBytes o.readOptions bytes = .ok m) :
    (readFile o files path).Gives (· = ofFile o path m) := by
  rw [readFile, read]
  dsimp only
  rw [parsed]
  exact .bind (.forM fun _ _ => .warn _) fun _ _ => .pure rfl

/-- What comes of opening a file is what comes of including external data in what it holds. -/
theorem returns_readFiles_of_ensures {Q : Bool → OpenDocument → Prop}
    (included : ∀ bytes m, files.read path = .ok bytes → Markup.ofBytes o.readOptions bytes = .ok m →
      Ensures (Shows (ofFile o path m) m.nodes) (External.includeAll files n) (fun count => Q count.isSome)
        fun _ => True) :
    (readFiles o files n path .recursive).Returns fun d => (d = none → ∃ d', Q false d') ∧
      ∀ d' ∈ d, ∃ d'' included, Q true d'' ∧ d' = { d'' with hasIncluded := included } := by
  rw [readFiles]
  refine .bind returns_readFile_eq ?_
  rintro d ⟨bytes, m, read, parsed, rfl⟩
  have run : Ensures (· = ofFile o path m) (External.includeAll files n) (fun count => Q count.isSome)
      fun _ => True :=
    (included bytes m read parsed).imp (fun _ e => e ▸ shows_ofFile) fun _ _ h => h
  refine .bind (Tracked.returns_runOn run) ?_
  rintro ⟨count, d'⟩ holds
  refine .pure ?_
  cases count with
  | none =>
    refine ⟨fun _ => ⟨d', holds⟩, fun d'' hd => ?_⟩
    cases hd
  | some k =>
    refine ⟨fun hd => ?_, fun d'' hd => ?_⟩
    · cases hd
    · cases hd
      exact ⟨d', 0 < k, holds, rfl⟩

theorem returns_readFiles_enough (enough : Enough files o.readOptions (some (FilePath.directory path)) n
    (fileReferences files o.readOptions path)) :
    (readFiles o files n path .recursive).Returns fun d => d ≠ none := by
  refine (returns_readFiles_of_ensures (Q := fun finished _ => finished = true) fun bytes m read parsed => ?_).imp
    fun d hd none => ?_
  · rw [External.fileReferences_eq read parsed] at enough
    exact enough.ensures
  · obtain ⟨d', wrong⟩ := hd.1 none
    cases wrong

theorem gives_readFiles_endless (endless : Endless files o.readOptions (some (FilePath.directory path))
    (fileReferences files o.readOptions path)) (read : files.read path = .ok bytes)
    (parsed : Markup.ofBytes o.readOptions bytes = .ok m) :
    (readFiles o files n path .recursive).Gives fun d => d.isSome = false := by
  rw [External.fileReferences_eq read parsed] at endless
  rw [readFiles]
  refine .bind (gives_readFile_eq read parsed) ?_
  rintro d rfl
  have endless' : Endless files (ofFile o path m).readOptions (ofFile o path m).directory (references m.nodes) :=
    endless
  have run : Ensures (· = ofFile o path m) (External.includeAll files n) (fun count _ => count.isSome = false)
      fun _ => False :=
    endless'.ensures.imp (fun _ e => e ▸ shows_ofFile) fun _ _ h => h
  exact .bind (.runOn run) fun result none => .pure (by rwa [Option.isSome_map])

end OpenDocument

namespace External

variable {files : Files} {options : ReadOptions} {base : Option String} {path other : String}

/-- Some file that a file leads to, itself included, leads back to itself. -/
def Circular (files : Files) (options : ReadOptions) (base : Option String) (path : String) : Prop :=
  ∃ other, ReflTransGen (Refers files options base) path other ∧ TransGen (Refers files options base) other other

/-- Everything that the references in a file need is there, and in the files that it leads to as well. -/
def Complete (files : Files) (options : ReadOptions) (base : Option String) (path : String) : Prop :=
  ∀ other, ReflTransGen (Refers files options base) path other →
    ∀ item ∈ fileReferences files options other, Usable files base item

theorem exists_enough (straight : ¬ Circular files options base path) :
    ∃ enough, ∀ n, enough ≤ n → Enough files options base n (fileReferences files options path) := by
  have ends : Acc (flip (Refers files options base)) path :=
    acc_of_acyclic (finite_refers files options base) fun other reached cycle =>
      straight ⟨other, reached.to_reflTransGen, cycle⟩
  obtain ⟨k, enough⟩ := workable_fileReferences ends
  refine ⟨k, fun n le => ?_⟩
  have := enough (n - k) [] (.none _)
  rwa [Nat.sub_add_cancel le, List.append_nil] at this

theorem endless_of_circular (circular : Circular files options base path)
    (complete : Complete files options base path) :
    Endless files options base (fileReferences files options path) := by
  obtain ⟨other, reached, cycle⟩ := circular
  obtain ⟨next, ⟨item, mem, target⟩, later⟩ := TransGen.head'_iff.mp (TransGen.trans_right reached cycle)
  refine ⟨fun item mem => ⟨complete path .refl item mem, fun next target other reached => ?_⟩,
    item, mem, next, target, not_acc_of_cycle later cycle⟩
  exact complete other (.head ⟨item, mem, target⟩ reached)

/-- A file that refers to something holds a document. -/
theorem exists_of_mem_fileReferences {item : Forest Content} (mem : item ∈ fileReferences files options path) :
    ∃ bytes m, files.read path = .ok bytes ∧ Markup.ofBytes options bytes = .ok m := by
  rw [fileReferences, fileRoot?] at mem
  cases read : files.read path with
  | error cause =>
    rw [read] at mem
    cases mem
  | ok bytes =>
    rw [read] at mem
    dsimp only at mem
    rw [contentRoot?] at mem
    cases parsed : Markup.ofBytes options bytes with
    | error cause =>
      rw [parsed] at mem
      cases mem
    | ok m => exact ⟨bytes, m, rfl, parsed⟩

end External

namespace Session

variable {s : Session} {path : String}

theorem openFile_finished (straight : ¬ External.Circular s.files s.store.options.readOptions
    (some (FilePath.directory path)) path) : ∃ enough, ∀ patience, enough ≤ patience →
      (s.call patience (.openFile path .recursive)).1.outcome ≠ .unfinished := by
  obtain ⟨enough, suffices_of_le⟩ := External.exists_enough straight
  refine ⟨enough, fun patience le => ?_⟩
  have returns := OpenDocument.returns_readFiles_enough (suffices_of_le patience le)
  change (s.store.openFile s.files patience path .recursive).1.outcome ≠ .unfinished
  rw [Store.openFile]
  split
  · intro e
    cases e
  · rename_i messages finished
    exact absurd rfl (returns.of_finish finished)
  · intro e
    cases e

theorem openFile_unfinished
    (circular : External.Circular s.files s.store.options.readOptions (some (FilePath.directory path)) path)
    (complete : External.Complete s.files s.store.options.readOptions (some (FilePath.directory path)) path)
    (patience : Nat) : (s.call patience (.openFile path .recursive)).1.outcome = .unfinished := by
  have endless := External.endless_of_circular circular complete
  obtain ⟨item, mem, -⟩ := endless.endless
  obtain ⟨bytes, m, read, parsed⟩ := External.exists_of_mem_fileReferences mem
  obtain ⟨d, messages, finished, none⟩ :=
    (OpenDocument.gives_readFiles_endless (n := patience) endless read parsed).finish
  obtain rfl : d = .none := by cases d <;> [rfl; cases none]
  change (s.store.openFile s.files patience path .recursive).1.outcome = .unfinished
  rw [Store.openFile, finished]
  rfl

/-- Opening a document with its external data ends, with a document or a refusal, unless a file that
it leads to leads back to itself. In that case, unless something is missing on the way, it never ends. -/
theorem openFile_ends (s : Session) (path : String) :
    let options := s.store.options.readOptions
    let base := some (FilePath.directory path)
    (¬ External.Circular s.files options base path → ∃ enough, ∀ patience, enough ≤ patience →
      (s.call patience (.openFile path .recursive)).1.outcome ≠ .unfinished) ∧
    (External.Circular s.files options base path → External.Complete s.files options base path →
      ∀ patience, (s.call patience (.openFile path .recursive)).1.outcome = .unfinished) :=
  ⟨openFile_finished, openFile_unfinished⟩

end Session

/-! ## A file that refers to itself -/

namespace External

def loopText : String := "<externaldata><path>.</path><filename>a.xml</filename></externaldata>"

/-- A file that is a reference to itself. -/
def loopFiles : Files := ⟨[], [(["a.xml"], .file (utf8Bytes loopText))]⟩

/-- What the reference holds. -/
def loopItem : Forest Content :=
  .cons (.element (.named ⟨none, "path"⟩)) (leaves [.text "."])
    (.cons (.element (.named ⟨none, "filename"⟩)) (leaves [.text "a.xml"]) .nil)

theorem fileReferences_loop {path : String} (read : loopFiles.read path = .ok (utf8Bytes loopText)) :
    fileReferences loopFiles ⟨true, 256⟩ path = [loopItem] := by
  have root : contentRoot? ⟨true, 256⟩ (utf8Bytes loopText) =
      some (.element (.named ⟨none, "externaldata"⟩), loopItem) := by
    decide +kernel
  rw [fileReferences, fileRoot?, read]
  dsimp only
  rw [root]
  rfl

theorem targets_loop : targets (some "") loopItem = ["./a.xml"] := by
  decide +kernel

theorem refers_loop {path : String} (read : loopFiles.read path = .ok (utf8Bytes loopText)) (other : String) :
    Refers loopFiles ⟨true, 256⟩ (some "") path other ↔ other = "./a.xml" := by
  rw [Refers, fileReferences_loop read]
  simp [targets_loop]

theorem circular_loop : Circular loopFiles ⟨true, 256⟩ (some "") "a.xml" :=
  ⟨"./a.xml", .single ((refers_loop rfl _).mpr rfl), .single ((refers_loop rfl _).mpr rfl)⟩

theorem complete_loop : Complete loopFiles ⟨true, 256⟩ (some "") "a.xml" := by
  intro other reached
  have held : loopFiles.read other = .ok (utf8Bytes loopText) := by
    induction reached with
    | refl => rfl
    | tail _ next ih =>
      rw [(refers_loop ih _).mp next]
      rfl
  rw [fileReferences_loop held, List.forall_mem_singleton]
  exact ⟨".", ["a.xml"], ".", by decide +kernel, by decide +kernel, by simpa using ⟨_, rfl⟩⟩

end External

/-- The document in that file is opened for ever. -/
theorem Session.openFile_loop : ¬ ∃ patience,
    (call patience ⟨.ofOptions .default, External.loopFiles⟩ (.openFile "a.xml" .recursive)).1.outcome ≠
      .unfinished := by
  rintro ⟨patience, finished⟩
  have base : FilePath.directory "a.xml" = "" := by decide +kernel
  refine finished (openFile_unfinished ?_ ?_ patience)
  · rw [base]
    exact External.circular_loop
  · rw [base]
    exact External.complete_loop

end XmlStore
