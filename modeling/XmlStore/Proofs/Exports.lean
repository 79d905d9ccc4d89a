/-
Documents that are written out in a session. Whatever calls led to a document,
its text can be read again exactly if its tree is that of a document: one root
element, nothing beside it but asides, blanks and a document type, names and
characters that may be read, and elements that are not nested too deep.
-/
import XmlStore.Proofs.NodeSets
import XmlStore.Proofs.Reopened
import XmlStore.Proofs.WellFormed

namespace XmlStore

/-! ## What the nodes hold -/

namespace Document

variable {d : Document}

/-- Below the document node there are only spelt contents. -/
theorem Sound.contents (sound : d.Sound) : ∀ content ∈ (d.contents root).preorder, content.Spelt := by
  have rooted := sound.made.rooted
  have distinct := documentOrder_nodup rooted
  rw [documentOrder_eq rooted.wellLinked rooted.has_root, List.nodup_cons] at distinct
  rw [Document.contents, Forest.preorder_map, List.forall_mem_map]
  intro a below
  exact sound.spelt a (rooted.wellLinked.has_below a below) fun top => distinct.1 (top ▸ below)

/-- What is written for a document can be read exactly if its tree is well-formed. -/
theorem Sound.ofString_iff {o : WriteOptions} {options : ReadOptions} (sound : d.Sound)
    (unit : Plain o.indentUnit.toList) (silent : o.encoding = none)
    (version : Quotable (d.declaration.version.getD "1.0"))
    (quotable : ∀ content ∈ (d.contents root).preorder, content.Quotable) :
    (∃ again, ofString options (d.write o) = .ok again) ↔
      (o.remains .lines (d.contents root)).WellFormed options.maxDepth := by
  have declared : Declares o d.declaration :=
    declares (by rw [silent, sound.encoding]; rfl) sound.numbered version
  refine Iff.trans ⟨?_, ?_⟩ (ofString_writeDocument_iff unit sound.contents quotable declared)
  · rintro ⟨again, read⟩
    obtain ⟨m, parsed, -⟩ := ofString_ok.mp read
    exact ⟨m, parsed⟩
  · rintro ⟨m, parsed⟩
    exact ⟨ofMarkup m, ofString_ok.mpr ⟨m, parsed, rfl⟩⟩

end Document

/-! ## How documents are indented -/

namespace OpenDocument

variable {o : StoreOptions} {d : OpenDocument}

theorem indentUnit_create {rootName : String} (created : create o rootName = .ok d) :
    d.indentUnit = o.indentUnit := by
  rw [create] at created
  split at created <;> cases created
  rfl

theorem indentUnit_importText {markup : String} (imported : importText o markup = .ok d) :
    d.indentUnit = o.indentUnit := by
  rw [importText] at imported
  split at imported <;> cases imported
  rfl

theorem returns_readFile_indentUnit {files : Files} {path : String} :
    (readFile o files path).Returns fun d => d.indentUnit = o.indentUnit := by
  rw [readFile]
  split
  · exact .throw
  · split
    · exact .throw
    · exact .bind .any fun _ _ => .pure rfl

theorem returns_readFiles_indentUnit {files : Files} {patience : Nat} {path : String} {mode : OpenMode} :
    (readFiles o files patience path mode).Returns fun d => ∀ d' ∈ d, d'.indentUnit = o.indentUnit := by
  cases mode with
  | plain =>
    rw [readFiles]
    exact .bind returns_readFile_indentUnit fun d same => .pure fun _ hd => Option.some.inj hd ▸ same
  | recursive =>
    refine returns_readFiles_openedWith.imp fun d opened d' mem => ?_
    obtain ⟨bytes, m, whole, held⟩ := opened d' mem
    exact held.indentUnit

end OpenDocument

namespace Session

variable {s : Session}

/-- No call changes the options of a store. -/
theorem options_call (s : Session) (patience : Nat) (c : Call) :
    (s.call patience c).2.store.options = s.store.options := by
  cases c with
  | create | importText =>
    simp only [call, Store.add]
    split <;> rfl
  | openFile =>
    simp only [call, Store.openFile]
    split <;> rfl
  | save =>
    simp only [call, Store.save]
    split
    · rfl
    · split <;> rfl
  | close =>
    simp only [call, Store.close]
    split <;> rfl
  | ask =>
    simp only [call, Store.ask]
    split <;> rfl
  | change =>
    simp only [call, Store.change]
    split
    · rfl
    · split
      · rfl
      · split <;> rfl
  | set =>
    simp only [call, Store.set]
    split
    · rfl
    · split <;> rfl
  | closeAll | listen | silence => rfl

/-- One call leaves every open document indented as the store has it. -/
theorem indented_call (h : s.store.All fun o => o.indentUnit = s.store.options.indentUnit) (patience : Nat)
    (c : Call) : (s.call patience c).2.store.All fun o =>
      o.indentUnit = (s.call patience c).2.store.options.indentUnit := by
  rw [options_call]
  cases c with
  | create rootName => exact h.add fun _ => OpenDocument.indentUnit_create
  | importText markup => exact h.add fun _ => OpenDocument.indentUnit_importText
  | openFile path mode => exact h.openFile OpenDocument.returns_readFiles_indentUnit
  | save handle path mode => exact h.save fun _ same => same
  | close handle => exact h.close
  | closeAll => exact fun entry hentry => absurd hentry List.not_mem_nil
  | ask handle q => exact h.ask fun _ _ same => same
  | change handle c => exact h.change fun _ _ _ same => same
  | set handle setting => exact h.set fun _ _ same => same
  | listen on => exact h
  | silence on => exact h

/-- Any calls. -/
theorem Reachable.indented (reachable : s.Reachable) :
    s.store.All fun o => o.indentUnit = s.store.options.indentUnit := by
  induction reachable with
  | start options files => exact fun entry hentry => absurd hentry List.not_mem_nil
  | call _ patience c ih => exact indented_call ih patience c
  | otherFiles _ files ih => exact ih

end Session

/-! ## Exports -/

namespace Session

variable {s : Session} {handle : Handle} {d : OpenDocument}

theorem answer_wholeText (found : s.store.document? handle = some d) (patience : Nat) :
    (s.call patience (.ask handle .wholeText)).1.outcome = .answered (.text d.write) := by
  rw [call]
  dsimp only
  rw [Store.ask, found]
  rfl

end Session

end XmlStore
