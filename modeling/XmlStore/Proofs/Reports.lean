/-
How refusals are reported. Whatever else a call says, it ends with one message
that tells why it was refused, and no other message of the call reads the same:
remarks, warnings and news begin in ways in which no refusal does. Only a bad
number format that is noticed before any document is looked for goes unreported.
-/
import XmlStore.Proofs.HandleRuns
import XmlStore.Proofs.Locators

namespace XmlStore

/-! ## How messages begin -/

/-- The first two characters of a text. -/
def opening (s : String) : List Char := s.toList.take 2

theorem opening_append {s : String} (t : String) (long : 2 ≤ s.toList.length) : opening (s ++ t) = opening s := by
  rw [opening, String.toList_append, List.take_append_of_le_length long, opening]

theorem opening_of_prefix {stem s : String} (h : stem.toList <+: s.toList) (long : 2 ≤ stem.toList.length) :
    opening s = opening stem := by
  obtain ⟨rest, e⟩ := h
  rw [opening, ← e, List.take_append_of_le_length long, opening]

theorem map_opening_remarkStems : remarkStems.map opening = [['e', 'm'], ['t', 'h'], ['d', 'e']] := by decide +kernel

/-- Remarks begin with one of three letters. -/
theorem opening_not_mem {s : String} (first : Char) (begins : s.toList.head? = some first)
    (other : first ∉ ['e', 't', 'd']) : opening s ∉ remarkStems.map opening := by
  intro mem
  have same : (opening s).head? ∈ (remarkStems.map opening).map List.head? := List.mem_map_of_mem mem
  rw [map_opening_remarkStems, opening, List.head?_take, if_neg (by decide), begins] at same
  refine other ?_
  simpa using same

/-- No refusal begins as a remark does. -/
theorem Error.opening_message (e : Error) : opening e.message ∉ remarkStems.map opening := by
  cases e with
  | noRootElement | nothingImported | noAttributeName => decide +kernel
  | unknownOpenMode | unknownLinkMode | badPrettyPrintFlag | notWellFormed | invalidHandle | unknownStorageMode =>
    dsimp only [message]
    rw [opening_append _ (by decide +kernel)]
    decide +kernel
  | positionCount sizes positions =>
    obtain ⟨first, more, digits, isDigit⟩ := Lexer.begins_toDigits sizes
    have number : (toString sizes).toList = first :: more := by
      rw [← digits]
      exact String.toList_ofList
    refine opening_not_mem first ?_ fun letter => ?_
    · dsimp only [message]
      rw [String.append_assoc, String.append_assoc, String.toList_append, number, List.cons_append, List.head?_cons]
    · have letter : first = 'e' ∨ first = 't' ∨ first = 'd' := by simpa using letter
      rcases letter with rfl | rfl | rfl <;> cases isDigit
  | notAnElement path =>
    refine opening_not_mem '\'' ?_ (by decide)
    dsimp only [message]
    rw [String.append_assoc, String.toList_append]
    rfl
  | _ =>
    dsimp only [message]
    simp only [String.append_assoc]
    rw [opening_append _ (by decide +kernel)]
    decide +kernel

theorem Message.Remark.text_ne {m : Message} (h : m.Remark) (e : Error) : m.text ≠ e.message := by
  obtain ⟨stem, mem, begins⟩ := h
  have long : ∀ stem ∈ remarkStems, 2 ≤ stem.toList.length := by decide +kernel
  intro same
  refine e.opening_message (List.mem_map.mpr ⟨stem, mem, ?_⟩)
  rw [← same, opening_of_prefix begins (long stem mem)]

/-! ## Opening files -/

/-- How messages begin that are given off while files are read. -/
def noticeStems : List String := ["warning: ", "document "]

/-- A message that tells of something in a file. -/
def Message.Notice (m : Message) : Prop := ∃ stem ∈ noticeStems, stem.toList <+: m.text.toList

/-- A refusal because of a file. -/
def Error.OfFile (e : Error) : Prop := "failed to open '".toList <+: e.message.toList

theorem Message.Notice.text_ne {m : Message} (h : m.Notice) {e : Error} (refused : e.OfFile) : m.text ≠ e.message := by
  obtain ⟨stem, mem, begins⟩ := h
  have long : ∀ stem ∈ noticeStems, 2 ≤ stem.toList.length := by decide +kernel
  have other : ∀ stem ∈ noticeStems, opening stem ≠ opening "failed to open '" := by decide +kernel
  intro same
  refine other stem mem ?_
  rw [← opening_of_prefix begins (long stem mem), same, opening_of_prefix refused (by decide +kernel)]

theorem prefix_of_parts (stem s t u : String) : stem.toList <+: (stem ++ s ++ t ++ u).toList :=
  prefix_append_toList _ (prefix_append_toList _ (prefix_append_toList _ (List.prefix_refl _)))

theorem Error.ofFile_unreadableFile (path : String) (cause : FileError) : (unreadableFile path cause).OfFile :=
  prefix_of_parts ..

theorem Error.ofFile_unusableExternal (location : String) (cause : ExternalFlaw) :
    (unusableExternal location cause).OfFile := prefix_of_parts ..

/-- A computation on files: it gives off notices only, and fails because of a file only. -/
def ReadsFiles {m : Type → Type} [Monad m] [GivesOff m] {α : Type} (x : ExceptT Error m α) : Prop :=
  Confined Message.Notice Error.OfFile x

namespace External

variable {files : Files} {path : String} {id : NodeId}

theorem readsFiles_includeFile {marks : List (String × String)} : ReadsFiles (includeFile files id path marks) := by
  rw [includeFile]
  split
  · exact .throw (Error.ofFile_unreadableFile ..)
  · refine .bind .get fun d => ?_
    split
    · have notice (reason : String) : Message.Notice ⟨.warning, s!"document {path} will be ignored, {reason}"⟩ :=
        ⟨_, List.mem_cons_of_mem _ List.mem_cons_self, prefix_of_parts ..⟩
      exact .bind (.report (.say (notice _))) fun _ => .pure
    · dsimp only
      split
      · exact .pure
      · exact .bind .modifyGet fun _ => .pure

theorem ofFile_of_target {d : Document} {e : Error} (failed : target d id = .error e) : e.OfFile := by
  rw [target] at failed
  split at failed
  · cases failed
    exact Error.ofFile_unusableExternal ..
  · cases failed
    exact Error.ofFile_unusableExternal ..
  · cases failed

theorem readsFiles_includeReference : ReadsFiles (includeReference files id) := by
  rw [includeReference]
  refine .bind (.bind .get fun _ => .pure) fun d => .bind (.lift fun e => ofFile_of_target) fun target => ?_
  refine .bind .get fun opened => ?_
  dsimp only
  split
  · exact .throw (Error.ofFile_unusableExternal ..)
  · exact .bind (.mapM fun _ => readsFiles_includeFile) fun _ => .bind .modifyGet fun _ => .pure

theorem readsFiles_includeAll (patience : Nat) : ReadsFiles (includeAll files patience) := by
  induction patience with
  | zero =>
    rw [includeAll]
    refine .bind (.bind .get fun _ => .pure) fun d => ?_
    split
    · exact .pure
    · exact .pure
  | succ patience ih =>
    rw [includeAll]
    refine .bind (.bind .get fun _ => .pure) fun d => ?_
    split
    · exact .pure
    · exact .bind readsFiles_includeReference fun _ => .bind ih fun _ => .pure

end External

/-! ## Calls -/

/-- Whether a reply tells of a refusal: in its last message and in no other. -/
def Reply.Reports (r : Reply) (e : Error) : Prop :=
  ∃ before, r.messages = before ++ [e.toMessage] ∧ ∀ m ∈ before, m.text ≠ e.message

namespace OpenDocument

variable {o : StoreOptions} {files : Files} {patience : Nat} {path : String} {mode : OpenMode}

/-- Once the main file is read and found to be a document. -/
theorem readsFiles_readFiles {bytes : Bytes} {markup : Markup} (read : files.read path = .ok bytes)
    (parsed : Markup.ofBytes o.readOptions bytes = .ok markup) : ReadsFiles (readFiles o files patience path mode) := by
  have notice (w : Warning) : Message.Notice ⟨.warning, w.text⟩ := ⟨_, List.mem_cons_self, prefix_of_parts ..⟩
  rw [readFiles, readFile, read]
  dsimp only
  rw [parsed]
  refine .bind (.bind (.forM fun w => .say (notice w)) fun _ => .pure) fun d => ?_
  cases mode with
  | plain => exact .pure
  | recursive => exact .bind (.runOn (External.readsFiles_includeAll patience)) fun _ => .pure

/-- What is reported while a document is read from files. -/
theorem reported_readFiles {e : Error} (failed : (readFiles o files patience path mode).finish.1 = .error e) :
    ∃ before, (readFiles o files patience path mode).finish.2 = before ++ [e.toMessage] ∧
      ∀ m ∈ before, m.text ≠ e.message := by
  cases read : files.read path with
  | error cause =>
    rw [readFiles, readFile, read] at failed ⊢
    cases failed
    exact ⟨[], rfl, fun _ none => absurd none List.not_mem_nil⟩
  | ok bytes =>
    cases parsed : Markup.ofBytes o.readOptions bytes with
    | error cause =>
      rw [readFiles, readFile, read] at failed ⊢
      dsimp only at failed ⊢
      rw [parsed] at failed ⊢
      cases failed
      exact ⟨[], rfl, fun _ none => absurd none List.not_mem_nil⟩
    | ok markup =>
      obtain ⟨refused, before, said, holds⟩ := (readsFiles_readFiles read parsed).of_finish failed
      exact ⟨before, said, fun m hm => (holds m hm).text_ne refused⟩

end OpenDocument

namespace Store

variable {s : Store} {files : Files} {handle : Handle} {e : Error}

section

variable (listening : s.listening = true) (heard : s.silenced = false)

include listening heard

theorem messages_reply (outcome : Outcome) (messages : List Message) : (s.reply outcome messages).messages = messages := by
  rw [reply, listening, heard]
  rfl

theorem reports_refuse : (s.refuse e []).Reports e :=
  ⟨[], messages_reply listening heard _ _, fun _ none => absurd none List.not_mem_nil⟩

theorem reports_add {d : Except Error OpenDocument} (refused : (s.add d).1.outcome = .refused e) :
    (s.add d).1.Reports e := by
  cases d with
  | ok d => cases refused
  | error cause =>
    cases refused
    exact reports_refuse listening heard

theorem reports_openFile {patience : Nat} {path : String} {mode : OpenMode}
    (refused : (s.openFile files patience path mode).1.outcome = .refused e) :
    (s.openFile files patience path mode).1.Reports e := by
  rw [openFile] at refused ⊢
  rcases result : (OpenDocument.readFiles s.options files patience path mode).finish with ⟨cause | _ | d, messages⟩
  · rw [result] at refused
    cases refused
    obtain ⟨before, said, others⟩ := OpenDocument.reported_readFiles (congrArg Prod.fst result)
    rw [result] at said
    exact ⟨before, (messages_reply listening heard _ _).trans said, others⟩
  · rw [result] at refused
    cases refused
  · rw [result] at refused
    cases refused

theorem reports_save {path : String} {mode : SaveMode} (refused : (s.save files handle path mode).1.outcome = .refused e) :
    (s.save files handle path mode).1.Reports e := by
  rw [save] at refused ⊢
  split at refused
  · cases refused
    exact reports_refuse listening heard
  · dsimp only
    split at refused
    · cases refused
      exact reports_refuse listening heard
    · cases refused

theorem reports_close (refused : (s.close handle).1.outcome = .refused e) : (s.close handle).1.Reports e := by
  rw [close] at refused ⊢
  split at refused
  · cases refused
    exact reports_refuse listening heard
  · cases refused

/-- What a computation that makes remarks reports at its end. -/
theorem reports_of_remarks {messages before : List Message} {outcome : Outcome}
    (said : messages = before ++ [e.toMessage]) (remarks : ∀ m ∈ before, m.Remark) :
    (s.reply outcome messages).Reports e :=
  ⟨before, (messages_reply listening heard _ _).trans said, fun m hm => (remarks m hm).text_ne e⟩

theorem reports_ask {q : Question} (refused : (s.ask handle q).1.outcome = .refused e) :
    (s.ask handle q).1.Reports e := by
  rw [ask] at refused ⊢
  split at refused
  · cases refused
    exact reports_refuse listening heard
  · rename_i d _
    obtain ⟨-, before, said, remarks⟩ := (q.failsInside_lookup d).of_conclude refused
    exact reports_of_remarks listening heard said remarks

theorem reports_change {c : Change} {edit : Edit Answer} (accepted : c.edit = .ok edit)
    (refused : (s.change handle c).1.outcome = .refused e) : (s.change handle c).1.Reports e := by
  rw [change, accepted] at refused ⊢
  dsimp only at refused ⊢
  split at refused
  · cases refused
    exact reports_refuse listening heard
  · rename_i d _
    split at refused
    · rename_i saved
      rw [if_pos saved]
      cases refused
      exact reports_refuse listening heard
    · rename_i editable
      rw [if_neg editable]
      obtain ⟨-, before, said, remarks⟩ := (c.failsInside_edit accepted).of_conclude refused
      exact reports_of_remarks listening heard said remarks

theorem reports_set {setting : Setting} (refused : (s.set handle setting).1.outcome = .refused e) :
    (s.set handle setting).1.Reports e := by
  rw [set] at refused ⊢
  split at refused
  · cases refused
    exact reports_refuse listening heard
  · rename_i d _
    rcases result : (setting.apply d.document d.preferences).finish with ⟨cause | preferences, messages⟩
    · rw [result] at refused
      cases refused
      obtain ⟨-, before, said, remarks⟩ := setting.failsInside_apply.of_finish (congrArg Prod.fst result)
      rw [result] at said
      exact reports_of_remarks listening heard said remarks
    · rw [result] at refused
      cases refused

end

end Store

/-- What a reply says that tells of a refusal. -/
theorem Reply.Reports.messages {r : Reply} {e : Error} (h : r.Reports e) :
    r.messages.filter (·.text == e.message) = [e.toMessage] ∧ r.messages.getLast? = some e.toMessage := by
  obtain ⟨before, said, others⟩ := h
  have none : before.filter (·.text == e.message) = [] :=
    List.filter_eq_nil_iff.mpr fun m hm => by simpa using others m hm
  refine ⟨?_, by rw [said, List.getLast?_concat]⟩
  rw [said, List.filter_append, none, List.nil_append, List.filter_singleton]
  simp [Error.toMessage]

namespace Session

variable {s : Session} {patience : Nat} {c : Call} {e : Error}

/-- One call. -/
theorem reports_call (listening : s.store.listening = true) (heard : s.store.silenced = false)
    (late : c.early? = none) (refused : (s.call patience c).1.outcome = .refused e) :
    (s.call patience c).1.Reports e := by
  cases c with
  | create rootName => exact Store.reports_add listening heard refused
  | importText markup => exact Store.reports_add listening heard refused
  | openFile path mode => exact Store.reports_openFile listening heard refused
  | save handle path mode => exact Store.reports_save listening heard refused
  | close handle => exact Store.reports_close listening heard refused
  | ask handle q => exact Store.reports_ask listening heard refused
  | change handle c =>
    cases edit : c.edit with
    | error cause =>
      rw [Call.early?, edit] at late
      cases late
    | ok edit' => exact Store.reports_change listening heard edit refused
  | set handle setting => exact Store.reports_set listening heard refused
  | closeAll | listen | silence => cases refused

/-- A change that is refused early says nothing. -/
theorem call_of_early (patience : Nat) {cause : Error} (early : c.early? = some cause) :
    (s.call patience c).1.outcome = .refused cause ∧ (s.call patience c).1.messages = [] := by
  cases c with
  | change handle c =>
    cases edit : c.edit with
    | error cause' =>
      rw [Call.early?, edit] at early
      obtain rfl := Option.some.inj early
      dsimp only [call]
      rw [Store.change, edit]
      exact ⟨rfl, ite_self _⟩
    | ok edit' =>
      rw [Call.early?, edit] at early
      cases early
  | _ => cases early

end Session

/-- A refusal is the last message of its call, and the only one that reads so: news if an element was not
found, and an error otherwise. A change that is refused before any document is looked for, for the bad
format of a number, says nothing at all. -/
theorem refusal_reported (s : Session) (listening : s.store.listening = true) (heard : s.store.silenced = false)
    (patience : Nat) (c : Call) (e : Error) (refused : (s.call patience c).1.outcome = .refused e) :
    let report : Message := ⟨if e.code = .elementNotFound then .status else .error, e.message⟩
    (c.early? = none → (s.call patience c).1.messages.filter (·.text == e.message) = [report] ∧
      (s.call patience c).1.messages.getLast? = some report) ∧
    (c.early?.isSome = true → (s.call patience c).1.messages = [] ∧
      ∃ format flaw, c.early? = some e ∧ e = .badFormat format flaw) := by
  refine ⟨fun late => (Session.reports_call listening heard late refused).messages, fun early => ?_⟩
  obtain ⟨cause, early⟩ := Option.isSome_iff_exists.mp early
  obtain ⟨outcome, silent⟩ := s.call_of_early patience early
  obtain rfl : cause = e := Outcome.refused.inj (outcome.symm.trans refused)
  obtain ⟨format, flaw, rfl⟩ := Call.early?_eq_some early
  exact ⟨silent, format, flaw, early, rfl⟩

/-- Somebody listens while a document is closed that is not there. -/
theorem refusal_reported_unknown :
    let s : Session := ((Session.start .default ⟨[], []⟩).run [.call 0 (.listen true)]).2
    (s.call 0 (.close 7)).1.messages.getLast? = some ⟨.error, (Error.invalidHandle 7).message⟩ :=
  ((refusal_reported _ rfl rfl 0 (.close 7) (.invalidHandle 7) rfl).1 rfl).2

/-- Somebody listens while an integer is to be written into the root element in a format that is none. -/
theorem badFormat_unreported :
    let s := ((Session.start .default ⟨[], []⟩).run [.call 0 (.listen true), .call 0 (.create "a")]).2
    let reply := (s.call 0 (.change 1 (.updateElement "/a" (.integer 1 (some "%q"))))).1
    s.store.listening = true ∧ s.store.silenced = false ∧ s.store.holds 1 = true ∧
      ∃ e, reply.outcome = .refused e ∧ reply.messages = [] :=
  ⟨rfl, rfl, rfl, _, rfl, rfl⟩

end XmlStore
