/-
Handles over whole runs. A call that opens a document answers with a handle
that was never given out before. From then on the handle is in force until it is
closed; under any other number nothing is found. What a call does under one
handle leaves the documents under all others as they are.
-/
import XmlStore.Proofs.Refusals
import XmlStore.Proofs.Saved

namespace XmlStore

/-! ## Calls and the handles they name -/

namespace Call

/-- The handle that a call names. -/
def handle? : Call → Option Handle
  | save handle .. | close handle | ask handle _ | change handle _ | set handle _ => some handle
  | _ => none

/-- Whether a call opens a document. -/
def opens : Call → Bool
  | create _ | importText _ | openFile .. => true
  | _ => false

/-- The handle that a call gives out with its reply. -/
def given? (c : Call) (r : Reply) : Option Handle :=
  match c.opens, r.outcome with
  | true, .answered (.integer handle) => some handle
  | _, _ => none

/-- The refusal that a call meets before its document is looked for. -/
def early? : Call → Option Error
  | change _ c => match c.edit with
    | .error e => some e
    | .ok _ => none
  | _ => none

theorem given?_of_not_opens {c : Call} (r : Reply) (h : c.opens = false) : c.given? r = none := by
  rw [given?, h]

end Call

/-- A number that cannot be written is refused for its format. -/
theorem writeNumber_eq_error {format : String} {value : FormatValue} {e : Error}
    (h : writeNumber format value = .error e) : ∃ flaw, e = .badFormat format flaw := by
  rw [writeNumber] at h
  split at h
  · cases h
  · cases h
    exact ⟨_, rfl⟩

theorem Scalar.write_eq_error {value : Scalar} {e : Error} (h : value.write = .error e) :
    ∃ format flaw, e = .badFormat format flaw := by
  cases value with
  | text s => cases h
  | boolean b => cases h
  | float x format => exact ⟨_, writeNumber_eq_error h⟩
  | integer n format => exact ⟨_, writeNumber_eq_error h⟩

/-- Only a change that writes a single value is refused before its document is looked for, and only for
the format of that value. -/
theorem Change.edit_eq_error {c : Change} {e : Error} (h : c.edit = .error e) :
    ∃ format flaw, e = .badFormat format flaw := by
  have written {text : Except Error String} {edit : String → Edit Answer}
      (h : (do let text ← text; return edit text) = Except.error e) : text = .error e := by
    cases text with
    | ok text => cases h
    | error cause =>
      cases h
      rfl
  cases c with
  | updateElement path value => exact Scalar.write_eq_error (written h)
  | setAttribute path name value => exact Scalar.write_eq_error (written h)
  | addElement parent name uri value place =>
    cases value with
    | none => cases h
    | some value =>
      cases text : value.write with
      | ok text' =>
        rw [Change.edit, Option.mapM_some, text] at h
        cases h
      | error cause =>
        rw [Change.edit, Option.mapM_some, text] at h
        cases h
        exact Scalar.write_eq_error text
  | _ => cases h

theorem Call.early?_eq_some {c : Call} {e : Error} (h : c.early? = some e) :
    ∃ format flaw, e = .badFormat format flaw := by
  cases c with
  | change handle c =>
    rw [early?] at h
    split at h
    · rename_i cause refused
      cases h
      exact Change.edit_eq_error refused
    · cases h
  | _ => cases h

/-! ## One call -/

namespace Store

variable {s : Store} {handle other : Handle} {d : OpenDocument}

/-- Whether there is a document under a handle. -/
def holds (s : Store) (handle : Handle) : Bool := (s.document? handle).isSome

theorem holds_insert (other : Handle) : (s.insert d).holds other = (s.nextHandle == other || s.holds other) := by
  rw [holds, holds, document?, document?, insert, List.lookup_append, Option.isSome_or, Bool.or_comm,
    List.lookup_cons, List.lookup_nil, Bool.beq_comm]
  cases s.nextHandle == other <;> rfl

theorem holds_update (other : Handle) : (s.update handle d).holds other = s.holds other := by
  rw [holds, holds, document?_update, Option.isSome_map]

theorem holds_erase (other : Handle) : (s.erase handle).holds other = (s.holds other && !(other == handle)) := by
  by_cases same : other = handle
  · subst same
    rw [holds, document?_erase, beq_self_eq_true]
    simp
  · have differs : (other == handle) = false := beq_eq_false_iff_ne.mpr same
    rw [holds, holds, document?_erase_of_ne same, differs]
    simp

theorem holds_close (other : Handle) : (s.close handle).2.holds other = (s.holds other && !(other == handle)) := by
  rw [close]
  cases found : s.document? handle with
  | none =>
    by_cases same : other = handle
    · subst same
      rw [holds, found]
      rfl
    · rw [beq_eq_false_iff_ne.mpr same, Bool.not_false, Bool.and_true]
  | some d => exact holds_erase other

theorem document?_update_of_ne (ne : other ≠ handle) :
    (s.update handle d).document? other = s.document? other := by
  rw [document?_update]
  cases s.document? other with
  | none => rfl
  | some old => rw [Option.map_some, if_neg ne]

section

variable {files : Files} {e : Error}

theorem inner_of_save {path : String} {mode : SaveMode} (found : s.document? handle = some d)
    (refused : (s.save files handle path mode).1.outcome = .refused e) : e.Inner := by
  rw [save, found] at refused
  dsimp only at refused
  rcases saved : (External.save d path mode).run.run files with ⟨cause | ⟨⟩, files⟩
  · rw [saved] at refused
    cases refused
    exact External.failsInside_save.of_run (congrArg Prod.fst saved)
  · rw [saved] at refused
    cases refused

theorem inner_of_ask {q : Question} (found : s.document? handle = some d)
    (refused : (s.ask handle q).1.outcome = .refused e) : e.Inner := by
  rw [ask, found] at refused
  exact ((q.failsInside_lookup d).of_conclude refused).1

theorem inner_of_change {c : Change} (found : s.document? handle = some d)
    (refused : (s.change handle c).1.outcome = .refused e) : e.Inner := by
  rw [change, found] at refused
  cases edit : c.edit with
  | error cause =>
    rw [edit] at refused
    cases refused
    obtain ⟨format, flaw, rfl⟩ := Change.edit_eq_error edit
    rfl
  | ok edit' =>
    rw [edit] at refused
    dsimp only at refused
    split at refused
    · cases refused
      rfl
    · exact ((c.failsInside_edit edit).of_conclude refused).1

theorem inner_of_set {setting : Setting} (found : s.document? handle = some d)
    (refused : (s.set handle setting).1.outcome = .refused e) : e.Inner := by
  rw [set, found] at refused
  dsimp only at refused
  rcases result : (setting.apply d.document d.preferences).finish with ⟨cause | preferences, messages⟩
  · rw [result] at refused
    cases refused
    exact (setting.failsInside_apply.of_finish (congrArg Prod.fst result)).1
  · rw [result] at refused
    cases refused

end

end Store

namespace Session

variable {s : Session} {patience : Nat} {c : Call} {handle other : Handle}

/-- What a call with its reply does to handles. It gives out the next one, if any; and those are held
afterwards that it gives out, or that were held before and that it does not close. -/
structure Turn (s : Session) (c : Call) (r : Reply) (s' : Session) : Prop where
  given : ∀ handle, c.given? r = some handle → handle = s.store.nextHandle
  next : s'.store.nextHandle = s.store.nextHandle + if (c.given? r).isSome then 1 else 0
  holds : ∀ handle, s'.store.holds handle =
    (c.given? r == some handle || s.store.holds handle && !c.closes handle)

namespace Turn

variable {r : Reply} {store' : Store} {files : Files}

/-- A document is opened. -/
theorem opened {d : OpenDocument} {messages : List Message} (opens : c.opens = true) :
    s.Turn c (s.store.reply (.answered (.integer s.store.nextHandle)) messages) ⟨s.store.insert d, files⟩ := by
  have given : c.given? (s.store.reply (.answered (.integer s.store.nextHandle)) messages) =
      some s.store.nextHandle := by
    rw [Call.given?, opens]
    rfl
  have stays (handle : Handle) : c.closes handle = false := by
    cases c <;> first | rfl | cases opens
  refine ⟨fun handle h => ?_, ?_, fun handle => ?_⟩
  · rw [given] at h
    exact (Option.some.inj h).symm
  · rw [given]
    rfl
  · rw [given, Store.holds_insert, stays]
    simp

/-- Nothing is opened. -/
theorem of_holds {s' : Session} (none : c.given? r = none) (next : s'.store.nextHandle = s.store.nextHandle)
    (holds : ∀ handle, s'.store.holds handle = (s.store.holds handle && !c.closes handle)) : s.Turn c r s' := by
  refine ⟨fun handle h => ?_, ?_, fun handle => ?_⟩
  · rw [none] at h
    cases h
  · rw [none, next]
    exact (Int.add_zero _).symm
  · rw [none, holds]
    rfl

theorem kept {s' : Session} (none : c.given? r = none) (next : s'.store.nextHandle = s.store.nextHandle)
    (same : ∀ handle, s'.store.holds handle = s.store.holds handle) (stays : ∀ handle, c.closes handle = false) :
    s.Turn c r s' :=
  of_holds none next fun handle => by rw [same, stays, Bool.not_false, Bool.and_true]

end Turn

theorem turn_add {d : Except Error OpenDocument} (opens : c.opens = true) (stays : ∀ handle, c.closes handle = false) :
    s.Turn c (s.store.add d).1 { s with store := (s.store.add d).2 } := by
  cases d with
  | ok d => exact .opened opens
  | error e =>
    refine .kept ?_ rfl (fun _ => rfl) stays
    rw [Call.given?, opens]
    rfl

theorem turn_openFile {path : String} {mode : OpenMode} :
    s.Turn (.openFile path mode) (s.call patience (.openFile path mode)).1
      (s.call patience (.openFile path mode)).2 := by
  dsimp only [call]
  rw [Store.openFile]
  split
  · exact .opened rfl
  · exact .kept rfl rfl (fun _ => rfl) fun _ => rfl
  · exact .kept rfl rfl (fun _ => rfl) fun _ => rfl

/-- A call that names a handle and does not close it puts another document there at most. -/
theorem call_named (names : c.handle? = some handle) (stays : c.closes handle = false) :
    (s.call patience c).2.store = s.store ∨ ∃ d, (s.call patience c).2.store = s.store.update handle d := by
  cases c with
  | save handle path mode =>
    cases names
    dsimp only [call]
    rw [Store.save]
    split
    · exact .inl rfl
    · split
      · exact .inl rfl
      · exact .inr ⟨_, rfl⟩
  | close other =>
    cases names
    exact absurd stays (by simp [Call.closes])
  | ask handle q =>
    cases names
    dsimp only [call]
    rw [Store.ask]
    split
    · exact .inl rfl
    · exact .inr ⟨_, rfl⟩
  | change handle c =>
    cases names
    dsimp only [call]
    rw [Store.change]
    split
    · exact .inl rfl
    · split
      · exact .inl rfl
      · split
        · exact .inl rfl
        · exact .inr ⟨_, rfl⟩
  | set handle setting =>
    cases names
    dsimp only [call]
    rw [Store.set]
    split
    · exact .inl rfl
    · split
      · exact .inr ⟨_, rfl⟩
      · exact .inr ⟨_, rfl⟩
  | _ => cases names

theorem turn_named (names : c.handle? = some handle) (stays : ∀ other, c.closes other = false) :
    s.Turn c (s.call patience c).1 (s.call patience c).2 := by
  have none : c.opens = false := by
    cases c <;> first | rfl | cases names
  rcases s.call_named names (stays handle) with same | ⟨d, updated⟩
  · exact .kept (c.given?_of_not_opens _ none) (by rw [same]) (fun _ => by rw [same]) stays
  · exact .kept (c.given?_of_not_opens _ none) (by rw [updated]; rfl)
      (fun _ => by rw [updated, Store.holds_update]) stays

/-- One call. -/
theorem turn_call (s : Session) (patience : Nat) (c : Call) :
    s.Turn c (s.call patience c).1 (s.call patience c).2 := by
  cases c with
  | create rootName => exact turn_add rfl fun _ => rfl
  | importText markup => exact turn_add rfl fun _ => rfl
  | openFile path mode => exact turn_openFile
  | save handle path mode => exact turn_named rfl fun _ => rfl
  | close handle =>
    refine .of_holds rfl ?_ fun other => Store.holds_close other
    dsimp only [call]
    rw [Store.close]
    split <;> rfl
  | closeAll => exact .of_holds rfl rfl fun _ => (Bool.and_false _).symm
  | ask handle q => exact turn_named rfl fun _ => rfl
  | change handle c => exact turn_named rfl fun _ => rfl
  | set handle setting => exact turn_named rfl fun _ => rfl
  | listen on => exact .kept rfl rfl (fun _ => rfl) fun _ => rfl
  | silence on => exact .kept rfl rfl (fun _ => rfl) fun _ => rfl

/-- What is done under one handle leaves the documents under all others as they are. -/
theorem document?_call_of_ne (names : c.handle? = some handle) (ne : other ≠ handle) :
    (s.call patience c).2.store.document? other = s.store.document? other := by
  by_cases stays : c.closes handle = false
  · rcases s.call_named names stays with same | ⟨d, updated⟩
    · rw [same]
    · rw [updated, Store.document?_update_of_ne ne]
  · cases c with
    | close handle =>
      cases names
      dsimp only [call]
      rw [Store.close]
      split
      · rfl
      · exact Store.document?_erase_of_ne ne
    | closeAll => cases names
    | _ => exact absurd rfl stays

/-- A handle under which there is nothing is refused, unless the call is refused already, and nothing
happens. -/
theorem call_of_not_holds (patience : Nat) (unknown : s.store.holds handle = false) (names : c.handle? = some handle) :
    (s.call patience c).1.outcome = .refused (c.early?.getD (.invalidHandle handle)) ∧
      (s.call patience c).2 = s := by
  have none : s.store.document? handle = none := Option.not_isSome_iff_eq_none.mp (by simpa [Store.holds] using unknown)
  cases c with
  | save handle path mode =>
    cases names
    dsimp only [call]
    rw [Store.save, none]
    exact ⟨rfl, rfl⟩
  | close handle =>
    cases names
    dsimp only [call]
    rw [Store.close, none]
    exact ⟨rfl, rfl⟩
  | ask handle q =>
    cases names
    dsimp only [call]
    rw [Store.ask, none]
    exact ⟨rfl, rfl⟩
  | change handle c =>
    cases names
    dsimp only [call]
    rw [Store.change, Call.early?, none]
    cases c.edit with
    | error e => exact ⟨rfl, rfl⟩
    | ok edit => exact ⟨rfl, rfl⟩
  | set handle setting =>
    cases names
    dsimp only [call]
    rw [Store.set, none]
    exact ⟨rfl, rfl⟩
  | _ => cases names

/-- A handle that is held is never refused for itself. -/
theorem inner_of_holds (held : s.store.holds handle = true) (names : c.handle? = some handle) {e : Error}
    (refused : (s.call patience c).1.outcome = .refused e) : e.Inner := by
  obtain ⟨d, found⟩ := Option.isSome_iff_exists.mp held
  cases c with
  | save handle path mode =>
    cases names
    exact Store.inner_of_save found refused
  | close handle =>
    cases names
    dsimp only [call] at refused
    rw [Store.close, found] at refused
    cases refused
  | ask handle q =>
    cases names
    exact Store.inner_of_ask found refused
  | change handle c =>
    cases names
    exact Store.inner_of_change found refused
  | set handle setting =>
    cases names
    exact Store.inner_of_set found refused
  | _ => cases names

/-! ## Runs -/

/-- Whether a handle has been given out in a run, and not been closed since. -/
def InForce (handle : Handle) (log : List (Call × Reply)) : Prop :=
  ∃ before c r after, log = before ++ (c, r) :: after ∧ c.given? r = some handle ∧
    ∀ entry ∈ after, entry.1.closes handle = false

/-- The handles that are given out in a run, in order. -/
def givenOut (log : List (Call × Reply)) : List Handle := log.filterMap fun (c, r) => c.given? r

variable {log : List (Call × Reply)} {r : Reply}

theorem inForce_cons : InForce handle ((c, r) :: log) ↔
    InForce handle log ∨ c.given? r = some handle ∧ ∀ entry ∈ log, entry.1.closes handle = false := by
  constructor
  · rintro ⟨before, c', r', after, split, given, open_⟩
    cases before with
    | nil =>
      cases split
      exact .inr ⟨given, open_⟩
    | cons entry before =>
      cases split
      exact .inl ⟨before, c', r', after, rfl, given, open_⟩
  · rintro (⟨before, c', r', after, rfl, given, open_⟩ | ⟨given, open_⟩)
    · exact ⟨(c, r) :: before, c', r', after, rfl, given, open_⟩
    · exact ⟨[], c, r, log, rfl, given, open_⟩

theorem not_inForce_nil : ¬ InForce handle [] := by
  rintro ⟨before, c, r, after, split, -⟩
  exact absurd split.symm (by simp)

/-- A handle is held at the end of a run if it is in force then, or was held at the beginning and never
closed. -/
theorem holds_run (s : Session) (events : List Event) (handle : Handle) :
    (s.run events).2.store.holds handle = true ↔ InForce handle (s.run events).1 ∨
      s.store.holds handle = true ∧ ∀ entry ∈ (s.run events).1, entry.1.closes handle = false := by
  induction events generalizing s with
  | nil =>
    rw [run]
    simp [not_inForce_nil]
  | cons event events ih =>
    cases event with
    | otherFiles files => exact ih { s with files }
    | call patience c =>
      have turn := s.turn_call patience c
      rw [run]
      dsimp only
      rw [ih, turn.holds, inForce_cons]
      simp only [Bool.or_eq_true, Bool.and_eq_true, List.forall_mem_cons, beq_iff_eq, Bool.not_eq_true']
      tauto

/-- Handles are given out one after the other. -/
theorem givenOut_run (s : Session) (events : List Event) : ∃ count : Nat,
    givenOut (s.run events).1 = (List.range count).map fun i : Nat => s.store.nextHandle + (i : Int) := by
  induction events generalizing s with
  | nil => exact ⟨0, rfl⟩
  | cons event events ih =>
    cases event with
    | otherFiles files => exact ih { s with files }
    | call patience c =>
      have turn := s.turn_call patience c
      obtain ⟨count, rest⟩ := ih (s.call patience c).2
      rw [turn.next] at rest
      rw [run]
      dsimp only
      cases given : c.given? (s.call patience c).1 with
      | none =>
        have skip : givenOut ((c, (s.call patience c).1) :: ((s.call patience c).2.run events).1) =
            givenOut ((s.call patience c).2.run events).1 := List.filterMap_cons_none given
        refine ⟨count, ?_⟩
        rw [skip, rest, given]
        simp
      | some handle =>
        obtain rfl := turn.given handle given
        have first : givenOut ((c, (s.call patience c).1) :: ((s.call patience c).2.run events).1) =
            s.store.nextHandle :: givenOut ((s.call patience c).2.run events).1 := List.filterMap_cons_some given
        refine ⟨count + 1, ?_⟩
        rw [first, rest, given, List.range_succ_eq_map, List.map_cons, List.map_map]
        simp [Function.comp_def, Int.add_assoc, Int.add_comm 1]

/-- In a run from the start, exactly the handles in force are held. -/
theorem holds_start (options : StoreOptions) (files : Files) (events : List Event) (handle : Handle) :
    ((start options files).run events).2.store.holds handle = true ↔
      InForce handle ((start options files).run events).1 := by
  rw [holds_run]
  have nothing : (start options files).store.holds handle = false := rfl
  rw [nothing]
  simp

end Session

/-- Over every run, handles are given out once only, counted from 1. A call that names a handle is never
refused for the handle while this is in force, and always otherwise, unless a number that it comes with has
a bad format; then nothing happens. The documents under all other handles stay as they are in either case. -/
theorem handles_of_run (options : StoreOptions) (files : Files) (events : List Event) :
    let log := ((Session.start options files).run events).1
    let s := ((Session.start options files).run events).2
    (∃ count : Nat, Session.givenOut log = (List.range count).map fun i : Nat => 1 + (i : Int)) ∧
    (Session.givenOut log).Nodup ∧
    ∀ handle patience (c : Call), c.handle? = some handle →
      (Session.InForce handle log →
        ∀ e, (s.call patience c).1.outcome = .refused e → e.code ≠ .invalidHandle) ∧
      (¬ Session.InForce handle log →
        (s.call patience c).2 = s ∧
        ((s.call patience c).1.outcome = .refused (.invalidHandle handle) ∨
          ∃ format flaw, c.early? = some (.badFormat format flaw) ∧
            (s.call patience c).1.outcome = .refused (.badFormat format flaw))) ∧
      ∀ other, other ≠ handle →
        (s.call patience c).2.store.document? other = s.store.document? other := by
  intro log s
  obtain ⟨count, given⟩ := (Session.start options files).givenOut_run events
  refine ⟨⟨count, given⟩, ?_, fun handle patience c names => ⟨fun inForce e refused => ?_, fun lapsed => ?_, ?_⟩⟩
  · rw [given]
    refine List.nodup_range.map fun i j same => ?_
    exact Int.ofNat.inj (Int.add_left_cancel same)
  · have held := (Session.holds_start options files events handle).mpr inForce
    exact fun unknown => absurd (Session.inner_of_holds held names refused) (by rw [Error.Inner, unknown]; decide)
  · have unknown : s.store.holds handle = false :=
      Bool.eq_false_iff.mpr (mt (Session.holds_start options files events handle).mp lapsed)
    obtain ⟨refused, same⟩ := Session.call_of_not_holds patience unknown names
    refine ⟨same, ?_⟩
    cases early : c.early? with
    | none =>
      rw [early] at refused
      exact .inl refused
    | some e =>
      rw [early] at refused
      obtain ⟨format, flaw, rfl⟩ := Call.early?_eq_some early
      exact .inr ⟨format, flaw, rfl, refused⟩
  · exact fun other ne => Session.document?_call_of_ne names ne

/-- Before any document is opened, a number in a bad format is refused for that, whatever the handle. -/
theorem badFormat_of_no_handle :
    let s := Session.start .default ⟨[], []⟩
    let c := Call.change 7 (.updateElement "/a" (.integer 1 (some "%q")))
    ¬ Session.InForce 7 (s.run []).1 ∧
      ∃ e, (s.call 0 c).1.outcome = .refused e ∧ e.code ≠ .invalidHandle := by
  refine ⟨Session.not_inForce_nil, _, rfl, ?_⟩
  decide

end XmlStore
