/-
Runs with and without a cache. Taking the caches out of a store before a call
or after it comes to the same, as long as every cache is right, and calls keep
them right. So the replies to a run do not tell whether anything is remembered.
-/
import XmlStore.Proofs.Handles
import XmlStore.Proofs.Sessions
import XmlStore.Proofs.Uncached

namespace XmlStore

namespace Reported

variable {α β : Type}

theorem run_map (f : α → β) (c : Reported α) (messages : List Message) :
    (f <$> c).run.run messages = ((c.run.run messages).1.map f, (c.run.run messages).2) := by
  rw [ExceptT.run_map, StateT.run_map]
  rfl

theorem finish_map (f : α → β) (c : Reported α) :
    (f <$> c).finish = (c.finish.1.map f, c.finish.2) := by
  rw [finish, finish, run_map]
  rcases c.run.run [] with ⟨_ | a, messages⟩ <;> rfl

end Reported

/-! ## Opening documents -/

/-- The options with caching turned off. -/
abbrev StoreOptions.uncached (o : StoreOptions) : StoreOptions := { o with caching := false }

namespace OpenDocument

variable {o : StoreOptions} {d : OpenDocument} {files : Files} {path : String}

/-- A document whose cache is right. -/
def Right (d : OpenDocument) : Prop := d.Remembers d.cache

theorem right_of_none (h : d.cache = none) : d.Right := by
  rw [Right, h]
  exact remembers_none d

theorem create_uncached (rootName : String) :
    create o.uncached rootName = (create o rootName).map uncached := by
  rw [create, create]
  split <;> rfl

theorem cache_create {rootName : String} (created : create o rootName = .ok d) : d.cache = none := by
  rw [create] at created
  split at created
  · cases created
    rfl
  · cases created

theorem importText_uncached (markup : String) :
    importText o.uncached markup = (importText o markup).map uncached := by
  have same : o.uncached.readOptions = o.readOptions := rfl
  rw [importText, importText, same]
  split <;> rfl

theorem cache_importText {markup : String} (imported : importText o markup = .ok d) :
    d.cache = none := by
  rw [importText] at imported
  split at imported
  · cases imported
    rfl
  · cases imported

theorem readFile_uncached : readFile o.uncached files path = uncached <$> readFile o files path := by
  have same : o.uncached.readOptions = o.readOptions := rfl
  rw [readFile, readFile, same]
  split
  · rfl
  · split
    · rfl
    · rw [map_bind]
      rfl

theorem returns_cache_readFile : (readFile o files path).Returns fun d => d.cache = none := by
  rw [readFile]
  split
  · exact .throw
  · split
    · exact .throw
    · exact .bind .any fun _ _ => .pure rfl

/-- An edit of a document of its own. -/
theorem runOn_uncached {α : Type} {x : Edit α} (h : x.Indifferent) (d : OpenDocument) :
    Tracked.runOn d.uncached x = (fun r => (r.1, r.2.uncached)) <$> Tracked.runOn d x := by
  refine ExceptT.ext (StateT.ext fun messages => ?_)
  have same := h d false none messages
  change (Tracked.runOn d.uncached x).run.run messages =
    ((fun r : α × OpenDocument => (r.1, r.2.uncached)) <$> Tracked.runOn d x).run.run messages
  rw [Reported.run_map, Tracked.run_runOn, Tracked.run_runOn, same]
  rcases (x.run.run d).run messages with ⟨⟨_ | a, d'⟩, messages'⟩ <;> rfl

theorem readFiles_uncached {patience : Nat} {mode : OpenMode} :
    readFiles o.uncached files patience path mode =
      Option.map uncached <$> readFiles o files patience path mode := by
  rw [readFiles, readFiles, readFile_uncached, bind_map_left, map_bind]
  refine congrArg _ (funext fun d => ?_)
  cases mode with
  | plain => rfl
  | recursive =>
    dsimp only
    rw [runOn_uncached External.indifferent_includeAll, bind_map_left, map_bind]
    refine congrArg _ (funext fun r => ?_)
    rw [map_pure, Option.map_map]
    rfl

/-- A document that was just opened has nothing remembered. -/
theorem returns_cache_readFiles {patience : Nat} {mode : OpenMode} :
    (readFiles o files patience path mode).Returns fun d => ∀ d' ∈ d, d'.cache = none := by
  rw [readFiles]
  refine .bind returns_cache_readFile fun d empty => ?_
  cases mode with
  | plain => exact .pure fun _ hd => Option.some.inj hd ▸ empty
  | recursive =>
    refine .bind (Tracked.returns_runOn (External.indifferent_includeAll.keeps d)) ?_
    rintro ⟨count, d'⟩ kept
    refine .pure fun d'' hd => ?_
    obtain ⟨n, -, rfl⟩ := Option.map_eq_some_iff.mp hd
    exact kept.1.trans empty

end OpenDocument

/-! ## Questions, changes and settings -/

namespace OpenDocument

variable {d : OpenDocument}

/-- With a right cache a question comes to the same as without one, and leaves the cache right. -/
theorem conclude_lookup (right : d.Right) (q : Question) :
    Tracked.conclude none (q.lookup.run d.uncached) =
      ((Tracked.conclude d.cache (q.lookup.run d)).1, none) ∧
    d.Remembers (Tracked.conclude d.cache (q.lookup.run d)).2 := by
  have same := q.transparent_lookup d d.preferences.caching d.cache d.cache [] right
  have own : d.recached d.preferences.caching d.cache = d := rfl
  rw [own] at same
  rw [Tracked.conclude, Tracked.conclude]
  rcases e : ((q.lookup.run d).run.run d.cache).run [] with ⟨⟨result, cache⟩, messages⟩
  rw [e] at same
  rw [same.2]
  cases result <;> exact ⟨rfl, same.1⟩

/-- An edit comes to the same without a cache, and leaves the same document. -/
theorem conclude_edit {edit : Edit Answer} (h : edit.Indifferent) (d : OpenDocument) :
    Tracked.conclude d.uncached edit =
      ((Tracked.conclude d edit).1, (Tracked.conclude d edit).2.uncached) := by
  have same := h d false none []
  rw [Tracked.conclude, Tracked.conclude, same]
  rcases (edit.run.run d).run [] with ⟨⟨_ | a, d'⟩, messages⟩ <;> rfl

end OpenDocument

/-- The preferences with caching turned off. -/
abbrev Preferences.uncached (p : Preferences) : Preferences := { p with caching := false }

/-- Whether a setting turns caching on or off. -/
def Setting.isSwitch : Setting → Bool
  | caching _ => true
  | _ => false

theorem Preferences.registerAll_uncached (p : Preferences) (document : Document) :
    p.uncached.registerAll document = uncached <$> p.registerAll document := by
  rw [registerAll, registerAll]
  generalize (document.descendants Document.root).flatMap
    (fun id => (document.content id).bindings) = bindings
  induction bindings generalizing p with
  | nil => rfl
  | cons b bindings ih =>
    rw [List.foldlM_cons, List.foldlM_cons, map_bind]
    obtain ⟨_ | qualifier, uri⟩ := b
    · dsimp only
      rw [bind_assoc, bind_assoc]
      refine congrArg _ (funext fun _ => ?_)
      rw [pure_bind, pure_bind]
      exact ih p
    · dsimp only
      rw [pure_bind, pure_bind]
      split
      · exact ih p
      · exact ih (p.register qualifier uri)

/-- Any other setting does the same with caching turned off. -/
theorem Setting.apply_uncached {setting : Setting} (other : setting.isSwitch = false)
    (document : Document) (p : Preferences) :
    setting.apply document p.uncached = Preferences.uncached <$> setting.apply document p := by
  cases setting with
  | prettyPrint flag =>
    rw [apply, apply]
    split
    · rfl
    · split <;> rfl
  | caching on => cases other
  | registerNamespace uri qualifier =>
    rw [apply, apply, map_bind]
    refine congrArg _ (funext fun _ => ?_)
    rw [map_bind]
    rfl
  | registerAll => exact p.registerAll_uncached document

/-! ## Calls -/

/-- Whether a call turns caching on or off. -/
def Call.isSwitch : Call → Bool
  | set _ setting => setting.isSwitch
  | _ => false

namespace Store

variable {s : Store} {handle : Handle} {d : OpenDocument}

/-- The store with nothing remembered, now or later. -/
def uncached (s : Store) : Store :=
  { s with documents := s.documents.map fun (h, d) => (h, d.uncached), options := s.options.uncached }

/-- A store in which every cache is right. -/
abbrev AllRight : Store → Prop := All OpenDocument.Right

theorem document?_uncached : s.uncached.document? handle = (s.document? handle).map (·.uncached) := by
  rw [document?, document?, uncached]
  generalize s.documents = documents
  dsimp only
  induction documents with
  | nil => rfl
  | cons entry documents ih =>
    rw [List.map_cons, List.lookup_cons, List.lookup_cons, ih]
    cases handle == entry.1 <;> rfl

theorem update_uncached : (s.update handle d).uncached = s.uncached.update handle d.uncached := by
  rw [update, update, uncached, uncached]
  dsimp only
  rw [List.map_map, List.map_map]
  congr 1
  refine List.map_congr_left fun entry _ => ?_
  dsimp only [Function.comp]
  split <;> rfl

theorem insert_uncached : (s.insert d).uncached = s.uncached.insert d.uncached := by
  rw [insert, insert, uncached, uncached]
  dsimp only
  rw [List.map_append]
  rfl

theorem erase_uncached : (s.erase handle).uncached = s.uncached.erase handle := by
  rw [erase, erase, uncached, uncached]
  dsimp only
  rw [List.filter_map]
  rfl

/-- Putting a document back with another cache does not show without caches. -/
theorem update_same (h : s.Numbered) (found : s.document? handle = some d) {d' : OpenDocument}
    (same : d'.uncached = d.uncached) : (s.update handle d').uncached = s.uncached := by
  rw [update, uncached, uncached]
  dsimp only
  rw [List.map_map]
  congr 1
  refine List.map_congr_left fun entry listed => ?_
  dsimp only [Function.comp]
  split
  · rename_i e
    have own : entry.2 = d := h.eq_of_mem found (e ▸ listed)
    rw [same, own]
  · rfl

theorem add_uncached (new : Except Error OpenDocument) :
    s.uncached.add (new.map (·.uncached)) = ((s.add new).1, (s.add new).2.uncached) := by
  cases new with
  | ok d => exact congrArg _ insert_uncached.symm
  | error e => rfl

theorem openFile_uncached (files : Files) (patience : Nat) (path : String) (mode : OpenMode) :
    s.uncached.openFile files patience path mode =
      ((s.openFile files patience path mode).1, (s.openFile files patience path mode).2.uncached) := by
  have options : s.uncached.options = s.options.uncached := rfl
  rw [openFile, openFile, options, OpenDocument.readFiles_uncached, Reported.finish_map]
  rcases (OpenDocument.readFiles s.options files patience path mode).finish with
    ⟨_ | _ | d, messages⟩
  · rfl
  · rfl
  · exact congrArg _ insert_uncached.symm

theorem ask_uncached (right : s.AllRight) (q : Question) :
    s.uncached.ask handle q = ((s.ask handle q).1, (s.ask handle q).2.uncached) := by
  rw [ask, ask, document?_uncached]
  cases e : s.document? handle with
  | none => rfl
  | some d =>
    have same := (OpenDocument.conclude_lookup (right.of_document? e) q).1
    have own : d.uncached.cache = none := rfl
    dsimp only [Option.map_some]
    rw [own, same, update_uncached]
    rfl

theorem change_uncached (c : Change) :
    s.uncached.change handle c = ((s.change handle c).1, (s.change handle c).2.uncached) := by
  rw [change, change, document?_uncached]
  cases accepted : c.edit with
  | error e => rfl
  | ok edit =>
    cases s.document? handle with
    | none => rfl
    | some d =>
      have status : d.uncached.status = d.status := rfl
      dsimp only [Option.map_some]
      rw [status]
      split
      · rfl
      · rw [OpenDocument.conclude_edit (c.indifferent_edit accepted), update_uncached]
        rfl

theorem set_uncached {setting : Setting} (other : setting.isSwitch = false) :
    s.uncached.set handle setting = ((s.set handle setting).1, (s.set handle setting).2.uncached) := by
  rw [set, set, document?_uncached]
  cases s.document? handle with
  | none => rfl
  | some d =>
    dsimp only [Option.map_some]
    have same : setting.apply d.uncached.document d.uncached.preferences = _ :=
      setting.apply_uncached other d.document d.preferences
    rw [same, Reported.finish_map]
    rcases (setting.apply d.document d.preferences).finish with ⟨_ | p, messages⟩
    · dsimp only
      rw [update_uncached]
      rfl
    · dsimp only
      rw [update_uncached]
      rfl

theorem save_uncached (handle : Handle) (files : Files) (path : String) (mode : SaveMode) :
    s.uncached.save files handle path mode =
      ((s.save files handle path mode).1, (s.save files handle path mode).2.1.uncached,
        (s.save files handle path mode).2.2) := by
  rw [save, save, document?_uncached]
  cases s.document? handle with
  | none => rfl
  | some d =>
    have same : External.save d.uncached path mode = External.save d path mode := rfl
    dsimp only [Option.map_some]
    rw [same]
    rcases (External.save d path mode).run.run files with ⟨_ | _, files⟩
    · rfl
    · dsimp only
      rw [update_uncached]
      rfl

theorem close_uncached :
    s.uncached.close handle = ((s.close handle).1, (s.close handle).2.uncached) := by
  rw [close, close, document?_uncached]
  cases s.document? handle with
  | none => rfl
  | some d => exact congrArg _ erase_uncached.symm

/-! The caches stay right. -/

theorem right_ask (right : s.AllRight) (q : Question) : (s.ask handle q).2.AllRight := by
  rw [ask]
  split
  · exact right
  · rename_i d found
    have kept := (OpenDocument.conclude_lookup (right.of_document? found) q).2
    exact right.update (kept.congr rfl rfl)

theorem right_change (right : s.AllRight) (c : Change) : (s.change handle c).2.AllRight := by
  rw [change]
  split
  · exact right
  · split
    · exact right
    · split
      · exact right
      · exact right.update (OpenDocument.right_of_none rfl)

theorem right_set (right : s.AllRight) (setting : Setting) : (s.set handle setting).2.AllRight := by
  rw [set]
  split
  · exact right
  · split
    · exact right.update (OpenDocument.right_of_none rfl)
    · exact right.update (OpenDocument.right_of_none rfl)

/-- Turning caching on or off does not show without caches. -/
theorem set_switch (h : s.Numbered) {setting : Setting} (switch : setting.isSwitch = true) :
    (s.set handle setting).2.uncached = s.uncached := by
  cases setting with
  | caching on =>
    rw [set]
    split
    · rfl
    · rename_i d found
      exact update_same h found rfl
  | prettyPrint => cases switch
  | registerNamespace => cases switch
  | registerAll => cases switch

end Store

/-! ## Runs -/

/-- What happens to a session: a call, or that others change files. -/
inductive Event where
  | call (patience : Nat) (c : Call)
  | otherFiles (files : Files)

/-- Whether it is a call that turns caching on or off. -/
def Event.isSwitch : Event → Bool
  | call _ c => c.isSwitch
  | otherFiles _ => false

namespace Session

variable {s : Session}

/-- A session at its beginning. -/
def start (options : StoreOptions) (files : Files) : Session := ⟨.ofOptions options, files⟩

/-- The calls of a run with the replies to them, and what the run leads to. -/
def run (s : Session) : List Event → List (Call × Reply) × Session
  | [] => ([], s)
  | .call patience c :: events =>
    let (reply, next) := s.call patience c
    let (replies, last) := next.run events
    ((c, reply) :: replies, last)
  | .otherFiles files :: events => run { s with files } events

/-- The session with nothing remembered, now or later. -/
def uncached (s : Session) : Session := { s with store := s.store.uncached }

/-- What holds of the store whenever a call comes. -/
structure Sound (s : Session) : Prop where
  numbered : s.store.Numbered
  right : s.store.AllRight

theorem sound_start (options : StoreOptions) (files : Files) : (start options files).Sound :=
  ⟨Store.numbered_ofOptions options, fun _ listed => absurd listed List.not_mem_nil⟩

theorem right_call (right : s.store.AllRight) (patience : Nat) (c : Call) :
    (s.call patience c).2.store.AllRight := by
  cases c with
  | create rootName =>
    exact right.add fun d created => OpenDocument.right_of_none (OpenDocument.cache_create created)
  | importText markup =>
    exact right.add fun d imported => OpenDocument.right_of_none (OpenDocument.cache_importText imported)
  | openFile path mode =>
    exact right.openFile (OpenDocument.returns_cache_readFiles.imp fun _ empty d hd =>
      OpenDocument.right_of_none (empty d hd))
  | save handle path mode => exact right.save fun d kept => kept.congr rfl rfl
  | close handle => exact right.close
  | closeAll => exact fun _ listed => absurd listed List.not_mem_nil
  | ask handle q => exact Store.right_ask right q
  | change handle c => exact Store.right_change right c
  | set handle setting => exact Store.right_set right setting
  | listen on => exact right
  | silence on => exact right

theorem Sound.call (h : s.Sound) (patience : Nat) (c : Call) : (s.call patience c).2.Sound :=
  ⟨h.numbered.moves (s.moves_call patience c), right_call h.right patience c⟩

/-- Whatever was called before. -/
theorem Reachable.sound {s : Session} (reachable : s.Reachable) : s.Sound := by
  induction reachable with
  | start options files => exact sound_start options files
  | call _ patience c ih => exact ih.call patience c
  | otherFiles _ files ih => exact ⟨ih.numbered, ih.right⟩

/-- A call that has nothing to do with caching comes to the same without caches. -/
theorem call_uncached (h : s.Sound) (patience : Nat) {c : Call} (other : c.isSwitch = false) :
    s.uncached.call patience c = ((s.call patience c).1, (s.call patience c).2.uncached) := by
  have inStore {result after : Reply × Store} (same : result = (after.1, after.2.uncached)) :
      (result.1, Session.mk result.2 s.files) = (after.1, (Session.mk after.2 s.files).uncached) := by
    rw [same]
    rfl
  cases c with
  | create rootName =>
    refine inStore ?_
    rw [← Store.add_uncached, ← OpenDocument.create_uncached]
    rfl
  | importText markup =>
    refine inStore ?_
    rw [← Store.add_uncached, ← OpenDocument.importText_uncached]
    rfl
  | openFile path mode => exact inStore (Store.openFile_uncached s.files patience path mode)
  | save handle path mode =>
    have same := Store.save_uncached (s := s.store) handle s.files path mode
    exact congrArg (fun r : Reply × Store × Files => (r.1, Session.mk r.2.1 r.2.2)) same
  | close handle => exact inStore Store.close_uncached
  | closeAll => rfl
  | ask handle q => exact inStore (Store.ask_uncached h.right q)
  | change handle c => exact inStore (Store.change_uncached c)
  | set handle setting => exact inStore (Store.set_uncached other)
  | listen on => rfl
  | silence on => rfl

/-- A call that turns caching on or off does not show without caches. -/
theorem call_switch (h : s.Sound) (patience : Nat) {c : Call} (switch : c.isSwitch = true) :
    (s.call patience c).2.uncached = s.uncached := by
  cases c with
  | set handle setting =>
    exact congrArg (Session.mk · s.files) (Store.set_switch h.numbered switch)
  | _ => cases switch

/-- The replies to the other calls of a run, and what it leads to, are those of the run without
caches and without the calls about caching. -/
theorem run_uncached (h : s.Sound) (events : List Event) :
    s.uncached.run (events.filter (!·.isSwitch)) =
      ((s.run events).1.filter (!·.1.isSwitch), (s.run events).2.uncached) := by
  induction events generalizing s with
  | nil => rfl
  | cons event events ih =>
    cases event with
    | call patience c =>
      have rest := ih (h.call patience c)
      cases kind : c.isSwitch with
      | true =>
        rw [List.filter_cons_of_neg (by simpa [Event.isSwitch] using kind)]
        rw [← call_switch h patience kind, rest, run]
        simp only
        rw [List.filter_cons_of_neg (by simpa using kind)]
      | false =>
        rw [List.filter_cons_of_pos (by simpa [Event.isSwitch] using kind)]
        rw [run, run, call_uncached h patience kind]
        simp only
        rw [rest, List.filter_cons_of_pos (by simpa using kind)]
    | otherFiles files =>
      have same : Session.Sound { s with files } := ⟨h.numbered, h.right⟩
      exact ih same

end Session

/-- Caching does not show. Whether caching is on at the beginning, and whenever it is turned on or
off, all other calls of a run get the replies that they get without it, and apart from the caches
the run leads to the same documents. -/
theorem caching_unobservable (options : StoreOptions) (files : Files) (events : List Event) :
    let cached := (Session.start options files).run events
    let plain := (Session.start options.uncached files).run (events.filter (!·.isSwitch))
    cached.1.filter (!·.1.isSwitch) = plain.1 ∧ cached.2.uncached = plain.2 := by
  intro cached plain
  have same : plain = (cached.1.filter (!·.1.isSwitch), cached.2.uncached) :=
    Session.run_uncached (Session.sound_start options files) events
  rw [same]
  exact ⟨rfl, rfl⟩

end XmlStore
