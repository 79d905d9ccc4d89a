/-
Runs of a store. Every document that is open after any calls, refused ones
included, came about by steps, and its names are spelt.
-/
import XmlStore.Store.Basic
import XmlStore.Proofs.ValueRuns

namespace XmlStore

open Tracked (Ensures)

/-! ## External data -/

namespace External

open Edit (Holding Left left_of_holding)

variable {ids : List NodeId} {d : Document} {reference top : NodeId} {m : Markup} {files : Files}
variable {path : String}

/-- Marking a node leaves it beside the nodes there were. -/
theorem beside_mark {before : Document} {id : NodeId} {marks : List (String × String)}
    (held : d.Holds ids) (beside : before.Beside d id)
    (valid : ∀ mark ∈ marks, isQName mark.1 = true) :
    (marks.foldl (fun d (name, value) => d.setAttribute id name value) d).Holds ids ∧
      before.Beside (marks.foldl (fun d (name, value) => d.setAttribute id name value) d) id := by
  induction marks generalizing d with
  | nil => exact ⟨held, beside⟩
  | cons mark marks ih =>
    rw [List.forall_mem_cons] at valid
    exact ih (held.step (.setAttribute id mark.1 mark.2 valid.1))
      (beside.of_same_links (fun _ _ => Document.target_modifyContent _)
        (Document.size_modifyContent _)) valid.2

theorem holds_insertMarked {marks : List (String × String)} (h : d.Holds ids) (hr : reference ∈ ids)
    (read : m.IsRead) (found : (Document.ofMarkup m).rootElement? = some top)
    (valid : ∀ mark ∈ marks, isQName mark.1 = true) :
    (insertMarked reference marks (.ofMarkup m) top d).Holds ids := by
  have linked := h.rooted.wellLinked
  have copied := Document.copied_graft linked
    ((Document.ofMarkup m).content top) ((Document.ofMarkup m).contents top)
  have grafted := h.step (.graft read (Document.root?_of_rootElement? found))
  obtain ⟨held, beside⟩ := beside_mark grafted copied.beside valid
  refine held.step (.insertBefore (fun p hp => ?_) (copied.beside.ne_root h.rooted))
  rw [beside.parent reference (h.has reference hr)] at hp
  exact beside.insertable linked held.rooted.wellLinked (linked.has_parent hp)

theorem isRead_ofBytes {options : ReadOptions} {bytes : Bytes}
    (read : Markup.ofBytes options bytes = .ok m) : m.IsRead := by
  rw [Markup.ofBytes] at read
  split at read
  · exact ⟨_, _, read⟩
  · cases read

theorem ensures_includeFile {marks : List (String × String)} (hr : reference ∈ ids)
    (valid : ∀ mark ∈ marks, isQName mark.1 = true) :
    Ensures (Holding ids) (includeFile files reference path marks) (fun _ => Holding ids) Left := by
  rw [includeFile]
  split
  · exact .throw left_of_holding
  refine .bind (.get (Q := fun _ => Holding ids) fun o ho => ho) fun o => ?_
  split
  · exact .bind (.report left_of_holding fun o ho _ _ _ => ho) fun _ => .pure fun _ ho => ho
  · rename_i m read
    dsimp only
    split
    · exact .pure fun _ ho => ho
    · rename_i top found
      refine .bind (.modify fun o ho => ?_) fun _ => .pure fun _ ho => ho
      exact holds_insertMarked ho hr (isRead_ofBytes read) found valid

theorem ensures_includeReference (hr : reference ∈ ids) :
    Ensures (Holding ids) (includeReference files reference) (fun _ => Holding ids) Left := by
  rw [includeReference]
  refine .bind Edit.ensures_peek fun d => ?_
  refine .bind Edit.ensures_check fun found => ?_
  refine .bind (.get (Q := fun _ => Holding ids) fun o ho => ho) fun o => ?_
  dsimp only
  split
  · exact .throw left_of_holding
  · refine .bind (.mapM fun name _ => ensures_includeFile hr ?_) fun counts => ?_
    · simp only [List.forall_mem_cons]
      decide
    · exact .bind (Edit.ensures_step fun _ _ => .detach reference) fun _ => .pure fun _ ho => ho

theorem ensures_includeAll {patience : Nat} :
    Ensures (Holding ids) (includeAll files patience) (fun _ => Holding ids) Left := by
  induction patience with
  | zero =>
    rw [includeAll]
    refine .bind Edit.ensures_peek fun d => ?_
    split <;> exact .pure fun _ ho => ho
  | succ patience ih =>
    rw [includeAll]
    refine .bind Edit.ensures_document fun d => ?_
    split
    · exact .pure fun _ ho => ho.1
    · rename_i id found
      have named := List.find?_some found
      have included : Ensures (Holding (id :: ids)) (includeReference files id)
          (fun _ => Holding (id :: ids)) Left := ensures_includeReference List.mem_cons_self
      refine .bind (included.imp ?_ fun _ _ h => h.sub (List.subset_cons_self ..)) fun count => ?_
      · rintro o ⟨ho, rfl⟩
        have attached := Document.attached_descendants ho.rooted (Document.attached_root ho.rooted) id
          (List.mem_of_find?_eq_some found)
        exact ho.cons ⟨attached.has, Content.isInner_of_isNamed named⟩
      · exact .bind ih fun _ => .pure fun _ ho => ho

end External

/-! ## Opening documents -/

namespace OpenDocument

variable {o : StoreOptions} {d : OpenDocument}

theorem sound_create {rootName : String} (created : create o rootName = .ok d) : d.document.Sound := by
  rw [create] at created
  split at created
  · rename_i valid
    cases created
    have rooted := Document.rooted_blank .absent
    have sound := (Document.Sound.empty.advance (.newElement rootName valid)).advance (.rename ⟨1⟩ rootName valid)
    -- The new element stands beside the document node, and still does when it has its name.
    have beside := Document.beside_create (d := .empty) (.element (.named (.ofString rootName)))
    have renamed : Document.empty.Beside
        ((Document.empty.create (.element (.named (.ofString rootName)))).2.rename ⟨1⟩ rootName) ⟨1⟩ :=
      beside.of_same_links (fun _ _ => Document.target_modifyContent _) (Document.size_modifyContent _)
    have fit := renamed.insertable rooted.wellLinked sound.made.rooted.wellLinked rooted.has_root
    exact sound.advance (.insertChildAt 0 fit ⟨fit.has_place, rfl⟩ (beside.ne_root rooted))
  · cases created

theorem sound_importText {markup : String} (imported : importText o markup = .ok d) :
    d.document.Sound := by
  rw [importText] at imported
  split at imported
  · rename_i m read
    cases imported
    exact .read ⟨_, _, read⟩
  · cases imported

theorem returns_readFile {files : Files} {path : String} :
    (readFile o files path).Returns fun d => d.document.Sound := by
  rw [readFile]
  split
  · exact .throw
  · split
    · exact .throw
    · rename_i m read
      exact .bind .any fun _ _ => .pure (.read (External.isRead_ofBytes read))

theorem returns_readFiles {files : Files} {patience : Nat} {path : String} {mode : OpenMode} :
    (readFiles o files patience path mode).Returns fun d => ∀ d' ∈ d, d'.document.Sound := by
  rw [readFiles]
  refine .bind returns_readFile fun d sound => ?_
  cases mode with
  | plain => exact .pure fun _ hd => Option.some.inj hd ▸ sound
  | recursive =>
    have held : Edit.Holding [] d := ⟨sound, by simp⟩
    have included : Ensures (· = d) (External.includeAll files patience)
        (fun _ d => d.document.Sound) Edit.Left :=
      External.ensures_includeAll.imp (fun _ e => e ▸ held) fun _ _ h => h.sound
    refine .bind (Tracked.returns_runOn included) ?_
    rintro ⟨count, d'⟩ sound'
    refine .pure fun d'' hd => ?_
    obtain ⟨n, -, rfl⟩ := Option.map_eq_some_iff.mp hd
    exact sound'

end OpenDocument

/-! ## Calls -/

theorem Reported.Returns.of_finish {α : Type} {c : Reported α} {Q : α → Prop} (h : c.Returns Q)
    {a : α} {messages : List Message} (finished : c.finish = (.ok a, messages)) : Q a := by
  rw [Reported.finish] at finished
  split at finished
  · rename_i returned
    cases finished
    exact h [] a (congrArg Prod.fst returned)
  · cases finished

/-- Whatever comes of a computation, it leaves a state with what it ensures of both outcomes. -/
theorem Tracked.Ensures.of_conclude {σ : Type} {x : Tracked σ Answer} {P R : σ → Prop} {state : σ}
    (h : Ensures P x (fun _ => R) R) (start : P state) : R (Tracked.conclude state x).2 := by
  have result := h state [] start
  rw [Tracked.conclude]
  match e : (x.run.run state).run [] with
  | ((.ok a, s), messages) =>
    rw [e] at result
    exact result
  | ((.error _, s), messages) =>
    rw [e] at result
    exact result

/-- What an answered computation ensures holds of the answer and the state that it leaves. -/
theorem Tracked.Ensures.of_answered {σ : Type} {x : Tracked σ Answer} {P R : σ → Prop} {Q : Answer → σ → Prop}
    {state : σ} {a : Answer} (h : Ensures P x Q R) (start : P state)
    (answered : (conclude state x).1.1 = .answered a) : Q a (conclude state x).2 := by
  have result := h state [] start
  rw [conclude] at answered ⊢
  match e : (x.run.run state).run [] with
  | ((.ok a', s), messages) =>
    rw [e] at result answered
    cases answered
    exact result
  | ((.error _, s), messages) =>
    rw [e] at answered
    cases answered

/-- Every open document is such. -/
def Store.All (P : OpenDocument → Prop) (s : Store) : Prop := ∀ entry ∈ s.documents, P entry.2

/-- A store in which every open document was made by calls. -/
abbrev Store.AllSound : Store → Prop := Store.All fun o => o.document.Sound

/-- A store in which every open document came about by steps. -/
abbrev Store.AllMade : Store → Prop := Store.All fun o => o.document.Made

namespace Store

variable {s : Store} {handle : Handle} {d : OpenDocument} {P : OpenDocument → Prop}

theorem All.of_document? (h : s.All P) (found : s.document? handle = some d) : P d := by
  obtain ⟨u, v, e, -⟩ := List.lookup_eq_some_iff.mp found
  exact h (handle, d) (by rw [e]; simp)

theorem All.insert (h : s.All P) (new : P d) : (s.insert d).All P := by
  intro entry hentry
  rcases List.mem_append.mp hentry with old | added
  · exact h entry old
  · rw [List.mem_singleton.mp added]
    exact new

theorem All.update (h : s.All P) (new : P d) : (s.update handle d).All P := by
  intro entry hentry
  obtain ⟨⟨h', old⟩, hold, rfl⟩ := List.mem_map.mp hentry
  dsimp only
  split
  · exact new
  · exact h (h', old) hold

theorem All.erase (h : s.All P) : (s.erase handle).All P := fun entry hentry =>
  h entry (List.mem_of_mem_filter hentry)

theorem All.add {new : Except Error OpenDocument} (h : s.All P) (new_ok : ∀ d, new = .ok d → P d) :
    (s.add new).2.All P := by
  cases new with
  | ok d => exact h.insert (new_ok d rfl)
  | error e => exact h

theorem All.close (h : s.All P) : (s.close handle).2.All P := by
  rw [Store.close]
  split
  · exact h
  · exact h.erase

theorem All.openFile {files : Files} {patience : Nat} {path : String} {mode : OpenMode}
    (h : s.All P)
    (new : (OpenDocument.readFiles s.options files patience path mode).Returns fun d => ∀ d' ∈ d, P d') :
    (s.openFile files patience path mode).2.All P := by
  rw [Store.openFile]
  split
  · rename_i d messages finished
    exact h.insert (new.of_finish finished d rfl)
  · exact h
  · exact h

theorem All.save {files : Files} {path : String} {mode : SaveMode} (h : s.All P)
    (keeps : ∀ d, P d → P { d with path := some path, status := .saved }) :
    (s.save files handle path mode).2.1.All P := by
  rw [Store.save]
  split
  · exact h
  · rename_i d found
    have old := h.of_document? found
    split
    · exact h
    · exact h.update (keeps d old)

theorem All.ask {q : Question} (h : s.All P) (keeps : ∀ d cache, P d → P { d with cache }) :
    (s.ask handle q).2.All P := by
  rw [Store.ask]
  split
  · exact h
  · rename_i d found
    exact h.update (keeps d _ (h.of_document? found))

theorem All.change {c : Change} (h : s.All P) (keeps : ∀ edit d, c.edit = .ok edit → P d →
    P { d with document := (edit.conclude d).2.document, cache := none }) : (s.change handle c).2.All P := by
  rw [Store.change]
  split
  · exact h
  · rename_i edit accepted
    split
    · exact h
    · rename_i d found
      split
      · exact h
      · exact h.update (keeps edit d accepted (h.of_document? found))

theorem All.set {setting : Setting} (h : s.All P)
    (keeps : ∀ d preferences, P d → P { d with preferences, cache := none }) :
    (s.set handle setting).2.All P := by
  rw [Store.set]
  split
  · exact h
  · rename_i d found
    split <;> exact h.update (keeps d _ (h.of_document? found))

theorem allSound_change {c : Change} (h : s.AllSound) : (s.change handle c).2.AllSound :=
  h.change fun _ d accepted sound =>
    have held : Edit.Holding [] d := ⟨sound, by simp⟩
    (c.ensures_edit accepted).of_conclude held

end Store

namespace Session

/-- A session that calls lead to, whoever else changes files between them. -/
inductive Reachable : Session → Prop where
  | start (options : StoreOptions) (files : Files) : Reachable ⟨.ofOptions options, files⟩
  | call {s : Session} (reachable : Reachable s) (patience : Nat) (c : Call) :
      Reachable (s.call patience c).2
  | otherFiles {s : Session} (reachable : Reachable s) (files : Files) : Reachable { s with files }

/-- One call. -/
theorem allSound_call {s : Session} (h : s.store.AllSound) (patience : Nat) (c : Call) :
    (s.call patience c).2.store.AllSound := by
  cases c with
  | create rootName => exact h.add fun _ => OpenDocument.sound_create
  | importText markup => exact h.add fun _ => OpenDocument.sound_importText
  | openFile path mode => exact h.openFile OpenDocument.returns_readFiles
  | save handle path mode => exact h.save fun _ sound => sound
  | close handle => exact h.close
  | closeAll => exact fun entry hentry => absurd hentry List.not_mem_nil
  | ask handle q => exact h.ask fun _ _ sound => sound
  | change handle c => exact Store.allSound_change h
  | set handle setting => exact h.set fun _ _ sound => sound
  | listen on => exact h
  | silence on => exact h

/-- Any calls. -/
theorem Reachable.allSound {s : Session} (reachable : Reachable s) : s.store.AllSound := by
  induction reachable with
  | start options files => exact fun entry hentry => absurd hentry List.not_mem_nil
  | call _ patience c ih => exact allSound_call ih patience c
  | otherFiles _ files ih => exact ih

theorem Reachable.allMade {s : Session} (reachable : Reachable s) : s.store.AllMade := fun entry hentry =>
  (reachable.allSound entry hentry).made

end Session

end XmlStore
