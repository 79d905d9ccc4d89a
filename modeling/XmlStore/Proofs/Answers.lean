/-
Calls that are known to be answered. A lookup comes to the same whatever is
remembered, so that it is enough to know what it comes to when nothing is. An
edit that cannot fail from the document it is applied to gives an answered
call, if the document may still be changed.
-/
import XmlStore.Proofs.CacheRuns
import XmlStore.Proofs.Identified

namespace XmlStore

open Tracked (Ensures)

theorem eq_ok_of_toOption {ε α : Type} {result : Except ε α} {a : α} (h : result.toOption = some a) :
    result = .ok a := by
  cases result with
  | ok b => exact congrArg _ (Option.some.inj h)
  | error e => cases h

/-! ## Lookups -/

namespace Lookup

variable {α β : Type} {o : OpenDocument} {path : String} {hits : List Hit} {p : NodeId}

/-- With nothing remembered, the lookup returns or fails like this, and gives off no messages. -/
def ComesTo (o : OpenDocument) (x : Lookup α) (result : Except Error α) : Prop :=
  ∀ messages, ((x.run o.uncached).run.run none).run messages = ((result, none), messages)

namespace ComesTo

theorem pure (a : α) : ComesTo o (Pure.pure a) (.ok a) := fun _ => rfl

theorem throw (e : Error) : ComesTo o (MonadExcept.throw e : Lookup α) (.error e) := fun _ => rfl

theorem bind {x : Lookup α} {f : α → Lookup β} {a : α} {result : Except Error β} (first : ComesTo o x (.ok a))
    (second : ComesTo o (f a) result) : ComesTo o (x >>= f) result := by
  intro messages
  rw [ReaderT.run_bind, ExceptT.run_bind, StateT.run_bind, StateT.run_bind, first messages]
  exact second messages

theorem stop {x : Lookup α} {f : α → Lookup β} {e : Error} (first : ComesTo o x (.error e)) :
    ComesTo o (x >>= f) (.error e) := by
  intro messages
  rw [ReaderT.run_bind, ExceptT.run_bind, StateT.run_bind, StateT.run_bind, first messages]
  rfl

theorem reading {f : OpenDocument → Lookup α} {result : Except Error α}
    (h : ComesTo o (f o.uncached) result) : ComesTo o (read >>= f) result := h

/-- The result may be put in place of that of a lookup that it does not depend on. -/
theorem answer {x : Lookup α} {result : Except Error α} (h : ComesTo o x result) (b : β) :
    ComesTo o (x >>= fun _ => Pure.pure b) (result.map fun _ => b) := by
  cases result with
  | ok a => exact h.bind (.pure b)
  | error e => exact h.stop

theorem discard {x : Lookup α} {result : Except Error α} (h : ComesTo o x result) :
    ComesTo o (Functor.discard x) (result.map fun _ => ()) := by
  have as_bind : Functor.discard x = x >>= fun _ => Pure.pure () := (bind_pure_comp _ x).symm
  rw [as_bind]
  exact h.answer ()

theorem forM {l : List α} {f : α → Lookup Unit} (h : ∀ a ∈ l, ComesTo o (f a) (.ok ())) :
    ComesTo o (l.forM f) (.ok ()) := by
  induction l with
  | nil => exact .pure ()
  | cons a l ih =>
    rw [List.forall_mem_cons] at h
    exact h.1.bind (ih h.2)

theorem mapM {l : List α} {f : α → Lookup β} {results : List β}
    (h : List.Forall₂ (fun a b => ComesTo o (f a) (.ok b)) l results) : ComesTo o (l.mapM f) (.ok results) := by
  induction h with
  | nil =>
    rw [List.mapM_nil]
    exact .pure []
  | cons first _ ih =>
    rw [List.mapM_cons]
    exact first.bind (ih.bind (.pure _))

end ComesTo

theorem comesTo_select : ComesTo o (select path) (o.select path) := fun messages =>
  run_select_off o none none messages

theorem comesTo_selectSome (selected : o.select (withoutSlash path) = .ok hits) (some : hits ≠ []) :
    ComesTo o (selectSome path) (.ok hits) := by
  have first : ComesTo o (select (withoutSlash path)) (.ok hits) := selected ▸ comesTo_select
  refine first.bind ?_
  rw [if_neg (by simpa using some)]
  exact .pure hits

theorem comesTo_selectOne {hit : Hit} (selected : o.select (withoutSlash path) = .ok [hit]) :
    ComesTo o (selectOne path) (.ok hit) :=
  (comesTo_selectSome selected (List.cons_ne_nil hit [])).bind (.pure hit)

/-- The only node at a path, below which others may be put. -/
theorem comesTo_node (selected : o.select (withoutSlash path) = .ok [.node p])
    (inner : (o.document.content p).isInner = true) : ComesTo o (node path) (.ok p) := by
  refine .reading ((comesTo_selectOne selected).bind ?_)
  dsimp only [OpenDocument.recached_document]
  cases content : o.document.content p with
  | element | document => exact .pure p
  | _ =>
    rw [content] at inner
    cases inner

/-- Several nodes or attributes at a path are too many. -/
theorem comesTo_node_ambiguous (selected : o.select (withoutSlash path) = .ok hits) (several : 1 < hits.length) :
    ComesTo o (node path) (.error (.pathNotUnique (withoutSlash path) hits.length)) := by
  have found := comesTo_selectSome selected (List.ne_nil_of_length_pos (Nat.zero_lt_of_lt several))
  have one : ComesTo o (selectOne path) (.error (.pathNotUnique (withoutSlash path) hits.length)) := by
    refine found.bind ?_
    match hits, several with
    | _ :: _ :: _, _ => exact .throw _
  exact .reading one.stop

end Lookup

/-! ## Edits -/

namespace Edit

variable {α : Type} {o : OpenDocument} {path : String} {p : NodeId}

theorem ensures_own {R : OpenDocument → Prop} :
    Ensures (· = o) document (fun d u => u = o ∧ d = o.document) R :=
  ensures_document.imp (fun _ h => h) fun _ _ h => ⟨h.1, h.2.symm.trans (congrArg _ h.1)⟩

theorem ensures_comesTo {question : Lookup α} {a : α} (transparent : question.Transparent)
    (comes : question.ComesTo o (.ok a)) :
    Ensures (· = o) (look question) (fun b u => u = o ∧ b = a) fun _ => False := by
  rintro _ messages rfl
  rename_i o
  have same := transparent o false o.cache none messages o.remembers_none
  rw [run_look]
  rcases e : ((question.run (o.recached false o.cache)).run.run none).run messages with ⟨⟨result, cache⟩, messages'⟩
  rw [e] at same
  have ended := same.2.symm.trans (comes messages)
  obtain rfl : result = .ok a := congrArg (·.1.1) ended
  exact ⟨rfl, rfl⟩

/-- Where there is one node at a path, below which others may be put, it is found. -/
theorem ensures_found (selected : o.select (Lookup.withoutSlash path) = .ok [.node p])
    (inner : (o.document.content p).isInner = true) :
    Ensures (· = o) (look (Lookup.node path)) (fun id u => u = o ∧ id = p) fun _ => False :=
  ensures_comesTo Lookup.transparent_node (Lookup.comesTo_node selected inner)

end Edit

/-! ## Calls -/

/-- A computation that cannot fail is answered. -/
theorem Tracked.Ensures.answers {σ : Type} {x : Tracked σ Answer} {P Q : σ → Prop} {state : σ} {a : Answer}
    (h : Ensures P x (fun b u => b = a ∧ Q u) fun _ => False) (start : P state) :
    (conclude state x).1.1 = .answered a := by
  have result := h state [] start
  rw [conclude]
  generalize (x.run.run state).run [] = final at result ⊢
  obtain ⟨⟨_ | b, u⟩, messages⟩ := final
  · exact result.elim
  · exact congrArg _ result.1

/-- What is reported of a result. -/
def Outcome.ofResult : Except Error Answer → Outcome
  | .ok a => .answered a
  | .error e => .refused e

namespace Session

variable {s : Session} {handle : Handle} {o : OpenDocument}

/-- An edit that cannot fail is answered, and of the open document it changes nothing but the document itself. -/
theorem answered_of_ensures {c : Change} {edit : Edit Answer} {a : Answer} {Q : Document → Prop}
    (found : s.store.document? handle = some o) (editable : o.status = .editable) (accepted : c.edit = .ok edit)
    (ensures : Ensures (· = o) edit (fun b u => b = a ∧ Q u.document) fun _ => False) (patience : Nat) :
    (s.call patience (.change handle c)).1.outcome = .answered a ∧
      ∃ d, (s.call patience (.change handle c)).2.store.document? handle =
        some { o with document := d, cache := none } ∧ Q d := by
  have unsaved : o.status ≠ .saved := by simp [editable]
  have answered : (s.call patience (.change handle c)).1.outcome = .answered a := by
    dsimp only [call]
    rw [Store.change, accepted, found]
    dsimp only
    rw [if_neg unsaved]
    exact ensures.answers rfl
  obtain ⟨d, found', -, ensured⟩ := kept_of_answered (Q := fun b d => b = a ∧ Q d) found accepted ensures answered
  exact ⟨answered, d, found', ensured⟩

/-- If what is remembered is right, a question is answered as if nothing ever were. -/
theorem gives_of_comesTo {q : Question} {result : Except Error Answer} (found : s.store.document? handle = some o)
    (right : o.Right) (comes : q.lookup.ComesTo o result) : s.Gives handle q (.ofResult result) := by
  refine gives_of_conclude found ?_
  have same := congrArg (·.1.1) (OpenDocument.conclude_lookup right q).1
  rw [Tracked.conclude, comes []] at same
  rw [← same]
  cases result <;> rfl

theorem gives_checkElement {path : String} {result : Except Error NodeId} (found : s.store.document? handle = some o)
    (right : o.Right) (comes : (Lookup.node path).ComesTo o result) :
    s.Gives handle (.checkElement path) (.ofResult (result.map fun _ => .done)) := by
  have asked := gives_of_comesTo (q := .checkElement path) found right (comes.discard.answer Answer.done)
  cases result <;> exact asked

end Session

end XmlStore
