/-
What lookups return when nothing is remembered. Every node that a lookup
finds belongs to the tree of the document it was asked of.
-/
import XmlStore.Store.Identifiers
import XmlStore.Proofs.Ensures
import XmlStore.Proofs.Selected

namespace XmlStore

namespace Lookup

variable {α β : Type} {o : OpenDocument} {Q : α → Prop} {T : β → Prop} {path : String}

/-- What a lookup returns for a document, if it returns anything. -/
def Yields (o : OpenDocument) (x : Lookup α) (Q : α → Prop) : Prop :=
  Tracked.Ensures (fun _ => True) (x.run o) (fun a _ => Q a) fun _ => True

namespace Yields

theorem pure {a : α} (h : Q a) : Yields o (Pure.pure a) Q := Tracked.Ensures.pure fun _ _ => h

theorem throw {e : Error} : Yields o (MonadExcept.throw e) Q := Tracked.Ensures.throw fun _ _ => trivial

theorem bind {x : Lookup α} {f : α → Lookup β} (hx : Yields o x Q) (hf : ∀ a, Q a → Yields o (f a) T) :
    Yields o (x >>= f) T := by
  rw [Yields, ReaderT.run_bind]
  refine Tracked.Ensures.bind hx fun a => ?_
  intro s messages ha
  exact hf a ha s messages trivial

theorem read {Q : OpenDocument → Prop} (h : Q o) : Yields o MonadReader.read Q :=
  Tracked.Ensures.pure fun _ _ => h

theorem lift {c : Except Error α} (h : ∀ a, c = .ok a → Q a) : Yields o (liftM c) Q :=
  Tracked.Ensures.lift (fun _ _ => trivial) fun a _ _ e => h a e

theorem any {x : Lookup α} : Yields o x fun _ => True := by
  intro s messages _
  split <;> trivial

end Yields

/-- Without a cache, an expression selects what it selects in the document. -/
theorem yields_select (uncached : o.preferences.caching = false) : Yields o (select path) (o.select path = .ok ·) := by
  rw [select]
  refine .bind (.read (Q := (· = o)) rfl) fun d hd => ?_
  subst hd
  have off : ¬ d.preferences.caching = true := by simp [uncached]
  rw [if_neg off]
  refine .bind (Q := (d.select path = .ok ·)) (.lift fun _ selected => selected) fun hits selected => ?_
  dsimp only
  rw [if_neg off]
  exact .pure selected

theorem yields_selectSome (uncached : o.preferences.caching = false) :
    Yields o (selectSome path) (o.select (withoutSlash path) = .ok ·) := by
  rw [selectSome]
  refine .bind (yields_select uncached) fun hits selected => ?_
  dsimp only
  split
  · exact .bind (Q := fun _ => False) .throw fun _ => False.elim
  · exact .pure selected

theorem yields_selectOne (uncached : o.preferences.caching = false) :
    Yields o (selectOne path) fun hit => o.select (withoutSlash path) = .ok [hit] := by
  rw [selectOne]
  refine .bind (yields_selectSome uncached) fun hits selected => ?_
  split
  · exact .pure selected
  · exact .throw

/-- What an expression selects belongs to the tree. -/
theorem attached_of_select {hits : List Hit} (h : o.document.Rooted) (selected : o.select path = .ok hits) :
    ∀ hit ∈ hits, o.document.AttachedHit hit := by
  rw [OpenDocument.select] at selected
  split at selected
  · rename_i items found
    cases selected
    exact Document.attached_select h found
  · cases selected

/-- A node that is the only one at a path, and may have children. -/
structure Finds (o : OpenDocument) (path : String) (id : NodeId) : Prop where
  selected : o.select (withoutSlash path) = .ok [.node id]
  attached : o.document.Attached id
  inner : (o.document.content id).isInner = true

theorem yields_node (h : o.document.Rooted) (uncached : o.preferences.caching = false) :
    Yields o (node path) (Finds o path) := by
  rw [node]
  refine .bind (.read (Q := (· = o)) rfl) fun d hd => ?_
  subst hd
  refine .bind (yields_selectOne uncached) fun hit selected => ?_
  have attached := attached_of_select h selected hit List.mem_cons_self
  rcases hit with id | ⟨owner, index⟩
  · dsimp only
    split
    · rename_i tag e
      exact .pure ⟨selected, attached, by rw [e, Content.isInner]⟩
    · rename_i e
      exact .pure ⟨selected, attached, by rw [e, Content.isInner]⟩
    · exact .throw
  · exact .throw

/-- The element that bears an identifier is the first one that does. -/
theorem yields_withUid {uid : String} : Yields o (withUid uid) (o.document.withUid? uid = some ·) := by
  rw [withUid]
  refine .bind (.read (Q := (· = o)) rfl) fun d hd => ?_
  subst hd
  split
  · rename_i id found
    exact .pure found
  · exact .throw

end Lookup

end XmlStore
