/-
The integrity of documents. Every edit of a well linked document keeps it well
linked and does to the lists of children what it is named for; and whatever
calls a store gets, every document that is open is well linked.
-/
import XmlStore.Proofs.Sessions

namespace XmlStore

namespace Document

variable {d : Document}

/-- What the edits of a document do. The node that is put somewhere must be one that may be put
there; of two nodes that are exchanged neither may contain the other. -/
structure EditLaws (d : Document) : Prop where
  create : ∀ content, Edited d (d.create content).2 d.children ∧
    Beside d (d.create content).2 (d.create content).1 ∧
    (d.create content).2.content (d.create content).1 = content
  append : ∀ p x, d.Insertable x p →
    Edited d (d.append p x) (Function.update d.children p (d.children p ++ [x]))
  insertBefore : ∀ r x, (∀ p, d.parent? r = some p → d.Insertable x p) →
    Edited d (d.insertBefore r x) fun q => placedBefore r x (d.children q)
  insertChildAt : ∀ p x place, d.Insertable x p →
    Edited d (d.insertChildAt p x place) (Function.update d.children p
      (if 1 ≤ place ∧ place ≤ (d.children p).length then (d.children p).insertIdx (place - 1) x
        else d.children p ++ [x]))
  replace : ∀ old new, (∀ p, d.parent? old = some p → d.Insertable new p) →
    Edited d (d.replace old new) fun q => (d.children q).map fun c => if c = old then new else c
  detach : ∀ x, Edited d (d.detach x) fun q => (d.children q).erase x
  swap : ∀ a b, d.Has a → d.Has b → d.isAncestor a b = false → d.isAncestor b a = false →
    Edited d (d.swap a b) fun q => (d.children q).map (Equiv.swap a b)
  duplicate : ∀ id, Copied d (d.duplicate id).2 (d.duplicate id).1 (d.content id) (d.contents id) ∧
    (d.duplicate id).2.contents (d.duplicate id).1 = d.contents id
  importFrom : ∀ (source : Document) id,
    Copied d (d.importFrom source id).2 (d.importFrom source id).1 (source.content id)
      (source.contents id) ∧
    (d.importFrom source id).2.contents (d.importFrom source id).1 = source.contents id

theorem WellLinked.editLaws (h : d.WellLinked) : d.EditLaws where
  create content := ⟨edited_create h content, beside_create content, by
    rw [content_create]
    exact if_pos rfl⟩
  append p x fit := edited_append h fit
  insertBefore r x fit := edited_insertBefore h fit
  insertChildAt p x place fit := edited_insertChildAt h fit
  replace old new fit := edited_replace h fit
  detach x := edited_detach h
  swap a b has_a has_b apart apart' := edited_swap h has_a has_b apart apart'
  duplicate id := ⟨copied_graft h _ _, (copied_graft h _ _).contents⟩
  importFrom source id := ⟨copied_graft h _ _, (copied_graft h _ _).contents⟩

end Document

/-- Edits keep documents well linked, and so all documents of all sessions are. -/
theorem integrity : (∀ d : Document, d.WellLinked → d.EditLaws) ∧
    ∀ s : Session, s.Reachable → ∀ handle o, s.store.document? handle = some o →
      o.document.WellLinked :=
  ⟨fun _ h => h.editLaws, fun _ reachable _ _ found =>
    (reachable.allMade.of_document? found).rooted.wellLinked⟩

/-- A text put below the document node, and a store after one call. -/
theorem integrity_of_first_steps :
    ((Document.empty.create (.text "a")).2.append Document.root ⟨1⟩).children Document.root = [⟨1⟩] ∧
    ∃ o, ((Session.mk (.ofOptions .default) ⟨[], []⟩).call 0 (.create "a")).2.store.document? 1 = some o ∧
      o.document.WellLinked := by
  have blank := Document.rooted_blank .absent
  have laws := integrity.1 _ (Document.edited_create blank.wellLinked (.text "a")).wellLinked
  have fit := Document.insertable_create blank.wellLinked blank.has_root (.text "a")
  refine ⟨((laws.append Document.root ⟨1⟩ fit).children Document.root).trans rfl, _, rfl, ?_⟩
  exact integrity.2 _ (.call (.start .default ⟨[], []⟩) 0 (.create "a")) 1 _ rfl

end XmlStore
