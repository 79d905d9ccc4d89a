/-
The laws of the edits. Applied to a well linked document, every edit gives a
well linked document, acts on the lists of children as its name says, and
changes nothing else. A node that is put below another must stand alone and
must not contain the place it goes to.
-/
import Mathlib.Logic.Equiv.Basic
import XmlStore.Proofs.Edits

namespace XmlStore

namespace Document

variable {d d' d'' : Document} {L L' : NodeId → List NodeId} {a b p q r x : NodeId}
variable {u v : List NodeId}

/-- The nodes of a document are still there, and hold what they held. -/
structure Keeps (d d' : Document) : Prop where
  size : d.size ≤ d'.size
  content : ∀ a, d.Has a → d'.content a = d.content a
  declaration : d'.declaration = d.declaration

/-- A well linked document whose lists of children are `L`, and which keeps the nodes of another. -/
structure Edited (d d' : Document) (L : NodeId → List NodeId) : Prop extends Keeps d d' where
  wellLinked : d'.WellLinked
  children : ∀ q, d'.children q = L q

/-- A node that may be put below another: it stands alone, and does not contain that place. -/
structure Insertable (d : Document) (x p : NodeId) : Prop where
  has : d.Has x
  has_place : d.Has p
  detached : d.parent? x = none
  apart : x ∉ d.ancestors p

namespace Keeps

theorem refl (d : Document) : Keeps d d := ⟨Nat.le_refl _, fun _ _ => rfl, rfl⟩

theorem has (k : Keeps d d') (ha : d.Has a) : d'.Has a := Nat.lt_of_lt_of_le ha k.size

theorem trans (k : Keeps d d') (k' : Keeps d' d'') : Keeps d d'' where
  size := Nat.le_trans k.size k'.size
  content a ha := (k'.content a (k.has ha)).trans (k.content a ha)
  declaration := k'.declaration.trans k.declaration

theorem create (content : Content) : Keeps d (d.create content).2 where
  size := by simp
  content a ha := by
    have old : a ≠ ⟨d.size⟩ := by
      rintro rfl
      exact Nat.lt_irrefl d.size ha
    rw [content_create, if_neg old]
  declaration := rfl

end Keeps

/-- Two documents with the same nodes, which may be linked differently. -/
structure Relinked (d d' : Document) : Prop where
  size : d'.size = d.size
  content : ∀ a, d'.content a = d.content a
  declaration : d'.declaration = d.declaration

namespace Relinked

theorem refl (d : Document) : Relinked d d := ⟨rfl, fun _ => rfl, rfl⟩

theorem keeps (s : Relinked d d') : Keeps d d' :=
  ⟨Nat.le_of_eq s.size.symm, fun a _ => s.content a, s.declaration⟩

theorem trans (s : Relinked d d') (s' : Relinked d' d'') : Relinked d d'' where
  size := s'.size.trans s.size
  content a := (s'.content a).trans (s.content a)
  declaration := s'.declaration.trans s.declaration

theorem redirect (link : Link) (id : NodeId) (target : Option NodeId) :
    Relinked d (d.redirect link id target) :=
  ⟨size_redirect _, fun _ => content_redirect _, rfl⟩

theorem append : Relinked d (d.append p x) := by
  unfold Document.append
  dsimp only
  split
  · exact (((redirect ..).trans (redirect ..)).trans (redirect ..)).trans (redirect ..)
  · exact ((redirect ..).trans (redirect ..)).trans (redirect ..)

theorem insertBefore : Relinked d (d.insertBefore r x) := by
  unfold Document.insertBefore
  split
  · exact refl d
  · dsimp only
    split
    · exact ((((redirect ..).trans (redirect ..)).trans (redirect ..)).trans (redirect ..)).trans
        (redirect ..)
    · exact (((redirect ..).trans (redirect ..)).trans (redirect ..)).trans (redirect ..)

theorem insertChildAt {place : Nat} : Relinked d (d.insertChildAt p x place) := by
  unfold Document.insertChildAt
  split
  · exact insertBefore
  · exact append

theorem detach : Relinked d (d.detach x) := by
  unfold Document.detach
  split
  · exact refl d
  · dsimp only
    split <;> split <;>
      exact ((((redirect ..).trans (redirect ..)).trans (redirect ..)).trans (redirect ..)).trans
        (redirect ..)

end Relinked

namespace Keeps

theorem append : Keeps d (d.append p x) := Relinked.append.keeps

theorem insertBefore : Keeps d (d.insertBefore r x) := Relinked.insertBefore.keeps

theorem detach : Keeps d (d.detach x) := Relinked.detach.keeps

end Keeps

namespace Edited

theorem congr (e : Edited d d' L) (same : ∀ q, L q = L' q) : Edited d d' L' :=
  { e with children := fun q => (e.children q).trans (same q) }

theorem trans (e : Edited d d' L) (e' : Edited d' d'' L') : Edited d d'' L' :=
  { e.toKeeps.trans e'.toKeeps with wellLinked := e'.wellLinked, children := e'.children }

theorem refl (h : d.WellLinked) : Edited d d d.children :=
  { Keeps.refl d with wellLinked := h, children := fun _ => rfl }

end Edited

/-! ## Documents with the same links -/

theorem Lists.congr (h : d.Lists L) (same : ∀ link a, d'.target link a = d.target link a) :
    d'.Lists L where
  nodup := h.nodup
  parent a p := by rw [← h.parent a p, parent?, same]
  first p := by rw [← h.first p, firstChild?, same]
  last p := by rw [← h.last p, lastChild?, same]
  next a b := by rw [← h.next a b, nextSibling?, same]
  previous a b := by rw [← h.previous a b, previousSibling?, same]

theorem WellLinked.congr (h : d.WellLinked) (same : ∀ link a, d'.target link a = d.target link a) :
    d'.WellLinked ∧ d'.children = d.children := by
  have lists := h.lists.congr same
  refine ⟨lists.wellLinked fun a => ?_, lists.children⟩
  obtain ⟨above, chain⟩ := h.grounded a
  exact ⟨above, chain.congr fun y _ => same .parent y⟩

theorem edited_create (h : d.WellLinked) (content : Content) :
    Edited d (d.create content).2 d.children := by
  have same : ∀ link a, (d.create content).2.target link a = d.target link a := fun _ _ =>
    target_create content
  obtain ⟨wellLinked, children⟩ := h.congr same
  exact { Keeps.create content with wellLinked, children := congrFun children }

/-- A node without parent and children may be put below any other one. -/
theorem insertable_of_bare (h : d.WellLinked) (hx : d.Has x) (detached : d.parent? x = none)
    (childless : d.children x = []) (hp : d.Has p) (ne : x ≠ p) : d.Insertable x p :=
  ⟨hx, hp, detached, h.not_mem_ancestors hp childless ne⟩

theorem parent?_of_not_has (h : ¬ d.Has a) : d.parent? a = none := by
  by_contra some
  obtain ⟨p, hp⟩ := Option.ne_none_iff_exists'.mp some
  exact h (has_of_target hp)

/-! ## One node in and out -/

theorem edited_append (h : d.WellLinked) (fit : d.Insertable x p) :
    Edited d (d.append p x) (Function.update d.children p (d.children p ++ [x])) := by
  have joined := joined_append h fit.has_place fit.has fit.detached
  have lists := h.lists.join (d.children p).append_nil.symm fit.detached joined
  exact { Keeps.append with
    wellLinked := lists.wellLinked (joined.grounded h fit.has_place fit.apart)
    children := congrFun lists.children }

theorem not_has_new : ¬ d.Has ⟨d.size⟩ := Nat.lt_irrefl d.size

/-- A new node may be put below any node that was there. -/
theorem insertable_create (h : d.WellLinked) (hp : d.Has p) (content : Content) :
    (d.create content).2.Insertable ⟨d.size⟩ p := by
  have created := edited_create h content
  refine insertable_of_bare created.wellLinked ?_ ?_ ?_ (created.has hp) ?_
  · rw [Has, size_create]
    exact Nat.lt_succ_self d.size
  · rw [parent?, target_create]
    exact parent?_of_not_has not_has_new
  · rw [created.children, children_of_not_has not_has_new]
  · rintro rfl
    exact not_has_new hp

/-- A new node as the last child. -/
theorem edited_add (h : d.WellLinked) (hp : d.Has p) (content : Content) :
    Edited d ((d.create content).2.append p ⟨d.size⟩)
      (Function.update d.children p (d.children p ++ [⟨d.size⟩])) := by
  have created := edited_create h content
  have appended := edited_append created.wellLinked (insertable_create h hp content)
  exact (created.trans appended).congr fun q => by rw [funext created.children]

/-- A list of children with a node put before another. -/
def placedBefore (reference new : NodeId) (ids : List NodeId) : List NodeId :=
  ids.flatMap fun id => if id = reference then [new, id] else [id]

theorem placedBefore_of_not_mem (h : r ∉ u) : placedBefore r x u = u := by
  induction u with
  | nil => rfl
  | cons a u ih =>
    obtain ⟨ha, hu⟩ := not_or.mp (mt List.mem_cons.mpr h)
    rw [placedBefore, List.flatMap_cons, if_neg (Ne.symm ha)]
    exact congrArg (a :: ·) (ih hu)

theorem placedBefore_append :
    placedBefore r x (u ++ v) = placedBefore r x u ++ placedBefore r x v :=
  List.flatMap_append

theorem placedBefore_mid (hu : r ∉ u) (hv : r ∉ v) :
    placedBefore r x (u ++ r :: v) = u ++ x :: r :: v := by
  rw [placedBefore_append, placedBefore_of_not_mem hu, placedBefore, List.flatMap_cons, if_pos rfl]
  exact congrArg (u ++ x :: r :: ·) (placedBefore_of_not_mem hv)

theorem edited_insertBefore (h : d.WellLinked) (fit : ∀ p, d.parent? r = some p → d.Insertable x p) :
    Edited d (d.insertBefore r x) fun q => placedBefore r x (d.children q) := by
  cases hp : d.parent? r with
  | none =>
    have nowhere : ∀ q, r ∉ d.children q := fun q hq => by simp [(h.parent r q).mp hq] at hp
    have same : d.insertBefore r x = d := by rw [insertBefore, hp]
    rw [same]
    exact (Edited.refl h).congr fun q => (placedBefore_of_not_mem (nowhere q)).symm
  | some p =>
    have fit := fit p hp
    obtain ⟨u, v, place⟩ := List.append_of_mem ((h.parent r p).mpr hp)
    have joined := joined_insertBefore h hp fit.has fit.detached
    rw [(h.siblings place).1] at joined
    have lists := h.lists.join place fit.detached joined
    refine Edited.congr (L := Function.update d.children p (u ++ x :: r :: v))
      { Keeps.insertBefore with
        wellLinked := lists.wellLinked (joined.grounded h fit.has_place fit.apart)
        children := congrFun lists.children } fun q => ?_
    by_cases hq : q = p
    · subst hq
      have nodup := h.nodup q
      rw [place] at nodup
      rw [Function.update_self, place, placedBefore_mid] <;> grind
    · have : r ∉ d.children q := fun hr => hq (h.lists.unique_parent hr ((h.parent r p).mpr hp))
      rw [Function.update_of_ne hq, placedBefore_of_not_mem this]

theorem edited_detach (h : d.WellLinked) :
    Edited d (d.detach x) fun q => (d.children q).erase x := by
  cases hp : d.parent? x with
  | none =>
    have nowhere : ∀ q, x ∉ d.children q := fun q hq => by simp [(h.parent x q).mp hq] at hp
    have same : d.detach x = d := by rw [detach, hp]
    rw [same]
    exact (Edited.refl h).congr fun q => (List.erase_of_not_mem (nowhere q)).symm
  | some p =>
    obtain ⟨u, v, place⟩ := List.append_of_mem ((h.parent x p).mpr hp)
    have parted := parted_detach h hp
    rw [(h.siblings place).1, (h.siblings place).2] at parted
    have lists := h.lists.part place parted
    refine Edited.congr (L := Function.update d.children p (u ++ v))
      { Keeps.detach with
        wellLinked := lists.wellLinked (parted.grounded h)
        children := congrFun lists.children } fun q => ?_
    by_cases hq : q = p
    · subst hq
      have nodup := h.nodup q
      rw [place] at nodup
      rw [Function.update_self, place, List.erase_append_right, List.erase_cons_head]
      grind
    · have : x ∉ d.children q := fun hx => hq (h.lists.unique_parent hx ((h.parent x p).mpr hp))
      rw [Function.update_of_ne hq, List.erase_of_not_mem this]

/-! ## Places counted from one, and nodes in place of others -/

theorem placedBefore_of_getElem? {n : Nat} (nodup : u.Nodup) (h : u[n]? = some r) :
    placedBefore r x u = u.insertIdx n x := by
  induction u generalizing n with
  | nil => simp at h
  | cons a u ih =>
    obtain ⟨ha, nodup⟩ := List.nodup_cons.mp nodup
    rcases n with _ | n
    · obtain rfl : a = r := by simpa using h
      exact placedBefore_mid (u := []) List.not_mem_nil ha
    · rw [List.getElem?_cons_succ] at h
      have ne : a ≠ r := fun e => ha (e ▸ List.mem_of_getElem? h)
      rw [List.insertIdx_succ_cons, ← ih nodup h, placedBefore, List.flatMap_cons, if_neg ne]
      rfl

theorem edited_insertChildAt {n : Nat} (h : d.WellLinked) (fit : d.Insertable x p) :
    Edited d (d.insertChildAt p x n) (Function.update d.children p
      (if 1 ≤ n ∧ n ≤ (d.children p).length then (d.children p).insertIdx (n - 1) x
        else d.children p ++ [x])) := by
  rw [insertChildAt]
  cases e : d.childAt? p n with
  | none =>
    have outside : ¬ (1 ≤ n ∧ n ≤ (d.children p).length) := by
      rcases n with _ | n
      · simp
      · rw [childAt?, List.getElem?_eq_none_iff] at e
        omega
    rw [if_neg outside]
    exact edited_append h fit
  | some r =>
    rcases n with _ | n
    · simp [childAt?] at e
    · rw [childAt?] at e
      have inside := (List.getElem?_eq_some_iff.mp e).1
      have hr : r ∈ d.children p := List.mem_of_getElem? e
      have fits : ∀ q, d.parent? r = some q → d.Insertable x q := fun q hq => by
        rwa [← Option.some.inj (((h.parent r p).mp hr).symm.trans hq)]
      rw [if_pos ⟨by omega, by omega⟩]
      refine (edited_insertBefore h fits).congr fun q => ?_
      by_cases hq : q = p
      · subst hq
        rw [Function.update_self, placedBefore_of_getElem? (h.nodup q) e, Nat.add_sub_cancel]
      · have : r ∉ d.children q := fun hr' => hq (h.lists.unique_parent hr' hr)
        rw [Function.update_of_ne hq, placedBefore_of_not_mem this]

theorem mem_placedBefore : a ∈ placedBefore r x u ↔ a ∈ u ∨ (a = x ∧ r ∈ u) := by
  induction u with
  | nil => simp [placedBefore]
  | cons b u ih =>
    have step : placedBefore r x (b :: u) =
      (if b = r then [x, b] else [b]) ++ placedBefore r x u := List.flatMap_cons
    rw [step, List.mem_append, ih]
    split <;> grind

/-- A node put before another, which is then removed, stands in place of it. -/
theorem filter_placedBefore (new : r ∈ u → x ≠ r) :
    (placedBefore r x u).filter (· != r) = u.map fun a => if a = r then x else a := by
  induction u with
  | nil => rfl
  | cons b u ih =>
    have step : placedBefore r x (b :: u) =
      (if b = r then [x, b] else [b]) ++ placedBefore r x u := List.flatMap_cons
    rw [step, List.filter_append, ih fun hr => new (List.mem_cons_of_mem b hr), List.map_cons]
    by_cases e : b = r
    · subst e
      have ne := new List.mem_cons_self
      simp [ne]
    · simp [e]

theorem edited_detach_filter (h : d.WellLinked) :
    Edited d (d.detach x) fun q => (d.children q).filter (· != x) :=
  (edited_detach h).congr fun q => (h.nodup q).erase_eq_filter x

theorem edited_replace {old new : NodeId} (h : d.WellLinked)
    (fit : ∀ p, d.parent? old = some p → d.Insertable new p) :
    Edited d (d.replace old new) fun q => (d.children q).map fun c => if c = old then new else c := by
  have inserted := edited_insertBefore h fit
  refine (inserted.trans (edited_detach_filter inserted.wellLinked)).congr fun q => ?_
  rw [inserted.children, filter_placedBefore]
  intro hq e
  have hp := (h.parent old q).mp hq
  have detached := (fit q hp).detached
  rw [e, hp] at detached
  cases detached

theorem Edited.parent_iff (e : Edited d d' L) : d'.parent? a = some p ↔ a ∈ L p := by
  rw [← e.children, e.wellLinked.parent]

/-- A node has the parent it had if it is still in the same list of children. -/
theorem Edited.parent_eq (e : Edited d d' L) (h : d.WellLinked)
    (same : ∀ q, a ∈ L q ↔ a ∈ d.children q) : d'.parent? a = d.parent? a := by
  ext q
  rw [e.parent_iff, same, h.parent]

/-- A node that comes to stand behind the children of another leaves the others where they are. -/
theorem Edited.parent_eq_of_appended (e : Edited d d' (Function.update d.children p (d.children p ++ [x])))
    (h : d.WellLinked) (ne : a ≠ x) : d'.parent? a = d.parent? a := by
  refine e.parent_eq h fun q => ?_
  by_cases hq : q = p
  · subst hq
    rw [Function.update_self]
    simp [ne]
  · rw [Function.update_of_ne hq]

theorem parent?_add (h : d.WellLinked) (hp : d.Has p) (content : Content) (ha : d.Has a) :
    ((d.create content).2.append p ⟨d.size⟩).parent? a = d.parent? a :=
  (edited_add h hp content).parent_eq_of_appended h fun e => not_has_new (e ▸ ha)

end Document

end XmlStore
