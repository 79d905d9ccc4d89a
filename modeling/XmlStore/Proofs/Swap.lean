/-
Exchanging two nodes. First two new nodes are put before the two and these are
removed; then the same is done the other way round. Either half is seen as two
insertions and two removals, which together put two nodes in place of two.
-/
import XmlStore.Proofs.EditLaws

namespace XmlStore

namespace Document

variable {d : Document} {a b p q r s x y : NodeId} {u : List NodeId}

/-- Puts `x` in place of `r`, and `y` in place of `s`. -/
def inPlaceOf (r x s y : NodeId) (c : NodeId) : NodeId := if c = r then x else if c = s then y else c

theorem filter_placedBefore_twice (rs : r ≠ s) (xr : x ≠ r) (xs : x ≠ s) (yr : y ≠ r) (ys : y ≠ s) :
    ((placedBefore s y (placedBefore r x u)).filter (· != r)).filter (· != s) =
      u.map (inPlaceOf r x s y) := by
  induction u with
  | nil => rfl
  | cons c u ih =>
    have step : placedBefore r x (c :: u) =
      (if c = r then [x, c] else [c]) ++ placedBefore r x u := List.flatMap_cons
    rw [step, placedBefore_append, List.filter_append, List.filter_append, ih, List.map_cons]
    by_cases cr : c = r
    · subst cr
      simp [placedBefore, inPlaceOf, *]
    · by_cases cs : c = s
      · subst cs
        simp [placedBefore, inPlaceOf, *]
      · simp [placedBefore, inPlaceOf, *]

theorem edited_insertBefore_twice (h : d.WellLinked)
    (fit_x : ∀ p, d.parent? r = some p → d.Insertable x p)
    (fit_y : ∀ p, d.parent? s = some p → d.Insertable y p ∧ x ∉ d.ancestors p)
    (xy : x ≠ y) (xs : x ≠ s) :
    Edited d ((d.insertBefore r x).insertBefore s y) fun q =>
      placedBefore s y (placedBefore r x (d.children q)) := by
  have first := edited_insertBefore h fit_x
  have parent_eq : ∀ c, c ≠ x → (d.insertBefore r x).parent? c = d.parent? c := fun c hc =>
    first.parent_eq h fun q => by rw [mem_placedBefore]; simp [hc]
  have fit : ∀ p, (d.insertBefore r x).parent? s = some p → (d.insertBefore r x).Insertable y p := by
    intro p hp
    rw [parent_eq s xs.symm] at hp
    obtain ⟨fit, apart⟩ := fit_y p hp
    refine ⟨first.has fit.has, first.has fit.has_place, ?_, ?_⟩
    · rw [parent_eq y xy.symm]
      exact fit.detached
    · rw [h.ancestors_congr first.wellLinked fit.has_place (first.has fit.has_place)
        fun c hc => parent_eq c fun e => apart (e ▸ hc)]
      exact fit.apart
  refine (first.trans (edited_insertBefore first.wellLinked fit)).congr fun q => ?_
  rw [first.children]

/-- Putting two nodes before two others and removing these puts the two in their place. -/
theorem edited_exchange (h : d.WellLinked)
    (fit_x : ∀ p, d.parent? r = some p → d.Insertable x p)
    (fit_y : ∀ p, d.parent? s = some p → d.Insertable y p ∧ x ∉ d.ancestors p)
    (rs : r ≠ s) (xr : x ≠ r) (xs : x ≠ s) (yr : y ≠ r) (ys : y ≠ s) (xy : x ≠ y) :
    (Edited d ((((d.insertBefore r x).insertBefore s y).detach r).detach s) fun q =>
      (d.children q).map (inPlaceOf r x s y)) ∧
    (Edited d ((((d.insertBefore r x).insertBefore s y).detach s).detach r) fun q =>
      (d.children q).map (inPlaceOf r x s y)) := by
  have inserted := edited_insertBefore_twice h fit_x fit_y xy xs
  have removed : ∀ c c', Edited d ((((d.insertBefore r x).insertBefore s y).detach c).detach c')
      fun q => ((placedBefore s y (placedBefore r x (d.children q))).filter (· != c)).filter (· != c') := by
    intro c c'
    have once := inserted.trans (edited_detach_filter (x := c) inserted.wellLinked)
    refine (once.trans (edited_detach_filter once.wellLinked)).congr fun q => ?_
    rw [once.children, inserted.children]
  refine ⟨(removed r s).congr fun q => ?_, (removed s r).congr fun q => ?_⟩
  · exact filter_placedBefore_twice rs xr xs yr ys
  · rw [List.filter_comm]
    exact filter_placedBefore_twice rs xr xs yr ys

/-- What is above one of two nodes that do not contain each other is neither of them. -/
theorem apart_of_not_isAncestor (h : d.WellLinked) (hab : d.isAncestor a b = false)
    (hp : d.parent? b = some p) : a ∉ d.ancestors p ∧ b ∉ d.ancestors p := by
  have above := h.ancestors_eq hp
  constructor
  · intro ha
    simp [isAncestor, above, ha] at hab
  · have nodup := (h.ancestors (has_of_target hp)).nodup
    rw [above] at nodup
    exact (List.nodup_cons.mp nodup).1

variable {ma mb : NodeId} {marked : Document}

/-- Two new nodes put in place of two others. -/
theorem edited_mark (h : d.WellLinked) (ha : d.Has a) (hb : d.Has b) (ab : a ≠ b)
    (start : Edited d marked d.children) (new_a : ¬ d.Has ma) (new_b : ¬ d.Has mb)
    (has_ma : marked.Has ma) (has_mb : marked.Has mb) (marks : ma ≠ mb) :
    Edited d ((((marked.insertBefore a ma).insertBefore b mb).detach a).detach b) fun q =>
      (d.children q).map (inPlaceOf a ma b mb) := by
  have new : ∀ c, d.Has c → ma ≠ c ∧ mb ≠ c := fun c hc =>
    ⟨fun e => new_a (e ▸ hc), fun e => new_b (e ▸ hc)⟩
  have parent_eq : ∀ c, marked.parent? c = d.parent? c := fun c => start.parent_eq h fun _ => Iff.rfl
  have bare : ∀ m p, ¬ d.Has m → marked.Has m → d.Has p → marked.Insertable m p := by
    intro m p new_m has_m hp
    refine insertable_of_bare start.wellLinked has_m ?_ ?_ (start.has hp) fun e => new_m (e ▸ hp)
    · rw [parent_eq, parent?_of_not_has new_m]
    · rw [start.children, children_of_not_has new_m]
  have fit_a : ∀ p, marked.parent? a = some p → marked.Insertable ma p := fun p hp => by
    rw [parent_eq] at hp
    exact bare ma p new_a has_ma (h.has_parent hp)
  have fit_b : ∀ p, marked.parent? b = some p → marked.Insertable mb p ∧ ma ∉ marked.ancestors p :=
    fun p hp => by
      rw [parent_eq] at hp
      exact ⟨bare mb p new_b has_mb (h.has_parent hp), (bare ma p new_a has_ma (h.has_parent hp)).apart⟩
  have exchanged := (edited_exchange start.wellLinked fit_a fit_b ab (new a ha).1 (new b hb).1
    (new a ha).2 (new b hb).2 marks).1
  exact (start.trans exchanged).congr fun q => by rw [start.children]

/-- The two nodes put in place of those that hold their places, the other way round. -/
theorem edited_unmark (h : d.WellLinked) (ha : d.Has a) (hb : d.Has b) (ab : a ≠ b)
    (hab : d.isAncestor a b = false) (hba : d.isAncestor b a = false)
    (new_a : ¬ d.Has ma) (new_b : ¬ d.Has mb) (marks : ma ≠ mb)
    (held : Edited d marked fun q => (d.children q).map (inPlaceOf a ma b mb)) :
    Edited d ((((marked.insertBefore mb a).insertBefore ma b).detach ma).detach mb) fun q =>
      (d.children q).map (Equiv.swap a b) := by
  have new : ∀ c, d.Has c → c ≠ ma ∧ c ≠ mb := fun c hc =>
    ⟨fun e => new_a (e ▸ hc), fun e => new_b (e ▸ hc)⟩
  have present : ∀ c q, c ∈ d.children q → c ≠ ma ∧ c ≠ mb := fun c q hc =>
    new c (h.lists.has_child hc)
  have parent_eq : ∀ c, d.Has c → c ≠ a → c ≠ b → marked.parent? c = d.parent? c := by
    intro c hc ca cb
    refine held.parent_eq h fun q => ?_
    have := new c hc
    grind [inPlaceOf]
  have detached : ∀ c, c = a ∨ c = b → marked.parent? c = none := by
    intro c hc
    by_contra some
    obtain ⟨q, hq⟩ := Option.ne_none_iff_exists'.mp some
    have := held.parent_iff.mp hq
    have := new a ha
    have := new b hb
    grind [inPlaceOf]
  -- Above the two places nothing has changed.
  have above : ∀ p, d.parent? a = some p ∨ d.parent? b = some p →
      marked.Has p ∧ a ∉ marked.ancestors p ∧ b ∉ marked.ancestors p := by
    intro p hp
    have has_p : d.Has p := hp.elim h.has_parent h.has_parent
    obtain ⟨a_above, b_above⟩ : a ∉ d.ancestors p ∧ b ∉ d.ancestors p := by
      rcases hp with hp | hp
      · exact (apart_of_not_isAncestor h hba hp).symm
      · exact apart_of_not_isAncestor h hab hp
    rw [h.ancestors_congr held.wellLinked has_p (held.has has_p) fun c hc =>
      parent_eq c (h.has_ancestor has_p hc) (fun e => a_above (e ▸ hc)) (fun e => b_above (e ▸ hc))]
    exact ⟨held.has has_p, a_above, b_above⟩
  have fit_a : ∀ p, marked.parent? mb = some p → marked.Insertable a p := by
    intro p hp
    have place : b ∈ d.children p := by
      have := present
      have := held.parent_iff.mp hp
      grind [inPlaceOf]
    obtain ⟨has_p, apart, -⟩ := above p (.inr ((h.parent b p).mp place))
    exact ⟨held.has ha, has_p, detached a (.inl rfl), apart⟩
  have fit_b : ∀ p, marked.parent? ma = some p → marked.Insertable b p ∧ a ∉ marked.ancestors p := by
    intro p hp
    have place : a ∈ d.children p := by
      have := present
      have := held.parent_iff.mp hp
      grind [inPlaceOf]
    obtain ⟨has_p, apart_a, apart_b⟩ := above p (.inl ((h.parent a p).mp place))
    exact ⟨⟨held.has hb, has_p, detached b (.inr rfl), apart_b⟩, apart_a⟩
  have exchanged := (edited_exchange held.wellLinked fit_a fit_b marks.symm (new a ha).2 (new a ha).1
    (new b hb).2 (new b hb).1 ab).2
  refine (held.trans exchanged).congr fun q => ?_
  rw [held.children, List.map_map]
  refine List.map_congr_left fun c hc => ?_
  have := present c q hc
  rw [Equiv.swap_apply_def, Function.comp_apply]
  grind [inPlaceOf]

theorem edited_swap (h : d.WellLinked) (ha : d.Has a) (hb : d.Has b)
    (hab : d.isAncestor a b = false) (hba : d.isAncestor b a = false) :
    Edited d (d.swap a b) fun q => (d.children q).map (Equiv.swap a b) := by
  by_cases ab : a = b
  · subst ab
    rw [swap, if_pos rfl]
    exact (Edited.refl h).congr fun q => by rw [Equiv.swap_self]; exact (List.map_id _).symm
  have first := edited_create h (.text "")
  have second := (first.trans (edited_create first.wellLinked (.text ""))).congr first.children
  have new_a : ¬ d.Has ⟨d.size⟩ := Nat.lt_irrefl d.size
  have new_b : ¬ d.Has ⟨d.size + 1⟩ := by simp [Has]
  have marks : (⟨d.size⟩ : NodeId) ≠ ⟨d.size + 1⟩ := by simp
  have held := edited_mark h ha hb ab second new_a new_b
    (by simp only [Has, size_create]; omega) (by simp only [Has, size_create]; omega) marks
  have result := edited_unmark h ha hb ab hab hba new_a new_b marks held
  rw [swap, if_neg ab]
  have next : (d.create (.text "")).2.size = d.size + 1 := size_create _
  rw [← next] at result
  exact result

end Document

end XmlStore
