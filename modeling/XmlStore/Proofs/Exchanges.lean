/-
Trees exchanged for others. In place of a node that comes last below its
parent, new nodes stand after they have been added behind it and it has been
taken out; in the forest of nodes, and of what they hold, other trees are then
in the place of its tree.
-/
import XmlStore.Proofs.Regrafts

namespace XmlStore

/-! ## The last label of a forest that something holds of -/

namespace Forest

variable {α : Type} {p p' : α → Bool} {a : α} {f g : Forest α}

/-- Among the labels in a forest that `p` holds of, this one comes last; it occurs once. -/
inductive Last (p : α → Bool) (a : α) : Forest α → Prop where
  | here {children rest : Forest α} (holds : p a = true) (noneInside : children.preorder.filter p = [])
      (noneBehind : rest.preorder.filter p = []) (absent : a ∉ rest.preorder) : Last p a (cons a children rest)
  | inside {b : α} {children rest : Forest α} (last : Last p a children) (noneBehind : rest.preorder.filter p = [])
      (ne : b ≠ a) (absent : a ∉ rest.preorder) : Last p a (cons b children rest)
  | behind {b : α} {children rest : Forest α} (last : Last p a rest) (ne : b ≠ a) (absent : a ∉ children.preorder) :
      Last p a (cons b children rest)

theorem Last.of_filter {before : List α} (nodup : f.preorder.Nodup) (h : f.preorder.filter p = before ++ [a]) :
    Last p a f := by
  induction f generalizing before with
  | nil => simp [preorder] at h
  | cons b children rest ihc ihr =>
    obtain ⟨fresh, nodup⟩ := List.nodup_cons.mp nodup
    obtain ⟨nodup_inside, nodup_behind, apart⟩ := List.nodup_append.mp nodup
    have mem_inside (mem : a ∈ children.preorder) : b ≠ a ∧ a ∉ rest.preorder := by
      refine ⟨?_, fun other => apart a mem a other rfl⟩
      rintro rfl
      exact fresh (List.mem_append_left _ mem)
    have mem_behind (mem : a ∈ rest.preorder) : b ≠ a ∧ a ∉ children.preorder := by
      refine ⟨?_, fun other => apart a other a mem rfl⟩
      rintro rfl
      exact fresh (List.mem_append_right _ mem)
    have ends {l : List α} (some : l ≠ []) {front : List α} (e : front ++ l = before ++ [a]) : ∃ l', l = l' ++ [a] := by
      obtain ⟨l', last, rfl⟩ := (List.eq_nil_or_concat' l).resolve_left some
      rw [← List.append_assoc] at e
      exact ⟨l', by rw [List.append_inj_right' e rfl]⟩
    rw [preorder, ← List.singleton_append, List.filter_append, List.filter_append, ← List.append_assoc] at h
    by_cases noneBehind : rest.preorder.filter p = []
    · rw [noneBehind, List.append_nil] at h
      by_cases noneInside : children.preorder.filter p = []
      · rw [noneInside, List.append_nil] at h
        have holds : p b = true := by
          by_contra other
          simp [other] at h
        rw [List.filter_cons_of_pos holds] at h
        obtain rfl : b = a := List.singleton_inj.mp (List.append_inj_right' (show [] ++ [b] = before ++ [a] from h) rfl)
        exact .here holds noneInside noneBehind fun mem => fresh (List.mem_append_right _ mem)
      · obtain ⟨l, e⟩ := ends noneInside h
        have mem : a ∈ children.preorder := List.mem_of_mem_filter (p := p) (by simp [e])
        obtain ⟨ne, absent⟩ := mem_inside mem
        exact .inside (ihc nodup_inside e) noneBehind ne absent
    · obtain ⟨l, e⟩ := ends noneBehind h
      have mem : a ∈ rest.preorder := List.mem_of_mem_filter (p := p) (by simp [e])
      obtain ⟨ne, absent⟩ := mem_behind mem
      exact .behind (ihr nodup_behind e) ne absent

theorem filter_congr (same : ∀ b ∈ f.preorder, b ≠ a → p' b = p b) (absent : a ∉ f.preorder) :
    f.preorder.filter p' = f.preorder.filter p := by
  refine List.filter_congr fun b mem => same b mem ?_
  rintro rfl
  exact absent mem

section

variable [DecidableEq α]

/-- Puts a forest in place of the trees with a certain label. -/
def exchange (a : α) : Forest α → Forest α → Forest α
  | nil, _ => nil
  | cons b children rest, g =>
    if b = a then g ++ rest.exchange a g else cons b (children.exchange a g) (rest.exchange a g)

theorem exchange_of_not_mem (absent : a ∉ f.preorder) : f.exchange a g = f := by
  induction f with
  | nil => rfl
  | cons b children rest ihc ihr =>
    simp only [preorder, List.mem_cons, List.mem_append, not_or] at absent
    obtain ⟨ne, inner, outer⟩ := absent
    rw [exchange, if_neg (Ne.symm ne), ihc inner, ihr outer]

/-- With another tree in place of the last one the others are left. -/
theorem Last.filter_exchange (last : Last p a f) (same : ∀ b ∈ f.preorder, b ≠ a → p' b = p b)
    (new : g.preorder.filter p' = []) : f.preorder.filter p = (f.exchange a g).preorder.filter p' ++ [a] := by
  induction last with
  | @here children rest holds noneInside noneBehind absent =>
    have behind := filter_congr (fun b mem => same b (by simp [preorder, mem])) absent
    rw [exchange, if_pos rfl, exchange_of_not_mem absent, preorder_append, List.filter_append, new, behind, preorder,
      List.filter_cons_of_pos holds, List.filter_append, noneInside, noneBehind]
    rfl
  | @inside b children rest last noneBehind ne absent ih =>
    have behind := filter_congr (fun c mem => same c (by simp [preorder, mem])) absent
    have within := ih fun c mem => same c (by simp [preorder, mem])
    rw [exchange, if_neg ne, exchange_of_not_mem absent, preorder, preorder, List.filter_cons, List.filter_cons,
      same b (by simp [preorder]) ne, List.filter_append, List.filter_append, behind, within, noneBehind]
    split <;> simp
  | @behind b children rest last ne absent ih =>
    have inside := filter_congr (fun c mem => same c (by simp [preorder, mem])) absent
    have later := ih fun c mem => same c (by simp [preorder, mem])
    rw [exchange, if_neg ne, exchange_of_not_mem absent, preorder, preorder, List.filter_cons, List.filter_cons,
      same b (by simp [preorder]) ne, List.filter_append, List.filter_append, inside, later]
    split <;> simp

end

end Forest

namespace Document

variable {d d' : Document} {a id p : NodeId} {ids before : List NodeId} {f : Forest NodeId} {g : Forest Content}

/-! ## Forests of nodes -/

theorem spread_append (d : Document) (u v : List NodeId) : d.spread (u ++ v) = d.spread u ++ d.spread v := by
  induction u with
  | nil => rfl
  | cons a u ih => exact congrArg (Forest.cons a (d.below a)) ih

/-- If all lists of children differ in one node only, so does what is below the nodes. -/
theorem spread_inPlace (h' : d'.WellLinked) (has : ∀ a ∈ f.preorder, a ≠ id → d'.Has a)
    (children : ∀ a ∈ f.preorder, a ≠ id → d'.children a = inPlace id ids (d.children a)) (branches : d.Branches f) :
    d'.spread (inPlace id ids f.roots) = f.exchange id (d'.spread ids) := by
  induction f with
  | nil => rfl
  | cons a below rest ihc ihr =>
    obtain ⟨roots, inner, outer⟩ := branches
    simp only [Forest.preorder, List.mem_cons, List.mem_append] at has children
    have within := ihc (fun b hb => has b (.inr (.inl hb))) (fun b hb => children b (.inr (.inl hb))) inner
    have behind := ihr (fun b hb => has b (.inr (.inr hb))) (fun b hb => children b (.inr (.inr hb))) outer
    rw [Forest.roots, inPlace_cons, spread_append, behind, Forest.exchange]
    by_cases e : a = id
    · rw [if_pos e, if_pos e]
    · rw [if_neg e, if_neg e, ← within, roots, ← children a (.inl rfl) e]
      exact congrArg (Forest.cons a · _) (h'.below_eq (has a (.inl rfl) e))

/-- Where a node is replaced, the forest of nodes has other trees in place of its tree. -/
theorem Replaced.below_root (r : Replaced d d' id g) (h : d.Rooted) (ne : id ≠ root) :
    ∃ ids, (d'.spread ids).map d'.content = g ∧ d'.below root = (d.below root).exchange id (d'.spread ids) := by
  obtain ⟨ids, new, replaced⟩ := r.replaced
  have linked := h.wellLinked
  refine ⟨ids, (map_spread ids).trans new, ?_⟩
  have inside := linked.has_below (a := root)
  rw [← spread_inPlace r.rooted.wellLinked (fun a ha _ => r.has (inside a ha)) (fun a ha => replaced a (inside a ha))
    (linked.branches_below h.has_root), roots_below linked h.has_root, ← replaced root h.has_root ne.symm]
  exact r.rooted.wellLinked.below_eq r.rooted.has_root

/-! ## New nodes behind the last child -/

theorem Shows.le_index {n : Nat} (shows_g : d.Shows n ids g) : ∀ a ∈ ids, n ≤ a.index := by
  induction g generalizing ids with
  | nil =>
    rw [shows_g]
    exact nofun
  | cons content children rest _ ih =>
    obtain ⟨id, others, rfl, new, -, -, -, later⟩ := shows_g
    exact List.forall_mem_cons.mpr ⟨new, ih later⟩

/-- New nodes that have been added behind the last child of a node are in place of it when it is taken out. -/
theorem Grown.replaced (grown : Grown d d' p g) (h : d.Rooted) (last : d.children p = before ++ [id]) :
    Replaced d (d'.detach id) id g := by
  obtain ⟨ids, children_p, shown⟩ := grown.grown
  have linked := h.wellLinked
  have hp : d.parent? id = some p := (linked.parent id p).mp (by simp [last])
  have hid := has_of_target hp
  have rooted := grown.rooted h
  have detached := edited_detach_filter (x := id) grown.wellLinked
  have elsewhere (q : NodeId) (ne : q ≠ p) : id ∉ d'.children q := by
    intro mem
    have hq := (grown.wellLinked.parent id q).mp mem
    rw [grown.parent id hid, hp] at hq
    exact ne (Option.some.inj hq).symm
  have kept (q : NodeId) (ne : q ≠ p) : (d'.detach id).children q = d'.children q := by
    rw [detached.children, filter_eq_inPlace, inPlace_of_not_mem (elsewhere q ne)]
  have has_p : d.Has p := linked.has_parent hp
  have fresh : id ∉ ids := fun mem => Nat.not_le_of_lt hid (shown.le_index id mem)
  have absent : id ∉ before := by
    have nodup := linked.nodup p
    rw [last] at nodup
    exact fun mem => (List.nodup_append.mp nodup).2.2 id mem id (List.mem_singleton.mpr rfl) rfl
  refine { grown.toKeeps.trans detached.toKeeps with
    rooted := detached.rooted rooted fun q mem => rooted.root_top q (List.mem_filter.mp mem).1
    replaced := ⟨ids, ?_, fun q hq ne => ?_⟩ }
  · refine (shown.frame (Nat.le_refl _) fun a new ha => ⟨detached.has ha, detached.content a ha, kept a ?_⟩).forest
      detached.wellLinked
    rintro rfl
    exact Nat.not_le_of_lt has_p new
  · by_cases e : q = p
    · subst e
      rw [detached.children, children_p, last, filter_eq_inPlace, inPlace_append, inPlace_append, inPlace_append,
        inPlace_of_not_mem absent, inPlace_of_not_mem absent, inPlace_of_not_mem fresh, inPlace_cons, inPlace_cons]
      simp [inPlace]
    · rw [kept q e, grown.others q hq e, inPlace_of_not_mem]
      rw [← grown.others q hq e]
      exact elsewhere q e

/-! ## Trees added one after the other -/

theorem addForest_append (f g : Forest Content) (d : Document) :
    addForest p (f ++ g) d = addForest p g (addForest p f d) := by
  induction f generalizing d with
  | nil => rfl
  | cons content children rest _ ih => exact ih _

end Document

end XmlStore
