/-
What expressions select. Along an axis, and from step to step, there are only
items of the tree; every step and every union puts them into document order,
each once, and predicates leave items out. So the value of an expression, if it
is a selection at all, lists items of the tree in document order.
-/
import XmlStore.Proofs.InOrder

namespace XmlStore

/-! ## Items of a tree -/

theorem Forest.mem_ranks {α : Type} {f : Forest α} {start n : Nat} (h : n ∈ f.ranks start) :
    n < start + f.size := by
  induction f generalizing start with
  | nil => cases h
  | cons a children rest _ ih =>
    rw [Forest.size]
    rcases List.mem_cons.mp h with rfl | later
    · omega
    · have := ih later
      omega

/-- A row that speaks of the nodes of a tree of a certain size only. -/
structure Row.Fits (size : Nat) (row : Row) : Prop where
  above : ∀ m : Nat, m ∈ row.above → m < size
  children : ∀ m : Nat, m ∈ row.children → m < size
  stop : (row.stop : Nat) ≤ size

namespace Tree

variable {t : Tree} {f : Forest Content} {n m size start : Nat} {above : List Nat}

theorem fits_rowsFrom (inside : ∀ m : Nat, m ∈ above → m < size) (enough : start + f.size ≤ size) :
    ∀ row ∈ rowsFrom above start f, row.Fits size := by
  induction f generalizing above start with
  | nil => exact fun _ h => absurd h List.not_mem_nil
  | cons content children rest ihc ihr =>
    rw [Forest.size] at enough
    have deeper : ∀ m ∈ start :: above, m < size :=
      List.forall_mem_cons.mpr ⟨by omega, inside⟩
    intro row hrow
    rcases List.mem_cons.mp hrow with rfl | others
    · have stop : start + children.size + 1 ≤ size := by omega
      refine ⟨inside, fun m hm => ?_, stop⟩
      have := Forest.mem_ranks hm
      omega
    · rcases List.mem_append.mp others with below | behind
      · exact ihc deeper (by omega) row below
      · exact ihr inside (by omega) row behind

/-- A tree with a document node, whose rows speak of its own nodes only. -/
structure Sound (t : Tree) : Prop where
  nonempty : 0 < t.size
  fits : ∀ row ∈ t.rows, row.Fits t.size

theorem sound_ofForest (f : Forest Content) : (ofForest f).Sound := by
  have size := size_ofForest f
  refine ⟨by omega, fun row hrow => ?_⟩
  rw [size]
  rw [ofForest, List.mem_toArray] at hrow
  rcases List.mem_cons.mp hrow with rfl | below
  · refine ⟨fun _ h => absurd h List.not_mem_nil, fun m hm => ?_, Nat.le_refl _⟩
    have := Forest.mem_ranks hm
    omega
  · refine fits_rowsFrom (fun m hm => ?_) (by omega) row below
    obtain rfl := List.mem_singleton.mp hm
    exact Nat.succ_pos _

/-- Whether an item belongs to a tree. -/
def Has (t : Tree) : Item → Prop
  | .node n => n < t.size
  | .attribute owner index => index < (t.attributes owner).length

theorem lt_size_of_attribute {index : Nat} (h : index < (t.attributes n).length) : n < t.size := by
  by_contra outside
  have none : t.rows[n]? = none := Array.getElem?_eq_none (Nat.le_of_not_lt outside)
  rw [attributes, content?, none] at h
  exact absurd h (Nat.not_lt_zero index)

theorem Has.rank {item : Item} (h : t.Has item) : item.rank < t.size := by
  cases item with
  | node n => exact h
  | «attribute» owner index => exact lt_size_of_attribute h

namespace Sound

variable (h : t.Sound)

include h

theorem has_top : t.Has (.node 0) := h.nonempty

theorem row (n : Rank) : t.rows[n]? = none ∨ ∃ row, t.rows[n]? = some row ∧ row.Fits t.size := by
  cases e : t.rows[n]? with
  | none => exact .inl rfl
  | some row => exact .inr ⟨row, rfl, h.fits row (Array.mem_of_getElem? e)⟩

theorem lt_of_above (hm : m ∈ t.above n) : m < t.size := by
  rw [Tree.above] at hm
  rcases h.row n with e | ⟨row, e, fits⟩
  · rw [e] at hm
    exact absurd hm List.not_mem_nil
  · rw [e] at hm
    exact fits.above m hm

theorem lt_of_children (hm : m ∈ t.children n) : m < t.size := by
  rw [children] at hm
  rcases h.row n with e | ⟨row, e, fits⟩
  · rw [e] at hm
    exact absurd hm List.not_mem_nil
  · rw [e] at hm
    exact fits.children m hm

theorem stop_le (hn : n < t.size) : t.stop n ≤ t.size := by
  rw [stop]
  rcases h.row n with e | ⟨row, e, fits⟩
  · rw [e]
    exact hn
  · rw [e]
    exact fits.stop

theorem lt_of_descendants (hn : n < t.size) (hm : m ∈ t.descendants n) : m < t.size := by
  rw [descendants, List.mem_range'_1] at hm
  have before : m < t.stop n := by omega
  exact Nat.lt_of_lt_of_le before (h.stop_le hn)

theorem lt_of_siblings (hm : m ∈ t.siblings n) : m < t.size := by
  rw [siblings] at hm
  split at hm
  · exact absurd hm List.not_mem_nil
  · exact h.lt_of_children hm

omit h in
theorem lt_of_following (hm : m ∈ t.following n) : m < t.size := by
  rw [following, List.mem_range'_1] at hm
  omega

omit h in
theorem lt_of_preceding (hn : n < t.size) (hm : m ∈ t.preceding n) : m < t.size := by
  rw [preceding, List.mem_reverse, List.mem_filter, List.mem_range] at hm
  omega

omit h in
theorem has_nodes {ranks : List Rank} (inside : ∀ m ∈ ranks, m < t.size) :
    ∀ found ∈ ranks.map Item.node, t.Has found :=
  List.forall_mem_map.mpr inside

omit h in
theorem has_attributeItems (n : Rank) : ∀ found ∈ t.attributeItems n, t.Has found :=
  List.forall_mem_map.mpr fun _ hi => List.mem_range.mp hi

theorem has_nodeAxis (hn : n < t.size) (axis : Axis) : ∀ found ∈ t.nodeAxis n axis, t.Has found := by
  have above : ∀ m ∈ t.above n, m < t.size := fun _ => h.lt_of_above
  have below : ∀ m ∈ t.descendants n, m < t.size := fun _ => h.lt_of_descendants hn
  cases axis with
  | child => exact has_nodes fun _ => h.lt_of_children
  | descendant => exact has_nodes below
  | descendantOrSelf => exact has_nodes (List.forall_mem_cons.mpr ⟨hn, below⟩)
  | parent => exact has_nodes fun m hm => above m (List.mem_of_mem_take hm)
  | ancestor => exact has_nodes above
  | ancestorOrSelf => exact has_nodes (List.forall_mem_cons.mpr ⟨hn, above⟩)
  | followingSibling => exact has_nodes fun _ hm => h.lt_of_siblings (List.mem_filter.mp hm).1
  | precedingSibling =>
    exact has_nodes fun _ hm => h.lt_of_siblings (List.mem_filter.mp (List.mem_reverse.mp hm)).1
  | following => exact has_nodes fun _ => lt_of_following
  | preceding => exact has_nodes fun _ => lt_of_preceding hn
  | attributes => exact has_attributeItems n
  | namespaces => exact fun _ none => absurd none List.not_mem_nil
  | self => exact List.forall_mem_singleton.mpr hn

theorem has_attributeAxis {index : Nat} (here : t.Has (.attribute n index)) (axis : Axis) :
    ∀ found ∈ t.attributeAxis n index axis, t.Has found := by
  have owner : n < t.size := here.rank
  have above : ∀ m ∈ n :: t.above n, m < t.size :=
    List.forall_mem_cons.mpr ⟨owner, fun _ => h.lt_of_above⟩
  have nothing : ∀ found ∈ ([] : List Item), t.Has found := fun _ none => absurd none List.not_mem_nil
  cases axis with
  | self | descendantOrSelf => exact List.forall_mem_singleton.mpr here
  | parent => exact List.forall_mem_singleton.mpr owner
  | ancestor => exact has_nodes above
  | ancestorOrSelf => exact List.forall_mem_cons.mpr ⟨here, has_nodes above⟩
  | following =>
    refine has_nodes fun m hm => ?_
    rcases List.mem_append.mp hm with below | behind
    · exact h.lt_of_descendants owner below
    · exact lt_of_following behind
  | preceding => exact has_nodes fun _ => lt_of_preceding owner
  | child | descendant | followingSibling | precedingSibling | attributes | namespaces => exact nothing

/-- Axes lead from items of a tree to items of the tree. -/
theorem has_axis {item : Item} (here : t.Has item) (axis : Axis) : ∀ found ∈ t.axis axis item, t.Has found := by
  cases item with
  | node n => exact h.has_nodeAxis here axis
  | «attribute» owner index => exact h.has_attributeAxis here axis

end Sound

/-- Items of a tree in document order, each once. -/
structure Lists (t : Tree) (selected : List Item) : Prop where
  has : ∀ item ∈ selected, t.Has item
  ascending : selected.Pairwise fun a b => compare a b = .lt

namespace Lists

variable {selected left right : List Item}

theorem nil : t.Lists [] := ⟨fun _ h => absurd h List.not_mem_nil, .nil⟩

theorem singleton {item : Item} (h : t.Has item) : t.Lists [item] :=
  ⟨List.forall_mem_singleton.mpr h, List.pairwise_singleton ..⟩

theorem sublist (h : t.Lists selected) (fewer : left.Sublist selected) : t.Lists left :=
  ⟨fun item hitem => h.has item (fewer.subset hitem), h.ascending.sublist fewer⟩

theorem ordered (has : ∀ item ∈ selected, t.Has item) : t.Lists (Item.ordered selected) :=
  ⟨fun item hitem => has item ((Item.mem_ordered selected item).mp hitem), Item.pairwise_ordered selected⟩

/-- Two such lists with the same items are the same. -/
theorem eq_of_mem_iff (hl : t.Lists left) (hr : t.Lists right) (same : ∀ item, item ∈ left ↔ item ∈ right) :
    left = right := by
  have nodup {l : List Item} (h : t.Lists l) : l.Nodup :=
    h.ascending.imp fun {a b} less e => by
      rw [e, Std.ReflOrd.compare_self] at less
      cases less
  refine ((List.perm_ext_iff_of_nodup (nodup hl) (nodup hr)).mpr same).eq_of_pairwise
    (fun a b _ _ less less' => ?_) hl.ascending hr.ascending
  exact absurd less' (Std.OrientedCmp.not_lt_of_lt less)

end Lists

end Tree

/-! ## Values -/

/-- A value that lists items of a tree in document order, if it is a selection. -/
def Value.Listed (t : Tree) : Value → Prop
  | .items selected => t.Lists selected
  | _ => True

theorem Value.Listed.of_items? {t : Tree} {v : Value} {selected : List Item} (h : v.Listed t)
    (found : v.items? = .ok selected) : t.Lists selected := by
  cases v with
  | items others =>
    cases found
    exact h
  | _ => cases found

/-- The only selection that is the value of a function is empty. -/
theorem Function.listed_apply {t : Tree} {focus : Focus} {f : Function} {arguments : List Value} {v : Value}
    (applied : f.apply t focus arguments = .ok v) : v.Listed t := by
  cases f with
  | count | localName | name | namespaceUri | sum =>
    obtain ⟨selected, -, returned⟩ := bind_eq_ok.1 applied
    cases returned
    trivial
  | id =>
    cases applied
    exact .nil
  | _ =>
    cases applied
    trivial

/-! ## Evaluation -/

section

variable {env : Env} {e : Expr} {focus : Focus} {items kept found : List Item} {v : Value}

theorem keepFrom_sublist {predicate : Focus → Except PathError Value} {size position : Nat}
    (h : keepFrom predicate size position items = .ok kept) : kept.Sublist items := by
  induction items generalizing position kept with
  | nil =>
    cases h
    exact .slnil
  | cons item items ih =>
    obtain ⟨value, -, h⟩ := bind_eq_ok.1 h
    obtain ⟨rest, hrest, h⟩ := bind_eq_ok.1 h
    cases h
    split
    · exact (ih hrest).cons_cons item
    · exact (ih hrest).cons item

/-- Predicates leave items out. -/
theorem Expr.keep_sublist {predicates : List Expr} (h : Expr.keep env predicates items = .ok kept) :
    kept.Sublist items := by
  induction predicates generalizing items with
  | nil =>
    rw [Expr.keep] at h
    cases h
    exact .refl _
  | cons predicate predicates ih =>
    rw [Expr.keep] at h
    obtain ⟨fewer, hfewer, h⟩ := bind_eq_ok.1 h
    exact (ih h).trans (keepFrom_sublist hfewer)

theorem forall_mem_mapM {α β : Type} {f : α → Except PathError β} {P : β → Prop} {l : List α} {found : List β}
    (h : l.mapM f = .ok found) (each : ∀ a ∈ l, ∀ b, f a = .ok b → P b) : ∀ b ∈ found, P b := by
  induction l generalizing found with
  | nil =>
    rw [List.mapM_nil] at h
    cases h
    exact fun _ none => absurd none List.not_mem_nil
  | cons a l ih =>
    rw [List.mapM_cons] at h
    obtain ⟨b, first, h⟩ := bind_eq_ok.1 h
    obtain ⟨others, hothers, h⟩ := bind_eq_ok.1 h
    cases h
    rw [List.forall_mem_cons] at each
    exact List.forall_mem_cons.mpr ⟨each.1 b first, ih hothers each.2⟩

theorem Step.lists_take {step : Step} (sound : env.tree.Sound) (has : ∀ item ∈ items, env.tree.Has item)
    (h : step.take env items = .ok found) : env.tree.Lists found := by
  obtain ⟨axis, test, predicates⟩ := step
  rw [Step.take] at h
  obtain ⟨uri, -, h⟩ := bind_eq_ok.1 h
  obtain ⟨parts, hparts, h⟩ := bind_eq_ok.1 h
  cases h
  have inside : ∀ part ∈ parts, ∀ item ∈ part, env.tree.Has item := by
    refine forall_mem_mapM hparts fun item hitem part kept found hfound => ?_
    have admitted := (Expr.keep_sublist kept).subset hfound
    exact sound.has_axis (has item hitem) axis found (List.mem_filter.mp admitted).1
  refine .ordered fun item hitem => ?_
  obtain ⟨part, hpart, hitem⟩ := List.mem_flatten.mp hitem
  exact inside part hpart item hitem

theorem Step.lists_walk {steps : List Step} (sound : env.tree.Sound) (start : env.tree.Lists items)
    (h : Step.walk env steps items = .ok found) : env.tree.Lists found := by
  induction steps generalizing items with
  | nil =>
    rw [Step.walk] at h
    cases h
    exact start
  | cons step steps ih =>
    rw [Step.walk] at h
    obtain ⟨next, taken, h⟩ := bind_eq_ok.1 h
    exact ih (step.lists_take sound start.has taken) h

/-- An environment with a tree of its own nodes, in which variables stand for lists of its items. -/
structure Env.Sound (env : Env) : Prop where
  tree : env.tree.Sound
  values : ∀ binding ∈ env.values, binding.2.Listed env.tree

theorem Expr.eval_union_eq_ok {a b : Expr} : (Expr.union a b).eval env focus = .ok v ↔
    ∃ left right, a.eval env focus = .ok (.items left) ∧ b.eval env focus = .ok (.items right) ∧
      v = .items (Item.ordered (left ++ right)) := by
  have of_items? {x : Value} {l : List Item} (h : x.items? = .ok l) : x = .items l := by
    cases x with
    | items others =>
      cases h
      rfl
    | _ => cases h
  rw [Expr.eval]
  constructor
  · intro h
    obtain ⟨left, hleft, h⟩ := bind_eq_ok.1 h
    obtain ⟨l, hl, h⟩ := bind_eq_ok.1 h
    obtain ⟨right, hright, h⟩ := bind_eq_ok.1 h
    obtain ⟨r, hr, h⟩ := bind_eq_ok.1 h
    cases h
    obtain rfl := of_items? hl
    obtain rfl := of_items? hr
    exact ⟨l, r, hleft, hright, rfl⟩
  · rintro ⟨left, right, hleft, hright, rfl⟩
    exact bind_eq_ok.2 ⟨_, hleft, bind_eq_ok.2 ⟨left, rfl, bind_eq_ok.2 ⟨_, hright,
      bind_eq_ok.2 ⟨right, rfl, rfl⟩⟩⟩⟩

/-- Operators have truths and numbers as their values. -/
theorem Expr.listed_binary {t : Tree} {op : BinaryOp} {a b : Expr}
    (h : (Expr.binary op a b).eval env focus = .ok v) : v.Listed t := by
  cases op with
  | or =>
    rw [Expr.eval] at h
    obtain ⟨left, -, h⟩ := bind_eq_ok.1 h
    split at h
    · cases h
      trivial
    · obtain ⟨right, -, h⟩ := bind_eq_ok.1 h
      cases h
      trivial
  | and =>
    rw [Expr.eval] at h
    obtain ⟨left, -, h⟩ := bind_eq_ok.1 h
    split at h
    · obtain ⟨right, -, h⟩ := bind_eq_ok.1 h
      cases h
      trivial
    · cases h
      trivial
  | _ =>
    rw [Expr.eval] at h
    · obtain ⟨left, -, h⟩ := bind_eq_ok.1 h
      obtain ⟨right, -, h⟩ := bind_eq_ok.1 h
      cases h
      trivial
    all_goals
      intro same
      cases same

/-- By recursion on the expression, into those whose value is a selection to go on from. -/
theorem Expr.listed_eval (sound : env.Sound) : (e : Expr) → {focus : Focus} → {v : Value} →
    env.tree.Has focus.item → e.eval env focus = .ok v → v.Listed env.tree
  | .number x, _, _, _, h => by
    rw [Expr.eval] at h
    cases h
    trivial
  | .literal s, _, _, _, h => by
    rw [Expr.eval] at h
    cases h
    trivial
  | .reference name, _, _, _, h => by
    rw [Expr.eval] at h
    split at h
    · rename_i known
      cases h
      obtain ⟨u, w, listed, -⟩ := List.lookup_eq_some_iff.mp known
      exact sound.values (name, _) (by rw [listed]; simp)
    · cases h
  | .binary op a b, _, _, _, h => Expr.listed_binary h
  | .negate a, _, _, _, h => by
    rw [Expr.eval] at h
    obtain ⟨value, -, h⟩ := bind_eq_ok.1 h
    cases h
    trivial
  | .call name arguments, _, _, _, h => by
    rw [Expr.eval] at h
    split at h
    · cases h
    · split at h
      · obtain ⟨values, -, h⟩ := bind_eq_ok.1 h
        exact Function.listed_apply h
      · cases h
  | .path steps, _, _, here, h => by
    rw [Expr.eval] at h
    obtain ⟨found, walked, h⟩ := bind_eq_ok.1 h
    cases h
    exact Step.lists_walk sound.tree (.singleton here) walked
  | .rootPath steps, _, _, _, h => by
    rw [Expr.eval] at h
    obtain ⟨found, walked, h⟩ := bind_eq_ok.1 h
    cases h
    exact Step.lists_walk sound.tree (.singleton sound.tree.has_top) walked
  | .filter base predicates, _, _, here, h => by
    rw [Expr.eval] at h
    obtain ⟨value, evaluated, h⟩ := bind_eq_ok.1 h
    obtain ⟨items, selected, h⟩ := bind_eq_ok.1 h
    obtain ⟨kept, hkept, h⟩ := bind_eq_ok.1 h
    cases h
    exact ((Expr.listed_eval sound base here evaluated).of_items? selected).sublist (Expr.keep_sublist hkept)
  | .pathFrom base steps, _, _, here, h => by
    rw [Expr.eval] at h
    obtain ⟨value, evaluated, h⟩ := bind_eq_ok.1 h
    obtain ⟨items, selected, h⟩ := bind_eq_ok.1 h
    obtain ⟨found, walked, h⟩ := bind_eq_ok.1 h
    cases h
    exact Step.lists_walk sound.tree ((Expr.listed_eval sound base here evaluated).of_items? selected) walked
  | .union a b, _, _, here, h => by
    obtain ⟨left, right, hleft, hright, rfl⟩ := Expr.eval_union_eq_ok.mp h
    have first : env.tree.Lists left := Expr.listed_eval sound a here hleft
    have second : env.tree.Lists right := Expr.listed_eval sound b here hright
    exact Tree.Lists.ordered (List.forall_mem_append.mpr ⟨first.has, second.has⟩)

/-! ## Unions -/

variable {a b c : Expr} {selected : List Item}

/-- Only what the operands select matters, so that they may be exchanged and regrouped. -/
theorem Expr.eval_union_symm (h : (union a b).eval env focus = .ok v) :
    (union b a).eval env focus = .ok v := by
  obtain ⟨left, right, hleft, hright, rfl⟩ := eval_union_eq_ok.mp h
  refine eval_union_eq_ok.mpr ⟨right, left, hright, hleft, ?_⟩
  have same : ∀ item, item ∈ left ++ right ↔ item ∈ right ++ left := fun item => by
    rw [List.mem_append, List.mem_append, or_comm]
  rw [Item.ordered_congr same]

theorem Expr.eval_union_comm :
    (union a b).eval env focus = .ok v ↔ (union b a).eval env focus = .ok v :=
  ⟨eval_union_symm, eval_union_symm⟩

theorem Item.ordered_append_ordered (first second third : List Item) :
    ordered (ordered (first ++ second) ++ third) = ordered (first ++ ordered (second ++ third)) := by
  refine ordered_congr fun item => ?_
  simp only [List.mem_append, mem_ordered, or_assoc]

theorem Expr.eval_union_assoc : (union (union a b) c).eval env focus = .ok v ↔
    (union a (union b c)).eval env focus = .ok v := by
  constructor
  · intro h
    obtain ⟨left, third, hleft, hthird, rfl⟩ := eval_union_eq_ok.mp h
    obtain ⟨first, second, hfirst, hsecond, e⟩ := eval_union_eq_ok.mp hleft
    cases e
    refine eval_union_eq_ok.mpr ⟨first, _, hfirst, eval_union_eq_ok.mpr ⟨second, third, hsecond, hthird, rfl⟩, ?_⟩
    rw [Item.ordered_append_ordered]
  · intro h
    obtain ⟨first, right, hfirst, hright, rfl⟩ := eval_union_eq_ok.mp h
    obtain ⟨second, third, hsecond, hthird, e⟩ := eval_union_eq_ok.mp hright
    cases e
    refine eval_union_eq_ok.mpr ⟨_, third, eval_union_eq_ok.mpr ⟨first, second, hfirst, hsecond, rfl⟩, hthird, ?_⟩
    rw [Item.ordered_append_ordered]

/-- A list of items of the tree in document order is the union of itself with itself. -/
theorem Expr.eval_union_self (sound : env.Sound) (here : env.tree.Has focus.item) :
    (union a a).eval env focus = .ok (.items selected) ↔ a.eval env focus = .ok (.items selected) := by
  have again {l : List Item} (lists : env.tree.Lists l) : Item.ordered (l ++ l) = l := by
    refine (Tree.Lists.ordered ?_).eq_of_mem_iff lists fun item => ?_
    · exact List.forall_mem_append.mpr ⟨lists.has, lists.has⟩
    · rw [Item.mem_ordered, List.mem_append, or_self]
  constructor
  · intro h
    obtain ⟨left, right, hleft, hright, e⟩ := eval_union_eq_ok.mp h
    obtain rfl : right = left := by
      rw [hleft] at hright
      cases hright
      rfl
    have lists : env.tree.Lists right := listed_eval sound a here hleft
    rw [again lists] at e
    rw [hleft, e]
  · intro h
    have lists : env.tree.Lists selected := listed_eval sound a here h
    exact eval_union_eq_ok.mpr ⟨selected, selected, h, h, by rw [again lists]⟩

end

end XmlStore
