/-
What is below a node, as a forest. In a well linked document the number of
levels that `Document.levels` may go down is always enough, so that the forest
of a node is given by its children and their forests.
-/
import XmlStore.Proofs.Links

namespace XmlStore

namespace Document

variable {d d' : Document} {a id : NodeId} {ids : List NodeId} {n m : Nat}

/-- Some nodes with what is below them, as a forest. -/
def forest (d : Document) (ids : List NodeId) : Forest Content :=
  ids.foldr (fun id rest => .cons (d.content id) (d.contents id) rest) .nil

theorem levels_succ (n : Nat) (id : NodeId) : d.levels (n + 1) id =
    (d.children id).foldr (fun child rest => .cons child (d.levels n child) rest) .nil :=
  rfl

/-- A node that is as deep as there are nodes has no children. -/
theorem WellLinked.children_of_deep (h : d.WellLinked) (deep : d.size ≤ (d.ancestors a).length) :
    d.children a = [] := by
  by_contra some
  obtain ⟨c, hc⟩ := List.exists_mem_of_ne_nil _ some
  have hp := (h.parent c a).mp hc
  have bound := length_le_size (h.ancestors (has_of_target hp)).nodup fun b hb =>
    h.has_ancestor (has_of_target hp) hb
  rw [h.ancestors_eq hp, List.length_cons] at bound
  omega

/-- Going further down than there are nodes below makes no difference. The induction is on the
levels still allowed, which together with those above a node are never fewer than the nodes. -/
theorem WellLinked.levels_stable (h : d.WellLinked) (ha : d.Has a)
    (enough : d.size ≤ n + (d.ancestors a).length) : d.levels (n + 1) a = d.levels n a := by
  induction n generalizing a with
  | zero =>
    rw [levels_succ, h.children_of_deep (by omega)]
    rfl
  | succ n ih =>
    rw [levels_succ, levels_succ]
    refine List.foldr_ext _ _ _ fun c hc rest => ?_
    have hp := (h.parent c a).mp hc
    rw [ih (has_of_target hp)]
    rw [h.ancestors_eq hp, List.length_cons]
    omega

/-- There are no more levels below a node than there are nodes. -/
theorem WellLinked.levels_eq_below (h : d.WellLinked) (ha : d.Has a) (enough : d.size ≤ n) :
    d.levels n a = d.below a := by
  induction enough with
  | refl => rfl
  | step enough ih => rw [h.levels_stable ha (Nat.le_add_right_of_le enough), ih]

theorem WellLinked.below_eq (h : d.WellLinked) (ha : d.Has a) : d.below a =
    (d.children a).foldr (fun child rest => .cons child (d.below child) rest) .nil := by
  rw [below, ← h.levels_stable ha (Nat.le_add_right ..)]
  rfl

theorem WellLinked.contents_eq (h : d.WellLinked) (ha : d.Has a) :
    d.contents a = d.forest (d.children a) := by
  rw [contents, h.below_eq ha, forest]
  induction d.children a with
  | nil => rfl
  | cons c rest ih => rw [List.foldr_cons, List.foldr_cons, Forest.map, ih]; rfl

/-- The nodes have these contents and this below them, all in nodes numbered from `n` on. -/
def Shows (d : Document) (n : Nat) : List NodeId → Forest Content → Prop
  | ids, .nil => ids = []
  | ids, .cons content children rest => ∃ id others, ids = id :: others ∧ n ≤ id.index ∧ d.Has id ∧
      d.content id = content ∧ d.Shows n (d.children id) children ∧ d.Shows n others rest

namespace Shows

variable {f : Forest Content}

theorem forest (h : d.WellLinked) (shows_f : d.Shows n ids f) : d.forest ids = f := by
  induction f generalizing ids with
  | nil => rw [shows_f]; rfl
  | cons content children rest ihc ihr =>
    obtain ⟨id, others, rfl, -, has, rfl, below, rest⟩ := shows_f
    have inner := ihc below
    have outer := ihr rest
    rw [← inner, ← outer, ← h.contents_eq has]
    rfl

theorem contents (h : d.WellLinked) (ha : d.Has a) (shows_f : d.Shows n (d.children a) f) :
    d.contents a = f := by
  rw [h.contents_eq ha, shows_f.forest h]

/-- The first of the nodes that holds an element is the first tree of the forest that is one. -/
theorem find? {top : NodeId} (h : d.WellLinked) (shows_f : d.Shows n ids f)
    (found : ids.find? d.isElement = some top) :
    f.find? Content.isElement = some (d.content top, d.contents top) := by
  induction f generalizing ids with
  | nil =>
    rw [shows_f] at found
    cases found
  | cons content children rest _ ih =>
    obtain ⟨id, others, rfl, -, has, rfl, below, rest⟩ := shows_f
    rw [List.find?_cons] at found
    rw [Forest.find?]
    cases e : (d.content id).isElement with
    | true =>
      rw [isElement, e] at found
      obtain rfl := Option.some.inj found
      rw [if_pos rfl, below.contents h has]
    | false =>
      rw [isElement, e] at found
      rw [if_neg Bool.false_ne_true]
      exact ih rest found

/-- Nodes still have the same below them if no list of children of a node from `n` on differs. -/
theorem frame (shows_f : d.Shows n ids f) (low : m ≤ n)
    (same : ∀ a, n ≤ a.index → d.Has a →
      d'.Has a ∧ d'.content a = d.content a ∧ d'.children a = d.children a) : d'.Shows m ids f := by
  induction f generalizing ids with
  | nil => exact shows_f
  | cons content children rest ihc ihr =>
    obtain ⟨id, others, e, new, has, content_id, below, rest⟩ := shows_f
    obtain ⟨has', content', children'⟩ := same id new has
    refine ⟨id, others, e, Nat.le_trans low new, has', content'.trans content_id, ?_, ihr rest⟩
    rw [children']
    exact ihc below

end Shows

end Document

end XmlStore
