/-
Document order. Following the links from a node to the next one in document
order lists what is below it in the order of the forest, so that the ranks of
a tree stand for the nodes of its document.
-/
import XmlStore.Document.Select
import XmlStore.Proofs.Below

namespace XmlStore

namespace Forest

variable {α β : Type}

theorem size_map (g : α → β) (f : Forest α) : (f.map g).size = f.size := by
  induction f with
  | nil => rfl
  | cons a children rest ihc ihr => rw [Forest.map, Forest.size, Forest.size, ihc, ihr]

theorem ranks_map (g : α → β) (f : Forest α) (start : Rank) :
    (f.map g).ranks start = f.ranks start := by
  induction f generalizing start with
  | nil => rfl
  | cons a children rest ihc ihr => rw [Forest.map, Forest.ranks, Forest.ranks, ihr, size_map]

end Forest

namespace Document

variable {d : Document} {a c p top : NodeId} {ids u v : List NodeId} {n : Nat}

/-! ## What is behind a node -/

/-- Trying more nodes than there are above makes no difference. -/
theorem WellLinked.behind_stable (h : d.WellLinked) (ha : d.Has a)
    (enough : (d.ancestors a).length ≤ n) : d.behind top (n + 1) a = d.behind top n a := by
  induction n generalizing a with
  | zero =>
    have above := List.length_eq_zero_iff.mp (Nat.le_zero.mp enough)
    have := (h.ancestors ha).head?_eq
    rw [above] at this
    cases this
  | succ n ih =>
    rw [behind, behind.eq_def d top (n + 1) a]
    dsimp only
    cases d.nextSibling? a with
    | some sibling => rfl
    | none =>
      cases hp : d.parent? a with
      | none => rfl
      | some p =>
        rw [h.ancestors_eq hp, List.length_cons] at enough
        dsimp only [Option.bind]
        rw [ih (h.has_parent hp) (by omega)]

/-- The first node behind what is below a node, unless that is not below `top` any more. -/
def outside (d : Document) (top p : NodeId) : Option NodeId :=
  if p = top then none else d.behind top d.size p

/-- Behind a child come the later children, and then what is behind their parent. -/
theorem WellLinked.behind_child (h : d.WellLinked) (place : d.children p = u ++ c :: v) :
    d.behind top d.size c = v.head?.or (d.outside top p) := by
  have hc : c ∈ d.children p := by simp [place]
  have hp := (h.parent c p).mp hc
  have has_c : d.Has c := has_of_target hp
  obtain ⟨n, hn⟩ : ∃ n, d.size = n + 1 := ⟨d.size - 1, by
    rw [Has] at has_c
    omega⟩
  have bound := length_le_size (h.ancestors has_c).nodup fun b hb => h.has_ancestor has_c hb
  rw [h.ancestors_eq hp, List.length_cons, hn] at bound
  rw [outside, hn, h.behind_stable (h.has_parent hp) (by omega), behind, (h.siblings place).2, hp]
  cases v with
  | nil => rfl
  | cons => rfl

/-! ## Descendants -/

/-- Children from one on, with what is below them, as a forest. -/
def spread (d : Document) (ids : List NodeId) : Forest NodeId :=
  ids.foldr (fun child rest => .cons child (d.below child) rest) .nil

/-- The order goes through what is below some later children of `p` and then on behind `p`. The
induction is on the levels that are left below `p`, and for each on the children. -/
theorem WellLinked.chain_spread (h : d.WellLinked) (has_p : d.Has p) (below : top ∈ d.ancestors p)
    (enough : d.size ≤ n + (d.ancestors p).length) (place : d.children p = u ++ v)
    (later : Chain (d.successor? top) (d.outside top p) ids) :
    Chain (d.successor? top) (v.head?.or (d.outside top p)) ((d.spread v).preorder ++ ids) := by
  induction n generalizing p u v ids with
  | zero =>
    rw [h.children_of_deep (by omega)] at place
    obtain ⟨-, rfl⟩ := List.append_eq_nil_iff.mp place.symm
    exact later
  | succ n ih =>
    induction v generalizing u with
    | nil => exact later
    | cons c v ihv =>
      have hp := (h.parent c p).mp (by rw [place]; simp)
      have has_c : d.Has c := has_of_target hp
      have others := ihv (u := u ++ [c]) (by rw [place, List.append_assoc]; rfl)
      have ne : c ≠ top := by
        rintro rfl
        have nodup := (h.ancestors has_c).nodup
        rw [h.ancestors_eq hp, List.nodup_cons] at nodup
        exact nodup.1 below
      have outside_c : d.outside top c = v.head?.or (d.outside top p) := by
        rw [outside, if_neg ne, h.behind_child place]
      have below_c : top ∈ d.ancestors c := by
        rw [h.ancestors_eq hp]
        exact List.mem_cons_of_mem c below
      have deeper : d.size ≤ n + (d.ancestors c).length := by
        rw [h.ancestors_eq hp, List.length_cons]
        omega
      have inner := ih has_c below_c deeper (List.nil_append _).symm (outside_c ▸ others)
      have next : d.successor? top c = (d.children c).head?.or (d.outside top c) := by
        rw [successor?, h.lists.first c, outside, if_neg ne]
      rw [← next] at inner
      have shape : (d.spread (c :: v)).preorder ++ ids =
          c :: ((d.spread (d.children c)).preorder ++ ((d.spread v).preorder ++ ids)) := by
        rw [spread, List.foldr_cons, Forest.preorder, h.below_eq has_c]
        simp [spread]
      rw [shape]
      exact .cons inner

theorem WellLinked.chain_below (h : d.WellLinked) (ha : d.Has a) :
    Chain (d.successor? a) (d.firstChild? a) (d.below a).preorder := by
  have here : a ∈ d.ancestors a := List.mem_of_head? (h.ancestors ha).head?_eq
  have last : Chain (d.successor? a) (d.outside a a) [] := by
    rw [outside, if_pos rfl]
    exact .nil
  have chain := h.chain_spread ha here (Nat.le_add_right ..) (List.nil_append _).symm last
  rw [outside, if_pos rfl, Option.or_none, ← h.lists.first, List.append_nil] at chain
  rw [h.below_eq ha]
  exact chain

/-- Everything below a node is a child of some node. -/
theorem mem_children_levels (n : Nat) (a : NodeId) :
    ∀ b ∈ (d.levels n a).preorder, ∃ p, b ∈ d.children p := by
  induction n generalizing a with
  | zero => exact nofun
  | succ n ih =>
    rw [levels_succ]
    have within : ∀ c ∈ d.children a, ∃ p, c ∈ d.children p := fun c hc => ⟨a, hc⟩
    generalize d.children a = ids at within
    induction ids with
    | nil => exact nofun
    | cons c rest ihr =>
      rw [List.forall_mem_cons] at within
      intro b hb
      rw [List.foldr_cons, Forest.preorder, List.mem_cons, List.mem_append] at hb
      rcases hb with rfl | inner | outer
      · exact within.1
      · exact ih c b inner
      · exact ihr within.2 b outer

theorem WellLinked.has_below (h : d.WellLinked) : ∀ b ∈ (d.below a).preorder, d.Has b := by
  intro b hb
  obtain ⟨p, hp⟩ := mem_children_levels _ _ b hb
  exact h.lists.has_child hp

theorem WellLinked.descendants_eq (h : d.WellLinked) (ha : d.Has a) :
    d.descendants a = (d.below a).preorder := by
  have chain := h.chain_below ha
  exact follow_eq chain (length_le_size chain.nodup h.has_below)

/-! ## Ranks -/

/-- The node that a rank stands for. -/
def Stands (d : Document) (n : Rank) (id : NodeId) : Prop := d.documentOrder[n]? = some id

theorem stands_root : d.Stands 0 root := rfl

/-- A forest of nodes in which the trees below each node are its children. -/
def Branches (d : Document) : Forest NodeId → Prop
  | .nil => True
  | .cons id children rest => children.roots = d.children id ∧ d.Branches children ∧ d.Branches rest

theorem roots_spread (ids : List NodeId) : (d.spread ids).roots = ids := by
  induction ids with
  | nil => rfl
  | cons id ids ih => exact congrArg (id :: ·) ih

theorem WellLinked.branches_below (h : d.WellLinked) (ha : d.Has a) : d.Branches (d.below a) := by
  -- By the levels left below the node, as in `levels_stable`.
  have deep : ∀ n a, d.Has a → d.size ≤ n + (d.ancestors a).length → d.Branches (d.below a) := by
    intro n
    induction n with
    | zero =>
      intro a ha enough
      rw [h.below_eq ha, h.children_of_deep (by omega)]
      trivial
    | succ n ih =>
      intro a ha enough
      rw [h.below_eq ha]
      have inner : ∀ c ∈ d.children a, d.Has c ∧ d.Branches (d.below c) := by
        intro c hc
        have hp := (h.parent c a).mp hc
        have has_c : d.Has c := has_of_target hp
        refine ⟨has_c, ih c has_c ?_⟩
        rw [h.ancestors_eq hp, List.length_cons]
        omega
      generalize d.children a = ids at inner
      induction ids with
      | nil => trivial
      | cons c rest ihr =>
        rw [List.forall_mem_cons] at inner
        refine ⟨?_, inner.1.2, ihr inner.2⟩
        rw [h.below_eq inner.1.1]
        exact roots_spread _
  exact deep d.size a ha (Nat.le_add_right ..)

variable {all : List NodeId} {f : Forest NodeId}

/-- The ranks of the trees of a forest stand for their roots. -/
theorem forall₂_ranks (place : all = u ++ f.preorder ++ v) :
    List.Forall₂ (fun n id => all[n]? = some id) (f.ranks u.length) f.roots := by
  induction f generalizing u v with
  | nil => exact .nil
  | cons id children rest ihc ihr =>
    have here : all[u.length]? = some id := by simp [place, Forest.preorder]
    have later : all = (u ++ id :: children.preorder) ++ rest.preorder ++ v := by
      simp [place, Forest.preorder]
    have start : (u ++ id :: children.preorder).length = u.length + children.size + 1 := by
      rw [List.length_append, List.length_cons, Forest.length_preorder]
      omega
    have others := ihr later
    rw [start] at others
    exact .cons here others

/-- What a row says about the node that it stands for. -/
structure Describes (d : Document) (all : List NodeId) (row : Row) (id : NodeId) : Prop where
  content : row.content = d.content id
  children : List.Forall₂ (fun n id => all[n]? = some id) row.children (d.children id)

theorem forall₂_rowsFrom (above : List Rank) (branches : d.Branches f) (place : all = u ++ f.preorder ++ v) :
    List.Forall₂ (d.Describes all) (Tree.rowsFrom above u.length (f.map d.content)) f.preorder := by
  induction f generalizing u v above with
  | nil => exact .nil
  | cons id children rest ihc ihr =>
    obtain ⟨roots, inner, outer⟩ := branches
    have first : all = (u ++ [id]) ++ children.preorder ++ (rest.preorder ++ v) := by
      simp [place, Forest.preorder]
    have later : all = (u ++ id :: children.preorder) ++ rest.preorder ++ v := by
      simp [place, Forest.preorder]
    have start : (u ++ [id]).length = u.length + 1 := by simp
    have stop : (u ++ id :: children.preorder).length = u.length + children.size + 1 := by
      rw [List.length_append, List.length_cons, Forest.length_preorder]
      omega
    have within := ihc (u.length :: above) inner first
    have others := ihr above outer later
    have kids := forall₂_ranks first
    rw [start, roots] at kids
    rw [start] at within
    rw [stop] at others
    rw [Forest.map, Tree.rowsFrom, Forest.size_map, Forest.ranks_map, Forest.preorder]
    exact .cons ⟨rfl, kids⟩ (List.rel_append within others)

/-- What stands beside an entry of the second list in the first. -/
theorem exists_of_forall₂ {α β : Type} {R : α → β → Prop} {l : List α} {m : List β} {b : β}
    (h : List.Forall₂ R l m) (hb : m[n]? = some b) : ∃ a, l[n]? = some a ∧ R a b := by
  induction h generalizing n with
  | nil => cases hb
  | cons first _ ih =>
    cases n with
    | zero =>
      cases hb
      exact ⟨_, rfl, first⟩
    | succ n => exact ih hb

section

variable (h : d.WellLinked) (has_root : d.Has root)

include h has_root

theorem documentOrder_eq : d.documentOrder = root :: (d.below root).preorder := by
  rw [documentOrder, h.descendants_eq has_root]

omit has_root in
theorem roots_below (ha : d.Has a) : (d.below a).roots = d.children a := by
  rw [h.below_eq ha]
  exact roots_spread _

/-- The children of a node in the tree stand for its children in the document. -/
theorem stands_children (stands : d.Stands n p) :
    List.Forall₂ d.Stands (d.tree.children n) (d.children p) := by
  have order := documentOrder_eq h has_root
  have place : d.documentOrder = [root] ++ (d.below root).preorder ++ [] := by simp [order]
  rw [Stands, order] at stands
  cases n with
  | zero =>
    cases stands
    have ranks := forall₂_ranks place
    rw [roots_below h has_root] at ranks
    have children : d.tree.children 0 = (d.below root).ranks 1 := Forest.ranks_map d.content (d.below root) 1
    rw [children]
    exact ranks
  | succ n =>
    have rows := forall₂_rowsFrom [0] (h.branches_below has_root) place
    obtain ⟨row, hrow, described⟩ := exists_of_forall₂ rows stands
    have children : d.tree.children (n + 1) = row.children := by
      rw [Tree.children, tree, Tree.ofForest, List.getElem?_toArray, List.getElem?_cons_succ]
      exact congrArg (fun row => (Option.map Row.children row).getD []) hrow
    rw [children]
    exact described.children

theorem stands_content (stands : d.Stands n a) (ne : a ≠ root) :
    d.tree.content? n = some (d.content a) := by
  rw [Stands, documentOrder_eq h has_root] at stands
  rw [tree, Tree.content?_ofForest]
  cases n with
  | zero =>
    cases stands
    exact absurd rfl ne
  | succ n =>
    rw [List.getElem?_cons_succ] at stands ⊢
    rw [contents, Forest.preorder_map, List.getElem?_map, stands]
    rfl

omit h has_root in
theorem hits_node (stands : d.Stands n a) : d.hits [.node n] = [.node a] := by
  have here : d.documentOrder.toArray.getD n root = a := by
    rw [Array.getD_eq_getD_getElem?, List.getElem?_toArray, stands]
    rfl
  rw [hits, List.map_singleton]
  exact congrArg (fun id => [Hit.node id]) here

omit h has_root in
theorem hits_attribute (stands : d.Stands n a) (index : Nat) :
    d.hits [.attribute n index] = [.attribute a index] := by
  have here : d.documentOrder.toArray.getD n root = a := by
    rw [Array.getD_eq_getD_getElem?, List.getElem?_toArray, stands]
    rfl
  rw [hits, List.map_singleton]
  exact congrArg (fun id => [Hit.attribute id index]) here

end

end Document

end XmlStore
