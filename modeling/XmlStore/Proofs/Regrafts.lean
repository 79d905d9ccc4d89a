/-
Trees in place of a tree. Putting new nodes in place of a node replaces, in
the forest of what the nodes hold, the tree of that node by the trees of the
new ones, and leaves the other trees as they are.
-/
import XmlStore.Proofs.Walks

namespace XmlStore

namespace Forest

variable {α β : Type} {p : α → Bool} {f g : Forest α} {t : α × Forest α} {ts : List (α × Forest α)}

/-- The trees whose label `p` holds of, those inside others left out. -/
def outermost (p : α → Bool) : Forest α → List (α × Forest α)
  | nil => []
  | cons a children rest =>
    if p a then (a, children) :: rest.outermost p else children.outermost p ++ rest.outermost p

/-- Puts a forest in place of the first of the outermost trees. -/
def replaceFirst (p : α → Bool) : Forest α → Forest α → Forest α
  | nil, _ => nil
  | cons a children rest, g =>
    if p a then g ++ rest
    else if (children.outermost p).isEmpty then cons a children (rest.replaceFirst p g)
    else cons a (children.replaceFirst p g) rest

theorem cons_append (a : α) (children rest g : Forest α) :
    cons a children rest ++ g = cons a children (rest ++ g) := rfl

theorem nil_append (g : Forest α) : nil ++ g = g := rfl

theorem outermost_append (f g : Forest α) : (f ++ g).outermost p = f.outermost p ++ g.outermost p := by
  induction f with
  | nil => rfl
  | cons a children rest _ ih =>
    rw [cons_append, outermost, outermost, ih]
    split <;> simp

/-- The trees of the forest that is put in come in place of the first one. -/
theorem outermost_replaceFirst (h : f.outermost p = t :: ts) :
    (f.replaceFirst p g).outermost p = g.outermost p ++ ts := by
  induction f generalizing t ts with
  | nil => cases h
  | cons a children rest ihc ihr =>
    rw [outermost] at h
    rw [replaceFirst]
    split at h
    · rename_i here
      cases h
      rw [if_pos here, outermost_append]
    · rename_i other
      rw [if_neg other]
      cases inner : children.outermost p with
      | nil =>
        rw [inner, List.nil_append] at h
        rw [List.isEmpty_nil, if_pos rfl, outermost, if_neg other, inner, ihr h]
        rfl
      | cons t' ts' =>
        rw [inner, List.cons_append] at h
        obtain ⟨rfl, rfl⟩ := List.cons.inj h
        rw [List.isEmpty_cons, if_neg Bool.false_ne_true, outermost, if_neg other, ihc inner,
          List.append_assoc]

theorem find?_preorder (p : α → Bool) (f : Forest α) :
    f.preorder.find? p = (f.outermost p).head?.map (·.1) := by
  induction f with
  | nil => rfl
  | cons a children rest ihc ihr =>
    rw [preorder, outermost]
    by_cases h : p a = true
    · rw [List.find?_cons_of_pos h, if_pos h]
      rfl
    · rw [List.find?_cons_of_neg h, if_neg h, List.find?_append, ihc, ihr, List.head?_append]
      cases (children.outermost p).head? <;> rfl

theorem roots_map (g : α → β) (f : Forest α) : (f.map g).roots = f.roots.map g := by
  induction f with
  | nil => rfl
  | cons a children rest _ ih => exact congrArg (g a :: ·) ih

theorem outermost_map (g : α → β) (p : β → Bool) (f : Forest α) :
    (f.map g).outermost p = (f.outermost (p ∘ g)).map fun t => (g t.1, t.2.map g) := by
  induction f with
  | nil => rfl
  | cons a children rest ihc ihr =>
    rw [map, outermost, outermost, ihc, ihr]
    by_cases h : p (g a) = true <;> simp [h]

end Forest

namespace Document

variable {d d' : Document} {a id : NodeId} {ids : List NodeId} {f : Forest NodeId} {g : Forest Content}
variable {p : Content → Bool}

theorem forest_append (d : Document) (u v : List NodeId) : d.forest (u ++ v) = d.forest u ++ d.forest v := by
  induction u with
  | nil => rfl
  | cons a u ih => exact congrArg (Forest.cons (d.content a) (d.contents a)) ih

/-- A list of nodes with others in place of one. -/
def inPlace (id : NodeId) (ids nodes : List NodeId) : List NodeId :=
  nodes.flatMap fun c => if c = id then ids else [c]

theorem inPlace_cons (a : NodeId) (nodes : List NodeId) :
    inPlace id ids (a :: nodes) = (if a = id then ids else [a]) ++ inPlace id ids nodes := List.flatMap_cons

theorem inPlace_of_not_mem {nodes : List NodeId} (absent : id ∉ nodes) : inPlace id ids nodes = nodes := by
  induction nodes with
  | nil => rfl
  | cons a nodes ih =>
    obtain ⟨ne, absent⟩ := not_or.mp (mt List.mem_cons.mpr absent)
    rw [inPlace_cons, if_neg (Ne.symm ne), ih absent]
    rfl

/-- Trees whose nodes have the same contents and children stay as they are. -/
theorem forest_congr (h' : d'.WellLinked) (branches : d.Branches f)
    (same : ∀ a ∈ f.preorder, d'.Has a ∧ d'.content a = d.content a ∧ d'.children a = d.children a) :
    d'.forest f.roots = f.map d.content := by
  induction f with
  | nil => rfl
  | cons a below rest ihc ihr =>
    obtain ⟨roots, inner, outer⟩ := branches
    simp only [Forest.preorder, List.mem_cons, List.mem_append] at same
    obtain ⟨has_a, content_a, children_a⟩ := same a (.inl rfl)
    have within := ihc inner fun b hb => same b (.inr (.inl hb))
    have behind := ihr outer fun b hb => same b (.inr (.inr hb))
    rw [Forest.map, ← content_a, ← within, ← behind, roots, ← children_a, ← h'.contents_eq has_a]
    rfl

section

variable (h' : d'.WellLinked) (has : ∀ a ∈ f.preorder, a ≠ id → d'.Has a ∧ d'.content a = d.content a)
  (children : ∀ a ∈ f.preorder, a ≠ id → d'.children a = inPlace id ids (d.children a))
  (branches : d.Branches f)

include h' has children branches

/-- Elsewhere trees stay as they are. -/
theorem forest_inPlace_of_not_mem (absent : id ∉ f.preorder) :
    d'.forest (inPlace id ids f.roots) = f.map d.content := by
  rw [inPlace_of_not_mem fun mem => absent (f.roots_subset mem)]
  refine forest_congr h' branches fun a ha => ?_
  have ne : a ≠ id := by
    rintro rfl
    exact absent ha
  obtain ⟨has_a, content_a⟩ := has a ha ne
  refine ⟨has_a, content_a, ?_⟩
  rw [children a ha ne, inPlace_of_not_mem fun mem => ?_]
  exact absent ((branches.sublist_child ha mem).subset (by simp))

/-- The first of the outermost trees that `p` holds of, if it is that of the node, is replaced. -/
theorem forest_inPlace (nodup : f.preorder.Nodup) (new : d'.forest ids = g)
    (first : f.preorder.find? (p ∘ d.content) = some id) :
    d'.forest (inPlace id ids f.roots) = (f.map d.content).replaceFirst p g := by
  induction f with
  | nil => cases first
  | cons a below rest ihc ihr =>
    obtain ⟨roots, inner, outer⟩ := branches
    simp only [Forest.preorder, List.mem_cons, List.mem_append] at has children
    obtain ⟨fresh, nodup⟩ := List.nodup_cons.mp nodup
    obtain ⟨nodup_below, nodup_rest, apart⟩ := List.nodup_append.mp nodup
    have has_below := fun b hb => has b (.inr (.inl hb))
    have has_rest := fun b hb => has b (.inr (.inr hb))
    have children_below := fun b hb => children b (.inr (.inl hb))
    have children_rest := fun b hb => children b (.inr (.inr hb))
    rw [Forest.preorder] at first
    rw [Forest.roots, inPlace_cons, forest_append, Forest.map, Forest.replaceFirst]
    by_cases here : (p ∘ d.content) a = true
    · rw [List.find?_cons_of_pos here] at first
      obtain rfl := Option.some.inj first
      have absent : a ∉ rest.preorder := fun mem => fresh (List.mem_append_right _ mem)
      rw [if_pos rfl, if_pos (show p (d.content a) = true from here), new,
        forest_inPlace_of_not_mem h' has_rest children_rest outer absent]
    · rw [List.find?_cons_of_neg here, List.find?_append] at first
      have mem : id ∈ below.preorder ++ rest.preorder := by
        rw [← List.find?_append] at first
        exact List.mem_of_find?_eq_some first
      have ne : a ≠ id := by
        rintro rfl
        exact fresh mem
      obtain ⟨has_a, content_a⟩ := has a (.inl rfl) ne
      have shape : d'.forest [a] = .cons (d.content a) (d'.forest (inPlace id ids below.roots)) .nil := by
        rw [roots, ← children a (.inl rfl) ne, ← h'.contents_eq has_a, ← content_a]
        rfl
      rw [if_neg ne, if_neg (show ¬ p (d.content a) = true from here), shape, Forest.outermost_map]
      cases inside : below.preorder.find? (p ∘ d.content) with
      | none =>
        rw [inside] at first
        have absent : id ∉ below.preorder := fun mem =>
          List.find?_eq_none.mp inside id mem (List.find?_some first)
        have none : below.outermost (p ∘ d.content) = [] := by
          rw [Forest.find?_preorder, Option.map_eq_none_iff, List.head?_eq_none_iff] at inside
          exact inside
        rw [none, forest_inPlace_of_not_mem h' has_below children_below inner absent,
          ihr has_rest children_rest outer nodup_rest first]
        rfl
      | some found =>
        rw [inside] at first
        obtain rfl := Option.some.inj first
        have some : below.outermost (p ∘ d.content) ≠ [] := by
          intro none
          rw [Forest.find?_preorder, none] at inside
          cases inside
        have absent : found ∉ rest.preorder := fun mem =>
          apart found (List.mem_of_find?_eq_some inside) found mem rfl
        rw [forest_inPlace_of_not_mem h' has_rest children_rest outer absent,
          ihc has_below children_below inner nodup_below inside]
        simp [some, Forest.cons_append, Forest.nil_append]

end

/-- The second document is the first one with new nodes, which show a forest, in place of a node. -/
structure Replaced (d d' : Document) (id : NodeId) (g : Forest Content) : Prop extends Keeps d d' where
  rooted : d'.Rooted
  replaced : ∃ ids, d'.forest ids = g ∧
    ∀ q, d.Has q → q ≠ id → d'.children q = inPlace id ids (d.children q)

theorem Replaced.contents_root (r : Replaced d d' id g) (h : d.Rooted)
    (first : (d.descendants root).find? (p ∘ d.content) = some id) :
    d'.contents root = (d.contents root).replaceFirst p g := by
  obtain ⟨ids, new, replaced⟩ := r.replaced
  have linked := h.wellLinked
  have order := documentOrder_nodup h
  rw [documentOrder_eq linked h.has_root] at order
  obtain ⟨fresh, nodup⟩ := List.nodup_cons.mp order
  rw [linked.descendants_eq h.has_root] at first
  have ne : root ≠ id := by
    rintro rfl
    exact fresh (List.mem_of_find?_eq_some first)
  have has := linked.has_below (a := root)
  have replacement := forest_inPlace r.rooted.wellLinked (fun a ha _ => ⟨r.has (has a ha), r.content a (has a ha)⟩)
    (fun a ha => replaced a (has a ha)) (linked.branches_below h.has_root) nodup new first
  rw [roots_below linked h.has_root, ← replaced root h.has_root ne,
    ← r.rooted.wellLinked.contents_eq r.rooted.has_root] at replacement
  exact replacement

/-! ## Copies -/

/-- The second document is the first one with a tree beside it, whose topmost node is `x`. -/
structure Copy (d d' : Document) (x : NodeId) (top : Content) (below : Forest Content) : Prop extends
    Beside d d' x where
  rooted : d'.Rooted
  content : ∀ a, d.Has a → d'.content a = d.content a
  declaration : d'.declaration = d.declaration
  children : ∀ q, d.Has q → d'.children q = d.children q
  content_top : d'.content x = top
  contents : d'.contents x = below

theorem Copied.copy {x : NodeId} {top : Content} {below : Forest Content} (c : Copied d d' x top below)
    (h : d.Rooted) : Copy d d' x top below where
  toBeside := c.beside
  rooted := c.rooted h
  content := c.content
  declaration := c.declaration
  children := c.children
  content_top := c.content_top
  contents := c.contents

/-- A node is not below itself. -/
theorem WellLinked.not_mem_below (h : d.WellLinked) (ha : d.Has a) : a ∉ (d.below a).preorder := by
  rw [← h.descendants_eq ha, h.mem_descendants_iff ha ha, isAncestor, List.contains_iff_mem]
  obtain ⟨more, above⟩ := List.head?_eq_some_iff.mp (h.ancestors ha).head?_eq
  have nodup := (h.ancestors ha).nodup
  rw [above] at nodup ⊢
  exact (List.nodup_cons.mp nodup).1

theorem Copy.modifyTag {x : NodeId} {top : Content} {below : Forest Content} (c : Copy d d' x top below)
    (f : Element → Element) : Copy d (d'.modifyTag x f) x (top.mapElement f) below := by
  have links : ∀ link a, (d'.modifyTag x f).target link a = d'.target link a := fun _ _ =>
    target_modifyContent _
  have size : (d'.modifyTag x f).size = d'.size := size_modifyContent _
  have linked := c.rooted.wellLinked
  obtain ⟨linked', children⟩ := linked.congr links
  have content (a : NodeId) : (d'.modifyTag x f).content a =
      if a = x then (d'.content x).mapElement f else d'.content a := content_modifyContent c.has _
  have has {a : NodeId} (ha : d'.Has a) : (d'.modifyTag x f).Has a := by rwa [Has, size]
  refine { toBeside := c.toBeside.of_same_links links size, rooted := c.rooted.modifyTag x f, content := ?_,
           declaration := c.declaration, children := ?_, content_top := ?_, contents := ?_ }
  · intro a ha
    have ne : a ≠ x := by
      rintro rfl
      exact c.new ha
    rw [content, if_neg ne, c.content a ha]
  · intro q hq
    rw [children, c.children q hq]
  · rw [content, if_pos rfl, c.content_top]
  · have fresh := linked.not_mem_below c.has
    have same := forest_congr linked' (linked.branches_below c.has) fun b hb => by
      have ne : b ≠ x := by
        rintro rfl
        exact fresh hb
      exact ⟨has (linked.has_below b hb), by rw [content, if_neg ne], congrFun children b⟩
    rw [roots_below linked c.has, ← children, ← linked'.contents_eq (has c.has)] at same
    exact same.trans c.contents

/-! ## New nodes before a node -/

/-- The second document is the first one with new nodes, which show a forest, before a node. -/
structure Preceded (d d' : Document) (id : NodeId) (g : Forest Content) : Prop extends Keeps d d' where
  rooted : d'.Rooted
  parent : ∀ a, d.Has a → d'.parent? a = d.parent? a
  preceded : ∃ ids, (∀ a ∈ ids, d'.Has a ∧ ¬ d.Has a) ∧ d'.forest ids = g ∧
    ∀ q, d.Has q → d'.children q = inPlace id (ids ++ [id]) (d.children q)

theorem inPlace_append (u v : List NodeId) : inPlace id ids (u ++ v) = inPlace id ids u ++ inPlace id ids v :=
  List.flatMap_append

/-- Of nodes without repetition only one is replaced. -/
theorem inPlace_of_nodup {u v : List NodeId} (nodup : (u ++ id :: v).Nodup) :
    inPlace id ids (u ++ id :: v) = u ++ ids ++ v := by
  have alone : id ∉ u ++ v := (List.nodup_middle.mp nodup).notMem
  obtain ⟨before, behind⟩ := not_or.mp (mt List.mem_append.mpr alone)
  rw [inPlace_append, inPlace_cons, if_pos rfl, inPlace_of_not_mem before, inPlace_of_not_mem behind,
    List.append_assoc]

theorem inPlace_self (nodes : List NodeId) : inPlace id [id] nodes = nodes := by
  induction nodes with
  | nil => rfl
  | cons a nodes ih =>
    rw [inPlace_cons, ih]
    by_cases e : a = id <;> simp [e]

theorem inPlace_inPlace {others nodes : List NodeId} (fresh : id ∉ ids) :
    inPlace id others (inPlace id (ids ++ [id]) nodes) = inPlace id (ids ++ others) nodes := by
  induction nodes with
  | nil => rfl
  | cons a nodes ih =>
    rw [inPlace_cons, inPlace_cons, inPlace_append, ih]
    by_cases e : a = id
    · rw [if_pos e, if_pos e, inPlace_append, inPlace_of_not_mem fresh, inPlace_cons, if_pos rfl]
      simp [inPlace]
    · rw [if_neg e, if_neg e, inPlace_cons, if_neg e]
      rfl

theorem filter_eq_inPlace (nodes : List NodeId) : nodes.filter (· != id) = inPlace id [] nodes := by
  induction nodes with
  | nil => rfl
  | cons a nodes ih =>
    rw [inPlace_cons, ← ih]
    by_cases e : a = id <;> simp [e]

theorem placedBefore_eq_inPlace (x : NodeId) (nodes : List NodeId) :
    placedBefore id x nodes = inPlace id ([x] ++ [id]) nodes := by
  refine congrArg (nodes.flatMap ·) (funext fun c => ?_)
  by_cases e : c = id <;> simp [e]

/-! What nodes have below them, as a forest of nodes. -/

theorem map_spread (ids : List NodeId) : (d.spread ids).map d.content = d.forest ids := by
  induction ids with
  | nil => rfl
  | cons a ids ih => exact congrArg (Forest.cons (d.content a) (d.contents a)) ih

theorem WellLinked.branches_spread (h : d.WellLinked) (inside : ∀ a ∈ ids, d.Has a) :
    d.Branches (d.spread ids) := by
  induction ids with
  | nil => trivial
  | cons a ids ih =>
    rw [List.forall_mem_cons] at inside
    exact ⟨roots_below h inside.1, h.branches_below inside.1, ih inside.2⟩

theorem WellLinked.has_spread (h : d.WellLinked) (inside : ∀ a ∈ ids, d.Has a) :
    ∀ b ∈ (d.spread ids).preorder, d.Has b := by
  rw [h.preorder_spread inside]
  intro b hb
  obtain ⟨a, ha, mem⟩ := List.mem_flatMap.mp hb
  rcases List.mem_cons.mp mem with rfl | below
  · exact inside b ha
  · rw [h.descendants_eq (inside a ha)] at below
    exact h.has_below b below

/-- A node that was there is not among new ones and what is below them. -/
theorem not_mem_spread (h : d.WellLinked) (h' : d'.WellLinked) (size : d.size ≤ d'.size) (ha : d.Has a)
    (parent : ∀ b, d.Has b → d'.parent? b = d.parent? b) (new : ∀ b ∈ ids, d'.Has b ∧ ¬ d.Has b) :
    a ∉ (d'.spread ids).preorder := by
  have ha' : d'.Has a := Nat.lt_of_lt_of_le ha size
  rw [h'.preorder_spread fun b hb => (new b hb).1]
  intro mem
  obtain ⟨b, hb, mem⟩ := List.mem_flatMap.mp mem
  obtain ⟨has_b, new_b⟩ := new b hb
  rcases List.mem_cons.mp mem with rfl | below
  · exact new_b ha
  · rw [h'.mem_descendants_iff ha' has_b, isAncestor, List.contains_iff_mem,
      h.ancestors_congr h' ha ha' fun c hc => parent c (h.has_ancestor ha hc)] at below
    exact new_b (h.has_ancestor ha (List.mem_of_mem_drop below))

/-- New nodes are not changed by what is done to the children around another node. -/
theorem forest_of_inPlace {d'' : Document} {others : List NodeId} (h' : d'.WellLinked) (h'' : d''.WellLinked)
    (inside : ∀ b ∈ ids, d'.Has b) (keeps : ∀ b, d'.Has b → d''.Has b ∧ d''.content b = d'.content b)
    (children : ∀ q, d'.Has q → q ≠ id → d''.children q = inPlace id others (d'.children q))
    (apart : id ∉ (d'.spread ids).preorder) : d''.forest ids = d'.forest ids := by
  have has := h'.has_spread inside
  have same := forest_inPlace_of_not_mem h'' (fun b hb _ => keeps b (has b hb))
    (fun b hb => children b (has b hb)) (h'.branches_spread inside) apart
  rw [inPlace_of_not_mem fun mem => apart ((d'.spread ids).roots_subset mem), roots_spread] at same
  rw [same, map_spread]

namespace Preceded

theorem refl (h : d.Rooted) : Preceded d d id .nil where
  toKeeps := .refl d
  rooted := h
  parent _ _ := rfl
  preceded := ⟨[], nofun, rfl, fun q _ => (inPlace_self (d.children q)).symm⟩

theorem trans {d'' : Document} {g' : Forest Content} (h : d.Rooted) (hid : d.Has id)
    (first : Preceded d d' id g) (second : Preceded d' d'' id g') : Preceded d d'' id (g ++ g') := by
  obtain ⟨ids, new, rfl, children⟩ := first.preceded
  obtain ⟨others, new', rfl, children'⟩ := second.preceded
  have has {b : NodeId} (hb : d.Has b) : d'.Has b := first.has hb
  have fresh : id ∉ ids := fun mem => (new id mem).2 hid
  have apart := not_mem_spread h.wellLinked first.rooted.wellLinked first.size hid first.parent new
  have kept : d''.forest ids = d'.forest ids :=
    forest_of_inPlace first.rooted.wellLinked second.rooted.wellLinked (fun b hb => (new b hb).1)
      (fun b hb => ⟨second.has hb, second.content b hb⟩) (fun q hq _ => children' q hq) apart
  refine ⟨first.toKeeps.trans second.toKeeps, second.rooted,
    fun b hb => (second.parent b (has hb)).trans (first.parent b hb), ids ++ others, ?_, ?_, ?_⟩
  · intro b hb
    rcases List.mem_append.mp hb with mem | mem
    · exact ⟨second.has (new b mem).1, (new b mem).2⟩
    · exact ⟨(new' b mem).1, fun old => (new' b mem).2 (has old)⟩
  · rw [forest_append, kept]
  · intro q hq
    rw [children' q (has hq), children q hq, inPlace_inPlace fresh, List.append_assoc]

/-- Taking the node itself out leaves the new ones in its place. -/
theorem detach (preceded : Preceded d d' id g) (h : d.Rooted) (hid : d.Has id) :
    ∃ ids, (∀ a ∈ ids, d'.Has a ∧ ¬ d.Has a) ∧ (d'.detach id).forest ids = g ∧
      ∀ q, d.Has q → (d'.detach id).children q = inPlace id ids (d.children q) := by
  obtain ⟨ids, new, rfl, children⟩ := preceded.preceded
  have linked := preceded.rooted.wellLinked
  have detached := edited_detach_filter (x := id) linked
  have out (q : NodeId) : (d'.detach id).children q = inPlace id [] (d'.children q) := by
    rw [detached.children, filter_eq_inPlace]
  have apart := not_mem_spread h.wellLinked linked preceded.size hid preceded.parent new
  have kept : (d'.detach id).forest ids = d'.forest ids :=
    forest_of_inPlace linked detached.wellLinked (fun b hb => (new b hb).1)
      (fun b hb => ⟨detached.has hb, detached.content b hb⟩) (fun q _ _ => out q) apart
  have fresh : id ∉ ids := fun mem => (new id mem).2 hid
  refine ⟨ids, new, kept, fun q hq => ?_⟩
  rw [out, children q hq, inPlace_inPlace fresh, List.append_nil]

theorem replaced (preceded : Preceded d d' id g) (h : d.Rooted) (hid : d.Has id) :
    Replaced d (d'.detach id) id g := by
  obtain ⟨ids, -, shown, children⟩ := preceded.detach h hid
  have detached := edited_detach_filter (x := id) preceded.rooted.wellLinked
  refine ⟨preceded.toKeeps.trans detached.toKeeps, detached.rooted preceded.rooted fun q mem => ?_,
    ids, shown, fun q hq _ => children q hq⟩
  exact preceded.rooted.root_top q (List.mem_filter.mp mem).1

end Preceded

/-- A copy put before a node. -/
theorem Copy.preceded {x : NodeId} {top : Content} {below : Forest Content} (h : d.Rooted) (hid : d.Has id)
    (copy : Copy d d' x top below) : Preceded d (d'.insertBefore id x) id (.tree top below) := by
  have linked := copy.rooted.wellLinked
  have fit (p : NodeId) (hp : d'.parent? id = some p) : d'.Insertable x p := by
    rw [copy.parent id hid] at hp
    exact copy.toBeside.insertable h.wellLinked linked (h.wellLinked.has_parent hp)
  have inserted := edited_insertBefore linked fit
  have out (q : NodeId) : (d'.insertBefore id x).children q = inPlace id ([x] ++ [id]) (d'.children q) := by
    rw [inserted.children, placedBefore_eq_inPlace]
  have new : ∀ b ∈ [x], d'.Has b ∧ ¬ d.Has b := by simpa using ⟨copy.has, copy.new⟩
  have apart := not_mem_spread h.wellLinked linked copy.size hid copy.parent new
  have kept : (d'.insertBefore id x).forest [x] = d'.forest [x] :=
    forest_of_inPlace linked inserted.wellLinked (fun b hb => (new b hb).1)
      (fun b hb => ⟨inserted.has hb, inserted.content b hb⟩) (fun q _ _ => out q) apart
  have has {b : NodeId} (hb : d.Has b) : d'.Has b := Nat.lt_of_lt_of_le hb copy.size
  have kept_copy : Keeps d d' := ⟨copy.size, copy.content, copy.declaration⟩
  refine ⟨kept_copy.trans inserted.toKeeps, ?_, fun b hb => ?_, [x], fun b hb => ?_, ?_, fun q hq => ?_⟩
  · refine inserted.rooted copy.rooted fun q mem => ?_
    rcases mem_placedBefore.mp mem with old | ⟨e, -⟩
    · exact copy.rooted.root_top q old
    · exact copy.toBeside.ne_root h e.symm
  · refine (inserted.parent_eq linked fun q => ?_).trans (copy.parent b hb)
    have ne : b ≠ x := by
      rintro rfl
      exact copy.new hb
    simp [mem_placedBefore, ne]
  · exact ⟨inserted.has (new b hb).1, (new b hb).2⟩
  · rw [kept, ← copy.content_top, ← copy.contents]
    rfl
  · rw [out, copy.children q hq]

end Document

end XmlStore
