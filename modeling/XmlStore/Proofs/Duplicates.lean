/-
Copies of a node, of the same document or of another one. A copy stands alone
and consists of new nodes, one for each node that is copied, which hold the
same and have the copies of the same children in the same order, so that both
are written alike. The nodes there were before keep what they hold, all their
links and what is below them.
-/
import XmlStore.Proofs.NodeByNode
import XmlStore.Proofs.Swapped

namespace XmlStore

namespace Forest

variable {α β γ : Type}

theorem eqOn_of_map_eq {f : Forest α} {u v : α → β} (same : f.map u = f.map v) : ∀ a ∈ f.preorder, u a = v a := by
  have lists := congrArg preorder same
  rw [preorder_map, preorder_map] at lists
  exact List.map_inj_left.mp lists

/-- Of two forests that look the same, the second one is the first one with other labels. -/
theorem exists_map_of_map_eq [DecidableEq α] [Inhabited β] {f : Forest α} {g : Forest β} {u : α → γ} {v : β → γ}
    (nodup : f.preorder.Nodup) (same : g.map v = f.map u) : ∃ k, g = f.map k := by
  induction f generalizing g with
  | nil =>
    cases g with
    | nil => exact ⟨fun _ => default, rfl⟩
    | cons => cases same
  | cons a children rest ihc ihr =>
    cases g with
    | nil => cases same
    | cons b children' rest' =>
      rw [map, map, cons.injEq] at same
      obtain ⟨-, inner, outer⟩ := same
      obtain ⟨fresh, nodup⟩ := List.nodup_cons.mp nodup
      obtain ⟨nodup_children, nodup_rest, apart⟩ := List.nodup_append.mp nodup
      obtain ⟨k, rfl⟩ := ihc nodup_children inner
      obtain ⟨k', rfl⟩ := ihr nodup_rest outer
      -- No label stands in two of the three parts, so that theirs can be put together.
      let label (x : α) : β := if x = a then b else if x ∈ children.preorder then k x else k' x
      have here (x : α) (hx : x ∈ children.preorder ++ rest.preorder) : x ≠ a := fun e => fresh (e ▸ hx)
      have below : children.map k = children.map label := map_congr fun x hx => by
        rw [show label x = _ from if_neg (here x (List.mem_append_left _ hx)), if_pos hx]
      have behind : rest.map k' = rest.map label := map_congr fun x hx => by
        rw [show label x = _ from if_neg (here x (List.mem_append_right _ hx)), if_neg fun mem => apart x mem x hx rfl]
      refine ⟨label, ?_⟩
      have top : label a = b := if_pos rfl
      rw [map, top, below, behind]

end Forest

namespace Document

variable {d d' source : Document} {a b p id copy : NodeId} {k : NodeId → NodeId}

/-! ## Trees that mirror each other -/

/-- A mapping of nodes that takes a node with what is below it to a node of another document with what is
below that one, and keeps what the nodes hold and the lists of their children. -/
structure Mirrors (d d' : Document) (k : NodeId → NodeId) (a b : NodeId) : Prop where
  top : k a = b
  bijOn : Set.BijOn k {x | x ∈ d.whole a} {y | y ∈ d'.whole b}
  content : ∀ x ∈ d.whole a, d'.content (k x) = d.content x
  children : ∀ x ∈ d.whole a, d'.children (k x) = (d.children x).map k

theorem Branches.children_map {f : Forest NodeId} (branches : d.Branches f) (branches' : d'.Branches (f.map k)) :
    ∀ x ∈ f.preorder, d'.children (k x) = (d.children x).map k := by
  induction f with
  | nil => exact nofun
  | cons id children rest ihc ihr =>
    obtain ⟨kids, inner, outer⟩ := branches
    obtain ⟨kids', inner', outer'⟩ := branches'
    rw [Forest.preorder, List.forall_mem_cons, List.forall_mem_append]
    refine ⟨?_, ihc inner inner', ihr outer outer'⟩
    rw [← kids, ← kids', Forest.roots_map]

theorem WellLinked.whole_eq (h : d.WellLinked) (ha : d.Has a) :
    d.whole a = (Forest.tree a (d.below a)).preorder := by
  rw [whole, h.descendants_eq ha, Forest.tree, Forest.preorder, Forest.preorder, List.append_nil]

theorem WellLinked.nodup_whole (h : d.WellLinked) (ha : d.Has a) : (d.whole a).Nodup := by
  refine List.nodup_cons.mpr ⟨?_, h.nodup_descendants a⟩
  rw [h.descendants_eq ha]
  exact h.not_mem_below ha

theorem WellLinked.branches_tree (h : d.WellLinked) (ha : d.Has a) : d.Branches (.tree a (d.below a)) :=
  ⟨roots_below h ha, h.branches_below ha, trivial⟩

/-- Trees with the same contents mirror each other. -/
theorem exists_mirrors (h : d.WellLinked) (h' : d'.WellLinked) (ha : d.Has a) (hb : d'.Has b)
    (content : d'.content b = d.content a) (contents : d'.contents b = d.contents a) :
    ∃ k, Mirrors d d' k a b := by
  have same : (Forest.tree b (d'.below b)).map d'.content = (Forest.tree a (d.below a)).map d.content := by
    rw [Forest.tree, Forest.tree, Forest.map, Forest.map, content]
    exact congrArg (Forest.cons _ · _) contents
  have nodup := h.nodup_whole ha
  rw [h.whole_eq ha] at nodup
  have : Inhabited NodeId := ⟨root⟩
  obtain ⟨k, image⟩ := Forest.exists_map_of_map_eq nodup same
  have branches := h'.branches_tree hb
  have nodup' := h'.nodup_whole hb
  have whole : d'.whole b = (d.whole a).map k := by
    rw [h'.whole_eq hb, h.whole_eq ha, image, Forest.preorder_map]
  rw [image] at same branches
  rw [Forest.map_map] at same
  rw [whole] at nodup'
  refine ⟨k, (Forest.cons.inj image).1.symm, ⟨fun x hx => ?_, ?_, fun y hy => ?_⟩, ?_, ?_⟩
  · exact whole ▸ List.mem_map_of_mem hx
  · exact fun x hx y hy => List.inj_on_of_nodup_map nodup' hx hy
  · rw [Set.mem_ofPred_eq, whole, List.mem_map] at hy
    exact hy
  · rw [h.whole_eq ha]
    exact Forest.eqOn_of_map_eq same
  · rw [h.whole_eq ha]
    exact (h.branches_tree ha).children_map branches

/-! ## The nodes there were -/

/-- Nodes that have the parents and the children they had have all the links they had. -/
theorem target_of_kept (h : d.WellLinked) (h' : d'.WellLinked)
    (parent : ∀ a, d.Has a → d'.parent? a = d.parent? a) (children : ∀ q, d.Has q → d'.children q = d.children q)
    (ha : d.Has a) (link : Link) : d'.target link a = d.target link a := by
  have siblings : d'.previousSibling? a = d.previousSibling? a ∧ d'.nextSibling? a = d.nextSibling? a := by
    cases hp : d.parent? a with
    | none =>
      obtain ⟨previous, next⟩ := h.alone a hp
      rw [previous, next]
      exact h'.alone a ((parent a ha).trans hp)
    | some p =>
      obtain ⟨u, v, place⟩ := List.append_of_mem ((h.parent a p).mpr hp)
      obtain ⟨previous, next⟩ := h.siblings place
      rw [previous, next]
      exact h'.siblings ((children p (h.has_parent hp)).trans place)
  cases link with
  | parent => exact parent a ha
  | firstChild => exact (h'.lists.first a).trans ((congrArg List.head? (children a ha)).trans (h.lists.first a).symm)
  | lastChild => exact (h'.lists.last a).trans ((congrArg List.getLast? (children a ha)).trans (h.lists.last a).symm)
  | previousSibling => exact siblings.1
  | nextSibling => exact siblings.2

/-- Nodes have the same below them if no node that was there has other children or holds something else. -/
theorem trees_of_kept (h : d.WellLinked) (h' : d'.WellLinked) (keeps : Keeps d d')
    (children : ∀ q, d.Has q → d'.children q = d.children q) (ha : d.Has a) :
    d'.below a = d.below a ∧ d'.contents a = d.contents a := by
  have below := below_congr h h' ha (keeps.has ha) fun x hx => by
    rcases List.mem_cons.mp hx with rfl | mem
    · exact children x ha
    · exact children x (h.has_below x (h.descendants_eq ha ▸ mem))
  refine ⟨below, ?_⟩
  rw [contents, contents, below]
  exact Forest.map_congr fun x hx => keeps.content x (h.has_below x hx)

/-! ## Copies -/

theorem size_addForest (p : NodeId) (f : Forest Content) (d : Document) : (addForest p f d).size = d.size + f.size := by
  induction f generalizing p d with
  | nil => rfl
  | cons content children rest ihc ihr =>
    change (addForest p rest (addForest ⟨d.size⟩ children ((d.create content).2.append p ⟨d.size⟩))).size = _
    rw [ihr, ihc, Relinked.append.size, size_create, Forest.size]
    omega

/-- The second document is the first one with a copy of a node, which stands alone. -/
structure Duplicated (d d' source : Document) (id copy : NodeId) : Prop extends Keeps d d' where
  wellLinked : d'.WellLinked
  detached : d'.parent? copy = none ∧ d'.previousSibling? copy = none ∧ d'.nextSibling? copy = none
  /-- The nodes of the copy are new, and no others are. -/
  new : ∀ a ∈ d'.whole copy, d'.Has a ∧ ¬ d.Has a
  count : d'.size = d.size + (d'.whole copy).length
  mirrors : ∃ k, Mirrors source d' k id copy
  written : ∀ o, d'.writeNode o copy = source.writeNode o id
  links : ∀ a, d.Has a → ∀ link, d'.target link a = d.target link a
  trees : ∀ a, d.Has a → d'.children a = d.children a ∧ d'.below a = d.below a ∧ d'.contents a = d.contents a

/-- What is below a copy is new, as nodes that were there have above them only such nodes. -/
theorem Copied.new_whole {top : Content} {below : Forest Content} (c : Copied d d' copy top below)
    (h : d.WellLinked) : ∀ a ∈ d'.whole copy, d'.Has a ∧ ¬ d.Has a := by
  have new : ¬ d.Has copy := Nat.not_lt_of_le c.new
  intro a mem
  constructor
  · rcases List.mem_cons.mp mem with rfl | mem
    · exact c.has
    · exact c.wellLinked.has_below a (c.wellLinked.descendants_eq c.has ▸ mem)
  · intro old
    refine not_mem_spread h c.wellLinked c.size old c.parent (List.forall_mem_singleton.mpr ⟨c.has, new⟩) ?_
    rw [c.wellLinked.preorder_spread (List.forall_mem_singleton.mpr c.has), List.flatMap_singleton]
    exact mem

theorem duplicated_graft (h : d.WellLinked) (linked : source.WellLinked) (hid : source.Has id) :
    Duplicated d (d.graft (source.content id) (source.contents id)).2 source id
      (d.graft (source.content id) (source.contents id)).1 := by
  have copied := copied_graft h (source.content id) (source.contents id)
  generalize e : d.graft (source.content id) (source.contents id) = result at copied ⊢
  obtain ⟨copy, d'⟩ := result
  have count : d'.size = d.size + (d'.whole copy).length := by
    have grown : d'.size = (d.create (source.content id)).2.size + (source.contents id).size := by
      rw [← size_addForest ⟨d.size⟩]
      exact congrArg (·.2.size) e.symm
    rw [grown, size_create, ← copied.contents, contents, Forest.size_map, ← Forest.length_preorder, whole,
      copied.wellLinked.descendants_eq copied.has, List.length_cons]
    omega
  exact { copied.toKeeps with
    wellLinked := copied.wellLinked
    detached := ⟨copied.detached, copied.wellLinked.alone copy copied.detached⟩
    new := copied.new_whole h
    count
    mirrors := exists_mirrors linked copied.wellLinked hid copied.has copied.content_top copied.contents
    written := fun o => by rw [writeNode, writeNode, copied.content_top, copied.contents]
    links := fun a ha => target_of_kept h copied.wellLinked copied.parent copied.children ha
    trees := fun a ha => ⟨copied.children a ha, trees_of_kept h copied.wellLinked copied.toKeeps copied.children ha⟩ }

/-- Copying a node of a document within it, or into another one, adds a mirror image of the node with
what is below it, and is the same as copying node by node from the document as it is at each moment,
however many levels this may go down beyond the number of nodes. -/
theorem copies_of_nodes (h : d.WellLinked) :
    (∀ id, d.Has id → Duplicated d (d.duplicate id).2 d id (d.duplicate id).1 ∧
      ∀ n, d.size ≤ n → d.duplicate id = copyNodes (fun d => d) n id d) ∧
    ∀ source : Document, source.WellLinked → ∀ id, source.Has id →
      Duplicated d (d.importFrom source id).2 source id (d.importFrom source id).1 ∧
        ∀ n, source.size ≤ n → d.importFrom source id = copyNodes (fun _ => source) n id d :=
  ⟨fun _ hid => ⟨duplicated_graft h h hid, fun _ => duplicate_eq_copyNodes h hid⟩,
    fun _ linked _ hid => ⟨duplicated_graft h linked hid, fun _ => importFrom_eq_copyNodes h linked hid⟩⟩

/-- An element with a text below it is copied within its document. -/
theorem copies_of_nodes_within :
    let parts : Forest Content := .cons (.element (.named ⟨none, "b"⟩)) (.tree (.text "t") .nil) (.tree (.comment "c") .nil)
    let d := ofMarkup ⟨.absent, .tree (.element (.named ⟨none, "a"⟩)) parts, []⟩
    (d.duplicate ⟨2⟩).1 = ⟨5⟩ ∧ (d.duplicate ⟨2⟩).2.size = 7 ∧ (d.duplicate ⟨2⟩).2.children ⟨5⟩ = [⟨6⟩] ∧
      ∃ k, Mirrors d (d.duplicate ⟨2⟩).2 k ⟨2⟩ ⟨5⟩ := by
  intro parts d
  have linked := (grown_ofMarkup ⟨.absent, .tree (.element (.named ⟨none, "a"⟩)) parts, []⟩).wellLinked
  have copied : (d.duplicate ⟨2⟩).1 = ⟨5⟩ := by decide
  have mirrors := ((copies_of_nodes linked).1 ⟨2⟩ (by decide)).1.mirrors
  rw [copied] at mirrors
  exact ⟨copied, by decide, by decide, mirrors⟩

end Document

end XmlStore
