/-
Copying node by node. A copy may be made while the document that is copied
grows by it: first the node, then each child, whose copy is put below that of
the node before the next child is looked at. This gives the very document that
comes of reading what is to be copied first and adding it then. It rests on two
facts: a well linked document is determined by what its nodes hold and by the
lists of children, and putting a node below another may as well be done before
the node gets what is below it.
-/
import XmlStore.Proofs.Copies

namespace XmlStore

theorem Node.eq_of_targets {node other : Node} (content : node.content = other.content)
    (same : ∀ link, node.target link = other.target link) : node = other := by
  cases node
  cases other
  have parent := same .parent
  have first := same .firstChild
  have last := same .lastChild
  have previous := same .previousSibling
  have next := same .nextSibling
  simp only [target] at *
  subst content parent first last previous next
  rfl

namespace Document

variable {d d' e source : Document} {a p q x id : NodeId} {L : NodeId → List NodeId}

/-! ## Documents are determined by the lists of children -/

theorem Lists.target_eq (h : d.Lists L) (h' : d'.Lists L) (link : Link) (a : NodeId) :
    d'.target link a = d.target link a := by
  cases link with
  | parent => exact Option.ext fun p => (h'.parent a p).trans (h.parent a p).symm
  | firstChild => exact (h'.first a).trans (h.first a).symm
  | lastChild => exact (h'.last a).trans (h.last a).symm
  | previousSibling => exact Option.ext fun b => (h'.previous b a).trans (h.previous b a).symm
  | nextSibling => exact Option.ext fun b => (h'.next a b).trans (h.next a b).symm

theorem WellLinked.eq_of_children (h : d.WellLinked) (h' : d'.WellLinked) (size : d'.size = d.size)
    (declaration : d'.declaration = d.declaration) (content : ∀ a, d'.content a = d.content a)
    (children : ∀ q, d'.children q = d.children q) : d' = d := by
  have lists : d'.Lists d.children := funext children ▸ h'.lists
  have node (a : NodeId) : d'.node a = d.node a :=
    Node.eq_of_targets (content a) fun link => h.lists.target_eq lists link a
  have nodes : d'.nodes = d.nodes := by
    refine Array.ext size fun i hi hi' => ?_
    have same := node ⟨i⟩
    rw [Document.node, Document.node, Array.getD_eq_getD_getElem?, Array.getD_eq_getD_getElem?,
      Array.getElem?_eq_getElem hi, Array.getElem?_eq_getElem hi'] at same
    exact same
  cases d
  cases d'
  subst nodes declaration
  rfl

/-! ## Putting a node below another, sooner or later -/

theorem Insertable.of_parent (fit : d.Insertable x p) (h : d.WellLinked) (h' : d'.WellLinked)
    (size : d.size ≤ d'.size) (parent : ∀ a, d.Has a → d'.parent? a = d.parent? a) : d'.Insertable x p := by
  have has_p : d'.Has p := Nat.lt_of_lt_of_le fit.has_place size
  refine ⟨Nat.lt_of_lt_of_le fit.has size, has_p, (parent x fit.has).trans fit.detached, ?_⟩
  rw [h.ancestors_congr h' fit.has_place has_p fun b hb => parent b (h.has_ancestor fit.has_place hb)]
  exact fit.apart

/-- Two nodes go below different ones in either order. -/
theorem append_add (h : d.WellLinked) (fit : d.Insertable x p) (hq : d.Has q) (ne : q ≠ p) (content : Content) :
    ((d.create content).2.append q ⟨d.size⟩).append p x =
      ((d.append p x).create content).2.append q ⟨d.size⟩ := by
  have added := edited_add h hq content
  have fit' := fit.of_parent h added.wellLinked added.size fun a => parent?_add h hq content
  have later := added.trans (edited_append added.wellLinked fit')
  have appended := edited_append h fit
  have size : (d.append p x).size = d.size := Relinked.append.size
  have sooner := appended.trans (edited_add appended.wellLinked (appended.has hq) content)
  rw [size] at sooner
  refine sooner.wellLinked.eq_of_children later.wellLinked ?_ (later.declaration.trans sooner.declaration.symm)
    (fun a => ?_) fun r => ?_
  · rw [Relinked.append.size, Relinked.append.size, Relinked.append.size, size_create, size_create, size]
  · rw [Relinked.append.content, Relinked.append.content, Relinked.append.content, content_create,
      content_create, size, Relinked.append.content]
  · rw [later.children, sooner.children, added.children, appended.children, Function.update_of_ne ne.symm,
      Function.update_of_ne ne, funext added.children, funext appended.children, Function.update_comm ne]

/-- A node may get what is below it after it has been put below another one or before. -/
theorem append_addForest {f : Forest Content} (h : d.WellLinked) (fit : d.Insertable x p) (hq : d.Has q)
    (ne : q ≠ p) : (addForest q f d).append p x = addForest q f (d.append p x) := by
  induction f generalizing d q with
  | nil => rfl
  | cons content children rest ihc ihr =>
    have added := edited_add h hq content
    have has_new : ((d.create content).2.append q ⟨d.size⟩).Has ⟨d.size⟩ :=
      Keeps.append.has (insertable_create h hq content).has
    have new : (⟨d.size⟩ : NodeId) ≠ p := fun e => not_has_new (e ▸ fit.has_place)
    have grown := grown_addForest (f := children) added.wellLinked has_new
    have fit' := fit.of_parent h added.wellLinked added.size fun a => parent?_add h hq content
    have fit'' := fit'.of_parent added.wellLinked grown.wellLinked grown.size grown.parent
    have outer := ihr grown.wellLinked fit'' (grown.has (added.has hq)) ne
    have inner := ihc added.wellLinked fit' has_new new
    have size : (d.append p x).size = d.size := Relinked.append.size
    change (addForest q rest (addForest ⟨d.size⟩ children ((d.create content).2.append q ⟨d.size⟩))).append p x =
      addForest q rest (addForest ⟨(d.append p x).size⟩ children
        (((d.append p x).create content).2.append q ⟨(d.append p x).size⟩))
    rw [outer, inner, append_add h fit hq ne, size]

/-! ## Copies made while they are read -/

/-- Copies a node and what is below it node by node, at most `n` levels deep. `read` is the document to
read from when the copy has come so far. -/
def copyNodes (read : Document → Document) : Nat → NodeId → Document → NodeId × Document
  | 0, id, d => d.create ((read d).content id)
  | n + 1, id, d =>
    let (copy, d) := d.create ((read d).content id)
    let place (d : Document) (child : NodeId) : Document :=
      let (new, d) := copyNodes read n child d
      d.append copy new
    (copy, ((read d).children id).foldl place d)

/-- The second document has the nodes of the first one with what they hold and their children. -/
structure Extends (d d' : Document) : Prop extends Keeps d d' where
  wellLinked : d'.WellLinked
  children : ∀ a, d.Has a → d'.children a = d.children a

theorem Extends.refl (h : d.WellLinked) : Extends d d :=
  { Keeps.refl d with wellLinked := h, children := fun _ _ => rfl }

theorem Extends.trans {d'' : Document} (first : Extends d d') (second : Extends d' d'') : Extends d d'' :=
  { first.toKeeps.trans second.toKeeps with
    wellLinked := second.wellLinked
    children := fun a ha => (second.children a (first.has ha)).trans (first.children a ha) }

theorem extends_create (h : d.WellLinked) (content : Content) : Extends d (d.create content).2 :=
  have created := edited_create h content
  { created.toKeeps with wellLinked := created.wellLinked, children := fun a _ => created.children a }

/-- What is added below a node that has come in between leaves the earlier nodes alone. -/
theorem Extends.grow {f : Forest Content} (ext : Extends d d') (hp : d'.Has p) (new : ¬ d.Has p) :
    Extends d (addForest p f d') :=
  have grown := grown_addForest (f := f) ext.wellLinked hp
  { ext.toKeeps.trans grown.toKeeps with
    wellLinked := grown.wellLinked
    children := fun a ha => by
      have ne : a ≠ p := fun e => new (e ▸ ha)
      rw [grown.others a (ext.has ha) ne, ext.children a ha] }

/-- A document that is read gives what there is in another one, whatever the copy has come to. -/
def Reads (read : Document → Document) (source d : Document) : Prop :=
  ∀ d', Extends d d' → ∀ a, source.Has a →
    (read d').content a = source.content a ∧ (read d').children a = source.children a

variable {read : Document → Document} {n : Nat}

/-- The copies of some children, each made and put below `p` before the next. -/
theorem foldl_copyNodes (ids : List NodeId)
    (single : ∀ child ∈ ids, ∀ e, Extends d e → copyNodes read n child e =
      e.graft (source.content child) ((source.levels n child).map source.content))
    (ext : Extends d e) (hp : e.Has p) (new : ¬ d.Has p) :
    ids.foldl (fun e child => (copyNodes read n child e).2.append p (copyNodes read n child e).1) e =
      addForest p ((ids.foldr (fun child rest => Forest.cons child (source.levels n child) rest) .nil).map
        source.content) e := by
  induction ids generalizing e with
  | nil => rfl
  | cons child ids ih =>
    rw [List.forall_mem_cons] at single
    have fit := insertable_create ext.wellLinked hp (source.content child)
    have ne : (⟨e.size⟩ : NodeId) ≠ p := fun same => not_has_new (same ▸ hp)
    have created := edited_create ext.wellLinked (source.content child)
    have grown := ext.grow (f := .tree (source.content child) ((source.levels n child).map source.content)) hp new
    have placed : (copyNodes read n child e).2.append p (copyNodes read n child e).1 =
        addForest p (.tree (source.content child) ((source.levels n child).map source.content)) e := by
      rw [single.1 e ext]
      exact append_addForest created.wellLinked fit fit.has ne
    rw [List.foldl_cons, placed, ih single.2 grown (grown_addForest ext.wellLinked hp |>.has hp)]
    rfl

/-- Copying node by node adds what was there to be read at first. The induction is on the levels. -/
theorem copyNodes_eq_graft (linked : source.WellLinked) (h : d.WellLinked) (hid : source.Has id)
    (reads : Reads read source d) :
    copyNodes read n id d = d.graft (source.content id) ((source.levels n id).map source.content) := by
  induction n generalizing id d with
  | zero =>
    rw [copyNodes, (reads d (.refl h) id hid).1]
    rfl
  | succ n ih =>
    have created := extends_create h (source.content id)
    have has_new : (d.create (source.content id)).2.Has ⟨d.size⟩ := by
      rw [Has, size_create]
      exact Nat.lt_succ_self d.size
    -- Children are put below the new node only, so that what is read later is still as it was.
    have placed := foldl_copyNodes (source.children id)
      (fun child mem e ext => ih ext.wellLinked (linked.lists.has_child mem) fun d' ext' => reads d' (ext.trans ext'))
      created has_new not_has_new
    rw [copyNodes, (reads d (.refl h) id hid).1]
    change (⟨d.size⟩, List.foldl _ (d.create (source.content id)).2 ((read (d.create (source.content id)).2).children id)) =
      ((⟨d.size⟩ : NodeId), addForest ⟨d.size⟩ ((source.levels (n + 1) id).map source.content)
        (d.create (source.content id)).2)
    rw [(reads _ created id hid).2]
    exact congrArg (Prod.mk _) placed

theorem duplicate_eq_copyNodes (h : d.WellLinked) (hid : d.Has id) (enough : d.size ≤ n) :
    d.duplicate id = copyNodes (fun d => d) n id d := by
  rw [copyNodes_eq_graft h h hid fun _ ext a ha => ⟨ext.content a ha, ext.children a ha⟩,
    h.levels_eq_below hid enough]
  rfl

theorem importFrom_eq_copyNodes (h : d.WellLinked) (linked : source.WellLinked) (hid : source.Has id)
    (enough : source.size ≤ n) : d.importFrom source id = copyNodes (fun _ => source) n id d := by
  rw [copyNodes_eq_graft linked h hid fun _ _ _ _ => ⟨rfl, rfl⟩, linked.levels_eq_below hid enough]
  rfl

end Document

end XmlStore
