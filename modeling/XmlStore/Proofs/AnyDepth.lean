/-
Steps to any depth. `//` goes from an item to the item itself and all below it,
document type declarations left out, and the step behind it goes on to
children. What is below an item is the child of one of these, as nothing is
below a document type declaration. So `//` followed by a step to children comes
to the same as one step to descendants, whatever the step asks for.
-/
import XmlStore.Proofs.Axes
import XmlStore.Proofs.Isomorphisms
import XmlStore.Proofs.Preorder
import XmlStore.Proofs.Productions

namespace XmlStore

/-! ## Steps without predicates -/

section

variable {env : Env} {axis : Axis} {test : NodeTest} {item : Item} {items : List Item} {steps : List Step}

/-- What a step without predicates finds, if its qualifier stands for a namespace. -/
def Env.meets (env : Env) (axis : Axis) (test : NodeTest) (uri : Option String) (items : List Item) : List Item :=
  Item.ordered (items.flatMap fun item => (env.tree.axis axis item).filter (test.admitsItem uri axis env.tree))

theorem Env.mem_meets {uri : Option String} : item ∈ env.meets axis test uri items ↔
    ∃ start ∈ items, item ∈ env.tree.axis axis start ∧ test.admitsItem uri axis env.tree item = true := by
  rw [meets, Item.mem_ordered, List.mem_flatMap]
  simp only [List.mem_filter]

theorem Env.meets_congr {axis' : Axis} {test' : NodeTest} {uri uri' : Option String} {items' : List Item}
    (same : ∀ item, item ∈ env.meets axis test uri items ↔ item ∈ env.meets axis' test' uri' items') :
    env.meets axis test uri items = env.meets axis' test' uri' items' := by
  refine Item.ordered_congr fun item => ?_
  rw [← Item.mem_ordered, ← Item.mem_ordered (items'.flatMap _)]
  exact same item

theorem Step.take_plain : (Step.mk axis test []).take env items =
    (env.resolve test.qualifier?).map fun uri => env.meets axis test uri items := by
  rw [Step.take]
  cases env.resolve test.qualifier? with
  | error cause => rfl
  | ok uri =>
    have every : items.mapM (fun item => Expr.keep env []
        ((env.tree.axis axis item).filter (test.admitsItem uri axis env.tree))) =
        .ok (items.map fun item => (env.tree.axis axis item).filter (test.admitsItem uri axis env.tree)) := by
      simp only [Expr.keep]
      exact List.mapM_pure
    refine bind_eq_ok.2 ⟨uri, rfl, bind_eq_ok.2 ⟨_, every, ?_⟩⟩
    rw [← List.flatMap_def]
    rfl

theorem Step.walk_plain : Step.walk env [.mk axis test []] items =
    (env.resolve test.qualifier?).map fun uri => env.meets axis test uri items := by
  rw [Step.walk, Step.take_plain]
  cases env.resolve test.qualifier? <;> rfl

/-- A step that asks for any node goes on from what it meets. -/
theorem Step.walk_node : Step.walk env (.mk axis .node [] :: steps) items =
    Step.walk env steps (env.meets axis .node none items) := by
  rw [Step.walk, Step.take_plain]
  rfl

end

namespace Document

variable {d : Document} {a c : NodeId} {n : Rank} {item : Item}

/-! ## Children at any depth -/

/-- What is below a node is a child of the node or of what is below it. -/
theorem WellLinked.mem_descendants_whole (h : d.WellLinked) :
    c ∈ d.descendants a ↔ ∃ p ∈ d.whole a, c ∈ d.children p := by
  have within (p : NodeId) : p ∈ d.whole a ↔ Relation.ReflTransGen d.ParentOf a p := by
    rw [whole, List.mem_cons, h.mem_descendants, Relation.reflTransGen_iff_eq_or_transGen]
  simp only [h.mem_descendants, within]
  exact Relation.TransGen.tail'_iff

theorem mem_axis_node (h : d.Rooted) (stands : d.Stands n a) {axis : Axis} (tree : axis ≠ .attributes) :
    item ∈ d.tree.axis axis (.node n) ↔ ∃ c ∈ d.walk a axis, ∃ m, d.Stands m c ∧ item = .node m := by
  obtain ⟨ranks, items, standing⟩ := stands_nodeAxis h stands tree
  rw [Tree.axis, items, List.mem_map]
  constructor
  · rintro ⟨m, mem, rfl⟩
    obtain ⟨i, place⟩ := List.getElem?_of_mem mem
    obtain ⟨c, hc, here⟩ := exists_of_forall₂ standing.flip place
    exact ⟨c, List.mem_of_getElem? hc, m, here, rfl⟩
  · rintro ⟨c, mem, m, here, rfl⟩
    exact ⟨m, (mem_ranks_iff h standing here).mpr mem, rfl⟩

/-- Any node is asked for where `//` stops: everything but a document type declaration. -/
theorem admits_node (wanted : Option String) (content : Content) :
    NodeTest.node.admits wanted content = !content.isDoctype := by
  cases content <;> rfl

/-- A document in which nothing is below document type declarations. -/
def BareDoctypes (d : Document) : Prop :=
  ∀ a, d.Attached a → (d.content a).isDoctype = true → d.children a = []

theorem Made.bareDoctypes (made : d.Made) : d.BareDoctypes := by
  intro a _ typed
  by_contra filled
  rw [Content.isDoctype_of_isInner (made.proper.branched a filled)] at typed
  cases typed

theorem BareDoctypes.isDoctype_eq_false (bare : d.BareDoctypes) (attached : d.Attached a)
    (child : c ∈ d.children a) : (d.content a).isDoctype = false :=
  Bool.eq_false_iff.mpr fun typed => List.ne_nil_of_mem child (bare a attached typed)

/-- Nothing is below a rank that no node has. -/
theorem descendants_of_outside (h : d.Rooted) (outside : d.documentOrder[n]? = none) :
    d.tree.descendants n = [] := by
  have absent : d.tree.rows[n]? = none := by
    rw [Array.getElem?_eq_none_iff, ← Tree.size, tree_size h]
    exact List.getElem?_eq_none_iff.mp outside
  simp [Tree.descendants, Tree.stop, absent]

/-- Further down from an item are the children of where `//` stops. -/
theorem mem_axis_descendant (h : d.Headed) (bare : d.BareDoctypes) (start : Item) :
    item ∈ d.tree.axis .descendant start ↔ ∃ stop ∈ d.tree.axis .descendantOrSelf start,
      NodeTest.node.admitsItem none .descendantOrSelf d.tree stop = true ∧ item ∈ d.tree.axis .child stop := by
  cases start with
  | «attribute» owner index => simp [Tree.axis, Tree.attributeAxis]
  | node n =>
    cases here : d.documentOrder[n]? with
    | none =>
      have below := descendants_of_outside h.toRooted here
      simp [Tree.axis, Tree.nodeAxis, below, NodeTest.admitsItem, tree_content? h, here]
    | some a =>
      rw [mem_axis_node h.toRooted here (by simp)]
      constructor
      · rintro ⟨c, mem, m, standing, rfl⟩
        obtain ⟨p, hp, child⟩ := h.wellLinked.mem_descendants_whole.mp mem
        have attached : d.Attached p := by
          rcases List.mem_cons.mp hp with rfl | below
          · exact attached_of_stands h.toRooted here
          · exact attached_descendants h.toRooted (attached_of_stands h.toRooted here) p below
        have at_p := stands_idxOf (h.mem_documentOrder.mpr attached)
        refine ⟨.node _, (mem_axis_node h.toRooted here (by simp)).mpr ⟨p, hp, _, at_p, rfl⟩, ?_,
          (mem_axis_node h.toRooted at_p (by simp)).mpr ⟨c, child, m, standing, rfl⟩⟩
        rw [admitsItem_node h at_p, admits_node, bare.isDoctype_eq_false attached child]
        rfl
      · rintro ⟨stop, mem, -, child⟩
        obtain ⟨p, hp, k, at_p, rfl⟩ := (mem_axis_node h.toRooted here (by simp)).mp mem
        obtain ⟨c, hc, m, standing, rfl⟩ := (mem_axis_node h.toRooted at_p (by simp)).mp child
        exact ⟨c, h.wellLinked.mem_descendants_whole.mpr ⟨p, hp, hc⟩, m, standing, rfl⟩

/-- Nothing is below an item that is not asked for as a node. -/
theorem axis_descendant_eq_nil (h : d.Headed) (bare : d.BareDoctypes) {start : Item} {axis : Axis}
    (refused : NodeTest.node.admitsItem none axis d.tree start = false) : d.tree.axis .descendant start = [] := by
  cases start with
  | «attribute» owner index => rfl
  | node n =>
    cases here : d.documentOrder[n]? with
    | none => rw [Tree.axis, Tree.nodeAxis, descendants_of_outside h.toRooted here, List.map_nil]
    | some a =>
      refine List.eq_nil_iff_forall_not_mem.mpr fun item mem => ?_
      obtain ⟨c, below, -⟩ := (mem_axis_node h.toRooted here (by simp)).mp mem
      rw [walk, h.wellLinked.descendants_flatMap, List.mem_flatMap] at below
      obtain ⟨child, hchild, -⟩ := below
      have attached := attached_of_stands h.toRooted here
      rw [admitsItem_node h here, admits_node, bare.isDoctype_eq_false attached hchild] at refused
      cases refused

variable {env : Env} {test : NodeTest} {items : List Item}

/-- Only nodes are found below an item, and what a test says of them does not depend on the axis. -/
theorem admitsItem_of_mem_descendant {start : Item} (below : item ∈ d.tree.axis .descendant start)
    (uri : Option String) (axis axis' : Axis) :
    test.admitsItem uri axis d.tree item = test.admitsItem uri axis' d.tree item := by
  cases start with
  | «attribute» owner index => cases below
  | node n =>
    obtain ⟨m, -, rfl⟩ := List.mem_map.mp below
    rfl

/-- From any selection, `//` and a step to children lead where one step to descendants does. -/
theorem walk_anyDepth (h : d.Headed) (bare : d.BareDoctypes) (tree : env.tree = d.tree) :
    Step.walk env [.anyDepth, .mk .child test []] items = Step.walk env [.mk .descendant test []] items := by
  rw [Step.anyDepth, Step.walk_node, Step.walk_plain, Step.walk_plain]
  cases env.resolve test.qualifier? with
  | error cause => rfl
  | ok uri =>
    refine congrArg Except.ok (Env.meets_congr fun item => ?_)
    simp only [Env.mem_meets, tree]
    constructor
    · rintro ⟨stop, ⟨start, mem, deeper, passed⟩, child, admitted⟩
      have below := (mem_axis_descendant h bare start).mpr ⟨stop, deeper, passed, child⟩
      exact ⟨start, mem, below, admitsItem_of_mem_descendant below uri .descendant .child ▸ admitted⟩
    · rintro ⟨start, mem, below, admitted⟩
      obtain ⟨stop, deeper, passed, child⟩ := (mem_axis_descendant h bare start).mp below
      exact ⟨stop, ⟨start, mem, deeper, passed⟩, child,
        admitsItem_of_mem_descendant below uri .child .descendant ▸ admitted⟩

/-- The same if the first step is to stay where one is. -/
theorem walk_here_anyDepth (h : d.Headed) (bare : d.BareDoctypes) (tree : env.tree = d.tree) :
    Step.walk env [.here, .anyDepth, .mk .child test []] [item] =
      Step.walk env [.mk .descendant test []] [item] := by
  rw [Step.here, Step.walk_node, walk_anyDepth h bare tree, Step.walk_plain, Step.walk_plain]
  cases env.resolve test.qualifier? with
  | error cause => rfl
  | ok uri =>
    refine congrArg Except.ok (Env.meets_congr fun found => ?_)
    have self (start : Item) : start ∈ d.tree.axis .self item ↔ start = item := by
      cases item <;> exact List.mem_singleton
    simp only [Env.mem_meets, tree, List.mem_singleton, exists_eq_left, self]
    constructor
    · rintro ⟨start, ⟨rfl, -⟩, found⟩
      exact found
    · rintro ⟨below, admitted⟩
      refine ⟨item, ⟨rfl, ?_⟩, below, admitted⟩
      by_contra refused
      rw [axis_descendant_eq_nil h bare (Bool.eq_false_iff.mpr refused)] at below
      cases below

/-- At every node and attribute of a document with bare document type declarations, `.//` with a step to
children that has no predicates is worth the same as one step to descendants, and so is `//` from the
document node: the same nodes in the same order, or the same error. These are the expressions that `.//T`, `descendant::T`, `//T` and `/descendant::T` are read
as. -/
theorem evaluate_anyDepth (h : d.Headed) (bare : d.BareDoctypes) (namespaces : List (String × String))
    (values : List (String × Found)) (test : NodeTest) (context : Hit) (position size : Nat) :
    d.evaluate namespaces values (.path [.here, .anyDepth, .mk .child test []]) context position size =
      d.evaluate namespaces values (.path [.mk .descendant test []]) context position size ∧
    d.evaluate namespaces values (.rootPath [.anyDepth, .mk .child test []]) context position size =
      d.evaluate namespaces values (.rootPath [.mk .descendant test []]) context position size ∧
    ∀ tokens, test.Derives tokens →
      Derives .expression (.symbol .dot :: .symbol .doubleSlash :: tokens)
        (.path [.here, .anyDepth, .mk .child test []]) ∧
      Derives .expression (.axis "descendant" :: .symbol .colonColon :: tokens)
        (.path [.mk .descendant test []]) ∧
      Derives .expression (.symbol .doubleSlash :: tokens) (.rootPath [.anyDepth, .mk .child test []]) ∧
      Derives .expression (.symbol .slash :: .axis "descendant" :: .symbol .colonColon :: tokens)
        (.rootPath [.mk .descendant test []]) := by
  refine ⟨?_, ?_, fun tokens asked => ?_⟩
  · rw [evaluate_path, evaluate_path, walk_here_anyDepth h bare rfl]
  · rw [evaluate_rootPath, evaluate_rootPath, walk_anyDepth h bare rfl]
  · have child : Derives .step tokens (.mk .child test []) := by
      simpa using Derives.step .child asked .noPredicates
    have descendant : Derives .steps (.axis "descendant" :: .symbol .colonColon :: tokens)
        [.mk .descendant test []] := by
      simpa [Axis.name] using Derives.steps (.step (.named .descendant) asked .noPredicates) .noSteps
    have alone : Derives .steps tokens [.mk .child test []] := by
      simpa using Derives.steps child .noSteps
    have deeper : Derives .furtherSteps (.symbol .doubleSlash :: tokens) [.anyDepth, .mk .child test []] := by
      simpa using Derives.deeperStep child .noSteps
    exact ⟨.of_path (.relative (.steps .here deeper)), .of_path (.relative descendant),
      .of_path (.anywhere alone), .of_path (.absolute descendant)⟩

/-- Below a document type declaration there is nothing to be found, and below the document node two elements
of one name at different depths. -/
theorem evaluate_anyDepth_doctype : ∃ d, Document.ofString .default "<!DOCTYPE a><a><b/>x<c><b/></c></a>" = .ok d ∧
    (d.content ⟨1⟩).isDoctype = true ∧
    d.evaluate [] [] (.path [.here, .anyDepth, .mk .child (.name ⟨none, "b"⟩) []]) (.node ⟨1⟩) 1 1 = .ok (.hits []) ∧
    d.evaluate [] [] (.rootPath [.anyDepth, .mk .child (.name ⟨none, "b"⟩) []]) (.node ⟨1⟩) 1 1 =
      .ok (.hits [.node ⟨3⟩, .node ⟨6⟩]) := by
  let tag (name : String) : Content := .element (.named ⟨none, name⟩)
  let inside : Forest Content := .tree (tag "b") .nil
  let top : Forest Content := .cons (tag "b") .nil (.cons (.text "x") .nil (.tree (tag "c") inside))
  let m : Markup := ⟨.absent, .cons (.doctype "a" none none) .nil (.tree (tag "a") top), []⟩
  have parsed : Markup.ofString .default "<!DOCTYPE a><a><b/>x<c><b/></c></a>" = .ok m := by
    decide +kernel
  have made : Made (ofMarkup m) := .read ⟨.default, _, parsed⟩ .absent
  obtain ⟨below, anywhere, -⟩ :=
    evaluate_anyDepth made.headed made.bareDoctypes [] [] (.name ⟨none, "b"⟩) (.node ⟨1⟩) 1 1
  have nothing : Step.walk ⟨(ofMarkup m).tree, [], []⟩ [.mk .descendant (.name ⟨none, "b"⟩) []]
      [(ofMarkup m).place (.node ⟨1⟩)] = .ok [] := by
    decide +kernel
  have both : Step.walk ⟨(ofMarkup m).tree, [], []⟩ [.mk .descendant (.name ⟨none, "b"⟩) []] [.node 0] =
      .ok [.node 3, .node 6] := by
    decide +kernel
  have hits : (ofMarkup m).hits [.node 3, .node 6] = [.node ⟨3⟩, .node ⟨6⟩] := by
    decide +kernel
  refine ⟨_, Document.ofString_ok.mpr ⟨m, parsed, rfl⟩, by decide +kernel, below.trans ?_, anywhere.trans ?_⟩
  · rw [evaluate_path]
    exact congrArg _ nothing
  · rw [evaluate_rootPath, ← hits]
    exact congrArg _ both

end Document

end XmlStore
