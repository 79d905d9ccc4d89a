/-
Saving included elements to their files. One of them after the other, the last
one first, goes to the file it came from, and a reference takes its place.
Files are only written over with what they held, up to the form of references,
and in the end the document is left as it was before anything was included.
-/
import XmlStore.Proofs.Overwritten
import XmlStore.Proofs.Rewritten
import XmlStore.Proofs.Withdrawn

namespace XmlStore

namespace Document

variable {d d' : Document} {a id p : NodeId} {content : Content} {names : List String}

/-! ## Another content for a node -/

/-- The second document is the first one with other content in a node. -/
structure Relabelled (d d' : Document) (id : NodeId) (new : Content) : Prop where
  target : ∀ link a, d'.target link a = d.target link a
  size : d'.size = d.size
  declaration : d'.declaration = d.declaration
  content : ∀ a, d'.content a = if a = id then new else d.content a

theorem relabelled_removeAttribute (has : d.Has id) (name : String) :
    Relabelled d (d.removeAttribute id name) id ((d.content id).mapElement (·.removeAttribute name)) where
  target _ _ := target_modifyContent _
  size := size_modifyContent _
  declaration := rfl
  content _ := content_modifyContent has _

theorem relabelled_removeAttributes (has : d.Has id) (names : List String) :
    Relabelled d (names.foldl (fun d name => d.removeAttribute id name) d) id
      (names.foldl (fun content name => content.mapElement (·.removeAttribute name)) (d.content id)) := by
  induction names generalizing d with
  | nil =>
    refine ⟨fun _ _ => rfl, rfl, rfl, fun a => ?_⟩
    split
    · rename_i e
      rw [e]
      rfl
    · rfl
  | cons name names ih =>
    have first := relabelled_removeAttribute has name
    have others := ih (d := d.removeAttribute id name) (by rwa [Has, first.size])
    rw [first.content id, if_pos rfl] at others
    refine ⟨fun link a => (others.target link a).trans (first.target link a), others.size.trans first.size,
      others.declaration.trans first.declaration, fun a => (others.content a).trans ?_⟩
    rw [List.foldl_cons, first.content]
    split <;> rfl

namespace Relabelled

theorem has (r : Relabelled d d' id content) : d'.Has a ↔ d.Has a := by rw [Has, Has, r.size]

theorem rooted (r : Relabelled d d' id content) (h : d.Rooted) : d'.Rooted := h.of_same_links r.target r.size

theorem children (r : Relabelled d d' id content) (h : d.WellLinked) : d'.children = d.children :=
  (h.congr r.target).2

theorem below (r : Relabelled d d' id content) (h : d.WellLinked) (a : NodeId) : d'.below a = d.below a := by
  have levels (n : Nat) (a : NodeId) : d'.levels n a = d.levels n a := by
    induction n generalizing a with
    | zero => rfl
    | succ n ih =>
      rw [levels_succ, levels_succ, r.children h]
      exact List.foldr_ext _ _ _ fun c _ rest => by rw [ih]
  rw [Document.below, Document.below, r.size, levels]

theorem contents (r : Relabelled d d' id content) (h : d.WellLinked) (has : d.Has id) :
    d'.contents id = d.contents id := by
  rw [Document.contents, Document.contents, r.below h]
  refine Forest.map_congr fun a mem => ?_
  rw [r.content, if_neg]
  rintro rfl
  exact h.not_mem_below has mem

theorem ancestors (r : Relabelled d d' id content) (a : NodeId) : d'.ancestors a = d.ancestors a := by
  have parents : d'.parent? = d.parent? := funext fun b => r.target .parent b
  rw [Document.ancestors, Document.ancestors, r.size, parents]

end Relabelled

/-- A tree of its own in a new document. -/
theorem contents_append_graft (top : Content) (below : Forest Content) :
    let made := empty.graft top below
    (made.2.append root made.1).contents root = .tree top below ∧
      (made.2.append root made.1).declaration = .absent := by
  intro made
  have blank : empty.Rooted := rooted_blank .absent
  have copied : Copied empty made.2 made.1 top below := copied_graft blank.wellLinked top below
  have has_root := copied.toKeeps.has blank.has_root
  have new : ¬ empty.Has made.1 := Nat.not_lt_of_le copied.new
  have fit : made.2.Insertable made.1 root :=
    copied.beside.insertable blank.wellLinked copied.wellLinked blank.has_root
  have appended := edited_append copied.wellLinked fit
  have childless : made.2.children root = [] := copied.children root blank.has_root
  have kept (a : NodeId) (ne : a ≠ root) : (made.2.append root made.1).children a = made.2.children a := by
    rw [appended.children, Function.update_of_ne ne]
  have shown : (made.2.append root made.1).Shows 1 [made.1] (.tree top below) := by
    refine ⟨made.1, [], rfl, copied.new, appended.has copied.has,
      (appended.content _ copied.has).trans copied.content_top, ?_, rfl⟩
    rw [kept made.1 (copied.beside.ne_root blank)]
    refine copied.shown.frame (Nat.le_refl 1) fun a low ha => ⟨appended.has ha, appended.content a ha, kept a ?_⟩
    rintro rfl
    exact absurd low (by decide)
  refine ⟨?_, appended.declaration.trans copied.declaration⟩
  refine Shows.contents (n := 1) appended.wellLinked (appended.has has_root) ?_
  rw [appended.children, Function.update_self, childless]
  exact shown

end Document

namespace External

open Document (Grown Replaced Relabelled)

variable {files files' : Files} {options : ReadOptions} {o : WriteOptions} {base : Option String}
variable {d d' : Document} {id p : NodeId} {ids before after : List NodeId} {f g children : Forest Content}
variable {content : Content} {name directory : String}

/-! ## A reference in place of an element -/

theorem addTextElement_eq (d : Document) (p : NodeId) (name text : String) :
    d.addTextElement p (.named ⟨none, name⟩) text = (⟨d.size⟩, Document.addForest p (textTree name text) d) := by
  rw [Document.addTextElement, textTree]
  by_cases empty : text.isEmpty = true
  · rw [if_pos empty]
    dsimp only
    rw [if_pos empty]
    rfl
  · rw [if_neg empty]
    dsimp only
    rw [if_neg empty]
    rfl

/-- Where there is no reference yet, a new one comes behind the other children. -/
theorem restoreReference_eq (hp : d.parent? id = some p) (none : d.childrenNamed p referenceName = []) :
    restoreReference id name directory d =
      (Document.addForest p (.tree referenceContent (referenceTo directory [name])) d).detach id := by
  rw [restoreReference, hp, Option.getD_some, holder, none]
  dsimp only [List.find?_nil]
  rw [addTextElement_eq, addTextElement_eq, addTextElement_eq]
  dsimp only
  rw [referenceTo, namedFiles, namedFiles, Forest.append_nil]
  refine congrArg (Document.detach · id) ?_
  change _ = Document.addForest ⟨d.size⟩ (textTree pathName directory ++ textTree fileNameName name)
    ((d.create referenceContent).2.append p ⟨d.size⟩)
  rw [Document.addForest_append]
  rfl

/-- An element that is in the scope of no declaration is written as it is. -/
theorem write_extract (undeclared : ∀ a ∈ (d.ancestors id).drop 1, (d.content a).bindings = []) :
    (extract d id).write o = o.writeDocument .absent (.tree (d.content id) (d.contents id)) := by
  have none : (((d.ancestors id).drop 1).flatMap fun above => (d.content above).bindings) = [] :=
    List.flatMap_eq_nil_iff.mpr undeclared
  obtain ⟨contents, declaration⟩ := Document.contents_append_graft (d.content id) (d.contents id)
  have own (top : NodeId) (d : Document) : inheritBindings [] top d = d := rfl
  rw [extract, none]
  dsimp only
  rw [own, Document.write, Document.importFrom, contents, declaration]

/-! ## Where included elements stand -/

theorem Sourced.of_append (h : Sourced files options base (f ++ g)) : Sourced files options base g := by
  induction f with
  | nil => exact h
  | cons content children later _ ih => exact ih h.2.2

theorem Sourced.isSource_eq_false (h : Sourced files options base (f ++ g)) (some : g ≠ .nil) :
    ∀ content ∈ f.roots, isSource content = false := by
  induction f with
  | nil => exact nofun
  | cons content children later _ ih =>
    obtain ⟨last, -, behind⟩ := h
    refine List.forall_mem_cons.mpr ⟨?_, ih behind⟩
    by_contra source
    have none : later ++ g = .nil := last (by simpa using source)
    cases later with
    | nil => exact some none
    | cons => cases none

theorem settled_of_append (h : Settled (f ++ g)) : Settled g := by
  induction f with
  | nil => exact h
  | cons content children later _ ih => exact ih (settled_cons.mp h).2

theorem holdsMarked_append : holdsMarked (f ++ g) = (holdsMarked f || holdsMarked g) := by
  rw [holdsMarked, Forest.preorder_append, List.any_append]
  rfl

section

variable {plain : Forest Content} {a : NodeId} (h : d.Rooted) (top : d.content Document.root = .document)
  (returnable : Returnable files options base plain (d.contents Document.root))

include h in
theorem contents_of_children (has : d.Has p) (place : d.children p = before ++ a :: after) : d.contents p =
    d.forest before ++ .cons (d.content a) (d.contents a) (d.forest after) := by
  rw [h.wellLinked.contents_eq has, place, Document.forest_append]
  rfl

include h top returnable in
/-- Around an included element there are no references, and no namespaces are declared. -/
theorem Returnable.inside (ha : d.Attached a) (some : holdsMarked (d.contents a) = true) :
    Sourced files options base (d.contents a) ∧ Settled (d.contents a) ∧
      ∀ b ∈ d.ancestors a, (d.content b).bindings = [] := by
  have linked := h.wellLinked
  revert some
  refine h.induction_down (P := fun a => holdsMarked (d.contents a) = true → Sourced files options base (d.contents a) ∧
    Settled (d.contents a) ∧ ∀ b ∈ d.ancestors a, (d.content b).bindings = []) (fun _ => ?_) ?_ ha
  · refine ⟨returnable.sourced, returnable.settled, ?_⟩
    rw [linked.ancestors_of_top h.has_root h.parent_root, List.forall_mem_singleton, top]
    rfl
  · intro a p attached _ hp above some
    obtain ⟨before, after, place⟩ := List.append_of_mem ((linked.parent a p).mpr hp)
    have shape := contents_of_children h attached.has place
    obtain ⟨sourced, settled, undeclared⟩ := above (by simp [shape, holdsMarked_append, holdsMarked_cons, some])
    rw [shape] at sourced settled
    have settled := settled_of_append settled
    have other := isReference_eq_false_of_holdsMarked settled some
    obtain ⟨-, here, -⟩ := sourced.of_append
    have form := (settled_cons.mp settled).1
    rw [if_neg (by simp [other])] at here form
    obtain ⟨found, mem, marked⟩ := List.any_eq_true.mp some
    refine ⟨here.2.2, form, ?_⟩
    rw [linked.ancestors_eq hp, List.forall_mem_cons]
    exact ⟨here.2.1 ⟨found, mem, by rw [isSource, marked, Bool.or_true]⟩, undeclared⟩

/-- An included element comes last below a node that no reference is below, in the scope of no declaration. -/
structure Placed (files : Files) (options : ReadOptions) (base : Option String) (d : Document) (id p : NodeId)
    (before : List NodeId) : Prop where
  last : d.children p = before ++ [id]
  included : Included files options base (d.content id) (d.contents id)
  settled : Settled (d.contents id)
  others : ∀ c ∈ before ++ [id], isReference (d.content c) = false
  undeclared : ∀ b ∈ d.ancestors p, (d.content b).bindings = []

include h top returnable in
theorem Returnable.placed (ha : d.Attached id) (marked : carriesMarks (d.content id) = true) :
    ∃ p before, d.parent? id = some p ∧ Placed files options base d id p before := by
  have ne : id ≠ Document.root := by
    rintro rfl
    rw [top] at marked
    exact absurd marked (by decide)
  obtain ⟨p, hp, attached⟩ := h.parent_of_attached ha ne
  obtain ⟨before, after, place⟩ := List.append_of_mem ((h.wellLinked.parent id p).mpr hp)
  have shape := contents_of_children h attached.has place
  obtain ⟨sourced, settled, undeclared⟩ := returnable.inside h top attached
    (by simp [shape, holdsMarked_append, holdsMarked_cons, marked])
  rw [shape] at sourced settled
  have elsewhere := sourced.isSource_eq_false (fun none => by cases none)
  have settled := settled_of_append settled
  have other := isReference_eq_false_of_marked settled marked
  obtain ⟨last, here, -⟩ := sourced.of_append
  have form := (settled_cons.mp settled).1
  rw [if_neg (by simp [other])] at here form
  have none : d.forest after = .nil := last (by rw [isSource, marked, Bool.or_true])
  obtain rfl : after = [] := by
    cases after with
    | nil => rfl
    | cons => cases none
  refine ⟨p, before, hp, place, here.1 marked, form, ?_, undeclared⟩
  rw [roots_forest, List.forall_mem_map] at elsewhere
  rw [List.forall_mem_append, List.forall_mem_singleton]
  exact ⟨fun c hc => (Bool.or_eq_false_iff.mp (elsewhere c hc)).1, other⟩

end

/-! ## The last included element -/

theorem markedElements_eq (h : d.Rooted) : markedElements d =
    ((d.below Document.root).preorder.filter (carriesMarks ∘ d.content)).reverse := by
  rw [markedElements, h.wellLinked.descendants_eq h.has_root]
  rfl

theorem filter_of_markedElements (h : d.Rooted) (next : markedElements d = id :: ids) :
    (d.below Document.root).preorder.filter (carriesMarks ∘ d.content) = ids.reverse ++ [id] := by
  rw [← List.reverse_cons, ← next, markedElements_eq h, List.reverse_reverse]

theorem last_of_markedElements (h : d.Rooted) (next : markedElements d = id :: ids) :
    (d.below Document.root).Last (carriesMarks ∘ d.content) id := by
  have order := Document.documentOrder_nodup h
  rw [Document.documentOrder_eq h.wellLinked h.has_root] at order
  exact .of_filter (List.nodup_cons.mp order).2 (filter_of_markedElements h next)

/-- Nothing that has been included is in the last included element. -/
theorem holdsMarked_last (h : d.WellLinked) {f : Forest NodeId} (branches : d.Branches f)
    (inside : ∀ a ∈ f.preorder, d.Has a) (last : f.Last (carriesMarks ∘ d.content) id) :
    holdsMarked (d.contents id) = false := by
  induction last with
  | @here children rest _ noneInside _ _ =>
    obtain ⟨kids, inner, -⟩ := branches
    simp only [Forest.preorder, List.mem_cons, List.mem_append] at inside
    have shape := h.eq_spread inner fun b hb => inside b (.inr (.inl (children.roots_subset hb)))
    rw [kids] at shape
    have below : d.below id = children := (h.below_eq (inside id (.inl rfl))).trans shape.symm
    rw [Document.contents, below]
    exact holdsMarked_map_eq_false noneInside
  | inside _ _ _ _ ih => exact ih branches.2.1 fun a ha => inside a (by simp [Forest.preorder, ha])
  | behind _ _ _ ih => exact ih branches.2.2 fun a ha => inside a (by simp [Forest.preorder, ha])

theorem holdsMarked_reference : holdsMarked (.tree referenceContent (sourceOf content)) = false := by
  rw [Forest.tree, holdsMarked_cons, sourceOf, referenceTo, holdsMarked_textTree_append, holdsMarked_namedFiles]
  decide

/-- When a reference takes the place of the last included element, the others are left. -/
theorem withdrawn_of_replaced {labelled : Document} (h : d.Rooted) (label : Relabelled d labelled id content)
    (r : Replaced labelled d' id (.tree referenceContent (sourceOf (d.content id)))) (ne : id ≠ Document.root)
    (next : markedElements d = id :: ids) :
    d'.contents Document.root = withdrawn (d.contents Document.root) ∧ markedElements d' = ids := by
  have linked := h.wellLinked
  obtain ⟨new, shown, below⟩ := r.below_root (label.rooted h) ne
  rw [label.below linked] at below
  have same : ∀ b ∈ (d.below Document.root).preorder, b ≠ id → d'.content b = d.content b := by
    intro b mem other
    rw [r.content b (label.has.mpr (linked.has_below b mem)), label.content, if_neg other]
  have last := last_of_markedElements h next
  constructor
  · rw [Document.contents, below, map_exchange last same shown]
    rfl
  · have unmarked : (d'.spread new).preorder.filter (carriesMarks ∘ d'.content) = [] := by
      have none : holdsMarked ((d'.spread new).map d'.content) = false := shown ▸ holdsMarked_reference
      rw [holdsMarked, Forest.preorder_map, List.any_map, List.any_eq_false] at none
      exact List.filter_eq_nil_iff.mpr none
    have kept : _ = ((d.below Document.root).exchange id (d'.spread new)).preorder.filter (carriesMarks ∘ d'.content) ++
        [id] := last.filter_exchange (fun b mem other => congrArg carriesMarks (same b mem other)) unmarked
    rw [filter_of_markedElements h next] at kept
    rw [markedElements_eq r.rooted, below, ← List.append_inj_left' kept rfl, List.reverse_reverse]

/-! ## Where included elements go -/

/-- An element without the marks of an included one. -/
def unmarked (content : Content) : Content :=
  marks.foldl (fun content mark => content.mapElement (·.removeAttribute mark)) content

/-- The file that an included element comes from, and what it holds. -/
structure Source (files : Files) (options : ReadOptions) (base : Option String) (content : Content)
    (name directory resolved : String) (bytes : Bytes) (below : Forest Content) : Prop where
  file : content.attribute? fileMark = some name
  place : content.attribute? directoryMark = some (directoryUri directory)
  found : localDirectory? base directory = some resolved
  read : files.read (FilePath.join resolved name) = .ok bytes
  root : contentRoot? options bytes = some (unmarked content, below)
  restorable : Restorable (unmarked content) below

theorem Included.source (included : Included files options base content children) :
    ∃ name directory resolved bytes below, Source files options base content name directory resolved bytes below ∧
      collapsed children = normal below := by
  cases included with
  | @intro name directory location resolved tag below children restorable found root same =>
    have bare := restorable.unmarked
    have back : unmarked (marked name directory location (.element tag)) = .element tag := unmark_marked bare
    rw [fileRoot?] at root
    split at root
    · rename_i bytes read
      refine ⟨name, directory, resolved, bytes, below, ⟨fileMark_marked bare, directoryMark_marked bare, found, read, ?_, ?_⟩,
        same⟩
      · rw [back, root]
      · rwa [back]
    · cases root

theorem Source.sourceOf_eq {resolved : String} {bytes : Bytes} {below : Forest Content}
    (source : Source files options base content name directory resolved bytes below) :
    sourceOf content = referenceTo (directoryUri directory) [name] := by
  rw [sourceOf, source.place, source.file]
  rfl

/-- A document in which an included element has lost its marks. -/
def bared (d : Document) (id : NodeId) : Document := marks.foldl (fun d name => d.removeAttribute id name) d

theorem relabelled_bared (has : d.Has id) : Relabelled d (bared d id) id (unmarked (d.content id)) :=
  Document.relabelled_removeAttributes has marks

section

variable (placed : Placed files options base d id p before) (h : d.Rooted) (hp : d.parent? id = some p)

include placed h hp

/-- A reference comes in place of an included element. -/
theorem Placed.replaced (other : isReference (unmarked (d.content id)) = false) (name directory : String) :
    Replaced (bared d id) (restoreReference id name directory (bared d id)) id
      (.tree referenceContent (referenceTo directory [name])) := by
  have label := relabelled_bared (Document.has_of_target hp)
  have rooted := label.rooted h
  have last : (bared d id).children p = before ++ [id] := by rw [label.children h.wellLinked, placed.last]
  have none : (bared d id).childrenNamed p referenceName = [] := by
    rw [Document.childrenNamed, last, List.filter_eq_nil_iff]
    intro c hc
    rw [label.content]
    split
    · exact Bool.eq_false_iff.mp other
    · exact Bool.eq_false_iff.mp (placed.others c hc)
  rw [restoreReference_eq ((label.target .parent id).trans hp) none]
  have has_p := label.has.mpr (h.wellLinked.has_parent hp)
  exact (Document.grown_addForest rooted.wellLinked has_p).replaced rooted last

/-- An included element is written as it is in its file. -/
theorem Placed.write_extract : (extract (bared d id) id).write o =
    o.writeDocument .absent (.tree (unmarked (d.content id)) (d.contents id)) := by
  have linked := h.wellLinked
  have has := Document.has_of_target hp
  have label := relabelled_bared has
  rw [External.write_extract, label.content id, if_pos rfl, label.contents linked has]
  intro a mem
  rw [label.ancestors, linked.ancestors_eq hp, List.drop_one, List.tail_cons] at mem
  rw [label.content, if_neg]
  · exact placed.undeclared a mem
  · rintro rfl
    have nodup := (linked.ancestors has).nodup
    rw [linked.ancestors_eq hp] at nodup
    exact (List.nodup_cons.mp nodup).1 mem

end

/-! ## Files that hold the same -/

/-- A file that is written over holds the same if what is written does. -/
theorem Alike.overwritten {files'' : Files} {path : String} {bytes old new : Bytes} (alike : Alike options files files')
    (known : files.read path = .ok bytes) (held : normalRoot? options new = normalRoot? options bytes)
    (before : files'.read path = .ok old)
    (reads : ∀ other, files''.read other = files'.read other ∨ files'.read other = .ok old ∧ files''.read other = .ok new) :
    Alike options files files'' := by
  intro other content read
  obtain ⟨content', read', same⟩ := alike other content read
  rcases reads other with kept | ⟨here, written⟩
  · exact ⟨content', kept.trans read', same⟩
  · obtain ⟨old', before', same'⟩ := alike path bytes known
    obtain rfl := Except.ok.inj (before.symm.trans before')
    obtain rfl := Except.ok.inj (here.symm.trans read')
    exact ⟨new, written, (held.trans same'.symm).trans same⟩

theorem run_writeFile {path text : String} (written : files.write path (utf8Bytes text) = .ok files') :
    (writeFile path text).run.run files = (.ok (), files') := by
  have read : (getThe Files : Saving Files).run.run files = (.ok files, files) := rfl
  rw [writeFile, ExceptT.run_bind, StateT.run_bind, read]
  change (StateT.run (ExceptT.run (_ : Saving Unit)) files) = _
  rw [written]
  rfl

theorem run_splitElement {base name directory resolved : String} {bytes : Bytes} {below : Forest Content}
    {files'' : Files} (source : Source files options (some base) (d.content id) name directory resolved bytes below)
    (written : files'.write (FilePath.join resolved name) (utf8Bytes ((extract (bared d id) id).write o)) = .ok files'') :
    (splitElement base o d id).run.run files' =
      (.ok (restoreReference id name (directoryUri directory) (bared d id)), files'') := by
  have file : (d.attribute? id fileMark).getD "" = name := by
    rw [Document.attribute?, source.file]
    rfl
  have place : (d.attribute? id directoryMark).getD "" = directoryUri directory := by
    rw [Document.attribute?, source.place]
    rfl
  have found : localDirectory? (some base) (directoryUri directory) = some resolved :=
    localDirectory?_directoryUri.trans source.found
  rw [splitElement, file, place, found]
  dsimp only
  change (writeFile (FilePath.join resolved name) ((extract (bared d id) id).write o) >>= fun _ =>
    pure (restoreReference id name (directoryUri directory) (bared d id)) : Saving Document).run.run files' = _
  rw [ExceptT.run_bind, StateT.run_bind, run_writeFile written]
  rfl

/-! ## One element after the other -/

/-- What holds while included elements go to their files: they can still go back, which leaves a certain document,
and the files hold what they held. -/
structure Parting (files : Files) (options : ReadOptions) (base : String) (plain : Forest Content)
    (declaration : Declaration) (d : Document) (files' : Files) : Prop where
  rooted : d.Rooted
  top : d.content Document.root = .document
  declared : d.declaration = declaration
  returnable : Returnable files options (some base) plain (d.contents Document.root)
  grounded : files'.Grounded
  alike : Alike options files files'

variable {plain : Forest Content} {declaration : Declaration}

section

variable (sieves : options.noBlanks = true) (unit : ∀ ch ∈ o.indentUnit.toList, ch = ' ' ∨ ch = '\t')
  (encoded : o.encoding = some "utf-8")

include sieves unit encoded

/-- What is written to the file of an included element is what the file held. -/
theorem Source.normalRoot?_written {resolved : String} {bytes : Bytes} {below : Forest Content}
    (source : Source files options base content name directory resolved bytes below) :
    normalRoot? options (utf8Bytes (o.writeDocument .absent (.tree (unmarked content) (normal below)))) =
      normalRoot? options bytes := by
  have other : ¬ isReference (unmarked content) = true := Bool.eq_false_iff.mp source.restorable.other
  rw [normalRoot?_eq other source.root,
    normalRoot?_eq other (contentRoot?_rewritten sieves unit encoded source.root source.restorable), normal_normal]

theorem Parting.splitElement {base : String} (h : Parting files options base plain declaration d files')
    (next : markedElements d = id :: ids) : ∃ d' files'',
      (External.splitElement base o d id).run.run files' = (.ok d', files'') ∧
        Parting files options base plain declaration d' files'' ∧ markedElements d' = ids := by
  have rooted := h.rooted
  have linked := rooted.wellLinked
  have listed : id ∈ markedElements d := by simp [next]
  rw [markedElements, List.mem_reverse, List.mem_filter] at listed
  obtain ⟨mem, marked⟩ := listed
  have attached := Document.attached_descendants rooted (Document.attached_root rooted) id mem
  obtain ⟨p, before, hp, placed⟩ := h.returnable.placed rooted h.top attached marked
  obtain ⟨name, directory, resolved, bytes, below, source, same⟩ := placed.included.source
  have has := Document.has_of_target hp
  have label := relabelled_bared has
  have ne : id ≠ Document.root := by
    rintro rfl
    cases rooted.parent_root.symm.trans hp
  have last := last_of_markedElements rooted next
  have inside : d.contents id = normal below := by
    rw [← same, collapsed_of_not_holdsMarked
      (holdsMarked_last linked (linked.branches_below rooted.has_root) linked.has_below last), placed.settled]
  have text : (extract (bared d id) id).write o =
      o.writeDocument .absent (.tree (unmarked (d.content id)) (normal below)) := by
    rw [placed.write_extract rooted hp, inside]
  have replaced := placed.replaced rooted hp source.restorable.other name (directoryUri directory)
  rw [← source.sourceOf_eq] at replaced
  obtain ⟨contents, others⟩ := withdrawn_of_replaced rooted label replaced ne next
  obtain ⟨old, known, -⟩ := h.alike _ bytes source.read
  obtain ⟨files'', written, grounded, -, reads⟩ :=
    Files.write_of_read h.grounded known (utf8Bytes ((extract (bared d id) id).write o))
  have held : normalRoot? options (utf8Bytes ((extract (bared d id) id).write o)) = normalRoot? options bytes := by
    rw [text]
    exact source.normalRoot?_written sieves unit encoded
  refine ⟨_, files'', run_splitElement source written, ⟨replaced.rooted, ?_, ?_, ?_, grounded, ?_⟩, others⟩
  · rw [replaced.content _ (label.has.mpr rooted.has_root), label.content, if_neg ne.symm, h.top]
  · exact (replaced.declaration.trans label.declaration).trans h.declared
  · rw [contents]
    exact h.returnable.withdrawn (holdsMarked_of_last last)
  · exact h.alike.overwritten source.read held known reads

/-- All included elements go to their files, and the document is left as it was before they were included. -/
theorem Parting.split {base : String} (h : Parting files options base plain declaration d files') :
    ∃ d' files'', ((markedElements d).foldlM (External.splitElement base o) d).run.run files' = (.ok d', files'') ∧
      Parting files options base plain declaration d' files'' ∧ d'.contents Document.root = plain := by
  generalize listed : markedElements d = ids
  induction ids generalizing d files' with
  | nil =>
    refine ⟨d, files', rfl, h, ?_⟩
    rw [markedElements_eq h.rooted, List.reverse_eq_nil_iff] at listed
    have none : holdsMarked (d.contents Document.root) = false := holdsMarked_map_eq_false listed
    rw [← h.returnable.back, collapsed_of_not_holdsMarked none, h.returnable.settled]
  | cons id ids ih =>
    obtain ⟨d₁, files₁, first, parting, others⟩ := h.splitElement sieves unit encoded listed
    obtain ⟨d', files'', rest, left, contents⟩ := ih parting others
    refine ⟨d', files'', ?_, left, contents⟩
    rw [List.foldlM_cons, ExceptT.run_bind, StateT.run_bind, first]
    exact rest

end

end External

end XmlStore
