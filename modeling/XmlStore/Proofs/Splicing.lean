/-
Putting what references name in their place, as a change of forests. The first
reference in a document is replaced until there is none left. Each of these
rounds is seen from the forest alone: from what the reference holds, and from
the names on the way to where it stands.
-/
import XmlStore.Proofs.Axes
import XmlStore.Proofs.Includes

namespace XmlStore

open Tracked (Ensures)

/-! ## References in a forest -/

namespace Document

variable {d : Document} {f : Forest NodeId} {p : NodeId → Bool} {t : NodeId × Forest NodeId}

/-- The trees in a forest of nodes are made up of what is below their topmost nodes. -/
theorem WellLinked.outermost_eq (h : d.WellLinked) (branches : d.Branches f) (inside : ∀ a ∈ f.preorder, d.Has a)
    (ht : t ∈ f.outermost p) : d.Has t.1 ∧ t.2 = d.below t.1 := by
  induction f with
  | nil => cases ht
  | cons a children rest ihc ihr =>
    obtain ⟨kids, inner, outer⟩ := branches
    simp only [Forest.preorder, List.mem_cons, List.mem_append] at inside
    have has_a := inside a (.inl rfl)
    rw [Forest.outermost] at ht
    split at ht
    · rcases List.mem_cons.mp ht with rfl | later
      · have shape := h.eq_spread inner fun b hb => inside b (.inr (.inl (children.roots_subset hb)))
        rw [kids] at shape
        exact ⟨has_a, shape.trans (h.below_eq has_a).symm⟩
      · exact ihr outer (fun b hb => inside b (.inr (.inr hb))) later
    · rcases List.mem_append.mp ht with within | later
      · exact ihc inner (fun b hb => inside b (.inr (.inl hb))) within
      · exact ihr outer (fun b hb => inside b (.inr (.inr hb))) later

end Document

namespace External

open Document (Replaced)

variable {files : Files} {options : ReadOptions} {base : Option String} {d : Document} {id : NodeId}
variable {item children f g : Forest Content} {items rest : List (Forest Content)} {top : Content}
variable {path name directory resolved location : String}

/-- The references in a forest by what they hold, those inside others left out. -/
def references (f : Forest Content) : List (Forest Content) := (f.outermost isReference).map (·.2)

theorem references_append : references (f ++ g) = references f ++ references g := by
  rw [references, Forest.outermost_append, List.map_append]
  rfl

theorem name_setAttribute (e : Element) (value : String) (uri : Option String) :
    (e.setAttribute name value uri).name = e.name := by
  rw [Element.setAttribute]
  split <;> rfl

theorem isReference_marked : isReference (marked name directory location top) = isReference top := by
  cases top with
  | element tag => simp [marked, isReference, Content.isNamed, Content.qualifiedName?, Content.mapElement,
      Content.element?, name_setAttribute]
  | _ => rfl

theorem references_marked : references (.tree (marked name directory location top) f) = references (.tree top f) := by
  simp only [references, Forest.tree, Forest.outermost, isReference_marked]
  split <;> rfl

/-- Replacing the first tree leaves the references in those that take its place, then the others. -/
theorem references_replaceFirst (h : references f = item :: rest) :
    references (f.replaceFirst isReference g) = references g ++ rest := by
  obtain ⟨t, ts, e, -, rfl⟩ := List.map_eq_cons_iff.mp h
  rw [references, Forest.outermost_replaceFirst e, List.map_append]
  rfl

theorem references_contents (h : d.Rooted) : references (d.contents Document.root) =
    ((d.below Document.root).outermost (isReference ∘ d.content)).map fun t => d.contents t.1 := by
  have linked := h.wellLinked
  rw [references, Document.contents, Forest.outermost_map, List.map_map]
  refine List.map_congr_left fun t ht => ?_
  obtain ⟨-, shape⟩ := linked.outermost_eq (linked.branches_below h.has_root) linked.has_below ht
  exact congrArg (Forest.map d.content) shape

theorem firstReference?_eq (h : d.Rooted) : firstReference? d =
    ((d.below Document.root).outermost (isReference ∘ d.content)).head?.map (·.1) := by
  rw [firstReference?, h.wellLinked.descendants_eq h.has_root]
  exact Forest.find?_preorder _ _

/-- The paths of the files that a reference names. -/
def targets (base : Option String) (children : Forest Content) : List String :=
  match target? children with
  | some (directory, names) =>
    match localDirectory? base directory with
    | some resolved => names.map (FilePath.join resolved)
    | none => []
  | none => []

/-- The references in the file at a path. -/
def fileReferences (files : Files) (options : ReadOptions) (path : String) : List (Forest Content) :=
  match fileRoot? files options path with
  | some (top, below) => references (.tree top below)
  | none => []

/-- The references that come in place of one. -/
def successors (files : Files) (options : ReadOptions) (base : Option String) (children : Forest Content) :
    List (Forest Content) :=
  (targets base children).flatMap (fileReferences files options)

theorem references_broughtBy : references (broughtBy files options resolved directory location name) =
    fileReferences files options (FilePath.join resolved name) := by
  rw [broughtBy, fileReferences]
  cases fileRoot? files options (FilePath.join resolved name) with
  | none => rfl
  | some root => exact references_marked

theorem references_broughtByAll (names : List String) :
    references (broughtByAll files options resolved directory location names) =
      (names.map (FilePath.join resolved)).flatMap (fileReferences files options) := by
  induction names with
  | nil => rfl
  | cons name names ih => rw [broughtByAll, references_append, references_broughtBy, ih, List.map_cons, List.flatMap_cons]

theorem references_brought :
    references (brought files options base location children) = successors files options base children := by
  rw [brought, successors, targets]
  cases target? children with
  | none => rfl
  | some target =>
    obtain ⟨directory, names⟩ := target
    dsimp only
    cases localDirectory? base directory with
    | none => rfl
    | some resolved => exact references_broughtByAll names

/-! ## Where the first reference stands -/

/-- The steps from a node that holds this forest, behind these siblings in reverse, to the node that holds
the first reference. -/
def firstTrail (before : List Content) : Forest Content → List String
  | .nil => []
  | .cons content children later =>
    if isReference content then []
    else if (references children).isEmpty then firstTrail (content :: before) later
    else content.step before later.roots :: firstTrail [] children

/-- A location as the steps to it. -/
def placeOf : List String → String
  | [] => "/"
  | steps => "/" ++ "/".intercalate steps

theorem location_eq (d : Document) (id : NodeId) : d.location id = placeOf ((d.trail id).map d.step) := by
  rw [Document.location, Document.trail, List.map_reverse]
  cases ((d.ancestors id).takeWhile (· ≠ Document.root)).map d.step with
  | nil => rfl
  | cons first steps =>
    have filled : (first :: steps).reverse ≠ [] := by simp
    rw [placeOf.eq_2 _ filled]

theorem isEmpty_references {f : Forest NodeId} : (references (f.map d.content)).isEmpty = true ↔
    f.preorder.find? (isReference ∘ d.content) = none := by
  rw [references, Forest.outermost_map, Forest.find?_preorder]
  cases f.outermost (isReference ∘ d.content) <;> simp

/-- The trail to the parent of the first reference goes through the parent of a forest of siblings. -/
theorem trail_first {f : Forest NodeId} {u : List NodeId} {p q : NodeId} (h : d.Rooted) (branches : d.Branches f)
    (place : d.children p = u.reverse ++ f.roots)
    (first : f.preorder.find? (isReference ∘ d.content) = some id) (hq : d.parent? id = some q) :
    (d.trail q).map d.step = (d.trail p).map d.step ++ firstTrail (u.map d.content) (f.map d.content) := by
  have linked := h.wellLinked
  induction f generalizing u p with
  | nil => cases first
  | cons a below rest ihc ihr =>
    obtain ⟨kids, inner, outer⟩ := branches
    rw [Forest.roots] at place
    have hp : d.parent? a = some p := (linked.parent a p).mp (by simp [place])
    rw [Forest.preorder] at first
    rw [Forest.map, firstTrail]
    by_cases here : isReference (d.content a) = true
    · rw [List.find?_cons_of_pos (by exact here)] at first
      obtain rfl := Option.some.inj first
      obtain rfl := Option.some.inj (hp.symm.trans hq)
      rw [if_pos here, List.append_nil]
    · rw [List.find?_cons_of_neg (by exact here), List.find?_append] at first
      rw [if_neg here]
      cases inside : below.preorder.find? (isReference ∘ d.content) with
      | none =>
        rw [inside] at first
        rw [if_pos (isEmpty_references.mpr inside)]
        exact ihr (u := a :: u) outer (by simp [place]) first
      | some found =>
        rw [inside] at first
        obtain rfl := Option.some.inj first
        have filled : ¬ (references (below.map d.content)).isEmpty = true := by
          rw [isEmpty_references, inside]
          simp
        have ne : a ≠ Document.root := by
          rintro rfl
          exact h.root_top p (by simp [place])
        have siblings := linked.siblings_eq place
        have step : d.step a = (d.content a).step (u.map d.content) (rest.roots.map d.content) := by
          rw [Document.step, siblings.1, siblings.2, List.reverse_reverse]
        rw [if_neg filled, ihc (u := []) inner kids.symm inside, Document.trail_child h hp ne, List.map_append,
          List.append_assoc, Forest.roots_map, ← step]
        rfl

/-- The location of the node that holds the first reference is seen from the forest. -/
theorem location_first (h : d.Rooted) (first : firstReference? d = some id) :
    d.location ((d.parent? id).getD Document.root) = placeOf (firstTrail [] (d.contents Document.root)) := by
  have linked := h.wellLinked
  have found := first
  rw [firstReference?, linked.descendants_eq h.has_root] at found
  obtain ⟨q, child⟩ := Document.mem_children_levels _ _ id (List.mem_of_find?_eq_some found)
  have hq : d.parent? id = some q := (linked.parent id q).mp child
  have kids : d.children Document.root = ([] : List NodeId).reverse ++ (d.below Document.root).roots :=
    (Document.roots_below linked h.has_root).symm
  rw [hq, Option.getD_some, location_eq, trail_first h (linked.branches_below h.has_root) kids found hq,
    Document.trail_root h]
  rfl

/-! ## One reference after the other -/

/-- A forest with what the first reference in it names in place of that reference. -/
def spliced (files : Files) (options : ReadOptions) (base : Option String) (f : Forest Content) : Forest Content :=
  match references f with
  | [] => f
  | item :: _ => f.replaceFirst isReference (brought files options base (placeOf (firstTrail [] f)) item)

theorem spliced_of_references (next : references f = item :: rest) : spliced files options base f =
    f.replaceFirst isReference (brought files options base (placeOf (firstTrail [] f)) item) := by
  rw [spliced, next]

theorem references_spliced (next : references f = item :: rest) :
    references (spliced files options base f) = successors files options base item ++ rest := by
  rw [spliced_of_references next, references_replaceFirst next, references_brought]

/-- The second open document is the first one with another tree, which shows a forest. -/
structure Shows (start : OpenDocument) (f : Forest Content) (o : OpenDocument) : Prop where
  only : SameBut start o
  rooted : o.document.Rooted
  declaration : o.document.declaration = start.document.declaration
  contents : o.document.contents Document.root = f

section

variable {start : OpenDocument} {n : Nat}

theorem Shows.references {o : OpenDocument} (ho : Shows start f o) : references f =
    ((o.document.below Document.root).outermost (isReference ∘ o.document.content)).map
      fun t => o.document.contents t.1 := by
  rw [← ho.contents, references_contents ho.rooted]

theorem Shows.firstReference?_eq_none {o : OpenDocument} (ho : Shows start f o)
    (none : External.references f = []) : firstReference? o.document = .none := by
  rw [ho.references, List.map_eq_nil_iff] at none
  rw [firstReference?_eq ho.rooted, none]
  rfl

theorem Shows.firstReference?_eq_some {o : OpenDocument} (ho : Shows start f o)
    (next : External.references f = item :: rest) : ∃ id, firstReference? o.document = some id ∧
      o.document.Has id ∧ o.document.contents id = item := by
  have linked := ho.rooted.wellLinked
  rw [ho.references] at next
  obtain ⟨t, ts, e, held, -⟩ := List.map_eq_cons_iff.mp next
  have mem : t ∈ (o.document.below Document.root).outermost (isReference ∘ o.document.content) := by simp [e]
  obtain ⟨has_t, -⟩ := linked.outermost_eq (linked.branches_below ho.rooted.has_root) linked.has_below mem
  refine ⟨t.1, ?_, has_t, held⟩
  rw [firstReference?_eq ho.rooted, e]
  rfl

/-- Replacing the first reference puts what it names in its place. -/
theorem ensures_includeReference_shows (next : references f = item :: rest) :
    Ensures (fun o => Shows start f o ∧ firstReference? o.document = some id)
      (includeReference files id)
      (fun _ o => Shows start (spliced files start.readOptions start.directory f) o ∧
        Usable files start.directory item)
      (fun _ => ¬ Usable files start.directory item) := by
  rintro o messages ⟨ho, first⟩
  obtain ⟨id', first', has_id, held⟩ := ho.firstReference?_eq_some next
  obtain rfl := Option.some.inj (first'.symm.trans first)
  have replaced := @ensures_includeReference_advanced files _ _ ho.rooted has_id
  rw [held, location_first ho.rooted first, ho.contents, ho.only.readOptions_eq, ho.only.directory_eq] at replaced
  refine replaced.imp (fun _ h => h) (fun _ o' ho' => ⟨⟨?_, ?_, ?_, ?_⟩, ho'.2⟩) o messages rfl
  · exact ho.only.trans ho'.1.only
  · exact ho'.1.replaced.rooted
  · exact ho'.1.replaced.declaration.trans ho.declaration
  · rw [ho'.1.replaced.contents_root (p := isReference) ho.rooted first, ho.contents, spliced_of_references next]

theorem ensures_includeAll_nil {R : OpenDocument → Prop} (none : references f = []) :
    Ensures (Shows start f) (includeAll files n) (fun count o => count.isSome = true ∧ Shows start f o) R := by
  have asked : Ensures (Shows start f) Edit.document
      (fun d o => Shows start f o ∧ firstReference? d = .none) R :=
    Edit.ensures_document.imp (fun _ ho => ho) fun d o ho => ⟨ho.1, ho.2 ▸ ho.1.firstReference?_eq_none none⟩
  rw [includeAll.eq_def]
  refine .bind asked fun d => .assume fun none => ?_
  rw [none]
  exact .pure fun _ ho => ⟨rfl, ho⟩

theorem ensures_document_cons {R : OpenDocument → Prop} (next : references f = item :: rest) :
    Ensures (Shows start f) Edit.document (fun d o =>
      (Shows start f o ∧ firstReference? o.document = firstReference? d) ∧ ∃ id, firstReference? d = some id) R := by
  refine Edit.ensures_document.imp (fun _ ho => ho) fun d o ho => ?_
  obtain ⟨id, first, -⟩ := ho.1.firstReference?_eq_some next
  exact ⟨⟨ho.1, by rw [ho.2]⟩, id, ho.2 ▸ first⟩

theorem ensures_includeAll_zero {R : OpenDocument → Prop} (next : references f = item :: rest) :
    Ensures (Shows start f) (includeAll files 0) (fun count _ => count.isSome = false) R := by
  rw [includeAll]
  refine .bind (ensures_document_cons next) fun d => .assume ?_
  rintro ⟨id, found⟩
  rw [found]
  exact .pure fun _ _ => rfl

/-- After the first reference has been replaced, the others are. -/
theorem ensures_includeAll_succ {Q : Bool → OpenDocument → Prop} {failure : Prop}
    (next : references f = item :: rest) (fails : ¬ Usable files start.directory item → failure)
    (later : Usable files start.directory item →
      Ensures (Shows start (spliced files start.readOptions start.directory f)) (includeAll files n)
        (fun count => Q count.isSome) fun _ => failure) :
    Ensures (Shows start f) (includeAll files (n + 1)) (fun count => Q count.isSome) fun _ => failure := by
  rw [includeAll]
  refine .bind (ensures_document_cons next) fun d => .assume ?_
  rintro ⟨id, found⟩
  rw [found]
  refine .bind ((ensures_includeReference_shows next).fails fun _ unusable => fails unusable) fun count => ?_
  refine .assume fun usable => .bind (later usable) fun more => .pure fun _ ho => ?_
  rwa [Option.isSome_map]

end

end External

end XmlStore
