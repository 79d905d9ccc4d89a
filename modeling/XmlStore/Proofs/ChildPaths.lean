/-
Paths below a location. Behind the location of an element, a slash and a plain
name ask for the children of the element that have the name: the location
leads to the element alone, and one more step from there picks its children.
-/
import XmlStore.Proofs.LinkTargets

namespace XmlStore

/-- The step by a plain name. -/
def Locator.named (name : String) : Locator := ⟨.name ⟨none, name⟩, none⟩

section

variable {name path : String} {content : Content}

theorem Locator.readable_named (plain : IsPlain name) : (named name).Readable := ⟨.name plain, nofun⟩

theorem Locator.text_named (name : String) : (named name).text = name.toList := List.append_nil _

/-- Without qualifiers and namespaces the test for a name asks for just that name. -/
theorem Content.admits_named (unqualified : content.Unqualified) :
    (Locator.named name).test.admits none content = content.isNamed name := by
  cases content with
  | element tag =>
    obtain ⟨bare, free, -⟩ := unqualified
    simp [Locator.named, NodeTest.admits, NodeTest.admitsName, isNamed, qualifiedName?, element?, QName.text, bare,
      free]
  | _ => rfl

/-- Behind a path that does not end in a slash a name is put as it is. -/
theorem Lookup.toList_pathBelow (ends : path.toList.getLast? ≠ some '/') (name : String) :
    (pathBelow path name).toList = path.toList ++ '/' :: name.toList := by
  have kept : path.toList.reverse.dropWhile (· == '/') = path.toList.reverse := by
    cases whole : path.toList.reverse with
    | nil => rfl
    | cons last front =>
      have other : last ≠ '/' := by
        rintro rfl
        exact ends (by rw [List.getLast?_eq_head?_reverse, whole]; rfl)
      exact List.dropWhile_cons_of_neg (by simpa using other)
  rw [pathBelow, kept]
  simp

theorem Lookup.withoutSlash_pathBelow (plain : IsPlain name) :
    withoutSlash (pathBelow path name) = pathBelow path name := by
  obtain ⟨front, last, text, other⟩ := (Locator.named name).ends_of_plain plain
  rw [Locator.text_named] at text
  refine withoutSlash_eq fun slash => other ?_
  rw [pathBelow, String.toList_append, text, ← List.append_assoc, List.getLast?_concat] at slash
  exact Option.some.inj slash

end

namespace Document

variable {d : Document} {a : NodeId} {name : String} {tag : Element} {namespaces : List (String × String)}

/-- A name behind the location of an element is read as one more step. -/
theorem Locatable.ofString_pathBelow (h : d.Locatable) (ha : d.Attached a) (element : d.content a = .element tag)
    (plain : IsPlain name) : Expr.ofString (Lookup.pathBelow (d.location a) name) =
      .ok (.rootPath ((d.trail a).map (fun b => (d.locator b).step) ++ [(Locator.named name).step])) := by
  have ne : a ≠ root := h.ne_root element
  have other : (d.content a).isDoctype = false := by
    rw [element]
    rfl
  have located := h.locates_trail ha other
  have spelled : (Lookup.pathBelow (d.location a) name).toList =
      ((d.trail a).map d.locator ++ [Locator.named name]).flatMap fun l => '/' :: l.text := by
    rw [Lookup.toList_pathBelow (h.getLast?_location ha element), List.flatMap_append, List.flatMap_singleton,
      Locator.text_named, toList_location (h.trail_ne_nil ha ne) fun b hb =>
        h.toList_step (located b hb).1 (located b hb).2.2]
  have readable : ∀ l ∈ (d.trail a).map d.locator ++ [Locator.named name], l.Readable := by
    refine List.forall_mem_append.mpr ⟨List.forall_mem_map.mpr fun b hb =>
      h.readable (located b hb).1 (located b hb).2.1 (located b hb).2.2, ?_⟩
    exact List.forall_mem_singleton.mpr (Locator.readable_named plain)
  have read := Expr.ofString_location (by simp) readable spelled
  rwa [List.map_append, List.map_map] at read

theorem Locatable.sublist_childrenNamed (h : d.Locatable) (ha : d.Attached a) (name : String) :
    (d.childrenNamed a name).Sublist d.documentOrder :=
  List.filter_sublist.trans (sublist_children h.rooted ha)

/-- From a node the step by a name leads to its children of that name. -/
theorem Locatable.take_named (h : d.Locatable) (ha : d.Attached a) (name : String) :
    (Locator.named name).step.take (d.env namespaces) [d.place (.node a)] =
      .ok ((d.childrenNamed a name).map fun c => d.place (.node c)) := by
  have counted : (d.children a).filter (fun c => (Locator.named name).test.admits none (d.content c)) =
      d.childrenNamed a name := by
    refine List.filter_congr fun c hc => Content.admits_named (h.unqualified c ?_)
    exact ha.child h.rooted ((h.rooted.wellLinked.parent c a).mp hc)
  have taken : (Locator.named name).step.take (d.env namespaces) [d.place (.node a)] = .ok (Item.ordered
      (([a].flatMap fun p => (Locator.named name).pick ((d.children p).filter fun c =>
        (Locator.named name).test.admits none (d.content c))).map fun c => d.place (.node c))) :=
    take_locator h.made (u := [a]) (l := .named name) (by simpa using ha) (by simpa using h.few a) nofun rfl []
  rw [List.flatMap_singleton, counted] at taken
  exact taken.trans (congrArg Except.ok (ordered_places h.made (h.sublist_childrenNamed ha name)))

/-- Behind the location of an element a plain name selects the children of that name, in their order. -/
theorem Locatable.select_pathBelow (h : d.Locatable) (ha : d.Attached a) (element : d.content a = .element tag)
    (plain : IsPlain name) : d.select namespaces (Lookup.pathBelow (d.location a) name) =
      .ok ((d.childrenNamed a name).map .node) := by
  have other : (d.content a).isDoctype = false := by
    rw [element]
    rfl
  obtain ⟨m, walked, stands⟩ := h.walk_trail namespaces ha other
  have place : d.place (.node a) = .node m := by
    rw [Document.place, stands_unique h.rooted stands (stands_idxOf (h.rooted.mem_documentOrder.mpr ha))]
  have offered : ∀ hit ∈ (d.childrenNamed a name).map Hit.node, d.Offers hit :=
    List.forall_mem_map.mpr fun c hc => (h.sublist_childrenNamed ha name).subset hc
  have back := hits_map_place offered
  rw [List.map_map] at back
  rw [← back]
  refine select_of_walk (h.ofString_pathBelow ha element plain) ((XmlStore.Step.walk_append walked).trans ?_)
  rw [← place]
  exact XmlStore.Step.walk_singleton _ (h.take_named ha name)

end Document

end XmlStore
