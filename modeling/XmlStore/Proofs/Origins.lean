/-
Where included elements came from. An included element is marked with its
file; putting a reference in its place, and the elements in it treated in the
same way, undoes including it. So of a document with its external data, as
long as nothing in it has been changed, the document without comes again.
-/
import XmlStore.Proofs.Expansions
import XmlStore.Proofs.Layouts
import XmlStore.Proofs.Pending

namespace XmlStore

open Relation (ReflTransGen)

namespace External

variable {files : Files} {options : ReadOptions} {base : Option String} {n : Nat}
variable {top content : Content} {item below children f g later whole : Forest Content}
variable {items rest : List (Forest Content)} {tag : Element}
variable {path name directory location resolved : String}

/-! ## Marks -/

def carriesMarks (content : Content) : Bool := marks.all fun name => (content.attribute? name).isSome

/-- No attribute has the name of a mark. -/
def Unmarked (content : Content) : Prop := ∀ a ∈ content.attributes, a.name.text ∉ marks

/-- The attributes that mark an included element. -/
def markAttributes (name directory location : String) : List Attribute :=
  [⟨.ofString fileMark, name, none⟩, ⟨.ofString directoryMark, directoryUri directory, none⟩,
    ⟨.ofString locationMark, location, none⟩]

theorem setAttribute_new {value : String} (new : ∀ a ∈ tag.attributes, a.name.text ≠ name) :
    tag.setAttribute name value none = { tag with attributes := tag.attributes ++ [⟨.ofString name, value, none⟩] } := by
  refine if_neg ?_
  simpa [Attribute.answersTo] using new

theorem marked_element (bare : Unmarked (.element tag)) : marked name directory location (.element tag) =
    .element { tag with attributes := tag.attributes ++ markAttributes name directory location } := by
  have apart : fileMark ≠ directoryMark ∧ fileMark ≠ locationMark ∧ directoryMark ≠ locationMark := by decide
  have without (mark : String) (mem : mark ∈ marks) : ∀ a ∈ tag.attributes, a.name.text ≠ mark := by
    rintro a ha rfl
    exact bare a ha mem
  let once := tag.attributes ++ [⟨.ofString fileMark, name, none⟩]
  let twice := once ++ [⟨.ofString directoryMark, directoryUri directory, none⟩]
  have second : ∀ a ∈ once, a.name.text ≠ directoryMark := by
    simpa [once, QName.text_ofString, apart, or_imp, forall_and] using without directoryMark (by decide)
  have third : ∀ a ∈ twice, a.name.text ≠ locationMark := by
    simpa [once, twice, QName.text_ofString, apart, or_imp, forall_and] using without locationMark (by decide)
  have added : Element.setAttribute { tag with attributes := once } directoryMark (directoryUri directory) none =
      { tag with attributes := twice } := setAttribute_new second
  have placed : Element.setAttribute { tag with attributes := twice } locationMark location none =
      { tag with attributes := twice ++ [⟨.ofString locationMark, location, none⟩] } := setAttribute_new third
  rw [marked, Content.mapElement, setAttribute_new (without fileMark (by decide)), added, placed]
  simp [once, twice, markAttributes]

theorem attribute?_marked (bare : Unmarked (.element tag)) {mark : String} (mem : mark ∈ marks) :
    (marked name directory location (.element tag)).attribute? mark =
      ((markAttributes name directory location).find? (·.answersTo mark)).map (·.value) := by
  have none : tag.attributes.find? (·.answersTo mark) = .none := by
    rw [List.find?_eq_none]
    intro a ha answers
    exact bare a ha (by rwa [eq_of_beq answers])
  rw [marked_element bare]
  change Option.map _ (List.find? _ (tag.attributes ++ _)) = _
  rw [List.find?_append, none, Option.none_or]

theorem fileMark_marked (bare : Unmarked (.element tag)) :
    (marked name directory location (.element tag)).attribute? fileMark = some name := by
  rw [attribute?_marked bare (by decide)]
  simp [markAttributes, Attribute.answersTo, QName.text_ofString]

theorem directoryMark_marked (bare : Unmarked (.element tag)) :
    (marked name directory location (.element tag)).attribute? directoryMark = some (directoryUri directory) := by
  have apart : fileMark ≠ directoryMark := by decide
  rw [attribute?_marked bare (by decide)]
  simp [markAttributes, Attribute.answersTo, QName.text_ofString, apart]

theorem carriesMarks_marked (bare : Unmarked (.element tag)) :
    carriesMarks (marked name directory location (.element tag)) = true := by
  have apart : fileMark ≠ locationMark ∧ directoryMark ≠ locationMark := by decide
  simp only [carriesMarks, marks, List.all_cons, List.all_nil, fileMark_marked bare, directoryMark_marked bare]
  rw [attribute?_marked bare (by decide)]
  simp [markAttributes, Attribute.answersTo, QName.text_ofString, apart]

/-- Taking the marks away leaves the element as it was. -/
theorem unmark_marked (bare : Unmarked (.element tag)) :
    marks.foldl (fun content mark => content.mapElement (·.removeAttribute mark))
      (marked name directory location (.element tag)) = .element tag := by
  let other (a : Attribute) : Bool :=
    !a.answersTo locationMark && (!a.answersTo directoryMark && !a.answersTo fileMark)
  have kept : tag.attributes.filter other = tag.attributes := by
    refine List.filter_eq_self.mpr fun a ha => ?_
    have unlike (mark : String) (mem : mark ∈ marks) : a.answersTo mark = false :=
      beq_eq_false_iff_ne.mpr fun e => bare a ha (e ▸ mem)
    simp [other, unlike fileMark (by decide), unlike directoryMark (by decide), unlike locationMark (by decide)]
  have dropped : (markAttributes name directory location).filter other = [] := by
    simp [other, markAttributes, Attribute.answersTo, QName.text_ofString]
  rw [marked_element bare]
  simp only [marks, List.foldl, Content.mapElement, Element.removeAttribute, List.filter_filter, List.filter_append]
  rw [kept, dropped, List.append_nil]

/-! ## Putting references in place of included elements -/

/-- Whether something comes from another file, or is to come from one. -/
def isSource (content : Content) : Bool := isReference content || carriesMarks content

/-- The children of the reference that takes the place of a tree. -/
def asSource (content : Content) (children : Forest Content) : Option (Forest Content) :=
  if isReference content then some (canonical children)
  else if carriesMarks content then
    some (referenceTo ((content.attribute? directoryMark).getD "") [(content.attribute? fileMark).getD ""])
  else none

/-- A forest without what has been included. -/
def collapsed (f : Forest Content) : Forest Content := withReferences asSource f

theorem collapsed_reference (here : isReference content = true) :
    collapsed (.cons content children later) = .cons referenceContent (canonical children) (collapsed later) :=
  withReferences_some (if_pos here)

theorem collapsed_marked (other : isReference content = false) (here : carriesMarks content = true) :
    collapsed (.cons content children later) = .cons referenceContent
      (referenceTo ((content.attribute? directoryMark).getD "") [(content.attribute? fileMark).getD ""])
      (collapsed later) := by
  refine withReferences_some ?_
  rw [asSource, other, here]
  rfl

theorem collapsed_other (other : isReference content = false) (unmarked : carriesMarks content = false) :
    collapsed (.cons content children later) = .cons content (collapsed children) (collapsed later) := by
  refine withReferences_none ?_
  rw [asSource, other, unmarked]
  rfl

theorem collapsed_append : collapsed (f ++ g) = collapsed f ++ collapsed g := withReferences_append

/-- What has come in place of the first reference makes no difference if it goes back to that reference. -/
theorem collapsed_replaceFirst (next : references f = item :: rest)
    (back : collapsed g = .tree referenceContent (canonical item)) :
    collapsed (f.replaceFirst isReference g) = collapsed f := by
  induction f generalizing item rest with
  | nil => cases next
  | cons content children later ihc ihl =>
    rw [references_cons] at next
    rw [Forest.replaceFirst]
    split at next
    · rename_i here
      obtain ⟨rfl, -⟩ := List.cons.inj next
      rw [if_pos here, collapsed_append, back, collapsed_reference here]
      rfl
    · rename_i other
      have other' : isReference content = false := Bool.eq_false_iff.mpr other
      rw [if_neg other]
      cases inner : references children with
      | nil =>
        rw [inner, List.nil_append] at next
        rw [if_pos (isEmpty_references_iff.mpr inner)]
        have behind := ihl next back
        cases here : carriesMarks content with
        | true => rw [collapsed_marked other' here, collapsed_marked other' here, behind]
        | false => rw [collapsed_other other' here, collapsed_other other' here, behind]
      | cons first others =>
        rw [inner, List.cons_append] at next
        obtain ⟨rfl, -⟩ := List.cons.inj next
        rw [if_neg fun empty => by simp [isEmpty_references_iff.mp empty] at inner]
        have below := ihc inner back
        cases here : carriesMarks content with
        | true => rw [collapsed_marked other' here, collapsed_marked other' here]
        | false => rw [collapsed_other other' here, collapsed_other other' here, below]

/-! ## Forests that can be restored -/

/-- No mark stands in a forest, and each reference in it names one file and comes last in an element that is
like those around it in that it declares no namespace. -/
def Tidy : Forest Content → Prop
  | .nil => True
  | .cons content children later =>
    (if isReference content then later = .nil ∧ ∃ directory name, target? children = some (directory, [name])
      else carriesMarks content = false ∧ (references children ≠ [] → content.bindings = []) ∧ Tidy children) ∧
      Tidy later

theorem Tidy.references_ne_nil (tidy : Tidy f) (mem : content ∈ f.preorder) (source : isSource content = true) :
    references f ≠ [] := by
  induction f with
  | nil => cases mem
  | cons first children later ihc ihl =>
    obtain ⟨here, behind⟩ := tidy
    rw [references_cons]
    split
    · exact List.cons_ne_nil _ _
    · rename_i other
      rw [if_neg other] at here
      obtain ⟨unmarked, -, inner⟩ := here
      intro none
      obtain ⟨noneInside, noneBehind⟩ := List.append_eq_nil_iff.mp none
      rcases List.mem_cons.mp mem with rfl | mem
      · rw [isSource, unmarked, Bool.or_false] at source
        exact other source
      · rcases List.mem_append.mp mem with inside | after
        · exact ihc inner inside noneInside
        · exact ihl behind after noneBehind

theorem Tidy.collapsed_eq (tidy : Tidy f) : collapsed f = normal f := by
  induction f with
  | nil => rfl
  | cons content children later ihc ihl =>
    obtain ⟨here, behind⟩ := tidy
    split at here
    · rename_i reference
      rw [collapsed_reference reference, normal_reference reference, ihl behind]
    · rename_i other
      rw [collapsed_other (Bool.eq_false_iff.mpr other) here.1, normal_other other, ihc here.2.2, ihl behind]

/-- A document element that is written to its file again as it was read. -/
structure Restorable (top : Content) (below : Forest Content) : Prop where
  other : isReference top = false
  unmarked : Unmarked top
  tidy : Tidy (.tree top below)
  shown : (Forest.tree top below).hidesText = false

/-- An included element with what is in it now, which is what a file has it hold up to what has been included. -/
inductive Included (files : Files) (options : ReadOptions) (base : Option String) : Content → Forest Content → Prop where
  | intro {name directory location resolved : String} {tag : Element} {below children : Forest Content}
      (restorable : Restorable (.element tag) below) (found : localDirectory? base directory = some resolved)
      (root : fileRoot? files options (FilePath.join resolved name) = some (.element tag, below))
      (same : collapsed children = normal below) :
      Included files options base (marked name directory location (.element tag)) children

theorem Included.congr (included : Included files options base content children) (same : collapsed f = collapsed children) :
    Included files options base content f := by
  cases included with
  | intro restorable found root held => exact .intro restorable found root (same.trans held)

/-- References and included elements come last in elements that are like those around them in that they declare
no namespace; a reference names one file, and what an included element holds is what its file has it hold. -/
def Sourced (files : Files) (options : ReadOptions) (base : Option String) : Forest Content → Prop
  | .nil => True
  | .cons content children later =>
    (isSource content = true → later = .nil) ∧
      (if isReference content then ∃ directory name, target? children = some (directory, [name])
        else (carriesMarks content = true → Included files options base content children) ∧
          ((∃ inner ∈ children.preorder, isSource inner = true) → content.bindings = []) ∧
          Sourced files options base children) ∧
      Sourced files options base later

theorem Tidy.sourced (tidy : Tidy f) : Sourced files options base f := by
  induction f with
  | nil => trivial
  | cons content children later ihc ihl =>
    obtain ⟨here, behind⟩ := tidy
    split at here
    · rename_i reference
      refine ⟨fun _ => here.1, ?_, ihl behind⟩
      rw [if_pos reference]
      exact here.2
    · rename_i other
      obtain ⟨unmarked, bare, inner⟩ := here
      have own : ¬ isSource content = true := by
        rw [isSource, unmarked, Bool.or_false]
        exact other
      refine ⟨fun source => absurd source own, ?_, ihl behind⟩
      rw [if_neg other, unmarked]
      refine ⟨fun marks => absurd marks Bool.false_ne_true, ?_, ihc inner⟩
      rintro ⟨content, mem, source⟩
      exact bare (inner.references_ne_nil mem source)

theorem Sourced.single (sourced : Sourced files options base f) (mem : item ∈ references f) :
    ∃ directory name, target? item = some (directory, [name]) := by
  induction f with
  | nil => cases mem
  | cons content children later ihc ihl =>
    obtain ⟨-, here, behind⟩ := sourced
    rw [references_cons] at mem
    split at mem
    · rename_i reference
      rw [if_pos reference] at here
      rcases List.mem_cons.mp mem with rfl | after
      · exact here
      · exact ihl behind after
    · rename_i other
      rw [if_neg other] at here
      rcases List.mem_append.mp mem with inside | after
      · exact ihc here.2.2 inside
      · exact ihl behind after

theorem exists_source (some : references f ≠ []) : ∃ content ∈ f.preorder, isSource content = true := by
  induction f with
  | nil => exact absurd rfl some
  | cons content children later ihc ihl =>
    rw [references_cons] at some
    split at some
    · rename_i here
      exact ⟨content, List.mem_cons_self, by rw [isSource, here, Bool.true_or]⟩
    · by_cases inner : references children = []
      · rw [inner, List.nil_append] at some
        obtain ⟨found, mem, source⟩ := ihl some
        exact ⟨found, List.mem_cons_of_mem _ (List.mem_append_right _ mem), source⟩
      · obtain ⟨found, mem, source⟩ := ihc inner
        exact ⟨found, List.mem_cons_of_mem _ (List.mem_append_left _ mem), source⟩

theorem Sourced.replaceFirst (sourced : Sourced files options base f) (next : references f = item :: rest)
    (new : Sourced files options base g) (back : collapsed g = .tree referenceContent (canonical item)) :
    Sourced files options base (f.replaceFirst isReference g) := by
  induction f generalizing item rest with
  | nil => cases next
  | cons content children later ihc ihl =>
    obtain ⟨last, here, behind⟩ := sourced
    rw [references_cons] at next
    rw [Forest.replaceFirst]
    split at next
    · rename_i reference
      have none : later = .nil := last (by rw [isSource, reference, Bool.true_or])
      rw [if_pos reference, none, Forest.append_nil]
      exact new
    · rename_i other
      rw [if_neg other] at here ⊢
      obtain ⟨included, bare, inside⟩ := here
      cases inner : references children with
      | nil =>
        rw [inner, List.nil_append] at next
        rw [if_pos (isEmpty_references_iff.mpr inner)]
        refine ⟨fun source => ?_, ?_, ihl behind next back⟩
        · rw [last source] at next
          cases next
        · rw [if_neg other]
          exact ⟨included, bare, inside⟩
      | cons first others =>
        rw [inner, List.cons_append] at next
        obtain ⟨rfl, -⟩ := List.cons.inj next
        rw [if_neg fun empty => by simp [isEmpty_references_iff.mp empty] at inner]
        refine ⟨last, ?_, behind⟩
        rw [if_neg other]
        refine ⟨fun marks => (included marks).congr (collapsed_replaceFirst inner back), fun _ => ?_, ihc inside inner back⟩
        exact bare (exists_source (by simp [inner]))

/-! ## Documents with their external data -/

/-- Every file that a file leads to, itself included, holds a document whose element can be restored. -/
def Orderly (files : Files) (options : ReadOptions) (base : Option String) (path : String) : Prop :=
  ∀ other, ReflTransGen (Refers files options base) path other →
    ∃ top below, fileRoot? files options other = some (top, below) ∧ Restorable top below

/-- All references are from files that a file leads to. -/
def Led (files : Files) (options : ReadOptions) (base : Option String) (path : String) (f : Forest Content) : Prop :=
  ∀ item ∈ references f, ∃ other, ReflTransGen (Refers files options base) path other ∧
    item ∈ fileReferences files options other

theorem Led.spliced (led : Led files options base path f) (next : references f = item :: rest) :
    Led files options base path (spliced files options base f) := by
  intro inner mem
  rw [references_spliced next] at mem
  rcases List.mem_append.mp mem with new | old
  · obtain ⟨target, named, held⟩ := List.mem_flatMap.mp new
    obtain ⟨other, reached, mem⟩ := led item (by simp [next])
    exact ⟨target, reached.tail ⟨item, mem, named⟩, held⟩
  · exact led inner (by simp [next, old])

theorem exists_tag {bytes : Bytes} (root : contentRoot? options bytes = some (top, below)) : ∃ tag, top = .element tag := by
  have found (nodes : Forest Content) (root : nodes.find? Content.isElement = some (top, below)) :
      ∃ tag, top = .element tag := by
    induction nodes with
    | nil => cases root
    | cons content children later _ ih =>
      rw [Forest.find?] at root
      split at root
      · rename_i here
        cases root
        cases top with
        | element tag => exact ⟨tag, rfl⟩
        | _ => cases here
      · exact ih root
  rw [contentRoot?] at root
  split at root
  · exact found _ root
  · cases root

theorem exists_tag_of_fileRoot? (root : fileRoot? files options path = some (top, below)) :
    ∃ tag, top = .element tag := by
  rw [fileRoot?] at root
  split at root
  · exact exists_tag root
  · cases root

theorem brought_single (named : target? item = some (directory, [name]))
    (found : localDirectory? base directory = some resolved)
    (root : fileRoot? files options (FilePath.join resolved name) = some (top, below)) :
    brought files options base location item = .tree (marked name directory location top) below := by
  rw [brought, named]
  dsimp only
  rw [found]
  dsimp only
  rw [broughtByAll, broughtByAll, Forest.append_nil, broughtBy, root]

/-- What has been brought in goes back to its reference. -/
theorem collapsed_brought {tag : Element} (bare : Unmarked (.element tag)) (other : isReference (.element tag) = false)
    (named : target? item = some (directory, [name])) :
    collapsed (.tree (marked name directory location (.element tag)) below) = .tree referenceContent (canonical item) := by
  rw [Forest.tree, collapsed_marked (isReference_marked.trans other) (carriesMarks_marked bare),
    directoryMark_marked bare, fileMark_marked bare, canonical, named]
  rfl

theorem bindings_marked : (marked name directory location top).bindings = top.bindings := by
  have kept (e : Element) (mark value : String) : (e.setAttribute mark value none).bindings = e.bindings := by
    rw [Element.setAttribute]
    split <;> rfl
  cases top with
  | element tag => simp [marked, Content.mapElement, Content.bindings, Content.element?, kept]
  | _ => rfl

theorem sourced_brought {tag : Element} (restorable : Restorable (.element tag) below)
    (found : localDirectory? base directory = some resolved)
    (root : fileRoot? files options (FilePath.join resolved name) = some (.element tag, below)) :
    Sourced files options base (.tree (marked name directory location (.element tag)) below) := by
  have ⟨other, _, ⟨tidy, _⟩, _⟩ := restorable
  have other' : ¬ isReference (.element tag) = true := by rw [other]; exact Bool.false_ne_true
  rw [if_neg other'] at tidy
  obtain ⟨-, undeclared, inner⟩ := tidy
  refine ⟨fun _ => rfl, ?_, trivial⟩
  rw [isReference_marked, if_neg other', bindings_marked]
  refine ⟨fun _ => .intro restorable found root inner.collapsed_eq, ?_, inner.sourced⟩
  rintro ⟨content, mem, source⟩
  exact undeclared (inner.references_ne_nil mem source)

/-- Including what the first reference names can be undone. -/
theorem Orderly.spliced (orderly : Orderly files options base path) (led : Led files options base path f)
    (sourced : Sourced files options base f) (next : references f = item :: rest) (usable : Usable files base item) :
    Sourced files options base (spliced files options base f) ∧ collapsed (spliced files options base f) = collapsed f := by
  obtain ⟨directory, name, named⟩ := sourced.single (show item ∈ references f by simp [next])
  obtain ⟨directory', names, resolved, named', found, -⟩ := usable
  cases named.symm.trans named'
  have target : FilePath.join resolved name ∈ targets base item := by
    rw [targets, named]
    dsimp only
    rw [found]
    exact List.mem_cons_self
  obtain ⟨other, reached, mem⟩ := led item (by simp [next])
  obtain ⟨top, below, root, restorable⟩ := orderly _ (reached.tail ⟨item, mem, target⟩)
  obtain ⟨tag, rfl⟩ := exists_tag_of_fileRoot? root
  have back : collapsed (.tree (marked name directory (placeOf (firstTrail [] f)) (.element tag)) below) =
      .tree referenceContent (canonical item) := collapsed_brought restorable.unmarked restorable.other named
  rw [spliced_of_references next, brought_single named found root]
  exact ⟨sourced.replaceFirst next (sourced_brought restorable found root) back, collapsed_replaceFirst next back⟩

/-- A document with its external data goes back to the document without. -/
theorem Expands.sourced (expands : Expands files options base n f whole) (orderly : Orderly files options base path)
    (led : Led files options base path f) (sourced : Sourced files options base f) :
    Sourced files options base whole ∧ collapsed whole = collapsed f := by
  induction expands with
  | done none => exact ⟨sourced, rfl⟩
  | next next usable _ ih =>
    obtain ⟨sourced', same⟩ := orderly.spliced led sourced next usable
    obtain ⟨whole, back⟩ := ih (led.spliced next) sourced'
    exact ⟨whole, back.trans same⟩

end External

end XmlStore
