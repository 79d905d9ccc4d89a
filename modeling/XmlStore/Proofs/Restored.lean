/-
References in the form in which they are put back. A reference has other
children and attributes than it needs, and its directory may be given as a
path; saving puts back references that are a directory as a URI and files,
and nothing else. Written in that form, references bring in the same.
-/
import XmlStore.Proofs.Splicing

namespace XmlStore

namespace External

variable {files : Files} {options : ReadOptions} {base : Option String}
variable {content : Content} {item children f g later : Forest Content} {items rest : List (Forest Content)}
variable {name directory location text : String} {names : List String}

/-! ## The form of a reference that is put back -/

/-- An element with a text; an empty text is no node. -/
def textTree (name text : String) : Forest Content :=
  .tree (.element (.named ⟨none, name⟩)) (if text.isEmpty then .nil else leaves [.text text])

def namedFiles : List String → Forest Content
  | [] => .nil
  | name :: names => textTree fileNameName name ++ namedFiles names

/-- The children of a reference to files in a directory. -/
def referenceTo (directory : String) (names : List String) : Forest Content :=
  textTree pathName directory ++ namedFiles names

def referenceContent : Content := .element (.named ⟨none, referenceName⟩)

/-- The children of a reference as they are put back. -/
def canonical (children : Forest Content) : Forest Content :=
  match target? children with
  | some (directory, names) => referenceTo (directoryUri directory) names
  | none => .nil

theorem isReference_referenceContent : isReference referenceContent = true := by decide

theorem isNamed_named (other : String) :
    (Content.element (.named ⟨none, other⟩)).isNamed name = decide (other = name) := by
  rw [Content.isNamed, ← Bool.beq_eq_decide_eq]
  rfl

theorem joinCharacters_text : Content.joinCharacters (if text.isEmpty then .nil else leaves [.text text]).roots =
    text := by
  by_cases empty : text.isEmpty = true
  · rw [if_pos empty, String.isEmpty_iff.mp empty]
    rfl
  · rw [if_neg empty]
    simp [leaves, Forest.roots, Content.joinCharacters, Content.characters?, String.join]

theorem namedTexts_textTree_append (other : String) : namedTexts name (textTree other text ++ f) =
    if other = name then text :: namedTexts name f else namedTexts name f := by
  change namedTexts name (.cons _ _ f) = _
  rw [namedTexts, isNamed_named, joinCharacters_text]
  simp

theorem namedTexts_namedFiles (names : List String) : namedTexts name (namedFiles names) =
    if fileNameName = name then names else [] := by
  induction names with
  | nil => simp [namedFiles, namedTexts]
  | cons first names ih =>
    rw [namedFiles, namedTexts_textTree_append, ih]
    split <;> rfl

theorem target?_referenceTo (filled : names ≠ []) : target? (referenceTo directory names) = some (directory, names) := by
  obtain ⟨first, others, rfl⟩ := List.exists_cons_of_ne_nil filled
  rw [target?, referenceTo, namedTexts_textTree_append, namedTexts_textTree_append, namedTexts_namedFiles,
    namedTexts_namedFiles, if_pos rfl, if_neg (by decide), if_neg (by decide), if_pos rfl]
  rfl

theorem ne_nil_of_target? (h : target? children = some (directory, names)) : names ≠ [] := by
  rw [target?] at h
  split at h
  · cases h
    exact List.cons_ne_nil _ _
  · cases h

theorem target?_canonical : target? (canonical children) =
    (target? children).map fun t => (directoryUri t.1, t.2) := by
  rw [canonical]
  cases named : target? children with
  | none => rfl
  | some t =>
    obtain ⟨directory, names⟩ := t
    exact target?_referenceTo (ne_nil_of_target? named)

theorem hasScheme_directoryUri : (hasScheme fileScheme (directoryUri directory) || isRemote (directoryUri directory)) =
    true := by
  rw [directoryUri]
  split
  · assumption
  · simp [hasScheme]

theorem directoryUri_directoryUri : directoryUri (directoryUri directory) = directoryUri directory := by
  rw [directoryUri, if_pos hasScheme_directoryUri]

/-- A directory as a URI is the same directory. -/
theorem localDirectory?_directoryUri : localDirectory? base (directoryUri directory) = localDirectory? base directory := by
  rw [directoryUri]
  split
  · rfl
  · rename_i bare
    obtain ⟨pathlike, near⟩ := Bool.or_eq_false_iff.mp (Bool.eq_false_iff.mpr bare)
    have here : fileScheme.toList.isPrefixOf? (fileScheme ++ directory).toList = some directory.toList := by
      rw [List.isPrefixOf?_eq_some_iff_append_eq, String.toList_append]
    have none : fileScheme.toList.isPrefixOf? directory.toList = none := by
      rwa [← Option.isNone_iff_eq_none, ← Option.isSome_eq_false_iff, List.isSome_isPrefixOf?_eq_isPrefixOf]
    rw [localDirectory?, localDirectory?, here, none, near]
    simp

theorem canonical_canonical : canonical (canonical children) = canonical children := by
  rw [canonical, target?_canonical, canonical]
  cases target? children with
  | none => rfl
  | some t =>
    rw [Option.map_some]
    exact congrArg (referenceTo · t.2) directoryUri_directoryUri

/-! ## Forests with references put back -/

/-- Puts references in place of trees: what `r` gives is the children of the reference. -/
def withReferences (r : Content → Forest Content → Option (Forest Content)) : Forest Content → Forest Content
  | .nil => .nil
  | .cons content children later =>
    match r content children with
    | some inner => .cons referenceContent inner (withReferences r later)
    | none => .cons content (withReferences r children) (withReferences r later)

section

variable {r r' : Content → Forest Content → Option (Forest Content)}

theorem withReferences_some {inner : Forest Content} (here : r content children = some inner) :
    withReferences r (.cons content children later) = .cons referenceContent inner (withReferences r later) := by
  rw [withReferences, here]

theorem withReferences_none (other : r content children = none) : withReferences r (.cons content children later) =
    .cons content (withReferences r children) (withReferences r later) := by
  rw [withReferences, other]

theorem withReferences_append : withReferences r (f ++ g) = withReferences r f ++ withReferences r g := by
  induction f with
  | nil => rfl
  | cons content children later _ ih =>
    rw [Forest.cons_append, withReferences, ih, withReferences]
    split <;> rfl

end

/-- The children that a reference gets. -/
def asReference (content : Content) (children : Forest Content) : Option (Forest Content) :=
  if isReference content then some (canonical children) else none

/-- A forest with its references in the form in which they are put back. -/
def normal (f : Forest Content) : Forest Content := withReferences asReference f

theorem normal_reference (here : isReference content = true) :
    normal (.cons content children later) = .cons referenceContent (canonical children) (normal later) :=
  withReferences_some (if_pos here)

theorem normal_other (other : ¬ isReference content = true) :
    normal (.cons content children later) = .cons content (normal children) (normal later) :=
  withReferences_none (if_neg other)

theorem normal_tree (other : ¬ isReference content = true) : normal (.tree content children) =
    .tree content (normal children) := normal_other other

theorem normal_append : normal (f ++ g) = normal f ++ normal g := withReferences_append

theorem references_cons : references (.cons content children later) =
    if isReference content then children :: references later else references children ++ references later := by
  rw [references, Forest.outermost]
  split
  · rfl
  · exact List.map_append

theorem references_normal (f : Forest Content) : references (normal f) = (references f).map canonical := by
  induction f with
  | nil => rfl
  | cons content children later ihc ihl =>
    rw [references_cons]
    by_cases here : isReference content = true
    · rw [normal_reference here, references_cons, if_pos isReference_referenceContent, if_pos here, ihl]
      rfl
    · rw [normal_other here, references_cons, if_neg here, if_neg here, ihc, ihl, List.map_append]

theorem normal_normal (f : Forest Content) : normal (normal f) = normal f := by
  induction f with
  | nil => rfl
  | cons content children later ihc ihl =>
    by_cases here : isReference content = true
    · rw [normal_reference here, normal_reference isReference_referenceContent, canonical_canonical, ihl]
    · rw [normal_other here, normal_other here, ihc, ihl]

/-- Where there are no references nothing is put back. -/
theorem normal_of_references_eq_nil (none : references f = []) : normal f = f := by
  induction f with
  | nil => rfl
  | cons content children later ihc ihl =>
    rw [references_cons] at none
    split at none
    · cases none
    · rename_i other
      obtain ⟨inner, outer⟩ := List.append_eq_nil_iff.mp none
      rw [normal_other other, ihc inner, ihl outer]

theorem isEmpty_references_iff : ((f.outermost isReference).isEmpty = true) ↔ references f = [] := by
  rw [references, List.map_eq_nil_iff, List.isEmpty_iff]

theorem normal_replaceFirst (f g : Forest Content) : normal (f.replaceFirst isReference g) =
    (normal f).replaceFirst isReference (normal g) := by
  induction f with
  | nil => rfl
  | cons content children later ihc ihl =>
    rw [Forest.replaceFirst]
    by_cases here : isReference content = true
    · rw [if_pos here, normal_reference here, Forest.replaceFirst, if_pos isReference_referenceContent, normal_append]
    · have empty : ((normal children).outermost isReference).isEmpty = (children.outermost isReference).isEmpty := by
        rw [Bool.eq_iff_iff, isEmpty_references_iff, isEmpty_references_iff, references_normal, List.map_eq_nil_iff]
      rw [if_neg here, normal_other here, Forest.replaceFirst, if_neg here, empty]
      split
      · rw [normal_other here, ihl]
      · rw [normal_other here, ihc]

/-! ## Where the first reference stands -/

theorem name_eq_of_isReference {tag : Element} (h : isReference (.element tag) = true) :
    tag.name = ⟨none, referenceName⟩ := by
  have spelled : tag.name.text = referenceName := by
    simpa [isReference, Content.isNamed, Content.qualifiedName?, Content.element?] using h
  generalize tag.name = written at spelled
  obtain ⟨qualifier, localPart⟩ := written
  cases qualifier with
  | none => exact congrArg (QName.mk none) spelled
  | some qualifier =>
    have colon : ':' ∈ referenceName.toList := by
      rw [← spelled]
      simp [QName.text]
    exact absurd colon (by decide)

/-- References are counted alike, whatever else they have. -/
theorem countsWith_reference (anyElement : Bool) {other : Content} (h : isReference other = true) :
    content.countsWith anyElement other = content.countsWith anyElement referenceContent := by
  cases other with
  | element tag =>
    cases content with
    | element a =>
      rw [Content.countsWith, referenceContent, Content.countsWith, name_eq_of_isReference h]
      rfl
    | _ => rfl
  | _ => cases h

/-- The roots of a forest with its references in that form. -/
def normalRoot (content : Content) : Content := if isReference content then referenceContent else content

theorem roots_normal (f : Forest Content) : (normal f).roots = f.roots.map normalRoot := by
  induction f with
  | nil => rfl
  | cons content children later _ ih =>
    rw [Forest.roots, List.map_cons, normalRoot, ← ih]
    by_cases here : isReference content = true
    · rw [normal_reference here, if_pos here]
      rfl
    · rw [normal_other here, if_neg here]
      rfl

theorem countsWith_normalRoot (anyElement : Bool) (other : Content) :
    content.countsWith anyElement (normalRoot other) = content.countsWith anyElement other := by
  rw [normalRoot]
  split
  · rename_i here
    exact (countsWith_reference anyElement here).symm
  · rfl

theorem step_normalRoot (before after : List Content) :
    content.step (before.map normalRoot) (after.map normalRoot) = content.step before after := by
  have counts (anyElement : Bool) : content.countsWith anyElement ∘ normalRoot = content.countsWith anyElement :=
    funext (countsWith_normalRoot anyElement)
  rw [Content.step, Content.step]
  dsimp only
  rw [List.countP_map, List.any_map, counts]

theorem firstTrail_normal (before : List Content) (f : Forest Content) :
    firstTrail (before.map normalRoot) (normal f) = firstTrail before f := by
  induction f generalizing before with
  | nil => rfl
  | cons content children later ihc ihl =>
    rw [firstTrail]
    by_cases here : isReference content = true
    · rw [if_pos here, normal_reference here, firstTrail, if_pos isReference_referenceContent]
    · have empty : (references (normal children)).isEmpty = (references children).isEmpty := by
        rw [references_normal, List.isEmpty_map]
      have same : normalRoot content = content := if_neg here
      have behind := ihl (content :: before)
      rw [List.map_cons, same] at behind
      rw [if_neg here, normal_other here, firstTrail, if_neg here, empty, behind, roots_normal, step_normalRoot]
      exact if_congr Iff.rfl rfl (congrArg _ (ihc []))

end External

end XmlStore
