/-
Files that are written when external data goes back to them. With its
references put back, a document that was read may be read again: the texts in
a reference are made of characters that were read, and its elements nest no
deeper than those that were there.
-/
import XmlStore.Proofs.Encoded
import XmlStore.Proofs.Origins

namespace XmlStore

open Cursor (Valid IsName Reread)

variable {options : ReadOptions} {o : WriteOptions} {depth : Nat} {scope : Scope} {started afterText : Bool}
variable {f children later below : Forest Content} {content top : Content} {name text directory : String}
variable {names : List String}

namespace External

/-! ## Texts in a reference -/

theorem valid_joinCharacters {contents : List Content}
    (h : ∀ content ∈ contents, ∀ s, content.characters? = some s → Valid s.toList) :
    Valid (Content.joinCharacters contents).toList := by
  intro ch hch
  rw [Content.joinCharacters, String.toList_join] at hch
  obtain ⟨s, hs, mem⟩ := List.mem_flatMap.mp hch
  obtain ⟨content, hcontent, characters⟩ := List.mem_filterMap.mp hs
  exact h content hcontent s characters ch mem

theorem valid_characters (readable : Readable options depth scope afterText f) :
    ∀ content ∈ f.preorder, ∀ s, content.characters? = some s → Valid s.toList := by
  induction readable with
  | nil => exact nofun
  | text filled valid others ih =>
    simp only [Forest.preorder, List.nil_append, List.forall_mem_cons]
    refine ⟨?_, ih⟩
    rintro _ ⟨⟩
    exact valid
  | leaf reread others ih =>
    simp only [Forest.preorder, List.nil_append, List.forall_mem_cons]
    refine ⟨?_, ih⟩
    rintro s characters
    cases reread with
    | cdata raw clear =>
      cases characters
      exact fun ch hch => (raw ch hch).1
    | _ => cases characters
  | element low written inner others ihi iho =>
    simp only [Forest.preorder, List.forall_mem_cons, List.forall_mem_append]
    refine ⟨?_, ihi, iho⟩
    rintro s ⟨⟩

/-- The texts of elements in what is read are of characters that may be written. -/
theorem valid_namedTexts (readable : Readable options depth scope afterText f) :
    ∀ text ∈ namedTexts name f, Valid text.toList := by
  have characters := valid_characters readable
  clear readable
  induction f with
  | nil => exact nofun
  | cons content children later _ ih =>
    simp only [Forest.preorder, List.forall_mem_cons, List.forall_mem_append] at characters
    obtain ⟨-, inner, outer⟩ := characters
    rw [namedTexts]
    split
    · rw [List.forall_mem_cons]
      exact ⟨valid_joinCharacters fun content mem => inner content (children.roots_subset mem), ih outer⟩
    · exact ih outer

/-- Elements nest as deep as the first of them. -/
theorem low_of_namedTexts (readable : Readable options depth scope afterText f) (some : namedTexts name f ≠ []) :
    depth + 1 ≤ options.maxDepth := by
  induction readable with
  | nil => exact absurd rfl some
  | text _ _ _ ih => exact ih some
  | leaf reread _ ih =>
    cases reread <;> exact ih some
  | element low => exact low

theorem valid_directoryUri (valid : Valid directory.toList) : Valid (directoryUri directory).toList := by
  rw [directoryUri]
  split
  · exact valid
  · have scheme : fileScheme.toList.all isXmlChar = true := by decide +kernel
    rw [String.toList_append]
    exact List.forall_mem_append.mpr ⟨List.all_eq_true.mp scheme, valid⟩

/-- What a readable reference names can be written. -/
theorem valid_target? (readable : Readable options depth scope afterText f)
    (named : target? f = some (directory, names)) :
    depth + 1 ≤ options.maxDepth ∧ Valid directory.toList ∧ ∀ name ∈ names, Valid name.toList := by
  rw [target?] at named
  split at named
  · rename_i _ _ first others paths files
    cases named
    have mem : directory ∈ namedTexts pathName f := List.mem_of_head? paths
    refine ⟨low_of_namedTexts readable (List.ne_nil_of_mem mem), valid_namedTexts readable _ mem, ?_⟩
    rw [← files]
    exact valid_namedTexts readable
  · cases named

/-! ## References that are put back -/

theorem resolveTag_named : (Scope.initial.enter []).resolveTag (.named ⟨none, name⟩) = .named ⟨none, name⟩ := rfl

/-- A name that a reference is written with. -/
theorem written_named_plain (plain : QName.ofString name = ⟨none, name⟩) (valid : IsName name) :
    (Element.named ⟨none, name⟩).Written := by
  rw [← plain]
  exact Cursor.written_named valid

theorem written_reference : (Element.named ⟨none, referenceName⟩).Written :=
  written_named_plain (by decide) ⟨⟨'e', rfl, by decide⟩, List.all_eq_true.mp (by decide +kernel), by decide⟩

theorem written_path : (Element.named ⟨none, pathName⟩).Written :=
  written_named_plain (by decide) ⟨⟨'p', rfl, by decide⟩, List.all_eq_true.mp (by decide +kernel), by decide⟩

theorem written_fileName : (Element.named ⟨none, fileNameName⟩).Written :=
  written_named_plain (by decide) ⟨⟨'f', rfl, by decide⟩, List.all_eq_true.mp (by decide +kernel), by decide⟩

theorem readable_named (low : depth + 1 ≤ options.maxDepth) (written : (Element.named ⟨none, name⟩).Written)
    (inner : Readable options (depth + 1) .initial false children)
    (others : Readable options depth .initial false later) :
    Readable options depth .initial afterText (.cons (.element (.named ⟨none, name⟩)) children later) :=
  @resolveTag_named name ▸ .element low written inner others

theorem readable_text (valid : Valid text.toList) :
    Readable options depth scope false (if text.isEmpty then .nil else leaves [.text text]) := by
  split
  · exact .nil
  · rename_i filled
    refine .text (fun none => filled ?_) valid .nil
    rw [String.isEmpty_iff, ← String.toList_eq_nil_iff, none]

theorem readable_namedFiles (low : depth + 1 ≤ options.maxDepth) (valid : ∀ name ∈ names, Valid name.toList) :
    Readable options depth .initial false (namedFiles names) := by
  induction names with
  | nil => exact .nil
  | cons name names ih =>
    rw [List.forall_mem_cons] at valid
    exact readable_named low written_fileName (readable_text valid.1) (ih valid.2)

/-- A reference is put back in a form that can be read. -/
theorem readable_canonical (readable : Readable options depth scope afterText f) :
    Readable options depth .initial false (canonical f) := by
  rw [canonical]
  cases named : target? f with
  | none => exact .nil
  | some target =>
    obtain ⟨directory, names⟩ := target
    obtain ⟨low, valid, all⟩ := valid_target? readable named
    exact readable_named low written_path (readable_text (valid_directoryUri valid)) (readable_namedFiles low all)

/-- What can be read can be read with its references put back, where nothing declares a namespace around them. -/
theorem readable_normal (readable : Readable options depth scope afterText f) (tidy : Tidy f)
    (plain : references f ≠ [] → scope = .initial) : Readable options depth scope afterText (normal f) := by
  induction readable with
  | nil => exact .nil
  | text filled valid others ih => exact .text filled valid (ih tidy.2 plain)
  | @leaf depth scope afterText content rest reread others ih =>
    have other : ¬ isReference content = true := by cases reread <;> exact nofun
    rw [references_cons, if_neg other] at plain
    rw [normal_other other]
    exact .leaf reread (ih tidy.2 plain)
  | @element depth scope afterText tag children rest low written inner others ihi iho =>
    obtain ⟨here, behind⟩ := tidy
    rw [references_cons] at plain
    split at here
    · rename_i reference
      rw [if_pos reference] at plain
      obtain rfl := plain (List.cons_ne_nil _ _)
      rw [normal_reference reference]
      exact readable_named low written_reference (readable_canonical inner) (iho behind fun _ => rfl)
    · rename_i other
      rw [if_neg other] at plain
      obtain ⟨-, undeclared, within⟩ := here
      rw [normal_other other]
      refine .element low written (ihi within fun some => ?_) (iho behind fun some => plain (by simp [some]))
      have none : tag.bindings = [] := undeclared some
      rw [none, plain (by simp [some])]
      rfl

theorem sieved_text : Forest.Sieved false (if text.isEmpty then .nil else leaves [.text text]) := by
  split
  · trivial
  · exact ⟨fun _ _ _ => ⟨rfl, rfl⟩, trivial, trivial⟩

theorem sieved_namedFiles : Forest.Sieved true (namedFiles names) := by
  induction names with
  | nil => trivial
  | cons name names ih => exact .element sieved_text ih

theorem sieved_canonical : Forest.Sieved false (canonical f) := by
  rw [canonical]
  split
  · exact .element sieved_text sieved_namedFiles
  · trivial

theorem sieved_normal (sieved : f.Sieved started) : (normal f).Sieved started := by
  induction f generalizing started with
  | nil => trivial
  | cons content children later ihc ihl =>
    obtain ⟨blank, inner, outer⟩ := sieved
    by_cases here : isReference content = true
    · rw [normal_reference here]
      exact .element sieved_canonical (ihl outer)
    · rw [normal_other here]
      refine ⟨fun s text white => ?_, ihc inner, ihl outer⟩
      obtain ⟨first, rfl⟩ := blank s text white
      exact ⟨first, rfl⟩

/-- An element that holds a text and nothing else is not laid out as a block. -/
theorem hidesText_textTree_append : (textTree name text ++ f).hidesText = f.hidesText := by
  change (Forest.cons _ _ f).hidesText = _
  rw [Forest.hidesText]
  split <;> simp [leaves, Forest.roots, Forest.hidesText, isBlockContent, Content.isCharacters, Content.characters?]

theorem hidesText_namedFiles : (namedFiles names).hidesText = false := by
  induction names with
  | nil => rfl
  | cons name names ih => rw [namedFiles, hidesText_textTree_append, ih]

theorem hidesText_canonical : (canonical f).hidesText = false := by
  rw [canonical]
  split
  · rw [referenceTo, hidesText_textTree_append, hidesText_namedFiles]
  · rfl

theorem isText_of_mem_canonical (mem : content ∈ (canonical f).roots) : content.isText = false := by
  have files (names : List String) : ∀ content ∈ (namedFiles names).roots, content.isText = false := by
    induction names with
    | nil => exact nofun
    | cons name names ih =>
      rw [namedFiles, Forest.roots_append, List.forall_mem_append]
      exact ⟨List.forall_mem_singleton.mpr rfl, ih⟩
  rw [canonical] at mem
  split at mem
  · rename_i directory names _
    have all : ∀ content ∈ (referenceTo (directoryUri directory) names).roots, content.isText = false := by
      rw [referenceTo, Forest.roots_append, List.forall_mem_append]
      exact ⟨List.forall_mem_singleton.mpr rfl, files names⟩
    exact all content mem
  · cases mem

/-- References are laid out alike, whatever else they have. -/
theorem layout_normalRoot (content : Content) : allowsBlock (normalRoot content) = allowsBlock content ∧
    (normalRoot content).isCharacters = content.isCharacters ∧ (normalRoot content).isText = content.isText := by
  rw [normalRoot]
  split
  · cases content with
    | element tag => exact ⟨rfl, rfl, rfl⟩
    | _ => rename_i here; cases here
  · exact ⟨rfl, rfl, rfl⟩

theorem hidesText_normal (shown : f.hidesText = false) : (normal f).hidesText = false := by
  induction f with
  | nil => rfl
  | cons content children later ihc ihl =>
    rw [Forest.hidesText, Bool.or_eq_false_iff, Bool.or_eq_false_iff] at shown
    obtain ⟨⟨here, inner⟩, outer⟩ := shown
    by_cases reference : isReference content = true
    · have none : (canonical children).roots.any Content.isText = false :=
        List.any_eq_false.mpr fun content mem => by rw [isText_of_mem_canonical mem]; exact Bool.false_ne_true
      rw [normal_reference reference, Forest.hidesText, none, Bool.and_false, hidesText_canonical, ihl outer]
      rfl
    · have block : isBlockContent (normal children).roots = isBlockContent children.roots := by
        simp only [isBlockContent, roots_normal, List.all_map, List.any_map, Function.comp_def, layout_normalRoot]
      have texts : (normal children).roots.any Content.isText = children.roots.any Content.isText := by
        simp only [roots_normal, List.any_map, Function.comp_def, layout_normalRoot]
      rw [normal_other reference, Forest.hidesText, block, texts, here, ihc inner, ihl outer]
      rfl

/-! ## Files that are written -/

/-- A document element that is read and can be restored. -/
structure Rereadable (options : ReadOptions) (top : Content) (below : Forest Content) : Prop where
  tag : ∃ tag : Element, tag.Written ∧ top = .element ((Scope.initial.enter tag.bindings).resolveTag tag) ∧
    Readable options 1 (Scope.initial.enter tag.bindings) false below
  low : 1 ≤ options.maxDepth
  sieved : below.Sieved false
  restorable : Restorable top below

theorem Rereadable.normal_tree (h : Rereadable options top below) :
    normal (.tree top below) = .tree top (normal below) :=
  External.normal_tree (by rw [h.restorable.other]; exact Bool.false_ne_true)

theorem Rereadable.topLevel (h : Rereadable options top below) {before after : List Content}
    (ahead : ∀ content ∈ before, Aside content) (behind : ∀ content ∈ after, Aside content) :
    TopLevel options (leaves before ++ .cons top (normal below) (leaves after)) := by
  obtain ⟨⟨tag, written, rfl, readable⟩, low, -, other, -, ⟨here, -⟩, -⟩ := h
  rw [if_neg (by rw [other]; exact Bool.false_ne_true)] at here
  obtain ⟨-, undeclared, tidy⟩ := here
  refine .intro behind ahead low written (readable_normal readable tidy fun some => ?_)
  have none : tag.bindings = [] := undeclared some
  rw [none]
  rfl

section

variable (sieves : options.noBlanks = true)

include sieves

/-- The element of a document that is read, with what stands beside it. -/
theorem rereadable_of_readDocument {c : Cursor} {m : Markup} (h : readDocument options c = .ok m)
    (root : m.root? = some (top, below)) (restorable : Restorable top below) :
    Rereadable options top below ∧ ∃ before after, m.nodes = leaves before ++ .cons top below (leaves after) ∧
      (∀ content ∈ before, Ahead content) ∧
      ∀ content ∈ after, Aside content := by
  obtain ⟨before, after, tag, children, shape, ahead, behind, low, written, inner⟩ := shape_of_readDocument h
  have found : m.root? = some (.element ((Scope.initial.enter tag.bindings).resolveTag tag), children) := by
    rw [Markup.root?, shape]
    exact find?_leaves fun content mem => isElement_of_ahead (ahead content mem)
  obtain ⟨rfl, rfl⟩ := Prod.mk.inj (Option.some.inj (found.symm.trans root))
  have readable : Readable options 1 (Scope.initial.enter tag.bindings) false children := by
    rcases inner with rfl | ⟨p, q, read⟩
    · exact .nil
    · exact readable_readContentWithin (fun after => absurd after Bool.false_ne_true) read
  have sieved : children.Sieved false := by
    rcases inner with rfl | ⟨p, q, read⟩
    · trivial
    · exact sieved_readContentWithin sieves read
  exact ⟨⟨⟨tag, written, rfl, readable⟩, low, sieved, restorable⟩, before, after, shape, ahead, behind⟩

variable (unit : ∀ ch ∈ o.indentUnit.toList, ch = ' ' ∨ ch = '\t')
  (encoded : o.encoding = some "utf-8")

include unit encoded

/-- What is written to a file is read again, if no text is hidden. -/
theorem ofBytes_writeDocument {declaration : Declaration} {nodes : Forest Content}
    (plain : declaration.version.getD "1.0" = "1.0") (top : TopLevel options nodes) (sieved : nodes.Sieved true)
    (shown : nodes.hidesText = false) :
    ∃ m, Markup.ofBytes options (utf8Bytes (o.writeDocument declaration nodes)) = .ok m ∧ m.nodes = nodes := by
  have gaps : Gap o.indentUnit.toList := fun ch hch => (unit ch hch).imp_right .inl
  obtain ⟨c, hc, again⟩ := ofString_writeDocument (o := o) options declaration nodes
  obtain ⟨m, read, remains⟩ := readDocument_writeDocument_remains sieves gaps top sieved (declares_utf8 encoded plain) hc
  refine ⟨m, ?_, remains.trans (remains_eq_self lines_flat shown)⟩
  rw [Markup.ofBytes, decodeDocument_writeDocument encoded plain]
  exact again.trans read

/-- An element that goes back to its file is read from it again. -/
theorem contentRoot?_rewritten {bytes : Bytes} (root : contentRoot? options bytes = some (top, below))
    (restorable : Restorable top below) :
    contentRoot? options (utf8Bytes (o.writeDocument .absent (.tree top (normal below)))) = some (top, normal below) := by
  rw [contentRoot?] at root
  split at root
  · rename_i m parsed
    rw [Markup.ofBytes] at parsed
    split at parsed
    · obtain ⟨rereadable, -⟩ := rereadable_of_readDocument sieves parsed root restorable
      have shown := hidesText_normal restorable.shown
      rw [rereadable.normal_tree] at shown
      have topLevel : TopLevel options (leaves [] ++ .cons top (normal below) (leaves [])) :=
        rereadable.topLevel (List.forall_mem_nil _) (List.forall_mem_nil _)
      obtain ⟨tag, -, rfl, -⟩ := rereadable.tag
      obtain ⟨m', read, nodes⟩ := ofBytes_writeDocument sieves unit encoded
        (show Declaration.absent.version.getD "1.0" = "1.0" from rfl) topLevel
        (.element (sieved_normal rereadable.sieved) trivial) shown
      have alone (f : Forest Content) (g : Content) : leaves [] ++ .cons g f (leaves []) = .tree g f := rfl
      rw [alone] at read nodes
      rw [contentRoot?, read]
      dsimp only
      rw [Markup.root?, nodes]
      rfl
    · cases parsed
  · cases root

end

end External

end XmlStore
