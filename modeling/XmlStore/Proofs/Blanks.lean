/-
Leaving out blanks. While a text is read it is decided from what has been kept
before it and from what begins behind it whether it is left out; in the end
exactly those blank texts are missing that were not all that their elements
held. Two readings of the same text, with blanks and without, go on side by
side: they fail alike, and stand at the same place after every node.
-/
import XmlStore.Proofs.Reparse

namespace XmlStore

/-- Whether a node is a text of nothing but blanks. -/
def Content.isBlankText : Content → Bool
  | text s => s.toList.all isBlank
  | _ => false

namespace Forest

/-- The forest without its blank texts, unless it is one tree `alone`. Below each node, blank texts are left
out that are not its only child. -/
def dropBlanks (alone : Bool) : Forest Content → Forest Content
  | nil => nil
  | cons content children rest =>
    if content.isBlankText && !alone then rest.dropBlanks alone
    else cons content (children.dropBlanks (children.length == 1)) (rest.dropBlanks alone)

/-- The forest without those blank texts that have siblings. -/
def withoutBlanks (f : Forest Content) : Forest Content := f.dropBlanks (f.length == 1)

/-- The forest without those blank texts that have a sibling which stands behind them, or which stands
before them and is not left out itself. The flag says whether there is one before all. -/
def sift (started : Bool) : Forest Content → Forest Content
  | nil => nil
  | cons content children rest =>
    if content.isBlankText && (started || !rest.isEmpty) then rest.sift started
    else cons content (children.sift false) (rest.sift true)

end Forest

variable {options : ReadOptions} {depth : Nat} {scope : Scope} {p q : Progress} {maxDepth : Nat}
variable {content : Content} {children rest f : Forest Content}

/-! ## Two readings side by side -/

/-- Two sequences of steps go on side by side if their first steps do and then, from there, the rest. -/
theorem bind_eq_map {ε α α' β β' : Type} {x : Except ε α} {x' : Except ε α'} {step : α → Except ε β}
    {step' : α' → Except ε β'} {g : α → α'} {k : β → β'} (first : x' = x.map g)
    (later : ∀ a, x = .ok a → step' (g a) = (step a).map k) : x' >>= step' = (x >>= step).map k := by
  subst first
  cases x with
  | error e => rfl
  | ok a => exact later a rfl

/-- The case of one first step for both. -/
theorem bind_eq_map_bind {ε α β β' : Type} {x : Except ε α} {step : α → Except ε β} {step' : α → Except ε β'}
    {k : β → β'} (later : ∀ a, x = .ok a → step' a = (step a).map k) : x >>= step' = (x >>= step).map k :=
  bind_eq_map (g := id) (by cases x <;> rfl) later

theorem readElement_eq_map {options' : ReadOptions} (depths : options'.maxDepth = options.maxDepth)
    {inner inner' : Scope → Progress → Except ReadError (Forest Content × Progress)}
    {k : Forest Content → Forest Content} (empty : k .nil = .nil)
    (same : ∀ scope p, inner' scope p = (inner scope p).map fun (f, q) => (k f, q)) :
    readElement options' depth scope p inner' =
      (readElement options depth scope p inner).map fun ((tag, f), q) => ((tag, k f), q) := by
  rw [readElement, readElement, depths]
  by_cases deep : depth > options.maxDepth
  · rw [if_pos deep, if_pos deep]
    rfl
  · rw [if_neg deep, if_neg deep]
    refine bind_eq_map_bind ?_
    rintro ⟨tag, q⟩ -
    dsimp only
    split
    · exact congrArg (fun f => Except.ok ((_, f), _)) empty.symm
    · refine bind_eq_map_bind fun q₁ _ => bind_eq_map (same _ q₁) ?_
      rintro ⟨f, q₂⟩ -
      exact bind_eq_map_bind fun q₃ _ => rfl

theorem beginning_eq_endTag {c : Cursor} : c.beginning = .endTag ↔ c.sees ['<', '/'] = true := by
  constructor
  · intro h
    rw [Cursor.beginning] at h
    split at h
    · cases h
    · split at h
      · assumption
      · repeat' split at h
        all_goals cases h
  · intro h
    obtain ⟨more, e⟩ := Cursor.sees_iff.mp h
    exact Cursor.beginning_endTag e.symm

/-- With all blanks kept, there is nothing only before an end tag. -/
theorem isEmpty_of_readContentWithin {size : Nat} {started : Bool}
    (h : readContentWithin ⟨false, maxDepth⟩ size depth scope started p = .ok (f, q)) :
    f.isEmpty = p.cursor.sees ['<', '/'] := by
  cases size with
  | zero => cases h
  | succ size =>
    rw [readContentWithin, readContentBy] at h
    have unseen (other : p.cursor.beginning ≠ .endTag) : false = p.cursor.sees ['<', '/'] :=
      (Bool.eq_false_iff.mpr (mt beginning_eq_endTag.mpr other)).symm
    split at h <;> rename_i here
    · cases h
    · cases h
      exact (beginning_eq_endTag.mp here).symm
    · obtain ⟨⟨content, q₁⟩, -, h⟩ := bind_eq_ok.1 h
      obtain ⟨⟨rest, q₂⟩, -, h⟩ := bind_eq_ok.1 h
      cases h
      exact unseen (by rw [here]; decide)
    · obtain ⟨⟨content, q₁⟩, -, h⟩ := bind_eq_ok.1 h
      obtain ⟨⟨rest, q₂⟩, -, h⟩ := bind_eq_ok.1 h
      cases h
      exact unseen (by rw [here]; decide)
    · obtain ⟨⟨⟨tag, children⟩, q₁⟩, -, h⟩ := bind_eq_ok.1 h
      obtain ⟨⟨rest, q₂⟩, -, h⟩ := bind_eq_ok.1 h
      cases h
      exact unseen (by rw [here]; decide)
    · obtain ⟨⟨text, q₁⟩, -, h⟩ := bind_eq_ok.1 h
      obtain ⟨⟨rest, q₂⟩, -, h⟩ := bind_eq_ok.1 h
      cases h
      exact unseen (by rw [here]; decide)

/-- Behind a node that is kept, both go on with something kept before. -/
theorem readLater_noBlanks {size : Nat} {started : Bool} {below : Forest Content}
    (solid : content.isBlankText = false) (sifted : children.sift false = below)
    (same : readContentWithin ⟨true, maxDepth⟩ size depth scope true p =
      (readContentWithin ⟨false, maxDepth⟩ size depth scope true p).map fun (f, q) => (f.sift true, q)) :
    (do
      let (rest, q) ← readContentWithin ⟨true, maxDepth⟩ size depth scope true p
      return (Forest.cons content below rest, q)) =
    (do
      let (rest, q) ← readContentWithin ⟨false, maxDepth⟩ size depth scope true p
      return (Forest.cons content children rest, q)).map fun ((f : Forest Content), q) => (f.sift started, q) := by
  subst sifted
  refine bind_eq_map same ?_
  rintro ⟨rest, q⟩ -
  refine congrArg (fun f => Except.ok (f, q)) ?_
  rw [Forest.sift, solid]
  rfl

/-- Content without blanks is that with blanks, sifted. -/
theorem readContentWithin_noBlanks (size : Nat) (started kept : Bool) :
    readContentWithin ⟨true, maxDepth⟩ size depth scope started p =
      (readContentWithin ⟨false, maxDepth⟩ size depth scope kept p).map fun (f, q) => (f.sift started, q) := by
  induction size generalizing depth scope started kept p with
  | zero => rfl
  | succ size ih =>
    rw [readContentWithin, readContentWithin, readContentBy, readContentBy]
    cases p.cursor.beginning with
    | nothing => rfl
    | endTag => rfl
    | cdata =>
      refine bind_eq_map_bind ?_
      rintro ⟨content, q⟩ read
      refine readLater_noBlanks ?_ rfl (ih true true)
      cases Cursor.reread_of_readCdata (Progress.read_eq_ok read) <;> rfl
    | aside =>
      refine bind_eq_map_bind ?_
      rintro ⟨content, q⟩ read
      refine readLater_noBlanks ?_ rfl (ih true true)
      cases reread_of_readAside (Progress.read_eq_ok read) <;> rfl
    | startTag =>
      have inner (scope : Scope) (p : Progress) :
          readContentWithin ⟨true, maxDepth⟩ size (depth + 1) scope false p = _ := ih false false
      refine bind_eq_map (readElement_eq_map rfl rfl inner) ?_
      rintro ⟨⟨tag, children⟩, q⟩ -
      exact readLater_noBlanks rfl rfl (ih true true)
    | characters =>
      refine bind_eq_map_bind ?_
      rintro ⟨text, q⟩ -
      dsimp only
      have decided : ReadOptions.drops ⟨true, maxDepth⟩ text (started || !q.cursor.sees ['<', '/']) =
          ((Content.text text).isBlankText && (started || !q.cursor.sees ['<', '/'])) := rfl
      rw [decided]
      cases blank : (Content.text text).isBlankText with
      | false => exact readLater_noBlanks blank rfl (ih true true)
      | true =>
        have left : readContentWithin ⟨true, maxDepth⟩ size depth scope started q = _ := ih started true
        have kept : readContentWithin ⟨true, maxDepth⟩ size depth scope true q = _ := ih true true
        rw [Bool.true_and, left, kept]
        cases off : readContentWithin ⟨false, maxDepth⟩ size depth scope true q with
        | error e => split <;> rfl
        | ok result =>
          obtain ⟨rest, q₁⟩ := result
          rw [← isEmpty_of_readContentWithin off]
          have sifted : (Forest.cons (.text text) .nil rest).sift started =
              if (started || !rest.isEmpty) = true then rest.sift started
              else .cons (.text text) .nil (rest.sift true) := by
            rw [Forest.sift, blank, Bool.true_and]
            rfl
          refine Eq.trans ?_ (congrArg (fun f => Except.ok (f, q₁)) sifted.symm)
          split <;> rfl

/-! ## What is left out -/

theorem isBlankText_of_solid (solid : content.isCharacters = false) : content.isBlankText = false := by
  cases content with
  | text s => cases solid
  | _ => rfl

theorem isBlankText_of_reread (reread : Cursor.Reread content) : content.isBlankText = false := by
  cases reread <;> rfl

section

variable {alone : Bool}

theorem dropBlanks_solid (solid : content.isBlankText = false) :
    (Forest.cons content children rest).dropBlanks alone =
      .cons content children.withoutBlanks (rest.dropBlanks alone) := by
  rw [Forest.dropBlanks, solid]
  rfl

/-- A tree that has no other beside it is no blank text, so that it is the same whether it may stay alone. -/
theorem withoutBlanks_solid (solid : content.isBlankText = false) :
    (Forest.cons content children rest).withoutBlanks =
      .cons content children.withoutBlanks (rest.dropBlanks false) := by
  rw [Forest.withoutBlanks, dropBlanks_solid solid]
  cases rest with
  | nil => rfl
  | cons next below later => rfl

theorem sift_solid {started : Bool} (solid : content.isBlankText = false) :
    (Forest.cons content children rest).sift started = .cons content (children.sift false) (rest.sift true) := by
  rw [Forest.sift, solid]
  rfl

theorem dropBlanks_leaves {contents : List Content} (solid : ∀ content ∈ contents, content.isBlankText = false) :
    (leaves contents ++ f).dropBlanks alone = leaves contents ++ f.dropBlanks alone := by
  induction contents with
  | nil => rfl
  | cons content contents ih =>
    rw [List.forall_mem_cons] at solid
    have first : (leaves (content :: contents) ++ f).dropBlanks alone =
        .cons content Forest.nil.withoutBlanks ((leaves contents ++ f).dropBlanks alone) := dropBlanks_solid solid.1
    rw [first, ih solid.2]
    rfl

end

/-- In content as it is read, no two texts stand side by side. So what follows a blank text that stands first
is no blank text, and from there on all blank texts go. -/
theorem sift_eq_of_readable {afterText : Bool} (readable : Readable options depth scope afterText f) :
    f.sift true = f.dropBlanks false ∧ f.sift false = if afterText then f.dropBlanks false else f.withoutBlanks := by
  induction readable with
  | nil => exact ⟨rfl, by split <;> rfl⟩
  | text filled valid others ih =>
    rename_i depth scope s rest
    rw [if_pos rfl] at ih
    rw [if_neg Bool.false_ne_true]
    cases blank : (Content.text s).isBlankText with
    | false =>
      rw [sift_solid blank, sift_solid blank, dropBlanks_solid blank, withoutBlanks_solid blank, ih.1]
      exact ⟨rfl, rfl⟩
    | true =>
      have left {rest : Forest Content} : (Forest.cons (.text s) .nil rest).dropBlanks false = rest.dropBlanks false := by
        rw [Forest.dropBlanks, blank]
        rfl
      refine ⟨?_, ?_⟩
      · rw [left, Forest.sift, blank]
        exact ih.1
      · cases rest with
        | nil =>
          rw [Forest.withoutBlanks, Forest.sift, Forest.dropBlanks, blank]
          rfl
        | cons next below later =>
          have several : (Forest.cons (.text s) .nil (.cons next below later)).withoutBlanks =
              (Forest.cons (.text s) .nil (.cons next below later)).dropBlanks false := rfl
          rw [several, left, Forest.sift, blank]
          exact ih.2
  | leaf reread others ih =>
    have solid := isBlankText_of_reread reread
    rw [sift_solid solid, sift_solid solid, dropBlanks_solid solid, withoutBlanks_solid solid, ih.1]
    exact ⟨rfl, (ite_self _).symm⟩
  | element low written inner others ihc ih =>
    rw [if_neg Bool.false_ne_true] at ihc
    rw [sift_solid rfl, sift_solid rfl, dropBlanks_solid rfl, withoutBlanks_solid rfl, ih.1, ihc.2]
    exact ⟨rfl, (ite_self _).symm⟩

/-- Beside the root element there are no texts. -/
theorem withoutBlanks_document {ahead after : List Content} (tag : Element) (children : Forest Content)
    (solid : ∀ content ∈ ahead, content.isBlankText = false)
    (solid' : ∀ content ∈ after, content.isBlankText = false) :
    (leaves ahead ++ .cons (.element tag) children (leaves after)).withoutBlanks =
      leaves ahead ++ .cons (.element tag) children.withoutBlanks (leaves after) := by
  have last (alone : Bool) : (leaves after).dropBlanks alone = leaves after := by
    have whole : (leaves after ++ .nil).dropBlanks alone = leaves after ++ .nil := dropBlanks_leaves solid'
    rwa [Forest.append_nil] at whole
  rw [Forest.withoutBlanks, dropBlanks_leaves solid, dropBlanks_solid rfl, last]

/-- Content without blanks is that with blanks, less the blank texts that have siblings. -/
theorem readContent_noBlanks :
    readContent ⟨true, maxDepth⟩ depth scope false p =
      (readContent ⟨false, maxDepth⟩ depth scope false p).map fun (f, q) => (f.withoutBlanks, q) := by
  rw [readContent, readContent, readContentWithin_noBlanks _ false false]
  cases read : readContentWithin ⟨false, maxDepth⟩ (p.cursor.remaining + 1) depth scope false p with
  | error e => rfl
  | ok result =>
    obtain ⟨f, q⟩ := result
    have readable : Readable _ depth scope false f := readable_readContentWithin nofun read
    exact congrArg (fun f => Except.ok (f, q)) (sift_eq_of_readable readable).2

/-- A document without blanks is that with blanks, less the blank texts that have siblings. -/
theorem readDocument_noBlanks (c : Cursor) :
    readDocument ⟨true, maxDepth⟩ c =
      (readDocument ⟨false, maxDepth⟩ c).map fun m => { m with nodes := m.nodes.withoutBlanks } := by
  refine bind_eq_map_bind fun (declaration, p) _ => bind_eq_map_bind fun (before, p₁) hbefore => ?_
  refine bind_eq_map_bind fun (typed, p₂) htyped => ?_
  dsimp only
  split
  · rfl
  · have inner (scope : Scope) (p : Progress) : readContent ⟨true, maxDepth⟩ 1 scope false p = _ :=
      readContent_noBlanks
    refine bind_eq_map (readElement_eq_map rfl rfl inner) fun ((tag, children), p₃) _ => ?_
    refine bind_eq_map_bind fun (after, p₄) hafter => ?_
    dsimp only
    split
    · rfl
    · have asides {contents : List Content} {c d : Cursor} (read : c.readAsides = .ok (contents, d)) :
          ∀ content ∈ contents, content.isBlankText = false :=
        fun content mem => isBlankText_of_solid (asides_of_readAsides read content mem).solid
      have typed_solid : ∀ content ∈ typed, content.isBlankText = false := by
        intro content mem
        cases ahead_of_readTypeDeclaration htyped content mem with
        | aside aside => exact isBlankText_of_solid aside.solid
        | doctype => rfl
      have ahead := List.forall_mem_append.mpr ⟨asides (Progress.read_eq_ok hbefore), typed_solid⟩
      have nodes := withoutBlanks_document tag children ahead (asides (Progress.read_eq_ok hafter))
      exact congrArg (fun nodes => Except.ok (Markup.mk declaration nodes p₄.warnings)) nodes.symm

/-- Every text is read without blanks as it is with blanks, or refused for the same fault at the same place
after the same warnings. Of the document that is read with blanks, exactly those texts of nothing but spaces,
tabs and line ends are missing that are not the only child of their parent. -/
theorem ofString_noBlanks (maxDepth : Nat) (s : String) :
    (Document.ofString ⟨true, maxDepth⟩ s).map (fun d => (d.declaration, d.contents Document.root)) =
        (Document.ofString ⟨false, maxDepth⟩ s).map
          (fun d => (d.declaration, (d.contents Document.root).withoutBlanks)) ∧
      (Markup.ofString ⟨true, maxDepth⟩ s).map (·.warnings) =
        (Markup.ofString ⟨false, maxDepth⟩ s).map (·.warnings) := by
  have read : Markup.ofString ⟨true, maxDepth⟩ s =
      (Markup.ofString ⟨false, maxDepth⟩ s).map fun m => { m with nodes := m.nodes.withoutBlanks } :=
    readDocument_noBlanks _
  have declaration (m : Markup) : (Document.ofMarkup m).declaration = m.declaration :=
    (Document.grown_ofMarkup m).declaration
  rw [Document.ofString, Document.ofString, read]
  cases Markup.ofString ⟨false, maxDepth⟩ s with
  | error e => exact ⟨rfl, rfl⟩
  | ok m =>
    refine ⟨congrArg Except.ok ?_, rfl⟩
    dsimp only
    rw [declaration, declaration, Document.contents_ofMarkup, Document.contents_ofMarkup]

/-- Blanks go from between elements, and stay where there is nothing else. -/
example : (Forest.cons (.text " ") .nil (.cons (.comment "c") .nil (.cons (.text " ") .nil .nil))).withoutBlanks =
      .cons (.comment "c") .nil .nil ∧
    (Forest.cons (.text " ") .nil .nil).withoutBlanks = .cons (.text " ") .nil .nil := by
  decide

end XmlStore
