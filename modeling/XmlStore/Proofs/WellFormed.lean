/-
Which documents can be read again. Beside the root element and a document type
before it only comments, processing instructions and blanks may stand. What is
written for nodes whose names are spelt is read exactly if they are of this
shape and the root element with all it contains is legible.
-/
import XmlStore.Proofs.Legible

namespace XmlStore

open Cursor (IsName Valid Takes Passes Reread)

/-! ## Beside the root element -/

/-- Whether a node may stand beside the root element: a comment, a processing instruction, or a text of spaces,
tabs and line feeds. -/
def Content.isBeside : Content → Bool
  | .comment _ | .instruction .. => true
  | .text s => s.toList.all fun ch => ch = ' ' || ch = '\t' || ch = '\n'
  | _ => false

namespace Forest

/-- The trees of a forest but for those that may stand beside the root element. -/
def trunk : Forest Content → Forest Content
  | nil => nil
  | cons content children later => if content.isBeside then later.trunk else cons content children later.trunk

/-- A forest from its first tree on that may not stand beside the root element. -/
def fromTrunk : Forest Content → Forest Content
  | nil => nil
  | cons content children later => if content.isBeside then later.fromTrunk else cons content children later

/-- A forest of one root element, with a document type before it or without, that can be read again where elements
may be nested `limit` deep. -/
def WellFormed (limit : Nat) (f : Forest Content) : Prop :=
  ∃ tag children, (tree (.element tag) children).Legible limit 0 ∧
    (f.trunk = tree (.element tag) children ∨ ∃ name systemId publicId below,
      f.trunk = cons (.doctype name systemId publicId) below (tree (.element tag) children))

variable {f children later : Forest Content} {content : Content} {o : WriteOptions}

theorem trunk_eq (f : Forest Content) : f.trunk =
    match f.fromTrunk with
    | nil => nil
    | cons content children later => cons content children later.trunk := by
  induction f with
  | nil => rfl
  | cons content children later _ ih =>
    rw [trunk, fromTrunk]
    split
    · exact ih
    · rfl

theorem isBeside_fromTrunk (h : f.fromTrunk = cons content children later) : content.isBeside = false := by
  induction f with
  | nil => cases h
  | cons first below rest _ ih =>
    rw [fromTrunk] at h
    split at h
    · exact ih h
    · rename_i other
      cases h
      exact Bool.eq_false_iff.mpr other

theorem fromTrunk_subset (f : Forest Content) : f.fromTrunk.preorder ⊆ f.preorder := by
  induction f with
  | nil => exact List.Subset.refl _
  | cons content children later _ ih =>
    rw [fromTrunk]
    split
    · exact List.Subset.trans ih (List.subset_cons_of_subset _ (List.subset_append_right ..))
    · exact List.Subset.refl _

theorem trunk_eq_nil_iff : f.trunk = nil ↔ f.fromTrunk = nil := by
  rw [trunk_eq]
  cases f.fromTrunk with
  | nil => exact Iff.rfl
  | cons => exact iff_of_false nofun nofun

theorem remains_lines (o : WriteOptions) (content : Content) (children later : Forest Content) :
    o.remains .lines (cons content children later) =
      cons content (o.remains (o.childLayout children) children) (o.remains .lines later) :=
  remains_shown (by simp)

theorem trunk_remains (o : WriteOptions) (f : Forest Content) :
    (o.remains .lines f).trunk = o.remains .lines f.trunk := by
  induction f with
  | nil => rfl
  | cons content children later _ ih =>
    rw [remains_lines, trunk, trunk, ih]
    split
    · rfl
    · rw [remains_lines]

/-- A forest from its root element on: its first tree that may not stand beside one, or the next if that is a
document type. -/
def behindDoctype (f : Forest Content) : Forest Content :=
  match f.fromTrunk with
  | cons (.doctype ..) _ later => later.fromTrunk
  | g => g

theorem behindDoctype_subset (f : Forest Content) : f.behindDoctype.preorder ⊆ f.preorder := by
  unfold behindDoctype
  split
  · rename_i later first
    intro content mem
    refine f.fromTrunk_subset (first ▸ List.mem_cons_of_mem _ (List.mem_append_right _ ?_))
    exact later.fromTrunk_subset mem
  · exact f.fromTrunk_subset

theorem isBeside_behindDoctype (h : f.behindDoctype = cons content children later) : content.isBeside = false := by
  unfold behindDoctype at h
  split at h <;> exact isBeside_fromTrunk h

theorem remains_trunk_eq_tree_iff (o : WriteOptions) {tag : Element} {inner : Forest Content} :
    o.remains .lines f.trunk = tree (.element tag) inner ↔ ∃ children later,
      f.fromTrunk = cons (.element tag) children later ∧ later.fromTrunk = nil ∧
        o.remains (o.childLayout children) children = inner := by
  rw [trunk_eq]
  cases f.fromTrunk with
  | nil => exact iff_of_false nofun (by rintro ⟨_, _, none, -⟩; cases none)
  | cons content children later =>
    have nothing : o.remains .lines later.trunk = nil ↔ later.fromTrunk = nil := by
      rw [← trunk_remains, ← trunk_eq_nil_iff, trunk_remains]
      cases later.trunk with
      | nil => exact Iff.rfl
      | cons => exact iff_of_false (by rw [remains_lines]; exact nofun) nofun
    dsimp only
    rw [remains_lines]
    constructor
    · intro whole
      obtain ⟨rfl, same, none⟩ := cons.inj whole
      exact ⟨children, later, rfl, nothing.mp none, same⟩
    · rintro ⟨_, _, first, none, rfl⟩
      obtain ⟨rfl, rfl, rfl⟩ := cons.inj first
      rw [nothing.mpr none]
      rfl

/-- A root element that can be read when it has been written, with nothing behind it but what may stand there. -/
def IsBody (o : WriteOptions) (limit : Nat) : Forest Content → Prop
  | cons (.element tag) children later =>
    (tree (.element tag) (o.remains (o.childLayout children) children)).Legible limit 0 ∧ later.fromTrunk = nil
  | _ => False

theorem isBody_iff {limit : Nat} : f.IsBody o limit ↔ ∃ tag children later, f = cons (.element tag) children later ∧
    (tree (.element tag) (o.remains (o.childLayout children) children)).Legible limit 0 ∧ later.fromTrunk = nil := by
  constructor
  · intro body
    unfold IsBody at body
    split at body
    · exact ⟨_, _, _, rfl, body⟩
    · exact body.elim
  · rintro ⟨tag, children, later, rfl, body⟩
    exact body

theorem wellFormed_remains_iff (o : WriteOptions) {limit : Nat} :
    (o.remains .lines f).WellFormed limit ↔ f.behindDoctype.IsBody o limit := by
  rw [isBody_iff]
  constructor
  · rintro ⟨tag, inner, legible, whole | ⟨name, systemId, publicId, below, whole⟩⟩
    · rw [trunk_remains, remains_trunk_eq_tree_iff] at whole
      obtain ⟨children, later, first, none, rfl⟩ := whole
      exact ⟨tag, children, later, by rw [behindDoctype, first], legible, none⟩
    · rw [trunk_remains, trunk_eq] at whole
      cases first : f.fromTrunk with
      | nil =>
        rw [first] at whole
        cases whole
      | cons content children later =>
        rw [first] at whole
        dsimp only at whole
        rw [remains_lines] at whole
        obtain ⟨rfl, -, whole⟩ := cons.inj whole
        obtain ⟨children, below, second, none, rfl⟩ := (remains_trunk_eq_tree_iff o).mp whole
        refine ⟨tag, children, below, ?_, legible, none⟩
        rw [behindDoctype, first]
        exact second
  · rintro ⟨tag, children, later, found, legible, none⟩
    refine ⟨tag, _, legible, ?_⟩
    rw [trunk_remains]
    unfold behindDoctype at found
    split at found
    · rename_i name systemId publicId below rest first
      refine .inr ⟨name, systemId, publicId, o.remains (o.childLayout below) below, ?_⟩
      rw [trunk_eq, first]
      dsimp only
      rw [remains_lines, (remains_trunk_eq_tree_iff o).mpr ⟨children, later, found, none, rfl⟩]
    · exact .inl ((remains_trunk_eq_tree_iff o).mpr ⟨children, later, found, none, rfl⟩)

end Forest

/-! ## Passing over what stands beside the root element -/

section

variable {o : WriteOptions} {f children later : Forest Content} {content : Content} {c : Cursor} {run more : List Char}

/-- What comes next where nothing can be passed over any more. -/
def Stops (o : WriteOptions) (rest : List Char) : Forest Content → Prop
  | .nil => rest = []
  | .cons (.text _) _ _ => ∃ ch more, rest = ch :: more ∧ ch ≠ '<'
  | f => rest = o.writeForest .lines 0 f []

theorem blank_line : ∀ ch ∈ ['\n'], isBlank ch = true := fun _ hch => List.mem_singleton.mp hch ▸ rfl

theorem Stops.markup {rest : List Char} (h : Stops o rest (.cons content children later))
    (other : content.isText = false) : rest = o.writeForest .lines 0 (.cons content children later) [] := by
  cases content <;> first | exact h | cases other

theorem rest_skipBlanks_run (blank : ∀ ch ∈ run, isBlank ch = true) (hc : c.rest = run ++ more) :
    c.skipBlanks.rest = more.dropWhile isBlank := by
  rw [Cursor.rest_skipBlanks, hc, List.dropWhile_append_of_pos blank]

theorem rest_skipBlanks_markup (blank : ∀ ch ∈ run, isBlank ch = true) (hc : c.rest = run ++ '<' :: more) :
    c.skipBlanks.rest = '<' :: more := by
  rw [rest_skipBlanks_run blank hc]
  exact List.dropWhile_cons_of_neg (by decide)

/-- Where other markup begins nothing is passed over but the blanks before it. -/
theorem stops_at_markup (blank : ∀ ch ∈ run, isBlank ch = true) (taken : List Content)
    (hc : c.rest = run ++ '<' :: more) (other : ¬ ['!', '-', '-'] <+: more ∧ ¬ ['?'] <+: more) :
    c.skipBlanks.readWhile Cursor.seesAside Cursor.collectAside Cursor.advances_collectAside taken =
      .ok (taken, c.skipBlanks) := by
  have rest := rest_skipBlanks_markup blank hc
  have away {word : List Char} (h : ¬ word <+: more) : c.skipBlanks.sees ('<' :: word) = false := by
    refine Cursor.sees_eq_false fun found => ?_
    rw [rest, List.cons_prefix_cons] at found
    exact h found.2
  have unseen : c.skipBlanks.seesAside = false := by
    rw [Cursor.seesAside, Bool.or_eq_false_iff]
    exact ⟨away other.1, away other.2⟩
  rw [Cursor.readWhile_eq, unseen]
  rfl

theorem unlike_bang {ch : Char} (other : ch ≠ '-') :
    ¬ ['!', '-', '-'] <+: '!' :: ch :: more ∧ ¬ ['?'] <+: '!' :: ch :: more := by
  constructor <;> intro found <;> simp only [List.cons_prefix_cons] at found
  · exact other found.2.1.symm
  · exact absurd found.1 (by decide)

theorem not_blank_escapeText {s : String} (solid : (Content.text s).isBeside = false) :
    ∃ ch ∈ escapeText s, isBlank ch = false := by
  rw [Content.isBeside, List.all_eq_false] at solid
  obtain ⟨ch, hch, solid⟩ := solid
  rcases Cursor.escapeTextChar_cases ch with known | ⟨plain, -, -, -, cr⟩
  · obtain ⟨more, spelled⟩ := Cursor.begins_of_references known
    exact ⟨'&', List.mem_flatMap.mpr ⟨ch, hch, spelled ▸ List.mem_cons_self⟩, by decide⟩
  · refine ⟨ch, List.mem_flatMap.mpr ⟨ch, hch, plain ▸ List.mem_cons_self⟩, ?_⟩
    simp only [Bool.or_eq_true, decide_eq_true_eq, not_or] at solid
    simp [isBlank, solid, cr]

/-- A text that is not blank is not passed over. -/
theorem stops_at_text {s : String} (solid : (Content.text s).isBeside = false)
    (blank : ∀ ch ∈ run, isBlank ch = true) (taken : List Content) (hc : c.rest = run ++ (escapeText s ++ more)) :
    c.skipBlanks.readWhile Cursor.seesAside Cursor.collectAside Cursor.advances_collectAside taken =
        .ok (taken, c.skipBlanks) ∧ ∃ ch rest, c.skipBlanks.rest = ch :: rest ∧ ch ≠ '<' := by
  obtain ⟨here, mem, solid⟩ := not_blank_escapeText solid
  obtain ⟨ch, rest, dropped⟩ : ∃ ch rest, (escapeText s).dropWhile isBlank = ch :: rest := by
    refine List.exists_cons_of_ne_nil fun none => ?_
    rw [List.dropWhile_eq_nil_iff.mp none here mem] at solid
    cases solid
  have rest_eq : c.skipBlanks.rest = ch :: (rest ++ more) := by
    rw [rest_skipBlanks_run blank hc, List.dropWhile_append, dropped]
    rfl
  have other : ch ≠ '<' := by
    rintro rfl
    have listed : '<' ∈ escapeText s := (List.dropWhile_sublist _).subset (dropped ▸ List.mem_cons_self)
    exact Cursor.not_mem_escapeText (by decide) s.toList listed
  have unseen : c.skipBlanks.seesAside = false := by
    have away {word : List Char} : c.skipBlanks.sees ('<' :: word) = false := by
      refine Cursor.sees_eq_false fun found => ?_
      rw [rest_eq, List.cons_prefix_cons] at found
      exact other found.1.symm
    rw [Cursor.seesAside, Bool.or_eq_false_iff]
    exact ⟨away, away⟩
  refine ⟨?_, ch, _, rest_eq, other⟩
  rw [Cursor.readWhile_eq, unseen]
  rfl

theorem write_text_lines {s : String} :
    o.writeForest .lines 0 (.cons (.text s) children later) [] =
      escapeText s ++ '\n' :: o.writeForest .lines 0 later [] := by
  have shown : ¬ (Layout.lines = .block && Content.isText (.text s)) = true := by simp
  rw [WriteOptions.writeForest, if_neg shown, before_flat lines_flat]
  rfl

theorem write_doctype_lines {name : String} {systemId publicId : Option String} :
    o.writeForest .lines 0 (.cons (.doctype name systemId publicId) children later) [] =
      writeDoctype name systemId publicId ++ '\n' :: o.writeForest .lines 0 later [] := by
  have shown : ¬ (Layout.lines = .block && Content.isText (.doctype name systemId publicId)) = true := by simp
  rw [WriteOptions.writeForest, if_neg shown, before_flat lines_flat]
  rfl

/-- What is written for any other node than a text begins with a bracket. -/
theorem begins_markup (spelt : content.Spelt) (other : content.isText = false) (children later : Forest Content) :
    ∃ more, o.writeForest .lines 0 (.cons content children later) [] = '<' :: more := by
  cases spelt with
  | text => cases other
  | leaf reread =>
    obtain ⟨more, begins, -⟩ := begins_writeLeaf reread ('\n' :: o.writeForest .lines 0 later [])
    rw [write_leaf reread, before_flat lines_flat]
    exact ⟨more, begins⟩
  | @doctype name isName systemId publicId =>
    obtain ⟨more, begins⟩ := begins_writeDoctype name systemId publicId
    rw [write_doctype_lines, begins]
    exact ⟨_, rfl⟩
  | element named =>
    obtain ⟨ch, more, begins, -⟩ := second_writeElement named o 0 children ('\n' :: o.writeForest .lines 0 later [])
    exact ⟨_, write_element.trans begins⟩

theorem isBeside_text {s : String} (beside : (Content.text s).isBeside = true) :
    ∀ ch ∈ s.toList, ch = ' ' ∨ ch = '\t' ∨ ch = '\n' := by
  rw [Content.isBeside, List.all_eq_true] at beside
  simpa [or_assoc] using beside

theorem blank_of_isBeside {s : String} (beside : (Content.text s).isBeside = true) :
    ∀ ch ∈ s.toList, isBlank ch = true := by
  intro ch hch
  rcases isBeside_text beside ch hch with rfl | rfl | rfl <;> rfl

theorem escapeText_of_isBeside {s : String} (beside : (Content.text s).isBeside = true) :
    escapeText s = s.toList :=
  Gap.escape (isBeside_text beside)

/-- Comments, processing instructions and blanks are passed over up to the first other node. -/
theorem stops_readWhile (spelt : ∀ content ∈ f.preorder, content.Spelt) (blank : ∀ ch ∈ run, isBlank ch = true)
    (taken : List Content) (hc : c.rest = run ++ o.writeForest .lines 0 f []) :
    ∃ all d, c.skipBlanks.readWhile Cursor.seesAside Cursor.collectAside Cursor.advances_collectAside taken =
      .ok (all, d) ∧ Stops o d.rest f.fromTrunk := by
  induction f generalizing run taken c with
  | nil =>
    have rest : c.skipBlanks.rest = [] := rest_skipBlanks_run blank hc
    refine ⟨taken, c.skipBlanks, ?_, rest⟩
    rw [Cursor.readWhile_eq, endsAsides_nil.unseen _ rest]
    rfl
  | cons content children later _ ih =>
    rw [Forest.preorder, List.forall_mem_cons, List.forall_mem_append] at spelt
    obtain ⟨here, -, behind⟩ := spelt
    have stop {more : List Char} (solid : content.isBeside = false) (other : content.isText = false)
        (begins : o.writeForest .lines 0 (.cons content children later) [] = '<' :: more)
        (unlike : ¬ ['!', '-', '-'] <+: more ∧ ¬ ['?'] <+: more) :
        ∃ all d, c.skipBlanks.readWhile Cursor.seesAside Cursor.collectAside Cursor.advances_collectAside taken =
          .ok (all, d) ∧ Stops o d.rest (Forest.fromTrunk (.cons content children later)) := by
      refine ⟨taken, c.skipBlanks, stops_at_markup blank taken (begins ▸ hc) unlike, ?_⟩
      rw [Forest.fromTrunk, solid, rest_skipBlanks_markup blank (begins ▸ hc), ← begins]
      cases content <;> first | rfl | cases other
    cases here with
    | text s =>
      rw [write_text_lines] at hc
      cases beside : (Content.text s).isBeside with
      | true =>
        have shape : c.rest = (run ++ (s.toList ++ ['\n'])) ++ o.writeForest .lines 0 later [] := by
          rw [hc, escapeText_of_isBeside beside]
          simp only [List.append_assoc, List.cons_append, List.nil_append]
        rw [Forest.fromTrunk, beside]
        refine ih behind (List.forall_mem_append.mpr ⟨blank, List.forall_mem_append.mpr ⟨?_, ?_⟩⟩) taken shape
        · exact blank_of_isBeside beside
        · exact blank_line
      | false =>
        obtain ⟨stopped, rest⟩ := stops_at_text beside blank taken hc
        refine ⟨taken, c.skipBlanks, stopped, ?_⟩
        rw [Forest.fromTrunk, beside]
        exact rest
    | leaf reread =>
      rw [write_leaf reread, before_flat lines_flat] at hc
      cases characters : content.isCharacters with
      | true =>
        cases reread with
        | cdata raw clear => exact stop rfl rfl (write_leaf (.cdata raw clear)) (unlike_bang (by decide))
        | _ => cases characters
      | false =>
        have beside : content.isBeside = true := by
          cases reread with
          | cdata => cases characters
          | _ => rfl
        have aside : Aside content := ⟨reread, characters⟩
        obtain ⟨more, begins, -⟩ := begins_writeLeaf reread ('\n' :: o.writeForest .lines 0 later [])
        have rest : c.skipBlanks.rest = writeLeaf content ('\n' :: o.writeForest .lines 0 later []) := by
          rw [begins]
          exact rest_skipBlanks_markup blank (begins ▸ hc)
        obtain ⟨d, taken_eq, hd⟩ := Cursor.takes_readAside reread characters c.skipBlanks rest
        have collected : c.skipBlanks.collectAside taken = .ok (content :: taken, d.skipBlanks) :=
          bind_eq_ok.2 ⟨_, taken_eq, rfl⟩
        rw [Forest.fromTrunk, beside, Cursor.readWhile_eq, seesAside_writeLeaf aside rest, collected]
        exact ih behind blank_line (content :: taken) hd
    | @doctype name isName systemId publicId =>
      obtain ⟨more, begins⟩ := begins_writeDoctype name systemId publicId
      have shape : o.writeForest .lines 0 (.cons (.doctype name systemId publicId) children later) [] =
          '<' :: '!' :: 'D' :: ("OCTYPE ".toList ++ (more ++ '\n' :: o.writeForest .lines 0 later [])) := by
        rw [write_doctype_lines, begins]
        rfl
      exact stop rfl rfl shape (unlike_bang (by decide))
    | @element tag spelt =>
      obtain ⟨ch, more, begins, second⟩ :=
        second_writeElement spelt o 0 children ('\n' :: o.writeForest .lines 0 later [])
      have other : ch ≠ '!' ∧ ch ≠ '?' := by
        rcases second with other | ⟨rfl, -⟩
        · exact ⟨fun same => other (by simp [same]), fun same => other (by simp [same])⟩
        · decide
      refine stop rfl rfl (write_element.trans begins) ⟨?_, ?_⟩
      · exact fun found => other.1 (List.cons_prefix_cons.mp found).1.symm
      · exact fun found => other.2 (List.cons_prefix_cons.mp found).1.symm

theorem stops_readAsides (spelt : ∀ content ∈ f.preorder, content.Spelt) (blank : ∀ ch ∈ run, isBlank ch = true)
    (hc : c.rest = run ++ o.writeForest .lines 0 f []) :
    ∃ all d, c.readAsides = .ok (all, d) ∧ Stops o d.rest f.fromTrunk := by
  obtain ⟨taken, d, passed, hd⟩ := stops_readWhile spelt blank [] hc
  exact ⟨taken.reverse, d, bind_eq_ok.2 ⟨_, passed, rfl⟩, hd⟩

/-- No identifier of a document type holds a double quote. -/
def Content.Quotable : Content → Prop
  | .doctype _ systemId publicId => (∀ s ∈ systemId, XmlStore.Quotable s) ∧ ∀ p ∈ publicId, XmlStore.Quotable p
  | _ => True

/-- Past a document type comes what is behind it; without one nothing is passed over. -/
theorem stops_readTypeDeclaration {p : Progress} (spelt : ∀ content ∈ f.preorder, content.Spelt)
    (quotable : ∀ content ∈ f.preorder, content.Quotable) (hp : Stops o p.cursor.rest f.fromTrunk) :
    ∃ typed q, readTypeDeclaration p = .ok (typed, q) ∧ Stops o q.cursor.rest f.behindDoctype := by
  have untyped (other : ¬ "<!DOCTYPE".toList <+: p.cursor.rest) (none : f.behindDoctype = f.fromTrunk) :
      ∃ typed q, readTypeDeclaration p = .ok (typed, q) ∧ Stops o q.cursor.rest f.behindDoctype := by
    refine ⟨[], p, ?_, none ▸ hp⟩
    rw [readTypeDeclaration, if_neg (mt Cursor.sees_iff.mp other)]
    rfl
  cases first : f.fromTrunk with
  | nil =>
    rw [first] at hp
    refine untyped ?_ (by rw [Forest.behindDoctype, first])
    rw [show p.cursor.rest = [] from hp]
    exact fun found => absurd (List.prefix_nil.mp found) (by decide)
  | cons content children later =>
    have listed : content ∈ f.preorder := f.fromTrunk_subset (first ▸ List.mem_cons_self)
    have behind : ∀ content ∈ later.preorder, content ∈ f.preorder := fun content mem =>
      f.fromTrunk_subset (first ▸ List.mem_cons_of_mem _ (List.mem_append_right _ mem))
    have unlike {ch : Char} {more : List Char} (hc : p.cursor.rest = '<' :: ch :: more) (other : ch ≠ '!') :
        ¬ "<!DOCTYPE".toList <+: p.cursor.rest := by
      rw [hc]
      exact fun found => other (List.cons_prefix_cons.mp (List.cons_prefix_cons.mp found).2).1.symm
    rw [first] at hp
    cases spelt content listed with
    | text s =>
      obtain ⟨ch, more, hc, other⟩ := hp
      refine untyped ?_ (by rw [Forest.behindDoctype, first])
      rw [hc]
      exact fun found => other (List.cons_prefix_cons.mp found).1.symm
    | leaf reread =>
      cases reread with
      | cdata raw clear =>
        have hc := (hp.markup rfl).trans (write_leaf (.cdata raw clear))
        refine untyped ?_ (by rw [Forest.behindDoctype, first])
        rw [hc]
        intro found
        have third := (List.cons_prefix_cons.mp (List.cons_prefix_cons.mp found).2).2
        exact absurd (List.cons_prefix_cons.mp third).1 (by decide)
      | _ => cases Forest.isBeside_fromTrunk first
    | element named =>
      obtain ⟨ch, more, begins, second⟩ :=
        second_writeElement named o 0 children ('\n' :: o.writeForest .lines 0 later [])
      have hc := ((hp.markup rfl).trans write_element).trans begins
      refine untyped (unlike hc ?_) (by rw [Forest.behindDoctype, first])
      rcases second with other | ⟨rfl, -⟩
      · rintro rfl
        exact other (by simp)
      · decide
    | @doctype name isName systemId publicId =>
      obtain ⟨system, published⟩ := quotable _ listed
      have hc := (hp.markup rfl).trans write_doctype_lines
      obtain ⟨more, begins⟩ := begins_writeDoctype name systemId publicId
      have seen : p.cursor.sees "<!DOCTYPE".toList = true := by
        rw [Cursor.sees_iff, hc, begins]
        exact ⟨' ' :: (more ++ '\n' :: o.writeForest .lines 0 later []), by simp⟩
      obtain ⟨⟨read, warnings⟩, d, taken, hd⟩ := Cursor.readDoctype_writeDoctype isName system published hc
      obtain ⟨asides, e, passed, he⟩ :=
        stops_readAsides (fun content mem => spelt content (behind content mem)) blank_line hd
      refine ⟨read :: asides, ⟨e, p.warnings ++ warnings⟩, ?_, by rw [Forest.behindDoctype, first]; exact he⟩
      rw [readTypeDeclaration, if_pos seen]
      refine bind_eq_ok.2 ⟨_, taken, bind_eq_ok.2 ⟨(asides, ⟨e, p.warnings ++ warnings⟩), ?_, rfl⟩⟩
      rw [Progress.read, passed]

/-- Nothing is left exactly where the document ends. -/
theorem stops_nil_iff (spelt : ∀ content ∈ f.preorder, content.Spelt) {rest : List Char} (hr : Stops o rest f) :
    rest = [] ↔ f = .nil := by
  cases f with
  | nil => exact iff_of_true hr rfl
  | cons content children later =>
    refine iff_of_false ?_ nofun
    cases other : content.isText with
    | true =>
      obtain ⟨s, rfl⟩ : ∃ s, content = .text s := by
        cases content <;> first | exact ⟨_, rfl⟩ | cases other
      obtain ⟨ch, more, rfl, -⟩ := hr
      exact List.cons_ne_nil _ _
    | false =>
      obtain ⟨more, begins⟩ := begins_markup (o := o) (spelt content List.mem_cons_self) other children later
      rw [hr.markup other, begins]
      exact List.cons_ne_nil _ _

/-! ## The whole document -/

variable {options : ReadOptions} {p : Progress} {declaration : Declaration} {ahead : List Content}

/-- Reads the root element and what stands behind it. -/
def readBody (options : ReadOptions) (declaration : Declaration) (ahead : List Content) (p : Progress) :
    Except ReadError Markup := do
  if !p.cursor.sees ['<'] then p.error .missingRoot
  else
    let ((tag, children), p) ← readElementAt options 1 .initial p
    let (after, p) ← p.read Cursor.readAsides
    if !p.cursor.atEnd then p.error .contentAfterRoot
    else return ⟨declaration, leaves ahead ++ .cons (.element tag) children (leaves after), p.warnings⟩

theorem readDocument_eq (options : ReadOptions) (c : Cursor) : readDocument options c = (do
    let (declaration, p) ← (Progress.mk c []).read Cursor.readOptionalDeclaration
    let (before, p) ← p.read Cursor.readAsides
    let (typed, p) ← readTypeDeclaration p
    readBody options declaration (before ++ typed) p) := rfl

/-- A root element and what stands behind it are read exactly if the element can be read and only asides and blanks
stand behind it. -/
theorem succeedsIff_readBody (unit : Plain o.indentUnit.toList) (spelt : ∀ content ∈ f.preorder, content.Spelt)
    (solid : ∀ {content children later}, f = .cons content children later → content.isBeside = false)
    (hp : Stops o p.cursor.rest f) :
    SucceedsIff (readBody options declaration ahead p) (f.IsBody o options.maxDepth) fun _ => True := by
  rw [readBody]
  have rootless (unseen : ¬ ['<'] <+: p.cursor.rest) : (!p.cursor.sees ['<']) = true := by
    rw [Bool.not_eq_true', Bool.eq_false_iff]
    exact mt Cursor.sees_iff.mp unseen
  have opened {more : List Char} (hc : p.cursor.rest = '<' :: more) : ¬ (!p.cursor.sees ['<']) = true := by
    rw [Cursor.sees_iff.mpr (hc ▸ ⟨more, rfl⟩)]
    exact Bool.false_ne_true
  cases f with
  | nil =>
    have nothing : p.cursor.rest = [] := hp
    rw [if_pos (rootless (by rw [nothing, List.prefix_nil]; exact nofun))]
    exact .error not_false
  | cons content children later =>
    rw [Forest.preorder, List.forall_mem_cons, List.forall_mem_append] at spelt
    obtain ⟨here, below, behind⟩ := spelt
    cases here with
    | text s =>
      obtain ⟨ch, more, hc, other⟩ := hp
      rw [if_pos (rootless (by rw [hc]; exact fun found => other (List.cons_prefix_cons.mp found).1.symm))]
      exact .error not_false
    | leaf reread =>
      cases reread with
      | cdata raw clear =>
        have hc := (hp.markup rfl).trans (write_leaf (.cdata raw clear))
        obtain ⟨e, refusal⟩ : ∃ e, readElementAt options 1 .initial p = .error e := refuses_readElementAt hc (by decide)
        rw [if_neg (opened hc), refusal]
        exact .error not_false
      | _ => cases solid rfl
    | @doctype name isName systemId publicId =>
      obtain ⟨more, begins⟩ := begins_writeDoctype name systemId publicId
      have hc := ((hp.markup rfl).trans write_doctype_lines).trans (congrArg (· ++ _) begins)
      obtain ⟨e, refusal⟩ : ∃ e, readElementAt options 1 .initial p = .error e := refuses_readElementAt hc (by decide)
      rw [if_neg (opened hc), refusal]
      exact .error not_false
    | @element tag named =>
      have hc : p.cursor.rest = o.writeElement 0 tag children ('\n' :: o.writeForest .lines 0 later []) :=
        (hp.markup rfl).trans write_element
      obtain ⟨more, begins⟩ := begins_markup (.element named) rfl children later
      rw [if_neg (opened ((hp.markup rfl).trans begins))]
      have bare : children = .nil → (o.remains (o.childLayout children) children).Legible options.maxDepth 1 := by
        rintro rfl
        trivial
      have inner (scope : Scope) (q : Progress) (_ : children ≠ .nil) (isName : IsName tag.name.text)
          (hq : q.cursor.rest = o.writeInside 0 children
            ("</".toList ++ (tag.name.text.toList ++ '>' :: '\n' :: o.writeForest .lines 0 later []))) :
          SucceedsIff (readInside options 1 scope false tag.name.text q) _ _ :=
        succeedsIff_writeInside unit (fun plain => succeedsIff_readInside unit below isName plain) hq
      have element : SucceedsIff (readElementAt options 1 .initial p) _ _ :=
        succeedsIff_readElementAt named bare inner hc
      refine (element.bind ?_).congr (and_congr_left' (and_iff_left trivial).symm)
      rintro ⟨⟨read, inner⟩, q⟩ - hq
      obtain ⟨after, d, passed, hd⟩ := stops_readAsides behind blank_line hq
      have done := stops_nil_iff (fun content mem => behind content (later.fromTrunk_subset mem)) hd
      dsimp only
      rw [Progress.read, passed]
      change SucceedsIff (if !d.atEnd then _ else _) _ _
      by_cases ended : later.fromTrunk = .nil
      · rw [Cursor.atEnd, done.mpr ended]
        exact .ok ended trivial
      · have left : (!d.atEnd) = true := by
          rw [Cursor.atEnd, Bool.not_eq_true', Bool.eq_false_iff, Ne, List.isEmpty_iff]
          exact mt done.mp ended
        rw [if_pos left]
        exact .error ended

/-- What is written for a document is read exactly if the document is well-formed, the texts that the layout
leaves out not counted. -/
theorem succeedsIff_readDocument (unit : Plain o.indentUnit.toList) (spelt : ∀ content ∈ f.preorder, content.Spelt)
    (quotable : ∀ content ∈ f.preorder, content.Quotable) (declares : Declares o declaration)
    (hc : c.rest = (o.writeDocument declaration f).toList) :
    SucceedsIff (readDocument options c) ((o.remains .lines f).WellFormed options.maxDepth) fun _ => True := by
  rw [WriteOptions.writeDocument, String.toList_ofList] at hc
  rw [readDocument_eq, Forest.wellFormed_remains_iff]
  obtain ⟨declared, takes⟩ := declares
  obtain ⟨p, first, hp⟩ := (takes _).read ⟨c, []⟩ hc
  obtain ⟨before, d, passed, hd⟩ := stops_readAsides spelt blank_line hp
  have second : p.read Cursor.readAsides = .ok (before, ⟨d, p.warnings⟩) := by rw [Progress.read, passed]
  obtain ⟨typed, q, third, hq⟩ := stops_readTypeDeclaration (p := ⟨d, p.warnings⟩) spelt quotable hd
  dsimp only at first
  rw [first]
  change SucceedsIff (p.read Cursor.readAsides >>= _) _ _
  rw [second]
  change SucceedsIff (readTypeDeclaration _ >>= _) _ _
  rw [third]
  exact succeedsIff_readBody unit (fun content mem => spelt content (f.behindDoctype_subset mem))
    Forest.isBeside_behindDoctype hq

theorem ofString_writeDocument_iff (unit : Plain o.indentUnit.toList) (spelt : ∀ content ∈ f.preorder, content.Spelt)
    (quotable : ∀ content ∈ f.preorder, content.Quotable) (declares : Declares o declaration) :
    (∃ m, Markup.ofString options (o.writeDocument declaration f) = .ok m) ↔
      (o.remains .lines f).WellFormed options.maxDepth := by
  obtain ⟨c, hc, same⟩ := ofString_writeDocument (o := o) options declaration f
  rw [same]
  exact (succeedsIff_readDocument unit spelt quotable declares hc).iff

end

end XmlStore
