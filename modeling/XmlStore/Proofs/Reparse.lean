/-
Documents are read back. A document that was read from a text without an XML
declaration and without a document type is written as a text from which a
document with the same nodes is read, provided that no blanks are left out.
-/
import XmlStore.Proofs.Copies
import XmlStore.Proofs.Prologs
import XmlStore.Proofs.Reread

namespace XmlStore

open Cursor (Takes Passes Reread)

variable {options : ReadOptions} {content : Content} {c d : Cursor} {nodes : Forest Content}

/-- What may stand beside the root element: a comment or a processing instruction. -/
structure Aside (content : Content) : Prop where
  reread : Reread content
  solid : content.isCharacters = false

/-- What may stand ahead of the root element: an aside, or a document type. -/
inductive Ahead : Content → Prop where
  | aside {content : Content} (aside : Aside content) : Ahead content
  | doctype {name : String} (isName : Cursor.IsName name) (systemId publicId : Option String) :
      Ahead (.doctype name systemId publicId)

theorem Ahead.isAside (ahead : Ahead content)
    (untyped : ∀ name systemId publicId, content ≠ .doctype name systemId publicId) : Aside content := by
  cases ahead with
  | aside aside => exact aside
  | doctype => exact (untyped _ _ _ rfl).elim

/-- The nodes of a document without a document type as they may be read. -/
inductive TopLevel (options : ReadOptions) : Forest Content → Prop where
  | intro {before after : List Content} {tag : Element} {children : Forest Content}
      (behind : ∀ content ∈ after, Aside content) (ahead : ∀ content ∈ before, Aside content)
      (low : 1 ≤ options.maxDepth) (written : tag.Written)
      (inner : Readable options 1 (Scope.initial.enter tag.bindings) false children) :
      TopLevel options (leaves before ++
        .cons (.element ((Scope.initial.enter tag.bindings).resolveTag tag)) children (leaves after))

/-! ## What is read -/

theorem aside_of_readAside (h : c.readAside = .ok (content, d)) : Aside content := by
  refine ⟨reread_of_readAside h, ?_⟩
  rw [Cursor.readAside] at h
  split at h
  · obtain ⟨e, -, h⟩ := bind_eq_ok.1 h
    obtain ⟨⟨s, f⟩, -, h⟩ := bind_eq_ok.1 h
    cases h
    rfl
  · obtain ⟨e, -, h⟩ := bind_eq_ok.1 h
    obtain ⟨⟨target, f⟩, -, h⟩ := bind_eq_ok.1 h
    dsimp only at h
    split at h
    · cases h
    · split at h
      · obtain ⟨⟨s, g⟩, -, h⟩ := bind_eq_ok.1 h
        cases h
        rfl
      · obtain ⟨g, -, h⟩ := bind_eq_ok.1 h
        cases h
        rfl

theorem asides_of_readAsides {contents : List Content} (h : c.readAsides = .ok (contents, d)) :
    ∀ content ∈ contents, Aside content := by
  obtain ⟨⟨taken, e⟩, hwhile, h⟩ := bind_eq_ok.1 h
  cases h
  have none : ∀ content ∈ ([] : List Content), Aside content := by simp
  have kept : ∀ content ∈ taken, Aside content := by
    refine Cursor.readWhile_keeps (P := fun taken => ∀ content ∈ taken, Aside content) ?_ none hwhile
    intro taken c next d asides hstep
    obtain ⟨⟨content, f⟩, hread, hstep⟩ := bind_eq_ok.1 hstep
    cases hstep
    exact List.forall_mem_cons.mpr ⟨aside_of_readAside hread, asides⟩
  exact fun content hcontent => kept content (List.mem_reverse.mp hcontent)

theorem roots_leaves (contents : List Content) : (leaves contents).roots = contents := by
  induction contents with
  | nil => rfl
  | cons content contents ih => exact congrArg (content :: ·) ih

theorem mem_roots_leaves_append {contents : List Content} (h : content ∈ contents) :
    content ∈ (leaves contents ++ nodes).roots := by
  induction contents with
  | nil => cases h
  | cons first contents ih =>
    rcases List.mem_cons.mp h with rfl | later
    · exact List.mem_cons_self
    · exact List.mem_cons_of_mem _ (ih later)

theorem given_of_readExternalId {systemId publicId : Option String}
    (h : c.readExternalId = .ok ((systemId, publicId), d)) : publicId.isSome = true → systemId.isSome = true := by
  rw [Cursor.readExternalId] at h
  split at h
  · obtain ⟨c₁, -, h⟩ := bind_eq_ok.1 h
    obtain ⟨⟨s, c₂⟩, -, h⟩ := bind_eq_ok.1 h
    cases h
    exact fun _ => rfl
  · split at h
    · obtain ⟨c₁, -, h⟩ := bind_eq_ok.1 h
      obtain ⟨⟨p, c₂⟩, -, h⟩ := bind_eq_ok.1 h
      obtain ⟨c₃, -, h⟩ := bind_eq_ok.1 h
      obtain ⟨⟨s, c₄⟩, -, h⟩ := bind_eq_ok.1 h
      cases h
      exact fun _ => rfl
    · cases h
      exact id

theorem doctype_of_readDoctype {warnings : List Warning} (h : c.readDoctype = .ok ((content, warnings), d)) :
    ∃ name systemId publicId, content = .doctype name systemId publicId ∧ Cursor.IsName name ∧
      (publicId.isSome = true → systemId.isSome = true) := by
  obtain ⟨c₁, -, h⟩ := bind_eq_ok.1 h
  obtain ⟨c₂, -, h⟩ := bind_eq_ok.1 h
  obtain ⟨⟨name, c₃⟩, hname, h⟩ := bind_eq_ok.1 h
  obtain ⟨⟨⟨systemId, publicId⟩, c₄⟩, hids, h⟩ := bind_eq_ok.1 h
  have isName := Cursor.isName_of_readName (mapError_eq_ok hname)
  have given := given_of_readExternalId (mapError_eq_ok hids)
  dsimp only at h
  split at h
  · obtain ⟨c₅, -, h⟩ := bind_eq_ok.1 h
    obtain ⟨c₆, -, h⟩ := bind_eq_ok.1 h
    cases h
    exact ⟨name, systemId, publicId, rfl, isName, given⟩
  · obtain ⟨c₅, -, h⟩ := bind_eq_ok.1 h
    cases h
    exact ⟨name, systemId, publicId, rfl, isName, given⟩

/-- What is read for a document type: nothing, or the document type and what stands between it and the root
element. -/
inductive Typed : List Content → Prop where
  | none : Typed []
  | doctype {name : String} {systemId publicId : Option String} {asides : List Content} (isName : Cursor.IsName name)
      (given : publicId.isSome = true → systemId.isSome = true) (behind : ∀ content ∈ asides, Aside content) :
      Typed (.doctype name systemId publicId :: asides)

theorem typed_of_readTypeDeclaration {p q : Progress} {typed : List Content}
    (h : readTypeDeclaration p = .ok (typed, q)) : Typed typed := by
  rw [readTypeDeclaration] at h
  split at h
  · obtain ⟨⟨⟨doctype, warnings⟩, e⟩, hdoctype, h⟩ := bind_eq_ok.1 h
    obtain ⟨⟨asides, f⟩, hasides, h⟩ := bind_eq_ok.1 h
    cases h
    obtain ⟨name, systemId, publicId, rfl, isName, given⟩ := doctype_of_readDoctype hdoctype
    exact .doctype isName given (asides_of_readAsides (Progress.read_eq_ok hasides))
  · cases h
    exact .none

/-- A document type declaration is what may stand ahead of the root element and is no aside. -/
theorem Typed.ahead {typed : List Content} (h : Typed typed) : ∀ content ∈ typed, Ahead content := by
  cases h with
  | none => exact fun _ listed => absurd listed List.not_mem_nil
  | doctype isName given behind =>
    exact List.forall_mem_cons.mpr ⟨.doctype isName _ _, fun content mem => .aside (behind content mem)⟩

theorem ahead_of_readTypeDeclaration {p q : Progress} {typed : List Content}
    (h : readTypeDeclaration p = .ok (typed, q)) : ∀ content ∈ typed, Ahead content :=
  (typed_of_readTypeDeclaration h).ahead

theorem isElement_of_aside (aside : Aside content) : content.isElement = false := by
  cases aside.reread <;> rfl

theorem isElement_of_ahead (ahead : Ahead content) : content.isElement = false := by
  cases ahead with
  | aside aside => exact isElement_of_aside aside
  | doctype => rfl

theorem Progress.warnings_of_read {α : Type} {reader : Cursor → Except Fault (α × Cursor)} {a : α} {p q : Progress}
    (h : p.read reader = .ok (a, q)) : q.warnings = p.warnings := by
  rw [read] at h
  split at h
  · cases h
    rfl
  · cases h

/-- The steps in which a document was read. -/
theorem steps_of_readDocument {m : Markup} (h : readDocument options c = .ok m) :
    ∃ c₁ before c₂ typed p tag children q after e,
      c.readOptionalDeclaration = .ok (m.declaration, c₁) ∧ c₁.readAsides = .ok (before, c₂) ∧
      readTypeDeclaration ⟨c₂, []⟩ = .ok (typed, p) ∧
      readElement options 1 .initial p (fun scope p => readContent options 1 scope false p) =
        .ok ((tag, children), q) ∧
      q.cursor.readAsides = .ok (after, e) ∧
      m.nodes = leaves (before ++ typed) ++ .cons (.element tag) children (leaves after) := by
  obtain ⟨⟨declaration, ⟨c₁, warnings₁⟩⟩, hdeclaration, h⟩ := bind_eq_ok.1 h
  obtain ⟨⟨before, ⟨c₂, warnings₂⟩⟩, hbefore, h⟩ := bind_eq_ok.1 h
  obtain ⟨⟨typed, p⟩, htyped, h⟩ := bind_eq_ok.1 h
  dsimp only at h
  split at h
  · cases h
  · obtain ⟨⟨⟨tag, children⟩, q⟩, hread, h⟩ := bind_eq_ok.1 h
    obtain ⟨⟨after, r⟩, hafter, h⟩ := bind_eq_ok.1 h
    dsimp only at h
    split at h
    · cases h
    · cases h
      obtain rfl : warnings₁ = [] := Progress.warnings_of_read hdeclaration
      obtain rfl : warnings₂ = [] := Progress.warnings_of_read hbefore
      exact ⟨c₁, before, c₂, typed, p, tag, children, q, after, r.cursor, Progress.read_eq_ok hdeclaration,
        Progress.read_eq_ok hbefore, htyped, hread, Progress.read_eq_ok hafter, rfl⟩

/-- What a document was read from: what stands ahead of the root element, its tag, what stands between its tags,
and what stands behind it. -/
theorem shape_of_readDocument {m : Markup} (h : readDocument options c = .ok m) :
    ∃ ahead after tag children,
      m.nodes = leaves ahead ++
        .cons (.element ((Scope.initial.enter tag.bindings).resolveTag tag)) children (leaves after) ∧
      (∀ content ∈ ahead, Ahead content) ∧
      (∀ content ∈ after, Aside content) ∧ 1 ≤ options.maxDepth ∧ tag.Written ∧
      (children = .nil ∨
        ∃ p q, readContent options 1 (Scope.initial.enter tag.bindings) false p = .ok (children, q)) := by
  obtain ⟨c₁, before, c₂, typed, p, tag, children, q, after, e, -, hbefore, htyped, hread, hafter, shape⟩ :=
    steps_of_readDocument h
  obtain ⟨low, written, hwritten, rfl, inner⟩ := written_readElement hread
  have ahead := List.forall_mem_append.mpr
    ⟨fun content mem => Ahead.aside (asides_of_readAsides hbefore content mem), ahead_of_readTypeDeclaration htyped⟩
  exact ⟨before ++ typed, after, written, children, shape, ahead, asides_of_readAsides hafter, low, hwritten, inner⟩

theorem find?_leaves {contents : List Content} (plain : ∀ content ∈ contents, content.isElement = false) :
    (leaves contents ++ nodes).find? Content.isElement = nodes.find? Content.isElement := by
  induction contents with
  | nil => rfl
  | cons content contents ih =>
    rw [List.forall_mem_cons] at plain
    have first : leaves (content :: contents) ++ nodes = .cons content .nil (leaves contents ++ nodes) := rfl
    rw [first, Forest.find?, if_neg (by simp [plain.1])]
    exact ih plain.2

/-- Without a document type there are only asides ahead of the root element. -/
theorem parts_of_readDocument {m : Markup} (h : readDocument options c = .ok m)
    (untyped : ∀ name systemId publicId, Content.doctype name systemId publicId ∉ m.nodes.roots) :
    ∃ before after tag children,
      m.nodes = leaves before ++
        .cons (.element ((Scope.initial.enter tag.bindings).resolveTag tag)) children (leaves after) ∧
      (∀ content ∈ before, Aside content) ∧ (∀ content ∈ after, Aside content) ∧
      1 ≤ options.maxDepth ∧ tag.Written ∧
      (children = .nil ∨
        ∃ p q, readContent options 1 (Scope.initial.enter tag.bindings) false p = .ok (children, q)) := by
  obtain ⟨before, after, tag, children, shape, ahead, behind⟩ := shape_of_readDocument h
  refine ⟨before, after, tag, children, shape, fun content mem => (ahead content mem).isAside ?_, behind⟩
  rintro name systemId publicId rfl
  exact untyped name systemId publicId (shape ▸ mem_roots_leaves_append mem)

theorem topLevel_of_readDocument {m : Markup} (h : readDocument options c = .ok m)
    (untyped : ∀ name systemId publicId, Content.doctype name systemId publicId ∉ m.nodes.roots) :
    TopLevel options m.nodes := by
  obtain ⟨before, after, tag, children, shape, ahead, behind, low, written, inner⟩ :=
    parts_of_readDocument h untyped
  rw [shape]
  refine .intro behind ahead low written ?_
  rcases inner with rfl | ⟨p, q, hinner⟩
  · exact .nil
  · exact readable_readContentWithin nofun hinner

/-! ## What is read back -/

section

variable {o : WriteOptions} {level : Nat} {after : List Char}

/-- Before `rest` no blanks and nothing that may stand beside the root element are passed over. -/
structure EndsAsides (rest : List Char) : Prop where
  solid : ∀ ch ∈ rest.head?, isBlank ch = false
  unseen : ∀ c : Cursor, c.rest = rest → c.seesAside = false

theorem endsAsides_nil : EndsAsides [] where
  solid := nofun
  unseen := by
    rintro ⟨_, position⟩ rfl
    rfl

theorem unseen_of_beginning (here : c.beginning = .startTag) : c.seesAside = false := by
  rw [Cursor.beginning] at here
  cases seen : c.seesAside with
  | false => rfl
  | true =>
    rw [seen] at here
    split at here
    · cases here
    · split at here
      · cases here
      · split at here <;> cases here

theorem endsAsides_startTag {ch : Char} {more : List Char} (starts : isNameStart ch = true) :
    EndsAsides ('<' :: ch :: more) where
  solid := by
    rintro _ ⟨⟩
    decide
  unseen _ hc := unseen_of_beginning (Cursor.beginning_startTag hc starts)

theorem Cursor.takes_readAsides_none {rest : List Char} (ends : EndsAsides rest) :
    Takes readAsides rest [] rest := by
  intro c hc
  have skipped : c.skipBlanks.rest = rest := by
    rw [rest_skipBlanks_of_not_blank (hc ▸ ends.solid), hc]
  have none : Takes (readWhile seesAside collectAside advances_collectAside []) rest [] rest := takes_done ends.unseen
  obtain ⟨d, taken, hd⟩ := none c.skipBlanks skipped
  exact ⟨d, bind_eq_ok.2 ⟨_, taken, rfl⟩, hd⟩

theorem seesAside_writeLeaf {rest : List Char} (h : Aside content) (hc : c.rest = writeLeaf content rest) :
    c.seesAside = true := by
  have comment (more : List Char) (begins : c.rest = "<!--".toList ++ more) : c.seesAside = true := by
    rw [Cursor.seesAside, Cursor.sees_iff.mpr (begins ▸ List.prefix_append _ _), Bool.true_or]
  have instruction (more : List Char) (begins : c.rest = "<?".toList ++ more) : c.seesAside = true := by
    rw [Cursor.seesAside, Bool.or_eq_true]
    exact .inr (Cursor.sees_iff.mpr (begins ▸ List.prefix_append _ _))
  obtain ⟨reread, solid⟩ := h
  cases reread with
  | comment => exact comment _ hc
  | cdata => cases solid
  | bare => exact instruction _ hc
  | instruction => exact instruction _ hc

theorem solid_writeLeaf {rest : List Char} (h : Aside content) :
    ∀ ch ∈ (writeLeaf content rest).head?, isBlank ch = false := by
  obtain ⟨reread, solid⟩ := h
  cases reread <;> (rintro _ ⟨⟩; decide)

theorem write_leaves {contents : List Content} (h : Aside content) :
    o.writeForest .lines level (leaves (content :: contents) ++ nodes) after =
      writeLeaf content ('\n' :: o.writeForest .lines level (leaves contents ++ nodes) after) := by
  refine (write_leaf h.reread).trans ?_
  rw [before_flat lines_flat]
  rfl

theorem solid_leaves {contents : List Content} (h : ∀ content ∈ contents, Aside content)
    (ends : EndsAsides (o.writeForest .lines level nodes after)) :
    ∀ ch ∈ (o.writeForest .lines level (leaves contents ++ nodes) after).head?, isBlank ch = false := by
  cases contents with
  | nil => exact ends.solid
  | cons content contents =>
    have first := h content List.mem_cons_self
    rw [write_leaves first]
    exact solid_writeLeaf first

theorem rest_skipBlanks_line {rest : List Char} (hc : c.rest = '\n' :: rest)
    (solid : ∀ ch ∈ rest.head?, isBlank ch = false) : c.skipBlanks.rest = rest := by
  rw [Cursor.rest_skipBlanks, hc, List.dropWhile_cons_of_pos (by decide)]
  cases rest with
  | nil => rfl
  | cons ch rest => exact List.dropWhile_cons_of_neg (by simp [solid ch rfl])

theorem takes_asides {contents : List Content} (h : ∀ content ∈ contents, Aside content)
    (ends : EndsAsides (o.writeForest .lines level nodes after)) (taken : List Content) :
    Takes (Cursor.readWhile Cursor.seesAside Cursor.collectAside Cursor.advances_collectAside taken)
      (o.writeForest .lines level (leaves contents ++ nodes) after) (contents.reverse ++ taken)
      (o.writeForest .lines level nodes after) := by
  induction contents generalizing taken with
  | nil => exact Cursor.takes_done ends.unseen
  | cons content contents ih =>
    rw [List.forall_mem_cons] at h
    rw [write_leaves h.1, List.reverse_cons, List.append_assoc]
    refine Cursor.takes_more (fun c hc => seesAside_writeLeaf h.1 hc) ?_ (ih h.2 (content :: taken))
    refine (Cursor.takes_readAside h.1.reread h.1.solid).bind (.finish fun c hc => ?_)
    exact rest_skipBlanks_line hc (solid_leaves h.2 ends)

theorem takes_readAsides {contents : List Content} (h : ∀ content ∈ contents, Aside content)
    (ends : EndsAsides (o.writeForest .lines level nodes after)) :
    Takes Cursor.readAsides ('\n' :: o.writeForest .lines level (leaves contents ++ nodes) after) contents
      (o.writeForest .lines level nodes after) := by
  intro c hc
  have skipped := rest_skipBlanks_line hc (solid_leaves h ends)
  obtain ⟨d, taken, hd⟩ := takes_asides h ends [] c.skipBlanks skipped
  rw [List.append_nil] at taken
  refine ⟨d, bind_eq_ok.2 ⟨_, taken, ?_⟩, hd⟩
  dsimp only
  rw [List.reverse_reverse]
  rfl

end

/-! ## The whole document -/

section

variable {o : WriteOptions}

/-- No document type comes next. -/
theorem takes_readTypeDeclaration {ch : Char} {rest : List Char} (starts : isNameStart ch = true) :
    Progress.Takes readTypeDeclaration ('<' :: ch :: rest) [] ('<' :: ch :: rest) := by
  intro p hp
  have unseen : ¬ p.cursor.sees "<!DOCTYPE".toList = true := by
    rw [Cursor.sees_iff, hp]
    intro found
    have second : '!' = ch := (List.cons_prefix_cons.mp (List.cons_prefix_cons.mp found).2).1
    rw [← second] at starts
    exact absurd starts (by decide)
  refine ⟨p, ?_, hp⟩
  rw [readTypeDeclaration, if_neg unseen]
  rfl

/-- A document is read when it can be read in these steps. -/
theorem readDocument_of_steps {declaration : Declaration} {c₁ c₂ e : Cursor} {before typed after : List Content}
    {tag : Element} {children : Forest Content} {p q : Progress}
    (declared : c.readOptionalDeclaration = .ok (declaration, c₁)) (first : c₁.readAsides = .ok (before, c₂))
    (second : readTypeDeclaration ⟨c₂, []⟩ = .ok (typed, p)) (opened : p.cursor.sees ['<'] = true)
    (element : readElement options 1 .initial p (fun scope p => readContent options 1 scope false p) =
      .ok ((tag, children), q))
    (last : q.cursor.readAsides = .ok (after, e)) (ended : e.rest = []) :
    ∃ m, readDocument options c = .ok m ∧ m.declaration = declaration ∧
      m.nodes = leaves (before ++ typed) ++ .cons (.element tag) children (leaves after) := by
  have closed : ¬ (!e.atEnd) = true := by
    rw [Cursor.atEnd, ended]
    exact Bool.false_ne_true
  have start : (Progress.mk c []).read Cursor.readOptionalDeclaration = .ok (declaration, ⟨c₁, []⟩) := by
    rw [Progress.read, declared]
  have asides : (Progress.mk c₁ []).read Cursor.readAsides = .ok (before, ⟨c₂, []⟩) := by
    rw [Progress.read, first]
  have others : q.read Cursor.readAsides = .ok (after, ⟨e, q.warnings⟩) := by
    rw [Progress.read, last]
  refine ⟨⟨declaration, leaves (before ++ typed) ++ .cons (.element tag) children (leaves after), q.warnings⟩, ?_,
    rfl, rfl⟩
  refine bind_eq_ok.2 ⟨_, start, bind_eq_ok.2 ⟨_, asides, bind_eq_ok.2 ⟨_, second, ?_⟩⟩⟩
  refine (if_neg (by rw [opened]; exact Bool.false_ne_true)).trans ?_
  refine bind_eq_ok.2 ⟨_, element, bind_eq_ok.2 ⟨_, others, ?_⟩⟩
  exact (if_neg closed).trans rfl

section

variable {before after : List Content} {tag : Element} {children read : Forest Content}

/-- The root element of a document, with what stands behind it. -/
def rootForest (tag : Element) (children : Forest Content) (after : List Content) : Forest Content :=
  .cons (.element ((Scope.initial.enter tag.bindings).resolveTag tag)) children (leaves after)

theorem write_rootForest : o.writeForest .lines 0 (rootForest tag children after) [] =
    o.writeElement 0 ((Scope.initial.enter tag.bindings).resolveTag tag) children
      ('\n' :: o.writeForest .lines 0 (leaves after ++ .nil) []) := by
  rw [rootForest, write_element, before_flat lines_flat, Forest.append_nil]
  rfl

theorem begins_rootForest (o : WriteOptions) (written : tag.Written) (children : Forest Content)
    (after : List Content) : ∃ ch more,
      o.writeForest .lines 0 (rootForest tag children after) [] = '<' :: ch :: more ∧ isNameStart ch = true := by
  rw [write_rootForest]
  exact begins_writeElement o 0 .initial children _ written

/-- The root element is read back, up to what is read from between its tags, and what stands behind it. -/
theorem reads_rootForest (behind : ∀ content ∈ after, Aside content) (low : 1 ≤ options.maxDepth)
    (written : tag.Written) (bare : children = .nil → read = .nil)
    (inner : ∀ after, children ≠ .nil → Progress.Takes
      (readContent options 1 (Scope.initial.enter tag.bindings) false)
      (o.writeInside 0 children ('<' :: '/' :: after)) read ('<' :: '/' :: after))
    {p : Progress} (hp : p.cursor.rest = o.writeForest .lines 0 (rootForest tag children after) []) :
    p.cursor.sees ['<'] = true ∧ ∃ q e,
      readElement options 1 .initial p (fun scope p => readContent options 1 scope false p) =
        .ok (((Scope.initial.enter tag.bindings).resolveTag tag, read), q) ∧
      q.cursor.readAsides = .ok (after, e) ∧ e.rest = [] := by
  obtain ⟨ch, more, begins, -⟩ := begins_rootForest o written children after
  refine ⟨Cursor.sees_here (hp.trans begins), ?_⟩
  let reader (scope : Scope) (p : Progress) := readContent options 1 scope false p
  obtain ⟨q, element, hq⟩ := takes_writeElement reader low written bare inner p (hp.trans write_rootForest)
  have closing : EndsAsides (o.writeForest .lines 0 .nil []) := endsAsides_nil
  obtain ⟨e, last, he⟩ := takes_readAsides behind closing q.cursor hq
  exact ⟨q, e, element, last, he⟩

/-- A document is read back, up to what is read from between the tags of its root element. -/
theorem readDocument_writeDocument_upTo {declaration : Declaration} (ahead : ∀ content ∈ before, Aside content)
    (behind : ∀ content ∈ after, Aside content) (low : 1 ≤ options.maxDepth) (written : tag.Written)
    (bare : children = .nil → read = .nil)
    (inner : ∀ after, children ≠ .nil → Progress.Takes
      (readContent options 1 (Scope.initial.enter tag.bindings) false)
      (o.writeInside 0 children ('<' :: '/' :: after)) read ('<' :: '/' :: after))
    (declares : Declares o declaration)
    (hc : c.rest = (o.writeDocument declaration (leaves before ++
      .cons (.element ((Scope.initial.enter tag.bindings).resolveTag tag)) children (leaves after))).toList) :
    ∃ m, readDocument options c = .ok m ∧ m.nodes = leaves before ++
      .cons (.element ((Scope.initial.enter tag.bindings).resolveTag tag)) read (leaves after) := by
  rw [WriteOptions.writeDocument, String.toList_ofList] at hc
  obtain ⟨declared, takes⟩ := declares
  obtain ⟨c₁, first₀, h₁⟩ := takes _ c hc
  obtain ⟨ch, more, begins, starts⟩ := begins_rootForest o written children after
  have ends : EndsAsides (o.writeForest .lines 0 (rootForest tag children after) []) :=
    begins ▸ endsAsides_startTag starts
  obtain ⟨c₂, first, h₂⟩ := takes_readAsides ahead ends c₁ h₁
  obtain ⟨p, typed, hp⟩ := takes_readTypeDeclaration starts ⟨c₂, []⟩ (h₂.trans begins)
  obtain ⟨opened, q, e, element, last, he⟩ :=
    reads_rootForest behind low written bare inner (hp.trans begins.symm)
  obtain ⟨m, read, -, nodes⟩ := readDocument_of_steps first₀ first typed opened element last he
  exact ⟨m, read, by rw [nodes, List.append_nil]⟩

end

/-- The nodes of a document that declares nothing are read back. -/
theorem readDocument_writeDocument (keeps : options.noBlanks = false) (top : TopLevel options nodes)
    (plain : o.indent = false) (silent : o.encoding = none)
    (hc : c.rest = (o.writeDocument .absent nodes).toList) :
    ∃ m, readDocument options c = .ok m ∧ m.nodes = nodes := by
  cases top with
  | intro behind ahead low written inner =>
    refine readDocument_writeDocument_upTo ahead behind low written id (fun after _ => ?_)
      (declares_absent silent) hc
    rw [writeInside_plain plain]
    exact takes_readContent keeps plain inner false 1 after

/-- What is written does not begin with a byte order mark. -/
theorem ofString_writeDocument (options : ReadOptions) (declaration : Declaration) (nodes : Forest Content) :
    ∃ c : Cursor, c.rest = (o.writeDocument declaration nodes).toList ∧
      Markup.ofString options (o.writeDocument declaration nodes) = readDocument options c := by
  have begins : ∃ more, (o.writeDocument declaration nodes).toList = '<' :: more := by
    rw [WriteOptions.writeDocument, String.toList_ofList, WriteOptions.writeDeclaration]
    simp only [toString, String.toList_append]
    exact ⟨_, rfl⟩
  obtain ⟨more, begins⟩ := begins
  refine ⟨⟨'<' :: more, .start⟩, begins.symm, ?_⟩
  rw [Markup.ofString, begins]
  rfl

end

namespace Document

/-- A document without an XML declaration and without a document type, read from a text with all its
blanks, is written as a text from which the same nodes are read. -/
theorem ofString_write {o : WriteOptions} {s : String} {d : Document}
    (keeps : options.noBlanks = false) (plain : o.indent = false) (silent : o.encoding = none)
    (read : ofString options s = .ok d) (undeclared : d.declaration = .absent)
    (untyped : ∀ name systemId publicId,
      Content.doctype name systemId publicId ∉ (d.contents root).roots) :
    ∃ again, ofString options (d.write o) = .ok again ∧ again.contents root = d.contents root := by
  obtain ⟨m, parsed, rfl⟩ := ofString_ok.mp read
  obtain ⟨m', reparsed, nodes⟩ : ∃ m', Markup.ofString options (o.writeDocument .absent m.nodes) =
      .ok m' ∧ m'.nodes = m.nodes := by
    obtain ⟨c, hc, again⟩ := ofString_writeDocument (o := o) options .absent m.nodes
    rw [contents_ofMarkup] at untyped
    rw [again]
    exact readDocument_writeDocument keeps (topLevel_of_readDocument parsed untyped) plain
      silent hc
  refine ⟨ofMarkup m', ofString_ok.mpr ⟨m', ?_, rfl⟩, ?_⟩
  · rw [write, undeclared, contents_ofMarkup]
    exact reparsed
  · rw [contents_ofMarkup, contents_ofMarkup, nodes]

/-- A qualified tag with a declaration and an attribute, a text, a comment and an empty element. -/
theorem ofString_write_sample : ∃ d again,
    ofString .default "<p:a xmlns:p='u' b='1&#32;&lt;'>x&amp;<!--c--><d/></p:a>" = .ok d ∧
      d.contents root ≠ .nil ∧
      ofString .default (d.write .default) = .ok again ∧ again.contents root = d.contents root := by
  let tag : Element := ⟨⟨some "p", "a"⟩, some "u", [⟨some "p", "u"⟩], [⟨⟨none, "b"⟩, "1 <", none⟩]⟩
  let inner : Forest Content := leaves [.text "x&", .comment "c", .element (.named ⟨none, "d"⟩)]
  let m : Markup := ⟨.absent, .cons (.element tag) inner .nil, []⟩
  have parsed : Markup.ofString .default
      "<p:a xmlns:p='u' b='1&#32;&lt;'>x&amp;<!--c--><d/></p:a>" = .ok m := by
    decide +kernel
  have read := ofString_ok.mpr ⟨m, parsed, rfl⟩
  have untyped : ∀ name systemId publicId,
      Content.doctype name systemId publicId ∉ ((ofMarkup m).contents root).roots := by
    rw [contents_ofMarkup]
    simp [m, Forest.roots]
  have keeps : ReadOptions.default.noBlanks = false := rfl
  have plain : WriteOptions.default.indent = false := rfl
  have silent : WriteOptions.default.encoding = none := rfl
  have undeclared : (ofMarkup m).declaration = .absent := (grown_ofMarkup m).declaration
  obtain ⟨again, reread, same⟩ := ofString_write keeps plain silent read undeclared untyped
  refine ⟨ofMarkup m, again, read, ?_, reread, same⟩
  rw [contents_ofMarkup]
  exact fun none => List.cons_ne_nil _ _ (congrArg Forest.roots none)

end Document

end XmlStore
