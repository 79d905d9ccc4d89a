/-
Indented documents are read back when blanks are left out, up to the texts
that indentation leaves out itself: the writer lays content out as a block
where its texts are white space of any script, the reader leaves out blanks
only. So what is written is read back unless a text of other white space
stands beside markup and beside nothing else.
-/
import XmlStore.Proofs.Reparse

namespace XmlStore

open Cursor (Valid Reread)

variable {options : ReadOptions} {o : WriteOptions} {depth level : Nat} {scope : Scope}
variable {p q : Progress} {started afterText : Bool} {f children : Forest Content}
variable {gap inside rest after : List Char}

/-! ## Where blanks have been left out -/

/-- Whether blank texts stand alone in their elements. The flag says whether a node stands before. -/
def Forest.Sieved (started : Bool) : Forest Content → Prop
  | .nil => True
  | .cons content children later =>
    (∀ s, content = .text s → s.toList.all isBlank = true → started = false ∧ later = .nil) ∧
      children.Sieved false ∧ later.Sieved true

theorem Forest.Sieved.weaken (h : f.Sieved true) : f.Sieved started := by
  cases f with
  | nil => trivial
  | cons content children later =>
    exact ⟨fun s text blank => absurd (h.1 s text blank).1 nofun, h.2⟩

theorem Forest.Sieved.element {tag : Element} {later : Forest Content} (inner : children.Sieved false)
    (outer : later.Sieved true) : (Forest.cons (.element tag) children later).Sieved started :=
  ⟨fun _ text => Content.noConfusion text, inner, outer⟩

/-- Before an end tag there is nothing. -/
theorem eq_nil_before_endTag {size : Nat} (closes : p.cursor.sees ['<', '/'] = true)
    (h : readContentWithin options size depth scope started p = .ok (f, q)) : f = .nil := by
  cases size with
  | zero => cases h
  | succ size =>
    obtain ⟨more, e⟩ := Cursor.sees_iff.mp closes
    rw [readContentWithin, readContentBy, Cursor.beginning_endTag e.symm] at h
    cases h
    rfl

theorem sieved_readContentWithin (sieves : options.noBlanks = true) {size : Nat}
    (h : readContentWithin options size depth scope started p = .ok (f, q)) : f.Sieved started := by
  induction size generalizing depth scope started p f q with
  | zero => cases h
  | succ size ih =>
    rw [readContentWithin, readContentBy] at h
    split at h
    · cases h
    · cases h
      trivial
    · obtain ⟨⟨content, q₁⟩, hread, h⟩ := bind_eq_ok.1 h
      obtain ⟨⟨rest, q₂⟩, hrest, h⟩ := bind_eq_ok.1 h
      cases h
      refine ⟨?_, trivial, ih hrest⟩
      rintro s rfl
      cases Cursor.reread_of_readCdata (Progress.read_eq_ok hread)
    · obtain ⟨⟨content, q₁⟩, hread, h⟩ := bind_eq_ok.1 h
      obtain ⟨⟨rest, q₂⟩, hrest, h⟩ := bind_eq_ok.1 h
      cases h
      refine ⟨?_, trivial, ih hrest⟩
      rintro s rfl
      cases reread_of_readAside (Progress.read_eq_ok hread)
    · obtain ⟨⟨⟨tag, children⟩, q₁⟩, hread, h⟩ := bind_eq_ok.1 h
      obtain ⟨⟨rest, q₂⟩, hrest, h⟩ := bind_eq_ok.1 h
      cases h
      obtain ⟨-, written, -, -, inner⟩ := written_readElement hread
      refine ⟨fun s text => (by cases text), ?_, ih hrest⟩
      rcases inner with rfl | ⟨p', q', hinner⟩
      · trivial
      · exact ih hinner
    · obtain ⟨⟨s, q₁⟩, hread, h⟩ := bind_eq_ok.1 h
      dsimp only at h
      split at h
      · exact ih h
      · rename_i kept
        obtain ⟨⟨rest, q₂⟩, hrest, h⟩ := bind_eq_ok.1 h
        cases h
        refine ⟨?_, trivial, ih hrest⟩
        rintro _ ⟨⟩ blank
        simp only [ReadOptions.drops, sieves, blank, Bool.true_and, Bool.or_eq_true, Bool.not_eq_true',
          not_or, Bool.not_eq_true, Bool.not_eq_false] at kept
        exact ⟨kept.1, eq_nil_before_endTag kept.2 hrest⟩

theorem sieved_leaves {contents : List Content} (solid : ∀ content ∈ contents, Aside content)
    (later : f.Sieved true) : (leaves contents ++ f).Sieved true := by
  induction contents with
  | nil => exact later
  | cons content contents ih =>
    rw [List.forall_mem_cons] at solid
    refine ⟨?_, trivial, ih solid.2⟩
    rintro s rfl
    cases solid.1.solid

/-! ## What stands between nodes in a block -/

/-- Spaces, tabs and line ends. -/
def Gap (chars : List Char) : Prop := ∀ ch ∈ chars, ch = ' ' ∨ ch = '\t' ∨ ch = '\n'

theorem Gap.append {more : List Char} (first : Gap gap) (second : Gap more) : Gap (gap ++ more) := by
  intro ch hch
  rcases List.mem_append.mp hch with left | right
  · exact first ch left
  · exact second ch right

theorem gap_pad (unit : Gap o.indentUnit.toList) (level : Nat) : Gap (o.pad level) := by
  intro ch hch
  obtain ⟨chars, hchars, mem⟩ := List.mem_flatten.mp hch
  rw [List.eq_of_mem_replicate hchars] at mem
  exact unit ch mem

theorem gap_before {layout : Layout} (unit : Gap o.indentUnit.toList) (level : Nat) (content : Content) :
    Gap (o.before layout level content) := by
  unfold WriteOptions.before
  split
  all_goals first | (split; exact gap_pad unit level; exact nofun) | exact nofun

namespace Gap

variable (h : Gap gap)

include h

theorem blank : gap.all isBlank = true := by
  refine List.all_eq_true.mpr fun ch hch => ?_
  rcases h ch hch with rfl | rfl | rfl <;> rfl

theorem valid : Valid gap := by
  intro ch hch
  rcases h ch hch with rfl | rfl | rfl <;> decide

theorem escape : gap.flatMap escapeTextChar = gap := by
  induction gap with
  | nil => rfl
  | cons ch gap ih =>
    have first : escapeTextChar ch = [ch] := by
      rcases h ch List.mem_cons_self with rfl | rfl | rfl <;> decide
    rw [List.flatMap_cons, first, ih fun ch hch => h ch (List.mem_cons_of_mem _ hch)]
    rfl

theorem ne_bracket {ch : Char} {more : List Char} (e : gap = ch :: more) : ch ≠ '<' := by
  rintro rfl
  have := h '<' (e ▸ List.mem_cons_self)
  simp at this

/-- A gap is left out, unless it is all that stands in an element. -/
theorem takes (sieves : options.noBlanks = true)
    (beside : started = true ∨ ∀ more, inside ≠ '/' :: more)
    (others : Progress.Takes (readContent options depth scope started) ('<' :: inside) f after) :
    Progress.Takes (readContent options depth scope started) (gap ++ '<' :: inside) f after := by
  cases e : gap with
  | nil => exact others
  | cons ch more =>
    intro p hp
    have here : p.cursor.beginning = .characters := Cursor.beginning_characters hp (h.ne_bracket e)
    have spelled : escapeText (String.ofList (ch :: more)) = ch :: more := by
      rw [escapeText, String.toList_ofList, ← e, h.escape]
    have valid : Valid (String.ofList (ch :: more)).toList := by
      rw [String.toList_ofList, ← e]
      exact h.valid
    obtain ⟨q, taken, hq⟩ := (Cursor.takes_readText valid).read p (hp.trans (congrArg (· ++ '<' :: inside) spelled.symm))
    obtain ⟨q', later, hq'⟩ := others q hq
    refine ⟨q', ?_, hq'⟩
    have sibling : (started || !q.cursor.sees ['<', '/']) = true := by
      rcases beside with rfl | other
      · rfl
      · have markup : q.cursor.sees ['<', '/'] = false := by
          refine Cursor.sees_eq_false ?_
          rintro ⟨more, e⟩
          refine other more ?_
          rw [hq] at e
          exact (List.cons.inj e).2.symm
        rw [markup, Bool.not_false, Bool.or_true]
    have dropped : options.drops (String.ofList (ch :: more)) (started || !q.cursor.sees ['<', '/']) = true := by
      rw [ReadOptions.drops, sieves, sibling, String.toList_ofList, ← e, h.blank]
      rfl
    rw [readContent_eq, readContentBy, here]
    exact bind_eq_ok.2 ⟨_, taken, (if_pos dropped).trans later⟩

end Gap

/-! ## What remains -/

/-- What remains of a forest that is written in a layout: a block leaves texts out. -/
def WriteOptions.remains (o : WriteOptions) (layout : Layout) : Forest Content → Forest Content
  | .nil => .nil
  | .cons content children later =>
    if layout = .block && content.isText then o.remains layout later
    else .cons content (o.remains (o.childLayout children) children) (o.remains layout later)

theorem childLayout_cases (o : WriteOptions) (children : Forest Content) :
    o.childLayout children = .inline ∨
      o.childLayout children = .block ∧ isBlockContent children.roots = true := by
  unfold WriteOptions.childLayout
  split
  · rename_i block
    exact .inr ⟨rfl, (Bool.and_eq_true _ _ ▸ block).2⟩
  · exact .inl rfl

theorem remains_shown {layout : Layout} {content : Content} {later : Forest Content}
    (shown : ¬ (layout = .block && content.isText) = true) :
    o.remains layout (.cons content children later) =
      .cons content (o.remains (o.childLayout children) children) (o.remains layout later) := if_neg shown

/-- A text that is kept is not left out when it is read again. -/
theorem drops_eq_false {c : Cursor} {s : String} {later : Forest Content}
    (sieved : (Forest.cons (.text s) .nil later).Sieved started)
    (hc : c.rest = o.writeForest .inline level later ('<' :: '/' :: after)) :
    options.drops s (started || !c.sees ['<', '/']) = false := by
  rw [ReadOptions.drops]
  cases blank : s.toList.all isBlank with
  | false => simp
  | true =>
    obtain ⟨rfl, rfl⟩ := sieved.1 s rfl blank
    have closes : c.sees ['<', '/'] = true := Cursor.sees_iff.mpr (hc ▸ ⟨after, rfl⟩)
    simp [closes]

/-- What is read from between the tags of an element, if its children are read back in both layouts. -/
theorem takes_inside (unit : Gap o.indentUnit.toList)
    (both : Progress.Takes (readContent options depth scope false)
        (o.writeForest .inline (level + 1) children ('<' :: '/' :: after)) (o.remains .inline children)
        ('<' :: '/' :: after) ∧
      ∀ gap closing, Gap gap → Gap closing →
        (false = true ∨ ∃ content ∈ children.roots, content.isCharacters = false) →
        Progress.Takes (readContent options depth scope false)
          (gap ++ o.writeForest .block (level + 1) children (closing ++ '<' :: '/' :: after))
          (o.remains .block children) ('<' :: '/' :: after)) :
    Progress.Takes (readContent options depth scope false) (o.writeInside level children ('<' :: '/' :: after))
      (o.remains (o.childLayout children) children) ('<' :: '/' :: after) := by
  rw [WriteOptions.writeInside]
  rcases childLayout_cases o children with inline | ⟨block, content⟩
  · rw [inline, if_neg inline_flat]
    exact both.1
  · have markup : ∃ content ∈ children.roots, content.isCharacters = false := by
      rw [isBlockContent, Bool.and_eq_true, List.any_eq_true] at content
      simpa using content.2
    have line : Gap ['\n'] := fun ch hch => .inr (.inr (List.mem_singleton.mp hch))
    rw [block, if_pos rfl]
    exact both.2 ['\n'] (o.pad level) line (gap_pad unit level) (.inr markup)

/-- Sieved content is read back from what is written for it, on one line or as a block, as what remains. -/
theorem takes_remains (sieves : options.noBlanks = true) (unit : Gap o.indentUnit.toList)
    (readable : Readable options depth scope afterText f) (sieved : f.Sieved started) (level : Nat)
    (after : List Char) :
    Progress.Takes (readContent options depth scope started)
        (o.writeForest .inline level f ('<' :: '/' :: after)) (o.remains .inline f) ('<' :: '/' :: after) ∧
      ∀ gap closing, Gap gap → Gap closing →
        (started = true ∨ ∃ content ∈ f.roots, content.isCharacters = false) →
        Progress.Takes (readContent options depth scope started)
          (gap ++ o.writeForest .block level f (closing ++ '<' :: '/' :: after)) (o.remains .block f)
          ('<' :: '/' :: after) := by
  have line : Gap ['\n'] := fun ch hch => .inr (.inr (List.mem_singleton.mp hch))
  induction readable generalizing started level after with
  | nil =>
    refine ⟨takes_nil, fun gap closing hgap hclosing markup => ?_⟩
    have started : started = true := by simpa [Forest.roots] using markup
    rw [WriteOptions.writeForest, ← List.append_assoc]
    exact (hgap.append hclosing).takes sieves (.inl started) takes_nil
  | @text depth scope s rest filled valid others ih =>
    have later := sieved.2.2
    constructor
    · obtain ⟨more, behind⟩ := begins_behind_text (o := o) others level ('/' :: after)
      rw [write_text, behind]
      refine takes_text filled valid (fun c hc => ?_) (behind ▸ (ih later level after).1)
      exact drops_eq_false sieved (hc.trans behind.symm)
    · intro gap closing hgap hclosing markup
      rw [write_hidden]
      refine (ih later.weaken level after).2 gap closing hgap hclosing ?_
      simpa [Forest.roots, Content.isCharacters, Content.characters?] using markup
  | @leaf depth scope afterText content rest reread others ih =>
    have later := sieved.2.2
    have other : content.isText = false := by cases reread <;> rfl
    constructor
    · rw [write_leaf reread, before_flat inline_flat, remains_shown (shown other)]
      exact takes_leaf reread (ih later level after).1
    · intro gap closing hgap hclosing _
      have kept := (ih later level after).2 ['\n'] closing line hclosing (.inl rfl)
      obtain ⟨more, begins, beside⟩ := begins_writeLeaf reread
        ('\n' :: o.writeForest .block level rest (closing ++ '<' :: '/' :: after))
      rw [write_leaf reread, ← List.append_assoc, remains_shown (shown other), Layout.after]
      have : Progress.Takes (readContent options depth scope started) _ _ _ := takes_leaf reread kept
      rw [List.singleton_append, begins] at this ⊢
      exact (hgap.append (gap_before unit level content)).takes sieves (.inr beside) this
  | @element depth scope afterText tag children rest low written inner others ihi iho =>
    obtain ⟨-, within, later⟩ := sieved
    have bare (none : children = .nil) : o.remains (o.childLayout children) children = .nil := by
      subst none
      rfl
    have inner (after : List Char) (_ : children ≠ .nil) := takes_inside unit
      (ihi within (level + 1) after)
    constructor
    · rw [write_element, before_flat inline_flat, remains_shown (shown rfl)]
      exact takes_element low written bare inner (iho later level after).1
    · intro gap closing hgap hclosing _
      have kept := (iho later level after).2 ['\n'] closing line hclosing (.inl rfl)
      obtain ⟨ch, more, begins, starts⟩ := begins_writeElement o level scope children
        ('\n' :: o.writeForest .block level rest (closing ++ '<' :: '/' :: after)) written
      have beside : ∀ tail, ch :: more ≠ '/' :: tail := by
        rintro tail ⟨⟩
        exact absurd starts (by decide)
      have : Progress.Takes (readContent options depth scope started) _ _ _ :=
        takes_element low written bare inner kept
      rw [write_element, ← List.append_assoc, remains_shown (shown rfl), Layout.after]
      rw [List.singleton_append, begins] at this ⊢
      exact (hgap.append (gap_before unit level _)).takes sieves (.inr beside) this

/-! ## Documents -/

theorem remains_leaves {layout : Layout} {contents : List Content} (flat : layout ≠ .block) :
    o.remains layout (leaves contents ++ f) = leaves contents ++ o.remains layout f := by
  induction contents with
  | nil => rfl
  | cons content contents ih =>
    have first : o.remains layout (.cons content .nil (leaves contents ++ f)) = _ :=
      remains_shown (show ¬ (layout = .block && content.isText) = true by simp [flat])
    exact first.trans (congrArg (Forest.cons content .nil) ih)

/-- Whether an element is laid out as a block that leaves a text out. -/
def Forest.hidesText : Forest Content → Bool
  | .nil => false
  | .cons _ children later =>
    (isBlockContent children.roots && children.roots.any Content.isText) || children.hidesText ||
      later.hidesText

theorem size_remains_le (o : WriteOptions) (layout : Layout) (f : Forest Content) :
    (o.remains layout f).size ≤ f.size := by
  induction f generalizing layout with
  | nil => exact Nat.le_refl _
  | cons content children later ihc ihl =>
    have inner := ihc (o.childLayout children)
    have outer := ihl layout
    rw [WriteOptions.remains]
    split <;> simp only [Forest.size] <;> omega

/-- Everything remains if there is no text to leave out. -/
theorem remains_eq_iff (indents : o.indent = true) (layout : Layout) (f : Forest Content) :
    o.remains layout f = f ↔ (layout = .block → f.roots.any Content.isText = false) ∧ f.hidesText = false := by
  induction f generalizing layout with
  | nil => simp [WriteOptions.remains, Forest.roots, Forest.hidesText]
  | cons content children later ihc ihl =>
    by_cases hidden : (layout = .block && content.isText) = true
    · have less : o.remains layout (.cons content children later) ≠ .cons content children later := by
        intro same
        have size := congrArg Forest.size same
        have := size_remains_le o layout later
        rw [WriteOptions.remains, if_pos hidden, Forest.size] at size
        omega
      have text : content.isText = true := (Bool.and_eq_true _ _ ▸ hidden).2
      have block : layout = .block := of_decide_eq_true (Bool.and_eq_true _ _ ▸ hidden).1
      refine iff_of_false less fun clear => ?_
      have none := clear.1 block
      rw [Forest.roots, List.any_cons, text] at none
      cases none
    · have inner : o.childLayout children = .block ↔ isBlockContent children.roots = true := by
        simp [WriteOptions.childLayout, indents]
      rw [remains_shown hidden, Forest.cons.injEq, ihc, ihl, inner]
      simp only [Forest.roots, Forest.hidesText, List.any_cons]
      grind

/-- Nothing is left out without indentation. -/
theorem remains_plain {layout : Layout} (plain : o.indent = false) (flat : layout ≠ .block) (f : Forest Content) :
    o.remains layout f = f := by
  induction f generalizing layout with
  | nil => rfl
  | cons content children later ihc ihl =>
    have inner : o.childLayout children = .inline := by simp [WriteOptions.childLayout, plain]
    rw [remains_shown (by simp [flat]), inner, ihc inline_flat, ihl flat]

theorem remains_eq_self {layout : Layout} (flat : layout ≠ .block) (shown : f.hidesText = false) :
    o.remains layout f = f := by
  cases indents : o.indent with
  | true => exact (remains_eq_iff indents layout f).mpr ⟨fun block => absurd block flat, shown⟩
  | false => exact remains_plain indents flat f

theorem Forest.Sieved.of_leaves {contents : List Content} (h : (leaves contents ++ f).Sieved true) :
    f.Sieved true := by
  induction contents with
  | nil => exact h
  | cons content contents ih => exact ih h.2.2

theorem sieved_of_readDocument (sieves : options.noBlanks = true) {c : Cursor} {m : Markup}
    (h : readDocument options c = .ok m)
    (untyped : ∀ name systemId publicId, Content.doctype name systemId publicId ∉ m.nodes.roots) :
    m.nodes.Sieved true := by
  obtain ⟨before, after, tag, children, shape, ahead, behind, -, -, inner⟩ := parts_of_readDocument h untyped
  have sieved : children.Sieved false := by
    rcases inner with rfl | ⟨p, q, hinner⟩
    · trivial
    · exact sieved_readContentWithin sieves hinner
  have last : (leaves after).Sieved true := by
    have := sieved_leaves (f := .nil) behind trivial
    rwa [Forest.append_nil] at this
  rw [shape]
  exact sieved_leaves ahead (.element sieved last)

/-- The nodes of a document are read back as what remains of them. -/
theorem readDocument_writeDocument_remains {declaration : Declaration} {nodes : Forest Content} {c : Cursor} (sieves : options.noBlanks = true)
    (unit : Gap o.indentUnit.toList) (top : TopLevel options nodes) (sieved : nodes.Sieved true)
    (declares : Declares o declaration) (hc : c.rest = (o.writeDocument declaration nodes).toList) :
    ∃ m, readDocument options c = .ok m ∧ m.nodes = o.remains .lines nodes := by
  cases top with
  | @intro before after tag children behind ahead low written readable =>
    have bare (none : children = .nil) : o.remains (o.childLayout children) children = .nil := by
      subst none
      rfl
    have inner (after : List Char) (_ : children ≠ .nil) := takes_inside unit
      (takes_remains sieves unit readable sieved.of_leaves.2.1 1 after)
    have last : o.remains .lines (leaves after) = leaves after := by
      have : o.remains .lines (leaves after ++ .nil) = _ := remains_leaves lines_flat
      rwa [Forest.append_nil, WriteOptions.remains, Forest.append_nil] at this
    rw [remains_leaves lines_flat, remains_shown (shown rfl), last]
    exact readDocument_writeDocument_upTo ahead behind low written bare inner declares hc

/-- A blank text stands alone. -/
theorem Forest.Sieved.eq_text {s : String} (h : f.Sieved started) (mem : .text s ∈ f.roots)
    (blank : s.toList.all isBlank = true) : started = false ∧ f.roots = [.text s] := by
  induction f generalizing started with
  | nil => cases mem
  | cons content children later _ ih =>
    rcases List.mem_cons.mp mem with rfl | behind
    · obtain ⟨first, rfl⟩ := h.1 s rfl blank
      exact ⟨first, rfl⟩
    · exact absurd (ih h.2.2 behind).1 nofun

/-- Where texts of white space are blank, no text is hidden. -/
theorem hidesText_eq_false (h : f.Sieved started)
    (narrow : ∀ s, .text s ∈ f.preorder → s.toList.all isSpace = true → s.toList.all isBlank = true) :
    f.hidesText = false := by
  induction f generalizing started with
  | nil => rfl
  | cons content children later ihc ihl =>
    obtain ⟨-, inner, outer⟩ := h
    have below := ihc inner fun s mem => narrow s (by simp [Forest.preorder, mem])
    have behind := ihl outer fun s mem => narrow s (by simp [Forest.preorder, mem])
    have here : ¬ (isBlockContent children.roots && children.roots.any Content.isText) = true := by
      simp only [Bool.and_eq_true, isBlockContent, List.all_eq_true, List.any_eq_true]
      rintro ⟨⟨block, markup⟩, content, mem, text⟩
      obtain ⟨s, rfl⟩ : ∃ s, content = .text s := by
        cases content <;> first | exact ⟨_, rfl⟩ | cases text
      have inside : .text s ∈ children.preorder := children.roots_subset mem
      have blank := narrow s (by simp [Forest.preorder, inside]) (block _ mem)
      simp [(inner.eq_text mem blank).2, Content.isCharacters, Content.characters?] at markup
    rw [Forest.hidesText, Bool.eq_false_iff.mpr here, below, behind]
    rfl

namespace Document

variable {s : String} {d : Document}

/-- What is written with indentation is read back as what remains. -/
theorem ofString_write_remains (sieves : options.noBlanks = true)
    (unit : ∀ ch ∈ o.indentUnit.toList, ch = ' ' ∨ ch = '\t') (silent : o.encoding = none)
    (read : ofString options s = .ok d) (undeclared : d.declaration = .absent)
    (untyped : ∀ name systemId publicId,
      Content.doctype name systemId publicId ∉ (d.contents root).roots) :
    ∃ again, ofString options (d.write o) = .ok again ∧
      again.contents root = o.remains .lines (d.contents root) := by
  obtain ⟨m, parsed, rfl⟩ := ofString_ok.mp read
  rw [contents_ofMarkup] at untyped
  have gaps : Gap o.indentUnit.toList := fun ch hch => (unit ch hch).imp_right .inl
  obtain ⟨c, hc, again⟩ := ofString_writeDocument (o := o) options .absent m.nodes
  obtain ⟨m', reparsed, nodes⟩ := readDocument_writeDocument_remains sieves gaps
    (topLevel_of_readDocument parsed untyped) (sieved_of_readDocument sieves parsed untyped)
    (declares_absent silent) hc
  refine ⟨ofMarkup m', ofString_ok.mpr ⟨m', ?_, rfl⟩, ?_⟩
  · rw [write, undeclared, contents_ofMarkup]
    exact again.trans reparsed
  · rw [contents_ofMarkup, contents_ofMarkup, nodes]

/-- A document without an XML declaration and without a document type, read from a text with blanks left
out, is written with indentation as a text from which its nodes are read again, except for texts that the
layout hides. -/
theorem ofString_write_indented (sieves : options.noBlanks = true) (indents : o.indent = true)
    (unit : ∀ ch ∈ o.indentUnit.toList, ch = ' ' ∨ ch = '\t') (silent : o.encoding = none)
    (read : ofString options s = .ok d) (undeclared : d.declaration = .absent)
    (untyped : ∀ name systemId publicId,
      Content.doctype name systemId publicId ∉ (d.contents root).roots) :
    ∃ again, ofString options (d.write o) = .ok again ∧
      again.contents root = o.remains .lines (d.contents root) ∧
      (again.contents root = d.contents root ↔ (d.contents root).hidesText = false) := by
  obtain ⟨again, reread, remains⟩ := ofString_write_remains sieves unit silent read undeclared untyped
  refine ⟨again, reread, remains, ?_⟩
  rw [remains, remains_eq_iff indents]
  simp

/-- A blank text that stands alone, and a text beside an element. -/
theorem ofString_write_indented_sample : ∃ d again,
    ofString ⟨true, 256⟩ "<a> <b> </b><c>x<d/></c> </a>" = .ok d ∧
      ofString ⟨true, 256⟩ (d.write ⟨true, "\t", none⟩) = .ok again ∧
      again.contents root = d.contents root := by
  let plain (name : String) : Content := .element (.named ⟨none, name⟩)
  let inner : Forest Content := .cons (plain "b") (leaves [.text " "])
    (.cons (plain "c") (leaves [.text "x", plain "d"]) .nil)
  let m : Markup := ⟨.absent, .cons (plain "a") inner .nil, []⟩
  have parsed : Markup.ofString ⟨true, 256⟩ "<a> <b> </b><c>x<d/></c> </a>" = .ok m := by
    decide +kernel
  have read := ofString_ok.mpr ⟨m, parsed, rfl⟩
  have undeclared : (ofMarkup m).declaration = .absent := (grown_ofMarkup m).declaration
  have untyped : ∀ name systemId publicId,
      Content.doctype name systemId publicId ∉ ((ofMarkup m).contents root).roots := by
    rw [contents_ofMarkup]
    simp [m, plain, Forest.roots]
  obtain ⟨again, reread, -, same⟩ := ofString_write_indented (o := ⟨true, "\t", none⟩) rfl rfl
    (fun ch hch => .inr (List.mem_singleton.mp hch)) rfl read undeclared untyped
  refine ⟨ofMarkup m, again, read, reread, same.mpr ?_⟩
  rw [contents_ofMarkup]
  decide

/-- A no-break space between markup is read, but it is not written with indentation. -/
theorem ofString_write_indented_lossy : ∃ d again, ofString ⟨true, 256⟩ "<a>\u00a0<b/></a>" = .ok d ∧
    ofString ⟨true, 256⟩ (d.write ⟨true, "  ", none⟩) = .ok again ∧
      again.contents root ≠ d.contents root := by
  let plain (name : String) : Content := .element (.named ⟨none, name⟩)
  let m : Markup := ⟨.absent, .cons (plain "a") (leaves [.text "\u00a0", plain "b"]) .nil, []⟩
  let m' : Markup := ⟨⟨some "1.0", none, none⟩, .cons (plain "a") (leaves [plain "b"]) .nil, []⟩
  have parsed : Markup.ofString ⟨true, 256⟩ "<a>\u00a0<b/></a>" = .ok m := by
    decide +kernel
  have again : Markup.ofString ⟨true, 256⟩ (WriteOptions.writeDocument ⟨true, "  ", none⟩ .absent m.nodes) =
      .ok m' := by
    decide +kernel
  refine ⟨ofMarkup m, ofMarkup m', ofString_ok.mpr ⟨m, parsed, rfl⟩, ofString_ok.mpr ⟨m', ?_, rfl⟩, ?_⟩
  · rw [write, (grown_ofMarkup m).declaration, contents_ofMarkup]
    exact again
  · rw [contents_ofMarkup, contents_ofMarkup]
    decide

/-- Nothing is lost where every text of white space is blank. -/
theorem ofString_write_indented_of_narrow (sieves : options.noBlanks = true) (indents : o.indent = true)
    (unit : ∀ ch ∈ o.indentUnit.toList, ch = ' ' ∨ ch = '\t') (silent : o.encoding = none)
    (read : ofString options s = .ok d) (undeclared : d.declaration = .absent)
    (untyped : ∀ name systemId publicId,
      Content.doctype name systemId publicId ∉ (d.contents root).roots)
    (narrow : ∀ s, .text s ∈ (d.contents root).preorder →
      s.toList.all isSpace = true → s.toList.all isBlank = true) :
    ∃ again, ofString options (d.write o) = .ok again ∧ again.contents root = d.contents root := by
  obtain ⟨again, reread, remains⟩ := ofString_write_remains sieves unit silent read undeclared untyped
  refine ⟨again, reread, ?_⟩
  obtain ⟨m, parsed, rfl⟩ := ofString_ok.mp read
  rw [contents_ofMarkup] at untyped narrow
  rw [remains, remains_eq_iff indents, contents_ofMarkup]
  exact ⟨nofun, hidesText_eq_false (sieved_of_readDocument sieves parsed untyped) narrow⟩

end Document

end XmlStore
