/-
Contents are read back. Before what is written for readable content and an
end tag, the reader of content takes that content and stops before the end
tag; the proof follows how the content may be read.
-/
import XmlStore.Proofs.Contents

namespace XmlStore

open Cursor (IsName Valid Takes Passes Reread)

variable {α : Type} {a : α} {options : ReadOptions} {depth : Nat} {scope : Scope} {tag : Element}
variable {content : Content} {children f : Forest Content} {input rest inside after : List Char}

/-! ## Where something begins -/

namespace Cursor

variable {c : Cursor} {ch : Char} {s : String}

theorem beginning_endTag (hc : c.rest = '<' :: '/' :: rest) : c.beginning = .endTag := by
  obtain ⟨_, position⟩ := c
  subst hc
  rfl

theorem beginning_cdata (hc : c.rest = "<![CDATA[".toList ++ rest) : c.beginning = .cdata := by
  obtain ⟨_, position⟩ := c
  subst hc
  rfl

theorem beginning_comment (hc : c.rest = "<!--".toList ++ rest) : c.beginning = .aside := by
  obtain ⟨_, position⟩ := c
  subst hc
  rfl

theorem beginning_instruction (hc : c.rest = "<?".toList ++ rest) : c.beginning = .aside := by
  obtain ⟨_, position⟩ := c
  subst hc
  rfl

/-- Other markup goes on with one of three characters. -/
theorem beginning_bracket (hc : c.rest = '<' :: ch :: rest) (other : ch ∉ ['/', '!', '?']) :
    c.beginning = .startTag := by
  have unseen {second : Char} {more : List Char} (h : second ∈ ['/', '!', '?']) :
      c.sees ('<' :: second :: more) = false := by
    refine sees_eq_false fun found => ?_
    rw [hc, List.cons_prefix_cons, List.cons_prefix_cons] at found
    exact other (found.2.1 ▸ h)
  have end_tag : c.sees ['<', '/'] = false := unseen (by decide)
  have cdata : c.sees "<![CDATA[".toList = false := unseen (by decide)
  have comment : c.sees "<!--".toList = false := unseen (by decide)
  have instruction : c.sees "<?".toList = false := unseen (by decide)
  rw [beginning, seesAside, not_atEnd hc, end_tag, cdata, comment, instruction, sees_here hc]
  rfl

theorem not_mem_of_isNameChar (char : isNameChar ch = true) : ch ∉ ['/', '!', '?'] := by
  intro listed
  have none : ['/', '!', '?'].any isNameChar = false := by decide
  exact List.any_eq_false.mp none ch listed char

/-- A name does not begin with what comes second in other markup. -/
theorem beginning_startTag (hc : c.rest = '<' :: ch :: rest) (starts : isNameStart ch = true) :
    c.beginning = .startTag :=
  beginning_bracket hc (not_mem_of_isNameChar (by rw [isNameChar, starts, Bool.true_or]))

theorem beginning_characters (hc : c.rest = ch :: rest) (plain : ch ≠ '<') :
    c.beginning = .characters := by
  rw [beginning_eq_characters, not_atEnd hc, sees_other hc plain]
  rfl

theorem begins_escapeText (filled : s.toList ≠ []) :
    ∃ ch more, escapeText s = ch :: more ∧ ch ≠ '<' := by
  rw [escapeText]
  cases hs : s.toList with
  | nil => exact absurd hs filled
  | cons ch chars =>
    rw [List.flatMap_cons]
    rcases escapeTextChar_cases ch with known | ⟨plain, -, other, -⟩
    · obtain ⟨more, spelled⟩ := begins_of_references known
      rw [spelled]
      exact ⟨'&', _, List.cons_append, by decide⟩
    · rw [plain]
      exact ⟨ch, _, List.singleton_append, other⟩

/-- Comments and processing instructions begin otherwise than CDATA sections. -/
theorem beginning_leaf (h : Reread content) (hc : c.rest = writeLeaf content rest) :
    c.beginning = if content.isCharacters then .cdata else .aside := by
  cases h with
  | cdata => exact beginning_cdata hc
  | comment => exact beginning_comment hc
  | bare => exact beginning_instruction hc
  | instruction => exact beginning_instruction hc

theorem takes_readAside (h : Reread content) (aside : content.isCharacters = false) :
    Takes readAside (writeLeaf content rest) content rest := by
  intro c hc
  have instruction (target : String) (more : List Char)
      (hi : c.rest = "<?".toList ++ (target.toList ++ more)) : c.sees "<!--".toList = false := by
    refine sees_eq_false fun found => ?_
    rw [hi] at found
    have second : '!' = '?' := (List.cons_prefix_cons.mp (List.cons_prefix_cons.mp found).2).1
    cases second
  rw [readAside]
  cases h with
  | cdata => cases aside
  | comment raw clear =>
    rw [if_pos (sees_iff.mpr (hc ▸ List.prefix_append _ _))]
    exact takes_readComment raw clear c hc
  | bare name free =>
    rw [instruction _ _ hc]
    exact takes_readInstruction_bare name free c hc
  | instruction name free starts raw clear =>
    rw [instruction _ _ hc]
    exact takes_readInstruction name free starts raw clear c hc

theorem passes_readEndTag {name : String} (h : IsName name) :
    Passes (readEndTag name) ("</".toList ++ (name.toList ++ '>' :: rest)) rest := by
  intro c hc
  obtain ⟨d, opened, hd⟩ := passes_expectWord c hc
  have stops : ∀ ch ∈ ('>' :: rest).head?, isNameChar ch = false := by
    rintro _ ⟨⟩
    decide
  obtain ⟨e, named, he⟩ := takes_readName h stops d hd
  have skipped : e.skipBlanks.rest = '>' :: rest := by
    rw [rest_skipBlanks_of_ends (he ▸ .inl ⟨rest, rfl⟩), he]
  obtain ⟨g, closed, hg⟩ := passes_expect e.skipBlanks skipped
  refine ⟨g, bind_eq_ok.2 ⟨d, opened, bind_eq_ok.2 ⟨(name, e), named, ?_⟩⟩, hg⟩
  exact (if_pos rfl).trans closed

end Cursor

/-! ## Readers that warn -/

/-- Before `input`, the reader hands out `a` and stops before `rest`, with whatever warnings. -/
def Progress.Takes (reader : Progress → Except ReadError (α × Progress)) (input : List Char) (a : α)
    (rest : List Char) : Prop :=
  ∀ p : Progress, p.cursor.rest = input → ∃ q, reader p = .ok (a, q) ∧ q.cursor.rest = rest

namespace Cursor

theorem Takes.read {reader : Cursor → Except Fault (α × Cursor)} (h : Takes reader input a rest) :
    Progress.Takes (·.read reader) input a rest := by
  intro p hp
  obtain ⟨d, taken, hd⟩ := h p.cursor hp
  refine ⟨{ p with cursor := d }, ?_, hd⟩
  dsimp only
  rw [Progress.read, taken]

theorem Passes.move {reader : Cursor → Except Fault Cursor} (h : Passes reader input rest)
    {p : Progress} (hp : p.cursor.rest = input) :
    ∃ q, p.move reader = .ok q ∧ q.cursor.rest = rest := by
  obtain ⟨d, passed, hd⟩ := h p.cursor hp
  refine ⟨{ p with cursor := d }, ?_, hd⟩
  rw [Progress.move, passed]

end Cursor

section

variable {reader : Scope → Progress → Except ReadError (Forest Content × Progress)}

theorem takes_readElement_empty (low : depth ≤ options.maxDepth) (written : tag.Written) :
    Progress.Takes (fun p => readElement options depth scope p reader) (tag.write ++ ("/>".toList ++ rest))
      ((scope.enter tag.bindings).resolveTag tag, .nil) rest := by
  intro p hp
  have ends : Cursor.EndsTag ("/>".toList ++ rest) := .inr ⟨rest, rfl⟩
  obtain ⟨q, taken, hq⟩ := (Cursor.takes_readTag written ends).read p hp
  have closed : q.cursor.sees ['/', '>'] = true := Cursor.sees_iff.mpr (hq ▸ ⟨rest, rfl⟩)
  refine ⟨⟨q.cursor.skip 2, q.warnings ++
    ((scope.enter tag.bindings).resolveTag tag).warnings q.cursor.position⟩, ?_, ?_⟩
  · dsimp only
    rw [readElement, if_neg (Nat.not_lt.mpr low)]
    exact bind_eq_ok.2 ⟨(tag, q), taken, if_pos closed⟩
  · rw [Cursor.rest_skip, hq]
    rfl

theorem takes_readElement_filled (low : depth ≤ options.maxDepth) (written : tag.Written)
    (inner : Progress.Takes (reader (scope.enter tag.bindings)) inside children
      ("</".toList ++ (tag.name.text.toList ++ '>' :: rest))) :
    Progress.Takes (fun p => readElement options depth scope p reader) (tag.write ++ '>' :: inside)
      ((scope.enter tag.bindings).resolveTag tag, children) rest := by
  intro p hp
  have ends : Cursor.EndsTag ('>' :: inside) := .inl ⟨inside, rfl⟩
  obtain ⟨q, taken, hq⟩ := (Cursor.takes_readTag written ends).read p hp
  have opened : ¬ q.cursor.sees ['/', '>'] = true := by
    rw [Cursor.sees_iff, hq, List.cons_prefix_cons]
    exact fun found => absurd found.1 (by decide)
  obtain ⟨q₁, passed, hq₁⟩ := Cursor.passes_expect.move (p := ⟨q.cursor, q.warnings ++
    ((scope.enter tag.bindings).resolveTag tag).warnings q.cursor.position⟩) hq
  obtain ⟨q₂, content, hq₂⟩ := inner q₁ hq₁
  obtain ⟨q₃, ended, hq₃⟩ := (Cursor.passes_readEndTag written.name).move hq₂
  refine ⟨q₃, ?_, hq₃⟩
  dsimp only
  rw [readElement, if_neg (Nat.not_lt.mpr low)]
  refine bind_eq_ok.2 ⟨(tag, q), taken, (if_neg opened).trans ?_⟩
  exact bind_eq_ok.2 ⟨q₁, passed, bind_eq_ok.2 ⟨(children, q₂), content,
    bind_eq_ok.2 ⟨q₃, ended, rfl⟩⟩⟩

end

/-! ## Content -/

section

variable {o : WriteOptions} {layout : Layout} {level : Nat} {afterText : Bool}

/-- What is written for an element begins with a bracket and a name. -/
theorem begins_writeElement (o : WriteOptions) (level : Nat) (scope : Scope) (children : Forest Content)
    (after : List Char) (written : tag.Written) : ∃ ch more,
    o.writeElement level ((scope.enter tag.bindings).resolveTag tag) children after = '<' :: ch :: more ∧
      isNameStart ch = true := by
  obtain ⟨ch, first, starts⟩ := written.name.starts
  obtain ⟨more, name⟩ := List.head?_eq_some_iff.mp first
  rw [WriteOptions.writeElement, Scope.write_resolveTag, Element.write, name]
  split <;> exact ⟨ch, _, rfl, starts⟩

theorem begins_writeLeaf (reread : Reread content) (after : List Char) :
    ∃ more, writeLeaf content after = '<' :: more ∧ ∀ tail, more ≠ '/' :: tail := by
  cases reread <;> exact ⟨_, rfl, nofun⟩

/-- Behind a text, what is written for the rest begins with markup. -/
theorem begins_behind_text (readable : Readable options depth scope true f) (level : Nat) (after : List Char) :
    ∃ more, o.writeForest .inline level f ('<' :: after) = '<' :: more := by
  cases readable with
  | nil => exact ⟨after, rfl⟩
  | leaf reread =>
    obtain ⟨more, e, -⟩ := begins_writeLeaf reread
      (Layout.inline.after ++ o.writeForest .inline level _ ('<' :: after))
    rw [write_leaf reread, before_flat inline_flat]
    exact ⟨more, e⟩
  | element low written =>
    obtain ⟨ch, more, e, -⟩ := begins_writeElement o level _ _ _ written
    rw [write_element, before_flat inline_flat]
    exact ⟨ch :: more, e⟩

/-- What is read from what is written for an element, if that is what is read from between its tags. -/
theorem takes_writeElement (reader : Scope → Progress → Except ReadError (Forest Content × Progress))
    {read : Forest Content} (low : depth ≤ options.maxDepth) (written : tag.Written)
    (bare : children = .nil → read = .nil)
    (inner : ∀ after, children ≠ .nil → Progress.Takes (reader (scope.enter tag.bindings))
      (o.writeInside level children ('<' :: '/' :: after)) read ('<' :: '/' :: after)) :
    Progress.Takes (fun p => readElement options depth scope p reader)
      (o.writeElement level ((scope.enter tag.bindings).resolveTag tag) children after)
      ((scope.enter tag.bindings).resolveTag tag, read) after := by
  rw [WriteOptions.writeElement, Scope.write_resolveTag]
  cases children with
  | nil =>
    rw [bare rfl]
    exact takes_readElement_empty low written
  | cons content children later =>
    exact takes_readElement_filled low written (inner _ fun empty => by cases empty)

/-! A node is read, then its later siblings. -/

section

variable {started : Bool} {later rest : Forest Content} {s : String}

theorem takes_text (filled : s.toList ≠ []) (valid : Valid s.toList)
    (kept : ∀ c : Cursor, c.rest = '<' :: inside → options.drops s (started || !c.sees ['<', '/']) = false)
    (others : Progress.Takes (readContent options depth scope true) ('<' :: inside) later after) :
    Progress.Takes (readContent options depth scope started) (escapeText s ++ '<' :: inside)
      (.cons (.text s) .nil later) after := by
  intro p hp
  obtain ⟨ch, chars, begins, other⟩ := Cursor.begins_escapeText filled
  have here : p.cursor.beginning = .characters :=
    Cursor.beginning_characters (by rw [hp, begins, List.cons_append]) other
  obtain ⟨q, taken, hq⟩ := (Cursor.takes_readText valid).read p hp
  obtain ⟨q', read, hq'⟩ := others q hq
  refine ⟨q', ?_, hq'⟩
  rw [readContent_eq, readContentBy, here]
  refine bind_eq_ok.2 ⟨(s, q), taken, (if_neg (Bool.eq_false_iff.mp (kept q.cursor hq))).trans ?_⟩
  exact bind_eq_ok.2 ⟨(later, q'), read, rfl⟩

theorem takes_leaf (reread : Reread content)
    (others : Progress.Takes (readContent options depth scope true) inside later after) :
    Progress.Takes (readContent options depth scope started) (writeLeaf content inside)
      (.cons content .nil later) after := by
  intro p hp
  rw [readContent_eq, readContentBy, Cursor.beginning_leaf reread hp]
  cases characters : content.isCharacters with
  | true =>
    cases reread with
    | cdata raw clear =>
      obtain ⟨q, taken, hq⟩ := (Cursor.takes_readCdata raw clear).read p hp
      obtain ⟨q', read, hq'⟩ := others q hq
      exact ⟨q', bind_eq_ok.2 ⟨(_, q), taken, bind_eq_ok.2 ⟨(later, q'), read, rfl⟩⟩, hq'⟩
    | comment => cases characters
    | bare => cases characters
    | instruction => cases characters
  | false =>
    obtain ⟨q, taken, hq⟩ := (Cursor.takes_readAside reread characters).read p hp
    obtain ⟨q', read, hq'⟩ := others q hq
    exact ⟨q', bind_eq_ok.2 ⟨(content, q), taken, bind_eq_ok.2 ⟨(later, q'), read, rfl⟩⟩, hq'⟩

theorem takes_element (low : depth + 1 ≤ options.maxDepth) (written : tag.Written)
    (bare : children = .nil → rest = .nil)
    (inner : ∀ after, children ≠ .nil → Progress.Takes
      (readContent options (depth + 1) (scope.enter tag.bindings) false)
      (o.writeInside level children ('<' :: '/' :: after)) rest ('<' :: '/' :: after))
    (others : Progress.Takes (readContent options depth scope true) inside later after) :
    Progress.Takes (readContent options depth scope started)
      (o.writeElement level ((scope.enter tag.bindings).resolveTag tag) children inside)
      (.cons (.element ((scope.enter tag.bindings).resolveTag tag)) rest later) after := by
  intro p hp
  obtain ⟨ch, more, begins, starts⟩ := begins_writeElement o level scope children inside written
  have here : p.cursor.beginning = .startTag := Cursor.beginning_startTag (hp.trans begins) starts
  let reader (scope : Scope) := readContent options (depth + 1) scope false
  obtain ⟨q, taken, hq⟩ := takes_writeElement reader low written bare inner p hp
  obtain ⟨q', read, hq'⟩ := others q hq
  refine ⟨q', ?_, hq'⟩
  rw [readContent_eq, readContentBy, here]
  exact bind_eq_ok.2 ⟨((_, rest), q), taken, bind_eq_ok.2 ⟨(later, q'), read, rfl⟩⟩

theorem takes_nil : Progress.Takes (readContent options depth scope started) ('<' :: '/' :: after) .nil
    ('<' :: '/' :: after) := by
  intro p hp
  refine ⟨p, ?_, hp⟩
  rw [readContent_eq, readContentBy, Cursor.beginning_endTag hp]

end

/-- Readable content is read back from what is written for it before an end tag. -/
theorem takes_readContent (keeps : options.noBlanks = false) (plain : o.indent = false)
    (readable : Readable options depth scope afterText f) (started : Bool) (level : Nat) (after : List Char) :
    Progress.Takes (readContent options depth scope started)
      (o.writeForest .inline level f ('<' :: '/' :: after)) f ('<' :: '/' :: after) := by
  induction readable generalizing started level after with
  | nil => exact takes_nil
  | @text depth scope s rest filled valid others ih =>
    obtain ⟨more, behind⟩ := begins_behind_text others level ('/' :: after)
    have kept (hasSibling : Bool) : options.drops s hasSibling = false := by
      rw [ReadOptions.drops, keeps]
      rfl
    rw [write_text, behind]
    exact takes_text filled valid (fun _ _ => kept _) (behind ▸ ih true level after)
  | leaf reread _ ih =>
    rw [write_leaf reread, before_flat inline_flat]
    exact takes_leaf reread (ih true level after)
  | @element depth scope afterText tag children rest low written _ _ ihi iho =>
    have inner (after : List Char) (_ : children ≠ .nil) : Progress.Takes
        (readContent options (depth + 1) (scope.enter tag.bindings) false)
        (o.writeInside level children ('<' :: '/' :: after)) children ('<' :: '/' :: after) := by
      rw [writeInside_plain plain]
      exact ihi false (level + 1) after
    rw [write_element, before_flat inline_flat]
    exact takes_element low written id inner (iho true level after)

end

end XmlStore
