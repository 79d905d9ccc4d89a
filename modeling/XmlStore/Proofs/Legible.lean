/-
What can be read again. Names that were given to nodes consist of characters
that names have, but may be too long or begin with a wrong character; texts
and values may hold any characters. Of elements with such names and texts it
is said exactly which can be read again from what is written for them.
-/
import XmlStore.Proofs.Layouts
import XmlStore.Proofs.Spelling

namespace XmlStore

open Cursor (IsName NameChars Valid Takes Passes Reread EndsTag spelling)

/-! ## Tags -/

/-- What stands in a start tag: names with values, declarations first. -/
def Element.entries (tag : Element) : List (String × String) :=
  tag.bindings.map (fun b => (b.label, b.uri)) ++ tag.attributes.map fun a => (a.name.text, a.value)

/-- Whether an attribute of this name is read as a declaration. -/
def IsLabel (name : String) : Prop := name = "xmlns" ∨ "xmlns:".toList <+: name.toList

/-- A name and a value that may stand in a tag; only the declaration of the default namespace may be
empty. -/
@[mk_iff]
structure IsEntry (entry : String × String) : Prop where
  name : IsName entry.1
  value : Valid entry.2.toList
  bound : "xmlns:".toList <+: entry.1.toList → entry.2 ≠ ""

/-- A tag that can be read again. -/
@[mk_iff]
structure Element.Legible (tag : Element) : Prop where
  name : IsName tag.name.text
  entries : ∀ entry ∈ tag.entries, IsEntry entry

theorem isLabel_label (b : Binding) : IsLabel b.label := by
  rcases b with ⟨_ | qualifier, uri⟩
  · exact .inl rfl
  · refine .inr ⟨qualifier.toList, ?_⟩
    rw [Binding.label, String.toList_append]

theorem Element.write_eq (tag : Element) : tag.write =
    '<' :: (tag.name.text.toList ++ tag.entries.flatMap fun entry => spelling entry.1 entry.2) := by
  rw [Element.write, entries, List.flatMap_append, List.flatMap_map, List.flatMap_map,
    List.flatMap_congr fun b _ => Cursor.write_binding b, List.flatMap_congr fun a _ => Cursor.write_attribute a]
  simp only [List.cons_append, List.append_assoc]

namespace Element.Spelt

variable {tag : Element} (spelt : tag.Spelt)

include spelt

theorem chars : ∀ entry ∈ tag.entries, NameChars entry.1 := by
  refine List.forall_mem_append.mpr ⟨?_, ?_⟩
  · rw [List.forall_mem_map]
    exact spelt.labels
  · rw [List.forall_mem_map]
    exact fun a ha => spelt.attributes a.name (List.mem_map_of_mem ha)

/-- No attribute has the name of an entry before it, unless it stands for a declaration. -/
theorem pairwise : tag.entries.Pairwise fun entry other => ¬ IsLabel other.1 → entry.1 ≠ other.1 := by
  have distinct := spelt.distinct
  rw [List.pairwise_map] at distinct
  refine List.pairwise_append.mpr ⟨?_, ?_, ?_⟩
  · rw [List.pairwise_map]
    exact List.pairwise_of_forall fun b b' other => absurd (isLabel_label b') other
  · rw [List.pairwise_map]
    refine distinct.imp ?_
    intro a a' ne _
    exact ne
  · rintro _ hb _ ha other same
    obtain ⟨b, -, rfl⟩ := List.mem_map.mp hb
    exact other (same ▸ isLabel_label b)

end Element.Spelt

namespace Cursor

variable {c : Cursor} {rest : List Char} {name value : String} {tag : Element}

theorem succeedsIff_addAttribute (new : ¬ IsLabel name → ∀ a ∈ tag.attributes, a.name.text ≠ name) (c : Cursor) :
    SucceedsIff (addAttribute tag name value c) ("xmlns:".toList <+: name.toList → value ≠ "")
      fun read => read.name = tag.name ∧ ∀ a ∈ read.attributes, a ∈ tag.attributes ∨ a.name.text = name := by
  rw [addAttribute]
  split
  · rename_i default
    subst default
    exact .ok (fun found => absurd found (by decide)) ⟨rfl, fun a ha => .inl ha⟩
  · rename_i proper
    split
    · rename_i qualifier found
      have labelled : "xmlns:".toList <+: name.toList := ⟨qualifier, List.isPrefixOf?_eq_some_iff_append_eq.mp found⟩
      dsimp only
      split
      · rename_i undone
        exact .error fun bound => bound labelled (String.isEmpty_iff.mp undone)
      · rename_i bound
        exact .ok (fun _ empty => bound (String.isEmpty_iff.mpr empty)) ⟨rfl, fun a ha => .inl ha⟩
    · rename_i unlabelled
      have other : ¬ "xmlns:".toList <+: name.toList := by
        rintro ⟨qualifier, e⟩
        rw [List.isPrefixOf?_eq_some_iff_append_eq.mpr e] at unlabelled
        cases unlabelled
      have free : ¬ tag.attributes.any (·.answersTo name) = true := by
        rw [List.any_eq_true]
        rintro ⟨a, ha, same⟩
        exact new (not_or.mpr ⟨proper, other⟩) a ha (eq_of_beq same)
      rw [if_neg free]
      refine .ok (fun found => absurd found other) ⟨rfl, fun a ha => ?_⟩
      rcases List.mem_append.mp ha with old | added
      · exact .inl old
      · rw [List.mem_singleton.mp added]
        exact .inr (QName.text_ofString name)

theorem succeedsIff_readAttribute (chars : NameChars name)
    (new : ¬ IsLabel name → ∀ a ∈ tag.attributes, a.name.text ≠ name)
    (hc : c.rest = spelling name value ++ rest) :
    SucceedsIff (readAttribute tag c) (IsEntry (name, value)) fun r => r.1.name = tag.name ∧
      (∀ a ∈ r.1.attributes, a ∈ tag.attributes ∨ a.name.text = name) ∧ r.2.rest = rest := by
  have blank : c.peek?.any isBlank = true := by
    rw [peek?, hc]
    rfl
  have ends : ∀ ch ∈ ('=' :: (quoted value ++ rest)).head?, isNameChar ch = false := by
    rintro _ ⟨⟩
    decide
  rw [readAttribute, blank]
  refine ((succeedsIff_readName chars ends (rest_skipBlanks_spelling chars hc)).bind ?_).congr (isEntry_iff (name, value)).symm
  rintro ⟨_, d⟩ - ⟨rfl, hd⟩
  refine .after (passes_expectEquals d hd) fun e he => ?_
  refine (succeedsIff_readAttributeValue he).bind ?_
  rintro ⟨_, f⟩ - ⟨rfl, hf⟩
  refine (succeedsIff_addAttribute new f).before ?_
  rintro read ⟨named, listed⟩
  exact ⟨_, rfl, named, listed, hf⟩

theorem succeedsIff_readAttributes {entries : List (String × String)} (ends : EndsTag rest)
    (chars : ∀ entry ∈ entries, NameChars entry.1)
    (distinct : entries.Pairwise fun entry other => ¬ IsLabel other.1 → entry.1 ≠ other.1)
    (new : ∀ entry ∈ entries, ¬ IsLabel entry.1 → ∀ a ∈ tag.attributes, a.name.text ≠ entry.1)
    (hc : c.rest = entries.flatMap (fun entry => spelling entry.1 entry.2) ++ rest) :
    SucceedsIff (readAttributes tag c) (∀ entry ∈ entries, IsEntry entry)
      fun r => r.1.name = tag.name ∧ r.2.rest = rest := by
  induction entries generalizing tag c with
  | nil =>
    have closed : c.skipBlanks.seesTagEnd = true := by
      rw [seesTagEnd_iff, rest_skipBlanks_of_ends (hc ▸ ends), hc]
      exact ends
    rw [readAttributes, readWhile_eq, closed]
    exact .ok (List.forall_mem_nil _) ⟨rfl, hc⟩
  | cons entry entries ih =>
    rw [List.forall_mem_cons] at chars new
    rw [List.pairwise_cons] at distinct
    rw [List.flatMap_cons, List.append_assoc] at hc
    rw [readAttributes, readWhile_eq, goes_on chars.1 hc]
    refine ((succeedsIff_readAttribute chars.1 new.1 hc).bind ?_).congr List.forall_mem_cons.symm
    rintro ⟨read, d⟩ - ⟨named, listed, hd⟩
    refine (ih chars.2 distinct.2 (fun other mem unlabelled a ha => ?_) hd).imp .rfl fun r => ?_
    · rcases listed a ha with old | same
      · exact new.2 other mem unlabelled a old
      · rw [same]
        exact distinct.1 other mem unlabelled
    · rintro ⟨same, hr⟩
      exact ⟨same.trans named, hr⟩

/-- A tag is read from what is written for it exactly if it is legible. -/
theorem succeedsIff_readTag (spelt : tag.Spelt) (ends : EndsTag rest) (hc : c.rest = tag.write ++ rest) :
    SucceedsIff c.readTag tag.Legible fun r => r.1.name.text = tag.name.text ∧ r.2.rest = rest := by
  rw [Element.write_eq, List.cons_append, List.append_assoc] at hc
  have ends_name : ∀ ch ∈ (tag.entries.flatMap (fun entry => spelling entry.1 entry.2) ++ rest).head?,
      isNameChar ch = false := by
    intro ch hch
    cases e : tag.entries with
    | nil =>
      rw [e] at hch
      rcases ends with ⟨more, rfl⟩ | ⟨more, rfl⟩ <;> (cases hch; decide)
    | cons entry entries =>
      rw [e] at hch
      cases hch
      decide
  refine SucceedsIff.after (passes_expect c hc) fun d hd => ?_
  refine ((succeedsIff_readName spelt.name ends_name hd).bind ?_).congr tag.legible_iff.symm
  rintro ⟨_, d⟩ - ⟨rfl, hd⟩
  have new : ∀ entry ∈ tag.entries, ¬ IsLabel entry.1 →
      ∀ a ∈ (Element.named (.ofString tag.name.text)).attributes, a.name.text ≠ entry.1 :=
    fun _ _ _ _ listed => absurd listed List.not_mem_nil
  refine (succeedsIff_readAttributes ends spelt.chars spelt.pairwise new hd).before ?_
  rintro ⟨read, d⟩ ⟨named, hd⟩
  refine ⟨_, rfl, ?_, ?_⟩
  · rw [named]
    exact QName.text_ofString tag.name.text
  · rw [rest_skipBlanks_of_ends (hd ▸ ends), hd]

end Cursor

/-! ## Contents -/

/-- Content of an element at a depth that can be read again where elements may be nested `limit` deep. -/
def Forest.Legible (limit depth : Nat) : Forest Content → Prop
  | .nil => True
  | .cons content children later =>
    (match content with
      | .element tag => depth < limit ∧ tag.Legible ∧ children.Legible limit (depth + 1)
      | .text s => Valid s.toList
      | .document | .doctype .. => False
      | _ => True) ∧ later.Legible limit depth

/-- Characters that stand for themselves in a text. -/
def Plain (chars : List Char) : Prop := ∀ ch ∈ chars, isXmlChar ch = true ∧ escapeTextChar ch = [ch]

section

variable {chars more : List Char} {o : WriteOptions}

theorem Plain.valid (h : Plain chars) : Valid chars := fun ch hch => (h ch hch).1

theorem Plain.escape (h : Plain chars) : chars.flatMap escapeTextChar = chars := by
  rw [List.flatMap_congr fun ch hch => (h ch hch).2]
  exact List.flatMap_singleton' chars

theorem plain_pad (unit : Plain o.indentUnit.toList) (level : Nat) : Plain (o.pad level) := by
  intro ch hch
  obtain ⟨chars, hchars, mem⟩ := List.mem_flatten.mp hch
  rw [List.eq_of_mem_replicate hchars] at mem
  exact unit ch mem

theorem plain_before {layout : Layout} (unit : Plain o.indentUnit.toList) (level : Nat) (content : Content) :
    Plain (o.before layout level content) := by
  unfold WriteOptions.before
  split
  all_goals first | (split; exact plain_pad unit level; exact nofun) | exact nofun

theorem plain_after {layout : Layout} : Plain layout.after := by
  cases layout
  · exact nofun
  all_goals
    intro ch hch
    rw [List.mem_singleton.mp hch]
    decide

theorem valid_append : Valid (chars ++ more) ↔ Valid chars ∧ Valid more := List.forall_mem_append

end

section

variable {options : ReadOptions} {depth : Nat} {scope : Scope} {p q : Progress} {started : Bool}
variable {name : String} {rest after : List Char} {content : Content} {fine : Prop}

/-- Reads the content of an element and its end tag. -/
def readInside (options : ReadOptions) (depth : Nat) (scope : Scope) (started : Bool) (name : String)
    (p : Progress) : Except ReadError Progress := do
  let (_, q) ← readContent options depth scope started p
  q.move (·.readEndTag name)

/-- An element as it stands in the content of another one, or on top. -/
abbrev readElementAt (options : ReadOptions) (depth : Nat) (scope : Scope) (p : Progress) :
    Except ReadError ((Element × Forest Content) × Progress) :=
  readElement options depth scope p fun scope => readContent options depth scope false

theorem readInside_endTag (here : p.cursor.beginning = .endTag) :
    readInside options depth scope started name p = p.move (·.readEndTag name) := by
  rw [readInside, readContent_eq, readContentBy, here]
  rfl

theorem readInside_cdata (here : p.cursor.beginning = .cdata) : readInside options depth scope started name p =
    p.read Cursor.readCdata >>= fun r => readInside options depth scope true name r.2 := by
  rw [readInside, readContent_eq, readContentBy, here]
  simp only [bind_assoc, pure_bind]
  rfl

theorem readInside_aside (here : p.cursor.beginning = .aside) : readInside options depth scope started name p =
    p.read Cursor.readAside >>= fun r => readInside options depth scope true name r.2 := by
  rw [readInside, readContent_eq, readContentBy, here]
  simp only [bind_assoc, pure_bind]
  rfl

theorem readInside_startTag (here : p.cursor.beginning = .startTag) :
    readInside options depth scope started name p =
      readElementAt options (depth + 1) scope p >>= fun r => readInside options depth scope true name r.2 := by
  rw [readInside, readContent_eq, readContentBy, here]
  simp only [bind_assoc, pure_bind]
  rfl

/-- Whether a text is left out has a part in what may be left out later. -/
theorem readInside_characters (here : p.cursor.beginning = .characters) :
    readInside options depth scope started name p = p.read Cursor.readText >>= fun r =>
      readInside options depth scope (started || !options.drops r.1 (started || !r.2.cursor.sees ['<', '/'])) name
        r.2 := by
  rw [readInside, readContent_eq, readContentBy, here]
  simp only [bind_assoc]
  refine bind_congr_ok ?_
  rintro ⟨text, q⟩ -
  dsimp only
  cases options.drops text (started || !q.cursor.sees ['<', '/']) with
  | true => simp [readInside]
  | false =>
    simp only [Bool.not_false, Bool.or_true, Bool.false_eq_true, if_false, bind_assoc, pure_bind]
    rfl

/-- Characters that are still to be read are read before the markup behind them. -/
theorem succeedsIff_run {run : List Char} {good : Progress → Prop}
    (markup : ∀ started q, q.cursor.rest = '<' :: rest →
      SucceedsIff (readInside options depth scope started name q) fine good)
    (hp : p.cursor.rest = run.flatMap escapeTextChar ++ '<' :: rest) :
    SucceedsIff (readInside options depth scope started name p) (Valid run ∧ fine) good := by
  cases run with
  | nil => exact (markup started p hp).congr (iff_and_self.mpr fun _ => nofun)
  | cons ch run =>
    obtain ⟨first, more, begins, other⟩ :=
      Cursor.begins_escapeText (s := String.ofList (ch :: run)) (by simp)
    rw [escapeText, String.toList_ofList] at begins
    have here : p.cursor.beginning = .characters :=
      Cursor.beginning_characters (by rw [hp, begins, List.cons_append]) other
    rw [readInside_characters here]
    refine (Cursor.succeedsIff_readText hp).read.bind ?_
    rintro ⟨text, q⟩ - ⟨-, hq⟩
    exact markup _ q hq

theorem begins_writeDoctype (name : String) (systemId publicId : Option String) :
    ∃ more, writeDoctype name systemId publicId = "<!DOCTYPE ".toList ++ more := by
  unfold writeDoctype
  simp only [toString, String.toList_append, List.append_assoc]
  exact ⟨_, rfl⟩

theorem beginning_doctype {c : Cursor} (hc : c.rest = "<!DOCTYPE ".toList ++ rest) : c.beginning = .startTag := by
  obtain ⟨_, position⟩ := c
  subst hc
  rfl

theorem readName_of_other {c : Cursor} {ch : Char} (hc : c.rest = ch :: rest) (other : isNameStart ch = false) :
    c.readName = .error (c.fault (.badNameStart ch)) := by
  rw [Cursor.readName, hc]
  exact if_neg (by simp [other])

/-- Where no name begins there is no element. -/
theorem refuses_readElementAt {ch : Char} (hp : p.cursor.rest = '<' :: ch :: rest) (other : isNameStart ch = false) :
    ∃ e, readElementAt options depth scope p = .error e := by
  rw [readElementAt, readElement]
  split
  · exact ⟨_, rfl⟩
  · obtain ⟨d, opened, hd⟩ := Cursor.passes_expect p.cursor hp
    have refused : p.cursor.readTag = .error (d.fault (.badNameStart ch)) := by
      rw [Cursor.readTag, opened]
      change d.readName >>= _ = _
      rw [readName_of_other hd other]
      rfl
    rw [Progress.read, refused]
    exact ⟨_, rfl⟩

theorem not_isName_of_nil {s : String} (none : s.toList = []) : ¬ IsName s := by
  intro isName
  obtain ⟨ch, first, -⟩ := isName.starts
  rw [none] at first
  cases first

/-- An end tag has a name. -/
theorem refuses_readEndTag (hp : p.cursor.rest = '<' :: '/' :: '>' :: rest) :
    ∃ e, p.move (·.readEndTag name) = .error e := by
  have opens : Passes (Cursor.expectWord "</") ("</".toList ++ '>' :: rest) ('>' :: rest) := Cursor.passes_expectWord
  obtain ⟨d, opened, hd⟩ := opens p.cursor hp
  have refused : p.cursor.readEndTag name = .error (d.fault (.badNameStart '>')) := by
    rw [Cursor.readEndTag, opened]
    change d.readName >>= _ = _
    rw [readName_of_other hd (by decide)]
    rfl
  rw [Progress.move, refused]
  exact ⟨_, rfl⟩

variable {o : WriteOptions} {level : Nat} {tag : Element} {children : Forest Content}

/-- An element is read from what is written for it exactly if its tag is legible, it is not nested too
deep, and what is between its tags is read. -/
theorem succeedsIff_readElementAt (spelt : tag.Spelt) (bare : children = .nil → fine)
    (inner : ∀ scope q, children ≠ .nil → IsName tag.name.text →
      q.cursor.rest = o.writeInside level children ("</".toList ++ (tag.name.text.toList ++ '>' :: after)) →
      SucceedsIff (readInside options depth scope false tag.name.text q) fine fun q => q.cursor.rest = after)
    (hp : p.cursor.rest = o.writeElement level tag children after) :
    SucceedsIff (readElementAt options depth scope p) (depth ≤ options.maxDepth ∧ tag.Legible ∧ fine)
      fun r => r.2.cursor.rest = after := by
  rw [readElementAt, readElement]
  by_cases low : depth ≤ options.maxDepth
  · rw [if_neg (Nat.not_lt.mpr low)]
    refine SucceedsIff.congr ?_ (and_iff_right low).symm
    cases children with
    | nil =>
      refine ((Cursor.succeedsIff_readTag spelt (.inr ⟨after, rfl⟩) hp).read.before ?_).congr
        (and_iff_left (bare rfl)).symm
      rintro ⟨read, q⟩ ⟨-, hq⟩
      have closed : q.cursor.sees ['/', '>'] = true := Cursor.sees_iff.mpr (hq ▸ ⟨after, rfl⟩)
      refine ⟨_, if_pos closed, ?_⟩
      dsimp only
      rw [Cursor.rest_skip, hq]
      rfl
    | cons content below later =>
      have shape : p.cursor.rest = tag.write ++ '>' :: o.writeInside level (.cons content below later)
        ("</".toList ++ (tag.name.text.toList ++ '>' :: after)) := hp
      have ends : EndsTag ('>' :: o.writeInside level (.cons content below later)
        ("</".toList ++ (tag.name.text.toList ++ '>' :: after))) := .inl ⟨_, rfl⟩
      refine (Cursor.succeedsIff_readTag spelt ends shape).read.bind ?_
      rintro ⟨read, q⟩ legible ⟨named, hq⟩
      dsimp only at named hq
      have opened : ¬ q.cursor.sees ['/', '>'] = true := by
        rw [Cursor.sees_iff, hq, List.cons_prefix_cons]
        exact fun found => absurd found.1 (by decide)
      dsimp only
      rw [if_neg opened]
      refine .after (Cursor.passes_expect.move (p := ⟨q.cursor, _⟩) hq) fun q₁ hq₁ => ?_
      have inhabited : Forest.cons content below later ≠ .nil := by
        intro same
        cases same
      have inside := inner (scope.enter read.bindings) q₁ inhabited legible.name hq₁
      rw [readInside, ← named] at inside
      refine inside.extend ?_
      rintro ⟨read, q₂⟩ closing
      exact closing.before fun q₃ hq₃ => ⟨_, rfl, hq₃⟩
  · rw [if_pos (Nat.lt_of_not_le low)]
    exact .error fun fine => low fine.1

/-- What is written for an element looks like an end tag if it has no name, no attributes and no content. -/
theorem second_writeElement (spelt : tag.Spelt) (o : WriteOptions) (level : Nat) (children : Forest Content)
    (after : List Char) : ∃ ch more, o.writeElement level tag children after = '<' :: ch :: more ∧
      (ch ∉ ['/', '!', '?'] ∨ ch = '/' ∧ more = '>' :: after ∧ ¬ IsName tag.name.text) := by
  rw [WriteOptions.writeElement, Element.write_eq]
  cases name : tag.name.text.toList with
  | cons ch chars =>
    refine ⟨ch, ?_⟩
    have other : ch ∉ ['/', '!', '?'] :=
      Cursor.not_mem_of_isNameChar (spelt.name ch (name ▸ List.mem_cons_self))
    split <;> exact ⟨_, rfl, .inl other⟩
  | nil =>
    cases tag.entries with
    | cons entry entries =>
      refine ⟨' ', ?_⟩
      split <;> exact ⟨_, rfl, .inl (by decide)⟩
    | nil =>
      split
      · exact ⟨'/', _, rfl, .inr ⟨rfl, rfl, not_isName_of_nil name⟩⟩
      · exact ⟨'>', _, rfl, .inl (by decide)⟩

/-! A node is read, then its later siblings. -/

section

variable {later : Prop} {inside : List Char} {good : Progress → Prop}

theorem succeedsIff_leaf (reread : Reread content)
    (next : ∀ q, q.cursor.rest = inside → SucceedsIff (readInside options depth scope true name q) later good)
    (hp : p.cursor.rest = writeLeaf content inside) :
    SucceedsIff (readInside options depth scope started name p) later good := by
  have here := Cursor.beginning_leaf reread hp
  cases characters : content.isCharacters with
  | true =>
    rw [characters] at here
    cases reread with
    | cdata raw clear =>
      obtain ⟨q, taken, hq⟩ := (Cursor.takes_readCdata raw clear).read p hp
      dsimp only at taken
      rw [readInside_cdata here, taken]
      exact next q hq
    | _ => cases characters
  | false =>
    rw [characters] at here
    obtain ⟨q, taken, hq⟩ := (Cursor.takes_readAside reread characters).read p hp
    dsimp only at taken
    rw [readInside_aside here, taken]
    exact next q hq

/-- Between elements a document type declaration is taken for one of them. -/
theorem succeedsIff_doctype (hp : p.cursor.rest = "<!DOCTYPE ".toList ++ rest) :
    SucceedsIff (readInside options depth scope started name p) False good := by
  have second : p.cursor.rest = '<' :: '!' :: ("DOCTYPE ".toList ++ rest) := hp
  obtain ⟨e, refused⟩ : ∃ e, readElementAt options (depth + 1) scope p = .error e :=
    refuses_readElementAt second (by decide)
  rw [readInside_startTag (beginning_doctype hp), refused]
  exact .error not_false

theorem succeedsIff_element (spelt : tag.Spelt) (bare : children = .nil → fine)
    (inner : ∀ scope q, children ≠ .nil → IsName tag.name.text →
      q.cursor.rest = o.writeInside level children ("</".toList ++ (tag.name.text.toList ++ '>' :: inside)) →
      SucceedsIff (readInside options (depth + 1) scope false tag.name.text q) fine fun q => q.cursor.rest = inside)
    (next : ∀ q, q.cursor.rest = inside → SucceedsIff (readInside options depth scope true name q) later good)
    (hp : p.cursor.rest = o.writeElement level tag children inside) :
    SucceedsIff (readInside options depth scope started name p)
      ((depth + 1 ≤ options.maxDepth ∧ tag.Legible ∧ fine) ∧ later) good := by
  obtain ⟨ch, more, begins, second⟩ := second_writeElement spelt o level children inside
  have begins := hp.trans begins
  rcases second with other | ⟨rfl, rfl, unnamed⟩
  · rw [readInside_startTag (Cursor.beginning_bracket begins other)]
    exact (succeedsIff_readElementAt spelt bare inner hp).bind fun r _ hr => next r.2 hr
  · obtain ⟨e, refused⟩ : ∃ e, p.move (·.readEndTag name) = .error e := refuses_readEndTag begins
    rw [readInside_endTag (Cursor.beginning_endTag begins), refused]
    exact .error fun fine => unnamed fine.1.2.1.name

end

/-- What is read from between the tags of an element, if it is what is read of its children in every layout. -/
theorem succeedsIff_writeInside (unit : Plain o.indentUnit.toList)
    (each : ∀ {layout : Layout} {run closing : List Char}, Plain closing →
      p.cursor.rest = run.flatMap escapeTextChar ++ o.writeForest layout (level + 1) children
        (closing ++ ("</".toList ++ (name.toList ++ '>' :: after))) →
      SucceedsIff (readInside options depth scope started name p)
        (Valid run ∧ (o.remains layout children).Legible options.maxDepth depth) fun q => q.cursor.rest = after)
    (hp : p.cursor.rest = o.writeInside level children ("</".toList ++ (name.toList ++ '>' :: after))) :
    SucceedsIff (readInside options depth scope started name p)
      ((o.remains (o.childLayout children) children).Legible options.maxDepth depth)
      fun q => q.cursor.rest = after := by
  rw [WriteOptions.writeInside] at hp
  split at hp
  · rename_i block
    have line : Plain ['\n'] := @plain_after .lines
    have shape : p.cursor.rest = ['\n'].flatMap escapeTextChar ++ o.writeForest .block (level + 1) children
      (o.pad level ++ ("</".toList ++ (name.toList ++ '>' :: after))) := hp
    rw [block]
    exact (each (plain_pad unit level) shape).congr (and_iff_right line.valid)
  · rename_i inline
    have layout := (childLayout_cases o children).resolve_right fun block => inline block.1
    have bare : Plain [] := List.forall_mem_nil _
    have shape : p.cursor.rest = [].flatMap escapeTextChar ++ o.writeForest .inline (level + 1) children
      ([] ++ ("</".toList ++ (name.toList ++ '>' :: after))) := hp
    rw [layout]
    exact (each bare shape).congr (and_iff_right bare.valid)

/-- What is written for content and an end tag is read exactly if the content is legible, but for texts that the
layout leaves out, and if so are the characters before it. -/
theorem succeedsIff_readInside (unit : Plain o.indentUnit.toList) {f : Forest Content}
    (spelt : ∀ content ∈ f.preorder, content.Spelt) {layout : Layout} (isName : IsName name)
    {run closing : List Char} (plain : Plain closing)
    (hp : p.cursor.rest = run.flatMap escapeTextChar ++
      o.writeForest layout level f (closing ++ ("</".toList ++ (name.toList ++ '>' :: after)))) :
    SucceedsIff (readInside options depth scope started name p)
      (Valid run ∧ (o.remains layout f).Legible options.maxDepth depth) fun q => q.cursor.rest = after := by
  induction f generalizing layout level depth scope started name run closing after p with
  | nil =>
    rw [WriteOptions.writeForest, ← List.append_assoc, ← plain.escape, ← List.flatMap_append] at hp
    have closes : ∀ (started : Bool) (q : Progress), q.cursor.rest = "</".toList ++ (name.toList ++ '>' :: after) →
        SucceedsIff (readInside options depth scope started name q) True fun q => q.cursor.rest = after := by
      intro started q hq
      obtain ⟨q', closed, hq'⟩ := (Cursor.passes_readEndTag isName).move hq
      rw [readInside_endTag (Cursor.beginning_endTag hq), closed]
      exact .ok trivial hq'
    refine (succeedsIff_run closes hp).congr (and_congr_left' ?_)
    rw [valid_append]
    exact and_iff_left plain.valid
  | cons content children later ihc ihl =>
    rw [Forest.preorder, List.forall_mem_cons, List.forall_mem_append] at spelt
    obtain ⟨here, below, behind⟩ := spelt
    by_cases hidden : (layout = .block && content.isText) = true
    · have skipped : o.remains layout (.cons content children later) = o.remains layout later := if_pos hidden
      rw [WriteOptions.writeForest, if_pos hidden] at hp
      rw [skipped]
      exact ihl behind isName plain hp
    rw [remains_shown hidden]
    have line : Plain layout.after := plain_after
    have ahead : Plain (o.before layout level content) := plain_before unit level content
    generalize inside_eq : layout.after ++
      o.writeForest layout level later (closing ++ ("</".toList ++ (name.toList ++ '>' :: after))) = inside
    -- Behind this node its line end is read with what comes next.
    have next (started : Bool) (q : Progress) (hq : q.cursor.rest = inside) :
        SucceedsIff (readInside options depth scope started name q)
          ((o.remains layout later).Legible options.maxDepth depth) fun q => q.cursor.rest = after := by
      rw [← inside_eq, ← line.escape] at hq
      exact (ihl behind isName plain hq).congr (and_iff_right line.valid)
    -- Its indentation is read with the characters before it.
    have markup {fine : Prop} {node : List Char} (begins : ∃ more, node = '<' :: more)
        (read : ∀ started q, q.cursor.rest = node →
          SucceedsIff (readInside options depth scope started name q) fine fun q => q.cursor.rest = after)
        (hp : p.cursor.rest = run.flatMap escapeTextChar ++ (o.before layout level content ++ node)) :
        SucceedsIff (readInside options depth scope started name p) (Valid run ∧ fine)
          fun q => q.cursor.rest = after := by
      obtain ⟨more, rfl⟩ := begins
      rw [← List.append_assoc, ← ahead.escape, ← List.flatMap_append] at hp
      refine (succeedsIff_run read hp).congr (and_congr_left' ?_)
      rw [valid_append]
      exact and_iff_left ahead.valid
    cases here with
    | text s =>
      rw [WriteOptions.writeForest, if_neg hidden] at hp
      have shape : p.cursor.rest = (run ++ (s.toList ++ layout.after)).flatMap escapeTextChar ++
          o.writeForest layout level later (closing ++ ("</".toList ++ (name.toList ++ '>' :: after))) := by
        rw [hp, List.flatMap_append, List.flatMap_append, line.escape]
        simp only [List.append_assoc]
        rfl
      refine (ihl behind isName plain shape).congr ?_
      rw [valid_append, valid_append, and_iff_left line.valid, and_assoc]
      rfl
    | leaf reread =>
      rw [write_leaf reread, inside_eq] at hp
      obtain ⟨more, begins, -⟩ := begins_writeLeaf reread inside
      have legible :
          (Forest.cons content (o.remains (o.childLayout children) children) (o.remains layout later)).Legible
            options.maxDepth depth ↔ (o.remains layout later).Legible options.maxDepth depth := by
        cases reread <;> exact and_iff_right trivial
      rw [legible]
      exact markup ⟨more, begins⟩ (fun started q hq => succeedsIff_leaf reread (next true) hq) hp
    | @doctype doctype isName systemId publicId =>
      rw [WriteOptions.writeForest, if_neg hidden] at hp
      dsimp only at hp
      obtain ⟨more, begins⟩ := begins_writeDoctype doctype systemId publicId
      rw [begins, inside_eq, List.append_assoc] at hp
      have illegible : ¬ (Forest.cons (.doctype doctype systemId publicId) (o.remains (o.childLayout children) children)
          (o.remains layout later)).Legible options.maxDepth depth := And.left
      rw [iff_of_false illegible not_false]
      exact markup ⟨_, rfl⟩ (fun started q hq => succeedsIff_doctype hq) hp
    | @element tag spelt =>
      rw [write_element, inside_eq] at hp
      obtain ⟨ch, more, begins, -⟩ := second_writeElement spelt o level children inside
      refine markup ⟨_, begins⟩ (fun started q hq => ?_) hp
      refine succeedsIff_element spelt ?_ (fun scope q _ isName => ?_) (next true) hq
      · rintro rfl
        trivial
      · exact succeedsIff_writeInside unit fun plain => ihc below isName plain

end

end XmlStore
