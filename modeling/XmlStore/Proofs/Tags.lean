/-
Tags that are read back. A tag as it is read has attributes of different
names, none of them the name of a declaration; such a tag is read again from
what is written for it, declarations first, and resolves to the same names.
-/
import Mathlib.Data.List.Basic
import XmlStore.Markup.Tag
import XmlStore.Proofs.Pieces
import XmlStore.Proofs.PlainNames

namespace XmlStore

open Cursor (IsName Valid Takes Passes)

/-- The name of the attribute that stands for a declaration. -/
def Binding.label (b : Binding) : String :=
  match b.qualifier with
  | some qualifier => "xmlns:" ++ qualifier
  | none => "xmlns"

/-- A declaration as it may be written; only that of the default namespace may undo one. -/
structure Binding.Written (b : Binding) : Prop where
  name : IsName b.label
  value : Valid b.uri.toList
  bound : b.qualifier.isSome = true → b.uri.isEmpty = false

/-- An attribute as it may be written, not resolved yet. -/
structure Attribute.Written (a : Attribute) : Prop where
  name : IsName a.name.text
  value : Valid a.value.toList
  plain : a = .ofString a.name.text a.value
  proper : a.name.text ≠ "xmlns"
  unbound : "xmlns:".toList.isPrefixOf? a.name.text.toList = none

/-- A tag as it may be written, not resolved yet. -/
structure Element.Written (tag : Element) : Prop where
  name : IsName tag.name.text
  plain : tag.name = .ofString tag.name.text
  unresolved : tag.uri = none
  bindings : ∀ b ∈ tag.bindings, b.Written
  attributes : ∀ a ∈ tag.attributes, a.Written
  distinct : tag.attributes.Pairwise fun a b => a.name.text ≠ b.name.text

namespace Cursor

variable {c d : Cursor} {rest : List Char} {name value : String} {tag tag' : Element}

/-! ## What is read -/

theorem label_of_isPrefixOf? {qualifier : List Char}
    (h : "xmlns:".toList.isPrefixOf? name.toList = some qualifier) :
    (Binding.mk (some (String.ofList qualifier)) value).label = name := by
  rw [← String.toList_inj, Binding.label, String.toList_append,
    ← List.isPrefixOf?_eq_some_iff_append_eq.mp h]
  exact congrArg ("xmlns:".toList ++ ·) String.toList_ofList

theorem written_addAttribute (h : tag.Written) (hname : IsName name) (hvalue : Valid value.toList)
    (added : addAttribute tag name value c = .ok tag') : tag'.Written := by
  rw [addAttribute] at added
  split at added
  · rename_i default
    cases added
    refine { h with bindings := List.forall_mem_append.mpr ⟨h.bindings, ?_⟩ }
    rintro b hb
    rw [List.mem_singleton.mp hb]
    subst default
    exact ⟨hname, hvalue, nofun⟩
  · rename_i proper
    split at added
    · rename_i qualifier found
      dsimp only at added
      split at added
      · cases added
      · rename_i bound
        cases added
        refine { h with bindings := List.forall_mem_append.mpr ⟨h.bindings, ?_⟩ }
        rintro b hb
        rw [List.mem_singleton.mp hb]
        refine ⟨?_, hvalue, fun _ => by simpa using bound⟩
        rw [label_of_isPrefixOf? found]
        exact hname
    · rename_i unbound
      split at added
      · cases added
      · rename_i new
        cases added
        have text : (Attribute.ofString name value).name.text = name := QName.text_ofString name
        refine { h with
          attributes := List.forall_mem_append.mpr ⟨h.attributes, ?_⟩
          distinct := List.pairwise_append.mpr ⟨h.distinct, List.pairwise_singleton .., ?_⟩ }
        · intro a ha
          rw [List.mem_singleton.mp ha]
          refine ⟨?_, hvalue, ?_, ?_, ?_⟩
          · rw [text]
            exact hname
          · rw [text]
            rfl
          · rw [text]
            exact proper
          · rw [text]
            exact unbound
        · intro a ha b hb
          rw [List.mem_singleton.mp hb, text]
          intro same
          refine new (List.any_eq_true.mpr ⟨a, ha, ?_⟩)
          rw [Attribute.answersTo, same, beq_self_eq_true]

theorem written_readAttribute (h : tag.Written) (read : readAttribute tag c = .ok (tag', d)) :
    tag'.Written := by
  rw [readAttribute] at read
  split at read
  · cases read
  · obtain ⟨⟨name, e⟩, hname, read⟩ := bind_eq_ok.1 read
    obtain ⟨f, -, read⟩ := bind_eq_ok.1 read
    obtain ⟨⟨value, g⟩, hvalue, read⟩ := bind_eq_ok.1 read
    obtain ⟨tag, hadd, read⟩ := bind_eq_ok.1 read
    cases read
    exact written_addAttribute h (isName_of_readName hname) (valid_of_readAttributeValue hvalue) hadd

theorem written_named (h : IsName name) : (Element.named (.ofString name)).Written where
  name := by
    rw [Element.named, QName.text_ofString]
    exact h
  plain := by rw [Element.named, QName.text_ofString]
  unresolved := rfl
  bindings := nofun
  attributes := nofun
  distinct := .nil

theorem written_readTag (h : c.readTag = .ok (tag, d)) : tag.Written := by
  obtain ⟨e, -, h⟩ := bind_eq_ok.1 h
  obtain ⟨⟨name, f⟩, hname, h⟩ := bind_eq_ok.1 h
  obtain ⟨⟨written, g⟩, hwhile, h⟩ := bind_eq_ok.1 h
  cases h
  exact readWhile_keeps (fun _ _ _ _ h read => written_readAttribute h read)
    (written_named (isName_of_readName hname)) hwhile

/-! ## What is written -/

/-- What comes after the attributes of a tag. -/
def EndsTag (rest : List Char) : Prop := ['>'] <+: rest ∨ ['/', '>'] <+: rest

theorem seesTagEnd_iff : c.seesTagEnd = true ↔ EndsTag c.rest := by
  rw [seesTagEnd, Bool.or_eq_true, sees_iff, sees_iff]
  rfl

theorem rest_skipBlanks_of_ends (h : EndsTag c.rest) : c.skipBlanks.rest = c.rest := by
  refine rest_skipBlanks_of_not_blank fun ch hch => ?_
  rcases h with ⟨more, e⟩ | ⟨more, e⟩
  · rw [← e] at hch
    cases hch
    decide
  · rw [← e] at hch
    cases hch
    decide

theorem passes_expectEquals : Passes expectEquals ('=' :: '"' :: rest) ('"' :: rest) := by
  intro c hc
  have here : c.skipBlanks.rest = '=' :: '"' :: rest := by
    rw [rest_skipBlanks_of_not_blank (by rw [hc]; rintro _ ⟨⟩; decide), hc]
  obtain ⟨d, passed, hd⟩ := passes_expect c.skipBlanks here
  refine ⟨d.skipBlanks, bind_eq_ok.2 ⟨d, passed, rfl⟩, ?_⟩
  rw [rest_skipBlanks_of_not_blank (by rw [hd]; rintro _ ⟨⟩; decide), hd]

/-- An attribute as it stands in a tag. -/
def spelling (name value : String) : List Char := ' ' :: name.toList ++ '=' :: quoted value

theorem write_binding (b : Binding) : b.write = spelling b.label b.uri := by
  cases e : b.qualifier <;> rw [Binding.write, Binding.label, e] <;> rfl

theorem write_attribute (a : Attribute) : a.write = spelling a.name.text a.value := rfl

/-- Characters that names have. -/
def NameChars (s : String) : Prop := ∀ ch ∈ s.toList, isNameChar ch = true

/-- Behind the blank before it the name of an attribute begins. -/
theorem rest_skipBlanks_spelling (chars : NameChars name) (hc : c.rest = spelling name value ++ rest) :
    c.skipBlanks.rest = name.toList ++ ('=' :: (quoted value ++ rest)) := by
  rw [rest_skipBlanks, hc, spelling]
  simp only [List.cons_append, List.append_assoc]
  rw [List.dropWhile_cons_of_pos (by decide)]
  cases e : name.toList with
  | nil => exact List.dropWhile_cons_of_neg (by decide)
  | cons first more =>
    have solid := not_blank_of_isNameChar (chars first (e ▸ List.mem_cons_self))
    exact List.dropWhile_cons_of_neg (by simp [solid])

theorem takes_readAttribute (hname : IsName name) (hvalue : Valid value.toList)
    (added : ∀ c, addAttribute tag name value c = .ok tag') :
    Takes (readAttribute tag) (spelling name value ++ rest) tag' rest := by
  intro c hc
  have blank : c.peek?.any isBlank = true := by
    rw [peek?, hc]
    rfl
  rw [readAttribute, blank]
  refine (takes_readName hname ?_).bind (passes_expectEquals.bind
    ((takes_readAttributeValue hvalue).bind fun c hc => ⟨c, ?_, hc⟩)) c.skipBlanks
      (rest_skipBlanks_spelling hname.chars hc)
  · rintro _ ⟨⟩
    decide
  · exact bind_eq_ok.2 ⟨tag', added c, rfl⟩

theorem add_binding {b : Binding} (h : b.Written) (c : Cursor) :
    addAttribute tag b.label b.uri c = .ok { tag with bindings := tag.bindings ++ [b] } := by
  obtain ⟨_ | qualifier, uri⟩ := b
  · exact if_pos rfl
  · have label : (Binding.mk (some qualifier) uri).label.toList = "xmlns:".toList ++ qualifier.toList := by
      rw [Binding.label, String.toList_append]
    have proper : (Binding.mk (some qualifier) uri).label ≠ "xmlns" := by
      intro e
      rw [e] at label
      have lengths := congrArg List.length label
      rw [List.length_append] at lengths
      have : "xmlns".toList.length = 5 := rfl
      have : "xmlns:".toList.length = 6 := rfl
      omega
    rw [addAttribute, if_neg proper, List.isPrefixOf?_eq_some_iff_append_eq.mpr label.symm]
    dsimp only
    rw [h.bound rfl, String.ofList_toList]
    rfl

theorem add_attribute {a : Attribute} (h : a.Written)
    (new : ∀ earlier ∈ tag.attributes, earlier.name.text ≠ a.name.text) (c : Cursor) :
    addAttribute tag a.name.text a.value c = .ok { tag with attributes := tag.attributes ++ [a] } := by
  have free : tag.attributes.any (·.answersTo a.name.text) = false := by
    rw [List.any_eq_false]
    intro earlier hearlier
    rw [Attribute.answersTo, beq_iff_eq]
    exact new earlier hearlier
  rw [addAttribute, if_neg h.proper, h.unbound]
  dsimp only
  rw [free, ← h.plain]
  rfl

/-- Where an attribute comes next, the tag goes on. -/
theorem goes_on (chars : NameChars name) (hc : c.rest = spelling name value ++ rest) :
    (!c.skipBlanks.seesTagEnd) = true := by
  rw [Bool.not_eq_true', Bool.eq_false_iff, Ne, seesTagEnd_iff, rest_skipBlanks_spelling chars hc]
  cases e : name.toList with
  | nil =>
    rintro (⟨more, e⟩ | ⟨more, e⟩)
    · exact absurd (List.cons.inj e).1 (by decide)
    · exact absurd (List.cons.inj e).1 (by decide)
  | cons first more =>
    have char := chars first (e ▸ List.mem_cons_self)
    rintro (⟨more, e⟩ | ⟨more, e⟩)
    · rw [← (List.cons.inj e).1] at char
      exact absurd char (by decide)
    · rw [← (List.cons.inj e).1] at char
      exact absurd char (by decide)

section

variable {tag result : Element} {input tail : List Char}

/-- The repetition that reads the attributes of a tag. -/
abbrev readAttributes : Element → Cursor → Except Fault (Element × Cursor) :=
  readWhile (fun c => !c.skipBlanks.seesTagEnd) readAttribute advances_readAttribute

theorem takes_bindings {bindings : List Binding} (h : ∀ b ∈ bindings, b.Written)
    (others : Takes (readAttributes { tag with bindings := tag.bindings ++ bindings }) input result tail) :
    Takes (readAttributes tag) (bindings.flatMap Binding.write ++ input) result tail := by
  induction bindings generalizing tag with
  | nil => simpa using others
  | cons b bindings ih =>
    rw [List.forall_mem_cons] at h
    rw [List.flatMap_cons, List.append_assoc, write_binding]
    refine takes_more (fun c hc => goes_on h.1.name.chars hc)
      (takes_readAttribute h.1.name h.1.value (add_binding h.1)) (ih h.2 ?_)
    simpa using others

theorem takes_attributes {attributes : List Attribute} (h : ∀ a ∈ attributes, a.Written)
    (distinct : (tag.attributes ++ attributes).Pairwise fun a b => a.name.text ≠ b.name.text)
    (others : Takes (readAttributes { tag with attributes := tag.attributes ++ attributes }) input
      result tail) :
    Takes (readAttributes tag) (attributes.flatMap Attribute.write ++ input) result tail := by
  induction attributes generalizing tag with
  | nil => simpa using others
  | cons a attributes ih =>
    rw [List.forall_mem_cons] at h
    rw [List.flatMap_cons, List.append_assoc, write_attribute]
    have new := (List.pairwise_append.mp distinct).2.2
    refine takes_more (fun c hc => goes_on h.1.name.chars hc)
      (takes_readAttribute h.1.name h.1.value
        (add_attribute h.1 fun earlier he => new earlier he a List.mem_cons_self)) (ih h.2 ?_ ?_)
    · simpa using distinct
    · simpa using others

end

/-- The name of a tag ends where its attributes begin, or it closes. -/
theorem ends_name (ends : EndsTag rest) : ∀ ch ∈ (tag.bindings.flatMap Binding.write ++
    (tag.attributes.flatMap Attribute.write ++ rest)).head?, isNameChar ch = false := by
  intro ch hch
  cases hb : tag.bindings with
  | cons b bindings =>
    rw [hb, List.flatMap_cons, write_binding] at hch
    cases hch
    decide
  | nil =>
    cases ha : tag.attributes with
    | cons a attributes =>
      rw [hb, ha, List.flatMap_nil, List.flatMap_cons, write_attribute] at hch
      cases hch
      decide
    | nil =>
      rw [hb, ha] at hch
      rcases ends with ⟨more, e⟩ | ⟨more, e⟩
      · rw [← e] at hch
        cases hch
        decide
      · rw [← e] at hch
        cases hch
        decide

/-- A tag is read back from what is written for it, up to its closing bracket. -/
theorem takes_readTag (h : tag.Written) (ends : EndsTag rest) :
    Takes readTag (tag.write ++ rest) tag rest := by
  have shape : tag.write ++ rest = '<' :: (tag.name.text.toList ++
      (tag.bindings.flatMap Binding.write ++ (tag.attributes.flatMap Attribute.write ++ rest))) := by
    rw [Element.write]
    simp only [List.cons_append, List.append_assoc]
  have last : Takes (readAttributes tag) rest tag rest := takes_done fun c hc => by
    have closed : c.skipBlanks.seesTagEnd = true := by
      rw [seesTagEnd_iff, rest_skipBlanks_of_ends (hc ▸ ends), hc]
      exact ends
    rw [closed]
    rfl
  have own : Element.named (.ofString tag.name.text) = { tag with bindings := [], attributes := [] } := by
    rw [Element.named, ← h.plain, ← h.unresolved]
  rw [shape]
  refine passes_expect.bind ((takes_readName h.name (ends_name ends)).bind ?_)
  dsimp only
  rw [own]
  refine Takes.bind (takes_bindings h.bindings (takes_attributes h.attributes h.distinct last)) ?_
  exact Takes.finish fun c hc => by rw [rest_skipBlanks_of_ends (hc ▸ ends), hc]

end Cursor

namespace Scope

/-- Names are resolved apart from how they are written. -/
theorem write_resolveTag (scope : Scope) (tag : Element) : (scope.resolveTag tag).write = tag.write := by
  rw [Element.write, Element.write, resolveTag, List.flatMap_map]
  rfl

end Scope

end XmlStore
