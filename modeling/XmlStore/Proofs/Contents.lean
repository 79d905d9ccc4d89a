/-
Contents that are read back. What is read as the content of an element has no
two texts side by side, is nested no deeper than allowed, and its tags are
resolved in their scopes; from what is written for it the same is read again.
-/
import XmlStore.Markup.Bound
import XmlStore.Proofs.Tags

namespace XmlStore

open Cursor (Valid Takes Passes Reread)

variable {options : ReadOptions} {depth : Nat} {scope : Scope} {p q : Progress}
variable {content : Content} {children rest f : Forest Content}

/-- Content of an element at a depth and in a scope as it may be read. The flag says whether a text
stands before it. -/
inductive Readable (options : ReadOptions) : Nat → Scope → Bool → Forest Content → Prop where
  | nil {depth : Nat} {scope : Scope} {afterText : Bool} : Readable options depth scope afterText .nil
  | text {depth : Nat} {scope : Scope} {s : String} {rest : Forest Content} (filled : s.toList ≠ [])
      (valid : Valid s.toList) (others : Readable options depth scope true rest) :
      Readable options depth scope false (.cons (.text s) .nil rest)
  | leaf {depth : Nat} {scope : Scope} {afterText : Bool} {content : Content} {rest : Forest Content}
      (reread : Reread content) (others : Readable options depth scope false rest) :
      Readable options depth scope afterText (.cons content .nil rest)
  | element {depth : Nat} {scope : Scope} {afterText : Bool} {tag : Element}
      {children rest : Forest Content} (low : depth + 1 ≤ options.maxDepth) (written : tag.Written)
      (inner : Readable options (depth + 1) (scope.enter tag.bindings) false children)
      (others : Readable options depth scope false rest) :
      Readable options depth scope afterText
        (.cons (.element ((scope.enter tag.bindings).resolveTag tag)) children rest)

/-! ## What is read -/

theorem written_readElement {content : Scope → Progress → Except ReadError (Forest Content × Progress)}
    {tag : Element} (h : readElement options depth scope p content = .ok ((tag, children), q)) :
    depth ≤ options.maxDepth ∧ ∃ written : Element, written.Written ∧
      tag = (scope.enter written.bindings).resolveTag written ∧
      (children = .nil ∨
        ∃ p' q', content (scope.enter written.bindings) p' = .ok (children, q')) := by
  rw [readElement] at h
  split at h
  · cases h
  · rename_i low
    obtain ⟨⟨written, q₁⟩, htag, h⟩ := bind_eq_ok.1 h
    refine ⟨Nat.not_lt.mp low, written, Cursor.written_readTag (Progress.read_eq_ok htag), ?_⟩
    dsimp only at h
    split at h
    · cases h
      exact ⟨rfl, .inl rfl⟩
    · obtain ⟨q₂, -, h⟩ := bind_eq_ok.1 h
      obtain ⟨⟨forest, q₃⟩, hcontent, h⟩ := bind_eq_ok.1 h
      obtain ⟨q₄, -, h⟩ := bind_eq_ok.1 h
      cases h
      exact ⟨rfl, .inr ⟨_, _, hcontent⟩⟩

theorem reread_of_readAside {c d : Cursor} (h : c.readAside = .ok (content, d)) : Reread content := by
  rw [Cursor.readAside] at h
  split at h
  · exact Cursor.reread_of_readComment h
  · exact Cursor.reread_of_readInstruction h

/-- Texts begin and end at the same kind of place. -/
theorem beginning_eq_characters {c : Cursor} :
    c.beginning = .characters ↔ (c.atEnd || c.sees ['<']) = false := by
  rw [Cursor.beginning]
  cases ended : c.atEnd with
  | true => simp
  | false =>
    cases opens : c.sees ['<'] with
    | true =>
      simp only [Bool.or_true, Bool.true_eq_false, iff_false]
      repeat' split
      all_goals simp_all
    | false =>
      have unseen {word : List Char} (begins : ['<'] <+: word) : c.sees word = false := by
        refine Cursor.sees_eq_false fun found => ?_
        rw [Cursor.sees_iff.mpr (begins.trans found)] at opens
        cases opens
      rw [Cursor.seesAside, unseen (by decide), unseen (by decide), unseen (by decide),
        unseen (by decide)]
      simp

/-- A text ends where no text begins. -/
theorem beginning_behind_text {c d : Cursor} {s : String} (h : c.readText = .ok (s, d)) :
    d.beginning ≠ .characters := by
  have stops := Cursor.closes_of_collected (Cursor.collected_readUntil h)
  rw [Ne, beginning_eq_characters, stops]
  decide

theorem filled_readText {c d : Cursor} {s : String} (here : c.beginning = .characters)
    (h : c.readText = .ok (s, d)) : s.toList ≠ [] := by
  intro none
  have collected := Cursor.collected_readUntil h
  rw [none] at collected
  cases collected with
  | stop stops =>
    rw [beginning_eq_characters.mp here] at stops
    cases stops

/-- Whatever is read as content is readable again. -/
theorem readable_readContentWithin {size : Nat} {started afterText : Bool}
    (apart : afterText = true → p.cursor.beginning ≠ .characters)
    (h : readContentWithin options size depth scope started p = .ok (f, q)) :
    Readable options depth scope afterText f := by
  induction size generalizing depth scope started afterText p f q with
  | zero => cases h
  | succ size ih =>
    have alone {p : Progress} : false = true → p.cursor.beginning ≠ .characters := nofun
    rw [readContentWithin, readContentBy] at h
    split at h
    · cases h
    · cases h
      exact .nil
    · obtain ⟨⟨content, q₁⟩, hread, h⟩ := bind_eq_ok.1 h
      obtain ⟨⟨rest, q₂⟩, hrest, h⟩ := bind_eq_ok.1 h
      cases h
      exact .leaf (Cursor.reread_of_readCdata (Progress.read_eq_ok hread)) (ih alone hrest)
    · obtain ⟨⟨content, q₁⟩, hread, h⟩ := bind_eq_ok.1 h
      obtain ⟨⟨rest, q₂⟩, hrest, h⟩ := bind_eq_ok.1 h
      cases h
      exact .leaf (reread_of_readAside (Progress.read_eq_ok hread)) (ih alone hrest)
    · obtain ⟨⟨⟨tag, children⟩, q₁⟩, hread, h⟩ := bind_eq_ok.1 h
      obtain ⟨⟨rest, q₂⟩, hrest, h⟩ := bind_eq_ok.1 h
      cases h
      obtain ⟨low, written, hwritten, rfl, inner⟩ := written_readElement hread
      refine .element low hwritten ?_ (ih alone hrest)
      rcases inner with rfl | ⟨p', q', hinner⟩
      · exact .nil
      · exact ih alone hinner
    · rename_i here
      obtain ⟨⟨s, q₁⟩, hread, h⟩ := bind_eq_ok.1 h
      have read := Progress.read_eq_ok hread
      dsimp only at h
      split at h
      · exact ih (fun _ => beginning_behind_text read) h
      · obtain ⟨⟨rest, q₂⟩, hrest, h⟩ := bind_eq_ok.1 h
        cases h
        obtain rfl : afterText = false := Bool.eq_false_iff.mpr fun after => apart after here
        exact .text (filled_readText here read) (Cursor.valid_of_readText read)
          (ih (fun _ => beginning_behind_text read) hrest)

/-! ## What is written -/

/-- What is written for a node without children other than a text, and `after` behind it. -/
def writeLeaf (content : Content) (after : List Char) : List Char :=
  match content with
  | .cdata s => "<![CDATA[".toList ++ (s.toList ++ ("]]>".toList ++ after))
  | .comment s => "<!--".toList ++ (s.toList ++ ("-->".toList ++ after))
  | .instruction target data =>
    "<?".toList ++ (target.toList ++ ((data.elim [] fun d => ' ' :: d.toList) ++
      ("?>".toList ++ after)))
  | _ => after

/-- What is written between the tags of an element, and `after` behind it. -/
def WriteOptions.writeInside (o : WriteOptions) (level : Nat) (children : Forest Content) (after : List Char) :
    List Char :=
  if o.childLayout children = .block then
    '\n' :: o.writeForest .block (level + 1) children (o.pad level ++ after)
  else o.writeForest .inline (level + 1) children after

/-- What is written for an element, and `after` behind it. -/
def WriteOptions.writeElement (o : WriteOptions) (level : Nat) (tag : Element) (children : Forest Content)
    (after : List Char) : List Char :=
  if children.isEmpty then tag.write ++ ("/>".toList ++ after)
  else tag.write ++ '>' :: o.writeInside level children ("</".toList ++ (tag.name.text.toList ++ '>' :: after))

section

variable {o : WriteOptions} {layout : Layout} {level : Nat} {after : List Char}

theorem inline_flat : Layout.inline ≠ .block := nofun

theorem lines_flat : Layout.lines ≠ .block := nofun

theorem before_flat (flat : layout ≠ .block) : o.before layout level content = [] := by
  cases content <;> first | rfl | exact if_neg flat

theorem writeInside_plain (plain : o.indent = false) :
    o.writeInside level children after = o.writeForest .inline (level + 1) children after := by
  refine if_neg ?_
  rw [WriteOptions.childLayout, plain]
  exact nofun

/-- Other nodes than texts are written in every layout. -/
theorem shown (other : content.isText = false) : ¬ (layout = .block && content.isText) = true := by
  simp [other]

theorem write_leaf (reread : Reread content) :
    o.writeForest layout level (.cons content children rest) after = o.before layout level content ++
      writeLeaf content (layout.after ++ o.writeForest layout level rest after) := by
  have other : content.isText = false := by cases reread <;> rfl
  rw [WriteOptions.writeForest, if_neg (shown other)]
  cases reread <;> dsimp only [writeLeaf]

theorem write_text {s : String} :
    o.writeForest .inline level (.cons (.text s) children rest) after =
      escapeText s ++ o.writeForest .inline level rest after := by
  have shown : ¬ (Layout.inline = .block && Content.isText (.text s)) = true := by simp
  rw [WriteOptions.writeForest, if_neg shown, before_flat (by decide)]
  rfl

/-- In a block no text is written. -/
theorem write_hidden {s : String} :
    o.writeForest .block level (.cons (.text s) children rest) after = o.writeForest .block level rest after := by
  rw [WriteOptions.writeForest]
  exact if_pos rfl

theorem write_element {tag : Element} :
    o.writeForest layout level (.cons (.element tag) children rest) after =
      o.before layout level (.element tag) ++
        o.writeElement level tag children (layout.after ++ o.writeForest layout level rest after) := by
  rw [WriteOptions.writeForest, if_neg (shown rfl), WriteOptions.writeElement, WriteOptions.writeInside]
  dsimp only
  by_cases block : o.childLayout children = .block
  · rw [block]
    rfl
  · have inline : o.childLayout children = .inline := by
      rw [WriteOptions.childLayout] at block ⊢
      exact if_neg fun yes => block (if_pos yes)
    rw [inline]
    rfl

end

end XmlStore
