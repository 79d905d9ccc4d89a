/-
How deep elements may be nested. Reading keeps count of the elements that are
open; a reading that may go less deep succeeds exactly where one that may go
deeper succeeds and has gone no deeper, and then both read the same.
-/
import XmlStore.Proofs.Contents
import XmlStore.Proofs.Copies

namespace XmlStore

/-! ## Depths in a forest -/

/-- No element is deeper than `limit`, when the trees themselves are at `depth`. -/
def Forest.Within (limit depth : Nat) (f : Forest Content) : Prop :=
  ∀ entry ∈ f.withDepth depth, entry.2.isElement = true → entry.1 ≤ limit

namespace Forest.Within

variable {limit depth : Nat} {content : Content} {children rest f g : Forest Content}

@[simp] theorem nil : Forest.Within limit depth .nil := fun _ member => nomatch member

theorem cons_iff : (Forest.cons content children rest).Within limit depth ↔
    (content.isElement = true → depth ≤ limit) ∧ children.Within limit (depth + 1) ∧
      rest.Within limit depth := by
  rw [Within, withDepth, List.forall_mem_cons, List.forall_mem_append]
  rfl

theorem append_iff : (f ++ g).Within limit depth ↔ f.Within limit depth ∧ g.Within limit depth := by
  change (f.append g).Within limit depth ↔ _
  induction f with
  | nil => simp [append]
  | cons content children rest _ ih => simp only [append, cons_iff, ih, and_assoc]

/-- What stands beside an element that is not too deep is not too deep either. -/
theorem leaves (deep : depth ≤ limit) (contents : List Content) :
    (XmlStore.leaves contents).Within limit depth := by
  induction contents with
  | nil => exact nil
  | cons content rest ih => exact cons_iff.mpr ⟨fun _ => deep, nil, ih⟩

end Forest.Within

/-! ## Two readings side by side -/

/-- The first computation succeeds exactly if the second one does with a result that is `fine`, and
then with the same result. -/
structure Narrows {ε α : Type} (fine : α → Prop) (x y : Except ε α) : Prop where
  eq_ok_iff : ∀ a, x = .ok a ↔ y = .ok a ∧ fine a

namespace Narrows

variable {ε α β : Type} {fine : α → Prop} {fineLater : β → Prop}
variable {x y : Except ε α} {f g : α → Except ε β} {a : α} {e e' : ε}

theorem ok (holds : fine a) : Narrows fine (.ok a : Except ε α) (.ok a) := by
  refine ⟨fun b => ⟨fun same => ⟨same, ?_⟩, And.left⟩⟩
  rwa [← Except.ok.inj same]

theorem error : Narrows fine (.error e : Except ε α) (.error e') := ⟨by simp⟩

/-- The first one refuses only what is not fine. -/
theorem refused (never : ∀ a, y = .ok a → ¬ fine a) : Narrows fine (.error e) y :=
  ⟨by simpa using never⟩

theorem refl (always : ∀ a, x = .ok a → fine a) : Narrows fine x x :=
  ⟨fun a => ⟨fun read => ⟨read, always a read⟩, And.left⟩⟩

/-- Both decide alike. -/
theorem ite {c : Prop} [Decidable c] {x' y' : Except ε α} (first : Narrows fine x y)
    (second : Narrows fine x' y') : Narrows fine (if c then x else x') (if c then y else y') := by
  split
  · exact first
  · exact second

/-- Both begin with the same step. -/
theorem after (second : ∀ a, x = .ok a → Narrows fineLater (f a) (g a)) :
    Narrows fineLater (x >>= f) (x >>= g) := by
  cases x with
  | error e => exact error
  | ok a => exact second a rfl

/-- A result can only be fine if that of the first step was. -/
theorem bind (first : Narrows fine x y)
    (second : ∀ a, fine a → Narrows fineLater (f a) (g a))
    (back : ∀ a b, g a = .ok b → fineLater b → fine a) :
    Narrows fineLater (x >>= f) (y >>= g) := by
  refine ⟨fun b => ?_⟩
  rw [bind_eq_ok, bind_eq_ok]
  constructor
  · intro ⟨a, read, later⟩
    have ⟨read', holds⟩ := (first.eq_ok_iff a).mp read
    have ⟨later', holds'⟩ := ((second a holds).eq_ok_iff b).mp later
    exact ⟨⟨a, read', later'⟩, holds'⟩
  · intro ⟨⟨a, read, later⟩, holds'⟩
    have holds := back a b later holds'
    exact ⟨a, (first.eq_ok_iff a).mpr ⟨read, holds⟩,
      ((second a holds).eq_ok_iff b).mpr ⟨later, holds'⟩⟩

end Narrows

/-! ## Readers -/

variable {noBlanks : Bool} {limit greater : Nat}

/-- An element at a depth with what it holds. -/
abbrev ElementFits (limit depth : Nat) (result : (Element × Forest Content) × Progress) : Prop :=
  depth ≤ limit ∧ result.1.2.Within limit (depth + 1)

/-- What an element at a depth holds. -/
abbrev ContentFits (limit depth : Nat) (result : Forest Content × Progress) : Prop :=
  result.1.Within limit (depth + 1)

theorem narrows_readElement (most : limit ≤ greater) (depth : Nat) (scope : Scope) (p : Progress)
    {content content' : Scope → Progress → Except ReadError (Forest Content × Progress)}
    (narrows : ∀ scope p, Narrows (ContentFits limit depth) (content scope p) (content' scope p)) :
    Narrows (ElementFits limit depth) (readElement ⟨noBlanks, limit⟩ depth scope p content)
      (readElement ⟨noBlanks, greater⟩ depth scope p content') := by
  unfold readElement
  dsimp only
  by_cases deep : depth > limit
  · rw [if_pos deep]
    exact .refused fun _ _ fits => Nat.not_le_of_gt deep fits.1
  · have fits : depth ≤ limit := Nat.le_of_not_lt deep
    rw [if_neg deep, if_neg (by omega)]
    refine .after fun ⟨tag, q⟩ _ => ?_
    dsimp only
    split
    · exact .ok ⟨fits, .nil⟩
    · refine .after fun r _ => .bind (narrows _ r) (fun ⟨children, r'⟩ inside => ?_) ?_
      · exact .refl fun result ended => by
          obtain ⟨_, _, ended⟩ := bind_eq_ok.mp ended
          cases ended
          exact ⟨fits, inside⟩
      · intro ⟨children, r'⟩ result ended holds
        obtain ⟨_, _, ended⟩ := bind_eq_ok.mp ended
        cases ended
        exact holds.2

section

variable {depth : Nat} {again again' : Except ReadError (Forest Content × Progress)}

/-- A node in front of what is read next. -/
theorem narrows_before (content : Content) (children : Forest Content)
    (narrows : Narrows (ContentFits limit depth) again again')
    (fits : content.isElement = true → depth + 1 ≤ limit)
    (inside : children.Within limit (depth + 1 + 1)) :
    Narrows (ContentFits limit depth)
      (do let (rest, q) ← again; return (.cons content children rest, q))
      (do let (rest, q) ← again'; return (.cons content children rest, q)) := by
  refine narrows.bind (fun _ later => .ok ?_) fun _ _ same holds => ?_
  · exact Forest.Within.cons_iff.mpr ⟨fits, inside, later⟩
  · cases same
    exact (Forest.Within.cons_iff.mp holds).2.2

end

theorem isElement_of_reread {content : Content} (reread : Cursor.Reread content) :
    content.isElement = false := by
  cases reread <;> rfl

theorem narrows_readContentBy (most : limit ≤ greater) {again again' : ContentReader}
    (narrows : ∀ depth scope started p,
      Narrows (ContentFits limit depth) (again depth scope started p) (again' depth scope started p))
    (depth : Nat) (scope : Scope) (started : Bool) (p : Progress) :
    Narrows (ContentFits limit depth)
      (readContentBy ⟨noBlanks, limit⟩ again depth scope started p)
      (readContentBy ⟨noBlanks, greater⟩ again' depth scope started p) := by
  have leaf {content : Content} (q : Progress) (other : content.isElement = false) :=
    narrows_before content .nil (narrows depth scope true q) (by simp [other]) .nil
  unfold readContentBy
  cases p.cursor.beginning with
  | nothing => exact .error
  | endTag => exact .ok .nil
  | cdata =>
    refine .after fun ⟨content, q⟩ read => leaf q ?_
    exact isElement_of_reread (Cursor.reread_of_readCdata (Progress.read_eq_ok read))
  | aside =>
    refine .after fun ⟨content, q⟩ read => leaf q ?_
    exact isElement_of_reread (reread_of_readAside (Progress.read_eq_ok read))
  | startTag =>
    refine .bind (narrows_readElement most (depth + 1) scope p fun scope p => narrows ..) ?_ ?_
    · intro ⟨⟨tag, children⟩, q⟩ fits
      exact narrows_before _ children (narrows ..) (fun _ => fits.1) fits.2
    · intro ⟨⟨tag, children⟩, q⟩ result later holds
      obtain ⟨_, _, same⟩ := bind_eq_ok.mp later
      cases same
      obtain ⟨fits, inside, _⟩ := Forest.Within.cons_iff.mp holds
      exact ⟨fits rfl, inside⟩
  | characters =>
    refine .after fun ⟨text, q⟩ _ => ?_
    exact .ite (narrows ..) (leaf q rfl)

theorem narrows_readContentWithin (most : limit ≤ greater) (size : Nat) :
    ∀ depth scope started p, Narrows (ContentFits limit depth)
      (readContentWithin ⟨noBlanks, limit⟩ size depth scope started p)
      (readContentWithin ⟨noBlanks, greater⟩ size depth scope started p) := by
  induction size with
  | zero => exact fun _ _ _ _ => .error
  | succ size ih => exact narrows_readContentBy most ih

/-! ## Documents -/

theorem narrows_readDocument (most : limit ≤ greater) (c : Cursor) :
    Narrows (fun m => m.nodes.Within limit 1) (readDocument ⟨noBlanks, limit⟩ c)
      (readDocument ⟨noBlanks, greater⟩ c) := by
  unfold readDocument
  refine .after fun ⟨declaration, p⟩ _ => .after fun ⟨before, p⟩ _ => .after fun ⟨typed, p⟩ _ => ?_
  dsimp only
  split
  · exact .error
  · refine .bind (narrows_readElement most 1 .initial p fun scope p =>
      narrows_readContentWithin most (p.cursor.remaining + 1) 1 scope false p) ?_ ?_
    · intro ⟨⟨tag, children⟩, q⟩ fits
      refine .after fun ⟨after, r⟩ _ => ?_
      dsimp only
      split
      · exact .error
      · refine .ok (Forest.Within.append_iff.mpr ⟨.leaves fits.1 _, ?_⟩)
        exact Forest.Within.cons_iff.mpr ⟨fun _ => fits.1, fits.2, .leaves fits.1 _⟩
    · intro ⟨⟨tag, children⟩, q⟩ m later holds
      obtain ⟨⟨after, r⟩, _, later⟩ := bind_eq_ok.mp later
      dsimp only at later
      split at later
      · cases later
      · cases later
        obtain ⟨fits, inside, _⟩ := Forest.Within.cons_iff.mp (Forest.Within.append_iff.mp holds).2
        exact ⟨fits rfl, inside⟩

/--
A bound on the nesting refuses exactly the texts whose elements are nested deeper, whatever
greater bound they are read under otherwise, and changes nothing else. The root element is at depth
one.
-/
theorem Document.ofString_eq_ok_iff_within (noBlanks : Bool) {limit greater : Nat}
    (most : limit ≤ greater) (s : String) (d : Document) :
    Document.ofString ⟨noBlanks, limit⟩ s = .ok d ↔
      Document.ofString ⟨noBlanks, greater⟩ s = .ok d ∧
        ∀ depth content, (depth, content) ∈ (d.contents Document.root).withDepth 1 →
          content.isElement = true → depth ≤ limit := by
  have within (m : Markup) : m.nodes.Within limit 1 ↔
      ∀ depth content, (depth, content) ∈ ((ofMarkup m).contents root).withDepth 1 →
        content.isElement = true → depth ≤ limit := by
    rw [contents_ofMarkup, Forest.Within]
    exact Prod.forall
  have narrows (m : Markup) : Markup.ofString ⟨noBlanks, limit⟩ s = .ok m ↔
      Markup.ofString ⟨noBlanks, greater⟩ s = .ok m ∧ m.nodes.Within limit 1 :=
    (narrows_readDocument most _).eq_ok_iff m
  rw [ofString_ok, ofString_ok]
  constructor
  · intro ⟨m, read, made⟩
    obtain ⟨read, shallow⟩ := (narrows m).mp read
    exact ⟨⟨m, read, made⟩, made ▸ (within m).mp shallow⟩
  · intro ⟨⟨m, read, made⟩, shallow⟩
    exact ⟨m, (narrows m).mpr ⟨read, (within m).mpr (made ▸ shallow)⟩, made⟩

theorem Document.ofString_eq_ok_iff_within_two : 2 ≤ 0xFFFFFFFF ∧
    ∃ d, Document.ofString ⟨false, 0xFFFFFFFF⟩ "<a><b/>x<c/></a>" = .ok d ∧
      Document.ofString ⟨false, 2⟩ "<a><b/>x<c/></a>" = .ok d ∧
      Document.ofString ⟨false, 1⟩ "<a><b/>x<c/></a>" ≠ .ok d := by
  let tag (name : String) : Content := .element (.named ⟨none, name⟩)
  let m : Markup := ⟨.absent, .tree (tag "a")
    (.cons (tag "b") .nil (.cons (.text "x") .nil (.tree (tag "c") .nil))), []⟩
  have parsed : Markup.ofString ⟨false, 0xFFFFFFFF⟩ "<a><b/>x<c/></a>" = .ok m := by decide +kernel
  have read := ofString_ok.mpr ⟨m, parsed, rfl⟩
  have depths : ((ofMarkup m).contents root).withDepth 1 =
      [(1, tag "a"), (2, tag "b"), (2, .text "x"), (2, tag "c")] := by
    rw [contents_ofMarkup]
    rfl
  refine ⟨by decide, ofMarkup m, read, ?_, fun refused => ?_⟩
  · have shallow : ∀ entry ∈ ((ofMarkup m).contents root).withDepth 1, entry.1 ≤ 2 := by
      simp [depths]
    exact (ofString_eq_ok_iff_within false (by decide) _ _).mpr
      ⟨read, fun depth content member _ => shallow (depth, content) member⟩
  · have most : 1 ≤ 0xFFFFFFFF := by decide
    have shallow := ((ofString_eq_ok_iff_within false most _ _).mp refused).2
    exact absurd (shallow 2 (tag "b") (by simp [depths]) rfl) (by decide)

end XmlStore
