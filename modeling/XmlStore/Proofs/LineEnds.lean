/-
Line ends do not matter. A text, and the same text with a line feed for every
line end, are read side by side: at every place both readings fail, or both
take the same and stand at places that correspond. So both texts are refused,
or both give documents with the same nodes. Only literals, in which nothing is
replaced, keep their line ends: those of the XML declaration and those of a
document type.
-/
import XmlStore.Proofs.Reparse

namespace XmlStore

/-! ## Line feeds -/

/-- A line feed for every line end: for a carriage return with the line feed behind it, or for one alone. -/
def lineFeeds : List Char → List Char
  | [] => []
  | '\r' :: '\n' :: rest => '\n' :: lineFeeds rest
  | '\r' :: rest => '\n' :: lineFeeds rest
  | ch :: rest => ch :: lineFeeds rest

def withLineFeeds (s : String) : String := String.ofList (lineFeeds s.toList)

/-- A document type with its identifiers' line ends as line feeds. -/
def Content.withLineFeeds : Content → Content
  | doctype name systemId publicId =>
    doctype name (systemId.map XmlStore.withLineFeeds) (publicId.map XmlStore.withLineFeeds)
  | content => content

def Declaration.withLineFeeds (d : Declaration) : Declaration :=
  { d with version := d.version.map XmlStore.withLineFeeds, encoding := d.encoding.map XmlStore.withLineFeeds }

/-- The trees of a forest but for document types. -/
def Forest.untyped : Forest Content → Forest Content
  | nil => nil
  | cons (.doctype ..) _ rest => rest.untyped
  | cons content children rest => cons content children rest.untyped

variable {cs rest word : List Char} {ch : Char} {s : String}

theorem lineFeeds_cons (other : ch ≠ '\r') : lineFeeds (ch :: rest) = ch :: lineFeeds rest := by
  rw [lineFeeds]
  · rintro _ rfl _
    exact other rfl
  · exact other

theorem length_lineFeeds_le (cs : List Char) : (lineFeeds cs).length ≤ cs.length := by
  fun_induction lineFeeds cs with
  | case1 => exact Nat.le_refl 0
  | case2 rest ih => exact Nat.le_succ_of_le (Nat.succ_le_succ ih)
  | case3 rest _ ih => exact Nat.succ_le_succ ih
  | case4 ch rest _ _ ih => exact Nat.succ_le_succ ih

/-- A class of characters that tells no line end from another. -/
def Neutral (p : Char → Bool) : Prop := p '\r' = p '\n'

instance {p : Char → Bool} : Decidable (Neutral p) := inferInstanceAs (Decidable (p '\r' = p '\n'))

theorem takeWhile_lineFeeds {p : Char → Bool} (neutral : Neutral p) (cs : List Char) :
    (lineFeeds cs).takeWhile p = lineFeeds (cs.takeWhile p) := by
  fun_induction lineFeeds cs with
  | case1 => rfl
  | case2 rest ih =>
    cases taken : p '\n' with
    | true => simp [neutral.trans taken, taken, ih, lineFeeds]
    | false => simp [neutral.trans taken, taken, lineFeeds]
  | case3 rest alone ih =>
    cases taken : p '\n' with
    | true =>
      -- What is taken behind the carriage return begins with a line feed only if the rest does.
      have alone' : ∀ more, rest.takeWhile p = '\n' :: more → False := by
        intro more begins
        cases rest with
        | nil => cases begins
        | cons first rest =>
          rw [List.takeWhile_cons] at begins
          split at begins
          · exact alone rest (congrArg (· :: rest) (List.cons.inj begins).1)
          · cases begins
      simp [neutral.trans taken, taken, ih, lineFeeds]
    | false => simp [neutral.trans taken, taken, lineFeeds]
  | case4 ch rest _ other ih =>
    cases taken : p ch with
    | true => simp [taken, ih, lineFeeds_cons other]
    | false => simp [taken, lineFeeds]

theorem dropWhile_lineFeeds {p : Char → Bool} (neutral : Neutral p) (cs : List Char) :
    (lineFeeds cs).dropWhile p = lineFeeds (cs.dropWhile p) := by
  fun_induction lineFeeds cs with
  | case1 => rfl
  | case2 rest ih =>
    cases taken : p '\n' with
    | true => simp [neutral.trans taken, taken, ih]
    | false => simp [neutral.trans taken, taken, lineFeeds]
  | case3 rest alone ih =>
    cases taken : p '\n' with
    | true => simp [neutral.trans taken, taken, ih]
    | false => simp [neutral.trans taken, taken, lineFeeds]
  | case4 ch rest _ other ih =>
    cases taken : p ch with
    | true => simp [taken, ih]
    | false => simp [taken, lineFeeds_cons other]

/-- Whether a character of a class comes first. -/
theorem any_head?_lineFeeds {p : Char → Bool} (neutral : Neutral p) (cs : List Char) :
    (lineFeeds cs).head?.any p = cs.head?.any p := by
  fun_cases lineFeeds cs with
  | case1 => rfl
  | case2 rest => exact neutral.symm
  | case3 rest => exact neutral.symm
  | case4 ch rest => rfl

/-- A word that no line end is part of. -/
def Unbroken (word : List Char) : Prop := ∀ ch ∈ word, ch ≠ '\r' ∧ ch ≠ '\n'

instance : Decidable (Unbroken word) := List.decidableBAll (fun ch => ch ≠ '\r' ∧ ch ≠ '\n') word

theorem lineFeeds_of_unbroken (h : Unbroken word) : lineFeeds (word ++ rest) = word ++ lineFeeds rest := by
  induction word with
  | nil => rfl
  | cons ch word ih =>
    rw [Unbroken, List.forall_mem_cons] at h
    rw [List.cons_append, lineFeeds_cons h.1.1, ih h.2]
    rfl

/-- A word begins a text if it begins the one with line feeds. -/
theorem prefix_lineFeeds (h : Unbroken word) (cs : List Char) : word <+: lineFeeds cs ↔ word <+: cs := by
  induction word generalizing cs with
  | nil => exact iff_of_true List.nil_prefix List.nil_prefix
  | cons first word ih =>
    rw [Unbroken, List.forall_mem_cons] at h
    obtain ⟨⟨noReturn, noFeed⟩, others⟩ := h
    fun_cases lineFeeds cs with
    | case1 => rfl
    | case2 rest => simp [List.cons_prefix_cons, noReturn, noFeed]
    | case3 rest => simp [List.cons_prefix_cons, noReturn, noFeed]
    | case4 ch rest => rw [List.cons_prefix_cons, List.cons_prefix_cons, ih others]

theorem lineFeeds_eq_iff (h : Unbroken word) : lineFeeds cs = word ↔ cs = word := by
  induction word generalizing cs with
  | nil => fun_cases lineFeeds cs <;> simp
  | cons first word ih =>
    rw [Unbroken, List.forall_mem_cons] at h
    obtain ⟨⟨noReturn, noFeed⟩, others⟩ := h
    fun_cases lineFeeds cs with
    | case1 => simp
    | case2 rest => simp [noReturn.symm, noFeed.symm]
    | case3 rest => simp [noReturn.symm, noFeed.symm]
    | case4 ch rest => rw [List.cons_eq_cons, List.cons_eq_cons, ih others]

theorem toList_withLineFeeds (s : String) : (withLineFeeds s).toList = lineFeeds s.toList := String.toList_ofList

theorem withLineFeeds_eq_iff {word : String} (h : Unbroken word.toList) : withLineFeeds s = word ↔ s = word := by
  rw [← String.toList_inj, toList_withLineFeeds, lineFeeds_eq_iff h, String.toList_inj]

/-! ## Two readings -/

/-- Both computations fail, or both succeed with results that go together. -/
def Paired {ε ε' α β : Type} (goes : α → β → Prop) : Except ε α → Except ε' β → Prop
  | .ok a, .ok b => goes a b
  | .error _, .error _ => True
  | _, _ => False

namespace Paired

variable {ε ε' α β α' β' : Type} {goes : α → β → Prop} {goes' : α' → β' → Prop}
variable {x : Except ε α} {y : Except ε' β} {f : α → Except ε α'} {g : β → Except ε' β'}

/-- The second steps need to go together only behind results of the first. -/
theorem bind_ok (first : Paired goes x y) (later : ∀ a b, x = .ok a → goes a b → Paired goes' (f a) (g b)) :
    Paired goes' (x >>= f) (y >>= g) := by
  cases x with
  | error e =>
    cases y with
    | error e' => trivial
    | ok b => exact first.elim
  | ok a =>
    cases y with
    | error e' => exact first.elim
    | ok b => exact later a b rfl first

theorem bind (first : Paired goes x y) (later : ∀ a b, goes a b → Paired goes' (f a) (g b)) :
    Paired goes' (x >>= f) (y >>= g) := first.bind_ok fun a b _ => later a b

theorem cases (h : Paired goes x y) :
    (∃ e e', x = .error e ∧ y = .error e') ∨ ∃ a b, x = .ok a ∧ y = .ok b ∧ goes a b := by
  cases x with
  | error e =>
    cases y with
    | error e' => exact .inl ⟨e, e', rfl, rfl⟩
    | ok b => exact h.elim
  | ok a =>
    cases y with
    | error e' => exact h.elim
    | ok b => exact .inr ⟨a, b, rfl, rfl, h⟩

theorem mapError {φ φ' : Type} {h : ε → φ} {h' : ε' → φ'} (paired : Paired goes x y) :
    Paired goes (x.mapError h) (y.mapError h') := by
  cases x <;> cases y <;> exact paired

end Paired

namespace Cursor

variable {α β : Type} {c d : Cursor}

/-- A cursor and one at the corresponding place of the text with line feeds. -/
def Fed (c d : Cursor) : Prop := d.rest = lineFeeds c.rest

/-- What has been read, and what of the text with line feeds: `view` of it. -/
def FedWith (view : α → β) (r : α × Cursor) (r' : β × Cursor) : Prop := r'.1 = view r.1 ∧ Fed r.2 r'.2

/-- A reader that reads from the text with line feeds what it reads from the text, seen through `view`. -/
def Indifferent (view : α → α) (reader : Cursor → Except Fault (α × Cursor)) : Prop :=
  ∀ ⦃c d⦄, Fed c d → Paired (FedWith view) (reader c) (reader d)

theorem Fed.sees (h : Fed c d) (unbroken : Unbroken word) : d.sees word = c.sees word := by
  rw [Bool.eq_iff_iff, sees_iff, sees_iff, h]
  exact prefix_lineFeeds unbroken c.rest

theorem Fed.atEnd (h : Fed c d) : d.atEnd = c.atEnd := by
  rw [Cursor.atEnd, Cursor.atEnd, h]
  fun_cases lineFeeds c.rest <;> rfl

theorem Fed.peek {p : Char → Bool} (h : Fed c d) (neutral : Neutral p) : d.peek?.any p = c.peek?.any p := by
  rw [peek?, peek?, h]
  exact any_head?_lineFeeds neutral c.rest

theorem Fed.remaining (h : Fed c d) : d.remaining ≤ c.remaining := by
  rw [Cursor.remaining, Cursor.remaining, h]
  exact length_lineFeeds_le c.rest

/-- At the end of the text, at a line end, and at any other character. -/
theorem Fed.begins (h : Fed c d) :
    c.rest = [] ∧ d.rest = [] ∨ (∃ rest more, c.rest = '\r' :: rest ∧ d.rest = '\n' :: more) ∨
      ∃ ch rest, ch ≠ '\r' ∧ c.rest = ch :: rest ∧ d.rest = ch :: lineFeeds rest := by
  rw [Fed] at h
  cases hc : c.rest with
  | nil => exact .inl ⟨rfl, by rw [h, hc]; rfl⟩
  | cons ch rest =>
    rw [hc] at h
    by_cases other : ch = '\r'
    · subst other
      refine .inr (.inl ⟨rest, ?_⟩)
      cases rest with
      | nil => exact ⟨_, rfl, h⟩
      | cons next rest =>
        by_cases feed : next = '\n'
        · subst feed
          exact ⟨_, rfl, h⟩
        · rw [lineFeeds] at h
          · exact ⟨_, rfl, h⟩
          · rintro _ ⟨⟩
            exact feed rfl
    · exact .inr (.inr ⟨ch, rest, other, rfl, by rw [h, lineFeeds_cons other]⟩)

/-- Both pass over a character that ends no line. -/
theorem Fed.next (h : Fed c d) (hc : c.rest = ch :: rest) (other : ch ≠ '\r') : Fed c.next d.next := by
  rw [Fed, hc, lineFeeds_cons other] at h
  rw [Fed, rest_next hc, rest_next h]

theorem Fed.skip (h : Fed c d) (unbroken : Unbroken word) (seen : c.sees word = true) :
    Fed (c.skip word.length) (d.skip word.length) := by
  obtain ⟨more, e⟩ := sees_iff.mp seen
  rw [Fed, ← e, lineFeeds_of_unbroken unbroken] at h
  rw [Fed, rest_skip, rest_skip, h, ← e, List.drop_left, List.drop_left]

theorem neutral_isBlank : Neutral isBlank := rfl

theorem Fed.skipBlanks (h : Fed c d) : Fed c.skipBlanks d.skipBlanks := by
  rw [Fed, rest_skipBlanks, rest_skipBlanks, h]
  exact dropWhile_lineFeeds neutral_isBlank c.rest

/-! ## Readers of characters and words -/

theorem paired_expect {wanted : Char} (other : wanted ≠ '\r' ∧ wanted ≠ '\n') (h : Fed c d) :
    Paired Fed (c.expect wanted) (d.expect wanted) := by
  rw [expect, expect]
  obtain ⟨hc, hd⟩ | ⟨rest, more, hc, hd⟩ | ⟨ch, rest, kept, hc, hd⟩ := h.begins
  · rw [hc, hd]
    trivial
  · rw [hc, hd]
    dsimp only
    rw [if_neg other.1.symm, if_neg other.2.symm]
    trivial
  · rw [hc, hd]
    dsimp only
    split
    · exact h.next hc kept
    · trivial

theorem paired_expectWord {word : String} (unbroken : Unbroken word.toList) (h : Fed c d) :
    Paired Fed (c.expectWord word) (d.expectWord word) := by
  unfold expectWord
  generalize word.toList = chars at unbroken ⊢
  induction chars generalizing c d with
  | nil => exact h
  | cons ch chars ih =>
    rw [Unbroken, List.forall_mem_cons] at unbroken
    rw [List.foldlM_cons, List.foldlM_cons]
    exact (paired_expect unbroken.1 h).bind fun _ _ h => ih h unbroken.2

theorem paired_requireBlanks (h : Fed c d) : Paired Fed c.requireBlanks d.requireBlanks := by
  rw [requireBlanks, requireBlanks, h.peek neutral_isBlank]
  split
  · exact h.skipBlanks
  · trivial

theorem readChar_eq (kept : ch ≠ '\r') (hc : c.rest = ch :: rest) :
    c.readChar = if isXmlChar ch then .ok (ch, c.next) else .error (c.next.fault (.invalidChar ch)) := by
  rw [readChar, hc]
  split
  · rename_i none
    cases none
  · rename_i e
    exact (kept (List.cons.inj e).1).elim
  · rename_i e
    exact (kept (List.cons.inj e).1).elim
  · rename_i e
    cases e
    rfl

/-- Every line end is read as a line feed. -/
theorem indifferent_readChar : Indifferent id readChar := by
  rintro ⟨cs, position⟩ ⟨_, position'⟩ h
  obtain rfl : _ = lineFeeds cs := h
  fun_cases lineFeeds cs with
  | case1 => trivial
  | case2 rest => exact ⟨rfl, rfl⟩
  | case3 rest alone =>
    have single : readChar ⟨'\r' :: rest, position⟩ = .ok ('\n', next ⟨'\r' :: rest, position⟩) := by
      rw [readChar]
      split
      · rename_i none
        cases none
      · rename_i e
        exact (alone _ (List.cons.inj e).2).elim
      · rfl
      · rename_i other e
        exact (other (List.cons.inj e).1.symm).elim
    rw [single]
    exact ⟨rfl, rfl⟩
  | case4 ch rest _ other =>
    rw [readChar_eq other rfl, readChar_eq other rfl]
    split
    · exact ⟨rfl, rfl⟩
    · trivial

/-- A run of characters none of which is part of a line end. -/
theorem Fed.span {p : Char → Bool} (h : Fed c d) (noReturn : p '\r' = false) (noFeed : p '\n' = false) :
    (d.span p).1 = (c.span p).1 ∧ Fed (c.span p).2 (d.span p).2 := by
  have neutral : Neutral p := noReturn.trans noFeed.symm
  have same : lineFeeds (c.rest.takeWhile p) = c.rest.takeWhile p := by
    have unbroken : Unbroken (c.rest.takeWhile p) := by
      intro ch mem
      have holds : p ch = true := List.all_eq_true.mp List.all_takeWhile ch mem
      constructor
      · rintro rfl
        exact Bool.false_ne_true (noReturn.symm.trans holds)
      · rintro rfl
        exact Bool.false_ne_true (noFeed.symm.trans holds)
    have whole : lineFeeds (c.rest.takeWhile p ++ []) = _ := lineFeeds_of_unbroken unbroken
    simpa [lineFeeds] using whole
  rw [span_eq, span_eq, h]
  exact ⟨(takeWhile_lineFeeds neutral c.rest).trans same, dropWhile_lineFeeds neutral c.rest⟩

theorem indifferent_readName : Indifferent id readName := by
  intro c d h
  obtain ⟨same, behind⟩ := h.span (p := isNameChar) (by decide) (by decide)
  rw [readName, readName]
  obtain ⟨hc, hd⟩ | ⟨rest, more, hc, hd⟩ | ⟨ch, rest, kept, hc, hd⟩ := h.begins
  · rw [hc, hd]
    trivial
  · rw [hc, hd]
    dsimp only
    rw [if_neg (by decide), if_neg (by decide)]
    trivial
  · rw [hc, hd]
    dsimp only
    rw [same]
    split
    · split
      · exact ⟨rfl, behind⟩
      · trivial
    · trivial

/-! ## References and values -/

theorem indifferent_readCode {p : Char → Bool} {value : List Char → Nat} {flaw : Flaw} (noReturn : p '\r' = false)
    (noFeed : p '\n' = false) : Indifferent id (readCode p value flaw) := by
  intro c d h
  obtain ⟨same, behind⟩ := h.span noReturn noFeed
  rw [readCode, readCode]
  dsimp only
  rw [same]
  split
  · trivial
  · refine (paired_expect (by decide) behind).bind fun c d h => ?_
    split
    · exact ⟨rfl, h⟩
    · trivial

theorem indifferent_readReference : Indifferent id readReference := by
  intro c d h
  refine (paired_expect (by decide) h).bind fun c d h => ?_
  rw [h.sees (by decide), h.sees (by decide)]
  split
  · rename_i seen
    exact indifferent_readCode (by decide) (by decide) (h.skip (by decide) seen)
  · split
    · rename_i seen
      exact indifferent_readCode (by decide) (by decide) (h.skip (by decide) seen)
    · refine (indifferent_readName h).bind ?_
      rintro ⟨name, c⟩ ⟨_, d⟩ ⟨rfl, h⟩
      refine (paired_expect (by decide) h).bind fun c d h => ?_
      dsimp only
      split
      · exact ⟨rfl, h⟩
      · trivial

theorem indifferent_readValueChar : Indifferent id readValueChar := by
  intro c d h
  rw [readValueChar, readValueChar, h.atEnd, h.sees (by decide), h.sees (by decide)]
  split
  · trivial
  · split
    · exact indifferent_readReference h
    · split
      · trivial
      · refine (indifferent_readChar h).bind ?_
        rintro ⟨ch, c⟩ ⟨_, d⟩ ⟨rfl, h⟩
        exact ⟨rfl, h⟩

section

variable {σ : Type} {more : Cursor → Bool} {step : σ → Cursor → Except Fault (σ × Cursor)}
variable {stop : Cursor → Bool} {read : Cursor → Except Fault (Char × Cursor)}

/-- Both go on for as long as each other, step by step. -/
theorem indifferent_readWhile (advances : ∀ s, Advances (step s))
    (goes : ∀ ⦃c d⦄, Fed c d → more d = more c) (steps : ∀ s, Indifferent id (step s)) (s : σ) :
    Indifferent id (readWhile more step advances s) := by
  intro c d h
  induction hn : c.remaining using Nat.strongRecOn generalizing s c d with
  | ind n ih =>
    rw [readWhile_eq, readWhile_eq, goes h]
    split
    · refine (steps s h).bind_ok ?_
      rintro ⟨t, c'⟩ ⟨t', d'⟩ taken ⟨same, h⟩
      obtain rfl : t' = t := same
      have := advances s taken
      exact ih c'.remaining (by omega) _ h rfl
    · exact ⟨rfl, h⟩

theorem indifferent_readUntil (advances : Advances read) (stops : ∀ ⦃c d⦄, Fed c d → stop d = stop c)
    (reads : Indifferent id read) : Indifferent id (readUntil stop read advances) := by
  intro c d h
  have collects (taken : List Char) : Indifferent id (collect read taken) := by
    intro c d h
    refine (reads h).bind ?_
    rintro ⟨ch, c⟩ ⟨_, d⟩ ⟨rfl, h⟩
    exact ⟨rfl, h⟩
  have goes ⦃c d : Cursor⦄ (h : Fed c d) : (!stop d) = !stop c := congrArg _ (stops h)
  refine (indifferent_readWhile (advances_collect advances) goes collects [] h).bind ?_
  rintro ⟨taken, c⟩ ⟨_, d⟩ ⟨rfl, h⟩
  exact ⟨rfl, h⟩

/-- What closes a run of characters is passed over. -/
theorem paired_readClosed {word : List Char} (unbroken : Unbroken word) (advances : Advances read)
    (reads : Indifferent id read) (h : Fed c d) :
    Paired (fun r r' => r'.1 = r.1 ∧ Fed (r.2.skip word.length) (r'.2.skip word.length))
      (c.readUntil (·.sees word) read advances) (d.readUntil (·.sees word) read advances) := by
  have stops ⦃c d : Cursor⦄ (h : Fed c d) : d.sees word = c.sees word := h.sees unbroken
  obtain ⟨e, e', failed, failed'⟩ | ⟨⟨s, c⟩, ⟨s', d⟩, taken, taken', same, h⟩ :=
    (indifferent_readUntil advances stops reads h).cases
  · rw [failed, failed']
    trivial
  · rw [taken, taken']
    exact ⟨same, h.skip unbroken (closes_of_collected (collected_readUntil taken))⟩

end

theorem unbroken_quote {quote : Char} (quotes : isQuote quote = true) : Unbroken [quote] := by
  intro ch mem
  obtain rfl := List.mem_singleton.mp mem
  constructor <;> (rintro rfl; exact absurd quotes (by decide))

theorem indifferent_readAttributeValue : Indifferent id readAttributeValue := by
  intro c d h
  rw [readAttributeValue, readAttributeValue]
  obtain ⟨hc, hd⟩ | ⟨rest, more, hc, hd⟩ | ⟨quote, rest, kept, hc, hd⟩ := h.begins
  · rw [hc, hd]
    trivial
  · rw [hc, hd]
    dsimp only
    rw [if_neg (by decide), if_neg (by decide)]
    trivial
  · rw [hc, hd]
    dsimp only
    split
    · rename_i quotes
      refine (paired_readClosed (unbroken_quote quotes) advances_readValueChar indifferent_readValueChar
        (h.next hc kept)).bind ?_
      rintro ⟨value, c⟩ ⟨_, d⟩ ⟨rfl, h⟩
      exact ⟨rfl, h⟩
    · trivial

/-- The line ends of a literal are kept. -/
theorem indifferent_readLiteral : Indifferent withLineFeeds readLiteral := by
  intro c d h
  rw [readLiteral, readLiteral]
  obtain ⟨hc, hd⟩ | ⟨rest, more, hc, hd⟩ | ⟨quote, rest, kept, hc, hd⟩ := h.begins
  · rw [hc, hd]
    trivial
  · rw [hc, hd]
    dsimp only
    rw [if_neg (by decide), if_neg (by decide)]
    trivial
  · rw [hc, hd]
    dsimp only
    split
    · rename_i quotes
      have other := unbroken_quote quotes quote List.mem_cons_self
      have neutral : Neutral (· ≠ quote) := by
        rw [Neutral, decide_eq_true other.1.symm, decide_eq_true other.2.symm]
      rw [literalBody_eq, literalBody_eq, takeWhile_lineFeeds neutral, dropWhile_lineFeeds neutral]
      refine Paired.bind (paired_expect other ?_) fun c d h => ⟨?_, h⟩
      · exact rfl
      · rw [withLineFeeds, String.toList_ofList]
        rfl
    · trivial

end Cursor

end XmlStore
