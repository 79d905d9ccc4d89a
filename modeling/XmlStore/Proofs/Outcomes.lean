/-
When a reader succeeds. What a document is written as may be refused when it
is read, so that of a reader it is said exactly before which texts it succeeds.
The rules follow the ways in which readers are put together.
-/
import XmlStore.Markup.Read
import XmlStore.Proofs.Takes

namespace XmlStore

/-- The computation succeeds exactly if `fine` holds, and then its result is `good`. -/
def SucceedsIff {ε α : Type} (x : Except ε α) (fine : Prop) (good : α → Prop) : Prop :=
  match x with
  | .ok a => fine ∧ good a
  | .error _ => ¬ fine

namespace SucceedsIff

variable {ε α β : Type} {x : Except ε α} {f : α → Except ε β} {a : α} {e : ε}
variable {fine fine' : Prop} {good good' : α → Prop} {goodLater : β → Prop}

theorem ok (holds : fine) (result : good a) : SucceedsIff (.ok a : Except ε α) fine good := ⟨holds, result⟩

theorem error (fails : ¬ fine) : SucceedsIff (.error e : Except ε α) fine good := fails

/-- The second step matters only where the first one succeeds. -/
theorem bind (first : SucceedsIff x fine good)
    (second : ∀ a, fine → good a → SucceedsIff (f a) fine' goodLater) :
    SucceedsIff (x >>= f) (fine ∧ fine') goodLater := by
  cases x with
  | error e => exact mt And.left first
  | ok a =>
    have later := second a first.1 first.2
    change SucceedsIff (f a) _ _
    cases result : f a with
    | error e =>
      rw [result] at later
      exact mt And.right later
    | ok b =>
      rw [result] at later
      exact ⟨⟨first.1, later.1⟩, later.2⟩

/-- A first step that succeeds decides nothing. -/
theorem after (first : ∃ a, x = .ok a ∧ good a) (second : ∀ a, good a → SucceedsIff (f a) fine' goodLater) :
    SucceedsIff (x >>= f) fine' goodLater := by
  obtain ⟨a, rfl, result⟩ := first
  exact second a result

/-- Nor does a second step that succeeds. -/
theorem before (first : SucceedsIff x fine good) (second : ∀ a, good a → ∃ b, f a = .ok b ∧ goodLater b) :
    SucceedsIff (x >>= f) fine goodLater := by
  cases x with
  | error e => exact first
  | ok a =>
    obtain ⟨b, later, result⟩ := second a first.2
    change SucceedsIff (f a) _ _
    rw [later]
    exact .ok first.1 result

/-- The second step may be followed by one that succeeds and looks at both results. -/
theorem extend {γ : Type} {g : α → Except ε γ} {goodEnd : γ → Prop} (both : SucceedsIff (x >>= f) fine goodLater)
    (last : ∀ a, SucceedsIff (f a) fine goodLater → SucceedsIff (g a) fine goodEnd) :
    SucceedsIff (x >>= g) fine goodEnd := by
  cases x with
  | error e => exact both
  | ok a => exact last a both

theorem imp (h : SucceedsIff x fine good) (same : fine ↔ fine') (weaker : ∀ a, good a → good' a) :
    SucceedsIff x fine' good' := by
  cases x with
  | error e => exact mt same.mpr h
  | ok a => exact ⟨same.mp h.1, weaker a h.2⟩

theorem congr (h : SucceedsIff x fine good) (same : fine ↔ fine') : SucceedsIff x fine' good :=
  h.imp same fun _ result => result

theorem iff (h : SucceedsIff x fine good) : (∃ a, x = .ok a) ↔ fine := by
  cases x with
  | error e => exact ⟨nofun, fun holds => absurd holds h⟩
  | ok a => exact ⟨fun _ => h.1, fun _ => ⟨a, rfl⟩⟩

theorem result (h : SucceedsIff x fine good) (holds : fine) : ∃ a, x = .ok a ∧ good a := by
  cases x with
  | error e => exact absurd holds h
  | ok a => exact ⟨a, rfl, h.2⟩

end SucceedsIff

namespace Cursor

variable {c : Cursor} {rest : List Char}

/-- Of characters that names have and that stand before another one, a name is read if they are one. -/
theorem succeedsIff_readName {s : String} (chars : ∀ ch ∈ s.toList, isNameChar ch = true)
    (ends : ∀ ch ∈ rest.head?, isNameChar ch = false) (hc : c.rest = s.toList ++ rest) :
    SucceedsIff c.readName (IsName s) fun r => r.1 = s ∧ r.2.rest = rest := by
  by_cases name : IsName s
  · obtain ⟨d, taken, hd⟩ := takes_readName name ends c hc
    rw [taken]
    exact .ok name ⟨rfl, hd⟩
  · cases e : c.readName with
    | error => exact name
    | ok r =>
      refine absurd ?_ name
      have stops : rest.takeWhile isNameChar = [] := by
        cases rest with
        | nil => rfl
        | cons ch rest => exact List.takeWhile_cons_of_neg (by simp [ends ch rfl])
      have spanned : String.ofList (c.span isNameChar).1 = s := by
        rw [span_eq, hc, List.takeWhile_append_of_pos chars, stops, List.append_nil, String.ofList_toList]
      have read : r.1 = s := by
        rw [readName] at e
        split at e
        · cases e
        · split at e
          · dsimp only at e
            split at e
            · cases e
              exact spanned
            · cases e
          · cases e
      exact read ▸ isName_of_readName e

section

variable {stop : Cursor → Bool} {read : Cursor → Except Fault (Char × Cursor)} (advances : Advances read)
variable {spell : Char → List Char} {valid : Char → Prop} {chars tail : List Char}

/-- Each of these characters is read from its spelling if it is valid, and it is no place to stop. -/
def SpellsIff (stop : Cursor → Bool) (read : Cursor → Except Fault (Char × Cursor)) (spell : Char → List Char)
    (valid : Char → Prop) (chars tail : List Char) : Prop :=
  ∀ before ch after, chars = before ++ ch :: after →
    ∀ c : Cursor, c.rest = spell ch ++ (after.flatMap spell ++ tail) → stop c = false ∧
      SucceedsIff (read c) (valid ch) fun r => r.1 = ch ∧ r.2.rest = after.flatMap spell ++ tail

theorem succeedsIff_collected (spells : SpellsIff stop read spell valid chars tail)
    (stops : ∀ c : Cursor, c.rest = tail → stop c = true) (taken : List Char)
    (hc : c.rest = chars.flatMap spell ++ tail) :
    SucceedsIff (c.readWhile (fun c => !stop c) (collect read) (advances_collect advances) taken)
      (∀ ch ∈ chars, valid ch) fun r => r.1 = chars.reverse ++ taken ∧ r.2.rest = tail := by
  induction chars generalizing taken c with
  | nil =>
    rw [readWhile_eq, stops c hc]
    exact .ok (List.forall_mem_nil valid) ⟨rfl, hc⟩
  | cons ch chars ih =>
    rw [List.flatMap_cons, List.append_assoc] at hc
    obtain ⟨goes, first⟩ := spells [] ch chars rfl c hc
    have others : SpellsIff stop read spell valid chars tail := fun before ch' after e =>
      spells (ch :: before) ch' after (congrArg (ch :: ·) e)
    rw [readWhile_eq, goes]
    have collected : SucceedsIff (collect read taken c) (valid ch)
        fun r => r.1 = ch :: taken ∧ r.2.rest = chars.flatMap spell ++ tail := by
      refine first.before ?_
      rintro ⟨_, d⟩ ⟨rfl, hd⟩
      exact ⟨_, rfl, rfl, hd⟩
    refine (collected.bind ?_).congr List.forall_mem_cons.symm
    rintro ⟨_, d⟩ - ⟨rfl, hd⟩
    rw [List.reverse_cons, List.append_assoc]
    exact ih others (ch :: taken) hd

/-- Characters that are read one by one from their spellings are read together if all are valid. -/
theorem succeedsIff_readUntil (spells : SpellsIff stop read spell valid chars tail)
    (stops : ∀ c : Cursor, c.rest = tail → stop c = true) (hc : c.rest = chars.flatMap spell ++ tail) :
    SucceedsIff (c.readUntil stop read advances) (∀ ch ∈ chars, valid ch)
      fun r => r.1 = String.ofList chars ∧ r.2.rest = tail := by
  refine (succeedsIff_collected advances spells stops [] hc).before ?_
  rintro ⟨_, d⟩ ⟨rfl, hd⟩
  refine ⟨_, rfl, ?_, hd⟩
  rw [List.append_nil, List.reverse_reverse]

/-- One character of a text is read if a document may hold it. -/
theorem succeedsIff_readChar {ch : Char} (kept : ch ≠ '\r') (hc : c.rest = ch :: rest) :
    SucceedsIff c.readChar (isXmlChar ch = true) fun r => r.1 = ch ∧ r.2.rest = rest := by
  by_cases valid : isXmlChar ch = true
  · obtain ⟨d, taken, hd⟩ : ∃ d, c.readChar = .ok (ch, d) ∧ d.rest = rest := takes_readChar valid kept c hc
    rw [taken]
    exact .ok valid ⟨rfl, hd⟩
  · rw [readChar, hc]
    split
    · exact .error valid
    · rename_i e
      cases e
      exact absurd rfl kept
    · rename_i e
      cases e
      exact absurd rfl kept
    · rename_i e
      cases e
      rw [if_neg valid]
      exact .error valid

end

end Cursor

/-! ## Readers that warn -/

section

variable {α : Type} {p : Progress} {fine : Prop}

theorem SucceedsIff.read {reader : Cursor → Except Fault (α × Cursor)} {good : α × Cursor → Prop}
    (h : SucceedsIff (reader p.cursor) fine good) :
    SucceedsIff (p.read reader) fine fun r => good (r.1, r.2.cursor) := by
  rw [Progress.read]
  cases e : reader p.cursor with
  | error =>
    rw [e] at h
    exact .error h
  | ok r =>
    rw [e] at h
    exact .ok h.1 h.2

end

end XmlStore
