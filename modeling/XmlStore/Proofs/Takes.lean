/-
What readers take from a text. A reader that takes something takes it wherever
the text stands: lines and columns have a part in reports only. The rules
follow the ways in which readers are put together.
-/
import XmlStore.Markup.Prolog

namespace XmlStore

theorem mapError_eq_ok {ε ε' α : Type} {x : Except ε α} {f : ε → ε'} {a : α} (h : x.mapError f = .ok a) :
    x = .ok a := by
  cases x with
  | error => cases h
  | ok => exact congrArg Except.ok (Except.ok.inj h)

namespace Cursor

variable {α : Type} {c d : Cursor} {ch : Char} {rest input : List Char} {a : α}

/-! ## Moving over characters -/

theorem rest_next (h : c.rest = ch :: rest) : c.next.rest = rest := by
  rw [next, h]

theorem rest_skip (n : Nat) (c : Cursor) : (skip n c).rest = c.rest.drop n := by
  induction n generalizing c with
  | zero => rfl
  | succ n ih =>
    rw [skip, ih]
    cases e : c.rest with
    | nil => simp [next, e]
    | cons ch rest => rw [rest_next e, List.drop_succ_cons]

theorem rest_skipBlanks (c : Cursor) : c.skipBlanks.rest = c.rest.dropWhile isBlank := by
  rw [skipBlanks, skipWhile, span_eq]

/-- Where no blank comes next there is nothing to pass over. -/
theorem rest_skipBlanks_of_not_blank (h : ∀ ch ∈ c.rest.head?, isBlank ch = false) :
    c.skipBlanks.rest = c.rest := by
  rw [rest_skipBlanks]
  cases e : c.rest with
  | nil => rfl
  | cons ch rest =>
    rw [e] at h
    exact List.dropWhile_cons_of_neg (by simp [h ch rfl])

/-! ## Taking and passing -/

/-- Before `input`, the reader hands out `a` and stops before `rest`. -/
def Takes (reader : Cursor → Except Fault (α × Cursor)) (input : List Char) (a : α)
    (rest : List Char) : Prop :=
  ∀ c : Cursor, c.rest = input → ∃ d, reader c = .ok (a, d) ∧ d.rest = rest

/-- Before `input`, the reader goes on to `rest`. -/
def Passes (reader : Cursor → Except Fault Cursor) (input rest : List Char) : Prop :=
  ∀ c : Cursor, c.rest = input → ∃ d, reader c = .ok d ∧ d.rest = rest

section

variable {β : Type} {b : β} {middle : List Char}

theorem Takes.pure : Takes (fun c => .ok (a, c)) rest a rest := fun c hc => ⟨c, rfl, hc⟩

theorem Takes.bind {reader : Cursor → Except Fault (α × Cursor)}
    {next : α × Cursor → Except Fault (β × Cursor)} (first : Takes reader input a middle)
    (second : Takes (fun c => next (a, c)) middle b rest) :
    Takes (fun c => reader c >>= next) input b rest := by
  intro c hc
  obtain ⟨d, taken, hd⟩ := first c hc
  obtain ⟨e, taken', he⟩ := second d hd
  exact ⟨e, bind_eq_ok.2 ⟨(a, d), taken, taken'⟩, he⟩

theorem Passes.bind {reader : Cursor → Except Fault Cursor}
    {next : Cursor → Except Fault (β × Cursor)} (first : Passes reader input middle)
    (second : Takes next middle b rest) : Takes (fun c => reader c >>= next) input b rest := by
  intro c hc
  obtain ⟨d, passed, hd⟩ := first c hc
  obtain ⟨e, taken, he⟩ := second d hd
  exact ⟨e, bind_eq_ok.2 ⟨d, passed, taken⟩, he⟩

/-- What comes of the place behind what was taken is up to its own text. -/
theorem Takes.finish {move : Cursor → Cursor} (h : ∀ c, c.rest = input → (move c).rest = rest) :
    Takes (fun c => .ok (a, move c)) input a rest := fun c hc => ⟨move c, rfl, h c hc⟩

end

theorem passes_expect : Passes (expect ch) (ch :: rest) rest := by
  intro c hc
  refine ⟨c.next, ?_, rest_next hc⟩
  rw [expect, hc]
  exact if_pos rfl

theorem passes_expectWord {word : String} : Passes (expectWord word) (word.toList ++ rest) rest := by
  intro c hc
  unfold expectWord
  generalize word.toList = chars at hc ⊢
  induction chars generalizing c with
  | nil => exact ⟨c, rfl, hc⟩
  | cons ch chars ih =>
    obtain ⟨d, passed, hd⟩ := passes_expect c hc
    rw [List.foldlM_cons, passed]
    exact ih d hd

theorem rest_of_expect (h : c.expect ch = .ok d) : c.rest = ch :: d.rest := by
  rw [expect] at h
  split at h
  · cases h
  · rename_i first more begins
    split at h
    · rename_i same
      cases h
      rw [begins, same, rest_next begins]
    · cases h

theorem rest_of_expectWord {word : String} (h : c.expectWord word = .ok d) : c.rest = word.toList ++ d.rest := by
  unfold expectWord at h
  generalize word.toList = chars at h ⊢
  induction chars generalizing c with
  | nil =>
    cases h
    rfl
  | cons ch chars ih =>
    rw [List.foldlM_cons] at h
    obtain ⟨e, hexpect, h⟩ := bind_eq_ok.1 h
    rw [rest_of_expect hexpect, ih h, List.cons_append]

theorem takes_readChar (valid : isXmlChar ch = true) (kept : ch ≠ '\r') :
    Takes readChar (ch :: rest) ch rest := by
  intro c hc
  refine ⟨c.next, ?_, rest_next hc⟩
  rw [readChar, hc]
  split
  · rename_i e
    cases e
  · rename_i e
    cases e
    exact absurd rfl kept
  · rename_i e
    cases e
    exact absurd rfl kept
  · rename_i e
    cases e
    exact if_pos valid

/-! ## Names -/

/-- What may stand as the name of an element, of an attribute or of an instruction. -/
structure IsName (s : String) : Prop where
  starts : ∃ ch ∈ s.toList.head?, isNameStart ch = true
  chars : ∀ ch ∈ s.toList, isNameChar ch = true
  short : s.utf8ByteSize ≤ nameLimit

theorem takes_readName {s : String} (h : IsName s) (ends : ∀ ch ∈ rest.head?, isNameChar ch = false) :
    Takes readName (s.toList ++ rest) s rest := by
  intro c hc
  have stops : rest.takeWhile isNameChar = [] ∧ rest.dropWhile isNameChar = rest := by
    cases rest with
    | nil => exact ⟨rfl, rfl⟩
    | cons ch rest =>
      have other : ¬ isNameChar ch = true := by simp [ends ch rfl]
      exact ⟨List.takeWhile_cons_of_neg other, List.dropWhile_cons_of_neg other⟩
  have spanned : c.span isNameChar = (s.toList, (c.span isNameChar).2) := by
    rw [span_eq, hc, List.takeWhile_append_of_pos h.chars, stops.1, List.append_nil]
  refine ⟨(c.span isNameChar).2, ?_, ?_⟩
  · obtain ⟨first, hfirst, starts⟩ := h.starts
    obtain ⟨more, hs⟩ := List.head?_eq_some_iff.mp hfirst
    have begins : c.rest = first :: (more ++ rest) := by rw [hc, hs, List.cons_append]
    rw [readName, begins]
    dsimp only
    rw [if_pos starts, spanned]
    dsimp only
    rw [String.ofList_toList]
    exact if_pos h.short
  · rw [span_eq, hc, List.dropWhile_append_of_pos h.chars]
    exact stops.2

/-- What was read as a name is one, and ends before a character that names do not have. -/
theorem isName_of_readName {s : String} (h : c.readName = .ok (s, d)) : IsName s := by
  rw [readName] at h
  split at h
  · cases h
  · rename_i ch more hc
    split at h
    · rename_i starts
      have name_char : isNameChar ch = true := by
        rw [isNameChar, starts, Bool.true_or]
      rw [span_eq, hc, List.takeWhile_cons_of_pos name_char] at h
      dsimp only at h
      split at h
      · rename_i short
        cases h
        refine ⟨⟨ch, by simp, starts⟩, ?_, short⟩
        rw [String.toList_ofList]
        rw [List.forall_mem_cons]
        exact ⟨name_char, List.all_eq_true.mp List.all_takeWhile⟩
      · cases h
    · cases h

/-! ## References -/

/-- The references that stand for characters of their own in what is written. -/
def references : List (List Char × Char) :=
  [("&amp;".toList, '&'), ("&lt;".toList, '<'), ("&gt;".toList, '>'), ("&quot;".toList, '"'),
    ("&#13;".toList, '\r'), ("&#10;".toList, '\n'), ("&#9;".toList, '\t')]

theorem takes_readReference {spelling : List Char} (h : (spelling, ch) ∈ references) :
    Takes readReference (spelling ++ rest) ch rest := by
  rintro ⟨_, position⟩ rfl
  simp only [references, List.mem_cons, List.not_mem_nil, or_false, Prod.mk.injEq] at h
  rcases h with ⟨rfl, rfl⟩ | ⟨rfl, rfl⟩ | ⟨rfl, rfl⟩ | ⟨rfl, rfl⟩ | ⟨rfl, rfl⟩ | ⟨rfl, rfl⟩ | ⟨rfl, rfl⟩
  · exact ⟨_, rfl, rfl⟩
  · exact ⟨_, rfl, rfl⟩
  · exact ⟨_, rfl, rfl⟩
  · exact ⟨_, rfl, rfl⟩
  · exact ⟨_, rfl, rfl⟩
  · exact ⟨_, rfl, rfl⟩
  · exact ⟨_, rfl, rfl⟩

/-! ## Repetition -/

section

variable {σ : Type} {more : Cursor → Bool} {step : σ → Cursor → Except Fault (σ × Cursor)}
variable {advances : ∀ s, Advances (step s)} {s t u : σ} {middle : List Char}

theorem takes_done (done : ∀ c, c.rest = rest → more c = false) :
    Takes (readWhile more step advances s) rest s rest := by
  intro c hc
  refine ⟨c, ?_, hc⟩
  rw [readWhile_eq, done c hc]
  rfl

theorem takes_more (goes : ∀ c, c.rest = input → more c = true)
    (first : Takes (step s) input t middle)
    (others : Takes (readWhile more step advances t) middle u rest) :
    Takes (readWhile more step advances s) input u rest := by
  intro c hc
  obtain ⟨d, taken, hd⟩ := first c hc
  obtain ⟨e, taken', he⟩ := others d hd
  refine ⟨e, ?_, he⟩
  rw [readWhile_eq, goes c hc]
  exact bind_eq_ok.2 ⟨(t, d), taken, taken'⟩

/-- A repetition ends where there is no more to do. -/
theorem more_of_readWhile (h : readWhile more step advances s c = .ok (t, d)) : more d = false := by
  induction hn : c.remaining using Nat.strongRecOn generalizing s c with
  | ind n ih =>
    rw [readWhile_eq] at h
    split at h
    · obtain ⟨⟨u, e⟩, hstep, hrest⟩ := bind_eq_ok.1 h
      have := advances s hstep
      exact ih e.remaining (by omega) hrest rfl
    · rename_i done
      cases h
      exact Bool.eq_false_iff.mpr done

/-- What every step keeps holds when the repetition ends. -/
theorem readWhile_keeps {P : σ → Prop} (keeps : ∀ ⦃s c t d⦄, P s → step s c = .ok (t, d) → P t)
    (start : P s) (h : readWhile more step advances s c = .ok (t, d)) : P t := by
  induction hn : c.remaining using Nat.strongRecOn generalizing s c with
  | ind n ih =>
    rw [readWhile_eq] at h
    split at h
    · obtain ⟨⟨u, e⟩, hstep, hrest⟩ := bind_eq_ok.1 h
      have := advances s hstep
      exact ih e.remaining (by omega) (keeps start hstep) hrest rfl
    · cases h
      exact start

end

section

variable {stop : Cursor → Bool} {read : Cursor → Except Fault (Char × Cursor)}
variable {advances : Advances read}

/-- How characters were collected: one after the other, up to a place to stop. -/
inductive Collected (stop : Cursor → Bool) (read : Cursor → Except Fault (Char × Cursor)) :
    Cursor → List Char → Cursor → Prop where
  | stop {c : Cursor} (stops : stop c = true) : Collected stop read c [] c
  | step {c d e : Cursor} {ch : Char} {chars : List Char} (goes : stop c = false)
      (taken : read c = .ok (ch, d)) (more : Collected stop read d chars e) :
      Collected stop read c (ch :: chars) e

theorem collected_readWhile (advances : Advances read) {taken all : List Char}
    (h : c.readWhile (fun c => !stop c) (collect read) (advances_collect advances) taken = .ok (all, d)) :
    ∃ chars, all = chars.reverse ++ taken ∧ Collected stop read c chars d := by
  induction hn : c.remaining using Nat.strongRecOn generalizing taken c with
  | ind n ih =>
    rw [readWhile_eq] at h
    cases stops : stop c with
    | true =>
      rw [stops] at h
      cases h
      exact ⟨[], rfl, .stop stops⟩
    | false =>
      rw [stops] at h
      obtain ⟨⟨_, e⟩, hstep, hrest⟩ := bind_eq_ok.1 h
      obtain ⟨⟨ch, f⟩, hread, hcollect⟩ := bind_eq_ok.1 hstep
      cases hcollect
      have := advances hread
      obtain ⟨chars, rfl, collected⟩ := ih e.remaining (by omega) hrest rfl
      exact ⟨ch :: chars, by simp, .step stops hread collected⟩

theorem collected_readUntil {s : String} (h : c.readUntil stop read advances = .ok (s, d)) :
    Collected stop read c s.toList d := by
  obtain ⟨⟨all, e⟩, hwhile, h⟩ := bind_eq_ok.1 h
  obtain ⟨chars, rfl, collected⟩ := collected_readWhile advances hwhile
  cases h
  rw [String.toList_ofList]
  simpa using collected

/-- What holds of every character that is read holds of all that were collected. -/
theorem Collected.forall {P : Char → Prop} {chars : List Char} (h : Collected stop read c chars d)
    (each : ∀ ⦃c ch d⦄, stop c = false → read c = .ok (ch, d) → P ch) : ∀ ch ∈ chars, P ch := by
  induction h with
  | stop => exact nofun
  | step goes taken _ ih => exact List.forall_mem_cons.mpr ⟨each goes taken, ih⟩

end

end Cursor

end XmlStore
