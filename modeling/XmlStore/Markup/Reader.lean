/-
Readers of markup and their repetition. A reader takes a cursor and gives what
it read with the cursor behind it, or the fault at the place where reading
stopped. What is repeated advances at every step, so each repetition ends.
-/
import XmlStore.Markup.Flaw

namespace XmlStore

/-- What a sequence of two steps hands out, the second hands out for the result of the first. -/
theorem bind_eq_ok {ε α β : Type} {x : Except ε α} {f : α → Except ε β} {b : β} :
    x >>= f = .ok b ↔ ∃ a, x = .ok a ∧ f a = .ok b := by
  cases x <;> simp [bind, Except.bind]

/-- Only the results of the first step matter to the second. -/
theorem bind_congr_ok {ε α β : Type} {x : Except ε α} {f g : α → Except ε β}
    (h : ∀ a, x = .ok a → f a = g a) : x >>= f = x >>= g := by
  cases x with
  | error e => rfl
  | ok a => exact h a rfl

namespace Cursor

def fault (c : Cursor) (flaw : Flaw) : Fault := ⟨flaw, c.position⟩

/-- A reader that passes over at least one character. -/
def Advances {α : Type} (read : Cursor → Except Fault (α × Cursor)) : Prop :=
  ∀ ⦃c a d⦄, read c = .ok (a, d) → d.remaining < c.remaining

/-- Goes on with `step` as long as `more` holds, carrying what is collected. -/
def readWhile {σ : Type} (more : Cursor → Bool) (step : σ → Cursor → Except Fault (σ × Cursor))
    (advances : ∀ s, Advances (step s)) (s : σ) (c : Cursor) : Except Fault (σ × Cursor) :=
  if more c then
    match _ : step s c with
    | .error fault => .error fault
    | .ok (t, d) => readWhile more step advances t d
  else .ok (s, c)
termination_by c.remaining
decreasing_by exact advances s ‹_›

/-- The two ends of a repetition, and its step. -/
theorem readWhile_eq {σ : Type} (more : Cursor → Bool)
    (step : σ → Cursor → Except Fault (σ × Cursor)) (advances : ∀ s, Advances (step s)) (s : σ)
    (c : Cursor) :
    readWhile more step advances s c =
      if more c then do
        let (t, d) ← step s c
        readWhile more step advances t d
      else .ok (s, c) := by
  rw [readWhile]
  split
  · split <;> simp_all [bind, Except.bind]
  · rfl

theorem remaining_readWhile_le {σ : Type} {more : Cursor → Bool}
    {step : σ → Cursor → Except Fault (σ × Cursor)} {advances : ∀ s, Advances (step s)} {s t : σ}
    {c d : Cursor} (h : readWhile more step advances s c = .ok (t, d)) :
    d.remaining ≤ c.remaining := by
  induction hn : c.remaining using Nat.strongRecOn generalizing s c with
  | ind n ih =>
    rw [readWhile_eq] at h
    split at h
    · obtain ⟨⟨u, e⟩, hstep, hrest⟩ := bind_eq_ok.1 h
      have := advances s hstep
      have := ih e.remaining (by omega) hrest rfl
      omega
    · cases h; omega

/-- Reads a character and puts it in front of those taken. -/
def collect (read : Cursor → Except Fault (Char × Cursor)) (taken : List Char) (c : Cursor) :
    Except Fault (List Char × Cursor) := do
  let (ch, c) ← read c
  return (ch :: taken, c)

theorem advances_collect {read : Cursor → Except Fault (Char × Cursor)} (h : Advances read)
    (taken : List Char) : Advances (collect read taken) := by
  intro c a d hread
  obtain ⟨⟨ch, e⟩, hch, hrest⟩ := bind_eq_ok.1 hread
  cases hrest
  exact h hch

/-- Collects characters read by `read` up to the place where `stop` holds. -/
def readUntil (stop : Cursor → Bool) (read : Cursor → Except Fault (Char × Cursor))
    (advances : Advances read) (c : Cursor) : Except Fault (String × Cursor) := do
  let (taken, c) ← c.readWhile (fun c => !stop c) (collect read) (advances_collect advances) []
  return (String.ofList taken.reverse, c)

theorem remaining_readUntil_le {stop : Cursor → Bool}
    {read : Cursor → Except Fault (Char × Cursor)} {advances : Advances read} {s : String}
    {c d : Cursor} (h : c.readUntil stop read advances = .ok (s, d)) :
    d.remaining ≤ c.remaining := by
  obtain ⟨⟨taken, e⟩, hwhile, hrest⟩ := bind_eq_ok.1 h
  cases hrest
  exact remaining_readWhile_le hwhile

end Cursor

end XmlStore
