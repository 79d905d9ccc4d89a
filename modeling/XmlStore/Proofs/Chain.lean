/-
Chains of nodes. Where a link that is taken again and again comes to an end,
the nodes on the way are a chain: no node is on it twice, it is determined by
its first node, and `Document.follow` lists it if allowed as many steps.
-/
import Mathlib.Data.List.Nodup
import XmlStore.Document.Edit

namespace XmlStore

/-! ## Neighbours in a list -/

section Neighbours

variable {α : Type} {a b x : α} {l u v : List α}

theorem pair_infix_cons : [a, b] <:+: x :: l ↔ (x = a ∧ l.head? = some b) ∨ [a, b] <:+: l := by
  rw [List.infix_cons_iff, List.cons_prefix_cons, eq_comm]
  cases l with
  | nil => simp
  | cons y l => simp [List.cons_prefix_cons, eq_comm]

/-- Two members that stand side by side in a concatenation do so in one part, or at the seam. -/
theorem pair_infix_append :
    [a, b] <:+: u ++ v ↔
      [a, b] <:+: u ∨ [a, b] <:+: v ∨ (u.getLast? = some a ∧ v.head? = some b) := by
  induction u with
  | nil => simp
  | cons x u ih =>
    rw [List.cons_append, pair_infix_cons, pair_infix_cons, ih]
    cases u with
    | nil => simp [or_comm]
    | cons y u => simp [or_assoc]

theorem pair_mem (h : [a, b] <:+: l) : a ∈ l ∧ b ∈ l := ⟨h.subset (by simp), h.subset (by simp)⟩

/-- The first of two neighbours is not the last member. -/
theorem getLast?_ne_of_pair (nodup : l.Nodup) (h : [a, b] <:+: l) : l.getLast? ≠ some a := by
  obtain ⟨u, v, rfl⟩ := h
  intro last
  have again : (b :: v).getLast? = some a := by
    simpa [List.getLast?_append, List.getLast?_cons] using last
  simp only [List.append_assoc, List.cons_append, List.nil_append, List.nodup_append,
    List.nodup_cons] at nodup
  exact nodup.2.1.1 (List.mem_of_getLast? again)

/-- The second of two neighbours is not the first member. -/
theorem head?_ne_of_pair (nodup : l.Nodup) (h : [a, b] <:+: l) : l.head? ≠ some b := by
  obtain ⟨u, v, rfl⟩ := h
  intro first
  have again : (u ++ [a]).head? = some b := by
    cases u <;> simpa using first
  rw [List.append_assoc, show [a, b] ++ v = [a] ++ (b :: v) from rfl, ← List.append_assoc] at nodup
  exact (List.nodup_append.mp nodup).2.2 b (List.mem_of_head? again) b List.mem_cons_self rfl

end Neighbours

/-! ## Chains -/

/-- The nodes from one on, each the next of the one before, up to one that has no next. -/
inductive Chain (next : NodeId → Option NodeId) : Option NodeId → List NodeId → Prop where
  | nil : Chain next none []
  | cons {id : NodeId} {ids : List NodeId} : Chain next (next id) ids → Chain next (some id) (id :: ids)

namespace Chain

variable {next other : NodeId → Option NodeId} {start : Option NodeId} {ids : List NodeId}
variable {a b : NodeId}

theorem cons_iff : Chain next start (a :: ids) ↔ start = some a ∧ Chain next (next a) ids := by
  constructor
  · rintro ⟨⟩
    exact ⟨rfl, ‹_›⟩
  · rintro ⟨rfl, h⟩
    exact cons h

theorem unique (h : Chain next start ids) : ∀ {others}, Chain next start others → ids = others := by
  induction h with
  | nil =>
    rintro _ ⟨⟩
    rfl
  | cons _ ih =>
    rintro _ ⟨⟩
    rename_i rest
    rw [ih rest]

theorem head?_eq (h : Chain next start ids) : ids.head? = start := by
  cases h <;> rfl

/-- From every node on, the chain is a chain. -/
theorem drop_to (h : Chain next start ids) : ∀ {u v}, ids = u ++ a :: v → Chain next (some a) (a :: v) := by
  induction h with
  | nil =>
    intro u v e
    simp at e
  | cons rest ih =>
    intro u v e
    cases u with
    | nil =>
      obtain ⟨rfl, rfl⟩ := List.cons_eq_cons.mp e
      exact cons rest
    | cons _ u => exact ih (List.cons_eq_cons.mp e).2

theorem nodup (h : Chain next start ids) : ids.Nodup := by
  induction h with
  | nil => exact List.nodup_nil
  | @cons id ids rest ih =>
    refine List.nodup_cons.mpr ⟨fun hmem => ?_, ih⟩
    -- A node met again would begin a shorter chain than the one it begins.
    obtain ⟨u, v, e⟩ := List.append_of_mem hmem
    have shorter := (rest.drop_to e).unique (cons rest)
    have := congrArg List.length shorter
    simp [e] at this
    omega

theorem congr (h : Chain next start ids) : (∀ a ∈ ids, other a = next a) → Chain other start ids := by
  induction h with
  | nil => exact fun _ => nil
  | cons _ ih =>
    intro agree
    refine cons ?_
    rw [agree _ List.mem_cons_self]
    exact ih fun a ha => agree a (List.mem_cons_of_mem _ ha)

/-- Letting one node of a chain have another next, from which a chain begins, leaves a chain. -/
theorem redirect {x : NodeId} (h : Chain next start ids) (agree : ∀ y, y ≠ x → other y = next y)
    (onward : ∃ ids, Chain other (other x) ids) : ∃ ids, Chain other start ids := by
  induction h with
  | nil => exact ⟨[], nil⟩
  | @cons id ids _ ih =>
    by_cases e : id = x
    · subst e
      obtain ⟨ids, h⟩ := onward
      exact ⟨id :: ids, cons h⟩
    · obtain ⟨ids, h⟩ := ih
      exact ⟨id :: ids, cons (by rwa [agree id e])⟩

/-- A property of the first node that is handed on holds of all nodes. -/
theorem forall_mem {p : NodeId → Prop} (h : Chain next start ids)
    (step : ∀ a b, next a = some b → p a → p b) : (∀ a, start = some a → p a) → ∀ a ∈ ids, p a := by
  induction h with
  | nil => simp
  | @cons id _ _ ih =>
    intro first a ha
    rcases List.mem_cons.mp ha with rfl | ha
    · exact first a rfl
    · exact ih (fun b hb => step id b hb (first id rfl)) a ha

/-- A node of a chain is its first one, or comes after another one. -/
theorem eq_or_next (h : Chain next start ids) (ha : a ∈ ids) : start = some a ∨ ∃ b, next b = some a := by
  induction h with
  | nil => simp at ha
  | @cons id _ rest ih =>
    rcases List.mem_cons.mp ha with rfl | ha
    · exact .inl rfl
    · rcases ih ha with e | e
      · exact .inr ⟨id, e⟩
      · exact .inr e

theorem next_eq_of_pair (h : Chain next start ids) (hab : [a, b] <:+: ids) : next a = some b := by
  obtain ⟨u, v, e⟩ := hab
  have := h.drop_to (a := a) (u := u) (v := b :: v) (by simp [← e])
  obtain ⟨_, rest⟩ := cons_iff.mp this
  exact (cons_iff.mp rest).1

theorem pair_of_next (h : Chain next start ids) (ha : a ∈ ids) (hab : next a = some b) :
    [a, b] <:+: ids := by
  obtain ⟨u, v, rfl⟩ := List.append_of_mem ha
  obtain ⟨_, rest⟩ := cons_iff.mp (h.drop_to rfl)
  rw [hab] at rest
  cases rest with
  | @cons _ rest => exact ⟨u, rest, by simp⟩

/-- A chain is a list in which every node is followed by its next, and the last by none. -/
theorem of_pairs (first : ids.head? = start) (inner : ∀ a b, [a, b] <:+: ids → next a = some b)
    (last : ∀ a, ids.getLast? = some a → next a = none) : Chain next start ids := by
  induction ids generalizing start with
  | nil => exact first ▸ nil
  | cons a ids ih =>
    subst first
    refine cons (ih ?_ (fun b c h => inner b c (h.trans (List.suffix_cons a ids).isInfix)) ?_)
    · cases ids with
      | nil => exact (last a rfl).symm
      | cons b ids => exact (inner a b ⟨[], ids, rfl⟩).symm
    · intro b hb
      refine last b ?_
      rw [List.getLast?_cons, hb]
      rfl

end Chain

namespace Document

theorem follow_eq {next : NodeId → Option NodeId} {start : Option NodeId} {ids : List NodeId}
    (h : Chain next start ids) : ∀ {n}, ids.length ≤ n → follow next n start = ids := by
  induction h with
  | nil =>
    rintro (_ | n) _ <;> rfl
  | cons rest ih =>
    rintro (_ | n) hn
    · simp at hn
    · rw [follow, ih (by simpa using hn)]

/-- However far a link is followed, a property that it hands on holds of all nodes. -/
theorem forall_mem_follow {next : NodeId → Option NodeId} {p : NodeId → Prop}
    (step : ∀ a b, next a = some b → p a → p b) :
    ∀ {n start}, (∀ a, start = some a → p a) → ∀ a ∈ follow next n start, p a := by
  intro n
  induction n with
  | zero => simp [follow]
  | succ n ih =>
    intro start first a ha
    cases start with
    | none => simp [follow] at ha
    | some id =>
      rcases List.mem_cons.mp ha with rfl | ha
      · exact first a rfl
      · exact ih (fun b hb => step id b hb (first id rfl)) a ha

end Document

end XmlStore
