/-
Putting one node into a list of children, and taking one out. `Joined` and
`Parted` say what either does to the links of all nodes, in terms of the
siblings on the two sides of the place; the theorems say what that does to the
lists of children, and that chains of parents stay finite.
-/
import Mathlib.Logic.Function.Basic
import XmlStore.Proofs.Links

namespace XmlStore

namespace Document

variable {d d' : Document} {L : NodeId → List NodeId} {p x : NodeId} {u v : List NodeId}
variable {before after : Option NodeId}

/-- The second document is the first one with `x`, which had no parent, put below `p` between two
siblings. -/
structure Joined (d d' : Document) (p x : NodeId) (before after : Option NodeId) : Prop where
  parent : ∀ y, d'.parent? y = if y = x then some p else d.parent? y
  first : ∀ y, d'.firstChild? y = if y = p ∧ before = none then some x else d.firstChild? y
  last : ∀ y, d'.lastChild? y = if y = p ∧ after = none then some x else d.lastChild? y
  next : ∀ y, d'.nextSibling? y =
    if y = x then after else if before = some y then some x else d.nextSibling? y
  previous : ∀ y, d'.previousSibling? y =
    if y = x then before else if after = some y then some x else d.previousSibling? y

/-- The second document is the first one with `x` taken away from below `p` from between two
siblings. -/
structure Parted (d d' : Document) (p x : NodeId) (before after : Option NodeId) : Prop where
  parent : ∀ y, d'.parent? y = if y = x then none else d.parent? y
  first : ∀ y, d'.firstChild? y = if y = p ∧ before = none then after else d.firstChild? y
  last : ∀ y, d'.lastChild? y = if y = p ∧ after = none then before else d.lastChild? y
  next : ∀ y, d'.nextSibling? y =
    if y = x then none else if before = some y then after else d.nextSibling? y
  previous : ∀ y, d'.previousSibling? y =
    if y = x then none else if after = some y then before else d.previousSibling? y

theorem exists_pair_update {q₀ : NodeId} {w : List NodeId} {a b : NodeId} :
    (∃ q, [a, b] <:+: Function.update L q₀ w q) ↔
      [a, b] <:+: w ∨ ∃ q, q ≠ q₀ ∧ [a, b] <:+: L q := by
  constructor
  · rintro ⟨q, hq⟩
    by_cases e : q = q₀
    · subst e
      rw [Function.update_self] at hq
      exact .inl hq
    · rw [Function.update_of_ne e] at hq
      exact .inr ⟨q, e, hq⟩
  · rintro (hw | ⟨q, e, hq⟩)
    · exact ⟨q₀, by rwa [Function.update_self]⟩
    · exact ⟨q, by rwa [Function.update_of_ne e]⟩

/-- What stands side by side in some list of children does so below `p` or elsewhere. -/
theorem exists_pair {w : List NodeId} {a b : NodeId} (place : L p = w) :
    (∃ q, [a, b] <:+: L q) ↔ [a, b] <:+: w ∨ ∃ q, q ≠ p ∧ [a, b] <:+: L q := by
  rw [← exists_pair_update, ← place, Function.update_eq_self]

/-- Neighbours below another node stand apart from the children of `p`. -/
theorem Lists.pair_elsewhere {q a b : NodeId} (h : d.Lists L) (hq : q ≠ p) (hab : [a, b] <:+: L q) :
    (a ∈ L q ∧ a ∉ L p) ∧ (b ∈ L q ∧ b ∉ L p) := by
  obtain ⟨ha, hb⟩ := pair_mem hab
  exact ⟨⟨ha, fun hp => hq (h.unique_parent ha hp)⟩, ⟨hb, fun hp => hq (h.unique_parent hb hp)⟩⟩

theorem Lists.join (h : d.Lists L) (place : L p = u ++ v) (detached : d.parent? x = none)
    (joined : Joined d d' p x u.getLast? v.head?) :
    d'.Lists (Function.update L p (u ++ x :: v)) := by
  have outside : ∀ q, x ∉ L q := fun q hq => by simp [(h.parent x q).mpr hq] at detached
  have nodup := h.nodup p
  have x_place := outside p
  have elsewhere : ∀ a b, (∃ q, q ≠ p ∧ [a, b] <:+: L q) → (a ≠ x ∧ a ∉ u ++ v) ∧ b ≠ x ∧ b ∉ u ++ v := by
    rintro a b ⟨q, hq, hab⟩
    obtain ⟨⟨ha, ha'⟩, hb, hb'⟩ := h.pair_elsewhere hq hab
    rw [place] at ha' hb'
    exact ⟨⟨fun e => outside q (e ▸ ha), ha'⟩, fun e => outside q (e ▸ hb), hb'⟩
  rw [place] at nodup x_place
  have nodup_u : u.Nodup := (List.nodup_append.mp nodup).1
  have nodup_v : v.Nodup := (List.nodup_append.mp nodup).2.1
  refine ⟨fun q => ?_, fun a q => ?_, fun q => ?_, fun q => ?_, fun a b => ?_, fun a b => ?_⟩
  · by_cases hq : q = p
    · subst hq
      rw [Function.update_self]
      grind
    · rw [Function.update_of_ne hq]
      exact h.nodup q
  · rw [joined.parent]
    by_cases hq : q = p
    · subst hq
      rw [Function.update_self]
      have := h.parent a q
      grind
    · rw [Function.update_of_ne hq, ← h.parent a q]
      grind
  · rw [joined.first]
    by_cases hq : q = p
    · subst hq
      have := h.first q
      rw [Function.update_self]
      cases u <;> simp_all
    · rw [Function.update_of_ne hq, if_neg (by simp [hq]), h.first]
  · rw [joined.last]
    by_cases hq : q = p
    · subst hq
      have := h.last q
      rw [Function.update_self]
      cases v <;> simp_all
    · rw [Function.update_of_ne hq, if_neg (by simp [hq]), h.last]
  · have old := h.next a b
    rw [exists_pair place, pair_infix_append] at old
    rw [exists_pair_update, joined.next, pair_infix_append, pair_infix_cons]
    have := elsewhere a b
    have := getLast?_ne_of_pair nodup_u (a := a) (b := b)
    have := pair_mem (a := a) (b := b) (l := u)
    have := pair_mem (a := a) (b := b) (l := v)
    have : u.getLast? = some a → a ∈ u := List.mem_of_getLast?
    grind
  · have old := h.previous a b
    rw [exists_pair place, pair_infix_append] at old
    rw [exists_pair_update, joined.previous, pair_infix_append, pair_infix_cons]
    have := elsewhere a b
    have := head?_ne_of_pair nodup_v (a := a) (b := b)
    have := pair_mem (a := a) (b := b) (l := u)
    have := pair_mem (a := a) (b := b) (l := v)
    have : v.head? = some b → b ∈ v := List.mem_of_head?
    grind

theorem Lists.part (h : d.Lists L) (place : L p = u ++ x :: v)
    (parted : Parted d d' p x u.getLast? v.head?) :
    d'.Lists (Function.update L p (u ++ v)) := by
  have nodup := h.nodup p
  have elsewhere : ∀ a b, (∃ q, q ≠ p ∧ [a, b] <:+: L q) → a ∉ u ++ x :: v ∧ b ∉ u ++ x :: v := by
    rintro a b ⟨q, hq, hab⟩
    obtain ⟨⟨-, ha⟩, -, hb⟩ := h.pair_elsewhere hq hab
    rw [place] at ha hb
    exact ⟨ha, hb⟩
  rw [place] at nodup
  obtain ⟨nodup_u, nodup_xv, apart⟩ := List.nodup_append.mp nodup
  obtain ⟨x_v, nodup_v⟩ := List.nodup_cons.mp nodup_xv
  refine ⟨fun q => ?_, fun a q => ?_, fun q => ?_, fun q => ?_, fun a b => ?_, fun a b => ?_⟩
  · by_cases hq : q = p
    · subst hq
      rw [Function.update_self]
      grind
    · rw [Function.update_of_ne hq]
      exact h.nodup q
  · rw [parted.parent]
    by_cases hq : q = p
    · subst hq
      rw [Function.update_self]
      have := h.parent a q
      grind
    · rw [Function.update_of_ne hq, ← h.parent a q]
      have := h.parent x p
      grind
  · rw [parted.first]
    by_cases hq : q = p
    · subst hq
      have := h.first q
      rw [Function.update_self]
      cases u <;> simp_all
    · rw [Function.update_of_ne hq, if_neg (by simp [hq]), h.first]
  · rw [parted.last]
    by_cases hq : q = p
    · subst hq
      have := h.last q
      rw [Function.update_self]
      cases v <;> simp_all
    · rw [Function.update_of_ne hq, if_neg (by simp [hq]), h.last]
  · have old := h.next a b
    rw [exists_pair place, pair_infix_append, pair_infix_cons] at old
    rw [exists_pair_update, parted.next, pair_infix_append]
    have := elsewhere a b
    have := getLast?_ne_of_pair nodup_u (a := a) (b := b)
    have := pair_mem (a := a) (b := b) (l := u)
    have := pair_mem (a := a) (b := b) (l := v)
    have : u.getLast? = some a → a ∈ u := List.mem_of_getLast?
    grind
  · have old := h.previous a b
    rw [exists_pair place, pair_infix_append, pair_infix_cons] at old
    rw [exists_pair_update, parted.previous, pair_infix_append]
    have := elsewhere a b
    have := head?_ne_of_pair nodup_v (a := a) (b := b)
    have := pair_mem (a := a) (b := b) (l := u)
    have := pair_mem (a := a) (b := b) (l := v)
    have : v.head? = some b → b ∈ v := List.mem_of_head?
    grind

theorem Joined.grounded (h : d.WellLinked) (hp : d.Has p) (apart : x ∉ d.ancestors p)
    (joined : Joined d d' p x before after) (a : NodeId) :
    ∃ above, Chain d'.parent? (some a) above := by
  obtain ⟨above, chain⟩ := h.grounded a
  refine chain.redirect (fun y hy => by rw [joined.parent, if_neg hy]) ⟨d.ancestors p, ?_⟩
  rw [joined.parent, if_pos rfl]
  refine (h.ancestors hp).congr fun y hy => ?_
  have ne : y ≠ x := fun e => apart (e ▸ hy)
  rw [joined.parent, if_neg ne]

theorem Parted.grounded (h : d.WellLinked) (parted : Parted d d' p x before after) (a : NodeId) :
    ∃ above, Chain d'.parent? (some a) above := by
  obtain ⟨above, chain⟩ := h.grounded a
  refine chain.redirect (fun y hy => by rw [parted.parent, if_neg hy]) ⟨[], ?_⟩
  rw [parted.parent, if_pos rfl]
  exact .nil

end Document

end XmlStore
