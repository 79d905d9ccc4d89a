/-
Included elements that go back to references, the last one first. Nothing
else that has been included is in the last one, so it goes to its file as it
is; and when a reference has taken its place, what is left can go back in the
same way, to the same document without external data.
-/
import XmlStore.Proofs.Exchanges
import XmlStore.Proofs.Origins

namespace XmlStore

namespace External

variable {files : Files} {options : ReadOptions} {base : Option String} {content : Content}
variable {children later f : Forest Content}

/-! ## Forests whose references are in the form in which they are put back -/

/-- All references in a forest are in the form in which they are put back. -/
def Settled (f : Forest Content) : Prop := normal f = f

theorem settled_cons : Settled (.cons content children later) ↔
    (if isReference content then content = referenceContent ∧ canonical children = children else Settled children) ∧
      Settled later := by
  rw [Settled]
  by_cases here : isReference content = true
  · rw [normal_reference here, if_pos here, Forest.cons.injEq, ← and_assoc, eq_comm (a := referenceContent)]
    rfl
  · rw [normal_other here, if_neg here, Forest.cons.injEq, eq_self_iff_true, true_and]
    rfl

/-! ## The last included element -/

/-- Whether something in a forest has been included. -/
def holdsMarked (f : Forest Content) : Bool := f.preorder.any carriesMarks

theorem holdsMarked_cons : holdsMarked (.cons content children later) =
    (carriesMarks content || (holdsMarked children || holdsMarked later)) := by
  rw [holdsMarked, Forest.preorder, List.any_cons, List.any_append]
  rfl

theorem holdsMarked_textTree_append (name text : String) : holdsMarked (textTree name text ++ f) = holdsMarked f := by
  change holdsMarked (.cons _ _ f) = _
  rw [holdsMarked_cons]
  split <;> rfl

theorem holdsMarked_namedFiles (names : List String) : holdsMarked (namedFiles names) = false := by
  induction names with
  | nil => rfl
  | cons name names ih => rw [namedFiles, holdsMarked_textTree_append, ih]

theorem holdsMarked_canonical : holdsMarked (canonical children) = false := by
  rw [canonical]
  split
  · rw [referenceTo, holdsMarked_textTree_append, holdsMarked_namedFiles]
  · rfl

/-- Without included elements only references go back. -/
theorem collapsed_of_not_holdsMarked (none : holdsMarked f = false) : collapsed f = normal f := by
  induction f with
  | nil => rfl
  | cons content children later ihc ihl =>
    rw [holdsMarked_cons, Bool.or_eq_false_iff, Bool.or_eq_false_iff] at none
    obtain ⟨here, inner, outer⟩ := none
    cases reference : isReference content with
    | true => rw [collapsed_reference reference, normal_reference reference, ihl outer]
    | false => rw [collapsed_other reference here, normal_other (by simp [reference]), ihc inner, ihl outer]

/-- The children of the reference that takes the place of an included element. -/
def sourceOf (content : Content) : Forest Content :=
  referenceTo ((content.attribute? directoryMark).getD "") [(content.attribute? fileMark).getD ""]

/-- A forest with a reference in place of the last included element. -/
def withdrawn : Forest Content → Forest Content
  | .nil => .nil
  | .cons content children later =>
    if holdsMarked later then .cons content children (withdrawn later)
    else if holdsMarked children then .cons content (withdrawn children) later
    else if carriesMarks content then .cons referenceContent (sourceOf content) later
    else .cons content children later

/-- What has been included in a forest can go back to its files, and that leaves another forest. -/
structure Returnable (files : Files) (options : ReadOptions) (base : Option String) (plain f : Forest Content) : Prop where
  sourced : Sourced files options base f
  settled : Settled f
  back : collapsed f = plain

theorem isReference_eq_false_of_marked (settled : Settled (.cons content children later))
    (marked : carriesMarks content = true) : isReference content = false := by
  by_contra reference
  have form := (settled_cons.mp settled).1
  rw [if_pos (by simpa using reference)] at form
  rw [form.1] at marked
  exact absurd marked (by decide)

theorem isReference_eq_false_of_holdsMarked (settled : Settled (.cons content children later))
    (marked : holdsMarked children = true) : isReference content = false := by
  by_contra reference
  have form := (settled_cons.mp settled).1
  rw [if_pos (by simpa using reference)] at form
  rw [← form.2, holdsMarked_canonical] at marked
  cases marked

theorem canonical_referenceTo_directoryUri (directory name : String) :
    canonical (referenceTo (directoryUri directory) [name]) = referenceTo (directoryUri directory) [name] := by
  rw [canonical, target?_referenceTo (List.cons_ne_nil _ _)]
  exact congrArg (referenceTo · [name]) directoryUri_directoryUri

theorem Included.canonical_sourceOf (included : Included files options base content children) :
    canonical (sourceOf content) = sourceOf content := by
  cases included with
  | intro restorable found root same =>
    rw [sourceOf, directoryMark_marked restorable.unmarked]
    exact canonical_referenceTo_directoryUri _ _

section

variable {g : Forest Content}
variable (h : Returnable files options base (collapsed (.cons content children later)) (.cons content children later))

include h

/-- What comes behind a tree may go back in part, if the tree itself has not been included. -/
theorem Returnable.behind (own : isSource content = false) (part : Returnable files options base (collapsed later) g) :
    Returnable files options base (collapsed (.cons content children later)) (.cons content children g) := by
  obtain ⟨⟨-, here, -⟩, settled, -⟩ := h
  obtain ⟨other, unmarked⟩ := Bool.or_eq_false_iff.mp own
  refine ⟨⟨fun source => ?_, here, part.sourced⟩, settled_cons.mpr ⟨(settled_cons.mp settled).1, part.settled⟩, ?_⟩
  · rw [own] at source
    cases source
  · rw [collapsed_other other unmarked, collapsed_other other unmarked, part.back]

/-- What an element contains may go back in part. -/
theorem Returnable.below (some : holdsMarked children = true)
    (part : Returnable files options base (collapsed children) g) :
    Returnable files options base (collapsed (.cons content children later)) (.cons content g later) := by
  obtain ⟨⟨last, here, behind⟩, settled, -⟩ := h
  have other := isReference_eq_false_of_holdsMarked settled some
  rw [if_neg (by simp [other])] at here
  obtain ⟨included, bare, -⟩ := here
  refine ⟨⟨last, ?_, behind⟩, settled_cons.mpr ⟨?_, (settled_cons.mp settled).2⟩, ?_⟩
  · rw [if_neg (by simp [other])]
    refine ⟨fun marked => (included marked).congr part.back, fun _ => bare ?_, part.sourced⟩
    obtain ⟨found, mem, marked⟩ := List.any_eq_true.mp some
    exact ⟨found, mem, by rw [isSource, marked, Bool.or_true]⟩
  · rw [if_neg (by simp [other])]
    exact part.settled
  · cases marked : carriesMarks content with
    | true => rw [collapsed_marked other marked, collapsed_marked other marked]
    | false => rw [collapsed_other other marked, collapsed_other other marked, part.back]

/-- An included element may go back with all that it contains. -/
theorem Returnable.top (marked : carriesMarks content = true) :
    Returnable files options base (collapsed (.cons content children later))
      (.cons referenceContent (sourceOf content) later) := by
  obtain ⟨⟨last, here, behind⟩, settled, -⟩ := h
  have other := isReference_eq_false_of_marked settled marked
  rw [if_neg (by simp [other])] at here
  have form := (here.1 marked).canonical_sourceOf
  refine ⟨⟨fun _ => last (by rw [isSource, marked, Bool.or_true]), ?_, behind⟩,
    settled_cons.mpr ⟨?_, (settled_cons.mp settled).2⟩, ?_⟩
  · rw [if_pos isReference_referenceContent]
    exact ⟨_, _, target?_referenceTo (List.cons_ne_nil _ _)⟩
  · rw [if_pos isReference_referenceContent]
    exact ⟨rfl, form⟩
  · rw [collapsed_reference isReference_referenceContent, collapsed_marked other marked, form]
    rfl

end

/-- When the last included element has gone back, the others still can. -/
theorem Returnable.withdrawn {plain : Forest Content} (h : Returnable files options base plain f)
    (some : holdsMarked f = true) : Returnable files options base plain (withdrawn f) := by
  obtain rfl := h.back
  induction f with
  | nil => cases some
  | cons content children later ihc ihl =>
    have ⟨⟨last, here, behind⟩, settled, _⟩ := h
    obtain ⟨form, others⟩ := settled_cons.mp settled
    rw [External.withdrawn]
    by_cases outer : holdsMarked later = true
    · rw [if_pos outer]
      refine h.behind ?_ (ihl outer ⟨behind, others, rfl⟩)
      by_contra source
      rw [last (by simpa using source)] at outer
      cases outer
    · rw [if_neg outer]
      by_cases inner : holdsMarked children = true
      · rw [if_pos inner]
        have other := isReference_eq_false_of_holdsMarked settled inner
        rw [if_neg (by simp [other])] at here form
        exact h.below inner (ihc inner ⟨here.2.2, form, rfl⟩)
      · have marked : carriesMarks content = true := by
          rw [holdsMarked_cons] at some
          simpa [inner, outer] using some
        rw [if_neg inner, if_pos marked]
        exact h.top marked

theorem holdsMarked_map_eq_false {α : Type} {f : Forest α} {v : α → Content}
    (none : f.preorder.filter (carriesMarks ∘ v) = []) : holdsMarked (f.map v) = false := by
  rw [holdsMarked, Forest.preorder_map, List.any_map, List.any_eq_false]
  exact fun a mem => List.filter_eq_nil_iff.mp none a mem

section

variable {α : Type} {a : α} {v v' : α → Content} {f g : Forest α}

theorem holdsMarked_of_last (last : f.Last (carriesMarks ∘ v) a) : holdsMarked (f.map v) = true := by
  rw [holdsMarked, Forest.preorder_map, List.any_map, List.any_eq_true]
  induction last with
  | here holds => exact ⟨a, List.mem_cons_self, holds⟩
  | inside _ _ _ _ ih =>
    obtain ⟨b, mem, marked⟩ := ih
    exact ⟨b, List.mem_cons_of_mem _ (List.mem_append_left _ mem), marked⟩
  | behind _ _ _ ih =>
    obtain ⟨b, mem, marked⟩ := ih
    exact ⟨b, List.mem_cons_of_mem _ (List.mem_append_right _ mem), marked⟩

/-- In a forest of nodes the last included element goes back when its tree is replaced by a reference. -/
theorem map_exchange [DecidableEq α] (last : f.Last (carriesMarks ∘ v) a) (same : ∀ b ∈ f.preorder, b ≠ a → v' b = v b)
    (new : g.map v' = .tree referenceContent (sourceOf (v a))) : (f.exchange a g).map v' = withdrawn (f.map v) := by
  have elsewhere {f : Forest α} (same : ∀ b ∈ f.preorder, b ≠ a → v' b = v b) (absent : a ∉ f.preorder) :
      f.map v' = f.map v := by
    refine Forest.map_congr fun b mem => same b mem ?_
    rintro rfl
    exact absent mem
  induction last with
  | @here children rest holds noneInside noneBehind absent =>
    rw [Forest.exchange, if_pos rfl, Forest.exchange_of_not_mem absent, Forest.map_append, new,
      elsewhere (fun b mem => same b (by simp [Forest.preorder, mem])) absent, Forest.map, withdrawn,
      if_neg (by simp [holdsMarked_map_eq_false noneBehind]), if_neg (by simp [holdsMarked_map_eq_false noneInside]),
      if_pos (show carriesMarks (v a) = true from holds)]
    rfl
  | @inside b children rest last noneBehind ne absent ih =>
    rw [Forest.exchange, if_neg ne, Forest.exchange_of_not_mem absent, Forest.map, Forest.map, withdrawn,
      if_neg (by simp [holdsMarked_map_eq_false noneBehind]), if_pos (holdsMarked_of_last last),
      same b (by simp [Forest.preorder]) ne, ih fun c mem => same c (by simp [Forest.preorder, mem]),
      elsewhere (fun c mem => same c (by simp [Forest.preorder, mem])) absent]
  | @behind b children rest last ne absent ih =>
    rw [Forest.exchange, if_neg ne, Forest.exchange_of_not_mem absent, Forest.map, Forest.map, withdrawn,
      if_pos (holdsMarked_of_last last), same b (by simp [Forest.preorder]) ne,
      ih fun c mem => same c (by simp [Forest.preorder, mem]),
      elsewhere (fun c mem => same c (by simp [Forest.preorder, mem])) absent]

end

end External

end XmlStore
