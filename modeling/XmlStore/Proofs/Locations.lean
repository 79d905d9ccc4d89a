/-
Locations lead to their nodes. The step to a node counts the siblings before
it that its test admits, so that among the children that pass the test the
position picks the node; from the document node on, the steps of a location
therefore go down to the node step by step.
-/
import Mathlib.Data.List.Induction
import XmlStore.Proofs.InOrder
import XmlStore.Proofs.LocatorSteps
import XmlStore.Proofs.Selected

namespace XmlStore

/-! ## The locator of a node -/

namespace Content

variable {content other : Content} {before after : List Content} {anyElement : Bool}

/-- An element without a qualifier, in no namespace, with attributes of this kind; or something
else than an element. -/
def Unqualified : Content → Prop
  | element tag => tag.name.qualifier = none ∧ tag.uri = none ∧
      ∀ a ∈ tag.attributes, a.name.qualifier = none ∧ a.uri = none
  | _ => True

/-- What a location tests for at a node. -/
def test : Content → NodeTest
  | element tag => .name tag.name
  | text _ | cdata _ => .text
  | comment _ => .comment
  | instruction target _ => .instruction (some target)
  | document | doctype .. => .node

/-- The step to a node with the given siblings before and after it, as it is read. -/
def locator (content : Content) (before after : List Content) : Locator :=
  let earlier := before.countP (content.countsWith false)
  ⟨content.test,
    if 0 < earlier then some (earlier + 1)
    else if after.any (content.countsWith false) then some 1
    else none⟩

/-- The position in the step to a node, among the siblings that are counted with it, if there are others. -/
def position (content : Content) (anyElement : Bool) (before after : List Content) : Option Nat :=
  let earlier := before.countP (content.countsWith anyElement)
  if 0 < earlier then some (earlier + 1)
  else if after.any (content.countsWith anyElement) then some 1
  else none

/-- A position counts the node among those before it, and is left out only where there are no others
of its kind. -/
theorem position_cases (content : Content) (anyElement : Bool) (before after : List Content) :
    content.position anyElement before after = some (before.countP (content.countsWith anyElement) + 1) ∨
      content.position anyElement before after = none ∧
        before.countP (content.countsWith anyElement) = 0 ∧
        after.countP (content.countsWith anyElement) = 0 := by
  rw [position]
  by_cases first : 0 < before.countP (content.countsWith anyElement)
  · rw [if_pos first]
    exact .inl rfl
  · rw [if_neg first, Nat.eq_zero_of_not_pos first]
    by_cases alone : after.any (content.countsWith anyElement) = true
    · rw [if_pos alone]
      exact .inl rfl
    · rw [if_neg alone]
      refine .inr ⟨rfl, rfl, List.countP_eq_zero.mpr fun other hother counts => ?_⟩
      exact alone (List.any_eq_true.mpr ⟨other, hother, counts⟩)

theorem position_eq_none (alone : ∀ other ∈ before ++ after, content.countsWith anyElement other = false) :
    content.position anyElement before after = none := by
  rw [List.forall_mem_append] at alone
  have earlier : before.countP (content.countsWith anyElement) = 0 :=
    List.countP_eq_zero.mpr fun other hother => by simp [alone.1 other hother]
  have later : after.any (content.countsWith anyElement) = false :=
    List.any_eq_false.mpr fun other hother => by simp [alone.2 other hother]
  rw [position, earlier, later]
  rfl

theorem not_locates_node : ¬ Locates .node := nofun

theorem stepName_unqualified (unqualified : content.Unqualified) (locates : Locates content.test) :
    content.stepName = (content.test.spelling, false) := by
  cases content with
  | element tag =>
    obtain ⟨⟨_, name⟩, _, bindings, attributes⟩ := tag
    obtain ⟨qualifier, uri, -⟩ := unqualified
    dsimp only at qualifier uri
    subst qualifier uri
    rfl
  | document => exact absurd locates not_locates_node
  | doctype => exact absurd locates not_locates_node
  | _ => rfl

theorem toList_position (name : String) (n : Nat) :
    s!"{name}[{n}]".toList = name.toList ++ '[' :: (Nat.toDigits 10 n ++ [']']) := by
  show (name ++ "[" ++ Nat.repr n ++ "]").toList = _
  rw [String.toList_append, String.toList_append, String.toList_append, Nat.toList_repr]
  simp

theorem toList_step_position (content : Content) (before after : List Content) :
    (content.step before after).toList = content.stepName.1.toList ++
      (content.position content.stepName.2 before after).elim [] fun n => '[' :: (Nat.toDigits 10 n ++ [']']) := by
  rw [step, position]
  dsimp only
  by_cases first : 0 < before.countP (content.countsWith content.stepName.2)
  · rw [if_pos first, if_pos first, toList_position]
    rfl
  · rw [if_neg first, if_neg first]
    by_cases alone : after.any (content.countsWith content.stepName.2) = true
    · rw [if_pos alone, if_pos alone]
      show (content.stepName.1 ++ "[1]").toList = _
      rw [String.toList_append]
      rfl
    · rw [if_neg alone, if_neg alone]
      exact (List.append_nil _).symm

theorem toList_step (unqualified : content.Unqualified) (locates : Locates content.test) :
    (content.step before after).toList = (content.locator before after).text := by
  rw [toList_step_position, stepName_unqualified unqualified locates]
  rfl

/-- The test for a node admits what is counted with it. -/
theorem admits_test (unqualified : content.Unqualified) (locates : Locates content.test)
    (unqualified' : other.Unqualified) : content.test.admits none other = content.countsWith false other := by
  cases content with
  | element tag =>
    obtain ⟨qualifier, uri, -⟩ := unqualified
    cases other with
    | element tag' =>
      obtain ⟨qualifier', uri', -⟩ := unqualified'
      obtain ⟨⟨_, name⟩, _, bindings, attributes⟩ := tag
      obtain ⟨⟨_, name'⟩, _, bindings', attributes'⟩ := tag'
      dsimp only at qualifier uri qualifier' uri'
      subst qualifier uri qualifier' uri'
      have same : (QName.mk none name == QName.mk none name') = (name' == name) := by
        rw [Bool.eq_iff_iff, beq_iff_eq, beq_iff_eq, QName.mk.injEq]
        exact ⟨fun e => e.2.symm, fun e => ⟨rfl, e.symm⟩⟩
      rw [countsWith, Bool.false_or, same]
      exact Bool.and_true _
    | _ => rfl
  | document => exact absurd locates not_locates_node
  | doctype => exact absurd locates not_locates_node
  | text => cases other <;> rfl
  | cdata => cases other <;> rfl
  | comment => cases other <;> rfl
  | instruction target data =>
    cases other with
    | instruction target' => rfl
    | _ => rfl

/-- A node is counted with itself. -/
theorem countsWith_self (locates : Locates content.test) : content.countsWith false content = true := by
  cases content with
  | document => exact absurd locates not_locates_node
  | doctype => exact absurd locates not_locates_node
  | element tag => simp [countsWith]
  | instruction target => simp [countsWith]
  | _ => rfl

end Content

namespace Document

variable {d : Document} {a id p : NodeId} {u v : List NodeId}

/-- The siblings of a child are the other children. -/
theorem WellLinked.chain_before (h : d.WellLinked) (place : d.children p = u ++ a :: v) :
    Chain d.previousSibling? (d.previousSibling? a) u.reverse := by
  induction u using List.reverseRecOn generalizing a v with
  | nil =>
    rw [(h.siblings place).1]
    exact .nil
  | append_singleton u b ih =>
    rw [(h.siblings place).1, List.getLast?_append, List.reverse_append]
    rw [List.append_assoc] at place
    exact .cons (ih place)

theorem WellLinked.siblings_eq (h : d.WellLinked) (place : d.children p = u ++ a :: v) :
    d.siblingsBefore a = u.reverse ∧ d.siblingsAfter a = v := by
  have bound := length_le_size (h.nodup p) fun b hb => h.lists.has_child hb
  rw [place, List.length_append, List.length_cons] at bound
  constructor
  · refine follow_eq (h.chain_before place) ?_
    rw [List.length_reverse]
    omega
  · refine follow_eq (Chain.cons_iff.mp ((h.chain p).drop_to place)).2 ?_
    omega

/-- The step to a node, as it is read. -/
def locator (d : Document) (id : NodeId) : Locator :=
  (d.content id).locator ((d.siblingsBefore id).map d.content) ((d.siblingsAfter id).map d.content)

/-- The nodes that a location passes through, the topmost first. -/
def trail (d : Document) (id : NodeId) : List NodeId :=
  ((d.ancestors id).takeWhile (· ≠ root)).reverse

theorem trail_root (h : d.Rooted) : d.trail root = [] := by
  obtain ⟨more, e⟩ := List.head?_eq_some_iff.mp (h.wellLinked.ancestors h.has_root).head?_eq
  rw [trail, e, List.takeWhile_cons_of_neg (by simp)]
  rfl

theorem trail_child (h : d.Rooted) (hp : d.parent? a = some p) (ne : a ≠ root) :
    d.trail a = d.trail p ++ [a] := by
  rw [trail, h.wellLinked.ancestors_eq hp, List.takeWhile_cons_of_pos (by simp [ne]), List.reverse_cons]
  rfl

theorem toList_slashes {steps : List String} (filled : steps ≠ []) :
    ("/" ++ "/".intercalate steps).toList = steps.flatMap fun s => '/' :: s.toList := by
  induction steps with
  | nil => exact absurd rfl filled
  | cons s steps ih =>
    cases steps with
    | nil =>
      rw [String.intercalate_singleton, String.toList_append, List.flatMap_singleton]
      rfl
    | cons s' steps =>
      rw [String.intercalate_cons_cons, String.append_assoc, String.toList_append, String.toList_append,
        ih nofun, List.flatMap_cons]
      rfl

theorem location_eq_trail (below : d.trail id ≠ []) :
    d.location id = "/" ++ "/".intercalate ((d.trail id).map d.step) := by
  have filled : (d.trail id).map d.step ≠ [] := by simpa using below
  rw [location, trail, List.map_reverse]
  split
  · rename_i none
    rw [trail, List.map_reverse, none] at filled
    exact absurd rfl filled
  · rfl

theorem toList_location (below : d.trail id ≠ [])
    (spelled : ∀ a ∈ d.trail id, (d.step a).toList = (d.locator a).text) :
    (d.location id).toList = ((d.trail id).map d.locator).flatMap fun l => '/' :: l.text := by
  have filled : (d.trail id).map d.step ≠ [] := by simpa using below
  rw [location_eq_trail below, toList_slashes filled, List.flatMap_map, List.flatMap_map]
  exact List.flatMap_congr fun a ha => congrArg ('/' :: ·) (spelled a ha)

/-- The last part of a location is the step to its node. -/
theorem location_child (h : d.Rooted) (hp : d.parent? a = some p) (ne : a ≠ root) :
    ∃ path, d.location a = path ++ "/" ++ d.step a := by
  have trail := trail_child h hp ne
  refine ⟨String.ofList (((d.trail p).map d.step).flatMap fun s => '/' :: s.toList), String.toList_inj.mp ?_⟩
  rw [location_eq_trail (by simp [trail]), toList_slashes (by simp [trail]), trail]
  simp

end Document

/-! ## The node at a position -/

section

variable {env : Env} {k size position : Nat} {item : Item} {items before after : List Item}

theorem keepFrom_others (pos : 0 < position) (positive : 0 < k) (bounded : k < 2 ^ 53)
    (few : position + items.length ≤ 2 ^ 53) (elsewhere : k < position ∨ position + items.length ≤ k) :
    keepFrom ((Expr.number (Float.ofNat k)).eval env) size position items = .ok [] := by
  induction items generalizing position with
  | nil => rfl
  | cons item items ih =>
    rw [List.length_cons] at few elsewhere
    have other : (Value.number (Float.ofNat k)).keeps position = false := by
      rw [Value.keeps, ofNat_beq_ofNat positive bounded pos (by omega)]
      simp only [beq_eq_false_iff_ne]
      omega
    rw [keepFrom, Expr.eval]
    refine bind_eq_ok.2 ⟨_, rfl, bind_eq_ok.2 ⟨[], ih (by omega) (by omega) (by omega), ?_⟩⟩
    rw [other]
    rfl

/-- A number as predicate keeps the item at this position. -/
theorem keepFrom_number (pos : 0 < position) (here : k = position + before.length)
    (few : position + (before ++ item :: after).length ≤ 2 ^ 53) :
    keepFrom ((Expr.number (Float.ofNat k)).eval env) size position (before ++ item :: after) =
      .ok [item] := by
  rw [List.length_append, List.length_cons] at few
  induction before generalizing position with
  | nil =>
    obtain rfl : k = position := here
    have same : (Value.number (Float.ofNat k)).keeps k = true := by
      rw [Value.keeps, ofNat_beq_ofNat pos (by omega) pos (by omega), beq_self_eq_true]
    rw [List.nil_append, keepFrom, Expr.eval]
    refine bind_eq_ok.2 ⟨_, rfl, bind_eq_ok.2 ⟨[], ?_, ?_⟩⟩
    · exact keepFrom_others (Nat.succ_pos k) pos (by omega) (by omega) (.inl (Nat.lt_succ_self k))
    rw [same]
    rfl
  | cons first before ih =>
    rw [List.length_cons] at here few
    have other : (Value.number (Float.ofNat k)).keeps position = false := by
      rw [Value.keeps, ofNat_beq_ofNat (by omega) (by omega) pos (by omega)]
      simp only [beq_eq_false_iff_ne]
      omega
    rw [List.cons_append, keepFrom, Expr.eval]
    refine bind_eq_ok.2 ⟨_, rfl, bind_eq_ok.2
      ⟨[item], ih (Nat.succ_pos position) (by omega) (by omega), ?_⟩⟩
    rw [other]
    rfl

end

/-! ## One step -/

section

variable {α β : Type} {R : α → β → Prop} {l : List α} {m : List β}

theorem forall₂_filter {f : α → Bool} {g : β → Bool} (h : List.Forall₂ R l m)
    (same : ∀ a b, R a b → b ∈ m → f a = g b) : List.Forall₂ R (l.filter f) (m.filter g) := by
  induction h with
  | nil => exact .nil
  | @cons a b l m first _ ih =>
    have others := ih fun a b hab hb => same a b hab (List.mem_cons_of_mem _ hb)
    rw [List.filter_cons, List.filter_cons, same a b first List.mem_cons_self]
    split
    · exact .cons first others
    · exact others

theorem split_of_forall₂ {u v : List β} {b : β} (h : List.Forall₂ R l (u ++ b :: v)) :
    ∃ before a after, l = before ++ a :: after ∧ before.length = u.length ∧ after.length = v.length ∧
      R a b := by
  induction u generalizing l with
  | nil =>
    cases h with
    | cons first others => exact ⟨[], _, _, rfl, rfl, others.length_eq, first⟩
  | cons b' u ih =>
    cases h with
    | cons first others =>
      obtain ⟨before, a, after, rfl, same, same', here⟩ := ih others
      exact ⟨_ :: before, a, after, rfl, by rw [List.length_cons, List.length_cons, same], same', here⟩

end

namespace Document

variable {d : Document} {id p : NodeId} {n : Rank} {u v : List NodeId} {namespaces : List (String × String)}

/-- What the tree of the document is searched in. -/
abbrev env (d : Document) (namespaces : List (String × String)) : Env := ⟨d.tree, namespaces, []⟩

/-- The siblings that are counted with a node. -/
def counted (d : Document) (id : NodeId) (ids : List NodeId) : List NodeId :=
  ids.filter fun c => (d.content id).countsWith false (d.content c)

theorem position_child (h : d.Rooted) (place : d.children p = u ++ id :: v) :
    (d.locator id).position = some ((d.counted id u).length + 1) ∨
      ((d.locator id).position = none ∧ d.counted id u = [] ∧ d.counted id v = []) := by
  obtain ⟨siblings_before, siblings_after⟩ := h.wellLinked.siblings_eq place
  rw [locator, siblings_before, siblings_after, List.map_reverse]
  rcases (d.content id).position_cases false (u.map d.content).reverse (v.map d.content) with
    e | ⟨e, none, none'⟩
  · rw [List.countP_reverse, List.countP_map, List.countP_eq_length_filter] at e
    exact .inl e
  · rw [List.countP_reverse, List.countP_map, List.countP_eq_length_filter] at none
    rw [List.countP_map, List.countP_eq_length_filter] at none'
    exact .inr ⟨e, List.length_eq_zero_iff.mp none, List.length_eq_zero_iff.mp none'⟩

/-- The test for a child admits the child and the siblings that are counted with it. -/
theorem admitted_children (h : d.Rooted) (stands : d.Stands n p) (place : d.children p = u ++ id :: v)
    (locates : Locates (d.content id).test) (unqualified : ∀ c ∈ d.children p, (d.content c).Unqualified) :
    ∃ (before : List Rank) (m : Rank) (after : List Rank),
      (d.tree.axis .child (.node n)).filter ((d.content id).test.admitsItem none .child d.tree) =
        before.map Item.node ++ .node m :: after.map Item.node ∧
      before.length = (d.counted id u).length ∧ after.length = (d.counted id v).length ∧
      d.Stands m id := by
  have linked := h.wellLinked
  have below : id ∈ d.children p := by simp [place]
  let admitted (m : Rank) : Bool := (d.content id).test.admitsItem none .child d.tree (.node m)
  have agree : ∀ m c, d.Stands m c → c ∈ d.children p →
      admitted m = (d.content id).countsWith false (d.content c) := by
    intro m c standing hc
    have ne : c ≠ root := fun e => h.root_top p (e ▸ hc)
    show (d.tree.content? m).any ((d.content id).test.admits none) = _
    rw [stands_content linked h.has_root standing ne, Option.any_some]
    exact Content.admits_test (unqualified id below) locates (unqualified c hc)
  have ranks := forall₂_filter (stands_children linked h.has_root stands) agree
  have itself : (d.content id).countsWith false (d.content id) = true := Content.countsWith_self locates
  rw [place, List.filter_append, List.filter_cons, if_pos itself] at ranks
  obtain ⟨before, m, after, split, before_length, after_length, standing⟩ := split_of_forall₂ ranks
  refine ⟨before, m, after, ?_, before_length, after_length, standing⟩
  show ((d.tree.children n).map Item.node).filter _ = _
  rw [List.filter_map]
  exact (congrArg (List.map Item.node) split).trans List.map_append

/-- Of the children that pass the test the position leaves the child alone. -/
theorem keep_position {m : Item} {before after : List Item} (h : d.Rooted)
    (few : (d.children p).length < 2 ^ 53) (place : d.children p = u ++ id :: v)
    (before_length : before.length = (d.counted id u).length)
    (after_length : after.length = (d.counted id v).length) :
    Expr.keep (d.env namespaces) ((d.locator id).position.elim [] fun k => [.number (Float.ofNat k)])
      (before ++ m :: after) = .ok [m] := by
  have fewer : (d.counted id u).length ≤ u.length := List.length_filter_le ..
  have fewer' : (d.counted id v).length ≤ v.length := List.length_filter_le ..
  rw [place, List.length_append, List.length_cons] at few
  rcases position_child h place with e | ⟨e, none, none'⟩
  · rw [e]
    dsimp only [Option.elim]
    rw [Expr.keep]
    refine bind_eq_ok.2 ⟨[m], keepFrom_number Nat.one_pos (by omega) ?_, rfl⟩
    rw [List.length_append, List.length_cons]
    omega
  · rw [none] at before_length
    rw [none'] at after_length
    rw [e, List.length_eq_zero_iff.mp before_length, List.length_eq_zero_iff.mp after_length]
    rfl

/-- From a node the step to a child leads to this child alone. -/
theorem take_child (h : d.Rooted) (few : (d.children p).length < 2 ^ 53) (stands : d.Stands n p)
    (hp : d.parent? id = some p) (locates : Locates (d.content id).test)
    (unqualified : ∀ c ∈ d.children p, (d.content c).Unqualified) :
    ∃ m, (d.locator id).step.take (d.env namespaces) [.node n] = .ok [.node m] ∧ d.Stands m id := by
  obtain ⟨u, v, place⟩ := List.append_of_mem ((h.wellLinked.parent id p).mpr hp)
  obtain ⟨before, m, after, found, before_length, after_length, standing⟩ :=
    admitted_children h stands place locates unqualified
  refine ⟨m, ?_, standing⟩
  have kept : Expr.keep (d.env namespaces) ((d.locator id).position.elim [] fun k => [.number (Float.ofNat k)])
      (before.map Item.node ++ .node m :: after.map Item.node) = .ok [.node m] :=
    keep_position h few place (by rwa [List.length_map]) (by rwa [List.length_map])
  have plain : (d.env namespaces).resolve (d.content id).test.qualifier? = .ok none := by
    generalize (d.content id).test = test at locates
    cases locates <;> rfl
  show Step.take (d.env namespaces) (.mk .child (d.content id).test _) [.node n] = _
  rw [Step.take]
  refine bind_eq_ok.2 ⟨none, plain, bind_eq_ok.2 ⟨[[.node m]], ?_, rfl⟩⟩
  rw [List.mapM_cons]
  refine bind_eq_ok.2 ⟨[.node m], ?_, rfl⟩
  rw [found]
  exact kept

end Document

end XmlStore
