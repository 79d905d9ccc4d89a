/-
Steps to elements among their siblings. The position in the step to an element
counts the siblings with the local part and the qualifier of the element; what
the step is read as asks for the local part and the namespace. So the step
leads to the element alone if and only if as many siblings before it are
counted as are asked for, and none is asked for where none is counted.
-/
import XmlStore.Proofs.Axes
import XmlStore.Proofs.Isomorphisms

namespace XmlStore

/-! ## Tests of one word -/

/-- A test that is written as one token, which names it. -/
structure NodeTest.IsWord (test : NodeTest) : Prop where
  lexes : ∀ {rest : List Char} {tokens : List Token}, (∀ ch ∈ rest.head?, isNameChar ch = false) →
    Lexer.Lexes true rest tokens → Lexer.Lexes false (test.spelling.toList ++ rest)
      (Lexer.classifyAmong tokens (.name test.spelling) :: tokens)
  derives : test.Derives [.name test.spelling]

namespace NodeTest

variable {name qualifier : String}

theorem spelling_name (name : QName) : (NodeTest.name name).spelling = name.text := rfl

theorem isWord_any : any.IsWord where
  lexes {rest _} _ more := by
    have read : Lexer.readToken false ('*' :: rest) = .ok (.name "*", rest) := rfl
    exact Lexer.lexes_cons (by rintro _ ⟨⟩; decide) read more
  derives := .any

theorem isWord_plain (plain : IsPlain name) : (NodeTest.name ⟨none, name⟩).IsWord where
  lexes stops more := Lexer.lexes_name plain stops more
  derives := derives_test (.name plain)

theorem ofString_text_qualified (plain : IsPlain qualifier) :
    QName.ofString (QName.mk (some qualifier) name).text = ⟨some qualifier, name⟩ := by
  have spelled : (QName.mk (some qualifier) name).text.toList = qualifier.toList ++ ':' :: name.toList := by
    simp [QName.text]
  have split : Lexer.splitWhile (· ≠ ':') (qualifier.toList ++ ':' :: name.toList) =
      (qualifier.toList, ':' :: name.toList) :=
    Lexer.splitWhile_append (fun ch hch => by simp [(plain.further ch hch).2]) (by simp)
  rw [Lexer.splitWhile, ← spelled, Prod.mk.injEq] at split
  rw [QName.ofString, split.1, split.2]
  simp

theorem isWord_qualified (plain : IsPlain qualifier) (plain' : IsPlain name) :
    (NodeTest.name ⟨some qualifier, name⟩).IsWord where
  lexes {rest _} stops more := by
    rw [spelling_name]
    refine Lexer.lexes_readName? ?_ (Lexer.readName?_qualified plain plain' stops) more
    have starts : ∃ ch ∈ (qualifier.toList ++ ':' :: (name.toList ++ rest)).head?,
        isNameStart ch = true ∧ ch ≠ ':' := Lexer.starts_of_isPlain plain
    simpa [QName.text] using starts
  derives := by
    have split : QName.ofString (QName.mk (some qualifier) name).text = ⟨some qualifier, name⟩ :=
      ofString_text_qualified plain
    have proper : (QName.mk (some qualifier) name).text ≠ "*" := by
      intro e
      rw [e] at split
      cases split
    have whole (q : String) : QName.ofString (QName.mk (some qualifier) name).text ≠ ⟨some q, "*"⟩ := by
      intro e
      rw [split, QName.mk.injEq] at e
      obtain ⟨first, hfirst, starts⟩ := plain'.starts
      rw [e.2] at hfirst
      cases hfirst
      exact absurd starts (by decide)
    have derives := NodeTest.Derives.name proper whole
    rwa [split] at derives

end NodeTest

/-- One step by itself. -/
theorem Expr.ofString_locator {s : String} {l : Locator} (word : l.test.IsWord)
    (bounded : ∀ n ∈ l.position, 0 < n ∧ n < 2 ^ 53) (spelled : s.toList = l.text) :
    Expr.ofString s = .ok (.path [l.step]) := by
  have lexes : Lexer.Lexes false s.toList (.name l.test.spelling :: l.position.elim [] fun n =>
      [.symbol .leftBracket, .number (Float.ofNat n), .symbol .rightBracket]) := by
    rw [spelled, Locator.text]
    cases position : l.position with
    | none => exact word.lexes (fun _ hch => absurd hch (by simp)) Lexer.lexes_nil
    | some n =>
      obtain ⟨pos, few⟩ := bounded n position
      have stops : ∀ ch ∈ ('[' :: (Nat.toDigits 10 n ++ [']'])).head?, isNameChar ch = false := by
        rintro _ ⟨⟩
        decide
      exact word.lexes stops (Lexer.lexes_position pos few Lexer.lexes_nil)
  refine Expr.ofString_of_lexes lexes (.relative ?_)
  simpa using Derives.steps (derives_step word.derives) .noSteps

/-! ## What a step with a position picks -/

section

variable {α β : Type} {env : Env} {l : Locator}

/-- The members of a list that a locator leaves. -/
def Locator.pick (l : Locator) (list : List α) : List α :=
  l.position.elim list fun n => list[n - 1]?.toList

theorem Locator.pick_map (f : α → β) (list : List α) : l.pick (list.map f) = (l.pick list).map f := by
  rw [pick, pick]
  cases l.position with
  | none => rfl
  | some n => cases place : list[n - 1]? <;> simp [place]

theorem Locator.pick_sublist (list : List α) : (l.pick list).Sublist list := by
  rw [pick]
  cases l.position with
  | none => exact List.Sublist.refl list
  | some n =>
    cases place : list[n - 1]? with
    | none => simp [place]
    | some a => simpa [place] using List.mem_of_getElem? place

theorem Locator.keep_pick {items : List Item} (bounded : ∀ n ∈ l.position, 0 < n ∧ n < 2 ^ 53)
    (few : items.length < 2 ^ 53) :
    Expr.keep env (l.position.elim [] fun n => [.number (Float.ofNat n)]) items = .ok (l.pick items) := by
  rw [pick]
  cases position : l.position with
  | none => rfl
  | some n =>
    obtain ⟨pos, bound⟩ := bounded n position
    refine bind_eq_ok.2 ⟨items[n - 1]?.toList, ?_, rfl⟩
    rcases Nat.lt_or_ge (n - 1) items.length with inside | outside
    · have split : items.take (n - 1) ++ items[n - 1] :: items.drop (n - 1 + 1) = items := by
        rw [List.getElem_cons_drop, List.take_append_drop]
      have length : (items.take (n - 1)).length = n - 1 := List.length_take_of_le (by omega)
      have kept : keepFrom ((Expr.number (Float.ofNat n)).eval env) items.length 1
          (items.take (n - 1) ++ items[n - 1] :: items.drop (n - 1 + 1)) = .ok [items[n - 1]] :=
        keepFrom_number Nat.one_pos (by omega) (by rw [split]; omega)
      rw [split] at kept
      rw [List.getElem?_eq_getElem inside]
      exact kept
    · rw [List.getElem?_eq_none outside]
      exact keepFrom_others Nat.one_pos pos bound (by omega) (.inr (by omega))

end

/-! ## Elements and their steps -/

namespace Element

variable {tag other : Element} {env : Env} {before after : List Content}

/-- What the step to an element asks for: any element if it is in a namespace without a qualifier, and
otherwise its name. -/
def sought (tag : Element) : NodeTest :=
  match tag.uri, tag.name.qualifier with
  | some _, none => .any
  | _, _ => .name tag.name

/-- Whether a sibling is counted for the position of an element. -/
def counts (tag : Element) (sibling : Content) : Bool :=
  (Content.element tag).countsWith (Content.element tag).stepName.2 sibling

/-- Whether the step to an element asks for a sibling as well. -/
def seeks (tag : Element) (sibling : Content) : Bool := tag.sought.admits tag.uri sibling

/-- The step to an element among its siblings, as it is read. -/
def locator (tag : Element) (before after : List Content) : Locator :=
  ⟨tag.sought, (Content.element tag).position (Content.element tag).stepName.2 before after⟩

/-- An element that a step can ask for by its name: a qualifier stands for its namespace, and both parts of
such a name are plain. -/
structure Addressable (tag : Element) (env : Env) : Prop where
  known : ∀ q, tag.name.qualifier = some q → env.resolve (some q) = .ok tag.uri
  plain : ∀ q, tag.name.qualifier = some q → IsPlain q ∧ IsPlain tag.name.localPart

namespace Addressable

variable (h : tag.Addressable env)

include h

theorem uri_of_qualifier {q : String} (qualified : tag.name.qualifier = some q) : ∃ uri, tag.uri = some uri := by
  have known := h.known q qualified
  rw [Env.resolve] at known
  split at known
  · exact ⟨_, (Except.ok.inj known).symm⟩
  · split at known
    · exact ⟨_, (Except.ok.inj known).symm⟩
    · cases known

/-- Either any element is asked for, or one of a name without a qualifier in no namespace, or one of a name with
a qualifier for its namespace. -/
theorem sought_cases :
    ((∃ uri, tag.uri = some uri) ∧ tag.name.qualifier = none ∧ tag.sought = .any) ∨
      (tag.uri = none ∧ tag.name.qualifier = none ∧ tag.sought = .name tag.name) ∨
      ∃ q uri, tag.name.qualifier = some q ∧ tag.uri = some uri ∧ tag.sought = .name tag.name := by
  cases qualified : tag.name.qualifier with
  | none =>
    cases uri : tag.uri with
    | none => exact .inr (.inl ⟨rfl, rfl, by simp [sought, uri]⟩)
    | some uri' => exact .inl ⟨⟨uri', rfl⟩, rfl, by simp [sought, uri, qualified]⟩
  | some q =>
    obtain ⟨uri', uri⟩ := h.uri_of_qualifier qualified
    exact .inr (.inr ⟨q, uri', rfl, uri, by simp [sought, uri, qualified]⟩)

theorem stepName : (Content.element tag).stepName = (tag.sought.spelling, decide (tag.sought = .any)) := by
  unfold Content.stepName
  rcases h.sought_cases with ⟨⟨uri', uri⟩, bare, sought⟩ | ⟨uri, bare, sought⟩ | ⟨q, uri', qualified, uri, sought⟩
  · have word : NodeTest.any.spelling = "*" := rfl
    simp only [uri, bare, sought, word, decide_true]
  · have written : tag.name.text = tag.name.localPart := by rw [QName.text, bare]
    simp [uri, sought, NodeTest.spelling_name, written]
  · simp [uri, qualified, sought, NodeTest.spelling_name]

theorem isWord (proper : tag.Proper) : tag.sought.IsWord := by
  rcases h.sought_cases with ⟨-, -, sought⟩ | ⟨uri, bare, sought⟩ | ⟨q, -, qualified, -, sought⟩
  · exact sought ▸ NodeTest.isWord_any
  · have named : tag.name = ⟨none, tag.name.localPart⟩ := by rw [← bare]
    rw [sought, named]
    exact NodeTest.isWord_plain (proper.name bare uri)
  · have named : tag.name = ⟨some q, tag.name.localPart⟩ := by rw [← qualified]
    obtain ⟨plain, plain'⟩ := h.plain q qualified
    rw [sought, named]
    exact NodeTest.isWord_qualified plain plain'

/-- The step asks for the element itself. -/
theorem seeks_self : tag.seeks (.element tag) = true := by
  rcases h.sought_cases with ⟨-, -, sought⟩ | ⟨uri, bare, sought⟩ | ⟨q, uri', qualified, uri, sought⟩
  · simp [seeks, sought, NodeTest.admits, NodeTest.admitsName]
  · simp [seeks, sought, NodeTest.admits, NodeTest.admitsName, uri, bare]
  · simp [seeks, sought, NodeTest.admits, NodeTest.admitsName, qualified]

theorem resolve : ∃ wanted, env.resolve tag.sought.qualifier? = .ok wanted ∧
    ∀ content, tag.sought.admits wanted content = tag.seeks content := by
  rcases h.sought_cases with ⟨-, -, sought⟩ | ⟨uri, bare, sought⟩ | ⟨q, uri', qualified, uri, sought⟩
  · refine ⟨none, by rw [sought]; rfl, fun content => ?_⟩
    rw [seeks, sought]
    cases content <;> rfl
  · exact ⟨none, by simp [sought, NodeTest.qualifier?, bare, Env.resolve], fun content => by rw [seeks, uri]⟩
  · refine ⟨tag.uri, ?_, fun content => rfl⟩
    rw [sought, NodeTest.qualifier?, qualified]
    exact h.known q qualified

end Addressable

/-- Whether its step leads to an element alone: as many siblings before it are counted as are asked for, and
where no sibling is counted none is asked for. -/
structure PickedOut (tag : Element) (before after : List Content) : Prop where
  earlier : before.countP tag.counts = before.countP tag.seeks
  others : (∀ sibling ∈ before ++ after, tag.counts sibling = false) →
    ∀ sibling ∈ before ++ after, tag.seeks sibling = false

/-- It is enough if among the siblings with the local part of the element the same qualifier and the same
namespace go together. -/
theorem Addressable.pickedOut (h : tag.Addressable env)
    (together : ∀ other, .element other ∈ before ++ after → other.name.localPart = tag.name.localPart →
      (other.name.qualifier = tag.name.qualifier ↔ other.uri = tag.uri)) : tag.PickedOut before after := by
  have agree : ∀ sibling ∈ before ++ after, tag.counts sibling = tag.seeks sibling := by
    intro sibling mem
    rw [counts, seeks, h.stepName]
    cases sibling with
    | element other =>
      have same := together other mem
      have names : tag.name = other.name ↔
          other.name.localPart = tag.name.localPart ∧ other.name.qualifier = tag.name.qualifier := by
        cases tag.name
        cases other.name
        simp only [QName.mk.injEq]
        tauto
      rw [Bool.eq_iff_iff]
      rcases h.sought_cases with ⟨-, -, sought⟩ | ⟨uri, bare, sought⟩ | ⟨q, uri', qualified, uri, sought⟩
      · simp [sought, Content.countsWith, NodeTest.admits, NodeTest.admitsName]
      · simp only [bare, uri] at same names
        simp [sought, Content.countsWith, NodeTest.admits, NodeTest.admitsName, bare, names]
        tauto
      · simp only [qualified, uri] at same names
        simp [sought, Content.countsWith, NodeTest.admits, NodeTest.admitsName, qualified, uri, names]
        tauto
    | _ =>
      rcases h.sought_cases with ⟨-, -, sought⟩ | ⟨-, -, sought⟩ | ⟨q, uri', -, -, sought⟩ <;> rw [sought] <;> rfl
  constructor
  · exact List.countP_congr fun sibling mem => by rw [agree sibling (List.mem_append_left _ mem)]
  · intro none sibling mem
    rw [← agree sibling mem, none sibling mem]

theorem position_locator_le : ∀ n ∈ (tag.locator before after).position, 0 < n ∧ n ≤ before.length + 1 := by
  intro n hn
  rcases Content.position_cases (.element tag) (Content.element tag).stepName.2 before after with
    position | ⟨position, -⟩
  · obtain rfl := Option.some.inj (position.symm.trans hn)
    exact ⟨Nat.succ_pos _, Nat.succ_le_succ List.countP_le_length⟩
  · cases position.symm.trans hn

theorem append_cons_eq_singleton {a : NodeId} {u v : List NodeId} : u ++ a :: v = [a] ↔ u = [] ∧ v = [] := by
  constructor
  · intro single
    have length := congrArg List.length single
    simp only [List.length_append, List.length_cons, List.length_nil] at length
    exact ⟨List.length_eq_zero_iff.mp (by omega), List.length_eq_zero_iff.mp (by omega)⟩
  · rintro ⟨rfl, rfl⟩
    rfl

theorem getElem?_eq_middle {a : NodeId} {u v : List NodeId} {i : Nat} (nodup : (u ++ a :: v).Nodup) :
    (u ++ a :: v)[i]? = some a ↔ i = u.length := by
  have middle : (u ++ a :: v)[u.length]? = some a := by simp
  constructor
  · intro place
    obtain ⟨inside, -⟩ := List.getElem?_eq_some_iff.mp place
    exact (List.getElem?_inj inside nodup).mp (place.trans middle.symm)
  · rintro rfl
    exact middle

/-- From a list in which the element stands once its locator picks the element alone if and only if it is
picked out. -/
theorem pick_locator_iff {a : NodeId} {u v : List NodeId} {content : NodeId → Content} (nodup : (u ++ a :: v).Nodup)
    (itself : tag.seeks (content a) = true) :
    (tag.locator (u.map content) (v.map content)).pick ((u ++ a :: v).filter fun c => tag.seeks (content c)) = [a] ↔
      tag.PickedOut (u.map content) (v.map content) := by
  have count (w : List NodeId) :
      (w.map content).countP tag.seeks = (w.filter fun c => tag.seeks (content c)).length := by
    rw [List.countP_map, List.countP_eq_length_filter]
    rfl
  have none_iff (w : List NodeId) :
      (w.filter fun c => tag.seeks (content c)) = [] ↔ ∀ sibling ∈ w.map content, tag.seeks sibling = false := by
    simp [List.filter_eq_nil_iff]
  have split : (u ++ a :: v).filter (fun c => tag.seeks (content c)) =
      u.filter (fun c => tag.seeks (content c)) ++ a :: v.filter (fun c => tag.seeks (content c)) := by
    rw [List.filter_append, List.filter_cons, if_pos itself]
  have nodup := nodup.filter fun c => tag.seeks (content c)
  rw [split] at nodup ⊢
  by_cases alone : ∀ sibling ∈ u.map content ++ v.map content, tag.counts sibling = false
  · have position : (tag.locator (u.map content) (v.map content)).position = none := Content.position_eq_none alone
    have uncounted : (u.map content).countP tag.counts = 0 :=
      List.countP_eq_zero.mpr fun sibling mem => by simp [alone sibling (List.mem_append_left _ mem)]
    rw [Locator.pick, position, Option.elim_none, append_cons_eq_singleton, none_iff, none_iff, ← List.forall_mem_append]
    refine ⟨fun none => ⟨?_, fun _ => none⟩, fun picked => picked.others alone⟩
    rw [uncounted, count, (none_iff u).mpr fun sibling mem => none sibling (List.mem_append_left _ mem)]
    rfl
  · have position : (tag.locator (u.map content) (v.map content)).position =
        some ((u.map content).countP tag.counts + 1) := by
      refine (Content.position_cases ..).resolve_right fun none => alone ?_
      rw [List.forall_mem_append]
      exact ⟨fun sibling mem => Bool.eq_false_iff.mpr (List.countP_eq_zero.mp none.2.1 sibling mem),
        fun sibling mem => Bool.eq_false_iff.mpr (List.countP_eq_zero.mp none.2.2 sibling mem)⟩
    rw [Locator.pick, position, Option.elim_some, Nat.add_sub_cancel]
    have one (found : Option NodeId) : found.toList = [a] ↔ found = some a := by
      cases found <;> simp
    rw [one, getElem?_eq_middle nodup, ← count]
    exact ⟨fun earlier => ⟨earlier, fun none => absurd none alone⟩, fun picked => picked.earlier⟩

end Element

namespace Document

variable {d : Document} {a p : NodeId} {ids u v : List NodeId} {tag : Element}
variable {namespaces : List (String × String)}

/-! ## Locators in a document -/

theorem ordered_places (made : d.Made) (ordered : ids.Sublist d.documentOrder) :
    Item.ordered (ids.map fun c => d.place (.node c)) = ids.map fun c => d.place (.node c) := by
  have offered : ∀ hit ∈ ids.map Hit.node, d.Offers hit := by
    intro hit mem
    obtain ⟨c, hc, rfl⟩ := List.mem_map.mp mem
    exact ordered.subset hc
  have lists : d.tree.Lists (ids.map fun c => d.place (.node c)) :=
    (lists_iff made.headed).mpr ⟨ids.map .node, ⟨offered, pairwise_precedes made.rooted ordered⟩, by rw [List.map_map]; rfl⟩
  exact (Tree.Lists.ordered lists.has).eq_of_mem_iff lists fun item => Item.mem_ordered _ item

theorem mapM_eq_ok {ε α β : Type} {f : α → Except ε β} {g : α → β} {l : List α}
    (each : ∀ a ∈ l, f a = .ok (g a)) : l.mapM f = .ok (l.map g) := by
  induction l with
  | nil => rfl
  | cons a l ih =>
    rw [List.forall_mem_cons] at each
    rw [List.mapM_cons]
    exact bind_eq_ok.2 ⟨g a, each.1, bind_eq_ok.2 ⟨l.map g, ih each.2, rfl⟩⟩

theorem sublist_children (h : d.Rooted) (hp : d.Attached p) : (d.children p).Sublist d.documentOrder := by
  have walked : (d.walk p .child).Sublist d.documentOrder := sublist_walk h hp (by simp)
  exact walked

/-- From some nodes a step leads to those of their children that pass its test, below each of them to the one at
its position. -/
theorem take_locator (made : d.Made) (attached : ∀ p ∈ u, d.Attached p)
    (few : ∀ p ∈ u, (d.children p).length < 2 ^ 53) {l : Locator} (bounded : ∀ n ∈ l.position, 0 < n ∧ n < 2 ^ 53)
    {wanted : Option String} (known : (d.env namespaces).resolve l.test.qualifier? = .ok wanted)
    (bound : List (String × Value)) :
    l.step.take ⟨d.tree, namespaces, bound⟩ (u.map fun p => d.place (.node p)) = .ok (Item.ordered
      ((u.flatMap fun p => l.pick ((d.children p).filter fun c => l.test.admits wanted (d.content c))).map
        fun c => d.place (.node c))) := by
  have h := made.rooted
  let picked (p : NodeId) : List NodeId := l.pick ((d.children p).filter fun c => l.test.admits wanted (d.content c))
  have below : ∀ p ∈ u, Expr.keep ⟨d.tree, namespaces, bound⟩ (l.position.elim [] fun n => [.number (Float.ofNat n)])
      ((d.tree.axis .child (d.place (.node p))).filter (l.test.admitsItem wanted .child d.tree)) =
      .ok ((picked p).map fun c => d.place (.node c)) := by
    intro p hp
    have forward := sublist_children h (attached p hp)
    have found : (d.tree.axis .child (d.place (.node p))).filter (l.test.admitsItem wanted .child d.tree) =
        ((d.children p).filter fun c => l.test.admits wanted (d.content c)).map fun c => d.place (.node c) := by
      rw [axis_place h (attached p hp) (by simp), List.filter_map]
      refine congrArg _ (List.filter_congr fun c hc => ?_)
      exact admitsItem_node made.headed (stands_idxOf (forward.subset hc)) l.test wanted .child
    rw [found, ← Locator.pick_map]
    refine Locator.keep_pick bounded ?_
    rw [List.length_map]
    exact Nat.lt_of_le_of_lt (List.length_filter_le ..) (few p hp)
  rw [Locator.step, Step.take]
  refine bind_eq_ok.2 ⟨wanted, known, bind_eq_ok.2 ⟨u.map fun p => (picked p).map fun c => d.place (.node c), ?_, ?_⟩⟩
  · rw [List.mapM_map]
    exact mapM_eq_ok below
  · rw [← List.flatMap_def, ← List.map_flatMap]
    rfl

/-- A step to children selects those of them that pass its test, and of these the one at its position. -/
theorem evaluate_locator (made : d.Made) (hp : d.Attached p) (few : (d.children p).length < 2 ^ 53) {l : Locator}
    (bounded : ∀ n ∈ l.position, 0 < n ∧ n < 2 ^ 53) {wanted : Option String}
    (known : (d.env namespaces).resolve l.test.qualifier? = .ok wanted) (values : List (String × Found))
    (position size : Nat) :
    d.evaluate namespaces values (.path [l.step]) (.node p) position size =
      .ok (.hits ((l.pick ((d.children p).filter fun c => l.test.admits wanted (d.content c))).map .node)) := by
  have h := made.rooted
  let passing := (d.children p).filter fun c => l.test.admits wanted (d.content c)
  have forward := sublist_children h hp
  have ordered : (l.pick passing).Sublist d.documentOrder :=
    ((l.pick_sublist passing).trans List.filter_sublist).trans forward
  have taken (bound : List (String × Value)) : l.step.take ⟨d.tree, namespaces, bound⟩ [d.place (.node p)] =
      .ok ((l.pick passing).map fun c => d.place (.node c)) := by
    have step := take_locator made (u := [p]) (by simpa) (by simpa) bounded known bound
    rw [List.flatMap_singleton, ordered_places made ordered] at step
    exact step
  have hits : d.hits ((l.pick passing).map fun c => d.place (.node c)) = (l.pick passing).map .node := by
    have offered : ∀ hit ∈ (l.pick passing).map Hit.node, d.Offers hit := by
      intro hit mem
      obtain ⟨c, hc, rfl⟩ := List.mem_map.mp mem
      exact ordered.subset hc
    have back := hits_map_place offered
    rwa [List.map_map] at back
  rw [evaluate_path, Step.walk_singleton _ (taken _)]
  exact congrArg (fun list => Except.ok (Found.hits list)) hits

theorem position_locator_lt (place : d.children p = u ++ a :: v) (few : (d.children p).length < 2 ^ 53) :
    ∀ n ∈ (tag.locator (u.map d.content) (v.map d.content)).position, 0 < n ∧ n < 2 ^ 53 := by
  intro n hn
  obtain ⟨pos, bound⟩ := Element.position_locator_le n hn
  rw [List.length_map] at bound
  rw [place, List.length_append, List.length_cons] at few
  exact ⟨pos, by omega⟩

theorem position_reverse (content : Content) (anyElement : Bool) (before after : List Content) :
    content.position anyElement before.reverse after = content.position anyElement before after := by
  rw [Content.position, Content.position, List.countP_reverse]

/-- The step to an element is read as what its locator stands for. -/
theorem ofString_step (made : d.Made) (place : d.children p = u ++ a :: v) (few : (d.children p).length < 2 ^ 53)
    (element : d.content a = .element tag) {env : Env} (addressable : tag.Addressable env) :
    Expr.ofString (d.step a) = .ok (.path [(tag.locator (u.map d.content) (v.map d.content)).step]) := by
  have h := made.rooted
  obtain ⟨before, after⟩ := h.wellLinked.siblings_eq place
  have child : a ∈ d.children p := place ▸ List.mem_append_right u List.mem_cons_self
  have proper : tag.Proper := by
    have filled := made.proper.filled a (has_of_target ((h.wellLinked.parent a p).mp child))
      fun e => h.root_top p (e ▸ child)
    rw [element] at filled
    cases filled with
    | element proper => exact proper
  refine Expr.ofString_locator (addressable.isWord proper) (position_locator_lt place few) ?_
  have word : (Content.element tag).stepName.1 = tag.sought.spelling := by rw [addressable.stepName]
  rw [step, before, after, element, Content.toList_step_position, List.map_reverse, position_reverse, word]
  rfl

end Document

/-- From the parent of an element the last step of its location selects the element alone if and only if the
element is picked out by it: so it is wherever, among siblings of one local part, the same qualifier and the
same namespace go together. -/
theorem step_selects_iff {s : Session} {handle : Handle} {o : OpenDocument} (reachable : s.Reachable)
    (found : s.store.document? handle = some o) {a p : NodeId} (attached : a ∈ o.document.documentOrder)
    {u v : List NodeId} (place : o.document.children p = u ++ a :: v) (few : (o.document.children p).length < 2 ^ 53)
    {tag : Element} (element : o.document.content a = .element tag) {namespaces : List (String × String)}
    (addressable : tag.Addressable (o.document.env namespaces)) :
    (∃ path, o.document.location a = path ++ "/" ++ o.document.step a) ∧
    (∃ e, Expr.ofString (o.document.step a) = .ok e ∧ ∀ values position size,
      o.document.evaluate namespaces values e (.node p) position size = .ok (.hits [.node a]) ↔
        tag.PickedOut (u.map o.document.content) (v.map o.document.content)) ∧
    ((∀ c ∈ u ++ v, ∀ other, o.document.content c = .element other → other.name.localPart = tag.name.localPart →
        (other.name.qualifier = tag.name.qualifier ↔ other.uri = tag.uri)) →
      tag.PickedOut (u.map o.document.content) (v.map o.document.content)) := by
  have made := reachable.allMade.of_document? found
  have h := made.rooted
  have child : a ∈ o.document.children p := place ▸ List.mem_append_right u List.mem_cons_self
  have hp := (h.wellLinked.parent a p).mp child
  have below := (h.mem_documentOrder.mp attached).parent h hp
  refine ⟨Document.location_child h hp fun e => h.root_top p (e ▸ child),
    ⟨_, Document.ofString_step made place few element addressable, fun values position size => ?_⟩, fun together => ?_⟩
  · obtain ⟨wanted, known, seeks⟩ := addressable.resolve
    have selected := Document.evaluate_locator made below few (Document.position_locator_lt place few) known values
      position size
    have itself : tag.seeks (o.document.content a) = true := element ▸ addressable.seeks_self
    have nodup := place ▸ h.wellLinked.nodup p
    rw [selected, ← Element.pick_locator_iff nodup itself, Except.ok.injEq, Found.hits.injEq, ← List.map_singleton,
      List.map_inj_right fun _ _ e => Hit.node.inj e, place]
    simp only [Element.locator, seeks]
  · refine addressable.pickedOut fun other mem => ?_
    rw [← List.map_append] at mem
    obtain ⟨c, hc, content⟩ := List.mem_map.mp mem
    exact together c hc other content

/-- A session with a root element that declares two qualifiers for one namespace, and contains two elements of
this namespace. -/
def Session.siblings (first second : String) : Session :=
  let created := (Session.mk (.ofOptions .default) ⟨[], []⟩).call 0 (.create "a")
  let declared := created.2.call 0 (.change 1 (.declareNamespace "/a" "u" "p"))
  let again := declared.2.call 0 (.change 1 (.declareNamespace "/a" "u" "q"))
  let one := again.2.call 0 (.change 1 (.addElement "/a" first (some "u") none 0))
  (one.2.call 0 (.change 1 (.addElement "/a" second (some "u") none 0))).2

theorem Session.reachable_siblings (first second : String) : (Session.siblings first second).Reachable :=
  .call (.call (.call (.call (.call (.start .default ⟨[], []⟩) 0 _) 0 _) 0 _) 0 _) 0 _

/-- The second of two elements of one name, with its position. -/
theorem step_selects_iff_repeated : ∃ o, (Session.siblings "p:x" "p:x").store.document? 1 = some o ∧
    o.document.step ⟨3⟩ = "p:x[2]" ∧ ∃ e, Expr.ofString "p:x[2]" = .ok e ∧
      o.document.evaluate [("p", "u")] [] e (.node ⟨1⟩) 1 1 = .ok (.hits [.node ⟨3⟩]) := by
  let tag : Element := ⟨⟨some "p", "x"⟩, some "u", [], []⟩
  have evaluated : ((Session.siblings "p:x" "p:x").store.document? 1).map
      (fun o => (o.document.documentOrder, o.document.children ⟨1⟩, [⟨2⟩, ⟨3⟩].map o.document.content, o.document.step ⟨3⟩)) =
      some ([⟨0⟩, ⟨1⟩, ⟨2⟩, ⟨3⟩], [⟨2⟩, ⟨3⟩], [.element tag, .element tag], "p:x[2]") := by decide +kernel
  obtain ⟨o, found, facts⟩ := Option.map_eq_some_iff.mp evaluated
  simp only [Prod.mk.injEq, List.map_cons, List.map_nil, List.cons.injEq, and_true] at facts
  obtain ⟨order, children, ⟨first, second⟩, step⟩ := facts
  have addressable : tag.Addressable (o.document.env [("p", "u")]) := by
    constructor
    · rintro _ ⟨⟩
      rfl
    · rintro _ ⟨⟩
      exact ⟨isPlain_of_all (by decide) (by decide), isPlain_of_all (by decide) (by decide)⟩
  obtain ⟨-, ⟨e, read, selects⟩, together⟩ := step_selects_iff (Session.reachable_siblings "p:x" "p:x") found
    (by rw [order]; decide) (u := [⟨2⟩]) (v := []) children (by rw [children]; decide) second addressable
  rw [step] at read
  refine ⟨o, found, step, e, read, (selects [] 1 1).mpr (together fun c hc other content _ => ?_)⟩
  obtain rfl : c = ⟨2⟩ := by simpa using hc
  rw [first] at content
  obtain rfl := Content.element.inj content
  exact iff_of_true rfl rfl

/-- Of two elements with one local part in one namespace, the step to the second says nothing of its position
if the first has another qualifier, and selects both. -/
theorem step_selects_both : ∃ o tag, (Session.siblings "q:x" "p:x").Reachable ∧
    (Session.siblings "q:x" "p:x").store.document? 1 = some o ∧ ⟨3⟩ ∈ o.document.documentOrder ∧
    o.document.parent? ⟨3⟩ = some ⟨1⟩ ∧ o.document.content ⟨3⟩ = .element tag ∧
    tag.Addressable (o.document.env [("p", "u"), ("q", "u")]) ∧ o.document.step ⟨3⟩ = "p:x" ∧
    ∃ e, Expr.ofString "p:x" = .ok e ∧
      o.document.evaluate [("p", "u"), ("q", "u")] [] e (.node ⟨1⟩) 1 1 = .ok (.hits [.node ⟨2⟩, .node ⟨3⟩]) := by
  let tag : Element := ⟨⟨some "p", "x"⟩, some "u", [], []⟩
  let l : Locator := ⟨.name ⟨some "p", "x"⟩, none⟩
  have evaluated : ((Session.siblings "q:x" "p:x").store.document? 1).map
      (fun o => (o.document.documentOrder, o.document.children ⟨1⟩, o.document.content ⟨3⟩, o.document.step ⟨3⟩)) =
      some ([⟨0⟩, ⟨1⟩, ⟨2⟩, ⟨3⟩], [⟨2⟩, ⟨3⟩], .element tag, "p:x") := by decide +kernel
  have admitted : ((Session.siblings "q:x" "p:x").store.document? 1).map
      (fun o => (o.document.children ⟨1⟩).filter fun c => l.test.admits (some "u") (o.document.content c)) =
      some [⟨2⟩, ⟨3⟩] := by decide +kernel
  obtain ⟨o, found, facts⟩ := Option.map_eq_some_iff.mp evaluated
  simp only [Prod.mk.injEq] at facts
  obtain ⟨order, children, second, step⟩ := facts
  have passing : (o.document.children ⟨1⟩).filter (fun c => l.test.admits (some "u") (o.document.content c)) =
      [⟨2⟩, ⟨3⟩] := by
    rw [found] at admitted
    exact Option.some.inj admitted
  have reachable := Session.reachable_siblings "q:x" "p:x"
  have made := reachable.allMade.of_document? found
  have parent := (made.rooted.wellLinked.parent ⟨3⟩ ⟨1⟩).mp (by rw [children]; decide)
  have attached : ⟨3⟩ ∈ o.document.documentOrder := by
    rw [order]
    decide
  have plain : IsPlain "p" ∧ IsPlain "x" :=
    ⟨isPlain_of_all (by decide) (by decide), isPlain_of_all (by decide) (by decide)⟩
  have addressable : tag.Addressable (o.document.env [("p", "u"), ("q", "u")]) := by
    constructor
    · rintro _ ⟨⟩
      rfl
    · rintro _ ⟨⟩
      exact plain
  have below := (made.rooted.mem_documentOrder.mp attached).parent made.rooted parent
  have known : (o.document.env [("p", "u"), ("q", "u")]).resolve l.test.qualifier? = .ok (some "u") := rfl
  have selected := Document.evaluate_locator (l := l) made below (by rw [children]; decide) nofun known [] 1 1
  rw [passing] at selected
  exact ⟨o, tag, reachable, found, attached, parent, second, addressable, step, _,
    Expr.ofString_locator (l := l) (NodeTest.isWord_qualified plain.1 plain.2) nofun (by decide), selected⟩

end XmlStore
