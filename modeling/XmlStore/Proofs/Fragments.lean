/-
Elements that are written and read on their own. What is read for an element
that was written alone is the element itself with all that is below it, but
for the namespaces of its names. They are resolved afresh, and nothing that
was declared around the element is in force any more.
-/
import XmlStore.Proofs.NamedAttributes
import XmlStore.Proofs.Scopes

namespace XmlStore

open Cursor (Reread Takes)

/-! ## Names that are resolved again -/

namespace Scope

variable {scope inner outer : Scope} {tag : Element} {qualifier : Option String}

/-- Names are resolved by their qualifiers, whatever they were resolved to before. -/
theorem resolveTag_resolveTag (scope outer : Scope) (tag : Element) :
    scope.resolveTag (outer.resolveTag tag) = scope.resolveTag tag := by
  simp only [resolveTag, List.map_map]
  rfl

theorem resolveAttribute_eq_self {a : Attribute} : scope.resolveAttribute a = a ↔
    a.uri = a.name.qualifier.bind fun qualifier => scope.resolve (some qualifier) := by
  rw [resolveAttribute, Attribute.mk.injEq]
  exact ⟨fun same => same.2.2.symm, fun same => ⟨rfl, rfl, same.symm⟩⟩

/-- A tag stays as it is if its names are in the namespaces of the scope, and names without a qualifier of
attributes in none. -/
theorem resolveTag_eq_self (free : (Content.element tag).DefaultFree) :
    scope.resolveTag tag = tag ↔ tag.ResolvedIn scope := by
  have fields : scope.resolveTag tag = tag ↔
      scope.resolve tag.name.qualifier = tag.uri ∧ tag.attributes.map scope.resolveAttribute = tag.attributes := by
    rw [resolveTag, Element.mk.injEq]
    exact ⟨fun same => ⟨same.2.1, same.2.2.2⟩, fun same => ⟨rfl, same.1, rfl, same.2⟩⟩
  have listed : tag.attributes.map scope.resolveAttribute = tag.attributes ↔
      ∀ a ∈ tag.attributes, scope.resolveAttribute a = a := by
    simpa using List.map_inj_left (l := tag.attributes) (f := scope.resolveAttribute) (g := id)
  rw [fields, listed]
  constructor
  · rintro ⟨name, attributes⟩
    refine ⟨name.symm, fun a mem qualifier named => ?_⟩
    rw [resolveAttribute_eq_self.mp (attributes a mem), named]
    rfl
  · rintro ⟨name, attributes⟩
    refine ⟨name.symm, fun a mem => resolveAttribute_eq_self.mpr ?_⟩
    cases named : a.name.qualifier with
    | none => exact free a mem named
    | some qualifier => exact attributes a mem qualifier named

/-- A qualifier that is declared inside stands for the same whatever is declared around. -/
theorem resolve_append_of_mem (declared : qualifier ∈ inner.map (·.qualifier)) :
    (inner ++ outer).resolve qualifier = inner.resolve qualifier := by
  obtain ⟨b, mem, rfl⟩ := List.mem_map.mp declared
  have found : (inner.find? (·.qualifier == b.qualifier)).isSome = true :=
    List.find?_isSome.mpr ⟨b, mem, beq_self_eq_true _⟩
  rw [resolve, List.find?_append, Option.or_of_isSome found, resolve]

theorem resolve_append_of_not_mem (undeclared : qualifier ∉ inner.map (·.qualifier)) :
    (inner ++ outer).resolve qualifier = outer.resolve qualifier := by
  have none : inner.find? (·.qualifier == qualifier) = none :=
    List.find?_eq_none.mpr fun b mem same => undeclared (List.mem_map.mpr ⟨b, mem, beq_iff_eq.mp same⟩)
  rw [resolve, List.find?_append, none, Option.none_or, resolve]

end Scope

/-- The qualifiers of the names of a tag that may be in a namespace, and the namespaces they are in. -/
def Element.resolutions (tag : Element) : List (Option String × Option String) :=
  (tag.name.qualifier, tag.uri) ::
    (tag.attributes.filter (·.name.qualifier.isSome)).map fun a => (a.name.qualifier, a.uri)

theorem Element.resolvedIn_iff {tag : Element} {scope : Scope} :
    tag.ResolvedIn scope ↔ ∀ r ∈ tag.resolutions, r.2 = scope.resolve r.1 := by
  rw [resolutions, List.forall_mem_cons, List.forall_mem_map]
  constructor
  · rintro ⟨name, attributes⟩
    refine ⟨name, fun a mem => ?_⟩
    obtain ⟨listed, qualified⟩ := List.mem_filter.mp mem
    obtain ⟨qualifier, named⟩ := Option.isSome_iff_exists.mp qualified
    rw [named]
    exact attributes a listed qualifier named
  · rintro ⟨name, attributes⟩
    refine ⟨name, fun a mem qualifier named => ?_⟩
    rw [← named]
    exact attributes a (List.mem_filter.mpr ⟨mem, by rw [named]; rfl⟩)

def Content.resolutions (content : Content) : List (Option String × Option String) :=
  (content.element?.map (·.resolutions)).getD []

namespace Forest

variable {f children : Forest Content} {scope inner outer : Scope}

/-- The same forest with the names of its tags resolved in a scope, and in what is declared in the forest. -/
def resolvedFrom (scope : Scope) : Forest Content → Forest Content
  | nil => nil
  | cons content children rest =>
    cons (content.mapElement fun tag => (scope.enter tag.bindings).resolveTag tag)
      (children.resolvedFrom (scope.enter content.bindings)) (rest.resolvedFrom scope)

/-- Every qualifier in a forest is declared there, by those given or on the way down to it, or stands for what it
stands for without any declarations. -/
def SelfContained (declared : Scope) : Forest Content → Prop
  | nil => True
  | cons content children rest =>
    let here := declared.enter content.bindings
    (∀ r ∈ content.resolutions, r.1 ∈ here.map (·.qualifier) ∨ r.2 = Scope.initial.resolve r.1) ∧
      children.SelfContained here ∧ rest.SelfContained declared

instance decidableSelfContained (declared : Scope) : (f : Forest Content) → Decidable (f.SelfContained declared)
  | nil => inferInstanceAs (Decidable True)
  | cons content children rest =>
    have := decidableSelfContained (declared.enter content.bindings) children
    have := decidableSelfContained declared rest
    inferInstanceAs (Decidable (_ ∧ _ ∧ _))

theorem resolvedFrom_eq_self (free : ∀ content ∈ f.preorder, content.DefaultFree) :
    f.resolvedFrom scope = f ↔ f.ResolvedIn scope := by
  induction f generalizing scope with
  | nil => exact iff_of_true rfl trivial
  | cons content children rest ihc ihr =>
    rw [preorder, List.forall_mem_cons, List.forall_mem_append] at free
    rw [resolvedFrom, cons.injEq, ihc free.2.1, ihr free.2.2, ResolvedIn]
    refine and_congr_left fun _ => ?_
    cases content with
    | element tag =>
      rw [Content.mapElement, Content.element.injEq, Scope.resolveTag_eq_self free.1]
      exact ⟨by rintro resolved _ ⟨⟩; exact resolved, fun resolved => resolved tag rfl⟩
    | _ => exact iff_of_true rfl fun _ same => by cases same

/-- What was resolved among the declarations around it is resolved without them if and only if it does not depend
on them. The induction is on the forest, for all that is declared on the way down to it. -/
theorem resolvedIn_iff_selfContained (resolved : f.ResolvedIn (inner ++ outer)) :
    f.ResolvedIn (inner ++ Scope.initial) ↔ f.SelfContained inner := by
  induction f generalizing inner with
  | nil => exact Iff.rfl
  | cons content children rest ihc ihr =>
    obtain ⟨own, below, later⟩ := resolved
    have entered (bindings : List Binding) (around : Scope) :
        Scope.enter (inner ++ around) bindings = Scope.enter inner bindings ++ around :=
      (List.append_assoc ..).symm
    rw [entered] at below
    rw [ResolvedIn, SelfContained, entered, ihc below, ihr later]
    refine and_congr_left fun _ => ?_
    cases content with
    | element tag =>
      have known := Element.resolvedIn_iff.mp (own tag rfl)
      rw [entered] at known
      have alone : (∀ t, Content.element tag = .element t →
            t.ResolvedIn (Scope.enter (inner ++ .initial) t.bindings)) ↔
          ∀ r ∈ tag.resolutions, r.2 = (Scope.enter inner tag.bindings ++ Scope.initial).resolve r.1 := by
        rw [← entered, ← Element.resolvedIn_iff]
        exact ⟨fun resolved => resolved tag rfl, by rintro resolved _ ⟨⟩; exact resolved⟩
      rw [alone]
      refine forall₂_congr fun r mem => ?_
      by_cases declared : r.1 ∈ (Scope.enter inner tag.bindings).map (·.qualifier)
      · refine iff_of_true ?_ (.inl declared)
        rw [known r mem, Scope.resolve_append_of_mem declared, Scope.resolve_append_of_mem declared]
      · rw [Scope.resolve_append_of_not_mem declared]
        exact (or_iff_right declared).symm
    | _ => exact iff_of_true nofun (List.forall_mem_nil _)

/-- The property has every tree of a forest, at every depth, by its label and what is below it. -/
def Every {α : Type} (P : α → Forest α → Prop) : Forest α → Prop
  | nil => True
  | cons a children rest => P a children ∧ children.Every P ∧ rest.Every P

theorem every_leaves_append {P : Content → Forest Content → Prop} {contents : List Content}
    (alone : ∀ content ∈ contents, P content .nil) : (leaves contents ++ f).Every P ↔ f.Every P := by
  induction contents with
  | nil => exact Iff.rfl
  | cons content contents ih =>
    rw [List.forall_mem_cons] at alone
    exact (and_iff_right alone.1).trans ((and_iff_right trivial).trans (ih alone.2))

end Forest

/-! ## What may be read on its own -/

section

variable {options : ReadOptions} {depth depth' : Nat} {scope scope' : Scope} {afterText : Bool}
variable {f children : Forest Content} {o : WriteOptions} {tag : Element}

/-- What is readable somewhere is so in any scope, and at any lower depth, once its names are resolved there. -/
theorem Readable.resolvedFrom (readable : Readable options depth scope afterText f) (low : depth' ≤ depth)
    (scope' : Scope) : Readable options depth' scope' afterText (f.resolvedFrom scope') := by
  induction readable generalizing depth' scope' with
  | nil => exact .nil
  | text filled valid _ ih => exact .text filled valid (ih low scope')
  | @leaf depth scope afterText content rest reread _ ih =>
    have same : content.mapElement (fun tag => (scope'.enter tag.bindings).resolveTag tag) = content := by
      cases reread <;> rfl
    rw [Forest.resolvedFrom, same]
    exact .leaf reread (ih low scope')
  | @element depth scope afterText tag children rest deep written _ _ ihc ihr =>
    rw [Forest.resolvedFrom, Content.mapElement, Scope.resolveTag_resolveTag]
    exact .element (Nat.le_trans (Nat.succ_le_succ low) deep) written (ihc (Nat.succ_le_succ low) _) (ihr low scope')

/-- Every element of a readable forest is readable by itself, at some depth and in some scope. -/
theorem Readable.every (readable : Readable options depth scope afterText f) :
    f.Every fun content children => content.isElement = true →
      ∃ depth scope, Readable options depth scope false (.tree content children) := by
  induction readable with
  | nil => trivial
  | text _ _ _ ih => exact ⟨nofun, trivial, ih⟩
  | leaf reread _ ih =>
    refine ⟨fun element => ?_, trivial, ih⟩
    cases reread <;> cases element
  | @element depth scope afterText tag children rest deep written inner _ ihc ihr =>
    exact ⟨fun _ => ⟨depth, scope, .element deep written inner .nil⟩, ihc, ihr⟩

theorem every_of_readDocument {c : Cursor} {m : Markup} (read : readDocument options c = .ok m) :
    m.nodes.Every fun content children => content.isElement = true →
      ∃ depth scope, Readable options depth scope false (.tree content children) := by
  obtain ⟨ahead, after, tag, children, shape, before, behind, low, written, inner⟩ := shape_of_readDocument read
  have readable : Readable options 1 (Scope.initial.enter tag.bindings) false children := by
    rcases inner with rfl | ⟨p, q, hinner⟩
    · exact .nil
    · exact readable_readContentWithin nofun hinner
  have none {content : Content} (other : content.isElement = false) : content.isElement = true →
      ∃ depth scope, Readable options depth scope false (.tree content .nil) := fun element => by
    rw [other] at element
    cases element
  rw [shape, Forest.every_leaves_append fun content mem => none (isElement_of_ahead (before content mem))]
  refine ⟨fun _ => ⟨0, .initial, .element low written readable .nil⟩, readable.every, ?_⟩
  rw [← Forest.append_nil (leaves after),
    Forest.every_leaves_append fun content mem => none (isElement_of_aside (behind content mem))]
  trivial

/-- Resolving its names afresh changes nothing of what is readable if and only if it is self-contained. -/
theorem Readable.resolvedFrom_initial (readable : Readable options depth scope afterText f) :
    f.resolvedFrom .initial = f ↔ f.SelfContained [] := by
  rw [Forest.resolvedFrom_eq_self readable.defaultFree]
  exact Forest.resolvedIn_iff_selfContained (resolvedIn_of_readable readable : f.ResolvedIn ([] ++ scope))

/-! ## Writing and reading it -/

/-- What is written for a forest does not depend on the namespaces of its names. -/
theorem writeForest_resolvedFrom (plain : o.indent = false) (layout : Layout) (level : Nat) (scope : Scope)
    (f : Forest Content) (after : List Char) :
    o.writeForest layout level (f.resolvedFrom scope) after = o.writeForest layout level f after := by
  induction f generalizing layout level scope after with
  | nil => rfl
  | cons content children rest ihc ihr =>
    have empty : (children.resolvedFrom (scope.enter content.bindings)).isEmpty = children.isEmpty := by
      cases children <;> rfl
    cases content with
    | element tag =>
      rw [Forest.resolvedFrom, Content.mapElement, write_element, write_element, ihr, WriteOptions.writeElement,
        WriteOptions.writeElement, Scope.write_resolveTag, empty, writeInside_plain plain, writeInside_plain plain, ihc]
      rfl
    | _ => simp only [Forest.resolvedFrom, Content.mapElement, WriteOptions.writeForest, ihr, ihc]

/-- Before a start tag there is no declaration. -/
theorem Cursor.takes_readOptionalDeclaration_none {ch : Char} {more : List Char} (starts : isNameStart ch = true) :
    Takes readOptionalDeclaration ('<' :: ch :: more) .absent ('<' :: ch :: more) := by
  intro c hc
  have unseen : c.sees "<?xml".toList = false := by
    refine sees_eq_false fun found => ?_
    rw [hc] at found
    have second : '?' = ch := (List.cons_prefix_cons.mp (List.cons_prefix_cons.mp found).2).1
    rw [← second] at starts
    exact absurd starts (by decide)
  refine ⟨c, ?_, hc⟩
  rw [readOptionalDeclaration, seesDeclaration, unseen]
  rfl

/-- An element that was written on its own is read as the root element of a document that holds nothing else. -/
theorem ofString_writeElement (keeps : options.noBlanks = false) (plain : o.indent = false)
    (low : 1 ≤ options.maxDepth) (written : tag.Written)
    (inner : Readable options 1 (Scope.initial.enter tag.bindings) false children) :
    let root := Content.element ((Scope.initial.enter tag.bindings).resolveTag tag)
    ∃ m, Markup.ofString options (o.writeNode root children) = .ok m ∧ m.nodes = .tree root children := by
  intro root
  let reader (scope : Scope) (p : Progress) := readContent options 1 scope false p
  have text : (o.writeNode root children).toList =
      o.writeElement 0 ((Scope.initial.enter tag.bindings).resolveTag tag) children [] := by
    rw [WriteOptions.writeNode, String.toList_ofList, Forest.tree, write_element, before_flat inline_flat]
    rfl
  obtain ⟨ch, more, begins, starts⟩ := begins_writeElement o 0 .initial children [] written
  have ends : EndsAsides ('<' :: ch :: more) := endsAsides_startTag starts
  have element : Progress.Takes (fun p => readElement options 1 .initial p reader) ('<' :: ch :: more)
      ((Scope.initial.enter tag.bindings).resolveTag tag, children) [] := by
    rw [← begins]
    refine takes_writeElement reader low written id fun after _ => ?_
    rw [writeInside_plain plain]
    exact takes_readContent keeps plain inner false 1 after
  obtain ⟨p, declared, hp⟩ :=
    (Cursor.takes_readOptionalDeclaration_none starts).read ⟨⟨'<' :: ch :: more, .start⟩, []⟩ rfl
  obtain ⟨p₁, before, hp₁⟩ := (Cursor.takes_readAsides_none ends).read p hp
  obtain ⟨p₂, typed, hp₂⟩ := takes_readTypeDeclaration starts p₁ hp₁
  obtain ⟨p₃, read, hp₃⟩ := element p₂ hp₂
  obtain ⟨p₄, after, hp₄⟩ := (Cursor.takes_readAsides_none endsAsides_nil).read p₃ hp₃
  have opened : ¬ (!p₂.cursor.sees ['<']) = true := by
    rw [Cursor.sees_here hp₂]
    exact Bool.false_ne_true
  have ended : ¬ (!p₄.cursor.atEnd) = true := by
    rw [Cursor.atEnd, hp₄]
    exact Bool.false_ne_true
  refine ⟨⟨.absent, .tree root children, p₄.warnings⟩, ?_, rfl⟩
  have whole : Markup.ofString options (o.writeNode root children) =
      readDocument options ⟨'<' :: ch :: more, .start⟩ := by
    rw [Markup.ofString, text, begins]
    rfl
  rw [whole]
  refine bind_eq_ok.2 ⟨_, declared, bind_eq_ok.2 ⟨_, before, bind_eq_ok.2 ⟨_, typed, ?_⟩⟩⟩
  refine (if_neg opened).trans (bind_eq_ok.2 ⟨_, read, bind_eq_ok.2 ⟨_, after, ?_⟩⟩)
  exact (if_neg ended).trans rfl

/-- What is read for an element that was readable somewhere is the element with its names resolved afresh. -/
theorem Readable.ofString_writeNode (keeps : options.noBlanks = false) (plain : o.indent = false)
    (readable : Readable options depth scope false (.tree (.element tag) children)) :
    ∃ m, Markup.ofString options (o.writeNode (.element tag) children) = .ok m ∧
      m.nodes = (Forest.tree (.element tag) children).resolvedFrom .initial := by
  have same : o.writeForest .inline 0 ((Forest.tree (.element tag) children).resolvedFrom .initial) [] =
      o.writeForest .inline 0 (.tree (.element tag) children) [] :=
    writeForest_resolvedFrom plain .inline 0 .initial _ []
  rw [WriteOptions.writeNode, ← same]
  cases readable with
  | leaf reread => cases reread
  | @element _ _ _ written _ _ deep isWritten inner _ =>
    rw [Forest.tree, Forest.resolvedFrom, Content.mapElement, Scope.resolveTag_resolveTag]
    have low := Nat.le_trans (Nat.succ_le_succ (Nat.zero_le depth)) deep
    exact ofString_writeElement keeps plain low isWritten (inner.resolvedFrom (Nat.succ_le_succ (Nat.zero_le depth)) _)

end

end XmlStore
