/-
Elements that are exported and imported again. The text of an element does not
say what is declared around it, and the copy is put into the document as it was
read. So it is the same as the element, in all that they hold, exactly if no
name in it depends on those declarations.
-/
import XmlStore.Proofs.Fragments
import XmlStore.Proofs.Includes
import XmlStore.Proofs.Insertions

namespace XmlStore

open Tracked (Ensures)

namespace Document

variable {d : Document} {a : NodeId}

/-- What every tree of a forest of nodes has, by what the nodes hold, has every node of it. -/
theorem WellLinked.every_contents {P : Content → Forest Content → Prop} {f : Forest NodeId} (h : d.WellLinked)
    (branches : d.Branches f) (inside : ∀ r ∈ f.roots, d.Has r) (every : (f.map d.content).Every P) :
    ∀ a ∈ f.preorder, P (d.content a) (d.contents a) := by
  induction f with
  | nil => exact List.forall_mem_nil _
  | cons id children rest ihc ihr =>
    have shape := h.eq_spread branches inside
    obtain ⟨kids, inner, outer⟩ := branches
    obtain ⟨here, below, later⟩ := every
    rw [Forest.roots, List.forall_mem_cons] at inside
    obtain rfl : children = d.below id := by
      injection shape
    rw [Forest.preorder, List.forall_mem_cons, List.forall_mem_append]
    exact ⟨here, ihc inner (fun r hr => h.lists.has_child (p := id) (by rwa [kids] at hr)) below,
      ihr outer inside.2 later⟩

/-- What every tree of a markup has, has every node of its document but the document node. -/
theorem every_ofMarkup {P : Content → Forest Content → Prop} {m : Markup} (every : m.nodes.Every P)
    (attached : (ofMarkup m).Attached a) (below : a ≠ root) : P ((ofMarkup m).content a) ((ofMarkup m).contents a) := by
  have rooted := rooted_ofMarkup m
  have linked := rooted.wellLinked
  have order := rooted.mem_documentOrder.mpr attached
  rw [documentOrder_eq linked rooted.has_root] at order
  have inside : ∀ r ∈ ((ofMarkup m).below root).roots, (ofMarkup m).Has r := by
    rw [roots_below linked rooted.has_root]
    exact fun r hr => linked.lists.has_child hr
  rw [← contents_ofMarkup m] at every
  exact linked.every_contents (linked.branches_below rooted.has_root) inside every a
    ((List.mem_cons.mp order).resolve_left below)

/-- The topmost node of a markup is no element. -/
theorem isElement_root_ofMarkup (m : Markup) : (ofMarkup m).isElement root = false := by
  have top : (ofMarkup m).content root = .document := (grown_ofMarkup m).content _ Nat.zero_lt_one
  rw [isElement, top]
  rfl

end Document

/-! ## Documents that were imported -/

namespace OpenDocument

variable {o : OpenDocument} {e : NodeId}

/-- The document is as it was imported from a text with all its blanks, whatever was asked and set since. -/
def AsImported (o : OpenDocument) : Prop := ∃ options text imported, options.keepBlanks = true ∧
  importText options text = .ok imported ∧ o = { imported with preferences := o.preferences, cache := o.cache }

theorem asImported_importText {options : StoreOptions} {text : String} (kept : options.keepBlanks = true)
    (imported : importText options text = .ok o) : o.AsImported :=
  ⟨options, text, o, kept, imported, rfl⟩

theorem prettyPrint_importText {options : StoreOptions} {text : String} (imported : importText options text = .ok o) :
    o.preferences.prettyPrint = options.prettyPrint := by
  rw [importText] at imported
  split at imported <;> cases imported
  rfl

theorem AsImported.editable (imported : o.AsImported) : o.status = .editable := by
  obtain ⟨options, text, first, -, read, same⟩ := imported
  rw [same]
  rw [importText] at read
  split at read <;> cases read
  rfl

theorem AsImported.exists_markup (imported : o.AsImported) :
    o.readOptions.noBlanks = false ∧ ∃ text m declaration,
      Markup.ofString o.readOptions text = .ok m ∧ o.document = .ofMarkup { m with declaration } := by
  obtain ⟨options, text, first, kept, read, same⟩ := imported
  rw [same]
  rw [importText] at read
  split at read
  · rename_i m parsed
    cases read
    exact ⟨congrArg (!·) kept, text, m, _, parsed, rfl⟩
  · cases read

/-- Every element is readable by itself, at some depth and in some scope. -/
theorem AsImported.readable (imported : o.AsImported) (attached : o.document.Attached e)
    (element : o.document.isElement e = true) : ∃ depth scope,
      Readable o.readOptions depth scope false (.tree (o.document.content e) (o.document.contents e)) := by
  obtain ⟨-, text, m, declaration, parsed, same⟩ := imported.exists_markup
  rw [same] at attached element ⊢
  have below : e ≠ Document.root := by
    rintro rfl
    exact absurd element (Bool.eq_false_iff.mp (Document.isElement_root_ofMarkup _))
  have every := every_of_readDocument parsed
  exact Document.every_ofMarkup (m := { m with declaration }) every attached below element

/-- What is read for the text of an element is the element with its names resolved afresh, and so the element itself
if and only if it is self-contained. -/
theorem AsImported.reread (imported : o.AsImported) (plain : o.preferences.prettyPrint = false)
    (attached : o.document.Attached e) (element : o.document.isElement e = true) :
    let subtree := Forest.tree (o.document.content e) (o.document.contents e)
    ∃ m top below, Markup.ofString o.readOptions (o.writeNode e) = .ok m ∧ m.root? = some (top, below) ∧
      Forest.tree top below = subtree.resolvedFrom .initial ∧
      (Forest.tree top below = subtree ↔ subtree.SelfContained []) := by
  intro subtree
  obtain ⟨depth, scope, readable⟩ := imported.readable attached element
  cases content : o.document.content e with
  | element tag =>
    rw [content] at readable
    obtain ⟨m, parsed, nodes⟩ := readable.ofString_writeNode imported.exists_markup.1 (o := o.writeOptions) plain
    refine ⟨m, .element ((Scope.initial.enter tag.bindings).resolveTag tag),
      (o.document.contents e).resolvedFrom (Scope.initial.enter tag.bindings), ?_, ?_, ?_, ?_⟩
    · rw [writeNode, Document.writeNode, content]
      exact parsed
    · rw [Markup.root?, nodes]
      rfl
    · rw [show subtree = .tree (.element tag) _ from congrArg (Forest.tree · _) content]
      rfl
    · rw [show subtree = .tree (.element tag) _ from congrArg (Forest.tree · _) content]
      exact readable.resolvedFrom_initial
  | _ =>
    rw [Document.isElement, content] at element
    cases element

end OpenDocument

/-! ## The calls -/

namespace Lookup

variable {o : OpenDocument} {path : String} {e : NodeId}

theorem comesTo_elementMarkup (selected : o.select (withoutSlash path) = .ok [.node e])
    (inner : (o.document.content e).isInner = true) (below : e ≠ Document.root) :
    ComesTo o (elementMarkup path) (.ok (o.writeNode e)) := by
  refine (comesTo_node selected inner).bind (.reading ?_)
  rw [if_neg below]
  exact .pure _

end Lookup

namespace Edit

variable {o : OpenDocument} {path text : String} {p : NodeId} {m : Markup} {top : Content} {below : Forest Content}

/-- What is put in is a copy of the root element of the markup. -/
theorem ensures_importMarkup_done (selected : o.select (Lookup.withoutSlash path) = .ok [.node p])
    (inner : (o.document.content p).isInner = true) (read : Markup.ofString o.readOptions text = .ok m)
    (root : m.root? = some (top, below)) (place : Nat) :
    Ensures (· = o) (importMarkup path text place) (fun _ u =>
      u.document = (o.document.graft top below).2.insertChildAt p ⟨o.document.size⟩ place) fun _ => False := by
  rw [importMarkup]
  refine .bind (Q := fun d u => u = o ∧ d = o) (.get fun u same => ⟨same, same⟩) fun d => .assume fun same => ?_
  subst same
  rw [Document.ofString_ok.mpr ⟨m, read, rfl⟩]
  dsimp only
  refine .bind (ensures_found selected inner) fun found => .assume fun same => ?_
  subst same
  rw [External.root?_eq, Option.map_eq_some_iff] at root
  obtain ⟨id, found, held⟩ := root
  obtain ⟨rfl, rfl⟩ := Prod.mk.inj held
  rw [found]
  refine .bind ensures_own fun document => .assume fun same => ?_
  subst same
  exact .modify fun u same => rfl

end Edit

namespace Session

variable {s : Session} {handle : Handle} {o : OpenDocument}

/-- A question changes nothing of the document but what is remembered. -/
theorem document?_ask (found : s.store.document? handle = some o) (patience : Nat) (q : Question) :
    ∃ cache, (s.call patience (.ask handle q)).2.store.document? handle = some { o with cache } := by
  rw [call]
  dsimp only
  rw [Store.ask, found]
  dsimp only
  rw [Store.document?_update, found, Option.map_some, if_pos rfl]
  exact ⟨_, rfl⟩

/-- A text that is imported is answered with the next handle, which is in force for the document that was read. -/
theorem document?_importText {text : String} {patience : Nat} {a : Answer} (reachable : s.Reachable)
    (answered : (s.call patience (.importText text)).1.outcome = .answered a) :
    ∃ o, OpenDocument.importText s.store.options text = .ok o ∧ a = .integer s.store.nextHandle ∧
      (s.call patience (.importText text)).2.store.document? s.store.nextHandle = some o := by
  cases read : OpenDocument.importText s.store.options text with
  | ok o =>
    simp only [call, read, Store.add] at answered ⊢
    exact ⟨o, rfl, (Outcome.answered.inj answered).symm, reachable.sound.numbered.document?_insert o⟩
  | error cause =>
    simp only [call, read, Store.add] at answered
    cases answered

/-- The root element of a text is put behind the children of a node, and nothing else is changed. -/
theorem answered_importMarkup {path text : String} {p : NodeId} {m : Markup} {top : Content} {below : Forest Content}
    (found : s.store.document? handle = some o) (editable : o.status = .editable) (linked : o.document.WellLinked)
    (has : o.document.Has p) (selected : o.select (Lookup.withoutSlash path) = .ok [.node p])
    (inner : (o.document.content p).isInner = true) (read : Markup.ofString o.readOptions text = .ok m)
    (root : m.root? = some (top, below)) (patience : Nat) :
    let (reply, s') := s.call patience (.change handle (.importMarkup path text 0))
    reply.outcome = .answered .done ∧ ∃ d', s'.store.document? handle = some { o with document := d', cache := none } ∧
      Document.Placed o.document d' p 0 ∧
      Forest.tree (d'.content ⟨o.document.size⟩) (d'.contents ⟨o.document.size⟩) = .tree top below := by
  have edited := Edit.ensures_importMarkup_done selected inner read root 0
  obtain ⟨answered, d', found', rfl⟩ := answered_of_ensures found editable (c := .importMarkup path text 0) rfl
    (Q := (· = (o.document.graft top below).2.insertChildAt p ⟨o.document.size⟩ 0))
    (.bind edited fun _ => .pure fun u made => ⟨rfl, made⟩) patience
  obtain ⟨placed, content, shown⟩ :=
    Document.placed_insertChildAt linked has (Document.copied_graft linked top below) 0
  exact ⟨answered, _, found', placed, congrArg₂ Forest.tree content (shown.contents placed.wellLinked placed.has_new)⟩

end Session

/-- An element of a document that was imported with all its blanks is exported without indentation and imported
again below its parent. Both calls are answered. The copy is put behind the children of the parent, and nothing else
is changed. It holds what the element holds, node by node, but for the namespaces of the names, which are those that
the qualifiers stand for without the declarations around the element. So it is the same throughout if and only if
every qualifier in the element is declared there, on the way down to it, or does not stand for anything other than it
does without any declarations. -/
theorem importMarkup_of_elementMarkup {s : Session} {handle : Handle} {o : OpenDocument} (reachable : s.Reachable)
    (found : s.store.document? handle = some o) (imported : o.AsImported) (plain : o.preferences.prettyPrint = false)
    {e p : NodeId} (element : o.document.isElement e = true)
    (child : o.document.parent? e = some p) {path parent : String}
    (selected : o.select (Lookup.withoutSlash path) = .ok [.node e])
    (above : o.select (Lookup.withoutSlash parent) = .ok [.node p]) (patience : Nat) :
    let d := o.document
    let subtree := Forest.tree (d.content e) (d.contents e)
    let (exported, s') := s.call patience (.ask handle (.elementMarkup path))
    ∃ text, exported.outcome = .answered (.text text) ∧
      let (reply, s'') := s'.call patience (.change handle (.importMarkup parent text 0))
      reply.outcome = .answered .done ∧ ∃ d' copy,
        s''.store.document? handle = some { o with document := d', cache := none } ∧
        d'.children p = d.children p ++ [copy] ∧
        Forest.tree (d'.content copy) (d'.contents copy) = subtree.resolvedFrom .initial ∧
        (Forest.tree (d'.content copy) (d'.contents copy) = subtree ↔ subtree.SelfContained []) ∧
        ∀ n, d.Has n → d'.content n = d.content n ∧ d'.parent? n = d.parent? n ∧
          (n ≠ p → d'.children n = d.children n) := by
  have made := reachable.allMade.of_document? found
  have rooted := made.rooted
  have linked := rooted.wellLinked
  have attached : o.document.Attached e := Lookup.attached_of_select rooted selected (.node e) List.mem_cons_self
  have below : e ≠ Document.root := by
    rintro rfl
    rw [rooted.parent_root] at child
    cases child
  have inner : (o.document.content p).isInner = true :=
    made.proper.branched p (List.ne_nil_of_mem ((linked.parent e p).mpr child))
  have exported := Session.gives_of_comesTo (q := .elementMarkup path) found (reachable.sound.right.of_document? found)
    ((Lookup.comesTo_elementMarkup selected (Content.isInner_of_isElement element) below).bind (.pure _)) patience
  obtain ⟨cache, found'⟩ := Session.document?_ask found patience (.elementMarkup path)
  obtain ⟨m, top, inside, read, root, afresh, same⟩ := imported.reread plain attached element
  obtain ⟨answered, d', found'', placed, copy⟩ := Session.answered_importMarkup found' imported.editable linked
    (linked.has_parent child) above inner read root patience
  refine ⟨_, exported, answered, d', ⟨o.document.size⟩, found'', placed.place, copy.trans afresh, copy ▸ same,
    fun n has => ⟨placed.content n has, placed.parent_old linked has, placed.others n has⟩⟩

namespace Session

/-- How documents are opened: blanks are kept and nothing is indented. -/
def keepingOptions : StoreOptions := ⟨false, "  ", true, false, 256⟩

/-- A text of an element and two others below it. The name of the first has a qualifier that is declared above it
only; in the second one the qualifier is declared again. -/
def declaringText : String := "<p:a xmlns:p='u'><p:b/><c xmlns:p='v' p:x='1'/></p:a>"

/-- What is read for the text. -/
def declaringMarkup : Markup where
  declaration := .absent
  nodes := .tree (.element ⟨⟨some "p", "a"⟩, some "u", [⟨some "p", "u"⟩], []⟩)
    (.cons (.element ⟨⟨some "p", "b"⟩, some "u", [], []⟩) .nil
      (.tree (.element ⟨⟨none, "c"⟩, none, [⟨some "p", "v"⟩], [⟨⟨some "p", "x"⟩, "1", some "v"⟩]⟩) .nil))
  warnings := []

/-- The document that is made of it. -/
def declaringDocument : OpenDocument :=
  { OpenDocument.ofMarkup keepingOptions declaringMarkup with
    fileName := some importedFileName, directory := some importedDirectory }

/-- A session in which the text has been imported. -/
def declaring : Session :=
  ((start keepingOptions ⟨[], []⟩).call 0 (.importText declaringText)).2

theorem reachable_declaring : declaring.Reachable := .call (.start _ _) 0 _

theorem importText_declaringText : OpenDocument.importText keepingOptions declaringText = .ok declaringDocument := by
  have parsed : Markup.ofString keepingOptions.readOptions declaringText = .ok declaringMarkup :=
    eq_ok_of_toOption (by decide +kernel)
  rw [OpenDocument.importText, parsed]
  rfl

theorem declaring_eq : declaring = ⟨(Store.ofOptions keepingOptions).insert declaringDocument, ⟨[], []⟩⟩ := by
  rw [declaring, call]
  dsimp only
  rw [show (start keepingOptions ⟨[], []⟩).store.options = keepingOptions from rfl, importText_declaringText]
  rfl

theorem document?_declaring : declaring.store.document? 1 = some declaringDocument := by
  rw [declaring_eq]
  rfl

theorem asImported_declaringDocument : declaringDocument.AsImported :=
  OpenDocument.asImported_importText rfl importText_declaringText

end Session

theorem Outcome.eq_text {outcome : Outcome} {text : String}
    (given : (match outcome with | .answered (.text found) => found == text | _ => false) = true) :
    outcome = .answered (.text text) := by
  split at given
  · rw [eq_of_beq given]
  · cases given

/-- The second of the two elements is self-contained. -/
theorem importMarkup_of_elementMarkup_redeclared :
    let o := Session.declaringDocument
    let (exported, s') := Session.declaring.call 0 (.ask 1 (.elementMarkup "/*/c"))
    ∃ text, exported.outcome = .answered (.text text) ∧
      let (reply, s'') := s'.call 0 (.change 1 (.importMarkup "/*" text 0))
      reply.outcome = .answered .done ∧ ∃ d' copy,
        s''.store.document? 1 = some { o with document := d', cache := none } ∧
        d'.children ⟨1⟩ = [⟨2⟩, ⟨3⟩, copy] ∧
        Forest.tree (d'.content copy) (d'.contents copy) = .tree (o.document.content ⟨3⟩) (o.document.contents ⟨3⟩) := by
  intro o
  have contained : (Forest.tree (o.document.content ⟨3⟩) (o.document.contents ⟨3⟩)).SelfContained [] := by
    decide +kernel
  have selected : o.select (Lookup.withoutSlash "/*/c") = .ok [.node ⟨3⟩] := eq_ok_of_toOption (by decide +kernel)
  have above : o.select (Lookup.withoutSlash "/*") = .ok [.node ⟨1⟩] := eq_ok_of_toOption (by decide +kernel)
  obtain ⟨text, exported, answered, d', copy, found', behind, -, same, -⟩ :=
    importMarkup_of_elementMarkup Session.reachable_declaring Session.document?_declaring
      Session.asImported_declaringDocument rfl rfl rfl selected above 0
  exact ⟨text, exported, answered, d', copy, found', behind, same.mpr contained⟩

/-- The first of the two elements is in a namespace that is declared around it, and its copy is in none. -/
theorem namespace_lost_of_elementMarkup :
    let o := Session.declaringDocument
    Session.declaring.Reachable ∧ Session.declaring.store.document? 1 = some o ∧ o.AsImported ∧
    o.preferences.prettyPrint = false ∧
    o.document.content ⟨2⟩ = .element ⟨⟨some "p", "b"⟩, some "u", [], []⟩ ∧ o.document.parent? ⟨2⟩ = some ⟨1⟩ ∧
    let (exported, s') := Session.declaring.call 0 (.ask 1 (.elementMarkup "/*/*[1]"))
    exported.outcome = .answered (.text "<p:b/>") ∧
      let (reply, s'') := s'.call 0 (.change 1 (.importMarkup "/*" "<p:b/>" 0))
      reply.outcome = .answered .done ∧ ∃ o', s''.store.document? 1 = some o' ∧
        o'.document.children ⟨1⟩ = [⟨2⟩, ⟨3⟩, ⟨4⟩] ∧
        o'.document.content ⟨4⟩ = .element ⟨⟨some "p", "b"⟩, none, [], []⟩ := by
  refine ⟨Session.reachable_declaring, Session.document?_declaring, Session.asImported_declaringDocument, rfl, rfl, rfl,
    ?_⟩
  rw [Session.declaring_eq]
  refine ⟨Outcome.eq_text (by decide +kernel), Outcome.eq_done (by decide +kernel), _, rfl, by decide +kernel,
    by decide +kernel⟩

end XmlStore
