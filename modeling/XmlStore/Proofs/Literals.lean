/-
The literals of a prolog. They are read from between quotes of either kind, and
are written between double quotes as they are. So a document that was read is
written as a text from which the same declaration and the same document type
are read exactly if none of their literals holds a double quote.
-/
import XmlStore.Proofs.Trails
import XmlStore.Proofs.WellFormed

namespace XmlStore

open Cursor (IsName TakesIff)

/-- No literal of a declaration holds a double quote. -/
structure Declaration.Quotable (declaration : Declaration) : Prop where
  version : ∀ v ∈ declaration.version, XmlStore.Quotable v
  encoding : ∀ e ∈ declaration.encoding, XmlStore.Quotable e

variable {options : ReadOptions} {o : WriteOptions} {c d : Cursor} {declaration : Declaration}
variable {before typed after : List Content} {tag : Element} {children read : Forest Content}

/-! ## The declaration -/

/-- A declaration as it may be read. -/
inductive Declaration.Known : Declaration → Prop where
  | absent : Known .absent
  | declared {version : String} (numbered : "1.".toList <+: version.toList) (encoding : Option String)
      (standalone : Option Bool) : Known ⟨some version, encoding, standalone⟩

theorem known_of_readOptionalDeclaration (h : c.readOptionalDeclaration = .ok (declaration, d)) :
    declaration.Known := by
  obtain rfl | ⟨version, declared, numbered⟩ := Cursor.declared_of_readOptionalDeclaration h
  · exact .absent
  · obtain ⟨_, encoding, standalone⟩ := declaration
    obtain rfl : _ = some version := declared
    exact .declared numbered encoding standalone

theorem Declaration.Known.numbered (h : declaration.Known) :
    "1.".toList <+: (declaration.version.getD "1.0").toList := by
  cases h with
  | absent => exact ⟨['0'], rfl⟩
  | declared numbered => exact numbered

/-- The declaration that is written for one. -/
def Declaration.written (declaration : Declaration) : Declaration :=
  { declaration with version := some (declaration.version.getD "1.0") }

theorem takesIff_written (silent : o.encoding = none) (known : declaration.Known) (rest : List Char) :
    TakesIff declaration.Quotable Cursor.readOptionalDeclaration (o.writeDeclaration declaration ++ rest)
      declaration.written ('\n' :: rest) := by
  have exactly := takesIff_writeDeclaration o known.numbered rest
  have given : o.encoding.or declaration.encoding = declaration.encoding := by rw [silent, Option.none_or]
  rw [given] at exactly
  refine exactly.congr ⟨fun quotable => ⟨?_, quotable.encoding⟩, fun ⟨version, encoding⟩ => ⟨?_, encoding⟩⟩
  · cases declared : declaration.version with
    | none => exact (show '"' ∉ "1.0".toList by decide)
    | some v => exact quotable.version v declared
  · intro v declared
    rwa [Option.mem_def.mp declared] at version

theorem Declaration.Known.written (known : declaration.Known) (declared : declaration ≠ .absent) :
    declaration.written = declaration := by
  cases known with
  | absent => exact absurd rfl declared
  | declared => rfl

/-! ## The document type -/

theorem endsAsides_doctype (name : String) (systemId publicId : Option String) (rest : List Char) :
    EndsAsides (writeDoctype name systemId publicId ++ rest) := by
  obtain ⟨more, begins⟩ := begins_writeDoctype name systemId publicId
  rw [begins, List.append_assoc]
  refine ⟨?_, fun c hc => unseen_of_beginning (beginning_doctype hc)⟩
  rintro _ ⟨⟩
  decide

theorem seesDoctype {rest : List Char} {name : String} {systemId publicId : Option String}
    (hc : c.rest = writeDoctype name systemId publicId ++ rest) : c.sees "<!DOCTYPE".toList = true := by
  obtain ⟨more, begins⟩ := begins_writeDoctype name systemId publicId
  rw [Cursor.sees_iff, hc, begins]
  exact ⟨' ' :: (more ++ rest), rfl⟩

theorem endsAsides_rootForest (o : WriteOptions) (written : tag.Written) (children : Forest Content)
    (after : List Content) : EndsAsides (o.writeForest .lines 0 (rootForest tag children after) []) := by
  obtain ⟨ch, more, begins, starts⟩ := begins_rootForest o written children after
  exact begins ▸ endsAsides_startTag starts

theorem Typed.endsAsides (h : Typed typed) (o : WriteOptions) (written : tag.Written) (children : Forest Content)
    (after : List Content) :
    EndsAsides (o.writeForest .lines 0 (leaves typed ++ rootForest tag children after) []) := by
  cases h with
  | none => exact endsAsides_rootForest o written children after
  | @doctype name systemId publicId asides =>
    have lines : o.writeForest .lines 0 (leaves (.doctype name systemId publicId :: asides) ++
        rootForest tag children after) [] = _ := write_doctype_lines
    rw [lines]
    exact endsAsides_doctype ..

/-- A document type is read back if no identifier of it holds a double quote. -/
theorem Typed.reads (h : Typed typed) (quotable : ∀ content ∈ typed, content.Quotable) (written : tag.Written)
    {p : Progress} (hp : p.cursor.rest = o.writeForest .lines 0 (leaves typed ++ rootForest tag children after) []) :
    ∃ q, readTypeDeclaration p = .ok (typed, q) ∧
      q.cursor.rest = o.writeForest .lines 0 (rootForest tag children after) [] := by
  cases h with
  | none =>
    obtain ⟨ch, more, begins, starts⟩ := begins_rootForest o written children after
    obtain ⟨q, typed, hq⟩ := takes_readTypeDeclaration starts p (hp.trans begins)
    exact ⟨q, typed, hq.trans begins.symm⟩
  | @doctype name systemId publicId asides isName given behind =>
    have hc := hp.trans write_doctype_lines
    have fine := quotable _ List.mem_cons_self
    obtain ⟨d, taken, hd⟩ :=
      Cursor.readDoctype_of_takes isName ((Cursor.takesIff_readExternalId given _).takes fine) hc
    obtain ⟨e, others, he⟩ := takes_readAsides behind (endsAsides_rootForest o written children after) d hd
    refine ⟨⟨e, p.warnings ++ []⟩, ?_, he⟩
    rw [readTypeDeclaration, if_pos (seesDoctype hc)]
    refine bind_eq_ok.2 ⟨_, taken, bind_eq_ok.2 ⟨(asides, ⟨e, p.warnings ++ []⟩), ?_, rfl⟩⟩
    rw [Progress.read, others]

theorem filter_isDoctype {contents : List Content} (asides : ∀ content ∈ contents, Aside content) :
    contents.filter Content.isDoctype = [] := by
  rw [List.filter_eq_nil_iff]
  intro content mem
  cases (asides content mem).reread <;> exact Bool.false_ne_true

/-- The document type of a document. -/
theorem filter_roots (ahead : ∀ content ∈ before, Aside content) (behind : ∀ content ∈ after, Aside content) :
    (leaves (before ++ typed) ++ .cons (.element tag) children (leaves after)).roots.filter Content.isDoctype =
      typed.filter Content.isDoctype := by
  simp [Forest.roots_append, Forest.roots, roots_leaves, filter_isDoctype ahead, filter_isDoctype behind,
    Content.isDoctype]

theorem leaves_append (first second : List Content) (f : Forest Content) :
    leaves (first ++ second) ++ f = leaves first ++ (leaves second ++ f) := by
  induction first with
  | nil => rfl
  | cons content first ih => exact congrArg (Forest.cons content .nil) ih

/-! ## The whole document -/

/-- What stands between the tags of a root element is read back, with blanks left out or not. -/
theorem takes_inner (plain : o.indent = false) (unit : Gap o.indentUnit.toList)
    (inner : children = .nil ∨
      ∃ p q, readContent options 1 (Scope.initial.enter tag.bindings) false p = .ok (children, q))
    (rest : List Char) (filled : children ≠ .nil) :
    Progress.Takes (readContent options 1 (Scope.initial.enter tag.bindings) false)
      (o.writeInside 0 children ('<' :: '/' :: rest)) children ('<' :: '/' :: rest) := by
  obtain rfl | ⟨p, q, hinner⟩ := inner
  · exact absurd rfl filled
  have readable : Readable options 1 (Scope.initial.enter tag.bindings) false children :=
    readable_readContentWithin nofun hinner
  cases sieves : options.noBlanks with
  | false =>
    rw [writeInside_plain plain]
    exact takes_readContent sieves plain readable false 1 rest
  | true =>
    have flat : o.childLayout children ≠ .block := by simp [WriteOptions.childLayout, plain]
    have sieved : children.Sieved false := sieved_readContentWithin sieves hinner
    have taken := takes_inside unit (takes_remains sieves unit readable sieved 1 rest)
    rwa [remains_plain plain flat] at taken

/-- What a document was read from, with what stands ahead of its root element. -/
structure Parts (options : ReadOptions) (before typed : List Content) (tag : Element) (children : Forest Content)
    (after : List Content) : Prop where
  ahead : ∀ content ∈ before, Aside content
  typed : Typed typed
  behind : ∀ content ∈ after, Aside content
  low : 1 ≤ options.maxDepth
  written : tag.Written
  inner : children = .nil ∨
    ∃ p q, readContent options 1 (Scope.initial.enter tag.bindings) false p = .ok (children, q)

theorem parts_readDocument {m : Markup} (h : readDocument options c = .ok m) :
    m.declaration.Known ∧ ∃ before typed tag children after, Parts options before typed tag children after ∧
      m.nodes = leaves (before ++ typed) ++ rootForest tag children after := by
  obtain ⟨c₁, before, c₂, typed, p, tag, children, q, after, e, hdeclared, hbefore, htyped, hread, hafter, shape⟩ :=
    steps_of_readDocument h
  obtain ⟨low, written, hwritten, rfl, inner⟩ := written_readElement hread
  exact ⟨known_of_readOptionalDeclaration hdeclared, before, typed, written, children, after,
    ⟨asides_of_readAsides hbefore, typed_of_readTypeDeclaration htyped, asides_of_readAsides hafter, low, hwritten,
      inner⟩, shape⟩

namespace Parts

variable (h : Parts options before typed tag children after)

include h

/-- What is written for a document whose literals hold no double quotes is read back. -/
theorem readDocument_writeDocument (plain : o.indent = false) (unit : Gap o.indentUnit.toList)
    (silent : o.encoding = none) (known : declaration.Known)
    (declared : declaration.Quotable) (quotable : ∀ content ∈ typed, content.Quotable)
    (hc : c.rest =
      (o.writeDocument declaration (leaves (before ++ typed) ++ rootForest tag children after)).toList) :
    ∃ m, readDocument options c = .ok m ∧ m.declaration = declaration.written ∧
      m.nodes = leaves (before ++ typed) ++ rootForest tag children after := by
  rw [WriteOptions.writeDocument, String.toList_ofList, leaves_append] at hc
  obtain ⟨c₁, start, h₁⟩ := (takesIff_written silent known _).takes declared c hc
  obtain ⟨c₂, first, h₂⟩ := takes_readAsides h.ahead (h.typed.endsAsides o h.written children after) c₁ h₁
  obtain ⟨p, second, hp⟩ := h.typed.reads quotable h.written (p := ⟨c₂, []⟩) h₂
  obtain ⟨opened, q, e, element, last, he⟩ :=
    reads_rootForest h.behind h.low h.written id (takes_inner plain unit h.inner) hp
  exact readDocument_of_steps start first second opened element last he

theorem quotable_roots_iff : (∀ content ∈ (leaves (before ++ typed) ++ rootForest tag children after).roots,
    content.Quotable) ↔ ∀ content ∈ typed, content.Quotable := by
  have asides {contents : List Content} (asides : ∀ content ∈ contents, Aside content) :
      ∀ content ∈ contents, content.Quotable := by
    intro content mem
    cases (asides content mem).reread <;> trivial
  rw [Forest.roots_append, roots_leaves, rootForest, Forest.roots, roots_leaves]
  simp only [List.forall_mem_append, List.forall_mem_cons]
  exact ⟨fun all => all.1.2, fun typed => ⟨⟨asides h.ahead, typed⟩, trivial, asides h.behind⟩⟩

/-- Nothing is read back from a literal with a double quote. -/
theorem quotable_of_readDocument {m : Markup} (silent : o.encoding = none) (known : declaration.Known)
    (hc : c.rest =
      (o.writeDocument declaration (leaves (before ++ typed) ++ rootForest tag children after)).toList)
    (again : readDocument options c = .ok m) (redeclared : declaration ≠ .absent → m.declaration = declaration)
    (retyped : m.nodes.roots.filter Content.isDoctype =
      (leaves (before ++ typed) ++ rootForest tag children after).roots.filter Content.isDoctype) :
    declaration.Quotable ∧ ∀ content ∈ typed, content.Quotable := by
  rw [WriteOptions.writeDocument, String.toList_ofList, leaves_append] at hc
  obtain ⟨c₁, before', c₂, typed', p, tag', children', q, after', e, start, first, second, -, last, shape⟩ :=
    steps_of_readDocument again
  have declared : declaration.Quotable := by
    cases known with
    | absent => exact ⟨by rintro _ ⟨⟩, by rintro _ ⟨⟩⟩
    | declared =>
      rw [redeclared (by rintro ⟨⟩)] at start
      exact (takesIff_written silent (.declared ‹_› _ _) _).needs hc start
  refine ⟨declared, ?_⟩
  cases h.typed with
  | none => exact List.forall_mem_nil _
  | @doctype name systemId publicId asides isName given behind =>
    obtain ⟨d₁, again₁, h₁⟩ := (takesIff_written silent known _).takes declared c hc
    obtain rfl : d₁ = c₁ := congrArg Prod.snd (Except.ok.inj (again₁.symm.trans start))
    obtain ⟨d₂, again₂, h₂⟩ := takes_readAsides h.ahead (h.typed.endsAsides o h.written children after) d₁ h₁
    obtain rfl : d₂ = c₂ := congrArg Prod.snd (Except.ok.inj (again₂.symm.trans first))
    have written := h₂.trans write_doctype_lines
    rw [readTypeDeclaration, if_pos (seesDoctype written)] at second
    obtain ⟨⟨⟨doctype, warnings⟩, f⟩, hdoctype, second⟩ := bind_eq_ok.1 second
    obtain ⟨⟨asides', g⟩, hasides, second⟩ := bind_eq_ok.1 second
    cases second
    obtain ⟨name', systemId', publicId', rfl, -, -⟩ := doctype_of_readDoctype hdoctype
    rw [shape, rootForest, filter_roots (asides_of_readAsides first) (asides_of_readAsides last),
      filter_roots h.ahead h.behind] at retyped
    have same : Content.doctype name' systemId' publicId' = .doctype name systemId publicId :=
      (List.cons.inj retyped).1
    have fine := Cursor.quotable_of_readDoctype isName given written (same ▸ hdoctype)
    refine List.forall_mem_cons.mpr ⟨fine, fun content mem => ?_⟩
    cases (behind content mem).reread <;> trivial

end Parts

namespace Document

theorem known_declaration {s : String} {d : Document} (read : ofString options s = .ok d) : d.declaration.Known := by
  obtain ⟨m, parsed, rfl⟩ := ofString_ok.mp read
  rw [(grown_ofMarkup m).declaration]
  exact (parts_readDocument parsed).1

/-- A document that was read, and none of whose literals holds a double quote, is read back. -/
theorem ofString_write_of_quotable {s : String} {d : Document} (read : ofString options s = .ok d)
    (declared : d.declaration.Quotable) (quotable : ∀ content ∈ (d.contents root).roots, content.Quotable) :
    ∃ again, ofString options (d.write .default) = .ok again ∧ again.declaration = d.declaration.written ∧
      again.contents root = d.contents root := by
  have known := known_declaration read
  obtain ⟨m, parsed, rfl⟩ := ofString_ok.mp read
  obtain ⟨-, before, typed, tag, children, after, parts, shape⟩ := parts_readDocument parsed
  rw [contents_ofMarkup, shape, parts.quotable_roots_iff] at quotable
  have unit : Gap WriteOptions.default.indentUnit.toList := by simp [Gap, WriteOptions.default]
  obtain ⟨c, hc, same⟩ := ofString_writeDocument (o := .default) options (ofMarkup m).declaration m.nodes
  rw [shape] at hc
  obtain ⟨m', reread, redeclared, nodes⟩ := parts.readDocument_writeDocument rfl unit rfl known declared quotable hc
  refine ⟨ofMarkup m', ofString_ok.mpr ⟨m', ?_, rfl⟩, (grown_ofMarkup m').declaration.trans redeclared, ?_⟩
  · rw [write, contents_ofMarkup]
    exact same.trans reread
  · rw [contents_ofMarkup, contents_ofMarkup, nodes, shape]

/-- A document that was read is written as a text from which the same declaration and the same document type are
read exactly if no literal of either holds a double quote. -/
theorem ofString_write_prolog_iff {s : String} {d : Document} (read : ofString options s = .ok d) :
    (∃ again, ofString options (d.write .default) = .ok again ∧
        (d.declaration ≠ .absent → again.declaration = d.declaration) ∧
        (again.contents root).roots.filter Content.isDoctype = (d.contents root).roots.filter Content.isDoctype) ↔
      d.declaration.Quotable ∧ ∀ content ∈ (d.contents root).roots, content.Quotable := by
  have known := known_declaration read
  constructor
  · rintro ⟨again, reread, redeclared, retyped⟩
    obtain ⟨m, parsed, rfl⟩ := ofString_ok.mp read
    obtain ⟨m', reparsed, rfl⟩ := ofString_ok.mp reread
    obtain ⟨-, before, typed, tag, children, after, parts, shape⟩ := parts_readDocument parsed
    rw [contents_ofMarkup, contents_ofMarkup, shape] at retyped
    have declaration : (ofMarkup m').declaration = m'.declaration := (grown_ofMarkup m').declaration
    rw [declaration] at redeclared
    rw [write, contents_ofMarkup] at reparsed
    obtain ⟨c, hc, same⟩ := ofString_writeDocument (o := .default) options (ofMarkup m).declaration m.nodes
    rw [shape] at hc
    rw [contents_ofMarkup, shape, parts.quotable_roots_iff]
    exact parts.quotable_of_readDocument rfl known hc (same.symm.trans reparsed) redeclared retyped
  · rintro ⟨declared, quotable⟩
    obtain ⟨again, reread, redeclared, nodes⟩ := ofString_write_of_quotable read declared quotable
    exact ⟨again, reread, fun some => redeclared.trans (known.written some), by rw [nodes]⟩

/-- A declaration with all settings, and a document type between asides. -/
theorem ofString_write_prolog_sample : ∃ d again,
    ofString .default "<?xml version='1.0' encoding='x' standalone='no'?><!--c--><!DOCTYPE a PUBLIC 'p' \"s\"><?t?><a/>" =
        .ok d ∧
      ofString .default (d.write .default) = .ok again ∧
      again.declaration = ⟨some "1.0", some "x", some false⟩ ∧
      (again.contents root).roots.filter Content.isDoctype = [.doctype "a" (some "s") (some "p")] := by
  let m : Markup := ⟨⟨some "1.0", some "x", some false⟩, leaves [.comment "c", .doctype "a" (some "s") (some "p"),
    .instruction "t" none, .element (.named ⟨none, "a"⟩)], []⟩
  have parsed : Markup.ofString .default
      "<?xml version='1.0' encoding='x' standalone='no'?><!--c--><!DOCTYPE a PUBLIC 'p' \"s\"><?t?><a/>" = .ok m := by
    decide +kernel
  have read := ofString_ok.mpr ⟨m, parsed, rfl⟩
  have declaration : (ofMarkup m).declaration = m.declaration := (grown_ofMarkup m).declaration
  have fine : (ofMarkup m).declaration.Quotable ∧
      ∀ content ∈ ((ofMarkup m).contents root).roots, content.Quotable := by
    rw [declaration, contents_ofMarkup]
    refine ⟨⟨?_, ?_⟩, ?_⟩ <;> simp [m, leaves, Forest.roots, Content.Quotable, Quotable]
  obtain ⟨again, reread, redeclared, retyped⟩ := (ofString_write_prolog_iff read).mpr fine
  refine ⟨ofMarkup m, again, read, reread, ?_, ?_⟩
  · exact (redeclared (by rw [declaration]; rintro ⟨⟩)).trans declaration
  · rw [retyped, contents_ofMarkup]
    rfl

/-- An identifier between single quotes that holds a double quote: what is written cannot be read. -/
theorem ofString_write_doctype_refused : ∃ d e,
    ofString .default "<!DOCTYPE a SYSTEM 'x\"y'><a/>" = .ok d ∧
      (d.contents root).roots.filter Content.isDoctype = [.doctype "a" (some "x\"y") none] ∧
      ofString .default (d.write .default) = .error e := by
  let m : Markup := ⟨.absent, leaves [.doctype "a" (some "x\"y") none, .element (.named ⟨none, "a"⟩)], []⟩
  have parsed : Markup.ofString .default "<!DOCTYPE a SYSTEM 'x\"y'><a/>" = .ok m := by
    decide +kernel
  have refused : (Markup.ofString .default (WriteOptions.default.writeDocument .absent m.nodes)).isOk = false := by
    decide +kernel
  have text : (ofMarkup m).write .default = WriteOptions.default.writeDocument .absent m.nodes := by
    rw [write, contents_ofMarkup, (grown_ofMarkup m).declaration]
  cases again : Markup.ofString .default (WriteOptions.default.writeDocument .absent m.nodes) with
  | error e =>
    refine ⟨ofMarkup m, e, ofString_ok.mpr ⟨m, parsed, rfl⟩, by rw [contents_ofMarkup]; rfl, ?_⟩
    rw [text, ofString, again]
    rfl
  | ok m' =>
    rw [again] at refused
    cases refused

end Document

end XmlStore
