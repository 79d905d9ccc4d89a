/-
Integers that are written and read again. Whatever flags, width and precision
a format has, an integer comes out as digits that are worth its amount, with
its sign right before them and blanks around both; only a zero of no digits is
left out. Reading passes over the blanks, so that it gives the integer back,
from an element as from an attribute.
-/
import XmlStore.Proofs.FormatTexts
import XmlStore.Proofs.Insertions

namespace XmlStore

open Tracked (Ensures)

/-! ## The text of an integer -/

/-- A sign, which may be left out of what is not negative, and digits that are worth the amount. -/
structure SpellsInteger (n : Int) (mark digits : List Char) : Prop where
  marked : if n < 0 then mark = ['-'] else mark = [] ∨ mark = ['+']
  begun : digits ≠ []
  isDigit : ∀ c ∈ digits, c.isDigit = true
  value : natOfDigits digits = n.natAbs

namespace SpellsInteger

variable {n : Int} {mark digits : List Char} {c : Char}

theorem zeros (spells : SpellsInteger n mark digits) (k : Nat) :
    SpellsInteger n mark (List.replicate k '0' ++ digits) where
  marked := spells.marked
  begun := List.append_ne_nil_of_right_ne_nil _ spells.begun
  isDigit c here := by
    rcases List.mem_append.mp here with zero | digit
    · rw [List.eq_of_mem_replicate zero]
      rfl
    · exact spells.isDigit c digit
  value := (natOfDigits_replicate_append ..).trans spells.value

theorem splitSign (spells : SpellsInteger n mark digits) : splitSign (mark ++ digits) = (decide (n < 0), digits) := by
  have marked := spells.marked
  split at marked
  · rename_i negative
    rw [marked, decide_eq_true negative]
    rfl
  · rename_i other
    rw [decide_eq_false other]
    rcases marked with rfl | rfl
    · cases digits with
      | nil => exact absurd rfl spells.begun
      | cons c digits => exact splitSign_of_isDigit (spells.isDigit c List.mem_cons_self) digits
    · rfl

/-- An integer of 32 bits is read from its text. -/
theorem readInt32? (spells : SpellsInteger n mark digits) (low : -2 ^ 31 ≤ n) (high : n < 2 ^ 31) :
    readInt32? (mark ++ digits) = some n := by
  have filled : ¬ (digits.isEmpty || !digits.all Char.isDigit) = true := by
    rw [List.all_eq_true.mpr spells.isDigit, List.isEmpty_eq_false_iff.mpr spells.begun]
    decide
  have signed : (if decide (n < 0) = true then -(natOfDigits digits : Int) else natOfDigits digits) = n := by
    rw [spells.value]
    simp only [decide_eq_true_eq]
    split <;> omega
  have within : (decide (-(pow2 31 : Int) ≤ n) && decide (n < pow2 31)) = true := by
    rw [Bool.and_eq_true, decide_eq_true_eq, decide_eq_true_eq]
    exact ⟨low, high⟩
  rw [XmlStore.readInt32?, spells.splitSign]
  dsimp only
  rw [if_neg filled, signed, if_pos within]

theorem not_isSpace (spells : SpellsInteger n mark digits) (here : c ∈ mark ++ digits) : isSpace c = false := by
  rcases List.mem_append.mp here with sign | digit
  · have marked := spells.marked
    have signs : c = '-' ∨ c = '+' := by
      split at marked
      · exact .inl (by simpa [marked] using sign)
      · rcases marked with rfl | rfl
        · cases sign
        · exact .inr (by simpa using sign)
    rcases signs with rfl | rfl <;> decide
  · exact isSpace_of_isDigit (spells.isDigit c digit)

end SpellsInteger

namespace Directive

variable {d : Directive} {n : Int}

theorem exists_sign (d : Directive) (n : Int) : ∃ blank mark, d.sign (n < 0) = blank ++ mark ∧
    (∀ c ∈ blank, c = ' ') ∧ if n < 0 then mark = ['-'] else mark = [] ∨ mark = ['+'] := by
  rw [sign]
  by_cases negative : n < 0
  · exact ⟨[], ['-'], by simp [negative], List.forall_mem_nil _, by simp [negative]⟩
  · simp only [negative, decide_false, if_false, Bool.false_eq_true]
    split
    · exact ⟨[], ['+'], rfl, List.forall_mem_nil _, .inr rfl⟩
    · split
      · exact ⟨[' '], [], rfl, by simp, .inl rfl⟩
      · exact ⟨[], [], rfl, List.forall_mem_nil _, .inl rfl⟩

theorem integerBody_ne_nil {precision : Option Nat} {amount : Nat} (shown : precision = some 0 → amount ≠ 0) :
    integerBody precision amount ≠ [] ∧ natOfDigits (integerBody precision amount) = amount := by
  unfold integerBody
  split
  · rw [if_neg (shown rfl)]
    exact ⟨Nat.toDigits_ne_nil, natOfDigits_toDigits amount⟩
  · exact ⟨paddedDigits_ne_nil, natOfDigits_paddedDigits ..⟩
  · exact ⟨Nat.toDigits_ne_nil, natOfDigits_toDigits amount⟩

/-- What is written of an integer spells it, with blanks around. -/
theorem exists_spelled (shown : d.precision = some 0 → n ≠ 0) : ∃ front mark digits back,
    d.writeInteger n = front ++ (mark ++ digits ++ back) ∧ (∀ c ∈ front ++ back, c = ' ') ∧
      SpellsInteger n mark digits := by
  obtain ⟨blank, mark, sign, blanks, marked⟩ := d.exists_sign n
  have spells : SpellsInteger n mark (integerBody d.precision n.natAbs) := by
    obtain ⟨some, value⟩ := integerBody_ne_nil fun none => Int.natAbs_ne_zero.mpr (shown none)
    exact ⟨marked, some, fun c => isDigit_of_mem_integerBody, value⟩
  have filler {k : Nat} {c : Char} (here : c ∈ List.replicate k ' ') : c = ' ' := List.eq_of_mem_replicate here
  rw [writeInteger, pad, sign]
  generalize d.width - ((blank ++ mark).length + (integerBody d.precision n.natAbs).length) = fill
  split
  · refine ⟨blank, mark, _, List.replicate fill ' ', by simp only [List.append_assoc], fun c here => ?_, spells⟩
    exact (List.mem_append.mp here).elim (blanks c) filler
  · split
    · refine ⟨blank, mark, _, [], ?_, by simpa using blanks, spells.zeros fill⟩
      simp only [List.append_assoc, List.append_nil]
    · refine ⟨List.replicate fill ' ' ++ blank, mark, _, [], ?_, fun c here => ?_, spells⟩
      · simp only [List.append_assoc, List.append_nil]
      · rw [List.append_nil] at here
        exact (List.mem_append.mp here).elim filler (blanks c)

end Directive

/-- An integer is read back from what is written of it. -/
theorem readInteger_writeInteger {d : Directive} {n : Int} (low : -2 ^ 31 ≤ n) (high : n < 2 ^ 31)
    (shown : d.precision = some 0 → n ≠ 0) (path : String) :
    readInteger path (String.ofList (d.writeInteger n)) = .ok n := by
  obtain ⟨front, mark, digits, back, text, blanks, spells⟩ := Directive.exists_spelled shown
  have space : isSpace ' ' = true := by decide
  have trimmed : trimBy isSpace (d.writeInteger n) = mark ++ digits := by
    rw [text]
    refine trimBy_append (fun c here => ?_) (fun c here => ?_) fun c => spells.not_isSpace
    · rw [blanks c (List.mem_append_left _ here), space]
    · rw [blanks c (List.mem_append_right _ here), space]
  rw [readInteger, String.toList_ofList, trimmed, spells.readInt32? low high]

/-! ## In documents -/

namespace Lookup

variable {o : OpenDocument} {path name : String} {e : NodeId}

theorem comesTo_elementText (selected : o.select (withoutSlash path) = .ok [.node e])
    (inner : (o.document.content e).isInner = true) :
    ComesTo o (elementText path) (.ok (o.document.directText e)) :=
  .bind (comesTo_node selected inner) (.reading (.pure _))

theorem comesTo_attributeText {text : String} (selected : o.select (withoutSlash path) = .ok [.node e])
    (inner : (o.document.content e).isInner = true) (there : o.document.attribute? e name = some text) :
    ComesTo o (attributeText path name) (.ok text) := by
  refine .bind (comesTo_node selected inner) (.reading ?_)
  dsimp only [OpenDocument.recached_document]
  rw [there]
  exact .pure text

end Lookup

namespace Session

variable {s : Session} {handle : Handle} {o : OpenDocument} {path : String} {e : NodeId} {n : Int} {text : String}

theorem gives_integer (found : s.store.document? handle = some o) (right : o.Right)
    (selected : o.select (Lookup.withoutSlash path) = .ok [.node e]) (inner : (o.document.content e).isInner = true)
    (reads : readInteger path (o.document.directText e) = .ok n) :
    s.Gives handle (.integer path) (.answered (.integer n)) := by
  have comes : (Question.integer path).lookup.ComesTo o (.ok (.integer n)) := by
    refine .bind (Lookup.comesTo_elementText selected inner) ?_
    rw [reads]
    exact .pure _
  exact gives_of_comesTo found right comes

theorem gives_attributeInteger {name : String} (found : s.store.document? handle = some o) (right : o.Right)
    (selected : o.select (Lookup.withoutSlash path) = .ok [.node e]) (inner : (o.document.content e).isInner = true)
    (there : o.document.attribute? e name = some text) (reads : readInteger (attributePath path name) text = .ok n) :
    s.Gives handle (.attributeInteger path name) (.answered (.integer n)) := by
  have comes : (Question.attributeInteger path name).lookup.ComesTo o (.ok (.integer n)) := by
    refine .bind (Lookup.comesTo_attributeText selected inner there) ?_
    rw [reads]
    exact .pure _
  exact gives_of_comesTo found right comes

/-- An integer that has been written into a new element is read from it at every path of the element. -/
theorem integer_of_addElement (reachable : s.Reachable) (found : s.store.document? handle = some o)
    {parent name : String} {value : Scalar} (written : value.write = .ok text)
    (reads : ∀ path, readInteger path text = .ok n)
    (uri : Option String) (place : Int) (patience : Nat) :
    let (reply, s') := s.call patience (.change handle (.addElement parent name uri (some value) place))
    reply.outcome = .answered .done → ∃ o' p, s'.store.document? handle = some o' ∧
      o.select (Lookup.withoutSlash parent) = .ok [.node p] ∧ o'.document.parent? ⟨o.document.size⟩ = some p ∧
      ∀ path, o'.select (Lookup.withoutSlash path) = .ok [.node ⟨o.document.size⟩] →
        s'.Gives handle (.integer path) (.answered (.integer n)) := by
  intro answered
  have sound := reachable.allSound.of_document? found
  have linked := sound.made.rooted.wellLinked
  have accepted : (Change.addElement parent name uri (some value) place).edit =
      .ok (do discard (Edit.insertElement parent name uri (some text) place.toNat); return .done) := by
    dsimp only [Change.edit, Option.mapM]
    rw [written]
    rfl
  have inserted : Ensures (· = o) (discard (Edit.insertElement parent name uri (some text) place.toNat))
      (fun _ u => ∃ p, Lookup.Finds o parent p ∧
        u.document = o.document.insertElement p name uri text place.toNat) Edit.Left :=
    .discard ((Edit.ensures_inserted sound).imp (fun _ same => same) fun _ _ made => made.2)
  obtain ⟨o', found', p, finds, made⟩ := changed_of_answered
    (Q := fun d => ∃ p, Lookup.Finds o parent p ∧ d = o.document.insertElement p name uri text place.toNat)
    found accepted (.bind inserted fun _ => .pure fun _ h => h) answered
  have planted := Document.planted_insertElement linked finds.attached.has name uri text place.toNat
  rw [← made] at planted
  have after := reachable.call patience (.change handle (.addElement parent name uri (some value) place))
  refine ⟨o', p, found', finds.selected, planted.parent_new, fun path selected => ?_⟩
  have inner : (o'.document.content ⟨o.document.size⟩).isInner = true := by
    rw [planted.element]
    rfl
  exact gives_integer found' (after.sound.right.of_document? found') selected inner
    (planted.directText_new ▸ reads path)

/-- An integer that has been given to an element as an attribute is read from it at every path of the element. -/
theorem integer_of_setAttribute (reachable : s.Reachable) (found : s.store.document? handle = some o)
    {path name : String} {value : Scalar} (written : value.write = .ok text)
    (reads : ∀ path, readInteger path text = .ok n) (patience : Nat) :
    let (reply, s') := s.call patience (.change handle (.setAttribute path name value))
    reply.outcome = .answered .done → ∃ o' e, s'.store.document? handle = some o' ∧
      o.select (Lookup.withoutSlash path) = .ok [.node e] ∧
      ∀ path, o'.select (Lookup.withoutSlash path) = .ok [.node e] →
        s'.Gives handle (.attributeInteger path name) (.answered (.integer n)) := by
  intro answered
  have sound := reachable.allSound.of_document? found
  have accepted : (Change.setAttribute path name value).edit =
      .ok (do Edit.setAttribute path name text; return .done) := by
    rw [Change.edit, written]
    rfl
  obtain ⟨o', found', e, finds, element, made⟩ := changed_of_answered (Q := Edit.AttributeSet o path name text) found
    accepted (.bind (Edit.ensures_attributeSet sound) fun _ => .pure fun _ h => h) answered
  have there : o'.document.attribute? e name = some text := by
    rw [made, Document.attribute?_setAttribute finds.attached.has element, if_pos ⟨rfl, rfl⟩]
  have after := reachable.call patience (.change handle (.setAttribute path name value))
  refine ⟨o', e, found', finds.selected, fun path selected => ?_⟩
  refine gives_attributeInteger found' (after.sound.right.of_document? found') selected ?_ there (reads _)
  rw [Document.attribute?] at there
  cases content : o'.document.content e with
  | element => rfl
  | _ =>
    rw [content] at there
    cases there

end Session

/-- A format that is one directive for integers gives every integer of 32 bits so that it is read back, but for a
zero of no digits: from the text, from a new element that it has been written into, and from an attribute. -/
theorem integer_read_back (format : String) (t : DirectiveText) (valid : t.Valid) (text : format.toList = t.text)
    (letter : t.letter ∈ ['d', 'i']) (n : Int) (low : -2 ^ 31 ≤ n) (high : n < 2 ^ 31)
    (shown : t.precision.map natOfDigits = some 0 → n ≠ 0) :
    (∃ written, writeInteger (some format) n = .ok written ∧ ∀ path, readInteger path written = .ok n) ∧
    ∀ (s : Session) (handle : Handle) (o : OpenDocument), s.Reachable → s.store.document? handle = some o →
      (∀ parent name uri place patience,
        let change : Change := .addElement parent name uri (some (.integer n (some format))) place
        let (reply, s') := s.call patience (.change handle change)
        reply.outcome = .answered .done → ∃ o' p, s'.store.document? handle = some o' ∧
          o.select (Lookup.withoutSlash parent) = .ok [.node p] ∧ o'.document.parent? ⟨o.document.size⟩ = some p ∧
          ∀ path, o'.select (Lookup.withoutSlash path) = .ok [.node ⟨o.document.size⟩] →
            s'.Gives handle (.integer path) (.answered (.integer n))) ∧
      ∀ path name patience,
        let (reply, s') := s.call patience (.change handle (.setAttribute path name (.integer n (some format))))
        reply.outcome = .answered .done → ∃ o' e, s'.store.document? handle = some o' ∧
          o.select (Lookup.withoutSlash path) = .ok [.node e] ∧
          ∀ path, o'.select (Lookup.withoutSlash path) = .ok [.node e] →
            s'.Gives handle (.attributeInteger path name) (.answered (.integer n)) := by
  have integer : t.directive.write (.integer n) = t.directive.writeInteger n := by
    have conversion : t.directive.conversion = .integer := if_pos letter
    simp only [Directive.write, conversion]
  have written : writeInteger (some format) n = .ok (String.ofList (t.directive.writeInteger n)) := by
    have bare : writeNumber format (.integer n) =
        .ok (String.ofList ([] ++ (t.directive.write (.integer n) ++ []))) :=
      writeNumber_text valid (text.trans (List.append_nil _).symm)
    rwa [integer, List.nil_append, List.append_nil] at bare
  have reads (path : String) : readInteger path (String.ofList (t.directive.writeInteger n)) = .ok n :=
    readInteger_writeInteger low high shown path
  have value : (Scalar.integer n (some format)).write = .ok (String.ofList (t.directive.writeInteger n)) := written
  refine ⟨⟨_, written, reads⟩, fun s handle o reachable found => ⟨fun parent name uri place patience => ?_,
    fun path name patience => ?_⟩⟩
  · exact Session.integer_of_addElement reachable found value reads uri place patience
  · exact Session.integer_of_setAttribute reachable found value reads patience

/-- The least integer, with a sign, leading zeros and blanks behind it, in a new element. -/
theorem integer_read_back_least :
    let change : Change := .addElement "/a" "n" none (some (.integer (-2 ^ 31) (some "%+-16.12li"))) 0
    let (reply, s') := Session.linked.call 0 (.change 1 change)
    reply.outcome = .answered .done ∧ s'.Gives 1 (.integer "/a/n") (.answered (.integer (-2 ^ 31))) := by
  intro change
  obtain ⟨o, found, -⟩ := Session.document?_linked
  have valid : (DirectiveText.mk ['+', '-'] ['1', '6'] (some ['1', '2']) ['l'] 'i').Valid :=
    ⟨by simp, by simp, by simp, by simp, by simp, by decide, by decide⟩
  obtain ⟨-, documents⟩ := integer_read_back "%+-16.12li" _ valid (by decide) (by decide) (-2 ^ 31) (by decide)
    (by decide) (by decide)
  have answered : (Session.linked.call 0 (.change 1 change)).1.outcome = .answered .done :=
    Outcome.eq_done (by decide +kernel)
  obtain ⟨o', p, found', -, -, gives⟩ := (documents _ 1 o Session.reachable_linked found).1 "/a" "n" none 0 0 answered
  have evaluated : (Session.linked.store.document? 1).map (fun o => o.document.size) = some 3 ∧
      ((Session.linked.call 0 (.change 1 change)).2.store.document? 1).map
        (fun o => (o.select (Lookup.withoutSlash "/a/n")).toOption) = some (some [.node ⟨3⟩]) := by
    decide +kernel
  have changed : (Session.linked.call 0 (.change 1 change)).2.store.document? 1 = some o' := found'
  rw [found, changed, Option.map_some, Option.map_some, Option.some.injEq, Option.some.injEq] at evaluated
  refine ⟨answered, gives "/a/n" ?_⟩
  rw [evaluated.1]
  exact eq_ok_of_toOption evaluated.2

end XmlStore
