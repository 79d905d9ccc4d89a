/-
Pieces of markup that are read back. What readers hand out satisfies some
conditions: a comment has no double hyphen, the data of an instruction do not
begin with a blank, and so on. Under these conditions it is taken again from
what is written for it.
-/
import XmlStore.Markup.Read
import XmlStore.Markup.Write
import XmlStore.Proofs.Outcomes

namespace XmlStore

namespace Cursor

variable {c d : Cursor} {ch : Char} {chars rest tail : List Char} {s : String}

/-- Characters that a document may hold, in some spelling. -/
def Valid (chars : List Char) : Prop := ∀ ch ∈ chars, isXmlChar ch = true

/-- Characters that stand for themselves where nothing is replaced but line ends. -/
def Raw (chars : List Char) : Prop := ∀ ch ∈ chars, isXmlChar ch = true ∧ ch ≠ '\r'

/-- With `closing` behind these characters, `bad` does not begin at any of them. -/
def ClearOf (bad closing chars : List Char) : Prop :=
  ∀ before ch after, chars = before ++ ch :: after → ¬ bad <+: ch :: after ++ closing

/-- What is not at the front of a text is not there when the text goes on. -/
theorem not_prefix_append {bad l more : List Char} (h : ¬ bad <+: l) (long : bad.length ≤ l.length) :
    ¬ bad <+: l ++ more := by
  intro found
  exact h (List.prefix_of_prefix_length_le found (List.prefix_append l more) long)

theorem sees_iff {word : List Char} : c.sees word = true ↔ word <+: c.rest :=
  List.isPrefixOf_iff_prefix

theorem sees_eq_false {word : List Char} (h : ¬ word <+: c.rest) : c.sees word = false := by
  rw [← Bool.not_eq_true, sees_iff]
  exact h

theorem sees_here (hc : c.rest = ch :: rest) : c.sees [ch] = true := by
  rw [sees_iff, hc]
  exact ⟨rest, rfl⟩

theorem sees_other {other : Char} (hc : c.rest = ch :: rest) (differs : ch ≠ other) :
    c.sees [other] = false := by
  refine sees_eq_false fun found => ?_
  rw [hc, List.cons_prefix_cons] at found
  exact differs found.1.symm

theorem not_atEnd (hc : c.rest = ch :: rest) : c.atEnd = false := by
  rw [atEnd, hc]
  rfl

/-! ## Characters -/

theorem readChar_ok (h : c.readChar = .ok (ch, d)) :
    (isXmlChar ch = true ∧ ch ≠ '\r') ∧ (ch ≠ '\n' → c.rest = ch :: d.rest) := by
  rw [readChar] at h
  split at h
  · cases h
  · cases h
    exact ⟨by decide, fun other => absurd rfl other⟩
  · cases h
    exact ⟨by decide, fun other => absurd rfl other⟩
  · rename_i ch' more _ cr hc
    split at h
    · rename_i valid
      cases h
      refine ⟨⟨valid, ?_⟩, fun _ => by rw [rest_next hc, hc]⟩
      rintro rfl
      exact cr rfl
    · cases h

/-- A blank that is read is a blank in the text. -/
theorem blank_of_readChar (h : c.readChar = .ok (ch, d)) (blank : isBlank ch = true) :
    ∃ first ∈ c.rest.head?, isBlank first = true := by
  rw [readChar] at h
  split at h
  · cases h
  · rename_i hc
    exact ⟨'\r', by rw [hc]; rfl, by decide⟩
  · rename_i hc
    exact ⟨'\r', by rw [hc]; rfl, by decide⟩
  · rename_i first more _ _ hc
    split at h
    · cases h
      exact ⟨ch, by rw [hc]; rfl, blank⟩
    · cases h

theorem not_blank_skipBlanks (c : Cursor) : ∀ ch ∈ c.skipBlanks.rest.head?, isBlank ch = false := by
  intro ch hch
  rw [rest_skipBlanks] at hch
  have head := List.head?_dropWhile_not isBlank c.rest
  rw [hch] at head
  simpa using head

/-- A reader that hands out characters as they stand. -/
def Literally (read : Cursor → Except Fault (Char × Cursor)) : Prop :=
  ∀ ⦃c ch d⦄, read c = .ok (ch, d) → c.readChar = .ok (ch, d)

section

variable {stop : Cursor → Bool} {read : Cursor → Except Fault (Char × Cursor)}
variable {bad closing : List Char}

theorem Collected.raw (h : Collected stop read c chars d) (literally : Literally read) : Raw chars :=
  h.forall fun _ _ _ _ taken => (readChar_ok (literally taken)).1

/-- What is at the front of what was collected was there in the text, if it has no line ends. -/
theorem Collected.at_front (h : Collected stop read c chars d) (literally : Literally read)
    (closes : closing <+: d.rest) {word : List Char} (one_line : '\n' ∉ word)
    (found : word <+: chars ++ closing) : word <+: c.rest := by
  induction h generalizing word with
  | stop => exact found.trans closes
  | step goes taken more ih =>
    rename_i ch chars
    cases word with
    | nil => exact List.nil_prefix
    | cons first word =>
      rw [List.cons_append, List.cons_prefix_cons] at found
      obtain ⟨rfl, found⟩ := found
      rw [List.mem_cons, not_or] at one_line
      have stands := (readChar_ok (literally taken)).2 fun e => one_line.1 e.symm
      rw [stands, List.cons_prefix_cons]
      exact ⟨rfl, ih closes one_line.2 found⟩

theorem Collected.clear (h : Collected stop read c chars d) (literally : Literally read)
    (closes : closing <+: d.rest) (one_line : '\n' ∉ bad)
    (avoids : ∀ ⦃c ch d⦄, stop c = false → read c = .ok (ch, d) → ¬ bad <+: c.rest) :
    ClearOf bad closing chars := by
  induction h with
  | stop =>
    intro before ch after e
    exact absurd e.symm (List.append_ne_nil_of_right_ne_nil before (List.cons_ne_nil ch after))
  | step goes taken more ih =>
    rename_i ch chars
    intro before ch' after e
    cases before with
    | nil =>
      cases e
      exact fun found => avoids goes taken
        ((Collected.step goes taken more).at_front literally closes one_line found)
    | cons first before =>
      have later : chars = before ++ ch' :: after := (List.cons_eq_cons.mp e).2
      exact ih closes before ch' after later

/-- Characters that stand for themselves are taken up to what closes them. -/
theorem takes_raw (advances : Advances read) (rest : List Char) (raw : Raw s.toList)
    (clear : ClearOf bad closing s.toList) (opens : bad <+: closing)
    (reads : ∀ c ch, ch ∈ c.rest.head? → ¬ bad <+: c.rest → read c = c.readChar) :
    Takes (readUntil (·.sees closing) read advances) (s.toList ++ (closing ++ rest)) s
      (closing ++ rest) := by
  have spells : SpellsIff (·.sees closing) read (fun ch => [ch]) (fun ch => isXmlChar ch = true) s.toList
      (closing ++ rest) := by
    intro before ch after e c hc
    have kept := (raw ch (e ▸ List.mem_append_right before List.mem_cons_self)).2
    have away : ¬ bad <+: ch :: after ++ closing ++ rest :=
      not_prefix_append (clear before ch after e) (by
        have := opens.length_le
        simp only [List.length_append, List.length_cons]
        omega)
    have front : ¬ bad <+: c.rest := by
      rw [hc, List.flatMap_singleton', List.singleton_append, ← List.append_assoc]
      exact away
    refine ⟨sees_eq_false fun found => front (opens.trans found), ?_⟩
    rw [reads c ch (by rw [hc]; rfl) front]
    exact succeedsIff_readChar kept hc
  intro c hc
  rw [← List.flatMap_singleton' s.toList] at hc
  have stops (c : Cursor) (hc : c.rest = closing ++ rest) : c.sees closing = true :=
    sees_iff.mpr (hc ▸ List.prefix_append closing rest)
  obtain ⟨⟨_, d⟩, taken, rfl, hd⟩ :=
    (succeedsIff_readUntil advances spells stops hc).result fun ch hch => (raw ch hch).1
  rw [String.ofList_toList] at taken
  exact ⟨d, taken, hd⟩

end

/-! ## Comments, CDATA sections and processing instructions -/

theorem literally_readCommentChar : Literally readCommentChar := by
  intro c ch d h
  rw [readCommentChar] at h
  split at h
  · cases h
  · split at h
    · cases h
    · exact h

theorem literally_readCdataChar : Literally readCdataChar := by
  intro c ch d h
  rw [readCdataChar] at h
  split at h
  · cases h
  · exact h

theorem literally_readInstructionChar : Literally readInstructionChar := by
  intro c ch d h
  rw [readInstructionChar] at h
  split at h
  · cases h
  · exact h

/-- The content of a node without children other than a text, if it is read back. -/
inductive Reread : Content → Prop where
  | comment {s : String} (raw : Raw s.toList)
      (clear : ClearOf ['-', '-'] ['-', '-', '>'] s.toList) : Reread (.comment s)
  | cdata {s : String} (raw : Raw s.toList)
      (clear : ClearOf [']', ']', '>'] [']', ']', '>'] s.toList) : Reread (.cdata s)
  | bare {target : String} (name : IsName target) (free : lowerAscii target ≠ "xml") :
      Reread (.instruction target none)
  | instruction {target data : String} (name : IsName target) (free : lowerAscii target ≠ "xml")
      (starts : ∃ ch ∈ data.toList.head?, isBlank ch = false) (raw : Raw data.toList)
      (clear : ClearOf ['?', '>'] ['?', '>'] data.toList) :
      Reread (.instruction target (some data))

theorem atEnd_of_head {ch : Char} (h : ch ∈ c.rest.head?) : c.atEnd = false := by
  rw [atEnd]
  cases e : c.rest with
  | nil =>
    rw [e] at h
    cases h
  | cons => rfl

theorem Collected.first {stop : Cursor → Bool} {read : Cursor → Except Fault (Char × Cursor)}
    (h : Collected stop read c (ch :: chars) d) : ∃ e, read c = .ok (ch, e) := by
  cases h with
  | step _ taken _ => exact ⟨_, taken⟩

theorem closes_of_collected {stop : Cursor → Bool} {read : Cursor → Except Fault (Char × Cursor)}
    (h : Collected stop read c chars d) : stop d = true := by
  induction h with
  | stop stops => exact stops
  | step _ _ _ ih => exact ih

theorem reread_of_readComment {content : Content} (h : c.readComment = .ok (content, d)) :
    Reread content := by
  obtain ⟨e, -, h⟩ := bind_eq_ok.1 h
  obtain ⟨⟨s, f⟩, huntil, h⟩ := bind_eq_ok.1 h
  cases h
  have collected := collected_readUntil huntil
  have closes := sees_iff.mp (closes_of_collected collected)
  refine .comment (collected.raw literally_readCommentChar) ?_
  refine collected.clear literally_readCommentChar closes (by decide) ?_
  intro c ch d _ taken found
  rw [readCommentChar, sees_iff.mpr found] at taken
  split at taken
  · cases taken
  · cases taken

theorem takes_readComment (raw : Raw s.toList)
    (clear : ClearOf ['-', '-'] ['-', '-', '>'] s.toList) :
    Takes readComment ("<!--".toList ++ (s.toList ++ ("-->".toList ++ rest))) (.comment s) rest := by
  have body := takes_raw advances_readCommentChar rest raw clear (by decide)
    fun c ch hch away => by
      rw [readCommentChar, atEnd_of_head hch, sees_eq_false away]
      rfl
  refine passes_expectWord.bind (body.bind (.finish fun c hc => ?_))
  rw [rest_skip, hc]
  rfl

theorem reread_of_readCdata {content : Content} (h : c.readCdata = .ok (content, d)) :
    Reread content := by
  obtain ⟨e, -, h⟩ := bind_eq_ok.1 h
  obtain ⟨⟨s, f⟩, huntil, h⟩ := bind_eq_ok.1 h
  cases h
  have collected := collected_readUntil huntil
  have closes := sees_iff.mp (closes_of_collected collected)
  refine .cdata (collected.raw literally_readCdataChar) ?_
  refine collected.clear literally_readCdataChar closes (by decide) ?_
  intro c ch d goes _ found
  rw [sees_iff.mpr found] at goes
  cases goes

theorem takes_readCdata (raw : Raw s.toList)
    (clear : ClearOf [']', ']', '>'] [']', ']', '>'] s.toList) :
    Takes readCdata ("<![CDATA[".toList ++ (s.toList ++ ("]]>".toList ++ rest))) (.cdata s) rest := by
  have body := takes_raw advances_readCdataChar rest raw clear (by decide)
    fun c ch hch away => by
      rw [readCdataChar, atEnd_of_head hch]
      rfl
  refine passes_expectWord.bind (body.bind (.finish fun c hc => ?_))
  rw [rest_skip, hc]
  rfl

theorem reread_of_readInstruction {content : Content} (h : c.readInstruction = .ok (content, d)) :
    Reread content := by
  obtain ⟨e, -, h⟩ := bind_eq_ok.1 h
  obtain ⟨⟨target, f⟩, hname, h⟩ := bind_eq_ok.1 h
  have name := isName_of_readName hname
  dsimp only at h
  split at h
  · cases h
  · rename_i free
    split at h
    · obtain ⟨⟨data, g⟩, huntil, h⟩ := bind_eq_ok.1 h
      cases h
      have collected := collected_readUntil huntil
      have closes := sees_iff.mp (closes_of_collected collected)
      split
      · exact .bare name free
      · rename_i filled
        refine .instruction name free ?_ (collected.raw literally_readInstructionChar) ?_
        · cases hd : data.toList with
          | nil => exact absurd (String.isEmpty_iff.mpr (String.toList_eq_nil_iff.mp hd)) filled
          | cons ch more =>
            rw [hd] at collected
            refine ⟨ch, rfl, Bool.eq_false_iff.mpr fun blank => ?_⟩
            obtain ⟨e, taken⟩ := collected.first
            obtain ⟨first, hfirst, blank⟩ :=
              blank_of_readChar (literally_readInstructionChar taken) blank
            simp [not_blank_skipBlanks f first hfirst] at blank
        · refine collected.clear literally_readInstructionChar closes (by decide) ?_
          intro c ch d goes _ found
          rw [sees_iff.mpr found] at goes
          cases goes
    · obtain ⟨g, -, h⟩ := bind_eq_ok.1 h
      cases h
      exact .bare name free

theorem takes_readInstruction_bare {target : String} (name : IsName target)
    (free : lowerAscii target ≠ "xml") :
    Takes readInstruction ("<?".toList ++ (target.toList ++ ("?>".toList ++ rest)))
      (.instruction target none) rest := by
  refine passes_expectWord.bind ((takes_readName name ?_).bind fun c hc => ?_)
  · rintro _ ⟨⟩
    decide
  · have next : c.peek?.any isBlank = false := by
      rw [peek?, hc]
      rfl
    dsimp only
    rw [if_neg free, next]
    exact passes_expectWord.bind .pure c hc

theorem takes_readInstruction {target : String} (name : IsName target)
    (free : lowerAscii target ≠ "xml") (starts : ∃ ch ∈ s.toList.head?, isBlank ch = false)
    (raw : Raw s.toList) (clear : ClearOf ['?', '>'] ['?', '>'] s.toList) :
    Takes readInstruction
      ("<?".toList ++ (target.toList ++ ((' ' :: s.toList) ++ ("?>".toList ++ rest))))
      (.instruction target (some s)) rest := by
  have body := takes_raw advances_readInstructionChar rest raw clear (by decide)
    fun c ch hch away => by
      rw [readInstructionChar, atEnd_of_head hch]
      rfl
  obtain ⟨first, hfirst, solid⟩ := starts
  obtain ⟨more, hs⟩ := List.head?_eq_some_iff.mp hfirst
  refine passes_expectWord.bind ((takes_readName name ?_).bind fun c hc => ?_)
  · rintro _ ⟨⟩
    decide
  · have next : c.peek?.any isBlank = true := by
      rw [peek?, hc]
      rfl
    have skipped : c.skipBlanks.rest = s.toList ++ ("?>".toList ++ rest) := by
      rw [rest_skipBlanks, hc, hs, List.cons_append, List.dropWhile_cons_of_pos (by decide)]
      exact List.dropWhile_cons_of_neg (by simp [solid])
    obtain ⟨e, taken, he⟩ := body c.skipBlanks skipped
    refine ⟨e.skip 2, ?_, ?_⟩
    · dsimp only
      have filled : s.isEmpty = false := by
        rw [Bool.eq_false_iff, Ne, String.isEmpty_iff, ← String.toList_eq_nil_iff, hs]
        exact List.cons_ne_nil first more
      rw [if_neg free, next, if_pos rfl, taken]
      show Except.ok (Content.instruction target (if s.isEmpty then none else some s), _) = _
      rw [filled]
      rfl
    · rw [rest_skip, he]
      rfl

/-! ## Escaped characters -/

theorem escapeTextChar_cases (ch : Char) : (escapeTextChar ch, ch) ∈ references ∨
    escapeTextChar ch = [ch] ∧ ch ≠ '&' ∧ ch ≠ '<' ∧ ch ≠ '>' ∧ ch ≠ '\r' := by
  rw [escapeTextChar]
  split
  · exact .inl (by simp_all [references])
  · split
    · exact .inl (by simp_all [references])
    · split
      · exact .inl (by simp_all [references])
      · split
        · exact .inl (by simp_all [references])
        · exact .inr ⟨rfl, ‹_›, ‹_›, ‹_›, ‹_›⟩

theorem escapeValueChar_cases (ch : Char) : (escapeValueChar ch, ch) ∈ references ∨
    escapeValueChar ch = [ch] ∧
      (ch ≠ '&' ∧ ch ≠ '<' ∧ ch ≠ '>' ∧ ch ≠ '\r') ∧ ch ≠ '"' ∧ ch ≠ '\n' ∧ ch ≠ '\t' := by
  rw [escapeValueChar]
  split
  · exact .inl (by simp_all [references])
  · split
    · exact .inl (by simp_all [references])
    · split
      · exact .inl (by simp_all [references])
      · refine (escapeTextChar_cases ch).imp id fun plain => ?_
        exact ⟨plain.1, plain.2, ‹_›, ‹_›, ‹_›⟩

theorem begins_of_references {spelling : List Char} (h : (spelling, ch) ∈ references) :
    ∃ more, spelling = '&' :: more := by
  simp only [references, List.mem_cons, List.not_mem_nil, or_false, Prod.mk.injEq] at h
  rcases h with ⟨rfl, -⟩ | ⟨rfl, -⟩ | ⟨rfl, -⟩ | ⟨rfl, -⟩ | ⟨rfl, -⟩ | ⟨rfl, -⟩ | ⟨rfl, -⟩ <;>
    exact ⟨_, rfl⟩

theorem valid_of_readReference (h : c.readReference = .ok (ch, d)) : isXmlChar ch = true := by
  have ofCode : ∀ {p value flaw} {c : Cursor}, c.readCode p value flaw = .ok (ch, d) →
      isXmlChar ch = true := by
    intro p value flaw c h
    rw [readCode] at h
    dsimp only at h
    split at h
    · cases h
    · obtain ⟨e, -, h⟩ := bind_eq_ok.1 h
      split at h
      · rename_i valid
        cases h
        exact valid
      · cases h
  obtain ⟨e, -, h⟩ := bind_eq_ok.1 h
  split at h
  · exact ofCode h
  · split at h
    · exact ofCode h
    · obtain ⟨⟨name, f⟩, -, h⟩ := bind_eq_ok.1 h
      obtain ⟨g, -, h⟩ := bind_eq_ok.1 h
      split at h
      · rename_i found
        cases h
        have known : ∀ entry ∈ entities, isXmlChar entry.2 = true := by decide
        obtain ⟨before, after, e, -⟩ := List.lookup_eq_some_iff.mp found
        exact known (name, ch) (by rw [e]; simp)
      · cases h

/-! ## Texts -/

theorem valid_of_readTextChar (h : c.readTextChar = .ok (ch, d)) : isXmlChar ch = true := by
  rw [readTextChar] at h
  split at h
  · exact valid_of_readReference h
  · split at h
    · cases h
    · exact (readChar_ok h).1.1

theorem valid_of_readText (h : c.readText = .ok (s, d)) : Valid s.toList :=
  (collected_readUntil h).forall fun _ _ _ _ taken => valid_of_readTextChar taken

/-- What is at the front of a text is there before a character that it does not have. -/
theorem prefix_of_stop {word l : List Char} (absent : ch ∉ word) (h : word <+: l ++ ch :: rest) :
    word <+: l := by
  rcases List.prefix_or_prefix_of_prefix h (List.prefix_append l (ch :: rest)) with within | ⟨more, rfl⟩
  · exact within
  · rw [List.prefix_append_right_inj] at h
    cases more with
    | nil => exact ⟨[], by simp⟩
    | cons first more =>
      rw [List.cons_prefix_cons] at h
      exact absurd (List.mem_append_right l (h.1 ▸ List.mem_cons_self)) absent

/-- No brackets are written for characters. -/
theorem not_mem_escapeText {bracket : Char} (h : bracket ∈ ['<', '>']) (chars : List Char) :
    bracket ∉ chars.flatMap escapeTextChar := by
  rw [List.mem_flatMap]
  rintro ⟨ch, -, found⟩
  have spelled : ∀ entry ∈ references, '<' ∉ entry.1 ∧ '>' ∉ entry.1 := by decide
  rcases escapeTextChar_cases ch with known | ⟨plain, -, lt, gt, -⟩
  · rw [List.mem_cons, List.mem_singleton] at h
    rcases h with rfl | rfl
    · exact (spelled _ known).1 found
    · exact (spelled _ known).2 found
  · rw [plain, List.mem_singleton] at found
    subst found
    simp [lt, gt] at h

/-- What is written for characters is read as a text if a document may hold them. -/
theorem succeedsIff_readText (hc : c.rest = chars.flatMap escapeTextChar ++ '<' :: rest) :
    SucceedsIff c.readText (Valid chars) fun r => r.1 = String.ofList chars ∧ r.2.rest = '<' :: rest := by
  have spells : SpellsIff (fun c => c.atEnd || c.sees ['<']) readTextChar escapeTextChar
      (fun ch => isXmlChar ch = true) chars ('<' :: rest) := by
    intro before ch after e c hc
    rcases escapeTextChar_cases ch with known | ⟨plain, amp, lt, gt, cr⟩
    · obtain ⟨more, spelled⟩ := begins_of_references known
      have begins : c.rest = '&' :: (more ++ (after.flatMap escapeTextChar ++ '<' :: rest)) := by
        rw [hc, spelled, List.cons_append]
      obtain ⟨d, taken, hd⟩ := takes_readReference known c hc
      refine ⟨?_, ?_⟩
      · dsimp only
        rw [not_atEnd begins, sees_other begins (by decide)]
        rfl
      · rw [readTextChar, sees_here begins, if_pos rfl, taken]
        exact .ok (valid_of_readReference taken) ⟨rfl, hd⟩
    · rw [plain] at hc
      refine ⟨?_, ?_⟩
      · dsimp only
        rw [not_atEnd hc, sees_other hc lt]
        rfl
      · have away : ¬ [']', ']', '>'] <+: c.rest := by
          rw [hc, ← List.append_assoc]
          intro found
          have within := prefix_of_stop (by decide) found
          have mem : '>' ∈ ch :: after.flatMap escapeTextChar := within.subset (by decide)
          rcases List.mem_cons.mp mem with here | later
          · exact gt here.symm
          · exact not_mem_escapeText (by decide) after later
        rw [readTextChar, sees_other hc amp, sees_eq_false away]
        exact succeedsIff_readChar cr hc
  exact succeedsIff_readUntil advances_readTextChar spells (fun c hc => by rw [sees_here hc, Bool.or_true]) hc

theorem takes_readText (valid : Valid s.toList) :
    Takes readText (escapeText s ++ '<' :: rest) s ('<' :: rest) := by
  intro c hc
  obtain ⟨⟨_, d⟩, taken, rfl, hd⟩ := (succeedsIff_readText hc).result valid
  rw [String.ofList_toList] at taken
  exact ⟨d, taken, hd⟩

/-! ## Values of attributes -/

theorem valid_of_readValueChar (h : c.readValueChar = .ok (ch, d)) : isXmlChar ch = true := by
  rw [readValueChar] at h
  split at h
  · cases h
  · split at h
    · exact valid_of_readReference h
    · split at h
      · cases h
      · obtain ⟨⟨ch', e⟩, hread, h⟩ := bind_eq_ok.1 h
        cases h
        split
        · decide
        · exact (readChar_ok hread).1.1

theorem valid_of_readAttributeValue (h : c.readAttributeValue = .ok (s, d)) : Valid s.toList := by
  rw [readAttributeValue] at h
  split at h
  · cases h
  · split at h
    · obtain ⟨⟨value, e⟩, huntil, h⟩ := bind_eq_ok.1 h
      cases h
      exact (collected_readUntil huntil).forall fun _ _ _ _ taken => valid_of_readValueChar taken
    · cases h

/-- What is written for a value is read if a document may hold its characters. -/
theorem succeedsIff_readAttributeValue (hc : c.rest = quoted s ++ rest) :
    SucceedsIff c.readAttributeValue (Valid s.toList) fun r => r.1 = s ∧ r.2.rest = rest := by
  have spells : SpellsIff (·.sees ['"']) readValueChar escapeValueChar (fun ch => isXmlChar ch = true)
      s.toList ('"' :: rest) := by
    intro before ch after e c hc
    rcases escapeValueChar_cases ch with known | ⟨plain, ⟨amp, lt, -, cr⟩, quote, lf, tab⟩
    · obtain ⟨more, spelled⟩ := begins_of_references known
      have begins : c.rest = '&' :: (more ++ (after.flatMap escapeValueChar ++ '"' :: rest)) := by
        rw [hc, spelled, List.cons_append]
      obtain ⟨d, taken, hd⟩ := takes_readReference known c hc
      refine ⟨sees_other begins (by decide), ?_⟩
      rw [readValueChar, not_atEnd begins, sees_here begins]
      dsimp only [Bool.false_eq_true, if_false, if_true]
      rw [taken]
      exact .ok (valid_of_readReference taken) ⟨rfl, hd⟩
    · rw [plain] at hc
      refine ⟨sees_other hc quote, ?_⟩
      have kept : (if (decide (ch = '\n') || decide (ch = '\t')) = true then ' ' else ch) = ch := by
        rw [decide_eq_false lf, decide_eq_false tab]
        rfl
      rw [readValueChar, not_atEnd hc, sees_other hc amp, sees_other hc lt]
      refine (succeedsIff_readChar cr hc).before ?_
      rintro ⟨_, d⟩ ⟨rfl, hd⟩
      exact ⟨_, rfl, kept, hd⟩
  have opened : c.rest = '"' :: (s.toList.flatMap escapeValueChar ++ '"' :: rest) := by
    rw [hc, quoted, escapeValue]
    simp
  rw [readAttributeValue, opened]
  refine (succeedsIff_readUntil advances_readValueChar spells (fun _ => sees_here) (rest_next opened)).before ?_
  rintro ⟨_, d⟩ ⟨rfl, hd⟩
  exact ⟨_, rfl, String.ofList_toList, rest_next hd⟩

theorem takes_readAttributeValue (valid : Valid s.toList) :
    Takes readAttributeValue (quoted s ++ rest) s rest := by
  intro c hc
  obtain ⟨⟨_, d⟩, taken, rfl, hd⟩ := (succeedsIff_readAttributeValue hc).result valid
  exact ⟨d, taken, hd⟩

end Cursor

end XmlStore
