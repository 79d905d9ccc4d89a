/-
The encoding that bytes are decoded under, and the one that their text
declares. The label is looked for in the bytes, ahead of decoding, and read
once more from the text. The two differ where something else than a label is
found, or the label is out of sight.
-/
import XmlStore.Proofs.EncodingLabels

namespace XmlStore

open Cursor

variable {options : ReadOptions} {bytes before rest : Bytes} {s label : String} {m : Markup}

/-! ## Finding the label in bytes -/

theorem utf8Bytes_of_decodeUtf8? (h : decodeUtf8? bytes = some s) : bytes = s.toList.flatMap String.utf8EncodeChar := by
  rw [decodeUtf8?, String.fromUTF8?] at h
  split at h
  · have same : s.toByteArray = bytes.toByteArray := (congrArg String.toByteArray (Option.some.inj h)).symm
    rw [← utf8Bytes_flatMap, utf8Bytes_eq, same, List.data_toByteArray]
  · cases h

theorem decodeUtf8?_flatMap (text : List Char) :
    decodeUtf8? (text.flatMap String.utf8EncodeChar) = some (String.ofList text) := by
  have bytes := utf8Bytes_flatMap (String.ofList text)
  rw [String.toList_ofList] at bytes
  rw [← bytes, decodeUtf8?_utf8Bytes]

theorem utf8Bytes_ascii {word : String} (ascii : ∀ c ∈ word.toList, c.toNat < 128) :
    utf8Bytes word = word.toList.map Char.toUInt8 := by
  rw [utf8Bytes_flatMap, keepsAscii_utf8.flatMap_ascii ascii]

theorem ascii_opening : ∀ c ∈ "<?xml".toList, c.toNat < 128 := List.all_iff_forall_prop.mp (by decide)

theorem utf8Bytes_close : utf8Bytes "?>" = closeBytes := (utf8Bytes_ascii sought_close.ascii).trans (by decide)

/-- What is found stands ahead of the first `?>`, which is in sight. -/
theorem of_declaredEncoding? (h : declaredEncoding? bytes = some label) :
    utf8Bytes "<?xml" <+: bytes ∧ closeBytes <:+: bytes.take declarationWindow ∧
      ∃ before t, ¬ closeBytes <:+: before ∧ before ++ closeBytes <+: bytes ∧ decodeUtf8? before = some t ∧
        encodingValue? t.toList = some label := by
  rw [declaredEncoding?] at h
  split at h
  · rename_i opens
    obtain ⟨before, closed, h⟩ := Option.bind_eq_some_iff.mp h
    obtain ⟨t, decoded, found⟩ := Option.bind_eq_some_iff.mp h
    obtain ⟨free, begins⟩ := closes_of_beforeClose? closed
    refine ⟨(List.isPrefixOf_iff_prefix.mp opens).trans (List.take_prefix _ _),
      (List.suffix_append before closeBytes).isInfix.trans begins.isInfix, before, t, free,
      begins.trans (List.take_prefix _ _), decoded, found⟩
  · cases h

/-- A declaration that ends in sight is decoded, and its label looked for. -/
theorem declaredEncoding?_of_closes (opens : utf8Bytes "<?xml" <+: before ++ (closeBytes ++ rest))
    (free : ¬ closeBytes <:+: before ++ [0x3F])
    (seen : closeBytes <:+: (before ++ (closeBytes ++ rest)).take declarationWindow) :
    declaredEncoding? (before ++ (closeBytes ++ rest)) =
      (decodeUtf8? before).bind fun t => encodingValue? t.toList := by
  have opened : (utf8Bytes "<?xml").isPrefixOf ((before ++ (closeBytes ++ rest)).take declarationWindow) = true := by
    rw [List.isPrefixOf_iff_prefix, List.prefix_take_iff]
    refine ⟨opens, ?_⟩
    rw [utf8Bytes_opening]
    decide
  have whole : before ++ closeBytes <+: (before ++ (closeBytes ++ rest)).take declarationWindow := by
    have all : before ++ closeBytes <+: before ++ (closeBytes ++ rest) := ⟨rest, List.append_assoc ..⟩
    rcases List.prefix_or_prefix_of_prefix all (List.take_prefix declarationWindow _) with in_sight | short
    · exact in_sight
    · have split : before ++ closeBytes = (before ++ [0x3F]) ++ [0x3E] := by simp [closeBytes]
      rw [split, List.prefix_concat_iff] at short
      rcases short with all | short
      · exact (split.trans all.symm) ▸ List.prefix_refl _
      · exact absurd (seen.trans short.isInfix) free
  obtain ⟨more, window⟩ := whole
  rw [declaredEncoding?, if_pos opened, ← window, List.append_assoc, beforeClose?_append_closeBytes free]
  rfl

/-! ## The encoding of the bytes -/

/-- The label of the encoding that a text is in which declares one or none. -/
def encodingLabel (declared : Option String) : String :=
  (declared.filter fun label => !isUtf8Label label).getD Charset.utf8.label

theorem transcode_utf8 (bytes : Bytes) : transcode bytes Charset.utf8.label =
    match decodeUtf8? bytes with
    | some s => .ok s
    | none => .error (.malformed Charset.utf8.label) := by
  rw [transcode, Charset.ofLabel?_label]
  rfl

/-- Without a byte order mark the label that is found decides. -/
theorem decodeDocument_of_unmarked (unmarked : byteOrderMark bytes = (.utf8, 0)) :
    decodeDocument bytes = transcode bytes (encodingLabel (declaredEncoding? bytes)) := by
  rw [decodeDocument, unmarked]
  dsimp only
  rw [if_neg (by simp), List.drop_zero, encodingLabel]
  cases declaredEncoding? bytes with
  | none =>
    rw [Option.filter_none, Option.getD_none]
    exact (transcode_utf8 bytes).symm
  | some label =>
    dsimp only
    rw [Option.filter_some]
    cases isUtf8Label label with
    | true =>
      rw [if_pos rfl, Bool.not_true, if_neg Bool.false_ne_true, Option.getD_none]
      exact (transcode_utf8 bytes).symm
    | false =>
      rw [if_neg Bool.false_ne_true, Bool.not_false, if_pos rfl, Option.getD_some]

theorem transcode_eq_ok : transcode bytes label = .ok s ↔
    ∃ charset, Charset.ofLabel? label = some charset ∧ charset.decode? bytes = some s := by
  rw [transcode]
  cases Charset.ofLabel? label with
  | none => simp
  | some charset => cases h : charset.decode? bytes <;> simp [h]

/-! ### Labels are in ASCII -/

theorem toNat_lt_of_toLower {c : Char} (h : c.toLower.toNat < 128) : c.toNat < 128 := by
  delta Char.toLower at h
  split at h
  · rename_i upper
    have : c.val.toNat ≤ 90 := UInt32.le_iff_toNat_le.mp upper.2
    exact Nat.lt_of_le_of_lt this (by decide)
  · exact h

theorem ascii_of_lowerAscii (h : ∀ c ∈ (lowerAscii label).toList, c.toNat < 128) :
    ∀ c ∈ label.toList, c.toNat < 128 := by
  rw [lowerAscii, String.toList_ofList, List.forall_mem_map] at h
  exact fun c here => toNat_lt_of_toLower (h c here)

/-- What is trimmed away is what is trimmed. -/
theorem mem_trimBy {p : Char → Bool} {c : Char} {cs : List Char} (here : c ∈ cs) : p c = true ∨ c ∈ trimBy p cs := by
  have mem_dropWhile {cs : List Char} (here : c ∈ cs) : p c = true ∨ c ∈ cs.dropWhile p := by
    rw [← List.takeWhile_append_dropWhile (p := p) (l := cs), List.mem_append] at here
    exact here.imp_left (List.all_eq_true.mp List.all_takeWhile c)
  rcases mem_dropWhile here with trimmed | left
  · exact .inl trimmed
  · rw [trimBy, List.mem_reverse]
    exact mem_dropWhile (List.mem_reverse.mpr left)

theorem ascii_labels : ∀ entry ∈ Charset.labels, ∀ name ∈ entry.2, ∀ c ∈ name.toList, c.toNat < 128 := by
  have known : ∀ entry ∈ Charset.labels, ∀ name ∈ entry.2, name.toList.all (·.toNat < 128) = true := by decide
  exact fun entry listed name here => List.all_iff_forall_prop.mp (known entry listed name here)

theorem ascii_of_isUtf8Label (h : isUtf8Label label = true) : ∀ c ∈ label.toList, c.toNat < 128 := by
  have known : ∀ name ∈ ["utf-8", "utf8", "us-ascii", "ascii"], name.toList.all (·.toNat < 128) = true := by decide
  exact ascii_of_lowerAscii (List.all_iff_forall_prop.mp (known _ (List.contains_iff_mem.mp h)))

theorem ascii_of_ofLabel? {charset : Charset} (h : Charset.ofLabel? label = some charset) :
    ∀ c ∈ label.toList, c.toNat < 128 := by
  rw [Charset.ofLabel?, Option.map_eq_some_iff] at h
  obtain ⟨⟨_, names⟩, found, -⟩ := h
  have listed : names.contains (lowerAscii (String.ofList (trimBy isAsciiSpace label.toList))) = true := by
    have holds := List.find?_some found
    exact holds
  have trimmed := ascii_of_lowerAscii
    (ascii_labels _ (List.mem_of_find?_eq_some found) _ (List.contains_iff_mem.mp listed))
  rw [String.toList_ofList] at trimmed
  intro c here
  rcases mem_trimBy (p := isAsciiSpace) here with space | inner
  · simp only [isAsciiSpace, isBlank, Bool.or_eq_true, decide_eq_true_eq] at space
    rcases space with (((rfl | rfl) | rfl) | rfl) | rfl <;> decide
  · exact trimmed c inner

/-- A label by which bytes were decoded is in ASCII. -/
theorem ascii_of_transcode (h : transcode bytes (encodingLabel (some label)) = .ok s) :
    ∀ c ∈ label.toList, c.toNat < 128 := by
  cases usual : isUtf8Label label with
  | true => exact ascii_of_isUtf8Label usual
  | false =>
    obtain ⟨charset, known, -⟩ := transcode_eq_ok.mp h
    rw [encodingLabel, Option.filter_some, usual] at known
    exact ascii_of_ofLabel? known

/-! ### Texts that are read -/

/-- A document begins with a blank or with markup. -/
theorem begins_of_readDocument {c : Cursor} (h : readDocument options c = .ok m) :
    ∃ ch more, c.rest = ch :: more ∧ (isBlank ch = true ∨ ch = '<') := by
  obtain ⟨c₁, asides, c₂, typed, p, tag, children, q, _, _, hdeclaration, hasides, htyped, hread, -, -⟩ :=
    steps_of_readDocument h
  by_contra none
  have solid : ∀ ch ∈ c.rest.head?, isBlank ch = false ∧ ch ≠ '<' := by
    intro ch first
    obtain ⟨more, begins⟩ := List.head?_eq_some_iff.mp first
    have neither := not_or.mp fun here => none ⟨ch, more, begins, here⟩
    exact ⟨Bool.eq_false_iff.mpr neither.1, neither.2⟩
  have unseen (word : List Char) (d : Cursor) (same : d.rest = c.rest) : d.sees ('<' :: word) = false := by
    refine sees_eq_false fun found => ?_
    obtain ⟨more, begins⟩ := found
    exact (solid '<' (by rw [← same, ← begins]; rfl)).2 rfl
  have ends : EndsAsides c.rest := by
    refine ⟨fun ch first => (solid ch first).1, fun d same => ?_⟩
    have comment : d.sees "<!--".toList = false := unseen _ d same
    have instruction : d.sees "<?".toList = false := unseen _ d same
    rw [seesAside, comment, instruction, Bool.or_false]
  obtain rfl : c₁ = c := by
    have plain : c.sees "<?xml".toList = false := unseen _ c rfl
    rw [readOptionalDeclaration, seesDeclaration, plain, Bool.false_and, if_neg Bool.false_ne_true] at hdeclaration
    exact (congrArg Prod.snd (Except.ok.inj hdeclaration)).symm
  obtain ⟨d, passed, same⟩ := takes_readAsides_none ends c₁ rfl
  obtain rfl : c₂ = d := congrArg Prod.snd (Except.ok.inj (hasides.symm.trans passed))
  have untyped : c₂.sees "<!DOCTYPE".toList = false := unseen _ c₂ same
  rw [readTypeDeclaration, untyped, if_neg Bool.false_ne_true] at htyped
  cases htyped
  rw [readElement] at hread
  split at hread
  · cases hread
  · obtain ⟨⟨written, p⟩, htag, -⟩ := bind_eq_ok.1 hread
    obtain ⟨e, opened, -⟩ := bind_eq_ok.1 (Progress.read_eq_ok htag)
    exact none ⟨'<', e.rest, same ▸ rest_of_expect opened, .inr rfl⟩

theorem head_of_decodeUtf16? {order : ByteOrder} {a b : UInt8} (high : isHighSurrogate (order.unit a b) = false)
    (low : isLowSurrogate (order.unit a b) = false) (h : decodeUtf16? order (a :: b :: bytes) = some s) :
    ∃ more, s.toList = Char.ofNat (order.unit a b) :: more := by
  obtain ⟨chars, decoded, rfl⟩ := Option.map_eq_some_iff.mp h
  obtain ⟨units, paired, decoded⟩ := Option.bind_eq_some_iff.mp decoded
  obtain ⟨more, -, rfl⟩ := Option.map_eq_some_iff.mp paired
  rw [String.toList_ofList]
  cases more with
  | nil =>
    rw [charsOfUnits?, high, low, Bool.or_false, if_neg Bool.false_ne_true] at decoded
    cases decoded
    exact ⟨[], rfl⟩
  | cons u more =>
    rw [charsOfUnits?, high, low, if_neg Bool.false_ne_true, if_neg Bool.false_ne_true] at decoded
    obtain ⟨others, -, rfl⟩ := Option.map_eq_some_iff.mp decoded
    exact ⟨others, rfl⟩

theorem readDocument_of_ofString (h : Markup.ofString options s = .ok m) (unmarked : s.toList.head? ≠ some '\uFEFF') :
    readDocument options ⟨s.toList, .start⟩ = .ok m := by
  rw [Markup.ofString] at h
  split at h
  · rename_i marked
    exact absurd (by rw [marked]; rfl) unmarked
  · exact h

/-- What begins like an XML declaration in ASCII is not read as UTF-16. -/
theorem refuses_utf16 {order : ByteOrder} (opens : utf8Bytes "<?xml" <+: bytes)
    (decoded : decodeUtf16? order bytes = some s) : Markup.ofString options s ≠ .ok m := by
  intro read
  obtain ⟨more, rfl⟩ := opens
  rw [utf8Bytes_opening] at decoded
  have other (ch : Char) (others : List Char) (begins : s.toList = ch :: others) (unmarked : ch ≠ '\uFEFF')
      (solid : isBlank ch = false) (plain : ch ≠ '<') : False := by
    have whole := readDocument_of_ofString read (by rw [begins]; exact fun same => unmarked (Option.some.inj same))
    obtain ⟨ch', others', begins', either⟩ := begins_of_readDocument whole
    obtain ⟨rfl, -⟩ := List.cons.inj (begins.symm.trans begins')
    exact either.elim (Bool.eq_false_iff.mp solid) plain
  cases order with
  | little =>
    obtain ⟨others, begins⟩ := head_of_decodeUtf16? (by decide) (by decide) decoded
    exact other _ others begins (by decide) (by decide) (by decide)
  | big =>
    obtain ⟨others, begins⟩ := head_of_decodeUtf16? (by decide) (by decide) decoded
    exact other _ others begins (by decide) (by decide) (by decide)

/-- The bytes of a text that is read keep ASCII: they are in UTF-8, or a label was found. -/
theorem encoded_of_decodeDocument (unmarked : byteOrderMark bytes = (.utf8, 0)) (decoded : decodeDocument bytes = .ok s)
    (read : Markup.ofString options s = .ok m) : ∃ encode, KeepsAscii encode ∧ bytes = s.toList.flatMap encode ∧
      (encode = String.utf8EncodeChar ∨ (declaredEncoding? bytes).isSome = true) := by
  rw [decodeDocument_of_unmarked unmarked] at decoded
  obtain ⟨charset, known, decoded⟩ := transcode_eq_ok.mp decoded
  have found (other : charset ≠ .utf8) : ∃ label, declaredEncoding? bytes = some label := by
    cases found : declaredEncoding? bytes with
    | none =>
      rw [found, encodingLabel, Option.filter_none, Option.getD_none, Charset.ofLabel?_label] at known
      exact absurd (Option.some.inj known).symm other
    | some label => exact ⟨label, rfl⟩
  cases charset with
  | utf8 => exact ⟨_, keepsAscii_utf8, utf8Bytes_of_decodeUtf8? decoded, .inl rfl⟩
  | windows1252 =>
    obtain ⟨label, found⟩ := found (by decide)
    cases decoded
    refine ⟨_, keepsAscii_windows1252, ?_, .inr (by rw [found]; rfl)⟩
    rw [String.toList_ofList, flatMap_windows1252Byte]
  | utf16le =>
    obtain ⟨label, found⟩ := found (by decide)
    exact absurd read (refuses_utf16 (of_declaredEncoding? found).1 decoded)
  | utf16be =>
    obtain ⟨label, found⟩ := found (by decide)
    exact absurd read (refuses_utf16 (of_declaredEncoding? found).1 decoded)

theorem declaration_of_readDocument {c : Cursor} (h : readDocument options c = .ok m) : m.declaration = .absent ∨
    ∃ text more, SpellsDeclaration m.declaration text ∧ c.rest = text ++ ("?>".toList ++ more) := by
  obtain ⟨c₁, _, _, _, _, _, _, _, _, _, hdeclaration, -⟩ := steps_of_readDocument h
  rw [readOptionalDeclaration] at hdeclaration
  split at hdeclaration
  · obtain ⟨text, spells, spelled⟩ := spells_of_readDeclaration hdeclaration
    exact .inr ⟨text, c₁.rest, spells, spelled⟩
  · exact .inl (congrArg Prod.fst (Except.ok.inj hdeclaration)).symm

/-! ## The label that is found and the one that is read -/

/-- The label that is found holds no `?>`. -/
theorem not_infix_of_declaredEncoding? (h : declaredEncoding? bytes = some label) :
    ¬ "?>".toList <:+: label.toList := by
  intro within
  obtain ⟨-, -, before, t, free, -, decoded, found⟩ := of_declaredEncoding? h
  refine free ?_
  rw [utf8Bytes_of_decodeUtf8? decoded]
  exact (sought_close.infix_iff keepsAscii_utf8).mpr (within.trans (infix_of_encodingValue? found).2)

section

variable {encode : Char → Bytes} {text : List Char} {declaration : Declaration} (keeps : KeepsAscii encode)
variable (spells : SpellsDeclaration declaration text)

include keeps spells

theorem opens_of_spellsDeclaration : utf8Bytes "<?xml" <+: text.flatMap encode ++ rest := by
  obtain ⟨more, rfl⟩ := spells.opens
  rw [utf8Bytes_ascii ascii_opening, List.flatMap_append, keeps.flatMap_ascii ascii_opening, List.append_assoc]
  exact List.prefix_append _ _

/-- Where a declaration ends in its bytes. -/
theorem closes_of_spellsDeclaration
    (unversioned : ∀ version ∈ declaration.version, ¬ "?>".toList <:+: version.toList)
    (unlabelled : ∀ label ∈ declaration.encoding, ¬ "?>".toList <:+: label.toList) :
    ¬ closeBytes <:+: text.flatMap encode ++ [0x3F] := by
  have bytes : text.flatMap encode ++ [0x3F] = (text ++ ['?']).flatMap encode := by
    rw [List.flatMap_append, List.flatMap_singleton, keeps.ascii (by decide)]
    rfl
  have unnamed : ¬ "?>".toList <:+: "encoding".toList := by
    intro within
    exact absurd (within.subset (show '>' ∈ "?>".toList by decide)) (by decide)
  have missed : Misses "?>".toList text :=
    spells.misses sought_close unversioned fun label given => ⟨unnamed, unlabelled label given⟩
  rw [bytes]
  exact (sought_close.infix_iff keeps).not.mpr (missed.absent_append sought_close.nonempty (by decide))

/-- The label of a declaration is found in what its bytes are in UTF-8, with the bytes that it has. -/
theorem encodingValue?_of_spellsDeclaration (labelled : declaration.encoding = some label)
    (unversioned : ∀ version ∈ declaration.version, ¬ "encoding".toList <:+: version.toList) {t : List Char}
    (same : t.flatMap String.utf8EncodeChar = text.flatMap encode) : ∃ found, encodingValue? t = some found ∧
      found.toList.flatMap String.utf8EncodeChar = label.toList.flatMap encode := by
  obtain ⟨ahead, opening, quote, behind, rfl, unmet, opens, free⟩ := spells.label labelled unversioned
  obtain ⟨quoted, ascii⟩ := List.forall_mem_cons.mp opens.ascii
  have nonempty : opening ≠ [] := by
    cases opens
    exact List.cons_ne_nil _ _
  rw [List.flatMap_append, List.flatMap_append, keeps.flatMap_ascii ascii, List.flatMap_append, List.flatMap_cons,
    keeps.ascii quoted] at same
  obtain ⟨u, v, rfl, before, same⟩ := keepsAscii_utf8.split_word nonempty ascii same
  obtain ⟨found, d, w, rfl, small, byte, labels, -⟩ := keepsAscii_utf8.split_byte (toUInt8_lt quoted) same
  obtain rfl := eq_of_toUInt8_eq small quoted byte
  have unmet' : ¬ "encoding".toList <:+: u := by
    rw [← sought_encoding.infix_iff keepsAscii_utf8, before, sought_encoding.infix_iff keeps]
    exact unmet
  have free' : d ∉ found := by
    rw [← keepsAscii_utf8.mem_iff quoted, labels, keeps.mem_iff quoted]
    exact free
  exact ⟨_, encodingValue?_of_opensLabel opens unmet' free', by rw [String.toList_ofList, labels]⟩

/-- No label is found in what the bytes of a declaration without one are in UTF-8. -/
theorem encodingValue?_of_unlabelled (unlabelled : declaration.encoding = none)
    (unversioned : ∀ version ∈ declaration.version, ¬ "encoding".toList <:+: version.toList) {t : List Char}
    (same : t.flatMap String.utf8EncodeChar = text.flatMap encode) : encodingValue? t = none := by
  have missed : Misses "encoding".toList text := by
    refine spells.misses sought_encoding unversioned fun label given => ?_
    rw [unlabelled] at given
    cases given
  cases found : encodingValue? t with
  | none => rfl
  | some label =>
    have within := (sought_encoding.infix_iff keepsAscii_utf8).mpr (infix_of_encodingValue? found).1
    rw [same, sought_encoding.infix_iff keeps] at within
    exact absurd within (missed.absent sought_encoding.nonempty)

/-- The label of a declaration that ends in sight is found, and none is found in one that has none. -/
theorem declaredEncoding?_of_spellsDeclaration (spelled : bytes = text.flatMap encode ++ (closeBytes ++ rest))
    (coded : encode = String.utf8EncodeChar ∨ (declaredEncoding? bytes).isSome = true)
    (decoded : transcode bytes (encodingLabel (declaredEncoding? bytes)) = .ok s)
    (unversioned : ∀ version ∈ declaration.version,
      ¬ "encoding".toList <:+: version.toList ∧ ¬ "?>".toList <:+: version.toList)
    (shown : ∀ label ∈ declaration.encoding,
      ¬ "?>".toList <:+: label.toList ∧ closeBytes <:+: bytes.take declarationWindow) :
    declaredEncoding? bytes = declaration.encoding := by
  have unmet := fun version given => (unversioned version given).1
  have free := closes_of_spellsDeclaration keeps spells (fun version given => (unversioned version given).2)
    fun label given => (shown label given).1
  have window (seen : closeBytes <:+: bytes.take declarationWindow) :
      declaredEncoding? bytes = (decodeUtf8? (text.flatMap encode)).bind fun t => encodingValue? t.toList := by
    rw [spelled] at seen ⊢
    exact declaredEncoding?_of_closes (opens_of_spellsDeclaration keeps spells) free seen
  cases labelled : declaration.encoding with
  | none =>
    cases found : declaredEncoding? bytes with
    | none => rfl
    | some label =>
      rw [window (of_declaredEncoding? found).2.1] at found
      obtain ⟨t, inUtf8, found⟩ := Option.bind_eq_some_iff.mp found
      have same := (utf8Bytes_of_decodeUtf8? inUtf8).symm
      exact absurd found (by rw [encodingValue?_of_unlabelled keeps spells labelled unmet same]; exact nofun)
  | some label =>
    have seen := window (shown label labelled).2
    obtain ⟨t, inUtf8⟩ : ∃ t, decodeUtf8? (text.flatMap encode) = some t := by
      rcases coded with rfl | found
      · exact ⟨_, decodeUtf8?_flatMap text⟩
      · obtain ⟨label, found⟩ := Option.isSome_iff_exists.mp found
        obtain ⟨t, inUtf8, -⟩ := Option.bind_eq_some_iff.mp (seen.symm.trans found)
        exact ⟨t, inUtf8⟩
    obtain ⟨found, value, same⟩ :=
      encodingValue?_of_spellsDeclaration keeps spells labelled unmet (utf8Bytes_of_decodeUtf8? inUtf8).symm
    rw [inUtf8, Option.bind_some, value] at seen
    rw [seen] at decoded ⊢
    have ascii := ascii_of_transcode decoded
    rw [keepsAscii_utf8.flatMap_ascii ascii] at same
    rw [String.toList_inj.mp (keeps.eq_of_ascii ascii same.symm)]

end

/-- What is declared in bytes that are read, and where. -/
theorem declaration_of_decodeDocument (unmarked : byteOrderMark bytes = (.utf8, 0))
    (decoded : decodeDocument bytes = .ok s) (read : Markup.ofString options s = .ok m) :
    m.declaration = .absent ∨ ∃ encode text rest, KeepsAscii encode ∧ SpellsDeclaration m.declaration text ∧
      bytes = text.flatMap encode ++ (closeBytes ++ rest) ∧
      (encode = String.utf8EncodeChar ∨ (declaredEncoding? bytes).isSome = true) := by
  obtain ⟨encode, keeps, same, coded⟩ := encoded_of_decodeDocument unmarked decoded read
  have plain : s.toList.head? ≠ some '\uFEFF' := by
    intro marked
    obtain ⟨more, begins⟩ := List.head?_eq_some_iff.mp marked
    rcases coded with rfl | found
    · have mark : String.utf8EncodeChar '\uFEFF' = [0xEF, 0xBB, 0xBF] := by decide
      rw [same, begins, List.flatMap_cons, mark] at unmarked
      cases unmarked
    · obtain ⟨label, found⟩ := Option.isSome_iff_exists.mp found
      obtain ⟨rest, opens⟩ := (of_declaredEncoding? found).1
      rw [utf8Bytes_ascii ascii_opening, same] at opens
      obtain ⟨v, opened, -⟩ := keeps.split_prefix ascii_opening opens.symm
      rw [opened] at marked
      cases marked
  refine (declaration_of_readDocument (readDocument_of_ofString read plain)).imp_right ?_
  rintro ⟨text, more, spells, spelled⟩
  refine ⟨encode, text, more.flatMap encode, keeps, spells, ?_, coded⟩
  have close : "?>".toList.flatMap encode = closeBytes := keeps.flatMap_ascii sought_close.ascii
  rw [same, ← close, ← List.flatMap_append, ← List.flatMap_append]
  exact congrArg (List.flatMap encode) spelled

end XmlStore
