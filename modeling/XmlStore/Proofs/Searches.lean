/-
Looking for words in texts and in their bytes. A text is searched from word to
word: what does not have the word in it, and ends with a character that the
word does not have, is passed over. In an encoding that keeps ASCII as it is,
a word of ASCII characters stands in the bytes where it stands in the text.
-/
import XmlStore.Proofs.Marks

namespace XmlStore

variable {word text ahead behind u v : List Char} {c : Char}

/-! ## Words in a text -/

theorem prefix_of_prefix_append_cons (h : word <+: u ++ c :: v) (other : c ∉ word) : word <+: u := by
  rcases List.prefix_or_prefix_of_prefix h (List.prefix_append u (c :: v)) with begins | ⟨more, rfl⟩
  · exact begins
  · cases more with
    | nil => exact (List.append_nil u).symm ▸ List.prefix_refl u
    | cons d more =>
      obtain ⟨rfl, -⟩ := List.cons_prefix_cons.mp ((List.prefix_append_right_inj u).mp h)
      exact absurd (List.mem_append_right u List.mem_cons_self) other

theorem isPrefixOf?_eq_none_iff : word.isPrefixOf? text = none ↔ ¬ word <+: text := by
  rw [← List.isPrefixOf_iff_prefix, Bool.not_eq_true, ← List.isSome_isPrefixOf?_eq_isPrefixOf,
    Option.isSome_eq_false_iff, Option.isNone_iff_eq_none]

theorem afterFirst?_eq_none_iff (nonempty : word ≠ []) : afterFirst? word text = none ↔ ¬ word <:+: text := by
  induction text with
  | nil => simp [afterFirst?, nonempty]
  | cons c text ih =>
    rw [afterFirst?, Option.or_eq_none_iff, isPrefixOf?_eq_none_iff, ih, List.infix_cons_iff, not_or]

theorem suffix_of_afterFirst? (h : afterFirst? word text = some behind) : word ++ behind <:+ text := by
  induction text with
  | nil =>
    rw [afterFirst?] at h
    split at h
    · rename_i empty
      cases h
      rw [List.isEmpty_iff.mp empty]
      exact List.nil_suffix
    · cases h
  | cons ch text ih =>
    rw [afterFirst?, Option.or_eq_some_iff] at h
    rcases h with begins | ⟨-, later⟩
    · exact List.append_eq_of_isPrefixOf?_eq_some begins ▸ List.suffix_refl _
    · exact (ih later).trans (List.suffix_cons ch text)

theorem prefix_of_beforeFirst? (h : beforeFirst? word text = some ahead) : ahead <+: text := by
  induction text generalizing ahead with
  | nil =>
    rw [beforeFirst?] at h
    split at h
    · cases h
      exact List.nil_prefix
    · cases h
  | cons ch text ih =>
    rw [beforeFirst?] at h
    split at h
    · cases h
      exact List.nil_prefix
    · obtain ⟨inner, found, rfl⟩ := Option.map_eq_some_iff.mp h
      exact List.cons_prefix_cons.mpr ⟨rfl, ih found⟩

/-- A search for the word passes over the text. -/
def Misses (word text : List Char) : Prop := ∀ rest, afterFirst? word (text ++ rest) = afterFirst? word rest

namespace Misses

theorem nil : Misses word [] := fun _ => rfl

theorem append (h : Misses word u) (h' : Misses word v) : Misses word (u ++ v) := fun rest => by
  rw [List.append_assoc, h, h']

/-- What does not have the word is passed over up to a character that the word does not have. -/
theorem upTo (nonempty : word ≠ []) (free : ¬ word <:+: text) (other : c ∉ word) : Misses word (text ++ [c]) := by
  intro rest
  have passed (u : List Char) (h : ¬ word <+: u) : word.isPrefixOf? (u ++ c :: rest) = none :=
    isPrefixOf?_eq_none_iff.mpr fun begins => h (prefix_of_prefix_append_cons begins other)
  rw [List.append_assoc, List.singleton_append]
  induction text with
  | nil =>
    rw [List.nil_append, afterFirst?, ← List.nil_append (c :: rest), passed [] fun h => nonempty (List.prefix_nil.mp h),
      Option.none_or]
  | cons d text ih =>
    rw [List.infix_cons_iff, not_or] at free
    rw [List.cons_append, afterFirst?, ← List.cons_append, passed _ free.1, Option.none_or, ih free.2]

theorem of_disjoint (nonempty : word ≠ []) (disjoint : ∀ c ∈ text, c ∉ word) : Misses word text := by
  induction text with
  | nil => exact nil
  | cons c text ih =>
    rw [List.forall_mem_cons] at disjoint
    exact (upTo nonempty (fun h => nonempty (List.infix_nil.mp h)) disjoint.1).append (ih disjoint.2)

/-- What does not have the word is passed over up to characters that the word does not have. -/
theorem between (nonempty : word ≠ []) (free : ¬ word <:+: text) {separator : List Char} (separates : separator ≠ [])
    (disjoint : ∀ c ∈ separator, c ∉ word) : Misses word (text ++ separator) := by
  cases separator with
  | nil => exact absurd rfl separates
  | cons c separator =>
    rw [List.forall_mem_cons] at disjoint
    rw [← List.singleton_append, ← List.append_assoc]
    exact (upTo nonempty free disjoint.1).append (of_disjoint nonempty disjoint.2)

theorem absent (h : Misses word text) (nonempty : word ≠ []) : ¬ word <:+: text := by
  rw [← afterFirst?_eq_none_iff nonempty, ← List.append_nil text, h]
  exact (afterFirst?_eq_none_iff nonempty).mpr fun none => nonempty (List.infix_nil.mp none)

theorem absent_append (h : Misses word u) (nonempty : word ≠ []) (free : ¬ word <:+: v) : ¬ word <:+: u ++ v := by
  rw [← afterFirst?_eq_none_iff nonempty, h]
  exact (afterFirst?_eq_none_iff nonempty).mpr free

end Misses

/-! ## Encodings that keep ASCII -/

/-- ASCII characters are encoded as themselves, and the bytes of no other character look like them. -/
structure KeepsAscii (encode : Char → Bytes) : Prop where
  ascii ⦃c : Char⦄ (h : c.toNat < 128) : encode c = [c.toUInt8]
  other ⦃c : Char⦄ (h : 128 ≤ c.toNat) : encode c ≠ [] ∧ ∀ b ∈ encode c, 128 ≤ b.toNat

theorem toUInt8_lt {c : Char} (ascii : c.toNat < 128) : c.toUInt8.toNat < 128 := by
  rw [toNat_toUInt8 ascii]
  exact ascii

theorem eq_of_toUInt8_eq {c d : Char} (hc : c.toNat < 128) (hd : d.toNat < 128) (same : c.toUInt8 = d.toUInt8) :
    c = d := by
  have : c.toNat = d.toNat := by rw [← toNat_toUInt8 hc, ← toNat_toUInt8 hd, same]
  rw [← Char.ofNat_toNat c, this, Char.ofNat_toNat]

namespace KeepsAscii

variable {encode : Char → Bytes} {bytes rest : Bytes}

theorem flatMap_ascii (keeps : KeepsAscii encode) (ascii : ∀ c ∈ word, c.toNat < 128) :
    word.flatMap encode = word.map Char.toUInt8 := by
  induction word with
  | nil => rfl
  | cons c word ih =>
    rw [List.forall_mem_cons] at ascii
    rw [List.flatMap_cons, keeps.ascii ascii.1, ih ascii.2, List.singleton_append, List.map_cons]

theorem eq_nil (keeps : KeepsAscii encode) (h : text.flatMap encode = []) : text = [] := by
  cases text with
  | nil => rfl
  | cons c text =>
    obtain ⟨empty, -⟩ := List.append_eq_nil_iff.mp h
    by_cases ascii : c.toNat < 128
    · rw [keeps.ascii ascii] at empty
      cases empty
    · exact absurd empty (keeps.other (Nat.le_of_not_lt ascii)).1

/-- A byte of ASCII is a character of the text. -/
theorem split_byte (keeps : KeepsAscii encode) {b : UInt8} (small : b.toNat < 128)
    (h : text.flatMap encode = bytes ++ b :: rest) : ∃ u c v, text = u ++ c :: v ∧ c.toNat < 128 ∧ c.toUInt8 = b ∧
      u.flatMap encode = bytes ∧ v.flatMap encode = rest := by
  induction text generalizing bytes with
  | nil => simp at h
  | cons d text ih =>
    have later (bytes : Bytes) (h : text.flatMap encode = bytes ++ b :: rest) : ∃ u c v, d :: text = u ++ c :: v ∧
        c.toNat < 128 ∧ c.toUInt8 = b ∧ u.flatMap encode = encode d ++ bytes ∧ v.flatMap encode = rest := by
      obtain ⟨u, c, v, rfl, ascii, byte, before, behind⟩ := ih h
      exact ⟨d :: u, c, v, rfl, ascii, byte, by rw [List.flatMap_cons, before], behind⟩
    rw [List.flatMap_cons] at h
    rcases List.append_eq_append_iff.mp h with ⟨more, rfl, behind⟩ | ⟨more, first, behind⟩
    · exact later more behind
    · cases more with
      | nil =>
        rw [List.append_nil] at first
        obtain ⟨u, c, v, split, ascii, byte, before, behind⟩ := later [] behind.symm
        exact ⟨u, c, v, split, ascii, byte, by rw [before, List.append_nil, first], behind⟩
      | cons b' more =>
        obtain ⟨rfl, rest'⟩ := List.cons.inj behind
        have mem : b ∈ encode d := first ▸ List.mem_append_right bytes List.mem_cons_self
        have ascii : d.toNat < 128 := by
          refine Nat.lt_of_not_le fun large => ?_
          have := (keeps.other large).2 b mem
          omega
        rw [keeps.ascii ascii, eq_comm, List.append_eq_singleton_iff] at first
        rcases first with ⟨rfl, single⟩ | ⟨-, none⟩
        · obtain ⟨byte, rfl⟩ := List.cons.inj single
          exact ⟨[], d, text, rfl, ascii, byte.symm, rfl, rest'.symm⟩
        · cases none

theorem split_prefix (keeps : KeepsAscii encode) (ascii : ∀ c ∈ word, c.toNat < 128)
    (h : text.flatMap encode = word.map Char.toUInt8 ++ rest) : ∃ v, text = word ++ v ∧ v.flatMap encode = rest := by
  induction word generalizing text with
  | nil => exact ⟨text, rfl, h⟩
  | cons d word ih =>
    rw [List.forall_mem_cons] at ascii
    obtain ⟨u, c, v, rfl, small, byte, before, behind⟩ :=
      keeps.split_byte (toUInt8_lt ascii.1) (h.trans (List.nil_append _).symm)
    obtain rfl := keeps.eq_nil before
    obtain rfl := eq_of_toUInt8_eq small ascii.1 byte
    obtain ⟨w, rfl, rest'⟩ := ih ascii.2 behind
    exact ⟨w, rfl, rest'⟩

/-- A word of ASCII characters in the bytes is one in the text. -/
theorem split_word (keeps : KeepsAscii encode) (nonempty : word ≠ []) (ascii : ∀ c ∈ word, c.toNat < 128)
    (h : text.flatMap encode = bytes ++ (word.map Char.toUInt8 ++ rest)) : ∃ u v, text = u ++ (word ++ v) ∧
      u.flatMap encode = bytes ∧ v.flatMap encode = rest := by
  cases word with
  | nil => exact absurd rfl nonempty
  | cons d word =>
    rw [List.forall_mem_cons] at ascii
    obtain ⟨u, c, v, rfl, small, byte, before, behind⟩ := keeps.split_byte (toUInt8_lt ascii.1) h
    obtain rfl := eq_of_toUInt8_eq small ascii.1 byte
    obtain ⟨w, rfl, rest'⟩ := keeps.split_prefix ascii.2 behind
    exact ⟨u, w, rfl, before, rest'⟩

/-- A word of ASCII characters is in the bytes exactly if it is in the text. -/
theorem infix_iff (keeps : KeepsAscii encode) (nonempty : word ≠ []) (ascii : ∀ c ∈ word, c.toNat < 128) :
    word.map Char.toUInt8 <:+: text.flatMap encode ↔ word <:+: text := by
  constructor
  · rintro ⟨bytes, rest, h⟩
    obtain ⟨u, v, rfl, -, -⟩ := keeps.split_word nonempty ascii (by rw [← h, List.append_assoc])
    exact ⟨u, v, List.append_assoc ..⟩
  · rintro ⟨u, v, rfl⟩
    rw [List.flatMap_append, List.flatMap_append, keeps.flatMap_ascii ascii]
    exact ⟨_, _, rfl⟩

theorem mem_iff (keeps : KeepsAscii encode) (ascii : c.toNat < 128) : c.toUInt8 ∈ text.flatMap encode ↔ c ∈ text := by
  constructor
  · intro here
    obtain ⟨bytes, rest, h⟩ := List.append_of_mem here
    obtain ⟨u, d, v, rfl, small, byte, -, -⟩ := keeps.split_byte (toUInt8_lt ascii) h
    exact eq_of_toUInt8_eq small ascii byte ▸ List.mem_append_right u List.mem_cons_self
  · intro here
    exact List.mem_flatMap.mpr ⟨c, here, by rw [keeps.ascii ascii]; exact List.mem_singleton.mpr rfl⟩

/-- What has the bytes of an ASCII text is this text. -/
theorem eq_of_ascii (keeps : KeepsAscii encode) (ascii : ∀ c ∈ word, c.toNat < 128)
    (h : text.flatMap encode = word.map Char.toUInt8) : text = word := by
  obtain ⟨v, rfl, none⟩ := keeps.split_prefix ascii (h.trans (List.append_nil _).symm)
  rw [keeps.eq_nil none, List.append_nil]

end KeepsAscii

theorem le_toNat_ofNat {n : Nat} (large : 128 ≤ n) (bound : n < 256) : 128 ≤ (UInt8.ofNat n).toNat := by
  rw [UInt8.toNat_ofNat', Nat.mod_eq_of_lt bound]
  exact large

theorem keepsAscii_utf8 : KeepsAscii String.utf8EncodeChar where
  ascii c h := String.utf8EncodeChar_eq_singleton (utf8Size_eq_one_iff_toNat.mpr h)
  other c h := by
    have two : ¬ c.val.toNat ≤ 0x7f := Nat.not_le.mpr h
    have valid : c.val.toNat < 0x110000 := toNat_lt c
    refine ⟨List.ne_nil_of_length_pos (String.length_utf8EncodeChar c ▸ c.utf8Size_pos), ?_⟩
    rw [String.utf8EncodeChar, if_neg two]
    split
    on_goal 2 => split
    all_goals
      simp only [List.forall_mem_cons, List.not_mem_nil, false_imp_iff, implies_true, and_true, UInt8.toNat_ofNat']
      omega

/-- The byte of a character in windows-1252. -/
def windows1252Byte (c : Char) : UInt8 :=
  if c.toNat < 0x80 ∨ 0xA0 ≤ c.toNat ∧ c.toNat < 0x100 then UInt8.ofNat c.toNat
  else UInt8.ofNat (0x80 + windows1252High.idxOf c.toNat)

theorem windows1252Byte_windows1252Char (b : UInt8) : windows1252Byte (windows1252Char b) = b := by
  have each : ∀ n < 256, windows1252Byte (windows1252Char (UInt8.ofNat n)) = UInt8.ofNat n := by decide +kernel
  simpa using each b.toNat b.toNat_lt

theorem keepsAscii_windows1252 : KeepsAscii fun c => [windows1252Byte c] where
  ascii c h := by
    rw [windows1252Byte, if_pos (.inl h)]
    exact congrArg ([·]) (UInt8.toNat_inj.mp (by rw [toNat_toUInt8 h, UInt8.toNat_ofNat', Nat.mod_eq_of_lt (by omega)]))
  other c h := by
    refine ⟨List.cons_ne_nil _ _, List.forall_mem_singleton.mpr ?_⟩
    rw [windows1252Byte]
    split
    · exact le_toNat_ofNat h (by omega)
    · have : windows1252High.idxOf c.toNat ≤ 32 := List.idxOf_le_length
      exact le_toNat_ofNat (by omega) (by omega)

/-- The text that bytes are in windows-1252 has these bytes. -/
theorem flatMap_windows1252Byte (bytes : Bytes) :
    (bytes.map windows1252Char).flatMap (fun c => [windows1252Byte c]) = bytes := by
  induction bytes with
  | nil => rfl
  | cons b bytes ih =>
    rw [List.map_cons, List.flatMap_cons, ih, windows1252Byte_windows1252Char]
    rfl

/-! ## The end of a declaration in bytes -/

section

variable {bytes rest : Bytes}

/-- The bytes of `?>`. -/
def closeBytes : Bytes := [0x3F, 0x3E]

theorem beforeClose?_append_closeBytes (free : ¬ closeBytes <:+: bytes ++ [0x3F]) :
    beforeClose? (bytes ++ (closeBytes ++ rest)) = some bytes := by
  induction bytes with
  | nil => rfl
  | cons b bytes ih =>
    rw [List.cons_append, List.infix_cons_iff, not_or] at free
    have other : ∀ more, b = 0x3F → bytes ++ (closeBytes ++ rest) = 0x3E :: more → False := by
      rintro more rfl behind
      cases bytes with
      | nil => cases behind
      | cons b' bytes =>
        obtain ⟨rfl, -⟩ := List.cons.inj behind
        exact free.1 ⟨_, rfl⟩
    rw [List.cons_append, beforeClose?.eq_3 b _ other, ih free.2]
    rfl

theorem closes_of_beforeClose? (h : beforeClose? rest = some bytes) :
    ¬ closeBytes <:+: bytes ∧ bytes ++ closeBytes <+: rest := by
  induction rest using beforeClose?.induct generalizing bytes with
  | case1 => cases h
  | case2 rest =>
    cases h
    exact ⟨by decide, rest, rfl⟩
  | case3 b rest other ih =>
    rw [beforeClose?.eq_3 b rest other] at h
    obtain ⟨inner, closed, rfl⟩ := Option.map_eq_some_iff.mp h
    obtain ⟨free, more, rfl⟩ := ih closed
    refine ⟨fun here => ?_, more, rfl⟩
    rcases List.infix_cons_iff.mp here with ⟨behind, begins⟩ | later
    · obtain ⟨rfl, second⟩ := List.cons.inj begins
      exact other (behind ++ closeBytes ++ more) rfl (by rw [← second]; rfl)
    · exact free later

end

end XmlStore
