/-
Byte order marks. Behind the mark of UTF-16 every text is decoded from its
units, whatever it declares. Behind the mark of UTF-8 the declaration is still
followed, so a text comes back only if the bytes mean the same in the encoding
that it names.
-/
import XmlStore.Proofs.Encoded

namespace XmlStore

/-! ## Texts as 16-bit units -/

/-- The 16-bit units of a character: itself, or a pair of surrogates. -/
def unitsOf (c : Char) : List Nat :=
  if c.toNat < 0x10000 then [c.toNat]
  else [0xD800 + (c.toNat - 0x10000) / 0x400, 0xDC00 + (c.toNat - 0x10000) % 0x400]

def ByteOrder.bytes : ByteOrder → Nat → Bytes
  | little, u => [UInt8.ofNat u, UInt8.ofNat (u / 256)]
  | big, u => [UInt8.ofNat (u / 256), UInt8.ofNat u]

/-- The bytes of a text in UTF-16. -/
def utf16Bytes (order : ByteOrder) (s : String) : Bytes :=
  (s.toList.flatMap unitsOf).flatMap order.bytes

theorem toNat_lt (c : Char) : c.toNat < 0x110000 := by
  obtain h | h : c.toNat < 0xD800 ∨ 0xDFFF < c.toNat ∧ c.toNat < 0x110000 := c.valid
  · omega
  · exact h.2

theorem lt_of_mem_unitsOf {c : Char} {u : Nat} (h : u ∈ unitsOf c) : u < 0x10000 := by
  have valid : c.toNat < 0x110000 := toNat_lt c
  by_cases basic : c.toNat < 0x10000
  · rw [unitsOf, if_pos basic] at h
    obtain rfl := List.mem_singleton.mp h
    exact basic
  · rw [unitsOf, if_neg basic] at h
    rcases List.mem_pair.mp h with h | h <;> omega

theorem units?_bytes (order : ByteOrder) {us : List Nat} (small : ∀ u ∈ us, u < 0x10000) :
    units? order (us.flatMap order.bytes) = some us := by
  induction us with
  | nil => rfl
  | cons u us ih =>
    have bound : u < 0x10000 := small u List.mem_cons_self
    have rest := ih fun u h => small u (List.mem_cons_of_mem _ h)
    have high : (UInt8.ofNat (u / 256)).toNat = u / 256 := by
      rw [UInt8.toNat_ofNat', Nat.mod_eq_of_lt (by omega)]
    have low : (UInt8.ofNat u).toNat = u % 256 := UInt8.toNat_ofNat'
    cases order <;>
      simp only [List.flatMap_cons, ByteOrder.bytes, List.cons_append, List.nil_append, units?, ByteOrder.unit, rest,
        Option.map_some, high, low, Nat.div_add_mod']

/-- A character of the basic plane is no surrogate, and is read as itself. -/
theorem charsOfUnits?_basic {c : Char} (basic : c.toNat < 0x10000) (us : List Nat) :
    charsOfUnits? (c.toNat :: us) = (charsOfUnits? us).map (c :: ·) := by
  have valid : c.toNat < 0xD800 ∨ 0xDFFF < c.toNat := c.valid.imp id fun h => h.1
  have notHigh : isHighSurrogate c.toNat = false := by
    rw [isHighSurrogate, Bool.and_eq_false_iff, decide_eq_false_iff_not, decide_eq_false_iff_not]
    omega
  have notLow : isLowSurrogate c.toNat = false := by
    rw [isLowSurrogate, Bool.and_eq_false_iff, decide_eq_false_iff_not, decide_eq_false_iff_not]
    omega
  cases us <;> simp [charsOfUnits?, notHigh, notLow]

/-- Two surrogates are read as the character they are the pair of. -/
theorem charsOfUnits?_pair {c : Char} (supplementary : 0x10000 ≤ c.toNat) (us : List Nat) :
    charsOfUnits? ((0xD800 + (c.toNat - 0x10000) / 0x400) :: (0xDC00 + (c.toNat - 0x10000) % 0x400) :: us) =
      (charsOfUnits? us).map (c :: ·) := by
  have valid : c.toNat < 0x110000 := toNat_lt c
  generalize upper : (c.toNat - 0x10000) / 0x400 = high
  generalize lower : (c.toNat - 0x10000) % 0x400 = low
  have joined : 0x10000 + (0xD800 + high - 0xD800) * 0x400 + (0xDC00 + low - 0xDC00) = c.toNat := by omega
  have isHigh : isHighSurrogate (0xD800 + high) = true := by
    rw [isHighSurrogate, Bool.and_eq_true, decide_eq_true_iff, decide_eq_true_iff]
    omega
  have isLow : isLowSurrogate (0xDC00 + low) = true := by
    rw [isLowSurrogate, Bool.and_eq_true, decide_eq_true_iff, decide_eq_true_iff]
    omega
  rw [charsOfUnits?, if_pos isHigh, if_pos isLow, joined, Char.ofNat_toNat]

theorem charsOfUnits?_unitsOf (cs : List Char) : charsOfUnits? (cs.flatMap unitsOf) = some cs := by
  induction cs with
  | nil => rfl
  | cons c cs ih =>
    rw [List.flatMap_cons, unitsOf]
    split
    · rename_i basic
      rw [List.singleton_append, charsOfUnits?_basic basic, ih, Option.map_some]
    · rename_i supplementary
      rw [List.cons_append, List.singleton_append, charsOfUnits?_pair (Nat.le_of_not_lt supplementary), ih,
        Option.map_some]

/-- A text is decoded from its bytes in UTF-16. -/
theorem decodeUtf16?_utf16Bytes (order : ByteOrder) (s : String) :
    decodeUtf16? order (utf16Bytes order s) = some s := by
  have small : ∀ u ∈ s.toList.flatMap unitsOf, u < 0x10000 := by
    intro u h
    obtain ⟨c, -, mem⟩ := List.mem_flatMap.mp h
    exact lt_of_mem_unitsOf mem
  rw [decodeUtf16?, utf16Bytes, units?_bytes order small, Option.bind_some, charsOfUnits?_unitsOf, Option.map_some,
    String.ofList_toList]

/-! ## Texts as bytes of windows-1252 -/

theorem utf8Bytes_flatMap (s : String) : utf8Bytes s = s.toList.flatMap String.utf8EncodeChar := by
  rw [utf8Bytes_eq, ← String.utf8Encode_toList, List.utf8Encode, List.data_toByteArray]

theorem utf8Size_eq_one_iff_toNat {c : Char} : c.utf8Size = 1 ↔ c.toNat < 128 := by
  rw [Char.utf8Size_eq_one_iff, UInt32.le_iff_toNat_le]
  exact Nat.lt_succ_iff.symm

/-- Only of ASCII characters are there as many as bytes. -/
theorem ascii_of_length {cs : List Char} (h : (cs.flatMap String.utf8EncodeChar).length = cs.length) :
    ∀ c ∈ cs, c.toNat < 128 := by
  have atLeast (cs : List Char) : cs.length ≤ (cs.flatMap String.utf8EncodeChar).length := by
    induction cs with
    | nil => exact Nat.le_refl _
    | cons c cs ih =>
      rw [List.flatMap_cons, List.length_append, String.length_utf8EncodeChar, List.length_cons]
      have := c.utf8Size_pos
      omega
  induction cs with
  | nil => exact fun c h => nomatch h
  | cons c cs ih =>
    rw [List.flatMap_cons, List.length_append, String.length_utf8EncodeChar, List.length_cons] at h
    have positive := c.utf8Size_pos
    have rest := atLeast cs
    rw [List.forall_mem_cons]
    exact ⟨utf8Size_eq_one_iff_toNat.mp (by omega), ih (by omega)⟩

theorem toNat_toUInt8 {c : Char} (ascii : c.toNat < 128) : c.toUInt8.toNat = c.toNat := by
  rw [Char.toUInt8, UInt32.toNat_toUInt8]
  exact Nat.mod_eq_of_lt (Nat.lt_trans ascii (by decide))

theorem map_windows1252Char {cs : List Char} (ascii : ∀ c ∈ cs, c.toNat < 128) :
    (cs.flatMap String.utf8EncodeChar).map windows1252Char = cs := by
  induction cs with
  | nil => rfl
  | cons c cs ih =>
    rw [List.forall_mem_cons] at ascii
    have byte : c.toUInt8.toNat = c.toNat := toNat_toUInt8 ascii.1
    have low : (0x80 ≤ c.toUInt8 && c.toUInt8 < 0xA0) = false := by
      rw [Bool.and_eq_false_iff, decide_eq_false_iff_not, UInt8.le_iff_toNat_le, byte]
      exact .inl (Nat.not_le.mpr ascii.1)
    rw [List.flatMap_cons, String.utf8EncodeChar_eq_singleton (utf8Size_eq_one_iff_toNat.mpr ascii.1),
      List.singleton_append, List.map_cons, ih ascii.2, Char.toUInt8_val, windows1252Char, low,
      if_neg (by decide), byte, Char.ofNat_toNat]

/-- The bytes of UTF-8 mean the same in windows-1252 only for ASCII texts. -/
theorem decode?_windows1252_iff (s : String) :
    Charset.windows1252.decode? (utf8Bytes s) = some s ↔ ∀ c ∈ s.toList, c.toNat < 128 := by
  have same : Charset.windows1252.decode? (utf8Bytes s) = some s ↔
      (s.toList.flatMap String.utf8EncodeChar).map windows1252Char = s.toList := by
    rw [Charset.decode?, utf8Bytes_flatMap, Option.some_inj]
    rw [← String.toList_inj, String.toList_ofList]
  rw [same]
  refine ⟨fun h => ascii_of_length ?_, map_windows1252Char⟩
  rw [← List.length_map (f := windows1252Char), h]

/-! ## Marks -/

/-- The mark that stands ahead of a text in an encoding that has one. -/
def Charset.mark : Charset → Bytes
  | utf8 => [0xEF, 0xBB, 0xBF]
  | utf16be => [0xFE, 0xFF]
  | utf16le => [0xFF, 0xFE]
  | windows1252 => []

/-- Behind a mark of UTF-16 the declaration is not looked at. -/
theorem decodeDocument_of_mark {charset : Charset} {bytes : Bytes} {n : Nat} {s : String}
    (marked : byteOrderMark bytes = (charset, n)) (other : charset ≠ .utf8)
    (decoded : charset.decode? (bytes.drop n) = some s) : decodeDocument bytes = .ok s := by
  rw [decodeDocument, marked]
  dsimp only
  rw [if_pos other, transcode, Charset.ofLabel?_label]
  dsimp only
  rw [decoded]

/-- Behind its mark a text in UTF-8 is decoded as without it, and the declaration is followed. -/
theorem decodeDocument_utf8_mark (s : String) : decodeDocument (Charset.utf8.mark ++ utf8Bytes s) =
    match declaredEncoding? (utf8Bytes s) with
    | some label => if isUtf8Label label then .ok s else transcode (utf8Bytes s) label
    | none => .ok s := by
  have marked : byteOrderMark (Charset.utf8.mark ++ utf8Bytes s) = (.utf8, 3) := rfl
  have content : (Charset.utf8.mark ++ utf8Bytes s).drop 3 = utf8Bytes s := rfl
  rw [decodeDocument, marked]
  dsimp only
  rw [if_neg (by decide), content]
  have read := decodeUtf8?_utf8Bytes s
  generalize decodeUtf8? (utf8Bytes s) = decoded at read ⊢
  cases read
  rfl

/-- What is declared behind the mark of UTF-8 does no harm exactly if it reads the bytes as UTF-8 does. -/
theorem decodeDocument_utf8_mark_iff (s : String) : decodeDocument (Charset.utf8.mark ++ utf8Bytes s) = .ok s ↔
    ∀ label ∈ declaredEncoding? (utf8Bytes s), isUtf8Label label = false → transcode (utf8Bytes s) label = .ok s := by
  rw [decodeDocument_utf8_mark]
  cases declared : declaredEncoding? (utf8Bytes s) with
  | none => exact iff_of_true rfl fun _ h => nomatch h
  | some label =>
    dsimp only
    split
    · rename_i plain
      refine iff_of_true rfl fun label' same other => ?_
      obtain rfl := Option.some.inj same
      exact absurd plain (by rw [other]; decide)
    · rename_i other
      refine ⟨fun h label' same _ => ?_, fun h => h label rfl (Bool.eq_false_iff.mpr other)⟩
      obtain rfl := Option.some.inj same
      exact h

/-- The bytes of UTF-8 are read as UTF-8 does under a label of windows-1252 only for ASCII texts. -/
theorem transcode_windows1252_iff {label : String} (latin : Charset.ofLabel? label = some .windows1252) (s : String) :
    transcode (utf8Bytes s) label = .ok s ↔ ∀ c ∈ s.toList, c.toNat < 128 := by
  rw [transcode, latin, ← decode?_windows1252_iff]
  dsimp only
  cases decoded : Charset.windows1252.decode? (utf8Bytes s) with
  | none => exact iff_of_false (fun h => nomatch h) fun h => nomatch h
  | some t => rw [Except.ok.injEq, Option.some_inj]

end XmlStore
