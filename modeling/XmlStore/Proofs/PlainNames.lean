/-
Plain names: names without a colon, which stand for themselves wherever names
are split at colons.
-/
import Mathlib.Data.List.TakeWhile
import XmlStore.Proofs.Takes

namespace XmlStore

open Cursor (IsName)

variable {ch : Char} {s : String}

theorem not_blank_of_isNameChar (h : isNameChar ch = true) : isBlank ch = false := by
  rw [Bool.eq_false_iff]
  intro blank
  simp only [isBlank, Bool.or_eq_true, decide_eq_true_eq] at blank
  rcases blank with ((rfl | rfl) | rfl) | rfl <;> exact absurd h (by decide)

theorem not_blank_of_starts (h : isNameStart ch = true) : isBlank ch = false :=
  not_blank_of_isNameChar (by rw [isNameChar, h, Bool.true_or])

theorem not_isDigit_of_starts (h : isNameStart ch = true) : ch.isDigit = false := by
  rw [Bool.eq_false_iff, Ne, Char.isDigit_iff_toNat]
  rintro ⟨low, high⟩
  have : '0'.toNat = 48 := rfl
  have : '9'.toNat = 57 := rfl
  simp [isNameStart, Ranges.has, nameStartChars] at h
  omega

/-- A name without a colon. -/
structure IsPlain (name : String) : Prop where
  starts : ∃ ch ∈ name.toList.head?, isNameStart ch = true
  further : ∀ ch ∈ name.toList, isNameChar ch = true ∧ ch ≠ ':'

theorem isPlain_of_all (starts : s.toList.head?.any isNameStart = true)
    (further : (s.toList.all fun ch => isNameChar ch && ch != ':') = true) : IsPlain s := by
  obtain ⟨ch, here, start⟩ := (Option.any_eq_true ..).mp starts
  refine ⟨⟨ch, here, start⟩, fun ch hch => ?_⟩
  simpa using List.all_eq_true.mp further ch hch

theorem ofString_plain (h : IsPlain s) : QName.ofString s = ⟨none, s⟩ := by
  have whole : s.toList.dropWhile (· ≠ ':') = [] :=
    List.dropWhile_eq_nil_iff.mpr fun ch hch => by simp [(h.further ch hch).2]
  rw [QName.ofString, whole]

/-- A name that is split into no qualifier and a local part is plain. -/
theorem isPlain_of_unqualified (starts : ∃ ch ∈ s.toList.head?, isNameStart ch = true)
    (chars : ∀ ch ∈ s.toList, isNameChar ch = true) (unqualified : (QName.ofString s).qualifier = none) :
    IsPlain (QName.ofString s).localPart := by
  rw [QName.ofString] at unqualified ⊢
  split at unqualified
  · rename_i whole
    refine ⟨starts, fun ch hch => ⟨chars ch hch, ?_⟩⟩
    simpa using List.dropWhile_eq_nil_iff.mp whole ch hch
  · cases unqualified

theorem isPlain_of_isName (h : IsName s) (unqualified : (QName.ofString s).qualifier = none) :
    IsPlain (QName.ofString s).localPart :=
  isPlain_of_unqualified h.starts h.chars unqualified

theorem starts_of_isQName (h : isQName s = true) :
    (∃ ch ∈ s.toList.head?, isNameStart ch = true) ∧ ∀ ch ∈ s.toList, isNameChar ch = true := by
  rw [isQName] at h
  split at h
  · cases h
  · rename_i first more e
    simp only [Bool.and_eq_true, List.all_eq_true] at h
    obtain ⟨⟨⟨⟨starts, -⟩, chars⟩, -⟩, -⟩ := h
    rw [e, List.forall_mem_cons]
    exact ⟨⟨first, rfl, starts⟩, by rw [isNameChar, starts, Bool.true_or], chars⟩

theorem isPlain_of_isQName (h : isQName s = true) (unqualified : (QName.ofString s).qualifier = none) :
    IsPlain (QName.ofString s).localPart :=
  isPlain_of_unqualified (starts_of_isQName h).1 (starts_of_isQName h).2 unqualified

/-- A name without a qualifier is plain as a whole. -/
theorem isPlain_of_isQName_whole (h : isQName s = true) (unqualified : (QName.ofString s).qualifier = none) :
    IsPlain s := by
  have whole := QName.text_ofString s
  rw [QName.text, unqualified] at whole
  exact whole ▸ isPlain_of_isQName h unqualified

end XmlStore
