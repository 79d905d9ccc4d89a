/-
Qualified names: a local part and, before the first colon, an optional
qualifier that stands for a namespace.
-/
import XmlStore.Text.Chars

namespace XmlStore

/-- A name as a document writes it. -/
structure QName where
  qualifier : Option String
  localPart : String
deriving DecidableEq, Repr

namespace QName

/-- Splits a name at its first colon. -/
def ofString (s : String) : QName :=
  match s.toList.dropWhile (· ≠ ':') with
  | [] => ⟨none, s⟩
  | _ :: localPart =>
    ⟨some (String.ofList (s.toList.takeWhile (· ≠ ':'))), String.ofList localPart⟩

/-- The name as it is written. -/
def text (q : QName) : String :=
  match q.qualifier with
  | some qualifier => qualifier ++ ":" ++ q.localPart
  | none => q.localPart

/-- Splitting a name loses nothing of it. -/
theorem text_ofString (s : String) : (ofString s).text = s := by
  have whole : s.toList.takeWhile (· ≠ ':') ++ s.toList.dropWhile (· ≠ ':') = s.toList :=
    List.takeWhile_append_dropWhile
  unfold ofString
  split
  · rfl
  · rename_i c localPart h
    have colon : c = ':' := by
      have head := List.head?_dropWhile_not (fun c => decide (c ≠ ':')) s.toList
      rw [h] at head
      simpa using head
    rw [h, colon] at whole
    apply String.toList_inj.1
    refine Eq.trans ?_ whole
    simp [text]

end QName

/-- A name with at most one colon, which neither starts nor ends it. -/
def isQName (s : String) : Bool :=
  match s.toList with
  | [] => false
  | c :: cs =>
    isNameStart c && c ≠ ':' && cs.all isNameChar &&
      (c :: cs).count ':' ≤ 1 && (c :: cs).getLast? ≠ some ':'

end XmlStore
