/-
Documents as bytes. What is written to a file declares that it is in UTF-8,
and is in UTF-8; so it is decoded as the text that was written.
-/
import XmlStore.Proofs.Reparse

namespace XmlStore

open Cursor (Takes)

variable {options : ReadOptions} {o : WriteOptions} {declaration : Declaration} {nodes : Forest Content}
variable {u v : Bytes}

/-! ## Bytes and characters -/

theorem toList_loop (bytes : ByteArray) (i : Nat) (taken : Bytes) :
    ByteArray.toList.loop bytes i taken = taken.reverse ++ bytes.data.toList.drop i := by
  induction i, taken using ByteArray.toList.loop.induct bytes with
  | case1 i taken more ih =>
    have more' : i < bytes.data.toList.length := by simpa using more
    have next : bytes.get! i = bytes.data.toList[i] := by
      rw [Array.getElem_toList]
      exact getElem!_pos bytes.data i (by simpa using more)
    rw [ByteArray.toList.loop, if_pos more, ih, List.drop_eq_getElem_cons more', next]
    simp
  | case2 i taken done =>
    have all : bytes.data.toList.length ≤ i := by simpa using done
    rw [ByteArray.toList.loop, if_neg done, List.drop_eq_nil_of_le all, List.append_nil]

theorem utf8Bytes_eq (s : String) : utf8Bytes s = s.toByteArray.data.toList := by
  rw [utf8Bytes, ByteArray.toList, toList_loop]
  simp

theorem utf8Bytes_append (s t : String) : utf8Bytes (s ++ t) = utf8Bytes s ++ utf8Bytes t := by
  simp [utf8Bytes_eq]

/-- A text is decoded from its bytes. -/
theorem decodeUtf8?_utf8Bytes (s : String) : decodeUtf8? (utf8Bytes s) = some s := by
  have bytes : (utf8Bytes s).toByteArray = s.toByteArray := by
    refine ByteArray.ext ?_
    rw [List.data_toByteArray, utf8Bytes_eq]
  rw [decodeUtf8?, bytes, String.fromUTF8?, dif_pos s.isValidUTF8]
  rfl

/-! ## Which encoding is declared -/

theorem beforeClose?_append {before : Bytes} (h : beforeClose? u = some before) : beforeClose? (u ++ v) = some before := by
  induction u using beforeClose?.induct generalizing before with
  | case1 => cases h
  | case2 rest => exact h
  | case3 b rest other ih =>
    rw [beforeClose?.eq_3 b rest other] at h
    obtain ⟨inner, closed, rfl⟩ := Option.map_eq_some_iff.mp h
    have other' : ∀ more, b = 0x3F → rest ++ v = 0x3E :: more → False := by
      intro more query behind
      cases rest with
      | nil => cases closed
      | cons next rest =>
        obtain ⟨rfl, -⟩ := List.cons.inj behind
        exact other rest query rfl
    rw [List.cons_append, beforeClose?.eq_3 b (rest ++ v) other', ih closed]
    rfl

/-- A declaration is found at the start of the bytes, whatever follows it. -/
theorem declaredEncoding?_append {before : Bytes} (opens : utf8Bytes "<?xml" <+: u)
    (short : u.length ≤ declarationWindow) (closed : beforeClose? u = some before) :
    declaredEncoding? (u ++ v) = declaredEncoding? u := by
  have window (v : Bytes) : declaredEncoding? (u ++ v) = (decodeUtf8? before).bind fun text => encodingValue? text.toList := by
    have opened : (utf8Bytes "<?xml").isPrefixOf (u ++ v.take (declarationWindow - u.length)) = true :=
      List.isPrefixOf_iff_prefix.mpr (opens.trans (List.prefix_append _ _))
    rw [declaredEncoding?, List.take_append, List.take_of_length_le short, if_pos opened, beforeClose?_append closed]
    rfl
  have alone := window []
  rw [List.append_nil] at alone
  rw [window, alone]

/-- A text in UTF-8 that does not declare another encoding is decoded. -/
theorem decodeDocument_utf8Bytes {s : String} (unmarked : byteOrderMark (utf8Bytes s) = (.utf8, 0))
    (declared : ∀ label ∈ declaredEncoding? (utf8Bytes s), isUtf8Label label = true) :
    decodeDocument (utf8Bytes s) = .ok s := by
  rw [decodeDocument, unmarked]
  dsimp only
  rw [if_neg (by simp), List.drop_zero, decodeUtf8?_utf8Bytes]
  dsimp only
  split
  · rename_i label found
    rw [if_pos (declared label found)]
  · rfl

theorem Markup.ofBytes_utf8Bytes {s : String} (unmarked : byteOrderMark (utf8Bytes s) = (.utf8, 0))
    (declared : ∀ label ∈ declaredEncoding? (utf8Bytes s), isUtf8Label label = true) :
    Markup.ofBytes options (utf8Bytes s) = Markup.ofString options s := by
  rw [Markup.ofBytes, decodeDocument_utf8Bytes unmarked declared]

/-! ## What is written to files -/

theorem utf8Bytes_opening : utf8Bytes "<?xml" = [0x3C, 0x3F, 0x78, 0x6D, 0x6C] := by
  decide +kernel

/-- What is written for the declaration of a document in version 1.0. -/
def declarationText : Option Bool → String
  | none => "<?xml version=\"1.0\" encoding=\"utf-8\"?>\n"
  | some true => "<?xml version=\"1.0\" encoding=\"utf-8\" standalone=\"yes\"?>\n"
  | some false => "<?xml version=\"1.0\" encoding=\"utf-8\" standalone=\"no\"?>\n"

/-- The declaration stands at the start, in the bytes that are searched for one, and names the encoding. -/
theorem declares_declarationText (standalone : Option Bool) :
    utf8Bytes "<?xml" <+: utf8Bytes (declarationText standalone) ∧
      (utf8Bytes (declarationText standalone)).length ≤ declarationWindow ∧
      (beforeClose? (utf8Bytes (declarationText standalone))).isSome = true ∧
      declaredEncoding? (utf8Bytes (declarationText standalone)) = some "utf-8" := by
  rcases standalone with _ | _ | _ <;> decide +kernel

section

variable (encoded : o.encoding = some "utf-8") (plain : declaration.version.getD "1.0" = "1.0")

include encoded plain

theorem writeDeclaration_eq : o.writeDeclaration declaration = (declarationText declaration.standalone).toList := by
  rw [WriteOptions.writeDeclaration, encoded, plain]
  cases declaration.standalone with
  | none => rfl
  | some standalone => cases standalone <;> rfl

theorem declares_utf8 : Declares o declaration := by
  refine ⟨⟨some "1.0", some "utf-8", declaration.standalone⟩, fun rest => ?_⟩
  rw [writeDeclaration_eq encoded plain]
  rintro ⟨_, position⟩ rfl
  cases declaration.standalone with
  | none => exact ⟨_, rfl, rfl⟩
  | some standalone => cases standalone <;> exact ⟨_, rfl, rfl⟩

/-- What is written to a file is decoded as the text that was written. -/
theorem decodeDocument_writeDocument : decodeDocument (utf8Bytes (o.writeDocument declaration nodes)) =
    .ok (o.writeDocument declaration nodes) := by
  have bytes : utf8Bytes (o.writeDocument declaration nodes) = utf8Bytes (declarationText declaration.standalone) ++
      utf8Bytes (String.ofList (o.writeForest .lines 0 nodes [])) := by
    rw [WriteOptions.writeDocument, writeDeclaration_eq encoded plain, String.ofList_append, String.ofList_toList,
      utf8Bytes_append]
  obtain ⟨opens, short, closes, names⟩ := declares_declarationText declaration.standalone
  have declared : declaredEncoding? (utf8Bytes (o.writeDocument declaration nodes)) = some "utf-8" := by
    obtain ⟨before, closed⟩ := Option.isSome_iff_exists.mp closes
    rw [bytes, declaredEncoding?_append opens short closed, names]
  refine decodeDocument_utf8Bytes ?_ fun label found => ?_
  · obtain ⟨more, begins⟩ := opens
    rw [bytes, ← begins, utf8Bytes_opening]
    rfl
  · obtain rfl := Option.some.inj (declared.symm.trans found)
    decide

end

end XmlStore
