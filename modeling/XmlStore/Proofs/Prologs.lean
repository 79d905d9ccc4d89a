/-
What stands ahead of the root element is read back: the XML declaration and the
document type declaration. Their literals are written between double quotes as
they are, so they may hold any characters but this one.
-/
import XmlStore.Markup.Write
import XmlStore.Proofs.Tags

namespace XmlStore

open Cursor (IsName Takes Passes)

/-- A literal that can be written between double quotes. -/
def Quotable (s : String) : Prop := '"' ∉ s.toList

namespace Cursor

/-! ## Reading back exactly -/

section

variable {ε α β : Type} {fine fine' : Prop} {input middle rest : List Char} {a : α} {b : β}

/-- Before `input`, the reader hands out `a` exactly if `fine` holds, and then stops before `rest`. -/
structure TakesIff (fine : Prop) (reader : Cursor → Except ε (α × Cursor)) (input : List Char) (a : α)
    (rest : List Char) : Prop where
  takes (h : fine) (c : Cursor) (hc : c.rest = input) : ∃ d, reader c = .ok (a, d) ∧ d.rest = rest
  needs ⦃c d : Cursor⦄ (hc : c.rest = input) (taken : reader c = .ok (a, d)) : fine

namespace TakesIff

theorem congr {reader : Cursor → Except ε (α × Cursor)} (h : TakesIff fine reader input a rest)
    (same : fine' ↔ fine) : TakesIff fine' reader input a rest :=
  ⟨fun holds => h.takes (same.mp holds), fun _ _ hc taken => same.mpr (h.needs hc taken)⟩

/-- What is always taken. -/
theorem always {reader : Cursor → Except Fault (α × Cursor)} (h : Takes reader input a rest) :
    TakesIff True reader input a rest :=
  ⟨fun _ => h, fun _ _ _ _ => trivial⟩

/-- In two steps, if nothing else than what the first is to hand out leads to the same result. -/
theorem bind {reader : Cursor → Except ε (α × Cursor)} {next : α × Cursor → Except ε (β × Cursor)}
    (first : TakesIff fine reader input a middle)
    (second : TakesIff fine' (fun c => next (a, c)) middle b rest)
    (recalls : ∀ ⦃a' c d⦄, next (a', c) = .ok (b, d) → a' = a) :
    TakesIff (fine ∧ fine') (fun c => reader c >>= next) input b rest where
  takes h c hc := by
    obtain ⟨d, taken, hd⟩ := first.takes h.1 c hc
    obtain ⟨e, taken', he⟩ := second.takes h.2 d hd
    exact ⟨e, bind_eq_ok.2 ⟨(a, d), taken, taken'⟩, he⟩
  needs c e hc both := by
    obtain ⟨⟨a', d⟩, taken, taken'⟩ := bind_eq_ok.1 both
    obtain rfl := recalls taken'
    have holds := first.needs hc taken
    obtain ⟨d', again, hd⟩ := first.takes holds c hc
    obtain rfl : d' = d := congrArg Prod.snd (Except.ok.inj (again.symm.trans taken))
    exact ⟨holds, second.needs hd taken'⟩

/-- What is made of what is taken, if it is made of nothing else. -/
theorem map {reader : Cursor → Except ε (α × Cursor)} (h : TakesIff fine reader input a rest) (f : α → β)
    (injective : ∀ a', f a' = f a → a' = a) :
    TakesIff fine (fun c => reader c >>= fun (a, c) => pure (f a, c)) input (f a) rest where
  takes holds c hc := by
    obtain ⟨d, taken, hd⟩ := h.takes holds c hc
    exact ⟨d, bind_eq_ok.2 ⟨(a, d), taken, rfl⟩, hd⟩
  needs c d hc both := by
    obtain ⟨⟨a', d'⟩, taken, made⟩ := bind_eq_ok.1 both
    obtain rfl := injective a' (congrArg Prod.fst (Except.ok.inj made))
    exact h.needs hc taken

theorem after {reader : Cursor → Except Fault Cursor} {next : Cursor → Except Fault (β × Cursor)}
    (first : Passes reader input middle) (second : TakesIff fine next middle b rest) :
    TakesIff fine (fun c => reader c >>= next) input b rest where
  takes h := first.bind (second.takes h)
  needs c e hc both := by
    obtain ⟨d, passed, taken⟩ := bind_eq_ok.1 both
    obtain ⟨d', again, hd⟩ := first c hc
    obtain rfl : d' = d := Except.ok.inj (again.symm.trans passed)
    exact second.needs hd taken

/-- What another reader does from another place. -/
theorem through {input' : List Char} {reader reader' : Cursor → Except ε (α × Cursor)}
    (h : TakesIff fine reader' input' a rest)
    (same : ∀ c, c.rest = input → ∃ c', c'.rest = input' ∧ reader c = reader' c') :
    TakesIff fine reader input a rest where
  takes holds c hc := by
    obtain ⟨c', hc', e⟩ := same c hc
    exact e ▸ h.takes holds c' hc'
  needs c d hc taken := by
    obtain ⟨c', hc', e⟩ := same c hc
    exact h.needs hc' (e ▸ taken)

end TakesIff

end

variable {s version name : String} {rest : List Char} {c d : Cursor}

/-! ## Literals -/

theorem literalBody_append {quote : Char} {chars : List Char} (free : quote ∉ chars) (position : Position)
    (taken rest : List Char) : ∃ q,
    literalBody quote position taken (chars ++ quote :: rest) = (taken.reverse ++ chars, ⟨quote :: rest, q⟩) := by
  induction chars generalizing position taken with
  | nil => exact ⟨position, by rw [List.nil_append, literalBody, if_pos rfl, List.append_nil]⟩
  | cons ch chars ih =>
    rw [List.mem_cons, not_or] at free
    obtain ⟨q, body⟩ := ih free.2 (position.afterBytes ch) (ch :: taken)
    refine ⟨q, ?_⟩
    rw [List.cons_append, literalBody, if_neg (Ne.symm free.1), body, List.reverse_cons, List.append_assoc]
    rfl

theorem literalBody_eq (quote : Char) (position : Position) (taken cs : List Char) :
    literalBody quote position taken cs = (taken.reverse ++ cs.takeWhile (· ≠ quote),
      ⟨cs.dropWhile (· ≠ quote), (cs.takeWhile (· ≠ quote)).foldl Position.afterBytes position⟩) := by
  induction cs generalizing position taken with
  | nil => simp [literalBody]
  | cons ch cs ih => by_cases h : ch = quote <;> simp [literalBody, h, ih]

theorem not_mem_takeWhile_ne (quote : Char) (cs : List Char) : quote ∉ cs.takeWhile (· ≠ quote) := fun mem => by
  have other : decide (quote ≠ quote) = true := List.all_eq_true.mp List.all_takeWhile quote mem
  exact of_decide_eq_true other rfl

theorem takes_readLiteral (quotable : Quotable s) :
    Takes readLiteral ('"' :: (s.toList ++ '"' :: rest)) s rest := by
  intro c hc
  obtain ⟨q, body⟩ := literalBody_append quotable (c.position.after '"') [] rest
  obtain ⟨d, closed, hd⟩ := passes_expect (Cursor.mk ('"' :: rest) q) rfl
  have quote : isQuote '"' = true := by decide
  refine ⟨d, ?_, hd⟩
  rw [readLiteral, hc]
  dsimp only
  rw [if_pos quote, body]
  dsimp only
  rw [closed, List.reverse_nil, List.nil_append, String.ofList_toList]
  rfl

/-- What was read as a literal stands between quotes of the kind that it does not hold. -/
theorem literal_of_readLiteral (h : c.readLiteral = .ok (s, d)) :
    ∃ quote, isQuote quote = true ∧ quote ∉ s.toList ∧ c.rest = quote :: (s.toList ++ quote :: d.rest) := by
  rw [readLiteral] at h
  split at h
  · cases h
  · rename_i quote rest hc
    split at h
    · rename_i quotes
      rw [literalBody_eq] at h
      obtain ⟨e, closed, h⟩ := bind_eq_ok.1 h
      cases h
      rw [String.toList_ofList, List.reverse_nil, List.nil_append]
      refine ⟨quote, quotes, not_mem_takeWhile_ne quote rest, ?_⟩
      have left : rest.dropWhile (· ≠ quote) = quote :: d.rest := rest_of_expect closed
      rw [hc, ← left, List.takeWhile_append_dropWhile]
    · cases h

theorem takesIff_readLiteral (s : String) (rest : List Char) :
    TakesIff (Quotable s) readLiteral ('"' :: (s.toList ++ '"' :: rest)) s rest where
  takes := takes_readLiteral
  needs c d hc taken := by
    obtain ⟨quote, -, free, spelled⟩ := literal_of_readLiteral taken
    obtain rfl : '"' = quote := (List.cons.inj (hc.symm.trans spelled)).1
    exact free

theorem passes_requireBlanks (solid : ∀ ch ∈ rest.head?, isBlank ch = false) :
    Passes requireBlanks (' ' :: rest) rest := by
  intro c hc
  have blank : c.peek?.any isBlank = true := by
    rw [peek?, hc]
    rfl
  refine ⟨c.skipBlanks, by rw [requireBlanks, if_pos blank], ?_⟩
  rw [rest_skipBlanks, hc, List.dropWhile_cons_of_pos (by decide)]
  cases rest with
  | nil => rfl
  | cons ch rest => exact List.dropWhile_cons_of_neg (by simp [solid ch rfl])

/-! ## The XML declaration -/

/-- What the literal of a standalone setting stands for. -/
def standaloneValue (c : Cursor) : Option String → Except Fault (Option Bool)
  | none => .ok none
  | some value =>
    if value = "yes" then .ok (some true)
    else if value = "no" then .ok (some false)
    else .error (c.fault .badStandalone)

/-- What stands behind the version in an XML declaration. -/
def readSettings (version : String) (c : Cursor) : Except Fault (Declaration × Cursor) := do
  let (encoding, c) ← c.skipBlanks.readSetting "encoding"
  let (standalone, c) ← c.skipBlanks.readSetting "standalone"
  let standalone ← c.standaloneValue standalone
  let c ← c.skipBlanks.expectWord "?>"
  return (⟨some version, encoding, standalone⟩, c)

theorem readDeclaration_eq (c : Cursor) : c.readDeclaration = (do
    let c ← c.expectWord "<?xml"
    let c ← c.requireBlanks
    let c ← c.expectWord "version"
    let c ← c.expectEquals
    let (version, c) ← c.readLiteral
    if !"1.".toList.isPrefixOf version.toList then .error (c.fault (.unsupportedVersion version))
    else c.readSettings version) := by
  refine bind_congr_ok fun c _ => bind_congr_ok fun c _ => bind_congr_ok fun c _ => bind_congr_ok fun c _ =>
    bind_congr_ok fun ⟨version, c⟩ _ => ?_
  refine if_congr Iff.rfl rfl (bind_congr_ok fun ⟨encoding, c⟩ _ => bind_congr_ok fun ⟨standalone, c⟩ _ => ?_)
  cases standalone with
  | none => rfl
  | some value =>
    simp only [standaloneValue]
    split
    · rfl
    · split <;> rfl

/-- What is written for a standalone setting. -/
def standaloneSetting : Option Bool → List Char
  | none => []
  | some true => " standalone=\"yes\"".toList
  | some false => " standalone=\"no\"".toList

/-- What is written for an encoding. -/
def encodingSetting : Option String → List Char
  | none => []
  | some encoding => ' ' :: ("encoding".toList ++ '=' :: '"' :: (encoding.toList ++ ['"']))

theorem takesIff_readSetting (solid : ∀ ch ∈ (name.toList ++ '=' :: '"' :: (s.toList ++ '"' :: rest)).head?,
    isBlank ch = false) : TakesIff (Quotable s) (fun c => c.skipBlanks.readSetting name)
      (' ' :: (name.toList ++ '=' :: '"' :: (s.toList ++ '"' :: rest))) (some s) rest := by
  have literal := (takesIff_readLiteral s rest).map some fun _ => Option.some.inj
  have named : Passes (expectWord name) (name.toList ++ '=' :: '"' :: (s.toList ++ '"' :: rest)) _ := passes_expectWord
  refine (TakesIff.after named (.after passes_expectEquals literal)).through fun c hc => ?_
  have skipped : c.skipBlanks.rest = name.toList ++ '=' :: '"' :: (s.toList ++ '"' :: rest) := by
    rw [rest_skipBlanks, hc, List.dropWhile_cons_of_pos (by decide), ← rest_skipBlanks ⟨_, c.position⟩]
    exact rest_skipBlanks_of_not_blank solid
  have seen : c.skipBlanks.sees name.toList = true := sees_iff.mpr (skipped ▸ List.prefix_append _ _)
  exact ⟨c.skipBlanks, skipped, by rw [readSetting, if_pos seen]⟩

/-- The end of a declaration is read up to the line end behind it. -/
theorem takes_standalone (version : String) (encoding : Option String) (standalone : Option Bool) :
    Takes (fun c => do
        let (standalone, c) ← c.skipBlanks.readSetting "standalone"
        let standalone ← c.standaloneValue standalone
        let c ← c.skipBlanks.expectWord "?>"
        return (Declaration.mk (some version) encoding standalone, c))
      (standaloneSetting standalone ++ ("?>".toList ++ rest)) ⟨some version, encoding, standalone⟩ rest := by
  rcases standalone with _ | _ | _
  all_goals
    rintro ⟨_, position⟩ rfl
    exact ⟨_, rfl, rfl⟩

theorem takesIff_readSettings (version : String) (encoding : Option String) (standalone : Option Bool) :
    TakesIff (∀ e ∈ encoding, Quotable e) (readSettings version)
      (encodingSetting encoding ++ (standaloneSetting standalone ++ ("?>".toList ++ rest)))
      ⟨some version, encoding, standalone⟩ rest := by
  cases encoding with
  | none =>
    refine (TakesIff.always ?_).congr (iff_true_intro nofun)
    rcases standalone with _ | _ | _
    all_goals
      rintro ⟨_, position⟩ rfl
      exact ⟨_, rfl, rfl⟩
  | some e =>
    have setting : TakesIff (Quotable e) (fun c => c.skipBlanks.readSetting "encoding")
        (encodingSetting (some e) ++ (standaloneSetting standalone ++ ("?>".toList ++ rest))) (some e)
        (standaloneSetting standalone ++ ("?>".toList ++ rest)) := by
      have spelled : encodingSetting (some e) ++ (standaloneSetting standalone ++ ("?>".toList ++ rest)) =
          ' ' :: ("encoding".toList ++ '=' :: '"' ::
            (e.toList ++ '"' :: (standaloneSetting standalone ++ ("?>".toList ++ rest)))) := by
        simp [encodingSetting]
      rw [spelled]
      refine takesIff_readSetting ?_
      rintro _ ⟨⟩
      decide
    refine (setting.bind (.always (takes_standalone version (some e) standalone)) ?_).congr (by simp)
    intro e' c d taken
    obtain ⟨⟨value, c₁⟩, -, taken⟩ := bind_eq_ok.1 taken
    obtain ⟨value, -, taken⟩ := bind_eq_ok.1 taken
    obtain ⟨c₂, -, taken⟩ := bind_eq_ok.1 taken
    cases taken
    rfl

/-- What is read with a version has this version. -/
theorem version_of_readSettings {declaration : Declaration} (h : c.readSettings version = .ok (declaration, d)) :
    declaration.version = some version := by
  obtain ⟨⟨encoding, c₁⟩, -, h⟩ := bind_eq_ok.1 h
  obtain ⟨⟨value, c₂⟩, -, h⟩ := bind_eq_ok.1 h
  obtain ⟨value, -, h⟩ := bind_eq_ok.1 h
  obtain ⟨c₃, -, h⟩ := bind_eq_ok.1 h
  cases h
  rfl

/-- A declaration that was read is of a version 1. -/
theorem declared_of_readOptionalDeclaration {declaration : Declaration}
    (h : c.readOptionalDeclaration = .ok (declaration, d)) :
    declaration = .absent ∨ ∃ version, declaration.version = some version ∧ "1.".toList <+: version.toList := by
  rw [readOptionalDeclaration] at h
  split at h
  · rw [readDeclaration_eq] at h
    obtain ⟨c₁, -, h⟩ := bind_eq_ok.1 h
    obtain ⟨c₂, -, h⟩ := bind_eq_ok.1 h
    obtain ⟨c₃, -, h⟩ := bind_eq_ok.1 h
    obtain ⟨c₄, -, h⟩ := bind_eq_ok.1 h
    obtain ⟨⟨version, c₅⟩, -, h⟩ := bind_eq_ok.1 h
    dsimp only at h
    split at h
    · cases h
    · rename_i known
      exact .inr ⟨version, version_of_readSettings h, List.isPrefixOf_iff_prefix.mp (by simpa using known)⟩
  · cases h
    exact .inl rfl

theorem takesIff_readDeclaration (numbered : "1.".toList <+: version.toList) (encoding : Option String)
    (standalone : Option Bool) (rest : List Char) :
    TakesIff (Quotable version ∧ ∀ e ∈ encoding, Quotable e) readDeclaration
      ("<?xml".toList ++ ' ' :: ("version".toList ++ '=' :: '"' :: (version.toList ++ '"' ::
        (encodingSetting encoding ++ (standaloneSetting standalone ++ ("?>".toList ++ rest))))))
      ⟨some version, encoding, standalone⟩ rest := by
  have solid {rest : List Char} : ∀ ch ∈ ("version".toList ++ rest).head?, isBlank ch = false := by
    rintro _ ⟨⟩
    decide
  have known : ¬ (!"1.".toList.isPrefixOf version.toList) = true := by
    simpa [List.isPrefixOf_iff_prefix] using numbered
  rw [funext readDeclaration_eq]
  refine .after passes_expectWord (.after (passes_requireBlanks solid) (.after passes_expectWord
    (.after passes_expectEquals ((takesIff_readLiteral version _).bind ?_ ?_))))
  · simp only [if_neg known]
    exact takesIff_readSettings version encoding standalone
  · intro v c d taken
    dsimp only at taken
    split at taken
    · cases taken
    · exact (Option.some.inj (version_of_readSettings taken)).symm

end Cursor

open Cursor (TakesIff)

/-- What is written for a declaration is read up to its line end. -/
def Declares (o : WriteOptions) (declaration : Declaration) : Prop :=
  ∃ read, ∀ rest, Takes Cursor.readOptionalDeclaration (o.writeDeclaration declaration ++ rest) read ('\n' :: rest)

section

variable {o : WriteOptions} {declaration : Declaration}

theorem writeDeclaration_append (o : WriteOptions) (declaration : Declaration) (rest : List Char) :
    o.writeDeclaration declaration ++ rest = "<?xml".toList ++ ' ' :: ("version".toList ++ '=' :: '"' ::
      ((declaration.version.getD "1.0").toList ++ '"' :: (Cursor.encodingSetting (o.encoding.or declaration.encoding) ++
        (Cursor.standaloneSetting declaration.standalone ++ ("?>".toList ++ '\n' :: rest))))) := by
  rw [WriteOptions.writeDeclaration]
  rcases o.encoding.or declaration.encoding with _ | e <;> rcases declaration.standalone with _ | _ | _
  all_goals
    simp only [toString, String.toList_append, List.append_assoc, Cursor.encodingSetting, List.cons_append]
    rfl

/-- What is written for a declaration is read back exactly if its literals can be written between double quotes. -/
theorem takesIff_writeDeclaration (o : WriteOptions)
    (numbered : "1.".toList <+: (declaration.version.getD "1.0").toList) (rest : List Char) :
    TakesIff (Quotable (declaration.version.getD "1.0") ∧ ∀ e ∈ o.encoding.or declaration.encoding, Quotable e)
      Cursor.readOptionalDeclaration (o.writeDeclaration declaration ++ rest)
      ⟨some (declaration.version.getD "1.0"), o.encoding.or declaration.encoding, declaration.standalone⟩
      ('\n' :: rest) := by
  have exactly := Cursor.takesIff_readDeclaration numbered (o.encoding.or declaration.encoding) declaration.standalone
    ('\n' :: rest)
  rw [← writeDeclaration_append] at exactly
  have declared (c : Cursor) (hc : c.rest = o.writeDeclaration declaration ++ rest) :
      c.readOptionalDeclaration = c.readDeclaration := by
    rw [writeDeclaration_append] at hc
    have begins : c.sees "<?xml".toList = true := Cursor.sees_iff.mpr (hc ▸ List.prefix_append _ _)
    have seen : c.seesDeclaration = true := by
      rw [Cursor.seesDeclaration, begins, hc]
      rfl
    rw [Cursor.readOptionalDeclaration, if_pos seen]
  exact exactly.through fun c hc => ⟨c, hc, declared c hc⟩

/-- A declaration of a known version and of no encoding can be read again. -/
theorem declares (silent : o.encoding.or declaration.encoding = none)
    (numbered : "1.".toList <+: (declaration.version.getD "1.0").toList)
    (quotable : Quotable (declaration.version.getD "1.0")) : Declares o declaration :=
  ⟨_, fun rest => (takesIff_writeDeclaration o numbered rest).takes ⟨quotable, by rw [silent]; exact nofun⟩⟩

end

theorem declares_absent {o : WriteOptions} (silent : o.encoding = none) : Declares o .absent :=
  declares (by rw [silent]; rfl) (by decide) (show '"' ∉ "1.0".toList by decide)

/-! ## The document type -/

namespace Cursor

variable {name : String} {systemId publicId : Option String} {rest : List Char} {c d : Cursor}

/-- What is written for the identifiers of a document type. -/
def externalId (systemId publicId : Option String) : String :=
  match publicId, systemId with
  | some p, some s => s!" PUBLIC \"{p}\" \"{s}\""
  | none, some s => s!" SYSTEM \"{s}\""
  | _, _ => ""

theorem writeDoctype_eq (name : String) (systemId publicId : Option String) :
    writeDoctype name systemId publicId =
      "<!DOCTYPE ".toList ++ (name.toList ++ ((externalId systemId publicId).toList ++ ['>'])) := by
  have pieces (external : String) : s!"<!DOCTYPE {name}{external}>".toList =
      "<!DOCTYPE ".toList ++ (name.toList ++ (external.toList ++ ['>'])) := by
    simp only [toString, String.toList_append, List.append_assoc]
    rfl
  exact pieces (externalId systemId publicId)

theorem toList_systemId (s : String) :
    (externalId (some s) none).toList = ' ' :: ("SYSTEM".toList ++ ' ' :: '"' :: (s.toList ++ ['"'])) := by
  change s!" SYSTEM \"{s}\"".toList = _
  simp only [toString, String.toList_append, List.append_assoc]
  rfl

theorem toList_publicId (s p : String) : (externalId (some s) (some p)).toList =
    ' ' :: ("PUBLIC".toList ++ ' ' :: '"' :: (p.toList ++ '"' :: ' ' :: '"' :: (s.toList ++ ['"']))) := by
  change s!" PUBLIC \"{p}\" \"{s}\"".toList = _
  simp only [toString, String.toList_append, List.append_assoc]
  rfl

theorem not_blank_quote {more : List Char} : ∀ ch ∈ ('"' :: more).head?, isBlank ch = false := by
  rintro _ ⟨⟩
  decide

theorem takes_readExternalId_none (publicId : Option String) (rest : List Char) :
    Takes (fun c => c.skipBlanks.readExternalId) ((externalId none publicId).toList ++ '>' :: rest) (none, none)
      ('>' :: rest) := by
  have none_written : externalId none publicId = "" := by cases publicId <;> rfl
  rw [none_written]
  rintro ⟨_, position⟩ rfl
  exact ⟨_, rfl, rfl⟩

theorem takesIff_readExternalId_system (s : String) (rest : List Char) :
    TakesIff (Quotable s) (fun c => c.skipBlanks.readExternalId)
      ((externalId (some s) none).toList ++ '>' :: rest) (some s, none) ('>' :: rest) := by
  let ids (systemId : String) : Option String × Option String := (some systemId, none)
  have literal := (takesIff_readLiteral s ('>' :: rest)).map ids fun _ same => Option.some.inj (Prod.mk.inj same).1
  refine (TakesIff.after (passes_requireBlanks not_blank_quote) literal).through fun c hc => ?_
  have skipped : c.skipBlanks.rest = "SYSTEM".toList ++ ' ' :: '"' :: (s.toList ++ '"' :: '>' :: rest) := by
    rw [rest_skipBlanks, hc, toList_systemId]
    simp only [List.cons_append, List.append_assoc, List.nil_append]
    rfl
  have seen : c.skipBlanks.sees "SYSTEM".toList = true := sees_iff.mpr (skipped ▸ List.prefix_append _ _)
  refine ⟨c.skipBlanks.skip 6, by rw [rest_skip, skipped]; rfl, ?_⟩
  rw [readExternalId, if_pos seen]

theorem takesIff_readExternalId_public (s p : String) (rest : List Char) :
    TakesIff (Quotable p ∧ Quotable s) (fun c => c.skipBlanks.readExternalId)
      ((externalId (some s) (some p)).toList ++ '>' :: rest) (some s, some p) ('>' :: rest) := by
  let ids (systemId : String) := (some systemId, some p)
  have literal := (takesIff_readLiteral s ('>' :: rest)).map ids fun _ same => Option.some.inj (Prod.mk.inj same).1
  have literals := TakesIff.after (passes_requireBlanks not_blank_quote) literal
  have both : TakesIff (Quotable p ∧ Quotable s) (fun c => do
      let (publicId, c) ← c.readLiteral
      let c ← c.requireBlanks
      let (systemId, c) ← c.readLiteral
      return ((some systemId, some publicId), c))
      ('"' :: (p.toList ++ '"' :: ' ' :: '"' :: (s.toList ++ '"' :: '>' :: rest))) (some s, some p) ('>' :: rest) := by
    refine (takesIff_readLiteral p _).bind literals fun p' c d taken => ?_
    obtain ⟨c₁, -, taken⟩ := bind_eq_ok.1 taken
    obtain ⟨⟨s', c₂⟩, -, taken⟩ := bind_eq_ok.1 taken
    exact Option.some.inj (congrArg (·.1.2) (Except.ok.inj taken))
  refine (TakesIff.after (passes_requireBlanks not_blank_quote) both).through fun c hc => ?_
  have skipped : c.skipBlanks.rest = "PUBLIC".toList ++
      ' ' :: '"' :: (p.toList ++ '"' :: ' ' :: '"' :: (s.toList ++ '"' :: '>' :: rest)) := by
    rw [rest_skipBlanks, hc, toList_publicId]
    simp only [List.cons_append, List.append_assoc, List.nil_append]
    rfl
  have unseen : ¬ c.skipBlanks.sees "SYSTEM".toList = true := by
    rw [sees_iff, skipped]
    exact fun found => absurd (List.cons_prefix_cons.mp found).1 (by decide)
  have seen : c.skipBlanks.sees "PUBLIC".toList = true := sees_iff.mpr (skipped ▸ List.prefix_append _ _)
  refine ⟨c.skipBlanks.skip 6, by rw [rest_skip, skipped]; rfl, ?_⟩
  rw [readExternalId, if_neg unseen, if_pos seen]

theorem takes_readExternalId (system : ∀ s ∈ systemId, Quotable s) (published : ∀ p ∈ publicId, Quotable p)
    (rest : List Char) :
    ∃ ids, Takes (fun c => c.skipBlanks.readExternalId) ((externalId systemId publicId).toList ++ '>' :: rest)
      ids ('>' :: rest) := by
  rcases systemId with _ | s
  · exact ⟨_, takes_readExternalId_none publicId rest⟩
  · rcases publicId with _ | p
    · exact ⟨_, (takesIff_readExternalId_system s rest).takes (system s rfl)⟩
    · exact ⟨_, (takesIff_readExternalId_public s p rest).takes ⟨published p rfl, system s rfl⟩⟩

/-- The identifiers of a document type are read back exactly if they can be written between double quotes. -/
theorem takesIff_readExternalId (given : publicId.isSome = true → systemId.isSome = true) (rest : List Char) :
    TakesIff ((∀ s ∈ systemId, Quotable s) ∧ ∀ p ∈ publicId, Quotable p) (fun c => c.skipBlanks.readExternalId)
      ((externalId systemId publicId).toList ++ '>' :: rest) (systemId, publicId) ('>' :: rest) := by
  rcases systemId with _ | s
  · rcases publicId with _ | p
    · exact (TakesIff.always (takes_readExternalId_none none rest)).congr (by simp)
    · cases given rfl
  · rcases publicId with _ | p
    · exact (takesIff_readExternalId_system s rest).congr (by simp)
    · exact (takesIff_readExternalId_public s p rest).congr (by simp [and_comm])

/-- Behind the name of a document type comes a blank or the end. -/
theorem ends_doctypeName : ∀ ch ∈ ((externalId systemId publicId).toList ++ '>' :: rest).head?,
    isNameChar ch = false := by
  intro ch hch
  rcases systemId with _ | s <;> rcases publicId with _ | p
  · cases hch
    decide
  · cases hch
    decide
  · rw [toList_systemId] at hch
    cases hch
    decide
  · rw [toList_publicId] at hch
    cases hch
    decide

/-- The end of a document type declaration, its internal subset passed over. -/
def readDoctypeEnd (content : Content) (name : String) (c : Cursor) :
    Except ReadError ((Content × List Warning) × Cursor) := do
  if c.sees ['['] then
    let c ← c.skipSubset.mapError (ReadError.mk · [])
    let warnings := [⟨.subsetIgnored name, c.position⟩]
    let c ← (c.skipBlanks.expect '>').mapError (ReadError.mk · warnings)
    return ((content, warnings), c)
  else
    let c ← (c.expect '>').mapError (ReadError.mk · [])
    return ((content, []), c)

/-- Past the name comes what is written for the identifiers. -/
theorem readDoctype_of_writeDoctype (isName : IsName name)
    (hc : c.rest = writeDoctype name systemId publicId ++ rest) :
    ∃ c' : Cursor, c'.rest = (externalId systemId publicId).toList ++ '>' :: rest ∧
      c.readDoctype = (do
        let ((systemId, publicId), c) ← c'.skipBlanks.readExternalId.mapError (ReadError.mk · [])
        c.skipBlanks.readDoctypeEnd (.doctype name systemId publicId) name) := by
  have shape : c.rest = "<!DOCTYPE".toList ++ ' ' ::
      (name.toList ++ ((externalId systemId publicId).toList ++ '>' :: rest)) := by
    rw [hc, writeDoctype_eq]
    simp only [List.append_assoc]
    rfl
  have solid : ∀ ch ∈ (name.toList ++ ((externalId systemId publicId).toList ++ '>' :: rest)).head?,
      isBlank ch = false := by
    obtain ⟨ch, first, starts⟩ := isName.starts
    obtain ⟨more, spelled⟩ := List.head?_eq_some_iff.mp first
    rw [spelled]
    rintro _ ⟨⟩
    exact not_blank_of_starts starts
  obtain ⟨c₁, opened, h₁⟩ := passes_expectWord c shape
  obtain ⟨c₂, blank, h₂⟩ := passes_requireBlanks solid c₁ h₁
  obtain ⟨c₃, named, h₃⟩ := takes_readName isName ends_doctypeName c₂ h₂
  refine ⟨c₃, h₃, ?_⟩
  rw [readDoctype, opened]
  change c₁.requireBlanks.mapError _ >>= _ = _
  rw [blank]
  change c₂.readName.mapError _ >>= _ = _
  rw [named]
  rfl

theorem readDoctypeEnd_of_rest (content : Content) (name : String) (hc : c.rest = '>' :: rest) :
    ∃ d, c.readDoctypeEnd content name = .ok ((content, []), d) ∧ d.rest = rest := by
  have unseen : ¬ c.sees ['['] = true := by
    rw [sees_iff, hc, List.cons_prefix_cons]
    exact fun found => absurd found.1 (by decide)
  obtain ⟨d, closed, hd⟩ := passes_expect c hc
  refine ⟨d, ?_, hd⟩
  rw [readDoctypeEnd, if_neg unseen, closed]
  rfl

theorem content_of_readDoctypeEnd {content content' : Content} {warnings : List Warning}
    (h : c.readDoctypeEnd content name = .ok ((content', warnings), d)) : content' = content := by
  rw [readDoctypeEnd] at h
  split at h
  · obtain ⟨c₁, -, h⟩ := bind_eq_ok.1 h
    obtain ⟨c₂, -, h⟩ := bind_eq_ok.1 h
    cases h
    rfl
  · obtain ⟨c₁, -, h⟩ := bind_eq_ok.1 h
    cases h
    rfl

/-- What is taken for the identifiers is taken for the document type. -/
theorem readDoctype_of_takes {ids : Option String × Option String} (isName : IsName name)
    (takes : Takes (fun c => c.skipBlanks.readExternalId) ((externalId systemId publicId).toList ++ '>' :: rest)
      ids ('>' :: rest)) (hc : c.rest = writeDoctype name systemId publicId ++ rest) :
    ∃ d, c.readDoctype = .ok ((.doctype name ids.1 ids.2, []), d) ∧ d.rest = rest := by
  obtain ⟨c', hc', read⟩ := readDoctype_of_writeDoctype isName hc
  obtain ⟨c₁, taken, h₁⟩ := takes c' hc'
  have skipped : c₁.skipBlanks.rest = '>' :: rest := by
    rw [rest_skipBlanks, h₁]
    rfl
  obtain ⟨d, ended, hd⟩ := readDoctypeEnd_of_rest (.doctype name ids.1 ids.2) name skipped
  refine ⟨d, ?_, hd⟩
  dsimp only at taken
  rw [read, taken]
  exact ended

theorem readDoctype_writeDoctype (isName : IsName name) (system : ∀ s ∈ systemId, Quotable s)
    (published : ∀ p ∈ publicId, Quotable p) (hc : c.rest = writeDoctype name systemId publicId ++ rest) :
    ∃ read d, c.readDoctype = .ok (read, d) ∧ d.rest = rest := by
  obtain ⟨ids, takes⟩ := takes_readExternalId system published rest
  exact ⟨_, readDoctype_of_takes isName takes hc⟩

/-- What is written for a document type is read back only if its identifiers can be written between double quotes. -/
theorem quotable_of_readDoctype {warnings : List Warning} (isName : IsName name)
    (given : publicId.isSome = true → systemId.isSome = true)
    (hc : c.rest = writeDoctype name systemId publicId ++ rest)
    (h : c.readDoctype = .ok ((.doctype name systemId publicId, warnings), d)) :
    (∀ s ∈ systemId, Quotable s) ∧ ∀ p ∈ publicId, Quotable p := by
  obtain ⟨c', hc', read⟩ := readDoctype_of_writeDoctype isName hc
  obtain ⟨⟨⟨s, p⟩, c₁⟩, taken, ended⟩ := bind_eq_ok.1 (read.symm.trans h)
  obtain ⟨-, rfl, rfl⟩ := Content.doctype.inj (content_of_readDoctypeEnd ended)
  exact (takesIff_readExternalId given rest).needs hc' (mapError_eq_ok taken)

end Cursor

end XmlStore
