/-
Where readers stand. Every reader passes over characters one by one, each worth
a column, but for the literals of a prolog, whose characters are counted in
bytes. So whatever is kept by passing over a character, and by passing over a
literal, holds wherever a reader stops; and a fault is reported there, or one
byte behind the first character of what was found instead of what was wanted.
-/
import Mathlib.Data.List.DropRight
import XmlStore.Path.Token
import XmlStore.Proofs.WellFormed

namespace XmlStore

/-! ## Lines and columns -/

/-- The characters of a text behind its last line feed. -/
def lastLine (cs : List Char) : List Char := cs.rtakeWhile (· ≠ '\n')

/-- What columns are too many by behind a run of characters that are counted in bytes, if they are too many by `n`
ahead of it. -/
def widen (n : Nat) (run : List Char) : Nat :=
  run.foldl (fun n ch => if ch = '\n' then 0 else n + (ch.utf8Size - 1)) n

namespace Position

variable {before run : List Char} {ch : Char} {n : Nat}

/-- The place behind a text, its column too many by `n`. -/
def behind (before : List Char) (n : Nat) : Position :=
  ⟨1 + before.count '\n', 1 + (lastLine before).length + n, byteLength before⟩

theorem byteLength_append (first second : List Char) :
    byteLength (first ++ second) = byteLength first + byteLength second := by
  induction first with
  | nil => exact (Nat.zero_add _).symm
  | cons ch first ih =>
    rw [List.cons_append, byteLength, byteLength, ih]
    omega

theorem byteLength_concat (before : List Char) (ch : Char) :
    byteLength (before ++ [ch]) = byteLength before + ch.utf8Size := byteLength_append before [ch]

theorem lastLine_feed (before : List Char) : lastLine (before ++ ['\n']) = [] :=
  List.rtakeWhile_concat_neg _ _ _ (by simp)

theorem lastLine_concat (before : List Char) (other : ch ≠ '\n') :
    lastLine (before ++ [ch]) = lastLine before ++ [ch] :=
  List.rtakeWhile_concat_pos _ _ _ (by simpa using other)

theorem after_behind (before : List Char) (n : Nat) (ch : Char) :
    (behind before n).after ch = behind (before ++ [ch]) (if ch = '\n' then 0 else n) := by
  rw [after]
  split
  · rename_i feed
    subst feed
    rw [nextLine, behind, behind, lastLine_feed, byteLength_concat, List.count_append]
    rfl
  · rename_i other
    rw [behind, behind, lastLine_concat before other, byteLength_concat, List.count_append, List.length_append]
    simp [other]
    omega

theorem afterBytes_behind (before : List Char) (n : Nat) (ch : Char) :
    (behind before n).afterBytes ch = behind (before ++ [ch]) (widen n [ch]) := by
  rw [afterBytes]
  split
  · rename_i feed
    subst feed
    rw [nextLine, behind, behind, lastLine_feed, byteLength_concat, List.count_append]
    rfl
  · rename_i other
    have positive := ch.utf8Size_pos
    rw [behind, behind, lastLine_concat before other, byteLength_concat, List.count_append, List.length_append]
    simp [other, widen]
    omega

theorem foldl_afterBytes_behind (before run : List Char) (n : Nat) :
    run.foldl afterBytes (behind before n) = behind (before ++ run) (widen n run) := by
  induction run generalizing before n with
  | nil => rw [List.append_nil]; rfl
  | cons ch run ih =>
    rw [List.foldl_cons, afterBytes_behind, ih, List.append_assoc]
    rfl

end Position

/-! ## What readers keep -/

/-- Whether a flaw is reported one byte behind the character that was found. -/
def Flaw.isBehindByte : Flaw → Bool
  | expected .. | valueNotQuoted | literalNotQuoted => true
  | _ => false

namespace Cursor

/-- A property of places that is kept by passing over a character and, if there may be literals, by passing over
the quote and the characters of one. -/
structure Kept (literals : Bool) (P : Cursor → Prop) : Prop where
  next ⦃c : Cursor⦄ (h : P c) : P c.next
  literal (may : literals = true) ⦃c : Cursor⦄ ⦃quote : Char⦄ ⦃body rest : List Char⦄ (h : P c)
    (quotes : isQuote quote = true) (free : quote ∉ body) (hc : c.rest = quote :: (body ++ rest)) :
    P ⟨rest, body.foldl Position.afterBytes (c.position.after quote)⟩

variable {P : Cursor → Prop} {literals : Bool} {c d : Cursor} {α β : Type} {place : α → Cursor} {place' : β → Cursor}
variable {chars rest : List Char}

theorem Kept.plain (kept : Kept literals P) : Kept false P := ⟨kept.next, nofun⟩

theorem Kept.skip (kept : Kept literals P) (n : Nat) (h : P c) : P (c.skip n) := by
  induction n generalizing c with
  | zero => exact h
  | succ n ih => exact ih (kept.next h)

theorem Kept.run (kept : Kept literals P) (h : P c) (hc : c.rest = chars ++ rest) :
    P ⟨rest, chars.foldl Position.after c.position⟩ := by
  induction chars generalizing c with
  | nil =>
    obtain ⟨_, position⟩ := c
    obtain rfl : _ = rest := hc
    exact h
  | cons ch chars ih =>
    have passed : c.next = ⟨chars ++ rest, c.position.after ch⟩ := by rw [Cursor.next, hc]; rfl
    have later := ih (kept.next h) (by rw [passed])
    rwa [passed] at later

theorem Kept.span (kept : Kept literals P) (p : Char → Bool) (h : P c) : P (c.span p).2 := by
  rw [span_eq]
  exact kept.run h List.takeWhile_append_dropWhile.symm

theorem Kept.skipBlanks (kept : Kept literals P) (h : P c) : P c.skipBlanks := kept.span isBlank h

/-- The fault is reported at a place of which `P` holds, or one byte behind such a place and on account of what
was found there. -/
def Blames (P : Cursor → Prop) (fault : Fault) : Prop :=
  ∃ c, P c ∧ (fault.position = c.position ∨
    fault.flaw.isBehindByte = true ∧ ∃ ch rest, c.rest = ch :: rest ∧ fault.position = c.position.afterByte ch)

/-- The computation ends at a place of which `P` holds, or with a fault that is reported at one. -/
def Stays (P : Cursor → Prop) (place : α → Cursor) : Except Fault α → Prop
  | .ok a => P (place a)
  | .error fault => Blames P fault

theorem Stays.fault (h : P c) (flaw : Flaw) : Stays P place (.error (c.fault flaw)) := ⟨c, h, .inl rfl⟩

theorem Stays.bind {x : Except Fault α} {f : α → Except Fault β} (first : Stays P place x)
    (later : ∀ a, P (place a) → Stays P place' (f a)) : Stays P place' (x >>= f) := by
  cases x with
  | error fault => exact first
  | ok a => exact later a first

/-- A reader that keeps every such property. -/
def Follows (literals : Bool) (place : α → Cursor) (reader : Cursor → Except Fault α) : Prop :=
  ∀ ⦃P : Cursor → Prop⦄, Kept literals P → ∀ ⦃c : Cursor⦄, P c → Stays P place (reader c)

/-! ## Readers -/

theorem follows_expect (wanted : Char) : Follows false id (expect wanted) := by
  intro P kept c h
  rw [expect]
  split
  · exact .fault h _
  · rename_i ch rest hc
    split
    · exact kept.next h
    · exact ⟨c, h, .inr ⟨rfl, ch, rest, hc, rfl⟩⟩

theorem follows_expectWord (word : String) : Follows false id (expectWord word) := by
  intro P kept c h
  rw [expectWord]
  induction word.toList generalizing c with
  | nil => exact h
  | cons ch chars ih =>
    rw [List.foldlM_cons]
    exact (follows_expect ch kept h).bind fun d h => ih h

theorem follows_requireBlanks : Follows false id requireBlanks := by
  intro P kept c h
  rw [requireBlanks]
  split
  · exact kept.skipBlanks h
  · exact .fault h _

theorem follows_readChar : Follows false Prod.snd readChar := by
  intro P kept c h
  rw [readChar]
  split
  · exact .fault h _
  · exact kept.next (kept.next h)
  · exact kept.next h
  · split
    · exact kept.next h
    · exact .fault (kept.next h) _

theorem follows_readName : Follows false Prod.snd readName := by
  intro P kept c h
  rw [readName]
  split
  · exact .fault h _
  · split
    · dsimp only
      split
      · exact kept.span _ h
      · exact .fault (kept.span _ h) _
    · exact .fault h _

theorem follows_readCode (p : Char → Bool) (value : List Char → Nat) (flaw : Flaw) :
    Follows false Prod.snd (readCode p value flaw) := by
  intro P kept c h
  rw [readCode]
  dsimp only
  split
  · exact .fault (kept.span _ h) _
  · refine (follows_expect ';' kept (kept.span _ h)).bind fun d h => ?_
    split
    · exact h
    · exact .fault h _

theorem follows_readReference : Follows false Prod.snd readReference := by
  intro P kept c h
  refine (follows_expect '&' kept h).bind fun d h => ?_
  split
  · exact follows_readCode _ _ _ kept (kept.next (kept.next h))
  · split
    · exact follows_readCode _ _ _ kept (kept.next h)
    · refine (follows_readName kept h).bind fun r h => (follows_expect ';' kept h).bind fun f h => ?_
      split
      · exact h
      · exact .fault h _

theorem follows_readValueChar : Follows false Prod.snd readValueChar := by
  intro P kept c h
  rw [readValueChar]
  split
  · exact .fault h _
  · split
    · exact follows_readReference kept h
    · split
      · exact .fault h _
      · exact (follows_readChar kept h).bind fun r h => h

section

variable {σ : Type} {more : Cursor → Bool} {step : σ → Cursor → Except Fault (σ × Cursor)}
variable {stop : Cursor → Bool} {read : Cursor → Except Fault (Char × Cursor)}

/-- What every step keeps the repetition keeps. -/
theorem follows_readWhile (advances : ∀ s, Advances (step s)) (steps : ∀ s, Follows literals Prod.snd (step s))
    (s : σ) : Follows literals Prod.snd (readWhile more step advances s) := by
  intro P kept c h
  induction hn : c.remaining using Nat.strongRecOn generalizing s c with
  | ind n ih =>
    rw [readWhile_eq]
    split
    · have first := steps s kept h
      cases taken : step s c with
      | error fault =>
        rw [taken] at first
        exact first
      | ok r =>
        rw [taken] at first
        have := advances s taken
        exact ih r.2.remaining (by omega) r.1 first rfl
    · exact h

theorem follows_readUntil (advances : Advances read) (reads : Follows false Prod.snd read) :
    Follows false Prod.snd (readUntil stop read advances) := by
  intro P kept c h
  have collects (taken : List Char) : Follows false Prod.snd (collect read taken) :=
    fun P kept c h => (reads kept h).bind fun r h => h
  exact (follows_readWhile (advances_collect advances) collects [] kept h).bind fun r h => h

end

theorem follows_readAttributeValue : Follows false Prod.snd readAttributeValue := by
  intro P kept c h
  rw [readAttributeValue]
  split
  · exact .fault h _
  · rename_i quote rest hc
    split
    · exact (follows_readUntil advances_readValueChar follows_readValueChar kept (kept.next h)).bind
        fun r h => kept.next h
    · exact ⟨c, h, .inr ⟨rfl, quote, rest, hc, rfl⟩⟩

/-- The one reader of literals. -/
theorem follows_readLiteral : Follows true Prod.snd readLiteral := by
  intro P kept c h
  rw [readLiteral]
  split
  · exact .fault h _
  · rename_i quote rest hc
    split
    · rename_i quotes
      rw [literalBody_eq]
      have passed := kept.literal rfl h quotes (not_mem_takeWhile_ne quote rest)
        (hc.trans (congrArg _ List.takeWhile_append_dropWhile.symm))
      exact (follows_expect quote kept.plain passed).bind fun d h => h
    · exact ⟨c, h, .inr ⟨rfl, quote, rest, hc, rfl⟩⟩

/-! ## Comments, sections and processing instructions -/

theorem follows_readCommentChar : Follows false Prod.snd readCommentChar := by
  intro P kept c h
  rw [readCommentChar]
  split
  · exact .fault h _
  · split
    · exact .fault h _
    · exact follows_readChar kept h

theorem follows_readCdataChar : Follows false Prod.snd readCdataChar := by
  intro P kept c h
  rw [readCdataChar]
  split
  · exact .fault h _
  · exact follows_readChar kept h

theorem follows_readInstructionChar : Follows false Prod.snd readInstructionChar := by
  intro P kept c h
  rw [readInstructionChar]
  split
  · exact .fault h _
  · exact follows_readChar kept h

theorem follows_readComment : Follows false Prod.snd readComment := by
  intro P kept c h
  exact (follows_expectWord _ kept h).bind fun d h =>
    (follows_readUntil advances_readCommentChar follows_readCommentChar kept h).bind fun r h => kept.skip 3 h

theorem follows_readCdata : Follows false Prod.snd readCdata := by
  intro P kept c h
  exact (follows_expectWord _ kept h).bind fun d h =>
    (follows_readUntil advances_readCdataChar follows_readCdataChar kept h).bind fun r h => kept.skip 3 h

theorem follows_readInstruction : Follows false Prod.snd readInstruction := by
  intro P kept c h
  refine (follows_expectWord _ kept h).bind fun d h => (follows_readName kept h).bind fun r h => ?_
  dsimp only
  split
  · exact .fault h _
  · split
    · exact (follows_readUntil advances_readInstructionChar follows_readInstructionChar kept (kept.skipBlanks h)).bind
        fun r h => kept.skip 2 h
    · exact (follows_expectWord _ kept h).bind fun f h => h

theorem follows_readAside : Follows false Prod.snd readAside := by
  intro P kept c h
  rw [readAside]
  split
  · exact follows_readComment kept h
  · exact follows_readInstruction kept h

theorem follows_readAsides : Follows false Prod.snd readAsides := by
  intro P kept c h
  have collects (taken : List Content) : Follows false Prod.snd (collectAside taken) :=
    fun P kept c h => (follows_readAside kept h).bind fun r h => kept.skipBlanks h
  exact (follows_readWhile advances_collectAside collects [] kept (kept.skipBlanks h)).bind fun r h => h

/-! ## The prolog -/

theorem follows_expectEquals : Follows false id expectEquals := by
  intro P kept c h
  exact (follows_expect '=' kept (kept.skipBlanks h)).bind fun d h => kept.skipBlanks h

theorem follows_readSetting (name : String) : Follows true Prod.snd (readSetting name) := by
  intro P kept c h
  rw [readSetting]
  split
  · exact (follows_expectWord name kept.plain h).bind fun d h => (follows_expectEquals kept.plain h).bind fun e h =>
      (follows_readLiteral kept h).bind fun r h => h
  · exact h

theorem follows_readSettings (version : String) : Follows true Prod.snd (readSettings version) := by
  intro P kept c h
  refine (follows_readSetting _ kept (kept.skipBlanks h)).bind fun r h =>
    (follows_readSetting _ kept (kept.skipBlanks h)).bind ?_
  rintro ⟨standalone, e⟩ h
  have value : Stays P (fun _ => e) (e.standaloneValue standalone) := by
    cases standalone with
    | none => exact h
    | some value =>
      rw [standaloneValue]
      split
      · exact h
      · split
        · exact h
        · exact .fault h _
  exact value.bind fun standalone h => (follows_expectWord _ kept.plain (kept.skipBlanks h)).bind fun f h => h

theorem follows_readDeclaration : Follows true Prod.snd readDeclaration := by
  intro P kept c h
  rw [readDeclaration_eq]
  refine (follows_expectWord _ kept.plain h).bind fun d h => (follows_requireBlanks kept.plain h).bind fun d h =>
    (follows_expectWord _ kept.plain h).bind fun d h => (follows_expectEquals kept.plain h).bind fun d h =>
      (follows_readLiteral kept h).bind fun r h => ?_
  dsimp only
  split
  · exact .fault h _
  · exact follows_readSettings _ kept h

theorem follows_readOptionalDeclaration : Follows true Prod.snd readOptionalDeclaration := by
  intro P kept c h
  rw [readOptionalDeclaration]
  split
  · exact follows_readDeclaration kept h
  · exact h

theorem follows_skipSubsetPiece (u : Unit) : Follows true Prod.snd (skipSubsetPiece u) := by
  intro P kept c h
  rw [skipSubsetPiece]
  split
  · exact .fault h _
  · split
    · exact (follows_readComment kept.plain h).bind fun r h => h
    · split
      · exact (follows_readLiteral kept h).bind fun r h => h
      · exact (follows_readChar kept.plain h).bind fun r h => h

theorem follows_skipSubset : Follows true id skipSubset := by
  intro P kept c h
  exact (follows_expect '[' kept.plain h).bind fun d h =>
    (follows_readWhile advances_skipSubsetPiece follows_skipSubsetPiece () kept h).bind fun r h => kept.next h

theorem follows_readExternalId : Follows true Prod.snd readExternalId := by
  intro P kept c h
  rw [readExternalId]
  split
  · exact (follows_requireBlanks kept.plain (kept.skip 6 h)).bind fun d h =>
      (follows_readLiteral kept h).bind fun r h => h
  · split
    · exact (follows_requireBlanks kept.plain (kept.skip 6 h)).bind fun d h =>
        (follows_readLiteral kept h).bind fun r h => (follows_requireBlanks kept.plain h).bind fun f h =>
          (follows_readLiteral kept h).bind fun r h => h
    · exact h

/-! ## Tags and texts -/

theorem follows_readAttribute (tag : Element) : Follows false Prod.snd (readAttribute tag) := by
  intro P kept c h
  rw [readAttribute]
  split
  · exact .fault h _
  · refine (follows_readName kept (kept.skipBlanks h)).bind fun r h =>
      (follows_expectEquals kept h).bind fun e h => (follows_readAttributeValue kept h).bind ?_
    rintro ⟨value, f⟩ h
    have added : Stays P (fun _ => f) (addAttribute tag r.1 value f) := by
      rw [addAttribute]
      split
      · exact h
      · split
        · dsimp only
          split
          · exact .fault h _
          · exact h
        · split
          · exact .fault h _
          · exact h
    exact added.bind fun tag h => h

theorem follows_readTag : Follows false Prod.snd readTag := by
  intro P kept c h
  exact (follows_expect '<' kept h).bind fun d h => (follows_readName kept h).bind fun r h =>
    (follows_readWhile advances_readAttribute follows_readAttribute _ kept h).bind fun r h => kept.skipBlanks h

theorem follows_readEndTag (name : String) : Follows false id (readEndTag name) := by
  intro P kept c h
  refine (follows_expectWord _ kept h).bind fun d h => (follows_readName kept h).bind fun r h => ?_
  dsimp only
  split
  · exact follows_expect '>' kept (kept.skipBlanks h)
  · exact .fault h _

theorem follows_readTextChar : Follows false Prod.snd readTextChar := by
  intro P kept c h
  rw [readTextChar]
  split
  · exact follows_readReference kept h
  · split
    · exact .fault h _
    · exact follows_readChar kept h

theorem follows_readText : Follows false Prod.snd readText :=
  follows_readUntil advances_readTextChar follows_readTextChar

end Cursor

end XmlStore
