/-
Where faults and warnings are reported. The line is that of the place, and the
offset counts the bytes before it. The column counts characters, but for those
of the literals in the prolog, which are counted in bytes, and a fault on
account of a character that was found may stand one byte inside it.
-/
import XmlStore.Proofs.Positions

namespace XmlStore

open Cursor (Kept Blames Stays Follows)

variable {P : Cursor → Prop} {literals : Bool} {c d : Cursor} {p q : Progress} {α β : Type}
variable {place : α → Progress} {place' : β → Progress} {options : ReadOptions}

/-! ## Reading with warnings -/

/-- No reader goes back. -/
theorem Cursor.kept_remaining (n : Nat) : Kept literals fun c => c.remaining ≤ n where
  next c h := by
    rw [remaining_next]
    omega
  literal _ c quote body rest h _ _ hc := by
    rw [remaining, hc, List.length_cons, List.length_append] at h
    change rest.length ≤ n
    omega

/-- Reading stands at a place of which `P` holds, and has warned of such places before. -/
structure Progress.Holds (P : Cursor → Prop) (p : Progress) : Prop where
  here : P p.cursor
  warned : ∀ w ∈ p.warnings, ∃ c, P c ∧ p.cursor.remaining ≤ c.remaining ∧ w.position = c.position

/-- The computation ends at a place of which `P` holds or with a fault at one, and has warned of such places. -/
def Runs (P : Cursor → Prop) (place : α → Progress) : Except ReadError α → Prop
  | .ok a => (place a).Holds P
  | .error e => Blames P e.fault ∧ ∀ w ∈ e.warnings, ∃ c, P c ∧ w.position = c.position

namespace Progress

theorem Holds.move (h : p.Holds P) (hd : P d) (further : d.remaining ≤ p.cursor.remaining) :
    Holds P { p with cursor := d } where
  here := hd
  warned w mem := by
    obtain ⟨c, hc, ahead, same⟩ := h.warned w mem
    exact ⟨c, hc, Nat.le_trans further ahead, same⟩

theorem Holds.warn {warnings : List Warning} (h : p.Holds P)
    (here : ∀ w ∈ warnings, ∃ c, P c ∧ p.cursor.remaining ≤ c.remaining ∧ w.position = c.position) :
    Holds P { p with warnings := p.warnings ++ warnings } :=
  ⟨h.here, List.forall_mem_append.mpr ⟨h.warned, here⟩⟩

theorem Holds.reported (h : p.Holds P) : ∀ w ∈ p.warnings, ∃ c, P c ∧ w.position = c.position := by
  intro w mem
  obtain ⟨c, hc, -, same⟩ := h.warned w mem
  exact ⟨c, hc, same⟩

end Progress

namespace Runs

theorem error (h : p.Holds P) (flaw : Flaw) : Runs P place (p.error flaw) := ⟨⟨_, h.here, .inl rfl⟩, h.reported⟩

theorem bind {x : Except ReadError α} {f : α → Except ReadError β} (first : Runs P place x)
    (later : ∀ a, (place a).Holds P → Runs P place' (f a)) : Runs P place' (x >>= f) := by
  cases x with
  | error e => exact first
  | ok a => exact later a first

theorem read {reader : Cursor → Except Fault (α × Cursor)} (follows : Follows literals Prod.snd reader)
    (kept : Kept literals P) (h : p.Holds P) : Runs P Prod.snd (p.read reader) := by
  have here := follows kept h.here
  have further := follows (Cursor.kept_remaining p.cursor.remaining) (Nat.le_refl _)
  rw [Progress.read]
  cases taken : reader p.cursor with
  | error fault =>
    rw [taken] at here
    exact ⟨here, h.reported⟩
  | ok r =>
    rw [taken] at here further
    exact h.move here further

theorem move {reader : Cursor → Except Fault Cursor} (follows : Follows literals id reader)
    (kept : Kept literals P) (h : p.Holds P) : Runs P id (p.move reader) := by
  have here := follows kept h.here
  have further := follows (Cursor.kept_remaining p.cursor.remaining) (Nat.le_refl _)
  rw [Progress.move]
  cases taken : reader p.cursor with
  | error fault =>
    rw [taken] at here
    exact ⟨here, h.reported⟩
  | ok r =>
    rw [taken] at here further
    exact h.move here further

end Runs

/-! ## Content -/

/-- A tag warns of the place behind it. -/
theorem position_of_mem_warnings {tag : Element} {position : Position} {w : Warning}
    (mem : w ∈ tag.warnings position) : w.position = position := by
  have one {name : QName} {uri : Option String} (mem : w ∈ unboundWarning position name uri) :
      w.position = position := by
    unfold unboundWarning at mem
    split at mem
    · rw [List.mem_singleton.mp mem]
    · cases mem
  rcases List.mem_append.mp mem with mem | mem
  · exact one mem
  · obtain ⟨a, -, mem⟩ := List.mem_flatMap.mp mem
    exact one mem

theorem runs_readElement {content : Scope → Progress → Except ReadError (Forest Content × Progress)}
    (kept : Kept false P) (inner : ∀ scope p, p.Holds P → Runs P Prod.snd (content scope p)) (depth : Nat)
    (scope : Scope) (h : p.Holds P) : Runs P Prod.snd (readElement options depth scope p content) := by
  rw [readElement]
  split
  · exact .error h _
  · refine (Runs.read Cursor.follows_readTag kept h).bind ?_
    rintro ⟨tag, q⟩ h
    have warned : Progress.Holds P
        { q with warnings := q.warnings ++ ((scope.enter tag.bindings).resolveTag tag).warnings q.cursor.position } :=
      h.warn fun w mem => ⟨q.cursor, h.here, Nat.le_refl _, position_of_mem_warnings mem⟩
    dsimp only
    split
    · exact warned.move (kept.skip 2 h.here) (by rw [Cursor.remaining_skip]; exact Nat.sub_le _ _)
    · refine (Runs.move (Cursor.follows_expect '>') kept warned).bind fun r h => (inner _ r h).bind ?_
      rintro ⟨children, r⟩ h
      exact (Runs.move (Cursor.follows_readEndTag _) kept h).bind fun r h => h

theorem runs_readContentBy {again : ContentReader} (kept : Kept false P)
    (later : ∀ depth scope started p, p.Holds P → Runs P Prod.snd (again depth scope started p))
    (depth : Nat) (scope : Scope) (started : Bool) (h : p.Holds P) :
    Runs P Prod.snd (readContentBy options again depth scope started p) := by
  -- One node of whatever kind, and its later siblings.
  have node {content : Content} {children : Forest Content} {p : Progress} (h : p.Holds P) :
      Runs P Prod.snd (again depth scope true p >>= fun r => pure (Forest.cons content children r.1, r.2)) :=
    (later depth scope true p h).bind fun r h => h
  rw [readContentBy]
  split
  · exact .error h _
  · exact h
  · exact (Runs.read Cursor.follows_readCdata kept h).bind fun r h => node h
  · exact (Runs.read Cursor.follows_readAside kept h).bind fun r h => node h
  · exact (runs_readElement kept (fun scope p h => later (depth + 1) scope false p h) (depth + 1) scope h).bind
      fun r h => node h
  · refine (Runs.read Cursor.follows_readText kept h).bind fun r h => ?_
    dsimp only
    split
    · exact later depth scope started _ h
    · exact node h

theorem runs_readContentWithin (kept : Kept false P) (size depth : Nat) (scope : Scope) (started : Bool)
    (p : Progress) (h : p.Holds P) : Runs P Prod.snd (readContentWithin options size depth scope started p) := by
  induction size generalizing depth scope started p with
  | zero => exact .error h _
  | succ size ih => exact runs_readContentBy kept ih depth scope started h

/-- What a whole document warns of, or fails for, at places of which `P` holds. -/
def Reports (P : Cursor → Prop) : Except ReadError Markup → Prop
  | .ok m => ∀ w ∈ m.warnings, ∃ c, P c ∧ w.position = c.position
  | .error e => Blames P e.fault ∧ ∀ w ∈ e.warnings, ∃ c, P c ∧ w.position = c.position

theorem Runs.report {x : Except ReadError α} {f : α → Except ReadError Markup} (first : Runs P place x)
    (later : ∀ a, (place a).Holds P → Reports P (f a)) : Reports P (x >>= f) := by
  cases x with
  | error e => exact first
  | ok a => exact later a first

theorem reports_readBody (kept : Kept false P) (declaration : Declaration) (ahead : List Content) (h : p.Holds P) :
    Reports P (readBody options declaration ahead p) := by
  have failed {p : Progress} (h : p.Holds P) (flaw : Flaw) : Reports P (p.error flaw) :=
    ⟨⟨_, h.here, .inl rfl⟩, h.reported⟩
  rw [readBody]
  split
  · exact failed h _
  · have inner (scope : Scope) (p : Progress) (h : p.Holds P) :
        Runs P Prod.snd (readContent options 1 scope false p) := runs_readContentWithin kept _ 1 scope false p h
    refine (runs_readElement kept inner 1 .initial h).report ?_
    rintro ⟨⟨tag, children⟩, q⟩ h
    refine (Runs.read Cursor.follows_readAsides kept h).report ?_
    rintro ⟨after, r⟩ h
    dsimp only
    split
    · exact failed h _
    · exact h.reported

/-! ## The prolog -/

theorem runs_mapError {x : Except Fault α} {stop : α → Cursor} {warnings : List Warning} (first : Stays P stop x)
    (warned : ∀ w ∈ warnings, ∃ c, P c ∧ (∀ a, x = .ok a → (stop a).remaining ≤ c.remaining) ∧
      w.position = c.position) :
    Runs P (fun a => ⟨stop a, warnings⟩) (x.mapError (ReadError.mk · warnings)) := by
  cases x with
  | error fault =>
    refine ⟨first, fun w mem => ?_⟩
    obtain ⟨c, hc, -, same⟩ := warned w mem
    exact ⟨c, hc, same⟩
  | ok a =>
    refine ⟨first, fun w mem => ?_⟩
    obtain ⟨c, hc, further, same⟩ := warned w mem
    exact ⟨c, hc, further a rfl, same⟩

theorem runs_unwarned {x : Except Fault α} {stop : α → Cursor} (first : Stays P stop x) :
    Runs P (fun a => ⟨stop a, []⟩) (x.mapError (ReadError.mk · [])) :=
  runs_mapError first (List.forall_mem_nil _)

theorem runs_readDoctype (kept : Kept true P) (h : P c) :
    Runs P (fun r => ⟨r.2, r.1.2⟩) c.readDoctype := by
  refine (runs_unwarned (Cursor.follows_expectWord _ kept.plain h)).bind fun c h =>
    (runs_unwarned (Cursor.follows_requireBlanks kept.plain h.here)).bind fun c h =>
      (runs_unwarned (Cursor.follows_readName kept.plain h.here)).bind ?_
  rintro ⟨name, c⟩ h
  refine (runs_unwarned (Cursor.follows_readExternalId kept (kept.skipBlanks h.here))).bind ?_
  rintro ⟨⟨systemId, publicId⟩, c⟩ h
  dsimp only
  split
  · refine (runs_unwarned (Cursor.follows_skipSubset kept (kept.skipBlanks h.here))).bind fun c h => ?_
    have behind : ∀ d, c.skipBlanks.expect '>' = .ok d → d.remaining ≤ c.remaining := by
      intro d closed
      have := Cursor.remaining_expect closed
      have := c.remaining_skipBlanks_le
      omega
    have closing := Cursor.follows_expect '>' kept.plain (kept.skipBlanks h.here)
    refine (runs_mapError closing fun w mem => ⟨c, h.here, behind, ?_⟩).bind fun d h => h
    rw [List.mem_singleton.mp mem]
  · exact (runs_unwarned (Cursor.follows_expect '>' kept.plain (kept.skipBlanks h.here))).bind fun d h => h

theorem runs_readTypeDeclaration (kept : Kept true P) (h : p.Holds P) :
    Runs P Prod.snd (readTypeDeclaration p) := by
  rw [readTypeDeclaration]
  split
  · have here := runs_readDoctype kept h.here
    have further := runs_readDoctype (Cursor.kept_remaining p.cursor.remaining) (Nat.le_refl _)
    cases taken : p.cursor.readDoctype with
    | error e =>
      rw [taken] at here
      exact here
    | ok r =>
      obtain ⟨⟨doctype, warnings⟩, c⟩ := r
      rw [taken] at here further
      have reached : Progress.Holds P ⟨c, p.warnings ++ warnings⟩ :=
        (h.move here.here further.here).warn here.warned
      exact (Runs.read Cursor.follows_readAsides kept.plain reached).bind fun r h => h
  · exact h

/-- Reads what stands ahead of the root element. -/
def readProlog (c : Cursor) : Except ReadError ((Declaration × List Content) × Progress) := do
  let (declaration, p) ← (Progress.mk c []).read Cursor.readOptionalDeclaration
  let (before, p) ← p.read Cursor.readAsides
  let (typed, p) ← readTypeDeclaration p
  return ((declaration, before ++ typed), p)

theorem readDocument_prolog (options : ReadOptions) (c : Cursor) : readDocument options c = (do
    let ((declaration, ahead), p) ← readProlog c
    readBody options declaration ahead p) := by
  rw [readDocument_eq]
  simp only [readProlog, bind_assoc, pure_bind]

theorem runs_readProlog (kept : Kept true P) (h : P c) : Runs P Prod.snd (readProlog c) := by
  have start : Progress.Holds P ⟨c, []⟩ := ⟨h, List.forall_mem_nil _⟩
  refine (Runs.read Cursor.follows_readOptionalDeclaration kept start).bind fun r h =>
    (Runs.read Cursor.follows_readAsides kept.plain h).bind fun r h =>
      (runs_readTypeDeclaration kept h).bind fun r h => h

/-! ## Places of a text -/

/-- By how much columns are too many behind a text in which some of the quoted literals were counted in bytes. -/
inductive Widened : List Char → Nat → Prop where
  | start : Widened [] 0
  | char {before : List Char} {n : Nat} (h : Widened before n) (ch : Char) :
      Widened (before ++ [ch]) (if ch = '\n' then 0 else n)
  | literal {before body : List Char} {n : Nat} {quote : Char} (h : Widened before n)
      (quotes : Cursor.isQuote quote = true) (free : quote ∉ body) : Widened (before ++ quote :: body) (widen n body)

/-- A place in the prolog of a text. -/
def InProlog (text : List Char) (c : Cursor) : Prop :=
  ∃ before n, text = before ++ c.rest ∧ Widened before n ∧ c.position = .behind before n

/-- A place of a text, in the prolog or with some characters of the text between. -/
def InText (prolog text : List Char) (c : Cursor) : Prop :=
  ∃ before between n, text = before ++ between ++ c.rest ∧ before <+: prolog ∧ Widened before n ∧
    c.position = .behind (before ++ between) (if '\n' ∈ between then 0 else n)

theorem kept_inProlog (text : List Char) : Kept true (InProlog text) where
  next c h := by
    obtain ⟨before, n, whole, widened, position⟩ := h
    cases hc : c.rest with
    | nil =>
      rw [Cursor.next, hc]
      exact ⟨before, n, whole, widened, position⟩
    | cons ch rest =>
      refine ⟨before ++ [ch], _, ?_, widened.char ch, ?_⟩
      · rw [Cursor.rest_next hc, whole, hc, List.append_assoc]
        rfl
      · rw [Cursor.next, hc]
        exact (congrArg (Position.after · ch) position).trans (Position.after_behind before n ch)
  literal _ c quote body rest h quotes free hc := by
    obtain ⟨before, n, whole, widened, position⟩ := h
    have other : quote ≠ '\n' := by
      rintro rfl
      exact absurd quotes (by decide)
    refine ⟨before ++ quote :: body, _, ?_, widened.literal quotes free, ?_⟩
    · rw [whole, hc, List.append_assoc]
      rfl
    · dsimp only
      rw [position, Position.after_behind, if_neg other, Position.foldl_afterBytes_behind, List.append_assoc]
      rfl

theorem kept_inText (prolog text : List Char) : Kept false (InText prolog text) where
  next c h := by
    obtain ⟨before, between, n, whole, inside, widened, position⟩ := h
    cases hc : c.rest with
    | nil =>
      rw [Cursor.next, hc]
      exact ⟨before, between, n, whole, inside, widened, position⟩
    | cons ch rest =>
      refine ⟨before, between ++ [ch], n, ?_, inside, widened, ?_⟩
      · rw [Cursor.rest_next hc, whole, hc]
        simp
      · rw [Cursor.next, hc]
        refine (congrArg (Position.after · ch) position).trans ?_
        rw [Position.after_behind, List.append_assoc]
        congr 1
        simp only [List.mem_append, List.mem_singleton]
        by_cases feed : ch = '\n'
        · simp [feed]
        · simp [feed, Ne.symm feed]
  literal := nofun

/-- What stands ahead of the root element of a text, or all of it if nothing is read ahead of one. -/
def prologOf (s : String) : List Char :=
  match readProlog (.ofString s) with
  | .ok (_, p) => s.toList.take (s.toList.length - p.cursor.remaining)
  | .error _ => s.toList

/-- A position in a text: `k` bytes and as many columns behind some of its characters, which end before a character of
more bytes than `k`. The line is the number of line feeds before it and one. Columns are counted from the last of
these, the first being 1; they are too many by what quoted literals of the prolog have on this line in bytes more than
in characters. -/
def Located (s : String) (k : Nat) (p : Position) : Prop :=
  ∃ before between after n, s.toList = before ++ between ++ after ∧ before <+: prologOf s ∧ Widened before n ∧
    p.line = 1 + (before ++ between).count '\n' ∧
    p.column = 1 + (lastLine (before ++ between)).length + (if '\n' ∈ between then 0 else n) + k ∧
    p.offset = byteLength (before ++ between) + k ∧ (0 < k → ∃ ch rest, after = ch :: rest ∧ k < ch.utf8Size)

/-- Where no character of the prolog has several bytes, columns are right. -/
theorem Widened.eq_zero {before : List Char} {n : Nat} (h : Widened before n)
    (single : ∀ ch ∈ before, ch.utf8Size = 1) : n = 0 := by
  induction h with
  | start => rfl
  | char h ch ih =>
    rw [List.forall_mem_append] at single
    rw [ih single.1, ite_self]
  | @literal before body n quote h quotes free ih =>
    rw [List.forall_mem_append, List.forall_mem_cons] at single
    obtain ⟨first, -, inside⟩ := single
    obtain rfl := ih first
    clear free
    induction body with
    | nil => rfl
    | cons ch body ih =>
      rw [List.forall_mem_cons] at inside
      rw [widen, List.foldl_cons, inside.1]
      simpa [widen] using ih inside.2

theorem Located.exact {s : String} {p : Position} (h : Located s 0 p)
    (single : ∀ ch ∈ prologOf s, ch.utf8Size = 1) :
    ∃ before after, s.toList = before ++ after ∧ p = .behind before 0 := by
  obtain ⟨before, between, after, n, whole, inside, widened, line, column, offset, -⟩ := h
  obtain rfl := widened.eq_zero fun ch mem => single ch (inside.subset mem)
  rw [ite_self] at column
  refine ⟨before ++ between, after, whole, ?_⟩
  obtain ⟨_, _, _⟩ := p
  simp only [Position.behind, Position.mk.injEq]
  exact ⟨line, column, offset⟩

theorem located_of_inText {s : String} (h : InText (prologOf s) s.toList c) : Located s 0 c.position := by
  obtain ⟨before, between, n, whole, inside, widened, position⟩ := h
  refine ⟨before, between, c.rest, n, whole, inside, widened, ?_, ?_, ?_, nofun⟩ <;> rw [position] <;> rfl

/-- A fault is reported at a place of the text or one byte inside the character there. -/
theorem located_of_blames {s : String} {fault : Fault} (h : Blames (InText (prologOf s) s.toList) fault) :
    Located s 0 fault.position ∨ fault.flaw.isBehindByte = true ∧ Located s 1 fault.position := by
  obtain ⟨c, here, position | ⟨behind, ch, rest, hc, position⟩⟩ := h
  · exact .inl (position ▸ located_of_inText here)
  · by_cases single : ch.utf8Size = 1
    · -- Behind the only byte of a character stands the next one.
      have next : fault.position = c.next.position := by
        rw [position, Cursor.next, hc]
        change c.position.afterByte ch = c.position.after ch
        rw [Position.afterByte, Position.after, single]
      exact .inl (next ▸ located_of_inText ((kept_inText _ _).next here))
    · obtain ⟨before, between, n, whole, inside, widened, place⟩ := here
      have positive := ch.utf8Size_pos
      have other : ch ≠ '\n' := by
        rintro rfl
        exact single rfl
      refine .inr ⟨behind, before, between, c.rest, n, whole, inside, widened, ?_, ?_, ?_, fun _ =>
        ⟨ch, rest, hc, by omega⟩⟩ <;> rw [position, Position.afterByte, if_neg other, place] <;> rfl

theorem inText_of_inProlog {prolog text : List Char} (h : InProlog text c)
    (inside : text.length - c.remaining ≤ prolog.length) (part : prolog <+: text) : InText prolog text c := by
  obtain ⟨before, n, whole, widened, position⟩ := h
  refine ⟨before, [], n, by rw [whole, List.append_nil], ?_, widened, by rw [position, List.append_nil]; rfl⟩
  refine List.prefix_of_prefix_length_le ⟨c.rest, whole.symm⟩ part ?_
  rw [whole, List.length_append, Cursor.remaining] at inside
  omega

/-- The positions that are reported for a text are positions in it: those of warnings, and that of a fault, which may
be one byte inside the character that was found instead of what was wanted. -/
def AllLocated (s : String) : Except ReadError Markup → Prop
  | .ok m => ∀ w ∈ m.warnings, Located s 0 w.position
  | .error e => (∀ w ∈ e.warnings, Located s 0 w.position) ∧
      (Located s 0 e.fault.position ∨ e.fault.flaw.isBehindByte = true ∧ Located s 1 e.fault.position)

theorem allLocated_of_reports {s : String} {r : Except ReadError Markup}
    (h : Reports (InText (prologOf s) s.toList) r) : AllLocated s r := by
  have warned {warnings : List Warning}
      (h : ∀ w ∈ warnings, ∃ c, InText (prologOf s) s.toList c ∧ w.position = c.position) :
      ∀ w ∈ warnings, Located s 0 w.position := by
    intro w mem
    obtain ⟨c, here, position⟩ := h w mem
    exact position ▸ located_of_inText here
  cases r with
  | ok m => exact warned h
  | error e => exact ⟨warned h.2, located_of_blames h.1⟩

end XmlStore
