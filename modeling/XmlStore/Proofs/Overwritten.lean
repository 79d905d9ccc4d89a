/-
Files that are written over. A path from which a file was read can be written
to; after that every path to the same file gives what was written, and every
other path what it gave before.
-/
import Mathlib.Data.List.Basic
import XmlStore.Files.Basic

namespace XmlStore

namespace Files

variable {f : Files} {start place above other pieces rest : List String} {piece path : String} {old bytes : Bytes}

/-- Nothing is in a file. -/
def Grounded (f : Files) : Prop :=
  ∀ place bytes, f.find? place = some (.file bytes) → ∀ name, f.find? (place ++ [name]) = none

/-! ## Where paths lead -/

/-- The place that one piece of a path leads to. -/
def towards (place : List String) (piece : String) : List String :=
  if FilePath.isIdle piece then place else if piece == ".." then place.dropLast else place ++ [piece]

theorem enter_eq_ok : f.enter place = .ok () ↔ f.find? place = some .directory := by
  rw [enter]
  split <;> simp_all

theorem follow_cons : f.follow start (piece :: rest) = f.enter start >>= fun _ => f.follow (towards start piece) rest := by
  rw [follow, towards]
  refine congrArg (f.enter start >>= ·) (funext fun _ => ?_)
  split
  · rfl
  · split <;> rfl

theorem follow_cons_eq_ok : f.follow start (piece :: rest) = .ok place ↔
    f.find? start = some .directory ∧ f.follow (towards start piece) rest = .ok place := by
  rw [follow_cons, ← enter_eq_ok]
  cases f.enter start with
  | error cause => exact ⟨nofun, nofun⟩
  | ok => exact (and_iff_right rfl).symm

/-- Empty pieces lead nowhere. -/
theorem follow_filter (h : f.follow start pieces = .ok place) :
    f.follow start (pieces.filter (!·.isEmpty)) = .ok place := by
  induction pieces generalizing start with
  | nil => exact h
  | cons piece pieces ih =>
    obtain ⟨entered, later⟩ := follow_cons_eq_ok.mp h
    by_cases empty : piece.isEmpty = true
    · have stays : towards start piece = start := by
        rw [String.isEmpty_iff.mp empty]
        rfl
      rw [stays] at later
      rw [List.filter_cons_of_neg (by simp [empty])]
      exact ih later
    · rw [List.filter_cons_of_pos (by simpa using empty)]
      exact follow_cons_eq_ok.mpr ⟨entered, ih later⟩

theorem follow_concat_eq_ok (init : List String) : f.follow start (init ++ [piece]) = .ok place ↔
    ∃ above, f.follow start init = .ok above ∧ f.find? above = some .directory ∧ towards above piece = place := by
  induction init generalizing start with
  | nil =>
    rw [List.nil_append, follow_cons_eq_ok]
    simp [follow]
  | cons first init ih =>
    simp only [List.cons_append, follow_cons_eq_ok, ih, and_assoc, exists_and_left]

/-- The last piece of a path to a file is the name of the file. -/
theorem exists_name (grounded : f.Grounded) (some : pieces ≠ []) (followed : f.follow start pieces = .ok place)
    (file : f.find? place = .some (.file old)) : ∃ init name above, pieces = init ++ [name] ∧
      FilePath.isIdle name = false ∧ name ≠ ".." ∧ f.follow start init = .ok above ∧
      f.find? above = .some .directory ∧ place = above ++ [name] := by
  obtain ⟨init, name, rfl⟩ := (List.eq_nil_or_concat' pieces).resolve_left some
  obtain ⟨above, along, directory, rfl⟩ := (follow_concat_eq_ok init).mp followed
  refine ⟨init, name, above, rfl, ?_⟩
  rw [towards] at file ⊢
  split at file
  · rw [directory] at file
    cases file
  · rename_i busy
    split at file
    · rcases List.eq_nil_or_concat' above with rfl | ⟨front, last, rfl⟩
      · rw [List.dropLast_nil, directory] at file
        cases file
      · rw [List.dropLast_concat] at file
        rw [grounded _ _ file] at directory
        cases directory
    · rename_i down
      exact ⟨Bool.eq_false_iff.mpr busy, by simpa using down, along, directory, by rw [if_neg busy, if_neg down]⟩

theorem endsInSlash_eq_false {init : List String} (split : FilePath.pieces path = init ++ [piece])
    (busy : FilePath.isIdle piece = false) : endsInSlash path = false := by
  rw [endsInSlash, beq_eq_false_iff_ne]
  intro last
  obtain ⟨front, chars⟩ := List.getLast?_eq_some_iff.mp last
  rw [FilePath.pieces, chars, List.splitOn, List.splitOnP_append_cons _ _ (by rfl), List.map_append] at split
  obtain rfl : "" = piece := List.head_eq_of_cons_eq (List.append_inj_right' split rfl)
  cases busy

theorem read_eq_ok : f.read path = .ok bytes ↔ path.isEmpty = false ∧
    ∃ place, f.follow (f.base path) (FilePath.pieces path) = .ok place ∧ f.find? place = some (.file bytes) := by
  rw [read]
  cases path.isEmpty with
  | true => simp
  | false =>
    cases f.follow (f.base path) (FilePath.pieces path) with
    | error cause => simp [bind, Except.bind]
    | ok place =>
      simp only [bind, Except.bind, Bool.false_eq_true, if_false, true_and, Except.ok.injEq, exists_eq_left']
      split <;> simp_all

/-! ## Putting a file in place of another -/

theorem lookup_put_of_ne {entry : FileEntry} (ne : other ≠ place) (entries : List (List String × FileEntry)) :
    (entries.map fun old => if old.1 == place then (place, entry) else old).lookup other = entries.lookup other := by
  induction entries with
  | nil => rfl
  | cons first entries ih =>
    obtain ⟨known, content⟩ := first
    rw [List.map_cons]
    split
    · rename_i here
      have differs : (other == place) = false := beq_eq_false_iff_ne.mpr ne
      rw [List.lookup_cons, List.lookup_cons, ih, show known = place from eq_of_beq here, differs]
    · rw [List.lookup_cons, List.lookup_cons, ih]

/-- What is at other places stays there. -/
theorem find?_put_of_ne (file : f.find? place = some (.file old)) (ne : other ≠ place) :
    (f.put place (.file bytes)).find? other = f.find? other := by
  have known : f.entries.any (·.1 == place) = true := by
    rw [find?] at file
    split at file
    · rename_i entry found
      obtain ⟨before, after, split, -⟩ := List.lookup_eq_some_iff.mp found
      rw [split]
      simp
    · split at file <;> cases file
  have inside : ((fun entry : List String × FileEntry => other.isPrefixOf entry.1) ∘ fun old =>
      if old.1 == place then (place, .file bytes) else old) = fun entry => other.isPrefixOf entry.1 := by
    funext entry
    rw [Function.comp_apply]
    split
    · rename_i here
      rw [eq_of_beq here]
    · rfl
  rw [put, if_pos known, find?, find?, lookup_put_of_ne ne, List.any_map, inside]

theorem follow_put (file : f.find? place = some (.file old)) (pieces : List String) :
    (f.put place (.file bytes)).follow start pieces = f.follow start pieces := by
  have entered (place' : List String) : (f.put place (.file bytes)).enter place' = f.enter place' := by
    rw [enter, enter]
    by_cases here : place' = place
    · rw [here, find?_put, file]
    · rw [find?_put_of_ne file here]
  induction pieces generalizing start with
  | nil => rfl
  | cons piece pieces ih =>
    rw [follow_cons, follow_cons, entered]
    exact congrArg (f.enter start >>= ·) (funext fun _ => ih)

theorem Grounded.put (grounded : f.Grounded) (file : f.find? place = some (.file old)) :
    (f.put place (.file bytes)).Grounded := by
  intro other content found name
  obtain ⟨content', found'⟩ : ∃ content', f.find? other = some (.file content') := by
    by_cases here : other = place
    · exact ⟨old, here ▸ file⟩
    · exact ⟨content, (find?_put_of_ne file here).symm.trans found⟩
  have none := grounded other content' found' name
  rwa [find?_put_of_ne file]
  rintro rfl
  rw [file] at none
  cases none

theorem base_put (path : String) : (f.put place (.file bytes)).base path = f.base path := by
  have home : (f.put place (.file bytes)).home = f.home := by
    rw [put]
    split <;> rfl
  rw [base, base, home]

theorem read_put (file : f.find? place = some (.file old)) (path : String) :
    (f.put place (.file bytes)).read path = f.read path ∨
      f.read path = .ok old ∧ (f.put place (.file bytes)).read path = .ok bytes := by
  cases named : path.isEmpty with
  | true =>
    left
    rw [read, read, named]
    rfl
  | false =>
    cases followed : f.follow (f.base path) (FilePath.pieces path) with
    | error cause =>
      left
      rw [read, read, base_put, follow_put file, followed]
      rfl
    | ok there =>
      by_cases here : there = place
      · subst here
        refine .inr ⟨read_eq_ok.mpr ⟨named, there, followed, file⟩, read_eq_ok.mpr ⟨named, there, ?_, find?_put ..⟩⟩
        rw [base_put, follow_put file, followed]
      · left
        rw [read, read, base_put, follow_put file, followed]
        simp only [bind, Except.bind, find?_put_of_ne file here]

/-! ## Writing over a file -/

/-- A path from which a file was read can be written to. From the paths that lead to the same file what was
written is read then, and from the other ones what was read before. -/
theorem write_of_read (grounded : f.Grounded) (known : f.read path = .ok old) (bytes : Bytes) :
    ∃ f', f.write path bytes = .ok f' ∧ f'.Grounded ∧ f'.read path = .ok bytes ∧
      ∀ other, f'.read other = f.read other ∨ f.read other = .ok old ∧ f'.read other = .ok bytes := by
  obtain ⟨named, place, followed, file⟩ := read_eq_ok.mp known
  have some : FilePath.pieces path ≠ [] := by simp [FilePath.pieces, List.splitOn_ne_nil]
  obtain ⟨init, name, above, split, busy, down, along, directory, rfl⟩ := exists_name grounded some followed file
  refine ⟨f.put (above ++ [name]) (.file bytes), ?_, grounded.put file, ?_, read_put file⟩
  · have filled : name.isEmpty = false := by
      rw [Bool.eq_false_iff]
      intro empty
      rw [String.isEmpty_iff.mp empty] at busy
      cases busy
    have pieces : names path = init.filter (!·.isEmpty) ++ [name] := by
      rw [names, split, List.filter_append, List.filter_cons_of_pos (by simp [filled])]
      rfl
    have nowhere : ¬ (FilePath.isIdle name || name == ".." || endsInSlash path) = true := by
      simp [busy, down, endsInSlash_eq_false split busy]
    rw [write, named, pieces, List.dropLast_concat, follow_filter along, List.getLastD_concat]
    simp only [bind, Except.bind, Bool.false_eq_true, if_false, enter_eq_ok.mpr directory, if_neg nowhere, file]
  · rw [read_eq_ok, base_put, follow_put file]
    exact ⟨named, _, followed, find?_put ..⟩

end Files

end XmlStore
