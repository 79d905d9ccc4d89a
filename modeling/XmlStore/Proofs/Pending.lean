/-
When opening a document with its external data comes to an end. The references
in a document are a list of things to do: replacing the first of them puts
those in the files that it names in its place. So it is a matter of which files
refer to which. A file that refers to itself, through others or not, is
included over and over again.
-/
import Mathlib.Data.Fintype.Card
import Mathlib.Logic.Relation
import XmlStore.Proofs.Splicing

namespace XmlStore

open Relation (ReflTransGen TransGen)
open Tracked (Ensures)

/-! ## Ways that end -/

section

variable {α : Type} {r : α → α → Prop} {a b : α}

/-- Among finitely many things every way ends, if none that is reached leads back to itself. -/
theorem acc_of_acyclic (finite : {c | ∃ b, r b c}.Finite) (acyclic : ∀ b, TransGen r a b → ¬ TransGen r b b) :
    Acc (flip r) a := by
  let Reached := {b // TransGen r a b}
  have : Finite Reached := finite.subset fun b reached => by
    obtain ⟨c, -, last⟩ := (TransGen.tail'_iff.mp reached)
    exact ⟨c, last⟩
  let onward : Reached → Reached → Prop := fun c b => TransGen r b.1 c.1
  have : IsTrans Reached onward := ⟨fun _ _ _ first second => second.trans first⟩
  have : Std.Irrefl onward := ⟨fun b => acyclic b.1 b.2⟩
  have ends : ∀ b : Reached, Acc (flip r) b.1 := fun b => by
    induction b using (Finite.wellFounded_of_trans_of_irrefl onward).induction with
    | h b ih => exact .intro _ fun c next => ih ⟨c, b.2.tail next⟩ (.single next)
  exact .intro _ fun c next => ends ⟨c, .single next⟩

/-- What leads back to itself is on a way that does not end. -/
theorem not_acc_of_cycle (reached : ReflTransGen r a b) (cycle : TransGen r b b) : ¬ Acc (flip r) a := by
  intro ends
  induction ends with
  | intro a _ ih =>
    obtain ⟨c, next, later⟩ := TransGen.head'_iff.mp (TransGen.trans_right reached cycle)
    exact ih c next later

end

namespace External

variable {files : Files} {options : ReadOptions} {base : Option String}
variable {item f : Forest Content} {items rest : List (Forest Content)} {path : String}

/-! ## Working references off -/

section

variable {start : OpenDocument} {n : Nat}

/-- The number of replacements suffices for these references and for those that come in their place. -/
inductive Enough (files : Files) (options : ReadOptions) (base : Option String) :
    Nat → List (Forest Content) → Prop where
  | none (n : Nat) : Enough files options base n []
  | first {n : Nat} {item : Forest Content} {rest : List (Forest Content)}
      (later : Enough files options base n (successors files options base item ++ rest)) :
      Enough files options base (n + 1) (item :: rest)

/-- With enough replacements it comes to an end. -/
theorem Enough.ensures (enough : Enough files start.readOptions start.directory n (references f)) :
    Ensures (Shows start f) (includeAll files n) (fun count _ => count.isSome = true) fun _ => True := by
  generalize e : references f = items at enough
  induction enough generalizing f with
  | none n => exact (ensures_includeAll_nil e).imp (fun _ ho => ho) fun _ _ ho => ho.1
  | first _ ih =>
    exact ensures_includeAll_succ (Q := fun finished _ => finished = true) e (fun _ => trivial) fun _ =>
      ih (references_spliced e)

end

/-! ## Files that refer to files -/

/-- A file has a reference that names another file, by paths. -/
def Refers (files : Files) (options : ReadOptions) (base : Option String) (path other : String) : Prop :=
  ∃ item ∈ fileReferences files options path, other ∈ targets base item

/-- Some number of replacements suffices for these references, whatever is left to do then. -/
def Workable (files : Files) (options : ReadOptions) (base : Option String) (items : List (Forest Content)) :
    Prop :=
  ∃ k, ∀ n rest, Enough files options base n rest → Enough files options base (n + k) (items ++ rest)

theorem Workable.flatMap {α : Type} {l : List α} {f : α → List (Forest Content)}
    (each : ∀ a ∈ l, Workable files options base (f a)) : Workable files options base (l.flatMap f) := by
  induction l with
  | nil => exact ⟨0, fun n rest enough => enough⟩
  | cons a l ih =>
    rw [List.forall_mem_cons] at each
    obtain ⟨k, first⟩ := each.1
    obtain ⟨j, others⟩ := ih each.2
    refine ⟨j + k, fun n rest enough => ?_⟩
    rw [List.flatMap_cons, List.append_assoc, ← Nat.add_assoc]
    exact first _ _ (others n rest enough)

theorem Workable.single (h : Workable files options base (successors files options base item)) :
    Workable files options base [item] := by
  obtain ⟨k, enough⟩ := h
  exact ⟨k + 1, fun n rest later => .first (enough n rest later)⟩

/-- The references in a file can be worked off if the ways from it end. -/
theorem workable_fileReferences (ends : Acc (flip (Refers files options base)) path) :
    Workable files options base (fileReferences files options path) := by
  induction ends with
  | intro path _ ih =>
    rw [← List.flatMap_singleton' (fileReferences files options path)]
    exact .flatMap fun item mem => .single (.flatMap fun other named => ih other ⟨item, mem, named⟩)

theorem mem_entries_of_read {bytes : Bytes} (read : files.read path = .ok bytes) :
    ∃ place, (place, FileEntry.file bytes) ∈ files.entries := by
  rw [Files.read] at read
  split at read
  · cases read
  · obtain ⟨place, -, found⟩ := bind_eq_ok.1 read
    split at found
    · rename_i content e
      cases found
      rw [Files.find?] at e
      split at e
      · rename_i entry known
        cases e
        obtain ⟨u, v, split, -⟩ := List.lookup_eq_some_iff.mp known
        exact ⟨place, by simp [split]⟩
      · split at e <;> cases e
    · cases found
    · cases found

/-- The paths that are named in a file with this content. -/
def namedIn (options : ReadOptions) (base : Option String) (bytes : Bytes) : List String :=
  match contentRoot? options bytes with
  | some (top, below) => (references (.tree top below)).flatMap (targets base)
  | none => []

/-- Only finitely many paths are named in files. -/
theorem finite_refers (files : Files) (options : ReadOptions) (base : Option String) :
    {other | ∃ path, Refers files options base path other}.Finite := by
  let named : List String := files.entries.flatMap fun entry =>
    match entry.2 with
    | .file bytes => namedIn options base bytes
    | .directory => []
  refine named.finite_toSet.subset ?_
  rintro other ⟨path, item, mem, target⟩
  rw [fileReferences, fileRoot?] at mem
  cases read : files.read path with
  | error cause =>
    rw [read] at mem
    cases mem
  | ok bytes =>
    rw [read] at mem
    obtain ⟨place, entry⟩ := mem_entries_of_read read
    refine List.mem_flatMap.mpr ⟨_, entry, ?_⟩
    dsimp only at mem ⊢
    rw [namedIn]
    cases root : contentRoot? options bytes with
    | none =>
      rw [root] at mem
      cases mem
    | some root =>
      rw [root] at mem
      exact List.mem_flatMap.mpr ⟨item, mem, target⟩

/-! ## Never ending -/

/-- Everything that these references need is there, and in the files that they lead to as well; but from
one of them a way does not end. -/
structure Endless (files : Files) (options : ReadOptions) (base : Option String) (items : List (Forest Content)) :
    Prop where
  usable : ∀ item ∈ items, Usable files base item ∧ ∀ path ∈ targets base item,
    ∀ other, ReflTransGen (Refers files options base) path other →
      ∀ inner ∈ fileReferences files options other, Usable files base inner
  endless : ∃ item ∈ items, ∃ path ∈ targets base item, ¬ Acc (flip (Refers files options base)) path

theorem Endless.successors (h : Endless files options base (item :: rest)) :
    Endless files options base (External.successors files options base item ++ rest) := by
  obtain ⟨usable, endless⟩ := h
  rw [List.forall_mem_cons] at usable
  obtain ⟨⟨-, led⟩, others⟩ := usable
  constructor
  · intro inner mem
    rcases List.mem_append.mp mem with new | old
    · obtain ⟨path, named, mem⟩ := List.mem_flatMap.mp new
      refine ⟨led path named path .refl inner mem, fun next target other reached => ?_⟩
      exact led path named other (.head ⟨inner, mem, target⟩ reached)
    · exact others inner old
  · obtain ⟨first, mem, path, named, endless⟩ := endless
    rcases List.mem_cons.mp mem with rfl | old
    · -- A way from the path that does not end goes on to another path.
      have onward : ∃ other, Refers files options base path other ∧
          ¬ Acc (flip (Refers files options base)) other := by
        by_contra all
        exact endless (.intro _ fun other next => not_not.mp fun ends => all ⟨other, next, ends⟩)
      obtain ⟨other, ⟨inner, held, target⟩, endless'⟩ := onward
      exact ⟨inner, List.mem_append_left _ (List.mem_flatMap.mpr ⟨path, named, held⟩), other, target, endless'⟩
    · exact ⟨first, List.mem_append_right _ old, path, named, endless⟩

theorem Endless.ensures {start : OpenDocument} {n : Nat}
    (h : Endless files start.readOptions start.directory (references f)) :
    Ensures (Shows start f) (includeAll files n) (fun count _ => count.isSome = false) fun _ => False := by
  obtain ⟨item, rest, next⟩ : ∃ item rest, references f = item :: rest := by
    obtain ⟨item, mem, -⟩ := h.endless
    exact List.exists_cons_of_ne_nil (List.ne_nil_of_mem mem)
  rw [next] at h
  induction n generalizing f item rest with
  | zero => exact ensures_includeAll_zero next
  | succ n ih =>
    have usable := (h.usable item List.mem_cons_self).1
    refine ensures_includeAll_succ (Q := fun finished _ => finished = false) next
      (fun unusable => unusable usable) fun _ => ?_
    have later := h.successors
    rw [← references_spliced next] at later
    obtain ⟨item', mem, -⟩ := later.endless
    obtain ⟨first, others, next'⟩ := List.exists_cons_of_ne_nil (List.ne_nil_of_mem mem)
    exact ih first others (next' ▸ later) next'

end External

end XmlStore
