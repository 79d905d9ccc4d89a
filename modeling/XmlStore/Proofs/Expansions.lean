/-
Including external data from other files that hold the same. Whether
references are in the form in which they are put back makes no difference:
if the files and the document agree up to this, the same comes out.
-/
import XmlStore.Proofs.Restored

namespace XmlStore

open Tracked (Ensures)

namespace External

variable {files files' : Files} {options : ReadOptions} {base : Option String} {bytes : Bytes} {n : Nat}
variable {top content : Content} {item item' below children f f' whole : Forest Content}
variable {items rest : List (Forest Content)} {names : List String}
variable {path name directory directory' location resolved : String}

/-! ## Files that hold the same -/

/-- The document element that bytes hold, with its references in the form in which they are put back. -/
def normalRoot? (options : ReadOptions) (bytes : Bytes) : Option (Forest Content) :=
  (contentRoot? options bytes).map fun root => normal (.tree root.1 root.2)

theorem normalRoot?_eq (other : ¬ isReference top = true) (root : contentRoot? options bytes = some (top, below)) :
    normalRoot? options bytes = some (.tree top (normal below)) := by
  rw [normalRoot?, root]
  exact congrArg some (normal_tree other)

/-- Each file can still be read, and holds the same document element. -/
def Alike (options : ReadOptions) (files files' : Files) : Prop :=
  ∀ path bytes, files.read path = .ok bytes →
    ∃ bytes', files'.read path = .ok bytes' ∧ normalRoot? options bytes' = normalRoot? options bytes

/-- What including makes of a document element; of a reference it makes nothing that shows. -/
def markedTree (name directory location : String) : Forest Content → Forest Content
  | .nil => .nil
  | .cons top below later => .cons (if isReference top then top else marked name directory location top) below later

theorem normal_marked : normal (.tree (marked name directory location top) below) =
    markedTree name directory location (normal (.tree top below)) := by
  by_cases here : isReference top = true
  · rw [Forest.tree, normal_reference (isReference_marked.trans here), Forest.tree, normal_reference here, markedTree,
      if_pos isReference_referenceContent]
  · have other : ¬ isReference (marked name directory location top) = true := by rwa [isReference_marked]
    rw [Forest.tree, normal_other other, Forest.tree, normal_other here, markedTree, if_neg here]

theorem markedTree_directoryUri (same : directoryUri directory = directoryUri directory') :
    markedTree name directory location f = markedTree name directory' location f := by
  cases f with
  | nil => rfl
  | cons top below later => rw [markedTree, markedTree, marked, marked, same]

theorem normal_broughtBy (read : files.read (FilePath.join resolved name) = .ok bytes) :
    normal (broughtBy files options resolved directory location name) =
      ((normalRoot? options bytes).map (markedTree name directory location)).getD .nil := by
  rw [broughtBy, fileRoot?, read, normalRoot?]
  dsimp only
  cases contentRoot? options bytes with
  | none => rfl
  | some root => exact normal_marked

/-- A reference in another form names the same. -/
theorem target?_of_canonical (same : canonical item' = canonical item)
    (named : target? item = some (directory, names)) :
    ∃ directory', target? item' = some (directory', names) ∧ directoryUri directory = directoryUri directory' := by
  have targets := congrArg target? same
  rw [target?_canonical, target?_canonical, named] at targets
  obtain ⟨⟨directory', names'⟩, named', e⟩ := Option.map_eq_some_iff.mp targets
  obtain ⟨uri, rfl⟩ := Prod.mk.inj e
  exact ⟨directory', named', uri.symm⟩

section

variable (alike : Alike options files files')

include alike

theorem normal_broughtBy_alike (read : files.read (FilePath.join resolved name) = .ok bytes)
    (same : directoryUri directory = directoryUri directory') :
    normal (broughtBy files' options resolved directory' location name) =
      normal (broughtBy files options resolved directory location name) := by
  obtain ⟨bytes', read', holds⟩ := alike _ _ read
  rw [normal_broughtBy read, normal_broughtBy read', holds]
  cases normalRoot? options bytes with
  | none => rfl
  | some tree => exact (markedTree_directoryUri same).symm

theorem normal_broughtByAll_alike (all : ∀ name ∈ names, ∃ bytes, files.read (FilePath.join resolved name) = .ok bytes)
    (same : directoryUri directory = directoryUri directory') :
    normal (broughtByAll files' options resolved directory' location names) =
      normal (broughtByAll files options resolved directory location names) := by
  induction names with
  | nil => rfl
  | cons name names ih =>
    rw [List.forall_mem_cons] at all
    obtain ⟨⟨bytes, read⟩, others⟩ := all
    rw [broughtByAll, broughtByAll, normal_append, normal_append, normal_broughtBy_alike alike read same, ih others]

theorem usable_alike (usable : Usable files base item) (same : canonical item' = canonical item) :
    Usable files' base item' := by
  obtain ⟨directory, names, resolved, named, found, all⟩ := usable
  obtain ⟨directory', named', uri⟩ := target?_of_canonical same named
  refine ⟨directory', names, resolved, named', ?_, fun name mem => ?_⟩
  · rw [← localDirectory?_directoryUri, ← uri, localDirectory?_directoryUri, found]
  · obtain ⟨bytes, read⟩ := all name mem
    obtain ⟨bytes', read', -⟩ := alike _ _ read
    exact ⟨bytes', read'⟩

theorem normal_brought_alike (usable : Usable files base item) (same : canonical item' = canonical item) :
    normal (brought files' options base location item') = normal (brought files options base location item) := by
  obtain ⟨directory, names, resolved, named, found, all⟩ := usable
  obtain ⟨directory', named', uri⟩ := target?_of_canonical same named
  have found' : localDirectory? base directory' = some resolved := by
    rw [← localDirectory?_directoryUri, ← uri, localDirectory?_directoryUri, found]
  rw [brought, named', brought, named]
  dsimp only
  rw [found, found']
  exact normal_broughtByAll_alike alike all uri

theorem normal_spliced_alike (next : references f = item :: rest) (usable : Usable files base item)
    (same : normal f' = normal f) :
    normal (spliced files' options base f') = normal (spliced files options base f) := by
  have forms := congrArg references same
  rw [references_normal, references_normal, next, List.map_cons] at forms
  obtain ⟨item', rest', next', form, -⟩ := List.map_eq_cons_iff.mp forms
  have place : firstTrail [] f' = firstTrail [] f := by
    rw [← firstTrail_normal [] f', ← firstTrail_normal [] f, same]
  rw [spliced_of_references next', spliced_of_references next, normal_replaceFirst, normal_replaceFirst, same, place,
    normal_brought_alike alike usable form]

end

/-! ## What comes of including everything -/

/-- With so many replacements the second forest comes of the first one, and nothing is left to include. -/
inductive Expands (files : Files) (options : ReadOptions) (base : Option String) :
    Nat → Forest Content → Forest Content → Prop where
  | done {n : Nat} {f : Forest Content} (none : references f = []) : Expands files options base n f f
  | next {n : Nat} {f whole item : Forest Content} {rest : List (Forest Content)} (next : references f = item :: rest)
      (usable : Usable files base item) (later : Expands files options base n (spliced files options base f) whole) :
      Expands files options base (n + 1) f whole

namespace Expands

theorem references_eq_nil (expands : Expands files options base n f whole) : references whole = [] := by
  induction expands with
  | done none => exact none
  | next _ _ _ ih => exact ih

/-- From files and a forest that are the same up to the form of references the same comes. -/
theorem alike (alike : Alike options files files') (same : normal f' = normal f)
    (expands : Expands files options base n f whole) : Expands files' options base n f' whole := by
  induction expands generalizing f' with
  | @done n f none =>
    have none' : references f' = [] := by
      have forms := congrArg references same
      rwa [references_normal, references_normal, none, List.map_nil, List.map_eq_nil_iff] at forms
    rw [normal_of_references_eq_nil none, normal_of_references_eq_nil none'] at same
    rw [same]
    exact .done none
  | @next n f whole item rest next usable later ih =>
    have forms := congrArg references same
    rw [references_normal, references_normal, next, List.map_cons] at forms
    obtain ⟨item', rest', next', form, -⟩ := List.map_eq_cons_iff.mp forms
    exact .next next' (usable_alike alike usable form) (ih (normal_spliced_alike alike next usable same))

variable {start : OpenDocument}

/-- What comes of the forest is what the document then holds. -/
theorem ensures (expands : Expands files start.readOptions start.directory n f whole) :
    Ensures (Shows start f) (includeAll files n) (fun count o => count.isSome = true ∧ Shows start whole o)
      fun _ => False := by
  induction expands with
  | done none => exact ensures_includeAll_nil none
  | next next usable _ ih =>
    exact ensures_includeAll_succ (Q := fun finished o => finished = true ∧ Shows start _ o) next
      (fun unusable => unusable usable) fun _ => ih

end Expands

variable {start : OpenDocument}

/-- If including everything comes to an end, it has made what comes of the forest. -/
theorem ensures_includeAll_expands : Ensures (Shows start f) (includeAll files n)
    (fun count o => count.isSome = true →
      ∃ whole, Expands files start.readOptions start.directory n f whole ∧ Shows start whole o) fun _ => True := by
  induction n generalizing f with
  | zero =>
    cases next : references f with
    | nil => exact (ensures_includeAll_nil next).imp (fun _ ho => ho) fun _ _ ho _ => ⟨f, .done next, ho.2⟩
    | cons item rest =>
      refine (ensures_includeAll_zero next).imp (fun _ ho => ho) fun _ _ none some => ?_
      rw [none] at some
      cases some
  | succ n ih =>
    cases next : references f with
    | nil => exact (ensures_includeAll_nil next).imp (fun _ ho => ho) fun _ _ ho _ => ⟨f, .done next, ho.2⟩
    | cons item rest =>
      refine ensures_includeAll_succ (Q := fun finished o => finished = true →
        ∃ whole, Expands files start.readOptions start.directory (n + 1) f whole ∧ Shows start whole o) next
        (fun _ => trivial) fun usable => ?_
      refine ih.imp (fun _ ho => ho) fun _ _ ho finished => ?_
      obtain ⟨whole, later, shows⟩ := ho finished
      exact ⟨whole, .next next usable later, shows⟩

end External

end XmlStore
