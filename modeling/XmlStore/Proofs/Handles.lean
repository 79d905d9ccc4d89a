/-
Handles. They are counted up and never given out twice, so that the documents
of a store stay in ascending order of their handles.
-/
import XmlStore.Store.Basic

namespace XmlStore

namespace Store

variable {s s' : Store} {handle : Handle} {d : OpenDocument}

/-- What a call may do to the documents of a store. -/
inductive Moves (s : Store) : Store → Prop where
  | stay : Moves s s
  | insert (d : OpenDocument) : Moves s (s.insert d)
  | update (handle : Handle) (d : OpenDocument) : Moves s (s.update handle d)
  | erase (handle : Handle) : Moves s (s.erase handle)
  | clear : Moves s s.clear
  | listen (on : Bool) : Moves s { s with listening := on }
  | silence (on : Bool) : Moves s { s with silenced := on }

theorem moves_add (new : Except Error OpenDocument) : s.Moves (s.add new).2 := by
  cases new with
  | ok d => exact .insert d
  | error e => exact .stay

theorem moves_openFile (files : Files) (patience : Nat) (path : String) (mode : OpenMode) :
    s.Moves (s.openFile files patience path mode).2 := by
  rw [openFile]
  split
  · exact .insert _
  · exact .stay
  · exact .stay

theorem moves_ask (q : Question) : s.Moves (s.ask handle q).2 := by
  rw [ask]
  split
  · exact .stay
  · exact .update handle _

theorem moves_change (c : Change) : s.Moves (s.change handle c).2 := by
  rw [change]
  split
  · exact .stay
  · split
    · exact .stay
    · split
      · exact .stay
      · exact .update handle _

theorem moves_set (setting : Setting) : s.Moves (s.set handle setting).2 := by
  rw [set]
  split
  · exact .stay
  · split
    · exact .update handle _
    · exact .update handle _

theorem moves_save (files : Files) (path : String) (mode : SaveMode) :
    s.Moves (s.save files handle path mode).2.1 := by
  rw [save]
  split
  · exact .stay
  · split
    · exact .stay
    · exact .update handle _

theorem moves_close : s.Moves (s.close handle).2 := by
  rw [close]
  split
  · exact .stay
  · exact .erase handle

/-- A store whose documents stand in ascending order of their handles, all of them used up. -/
structure Numbered (s : Store) : Prop where
  ascending : s.handles.Pairwise (· < ·)
  used : ∀ handle ∈ s.handles, handle < s.nextHandle

theorem handles_insert : (s.insert d).handles = s.handles ++ [s.nextHandle] := List.map_append

theorem handles_update : (s.update handle d).handles = s.handles := List.map_map

theorem handles_erase : (s.erase handle).handles = s.handles.filter (· ≠ handle) := by
  rw [handles, handles, erase, List.filter_map]
  rfl

/-- What is found after a document has been put in place of the one under a handle. -/
theorem document?_update (other : Handle) : (s.update handle d).document? other =
    (s.document? other).map fun old => if other = handle then d else old := by
  rw [document?, document?, update]
  induction s.documents with
  | nil => rfl
  | cons entry entries ih =>
    obtain ⟨h, old⟩ := entry
    rw [List.map_cons, List.lookup_cons, List.lookup_cons]
    cases same : other == h with
    | true =>
      rw [beq_iff_eq] at same
      rw [same]
      rfl
    | false => exact ih

theorem numbered_ofOptions (options : StoreOptions) : (ofOptions options).Numbered :=
  ⟨.nil, nofun⟩

/-- One step keeps the order. -/
theorem Numbered.moves (h : s.Numbered) (move : s.Moves s') : s'.Numbered := by
  cases move with
  | stay => exact h
  | insert d =>
    constructor
    · rw [handles_insert, List.pairwise_append]
      refine ⟨h.ascending, List.pairwise_singleton .., fun handle known new hnew => ?_⟩
      rw [List.mem_singleton.mp hnew]
      exact h.used handle known
    · intro handle known
      have next : (s.insert d).nextHandle = s.nextHandle + 1 := rfl
      rw [handles_insert, List.mem_append] at known
      rcases known with old | new
      · rw [next]
        exact Int.lt_trans (h.used handle old) (Int.lt_succ s.nextHandle)
      · rw [next, List.mem_singleton.mp new]
        exact Int.lt_succ s.nextHandle
  | update handle d =>
    have same : (s.update handle d).handles = s.handles := handles_update
    exact ⟨by rw [same]; exact h.ascending, by rw [same]; exact h.used⟩
  | erase handle =>
    constructor
    · rw [handles_erase]
      exact h.ascending.filter _
    · intro other known
      rw [handles_erase] at known
      exact h.used other (List.mem_filter.mp known).1
  | clear => exact ⟨.nil, nofun⟩
  | listen on => exact ⟨h.ascending, h.used⟩
  | silence on => exact ⟨h.ascending, h.used⟩

theorem Numbered.document?_insert (h : s.Numbered) (d : OpenDocument) :
    (s.insert d).document? s.nextHandle = some d := by
  have new : s.documents.lookup s.nextHandle = none := by
    rw [List.lookup_eq_none_iff]
    intro entry mem
    have used := h.used entry.1 (List.mem_map_of_mem mem)
    exact bne_iff_ne.mpr (Int.ne_of_gt used)
  rw [document?, insert, List.lookup_append, new, Option.none_or, List.lookup_cons_self]

/-- No document stands under the handle of another. -/
theorem Numbered.eq_of_mem (h : s.Numbered) (found : s.document? handle = some d)
    {other : OpenDocument} (listed : (handle, other) ∈ s.documents) : other = d := by
  obtain ⟨before, after, split, -⟩ := List.lookup_eq_some_iff.mp found
  have ascending := h.ascending
  rw [handles, split, List.map_append, List.map_cons, List.pairwise_append,
    List.pairwise_cons] at ascending
  obtain ⟨-, ⟨above, -⟩, below⟩ := ascending
  rw [split, List.mem_append, List.mem_cons] at listed
  rcases listed with earlier | here | later
  · exact absurd (below handle (List.mem_map_of_mem earlier) handle List.mem_cons_self)
      (Int.lt_irrefl handle)
  · exact congrArg Prod.snd here
  · exact absurd (above handle (List.mem_map_of_mem later)) (Int.lt_irrefl handle)

end Store

/-- One call. -/
theorem Session.moves_call (s : Session) (patience : Nat) (c : Call) :
    s.store.Moves (s.call patience c).2.store := by
  cases c with
  | create rootName => exact Store.moves_add _
  | importText markup => exact Store.moves_add _
  | openFile path mode => exact Store.moves_openFile ..
  | save handle path mode => exact Store.moves_save ..
  | close handle => exact Store.moves_close
  | closeAll => exact .clear
  | ask handle q => exact Store.moves_ask q
  | change handle c => exact Store.moves_change c
  | set handle setting => exact Store.moves_set setting
  | listen on => exact .listen on
  | silence on => exact .silence on

end XmlStore
