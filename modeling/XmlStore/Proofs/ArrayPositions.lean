/-
Positions in an array. The combinations of positions within the sizes of an
array, in their lexicographic order, are the numbers of its list, one after
another: the place of a combination counts the numbers before it, and every
number of the list has one combination. A combination of the wrong length and
one that goes beyond a dimension are refused.
-/
import Mathlib.Algebra.BigOperators.Group.List.Basic
import Mathlib.Data.List.Lex
import Mathlib.Order.Monotone.Basic
import Mathlib.Data.Set.Function
import Mathlib.Tactic.Ring
import XmlStore.Store.Array

namespace XmlStore

/-- There is a position for every dimension, and it lies below the size of that dimension. -/
def InRange (sizes positions : List Nat) : Prop :=
  List.Forall₂ (fun size position => position < size) sizes positions

/-- How many combinations of positions there are before this one. -/
def place : List Nat → List Nat → Nat
  | _ :: sizes, position :: positions => position * sizes.prod + place sizes positions
  | _, _ => 0

namespace InRange

theorem length_eq {sizes positions : List Nat} (within : InRange sizes positions) :
    positions.length = sizes.length :=
  (List.Forall₂.length_eq within).symm

@[simp] theorem nil_iff {positions : List Nat} : InRange [] positions ↔ positions = [] :=
  List.forall₂_nil_left_iff

@[simp] theorem cons_iff {size position : Nat} {sizes positions : List Nat} :
    InRange (size :: sizes) (position :: positions) ↔
      position < size ∧ InRange sizes positions :=
  List.forall₂_cons

end InRange

theorem place_lt_prod {sizes positions : List Nat} (within : InRange sizes positions) :
    place sizes positions < sizes.prod := by
  induction within with
  | nil => simp [place]
  | @cons size position sizes positions below _ ih =>
    calc position * sizes.prod + place sizes positions
        < position * sizes.prod + sizes.prod := by omega
      _ = (position + 1) * sizes.prod := (Nat.succ_mul ..).symm
      _ ≤ size * sizes.prod := Nat.mul_le_mul_right _ below
      _ = (size :: sizes).prod := List.prod_cons.symm

/-- A combination that comes later has more before it. -/
theorem strictMonoOn_place (sizes : List Nat) :
    StrictMonoOn (place sizes) {positions | InRange sizes positions} := by
  intro p hp q hq later
  induction hp generalizing q with
  | nil => simp [InRange.nil_iff.mp hq] at later
  | @cons size a sizes p _ tail ih =>
    cases hq with
    | @cons _ b _ q _ tail' =>
    obtain earlier | ⟨rfl, rest⟩ := List.cons_lt_cons_iff.mp later
    · calc a * sizes.prod + place sizes p
          < a * sizes.prod + sizes.prod := by have := place_lt_prod tail; omega
        _ = (a + 1) * sizes.prod := (Nat.succ_mul ..).symm
        _ ≤ b * sizes.prod := Nat.mul_le_mul_right _ earlier
        _ ≤ b * sizes.prod + place sizes q := Nat.le_add_right ..
    · have := ih tail' rest
      simp only [place]
      omega

theorem exists_place_eq {sizes : List Nat} {i : Nat} (below : i < sizes.prod) :
    ∃ positions, InRange sizes positions ∧ place sizes positions = i := by
  induction sizes generalizing i with
  | nil => exact ⟨[], by simp, by simp_all [place]⟩
  | cons size sizes ih =>
    rw [List.prod_cons] at below
    have positive : 0 < sizes.prod := Nat.pos_of_mul_pos_left (Nat.zero_lt_of_lt below)
    obtain ⟨positions, within, at_rest⟩ := ih (Nat.mod_lt i positive)
    refine ⟨i / sizes.prod :: positions, ?_, ?_⟩
    · exact InRange.cons_iff.mpr ⟨Nat.div_lt_of_lt_mul (Nat.mul_comm .. ▸ below), within⟩
    · rw [place, at_rest, Nat.mul_comm, Nat.div_add_mod]

/-- The combinations are exactly the places of the list. -/
theorem bijOn_place (sizes : List Nat) :
    Set.BijOn (place sizes) {positions | InRange sizes positions} {i | i < sizes.prod} :=
  ⟨fun _ within => place_lt_prod within, (strictMonoOn_place sizes).injOn,
    fun _ below => exists_place_eq below⟩

/-- Nothing is cut off on the way, as no index on the way exceeds the one at the end. -/
theorem arrayIndex_of_inRange {sizes positions : List Nat} (within : InRange sizes positions)
    (dimension : Nat) {index : Nat} (small : (index + 1) * sizes.prod ≤ Size.limit) :
    arrayIndex dimension index sizes positions =
      .ok (index * sizes.prod + place sizes positions) := by
  induction within generalizing dimension index with
  | nil => simp [arrayIndex, place]
  | @cons size position sizes positions below tail ih =>
    have step : (index * size + position + 1) * sizes.prod ≤ Size.limit := by
      calc (index * size + position + 1) * sizes.prod
          ≤ (index * size + size) * sizes.prod := Nat.mul_le_mul_right _ (by omega)
        _ = (index + 1) * (size :: sizes).prod := by rw [List.prod_cons]; ring
        _ ≤ Size.limit := small
    have fits : index * size + position < Size.limit := by
      have positive : 1 ≤ sizes.prod := Nat.one_le_of_lt (place_lt_prod tail)
      have := Nat.mul_le_mul_left (index * size + position + 1) positive
      omega
    rw [arrayIndex, if_pos below, Size.wrap_of_lt fits, ih _ step]
    simp only [place, List.prod_cons]
    congr 1
    ring

/-- The first dimension that a position goes beyond is named. -/
theorem arrayIndex_of_not_inRange {sizes positions : List Nat}
    (same : positions.length = sizes.length) (beyond : ¬ InRange sizes positions)
    (dimension index : Nat) :
    ∃ k size position, sizes[k]? = some size ∧ positions[k]? = some position ∧
      size ≤ position ∧ InRange (sizes.take k) (positions.take k) ∧
      arrayIndex dimension index sizes positions =
        .error (.indexOutOfRange s!"dimension {dimension + k}" (Size.reported position)) := by
  induction sizes generalizing positions dimension index with
  | nil => exact absurd (InRange.nil_iff.mpr (List.length_eq_zero_iff.mp same)) beyond
  | cons size sizes ih =>
    obtain ⟨position, positions, rfl⟩ := List.exists_cons_of_length_eq_add_one same
    by_cases below : position < size
    · have rest : ¬ InRange sizes positions := fun within =>
        beyond (InRange.cons_iff.mpr ⟨below, within⟩)
      obtain ⟨k, size', position', hs, hp, exceeds, before, refused⟩ :=
        ih (by simpa using same) rest (dimension + 1) (Size.wrap (index * size + position))
      refine ⟨k + 1, size', position', hs, hp, exceeds, ?_, ?_⟩
      · simpa using ⟨below, before⟩
      · rw [arrayIndex, if_pos below, refused, Nat.add_right_comm, Nat.add_assoc]
    · exact ⟨0, size, position, rfl, rfl, Nat.le_of_not_lt below, by simp,
        by rw [arrayIndex, if_neg below, Nat.add_zero]⟩

section

variable {numbers : List Float} {sizes positions : List Nat}

theorem arrayValue_of_length_ne (h : sizes = [] ∨ positions.length ≠ sizes.length) :
    arrayValue numbers sizes positions =
      .error (.positionCount sizes.length positions.length) := by
  have refused : (sizes.isEmpty || sizes.length ≠ positions.length) = true := by
    obtain rfl | other := h
    · rfl
    · simp [Ne.symm other]
  rw [arrayValue, if_pos refused]
  rfl

theorem arrayValue_eq_bind (nonempty : sizes ≠ []) (same : positions.length = sizes.length) :
    arrayValue numbers sizes positions = (do
      let index ← arrayIndex 0 0 sizes positions
      match numbers[index]? with
      | some x => return x
      | none => throw (.indexOutOfRange "array" (Size.reported index))) := by
  have taken : ¬ (sizes.isEmpty || sizes.length ≠ positions.length) = true := by
    simp [nonempty, same]
  unfold arrayValue
  exact if_neg taken

/-- A combination within the sizes reads the number at its place. -/
theorem arrayValue_of_inRange (small : sizes.prod < Size.limit)
    (full : numbers.length = sizes.prod) (nonempty : sizes ≠ [])
    (within : InRange sizes positions) :
    arrayIndex 0 0 sizes positions = .ok (place sizes positions) ∧
      ∃ x, numbers[place sizes positions]? = some x ∧
        arrayValue numbers sizes positions = .ok x := by
  have index : arrayIndex 0 0 sizes positions = .ok (place sizes positions) := by
    have start : (0 + 1) * sizes.prod ≤ Size.limit := by omega
    simpa using arrayIndex_of_inRange within 0 start
  have below : place sizes positions < numbers.length := full ▸ place_lt_prod within
  have read := List.getElem?_eq_getElem below
  refine ⟨index, numbers[place sizes positions], read, ?_⟩
  rw [arrayValue_eq_bind nonempty within.length_eq, index]
  simp only [bind, Except.bind, read]
  rfl

theorem arrayValue_of_not_inRange (nonempty : sizes ≠ []) (same : positions.length = sizes.length)
    (beyond : ¬ InRange sizes positions) :
    ∃ error, arrayValue numbers sizes positions = .error error ∧
      error.code = .indexOutOfRange := by
  obtain ⟨k, size, position, _, _, _, _, refused⟩ :=
    arrayIndex_of_not_inRange same beyond 0 0
  refine ⟨.indexOutOfRange s!"dimension {0 + k}" (Size.reported position), ?_, rfl⟩
  rw [arrayValue_eq_bind nonempty same, refused]
  rfl

end

/--
Reading from an array with a number for every combination. It succeeds exactly on positions
within the sizes, and the index it reads at maps these one-to-one and in their order onto the
places of the list.
-/
theorem arrayValue_characterised (numbers : List Float) (sizes : List Nat)
    (small : sizes.prod < Size.limit) (full : numbers.length = sizes.prod) :
    (∀ positions, (∃ x, arrayValue numbers sizes positions = .ok x) ↔
      sizes ≠ [] ∧ InRange sizes positions) ∧
    (∀ positions, sizes = [] ∨ positions.length ≠ sizes.length →
      ∃ error, arrayValue numbers sizes positions = .error error ∧ error.code = .failed) ∧
    (∀ positions, sizes ≠ [] → positions.length = sizes.length → ¬ InRange sizes positions →
      ∃ error, arrayValue numbers sizes positions = .error error ∧
        error.code = .indexOutOfRange) ∧
    (∀ positions, sizes ≠ [] → InRange sizes positions →
      arrayIndex 0 0 sizes positions = .ok (place sizes positions) ∧
      ∃ x, numbers[place sizes positions]? = some x ∧
        arrayValue numbers sizes positions = .ok x) ∧
    Set.BijOn (place sizes) {positions | InRange sizes positions} {i | i < sizes.prod} ∧
    (∀ p q, InRange sizes p → InRange sizes q →
      (place sizes p < place sizes q ↔ p < q)) ∧
    (sizes ≠ [] → ∀ i < numbers.length, ∃! positions,
      InRange sizes positions ∧ arrayIndex 0 0 sizes positions = .ok i) := by
  have reads (positions : List Nat) (nonempty : sizes ≠ []) (within : InRange sizes positions) :=
    arrayValue_of_inRange small full nonempty within
  refine ⟨fun positions => ⟨fun ⟨x, read⟩ => ?_, fun ⟨nonempty, within⟩ => ?_⟩,
    fun positions wrong => ⟨_, arrayValue_of_length_ne wrong, rfl⟩,
    fun positions nonempty same beyond => arrayValue_of_not_inRange nonempty same beyond,
    reads, bijOn_place sizes, fun p q hp hq => (strictMonoOn_place sizes).lt_iff_lt hp hq,
    fun nonempty i below => ?_⟩
  · have shape : ¬ (sizes = [] ∨ positions.length ≠ sizes.length) := fun wrong => by
      rw [arrayValue_of_length_ne wrong] at read
      cases read
    obtain ⟨nonempty, same⟩ := not_or.mp shape
    refine ⟨nonempty, by_contra fun beyond => ?_⟩
    obtain ⟨error, refused, _⟩ :=
      arrayValue_of_not_inRange nonempty (not_not.mp same) beyond
    rw [refused] at read
    cases read
  · obtain ⟨_, x, _, read⟩ := reads positions nonempty within
    exact ⟨x, read⟩
  · obtain ⟨positions, within, rfl⟩ := exists_place_eq (full ▸ below)
    refine ⟨positions, ⟨within, (reads positions nonempty within).1⟩, fun other ⟨within', same⟩ => ?_⟩
    rw [(reads other nonempty within').1, Except.ok.injEq] at same
    exact (bijOn_place sizes).injOn within' within same

theorem arrayValue_characterised_two_by_three :
    [2, 3].prod < Size.limit ∧
    [0.0, 1.0, 2.0, 10.0, 11.0, (12.0 : Float)].length = [2, 3].prod ∧
    (∃ x, arrayValue [0.0, 1.0, 2.0, 10.0, 11.0, 12.0] [2, 3] [1, 2] = .ok x) ∧
    ∃! positions, InRange [2, 3] positions ∧ arrayIndex 0 0 [2, 3] positions = .ok 5 := by
  have small : [2, 3].prod < Size.limit := by decide
  obtain ⟨succeeds, _, _, _, _, _, one⟩ := arrayValue_characterised
    [0.0, 1.0, 2.0, 10.0, 11.0, 12.0] [2, 3] small rfl
  exact ⟨small, rfl, (succeeds [1, 2]).mpr ⟨by simp, by simp⟩,
    one (by simp) 5 (by simp)⟩

end XmlStore
