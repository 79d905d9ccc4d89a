/-
A forest is a list of trees, a tree being a label and the forest of its
children. One recursive type with a first tree and a remainder serves for
both, so that functions and proofs follow its two constructors.
-/
namespace XmlStore

inductive Forest (α : Type) where
  | nil
  /-- A first tree, given by its label and its children, and the trees after it. -/
  | cons (label : α) (children rest : Forest α)
deriving DecidableEq, Repr

namespace Forest

variable {α β γ : Type}

def isEmpty : Forest α → Bool
  | nil => true
  | cons .. => false

/-- The labels of the trees themselves, children left out. -/
def roots : Forest α → List α
  | nil => []
  | cons a _ rest => a :: rest.roots

/-- The number of trees. -/
def length : Forest α → Nat
  | nil => 0
  | cons _ _ rest => rest.length + 1

/-- The number of labels at every depth. -/
def size : Forest α → Nat
  | nil => 0
  | cons _ children rest => children.size + rest.size + 1

/-- All labels, each before those of its children. -/
def preorder : Forest α → List α
  | nil => []
  | cons a children rest => a :: (children.preorder ++ rest.preorder)

/-- All labels with their depth, in the order of `preorder`. -/
def withDepth (depth : Nat) : Forest α → List (Nat × α)
  | nil => []
  | cons a children rest => (depth, a) :: (children.withDepth (depth + 1) ++ rest.withDepth depth)

def map (f : α → β) : Forest α → Forest β
  | nil => nil
  | cons a children rest => cons (f a) (children.map f) (rest.map f)

/-- The trees of one forest, then those of another. -/
def append : Forest α → Forest α → Forest α
  | nil, g => g
  | cons a children rest, g => cons a children (rest.append g)

instance : Append (Forest α) := ⟨append⟩

/-- The forest of one tree. -/
def tree (a : α) (children : Forest α) : Forest α := cons a children nil

/-- Label and children of the tree at an index. -/
def get? : Forest α → Nat → Option (α × Forest α)
  | nil, _ => none
  | cons a children _, 0 => some (a, children)
  | cons _ _ rest, i + 1 => rest.get? i

/-- Label and children of the first tree whose label `p` holds of. -/
def find? (p : α → Bool) : Forest α → Option (α × Forest α)
  | nil => none
  | cons a children rest => if p a then some (a, children) else rest.find? p

theorem length_roots (f : Forest α) : f.roots.length = f.length := by
  induction f with
  | nil => rfl
  | cons a children rest _ ih => simp [roots, length, ih]

theorem length_preorder (f : Forest α) : f.preorder.length = f.size := by
  induction f with
  | nil => rfl
  | cons a children rest ihc ihr => simp [preorder, size, ihc, ihr]

theorem preorder_map (g : α → β) (f : Forest α) : (f.map g).preorder = f.preorder.map g := by
  induction f with
  | nil => rfl
  | cons a children rest ihc ihr => simp [preorder, map, ihc, ihr]

theorem map_map (g : β → γ) (g' : α → β) (f : Forest α) : (f.map g').map g = f.map (g ∘ g') := by
  induction f with
  | nil => rfl
  | cons a children rest ihc ihr => rw [map, map, map, ihc, ihr, Function.comp]

theorem map_congr {g g' : α → β} {f : Forest α} (agree : ∀ a ∈ f.preorder, g a = g' a) : f.map g = f.map g' := by
  induction f with
  | nil => rfl
  | cons a children rest ihc ihr =>
    rw [preorder, List.forall_mem_cons, List.forall_mem_append] at agree
    rw [map, map, agree.1, ihc agree.2.1, ihr agree.2.2]

/-- Labels of the trees themselves are among all labels. -/
theorem roots_subset (f : Forest α) : f.roots ⊆ f.preorder := by
  induction f with
  | nil => exact List.Subset.refl []
  | cons a children rest _ ih =>
    rw [roots, preorder]
    exact List.cons_subset_cons a (List.Subset.trans ih (List.subset_append_right ..))

theorem roots_append (f g : Forest α) : (f ++ g).roots = f.roots ++ g.roots := by
  change (f.append g).roots = _
  induction f with
  | nil => rfl
  | cons a children rest _ ih => simp [append, roots, ih]

theorem append_nil (f : Forest α) : f ++ nil = f := by
  change f.append nil = f
  induction f with
  | nil => rfl
  | cons a children rest _ ih => simp [append, ih]

theorem append_assoc (f g h : Forest α) : f ++ g ++ h = f ++ (g ++ h) := by
  change (f.append g).append h = f.append (g.append h)
  induction f with
  | nil => rfl
  | cons a children rest _ ih => simp [append, ih]

theorem preorder_append (f g : Forest α) : (f ++ g).preorder = f.preorder ++ g.preorder := by
  change (f.append g).preorder = _
  induction f with
  | nil => rfl
  | cons a children rest _ ih => simp [append, preorder, ih]

theorem map_append (h : α → β) (f g : Forest α) : (f ++ g).map h = f.map h ++ g.map h := by
  change (f.append g).map h = _
  induction f with
  | nil => rfl
  | cons a children rest _ ih => exact congrArg (cons (h a) (children.map h)) ih

end Forest

end XmlStore
