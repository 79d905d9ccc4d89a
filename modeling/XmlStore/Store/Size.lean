/-
Sizes and indices are kept in 64 bits: one that does not fit starts over from
zero. A report names an index with one bit less, and names the greatest such
index in place of any beyond.
-/
namespace XmlStore

namespace Size

/-- One more than the greatest size that is kept. -/
def limit : Nat := 0x10000000000000000

/-- A size as it is kept. -/
def wrap (n : Nat) : Nat := n % limit

/-- The greatest index that a report names. -/
def reportLimit : Nat := 0x7FFFFFFFFFFFFFFF

/-- An index as a report names it. -/
def reported (index : Nat) : Nat := min index reportLimit

theorem wrap_of_lt {n : Nat} (h : n < limit) : wrap n = n := Nat.mod_eq_of_lt h

theorem reported_of_le {index : Nat} (h : index ≤ reportLimit) : reported index = index :=
  Nat.min_eq_left h

end Size

end XmlStore
