/-!
# Ranges of code points

A property of characters is kept as a list of closed ranges, in ascending order and apart.
-/

namespace Treewalk.Text

/-- Ranges of code points, each with its first and its last one. -/
abbrev Ranges := List (Nat × Nat)

namespace Ranges

def contains (ranges : Ranges) (c : Char) : Bool :=
  ranges.any fun (first, last) => first ≤ c.toNat && c.toNat ≤ last

/-- No range is empty, and between two ranges at least one code point is left out. -/
def areApart : Ranges → Bool
  | [] => true
  | [(first, last)] => first ≤ last
  | (first, last) :: (next, last') :: rest =>
    first ≤ last && last + 1 < next && areApart ((next, last') :: rest)

/-- How many code points the ranges hold. -/
def size : Ranges → Nat
  | [] => 0
  | (first, last) :: rest => last + 1 - first + size rest

theorem contains_iff (ranges : Ranges) (c : Char) :
    ranges.contains c = true ↔ ∃ range ∈ ranges, range.1 ≤ c.toNat ∧ c.toNat ≤ range.2 := by
  simp [contains]

end Ranges

end Treewalk.Text
