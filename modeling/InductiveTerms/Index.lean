/-!
Local indices. An index is a natural number up to `maxIndex`, the largest one that fits a machine
word of 64 bits; arithmetic that would leave this range stops at its end.
-/
namespace InductiveTerms.Index

def maxIndex : Nat := 18446744073709551615

/-- Addition that stops at `maxIndex`. -/
def add (i j : Nat) : Nat := min (i + j) maxIndex

/-- Moves an index by a signed distance, stopping at both ends of the range. -/
def move (i : Nat) (delta : Int) : Nat := min (i + delta).toNat maxIndex

theorem add_le (i j : Nat) : add i j ≤ maxIndex := Nat.min_le_right _ _

theorem add_eq {i j : Nat} (h : i + j ≤ maxIndex) : add i j = i + j := Nat.min_eq_left h

theorem move_ofNat {i d : Nat} (h : i + d ≤ maxIndex) : move i d = i + d := by
  simp only [move]
  omega

end InductiveTerms.Index
