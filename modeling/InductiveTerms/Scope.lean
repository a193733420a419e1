import Std.Data.HashMap

/-!
Names and the indices they stand for. A scope keeps for every name the level of its innermost
binder, that is, the number of binders up to and including it. Levels are kept in blocks, each of
them a hash table; a new block takes in the blocks before it as long as these hold no more pushes,
so that the sizes of the blocks double and a lookup looks into few of them.
-/
namespace InductiveTerms

namespace Scope

/-- The levels that a number of successive pushes gave to names. -/
structure Block (κ : Type) [BEq κ] [Hashable κ] where
  levels : Std.HashMap κ Nat
  pushes : Nat

end Scope

/-- Blocks, the latest first, and the number of binders. -/
structure Scope (κ : Type) [BEq κ] [Hashable κ] where
  blocks : List (Scope.Block κ)
  depth : Nat

namespace Scope
variable {κ : Type} [BEq κ] [Hashable κ]

def empty : Scope κ := ⟨[], 0⟩

def isEmpty (s : Scope κ) : Bool := s.depth == 0

/-- Takes in the older blocks that are no larger; the newer binder of a name wins. -/
def absorb (newest : Block κ) : List (Block κ) → List (Block κ)
  | [] => [newest]
  | b :: older =>
      if b.pushes ≤ newest.pushes then
        absorb ⟨b.levels ∪ newest.levels, newest.pushes + b.pushes⟩ older
      else
        newest :: b :: older

/-- Adds an innermost binder. -/
def push (s : Scope κ) (name : κ) : Scope κ :=
  ⟨absorb ⟨(∅ : Std.HashMap κ Nat).insert name (s.depth + 1), 1⟩ s.blocks, s.depth + 1⟩

@[simp] theorem depth_push (s : Scope κ) (name : κ) : (s.push name).depth = s.depth + 1 := rfl

def pushMany (s : Scope κ) (names : List κ) : Scope κ := names.foldl push s

/-- The index of the innermost binder of a name. -/
def indexOf? (s : Scope κ) (name : κ) : Option Nat :=
  (s.blocks.findSome? (·.levels[name]?)).map (s.depth - ·)

/-- Every name with the index it stands for. -/
def flatten (s : Scope κ) : Std.HashMap κ Nat :=
  let levels := s.blocks.foldr (fun b older => older ∪ b.levels) (∅ : Std.HashMap κ Nat)
  levels.map fun _ level => s.depth - level

/-- Every name with the index it stands for, in the order of the names. -/
def listing (s : Scope String) : List (String × Nat) :=
  s.flatten.toList.mergeSort fun a b => decide (a.1 ≤ b.1)

end Scope
end InductiveTerms
