/-!
Replacing a piece of text. Occurrences are found from left to right and do not overlap; what is put
in is not searched again.
-/
namespace InductiveTerms.Text
variable {α : Type} [BEq α]

def occursIn (piece : List α) : List α → Bool
  | [] => piece.isEmpty
  | c :: cs => piece.isPrefixOf (c :: cs) || occursIn piece cs

/-- Replaces the occurrences of a piece that is not empty, after skipping `n` characters of it. -/
def replaceFrom (piece new : List α) : Nat → List α → List α
  | _, [] => []
  | n + 1, _ :: cs => replaceFrom piece new n cs
  | 0, c :: cs =>
      if piece.isPrefixOf (c :: cs) then
        new ++ replaceFrom piece new (piece.length - 1) cs
      else
        c :: replaceFrom piece new 0 cs

/-- Whether a piece occurs in a text. -/
def contains (s piece : String) : Bool := occursIn piece.toList s.toList

/-- Replaces every occurrence of a piece that is not empty. -/
def replaceAll (s piece new : String) : String :=
  String.ofList (replaceFrom piece.toList new.toList 0 s.toList)

end InductiveTerms.Text
