/-!
What the type checker finds wrong. Terms are kept as text, so that a failure stands for itself.
-/
namespace InductiveTerms

inductive TypeError where
  | unresolvedGlobal (name : String)
  | unresolvedLocal (name : String) (index depth : Nat)
  | notAFunction (fn fnType : String) (supplied accepted : Nat)
  | notInductive (scrutinee scrutineeType : String)
  | fixIndexOutOfRange (index size : Nat)
  deriving DecidableEq, Repr

def TypeError.message : TypeError → String
  | .unresolvedGlobal x => "unresolved global `" ++ x ++ "`"
  | .unresolvedLocal x i n =>
      "local `" ++ x ++ "` with index " ++ i.repr ++ " cannot be resolved in a context of " ++
        n.repr ++ " locals"
  | .notAFunction f t n k =>
      "`" ++ f ++ "` is applied to " ++ n.repr ++ " arguments, but its type `" ++ t ++
        "` only accepts " ++ k.repr
  | .notInductive s t => "match on `" ++ s ++ "`, whose type `" ++ t ++ "` is not an inductive type"
  | .fixIndexOutOfRange i n =>
      "fix index " ++ i.repr ++ " out of range for a bundle of " ++ n.repr ++ " functions"

end InductiveTerms
