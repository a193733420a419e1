import InductiveTerms.Term.Sharing

/-!
The variables of a term that nothing inside it binds.
-/
namespace InductiveTerms

/-- Inserts into a strictly increasing list. -/
def insertIncreasing (n : Nat) : List Nat → List Nat
  | [] => [n]
  | k :: ks => if n < k then n :: k :: ks else if n = k then k :: ks else k :: insertIncreasing n ks

namespace Term

variable {m : Type → Type} [Monad m]

/-- Notes each variable that is not bound inside the term, as seen from outside it. -/
def referenceCollector : Visitor (StateT (List Nat) m) := .ofReply fun
  | .var _ i, d => do
      if d ≤ i then modify (insertIncreasing (i - d))
      pure none
  | _, _ => pure none

def externalReferencesM [BundleLabels m] (t : Term) : m (List Nat) := do
  return (← (t.rewrite? referenceCollector).run []).2

/-- Indices of the variables not bound inside the term, in increasing order. -/
def externalReferences (t : Term) : List Nat := Id.run t.externalReferencesM

end Term
end InductiveTerms
