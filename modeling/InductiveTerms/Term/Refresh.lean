import InductiveTerms.Term.Sharing

/-!
Display names. `refreshNames` gives every bound variable the name of its binder, so that a printed
term reads as its binders say. What a variable becomes depends on the binders around it, so nothing
is shared between two visits of one bundle.
-/
namespace InductiveTerms.Term
variable {m : Type → Type} [Monad m]

/-- Keeps the names of the binders around the node, the innermost first. -/
def nameRefresher : Visitor (StateT (List (Option String)) m) where
  enter b := modify (b.name :: ·)
  leave := modify List.tail
  reply
    | .var x i, _ => do
        match (← get)[i]? with
        | some (some y) => pure (if y = x then none else some (.var y i))
        | _ => pure none
    | _, _ => pure none
  depthOnly := false

variable [BundleLabels m]

def refreshNames? (t : Term) : m (Option Term) := (t.rewrite? nameRefresher).run' []

def refreshNamesM (t : Term) : m Term := do
  return (← t.refreshNames?).getD t

/-- The term with every bound variable called as its binder is. -/
def refreshNames (t : Term) : Term := Id.run t.refreshNamesM

end InductiveTerms.Term
