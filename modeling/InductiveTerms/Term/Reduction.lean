import InductiveTerms.Term.Shift

/-!
Beta reduction at the head. A function applied to fewer arguments than it has parameters becomes a
function of the remaining ones; surplus arguments stay. Terms are untyped, so reduction may go on
for ever: a bound on the number of steps is part of the question, and `none` says that it was
reached.
-/
namespace InductiveTerms.Term
variable {m : Type → Type} [Monad m] [BundleLabels m]

def betaM (ps : List (Param Term)) (b : Term) (as : List Term) : m Term := do
  let n := min ps.length as.length
  let inner := lambdaOver (ps.drop n) b
  return (← inner.substM 0 (as.take n).reverse).applyTo (as.drop n)

/-- One step of beta reduction: uses up as many parameters and arguments as there are of both. -/
def beta (ps : List (Param Term)) (b : Term) (as : List Term) : Term := Id.run (betaM ps b as)

/-- Whether a function stands directly under the outermost application. -/
def isHeadRedex : Term → Bool
  | .apply (.lambda ..) _ => true
  | _ => false

/-- Contracts the outermost application as long as its function is a lambda. -/
def reduceHeadM : Nat → Term → m (Option Term)
  | 0, t => pure (if t.isHeadRedex then none else some t)
  | steps + 1, .apply (.lambda ps b) as => do reduceHeadM steps (← betaM ps b as)
  | _ + 1, t => pure (some t)

/-- The term reduced at the head, if that takes no more than `steps` steps. -/
def reduceHead (steps : Nat) (t : Term) : Option Term := Id.run (t.reduceHeadM steps)

theorem reduceHead_of_not_isHeadRedex {t : Term} (h : t.isHeadRedex = false) (steps : Nat) :
    t.reduceHead steps = some t := by
  cases steps with
  | zero =>
    simp only [reduceHead, reduceHeadM, h]
    rfl
  | succ steps =>
    match t, h with
    | .var .., _ => rfl
    | .global .., _ => rfl
    | .univ .., _ => rfl
    | .product .., _ => rfl
    | .lambda .., _ => rfl
    | .letIn .., _ => rfl
    | .cast .., _ => rfl
    | .caseOf .., _ => rfl
    | .fix .., _ => rfl
    | .apply f as, h =>
      cases f with
      | lambda ps b => simp [isHeadRedex] at h
      | _ => rfl

/-- Enough steps for every reduction that is practical. -/
def ampleSteps : Nat := 4611686018427387904

end InductiveTerms.Term
