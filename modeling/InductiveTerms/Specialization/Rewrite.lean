import InductiveTerms.Specialization.Closure
import InductiveTerms.Term.Reduction

/-!
Specializing the functions of a bundle. Parameters for which there is a constant are dropped, and
the constants take their places. A reference to a function of the bundle becomes an abstraction over
all its old parameters that calls the new function on the parameters that stay; every application
of an abstraction is then reduced, so that a call with all arguments is a call of the new function.
-/
namespace InductiveTerms

inductive SpecializeError where
  /-- The patterns do not describe the bundle. -/
  | patternMismatch
  /-- There is no constant for a slot that is needed. -/
  | missingConstant (slot : Nat)
  /-- A reduction did not end within the steps allowed. -/
  | outOfSteps
  deriving DecidableEq, Repr

namespace Specialization

/-- What it takes to rewrite a term under the binders of an enclosing context, of the bundle and of
the first parameters of one of its functions, which are the ones that `pattern` tells about. -/
structure Plan where
  pattern : Pattern
  bundleSize : Nat
  /-- By slot, seen from the enclosing context. -/
  constants : List Term
  /-- By function, seen from the new bundle. -/
  replacements : List Term
  /-- The number of steps that one reduction may take. -/
  steps : Nat

/-- What a variable that stands under `d` binders becomes. -/
def Plan.replaceVar (plan : Plan) (x : String) (i d : Nat) : Except SpecializeError (Option Term) :=
  let k := plan.pattern.length
  let kept := plan.pattern.kept
  let renumbered (j : Nat) : Option Term := if j = i then none else some (.var x j)
  if i < d then
    .ok none
  else if i - d < k then
    let position := k - 1 - (i - d)
    match plan.pattern[position]? with
    | some (some slot) =>
        match plan.constants[slot]? with
        | some c => .ok (some (c.shift 0 (d + kept + plan.bundleSize : Nat)))
        | none => .error (.missingConstant slot)
    | _ => .ok (renumbered (d + Pattern.kept (plan.pattern.drop (position + 1))))
  else if i - d < k + plan.bundleSize then
    match plan.replacements[plan.bundleSize - 1 - (i - d - k)]? with
    | some r => .ok (some (r.shift 0 (d + kept : Nat)))
    | none => .error .patternMismatch
  else
    .ok (renumbered (i - (k - kept)))

def Plan.visitor (plan : Plan) : Visitor (Except SpecializeError) := .ofReply fun
  | .var x i, d => plan.replaceVar x i d
  | .apply (.lambda ps b) as, _ =>
      match (Term.apply (.lambda ps b) as).reduceHead plan.steps with
      | some t => .ok (some t)
      | none => .error .outOfSteps
  | _, _ => .ok none

def Plan.rewrite (plan : Plan) (t : Term) : Except SpecializeError Term := do
  return (← t.rewrite? plan.visitor).getD t

/-- References to the parameters that stay, seen from under all parameters. -/
def keptArguments : List (Param Term) → Pattern → List Term
  | ⟨x, _⟩ :: ps, none :: p => .var (x.getD "_") ps.length :: keptArguments ps p
  | _ :: ps, some _ :: p => keptArguments ps p
  | _, _ => []

/-- Stands in for function `g` of a bundle of `n`, whose new name is `name`. -/
def replacement (n g : Nat) (f : FixFunction Term) (p : Pattern) (name : String) : Term :=
  Term.lambdaOver f.params
    ((Term.var name (f.arity + n - 1 - g)).applyTo (keptArguments f.params p))

/-- The replacements of all functions, the first of which is function `g`. -/
def replacements (n : Nat) (namer : Nat → String) :
    Nat → List (FixFunction Term) → SpecInfo → List Term
  | g, f :: fs, p :: info => replacement n g f p (namer g) :: replacements n namer (g + 1) fs info
  | _, _, _ => []

/-- The parameters that stay. The type of each is rewritten under the parameters before it, the
slots of which are `before`. -/
def rewriteParams (plan : Plan) (before : Pattern) :
    List (Param Term) → Pattern → Except SpecializeError (List (Param Term))
  | ⟨x, t⟩ :: ps, none :: p => do
      let type ← { plan with pattern := before }.rewrite t
      return ⟨x, type⟩ :: (← rewriteParams plan (before ++ [none]) ps p)
  | _ :: ps, some slot :: p => rewriteParams plan (before ++ [some slot]) ps p
  | _, _ => .ok []

def rewriteFunction (plan : Plan) (f : FixFunction Term) (name : String) :
    Except SpecializeError (FixFunction Term) :=
  if f.arity = plan.pattern.length then do
    let params ← rewriteParams plan [] f.params plan.pattern
    let result ← plan.rewrite f.result
    let body ← plan.rewrite f.body
    return ⟨name, params, result, body⟩
  else
    .error .patternMismatch

/-- Rewrites functions, the first of which is function `g`, each with its pattern. -/
def rewriteFunctions (plan : Plan) (namer : Nat → String) :
    Nat → List (FixFunction Term) → SpecInfo → Except SpecializeError (List (FixFunction Term))
  | g, f :: fs, p :: info => do
      let f' ← rewriteFunction { plan with pattern := p } f (namer g)
      return f' :: (← rewriteFunctions plan namer (g + 1) fs info)
  | _, _, _ => .ok []

end Specialization

/-- The bundle rewritten as the patterns say, with constant `slot` given by `constants[slot]` as it
is seen from outside the bundle. Function `i` of the result is called `namer i`, and no reduction
may take more than `steps` steps. -/
def Bundle.specialize (steps : Nat) (b : Bundle Term) (info : SpecInfo) (constants : List Term)
    (namer : Nat → String) : Except SpecializeError (Bundle Term) :=
  if b.size = info.length then do
    let replacements := Specialization.replacements b.size namer 0 b.functions info
    let plan : Specialization.Plan := ⟨[], b.size, constants, replacements, steps⟩
    return ⟨none, ← Specialization.rewriteFunctions plan namer 0 b.functions info⟩
  else
    .error .patternMismatch

end InductiveTerms
