import InductiveTerms.Index
import InductiveTerms.Term.Sharing

/-!
Moving and substituting local variables. The forms with a question mark return `none` when there is
nothing to change, those that end in `M` run wherever labels for new bundles come from, and the
plain ones ignore sharing.
-/
namespace InductiveTerms.Term
variable {m : Type → Type} [Monad m]

/-- Moves the variables whose index is at least `limit`, counted outside the binders crossed. -/
def shifter (limit : Nat) (delta : Int) : Visitor m := .ofReply fun
  | .var x i, d => pure (if Index.add limit d ≤ i then some (.var x (Index.move i delta)) else none)
  | _, _ => pure none

variable [BundleLabels m]

/-- The term with moved variables, or `none` if none of them moves. -/
def shift? (t : Term) (limit : Nat) (delta : Int) : m (Option Term) :=
  if delta = 0 then pure none else t.rewrite? (shifter limit delta)

def shiftM (t : Term) (limit : Nat) (delta : Int) : m Term := do
  return (← t.shift? limit delta).getD t

/-- Adds `delta` to every index that is at least `limit`; the limit grows with every binder. -/
def shift (t : Term) (limit : Nat) (delta : Int) : Term := Id.run (t.shiftM limit delta)

/-- Puts `subs[k]` for variable `start + k` and closes the gap; what is put in is moved past the
binders around it. -/
def substituter (start : Nat) (subs : List Term) : Visitor m := .ofReply fun
  | .var x i, d => do
      let first := Index.add start d
      if i < first then
        pure none
      else
        match subs[i - first]? with
        | some s => return some (← s.shiftM 0 d)
        | none => pure (some (.var x (i - subs.length)))
  | _, _ => pure none

/-- The term after substitution, or `none` if none of its variables is concerned. -/
def subst? (t : Term) (start : Nat) (subs : List Term) : m (Option Term) :=
  if subs.isEmpty then pure none else t.rewrite? (substituter start subs)

def substM (t : Term) (start : Nat) (subs : List Term) : m Term := do
  return (← t.subst? start subs).getD t

/-- Replaces the variables from `start` on by the terms given, and lowers the ones after them. -/
def subst (t : Term) (start : Nat) (subs : List Term) : Term := Id.run (t.substM start subs)

end InductiveTerms.Term
