import InductiveTerms.Proofs.Correspondence
import InductiveTerms.Typing.Context

/-!
What logs nothing. A traversal with a visitor that logs nothing, run where a log is kept, leaves the
log as it is and gives what it gives where none is kept (`visit_silent`). So it is when variables
are moved (`shiftM_logging`) and when terms are substituted (`substM_logging`).
-/
namespace InductiveTerms
open Term Traversal

/-- A visitor that logs nothing, where a log is kept. -/
def Visitor.silent (reply : Term → Nat → Id (Option Term)) : Visitor (Logging Id) :=
  .ofReply fun t d => pure (Id.run (reply t d))

/-- An action where a log is kept that logs nothing and gives what the other one gives. -/
def silence : Correspondence (Logging Id) Id where
  Holds x y := x = pure (Id.run y)
  pure _ := rfl
  bind hxy hfg := by
    rw [hxy, pure_bind]
    exact hfg _

variable (reply : Term → Nat → Id (Option Term))

/-- A traversal logs nothing where its visitor does not. -/
theorem visit_silent (t : Term) (d : Nat) :
    visit (.silent reply) unshared t d = pure (Id.run (visit (.ofReply reply) unshared t d)) :=
  visit_corresponds (C := silence) (Correspondence.ofVisitors_ofReply fun _ _ => rfl)
    (unshared_corresponds rfl) t fun _ _ _ => rfl

theorem rewrite?_silent (t : Term) :
    t.rewrite? (.silent reply) = pure (Id.run (t.rewrite? (.ofReply reply))) :=
  visit_silent reply t 0

theorem shifter_eq_silent (limit : Nat) (delta : Int) :
    shifter limit delta = .silent (shifter (m := Id) limit delta).reply := by
  rw [shifter, Visitor.silent]
  congr 1
  funext t d
  cases t <;> rfl

/-- Moving variables logs nothing. -/
theorem shiftM_logging (t : Term) (limit : Nat) (delta : Int) :
    (t.shiftM limit delta : Logging Id Term) = pure (t.shift limit delta) := by
  have hverdict : (t.shift? limit delta : Logging Id (Option Term)) =
      pure (Id.run (t.shift? limit delta)) := by
    rw [shift?, shift?]
    split
    · rfl
    · rw [shifter_eq_silent, rewrite?_silent]
      rfl
  rw [shiftM, hverdict, pure_bind]
  rfl

theorem substituter_eq_silent (start : Nat) (subs : List Term) :
    substituter start subs = .silent (substituter (m := Id) start subs).reply := by
  rw [substituter, Visitor.silent]
  congr 1
  funext t d
  cases t with
  | var x i =>
    simp only [substituter, Visitor.ofReply]
    split
    · rfl
    · split
      · rw [shiftM_logging, pure_bind]
        rfl
      · rfl
  | _ => rfl

/-- Substitution logs nothing. -/
theorem substM_logging (t : Term) (start : Nat) (subs : List Term) :
    (t.substM start subs : Logging Id Term) = pure (t.subst start subs) := by
  have hverdict : (t.subst? start subs : Logging Id (Option Term)) =
      pure (Id.run (t.subst? start subs)) := by
    rw [subst?, subst?]
    split
    · rfl
    · rw [substituter_eq_silent, rewrite?_silent]
      rfl
  rw [substM, hverdict, pure_bind]
  rfl

end InductiveTerms
