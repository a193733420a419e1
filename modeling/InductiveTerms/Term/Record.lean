import InductiveTerms.Term.Sharing

/-!
What a traversal does, as a list of events. A visitor that is recorded does what it did before, and
every binder entered or left and every node offered to it is noted with its answer.
-/
namespace InductiveTerms

inductive TraversalEvent where
  | entered (binder : Binder)
  | left
  /-- A node with rewritten children, its depth, and what the visitor puts in its place. -/
  | offered (node : Term) (depth : Nat) (replacement : Option Term)

namespace Visitor
variable {m : Type → Type} [Monad m]

/-- Replaces the nodes it is told to, wherever they are. -/
def replacing (depthOnly : Bool) (replace : Term → Option Term) : Visitor m :=
  { ofReply fun t _ => pure (replace t) with depthOnly := depthOnly }

/-- The same visitor, with its events, the latest first. -/
def recorded (v : Visitor m) : Visitor (StateT (List TraversalEvent) m) where
  enter b := do
    StateT.lift (v.enter b)
    modify (.entered b :: ·)
  leave := do
    StateT.lift v.leave
    modify (.left :: ·)
  reply t d := do
    let t' ← StateT.lift (v.reply t d)
    modify (.offered t d t' :: ·)
    return t'
  depthOnly := v.depthOnly

end Visitor

/-- The rewritten term, or `none` if nothing changed, and the events in order. -/
def Term.recordM {m : Type → Type} [Monad m] [BundleLabels m] (v : Visitor m) (t : Term) :
    m (Option Term × List TraversalEvent) := do
  let (t', events) ← (t.rewrite? v.recorded).run []
  return (t', events.reverse)

end InductiveTerms
