import InductiveTerms.Term.Shift

/-!
Terms where they stand in memory. An operation that has nothing to change hands back the node it was
given, and a substitution that puts a term for the whole of another hands back the node put; any
other result is a new node.
-/
namespace InductiveTerms

/-- A term and the address of its outermost node. -/
structure Node where
  address : Nat
  term : Term

namespace Node
variable {m : Type → Type} [Monad m]

/-- Whether two nodes are one, not only equal as terms. -/
def Same (a b : Node) : Prop := a.address = b.address

instance (a b : Node) : Decidable (a.Same b) := inferInstanceAs (Decidable (_ = _))

/-- What a rewriting makes of a node, with the address that a new node gets. -/
def rewritten (n : Node) (fresh : Nat) : Option Term → Node
  | none => n
  | some t => ⟨fresh, t⟩

/-- The node that a substitution puts for the whole term, which stands under no binders. -/
def substitute? (n : Node) (start : Nat) (subs : List Node) : Option Node :=
  match n.term with
  | .var _ i =>
      let first := Index.add start 0
      if i < first then none else subs[i - first]?
  | _ => none

variable [BundleLabels m]

def shiftM (n : Node) (limit : Nat) (delta : Int) (fresh : Nat) : m Node := do
  return n.rewritten fresh (← n.term.shift? limit delta)

/-- Moves variables; the node stays where it is if none of them moves. -/
def shift (n : Node) (limit : Nat) (delta : Int) (fresh : Nat) : Node :=
  Id.run (n.shiftM limit delta fresh)

def substM (n : Node) (start : Nat) (subs : List Node) (fresh : Nat) : m Node := do
  match n.substitute? start subs with
  | some s => s.shiftM 0 0 fresh
  | none => return n.rewritten fresh (← n.term.subst? start (subs.map (·.term)))

/-- Puts other nodes for variables; outside all binders a node that is put is not moved. -/
def subst (n : Node) (start : Nat) (subs : List Node) (fresh : Nat) : Node :=
  Id.run (n.substM start subs fresh)

end Node
end InductiveTerms
