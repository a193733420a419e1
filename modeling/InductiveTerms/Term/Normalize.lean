import InductiveTerms.Term.Sharing

/-!
Flattening. A product of a product, a function of a function and an application of an application
become one node; the order of parameters and arguments is kept. Children come first, so one level
is merged at a time.
-/
namespace InductiveTerms.Term
variable {m : Type → Type} [Monad m]

/-- Merges the outermost node with the one directly inside it, if they are of one kind. -/
def flatten? : Term → Option Term
  | .product ps (.product qs r) => some (.product (ps ++ qs) r)
  | .lambda ps (.lambda qs b) => some (.lambda (ps ++ qs) b)
  | .apply (.apply f as) bs => some (.apply f (as ++ bs))
  | _ => none

def normalizer : Visitor m := .ofReply fun t _ => pure t.flatten?

variable [BundleLabels m]

def normalize? (t : Term) : m (Option Term) := t.rewrite? normalizer

def normalizeM (t : Term) : m Term := do
  return (← t.normalize?).getD t

/-- The term with every chain of nodes of one kind merged into one node. -/
def normalize (t : Term) : Term := Id.run t.normalizeM

end InductiveTerms.Term
