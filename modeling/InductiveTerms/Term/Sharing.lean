import InductiveTerms.Log
import InductiveTerms.Term.Traversal

/-!
Which selections share one bundle. A monad with `BundleLabels` says whether sharing is tracked and
where the label of a new bundle comes from. Where it is tracked, one traversal rewrites a bundle
once for each depth at which it is met, so that selections from one bundle go on sharing it.
`Term.rewrite?` is the traversal every operation on terms goes through.
-/
namespace InductiveTerms

/-- Whether the sharing of bundles is tracked, and the label of the next new bundle. -/
class BundleLabels (m : Type → Type) where
  tracked : Bool
  fresh : m (Option Nat)

/-- Hands out labels in increasing order; the state is the next one. -/
def Labelling (α : Type) : Type := StateM Nat α

namespace Labelling

instance : Monad Labelling := inferInstanceAs (Monad (StateM Nat))

instance : LawfulMonad Labelling := inferInstanceAs (LawfulMonad (StateM Nat))

def fresh : Labelling Nat := (fun n => (n, n + 1) : StateM Nat Nat)

/-- Runs an action that may use the labels from `first` on. -/
def run {α : Type} (x : Labelling α) (first : Nat) : α := (StateT.run x first : Id (α × Nat)).1

end Labelling

namespace BundleLabels

instance : BundleLabels Id where
  tracked := false
  fresh := pure none

instance {ε : Type} : BundleLabels (Except ε) where
  tracked := false
  fresh := pure none

instance : BundleLabels Labelling where
  tracked := true
  fresh := some <$> Labelling.fresh

instance {m : Type → Type} {σ : Type} [Monad m] [BundleLabels m] : BundleLabels (StateT σ m) where
  tracked := tracked m
  fresh := StateT.lift fresh

instance {m : Type → Type} [Monad m] [BundleLabels m] : BundleLabels (Logging m) where
  tracked := tracked m
  fresh := (StateT.lift fresh : StateT (List LogRecord) m (Option Nat))

end BundleLabels

namespace Traversal
variable {m : Type → Type} [Monad m] [BundleLabels m]

/-- Rewrites a bundle wherever it is met; what changed becomes a bundle of its own. -/
def unshared : BundlePolicy m := fun _ _ rewritten => do
  match ← rewritten with
  | some fs => pure (some ⟨← BundleLabels.fresh, fs⟩)
  | none => pure none

/-- What became of the bundles met so far, by label and depth. -/
abbrev Cache : Type := List ((Nat × Nat) × Option (Bundle Term))

/-- Rewrites a bundle once for each depth. -/
def memoized : BundlePolicy (StateT Cache m) := fun b d rewritten => do
  match b.label with
  | none => unshared b d rewritten
  | some l =>
      match (← get).lookup (l, d) with
      | some known => pure known
      | none =>
          let b' ← unshared b d rewritten
          modify (((l, d), b') :: ·)
          pure b'

end Traversal

namespace Term
variable {m : Type → Type} [Monad m] [BundleLabels m]

/-- The rewritten term, or `none` if the visitor changed nothing. -/
def rewrite? (v : Visitor m) (t : Term) : m (Option Term) :=
  if BundleLabels.tracked m && v.depthOnly then
    (Traversal.visit (Visitor.lift v) Traversal.memoized t 0).run' []
  else
    Traversal.visit v Traversal.unshared t 0

mutual
/-- The label of every selection's bundle, outer selections first and from left to right. -/
def bundleLabels : Term → List (Option Nat)
  | .var .. => []
  | .global _ => []
  | .univ _ => []
  | .product ps r => bundleLabelsOfParams ps ++ r.bundleLabels
  | .lambda ps b => bundleLabelsOfParams ps ++ b.bundleLabels
  | .letIn _ v t b => v.bundleLabels ++ t.bundleLabels ++ b.bundleLabels
  | .apply f ⟨a, as⟩ => f.bundleLabels ++ a.bundleLabels ++ bundleLabelsOfTerms as
  | .cast t _ ty => t.bundleLabels ++ ty.bundleLabels
  | .caseOf p s bs => p.bundleLabels ++ s.bundleLabels ++ bundleLabelsOfBranches bs
  | .fix _ ⟨l, fs⟩ => l :: bundleLabelsOfFunctions fs
termination_by structural t => t

def bundleLabelsOfParams : List (Param Term) → List (Option Nat)
  | [] => []
  | ⟨_, t⟩ :: ps => t.bundleLabels ++ bundleLabelsOfParams ps
termination_by structural ps => ps

def bundleLabelsOfTerms : List Term → List (Option Nat)
  | [] => []
  | t :: ts => t.bundleLabels ++ bundleLabelsOfTerms ts
termination_by structural ts => ts

def bundleLabelsOfBranches : List (Branch Term) → List (Option Nat)
  | [] => []
  | ⟨_, _, t⟩ :: bs => t.bundleLabels ++ bundleLabelsOfBranches bs
termination_by structural bs => bs

def bundleLabelsOfFunctions : List (FixFunction Term) → List (Option Nat)
  | [] => []
  | ⟨_, ps, r, b⟩ :: fs =>
      bundleLabelsOfParams ps ++ r.bundleLabels ++ b.bundleLabels ++ bundleLabelsOfFunctions fs
termination_by structural fs => fs
end

/-- Numbers the items of a list by first appearance, so that equal items have one number. -/
def numberByAppearance {α : Type} [BEq α] (items : List α) : List Nat :=
  let distinct := items.eraseDups
  items.map fun a => distinct.idxOf a

/-- For every selection the number of its bundle. -/
def sharing (t : Term) : List Nat := numberByAppearance t.bundleLabels

end Term
end InductiveTerms
