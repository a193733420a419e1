import InductiveTerms.Term.Basic

/-!
Equality of terms up to display. The names of locals, binders, let variables and bundle functions
and the labels of bundles are for display and sharing; everything else counts.
-/
namespace InductiveTerms

mutual
/-- Whether two terms differ in nothing but names and labels. -/
def Term.same : Term → Term → Bool
  | .var _ i, .var _ j => i == j
  | .global x, .global y => x == y
  | .univ u, .univ v => u == v
  | .product ps r, .product qs s => sameParams ps qs && r.same s
  | .lambda ps b, .lambda qs c => sameParams ps qs && b.same c
  | .letIn _ v t b, .letIn _ w u c => v.same w && t.same u && b.same c
  | .apply f ⟨a, as⟩, .apply g ⟨b, bs⟩ => f.same g && a.same b && sameTerms as bs
  | .cast t k ty, .cast u l uy => k == l && t.same u && ty.same uy
  | .caseOf p s bs, .caseOf q t cs => s.same t && p.same q && sameBranches bs cs
  | .fix i ⟨_, fs⟩, .fix j ⟨_, gs⟩ => i == j && sameFunctions fs gs
  | _, _ => false
termination_by structural t => t

def sameParams : List (Param Term) → List (Param Term) → Bool
  | [], [] => true
  | ⟨_, t⟩ :: ps, ⟨_, u⟩ :: qs => t.same u && sameParams ps qs
  | _, _ => false
termination_by structural ps => ps

def sameTerms : List Term → List Term → Bool
  | [], [] => true
  | t :: ts, u :: us => t.same u && sameTerms ts us
  | _, _ => false
termination_by structural ts => ts

def sameBranches : List (Branch Term) → List (Branch Term) → Bool
  | [], [] => true
  | ⟨x, n, t⟩ :: bs, ⟨y, k, u⟩ :: cs => x == y && n == k && t.same u && sameBranches bs cs
  | _, _ => false
termination_by structural bs => bs

def sameFunctions : List (FixFunction Term) → List (FixFunction Term) → Bool
  | [], [] => true
  | ⟨_, ps, r, b⟩ :: fs, ⟨_, qs, s, c⟩ :: gs =>
      sameParams ps qs && r.same s && b.same c && sameFunctions fs gs
  | _, _ => false
termination_by structural fs => fs
end

instance : BEq Term := ⟨Term.same⟩

/-- Bundles agree when their functions do, one by one. -/
def Bundle.same (b c : Bundle Term) : Bool := sameFunctions b.functions c.functions

instance : BEq (Bundle Term) := ⟨Bundle.same⟩

end InductiveTerms
