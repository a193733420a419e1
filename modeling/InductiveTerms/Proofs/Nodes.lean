import Mathlib.Data.List.Basic
import InductiveTerms.Proofs.Children

/-!
The nodes of a term: the term itself and all the nodes below it, each with the number of binders
around it, outer nodes first and in the order in which `children` lists what is right below a node.
-/
namespace InductiveTerms.Term

mutual
/-- A term and the nodes below it. -/
def nodes : Term → Nat → List (Term × Nat)
  | .var x i, d => [(.var x i, d)]
  | .global x, d => [(.global x, d)]
  | .univ u, d => [(.univ u, d)]
  | .product ps r, d => (.product ps r, d) :: (nodesOfParams ps d ++ nodes r (d + ps.length))
  | .lambda ps b, d => (.lambda ps b, d) :: (nodesOfParams ps d ++ nodes b (d + ps.length))
  | .letIn x v t b, d => (.letIn x v t b, d) :: (nodes v d ++ (nodes t d ++ nodes b (d + 1)))
  | .apply f ⟨a, as⟩, d =>
      (.apply f ⟨a, as⟩, d) :: (nodes f d ++ (nodes a d ++ nodesOfTerms as d))
  | .cast t k ty, d => (.cast t k ty, d) :: (nodes t d ++ nodes ty d)
  | .caseOf p s bs, d =>
      (.caseOf p s bs, d) :: (nodes p (d + 1) ++ (nodes s d ++ nodesOfBranches bs d))
  | .fix i ⟨l, fs⟩, d => (.fix i ⟨l, fs⟩, d) :: nodesOfFunctions fs (d + fs.length)
termination_by structural t => t

def nodesOfParams : List (Param Term) → Nat → List (Term × Nat)
  | [], _ => []
  | ⟨_, t⟩ :: ps, d => nodes t d ++ nodesOfParams ps (d + 1)
termination_by structural ps => ps

def nodesOfTerms : List Term → Nat → List (Term × Nat)
  | [], _ => []
  | t :: ts, d => nodes t d ++ nodesOfTerms ts d
termination_by structural ts => ts

def nodesOfBranches : List (Branch Term) → Nat → List (Term × Nat)
  | [], _ => []
  | ⟨_, n, t⟩ :: bs, d => nodes t (d + n) ++ nodesOfBranches bs d
termination_by structural bs => bs

def nodesOfFunctions : List (FixFunction Term) → Nat → List (Term × Nat)
  | [], _ => []
  | ⟨_, ps, r, b⟩ :: fs, d =>
      (nodesOfParams ps d ++ (nodes r (d + ps.length) ++ nodes b (d + ps.length))) ++
        nodesOfFunctions fs d
termination_by structural fs => fs
end

theorem nodesOfParams_eq (ps : List (Param Term)) (d : Nat) :
    nodesOfParams ps d = (paramTypes ps d).flatMap fun c => nodes c.1 c.2 := by
  induction ps generalizing d with
  | nil => rfl
  | cons p ps ih => simp only [nodesOfParams, paramTypes, List.flatMap_cons, ih]

theorem nodesOfTerms_eq (ts : List Term) (d : Nat) :
    nodesOfTerms ts d = ts.flatMap (nodes · d) := by
  induction ts with
  | nil => rfl
  | cons t ts ih => simp only [nodesOfTerms, List.flatMap_cons, ih]

theorem nodesOfBranches_eq (bs : List (Branch Term)) (d : Nat) :
    nodesOfBranches bs d = bs.flatMap fun b => nodes b.body (d + b.arity) := by
  induction bs with
  | nil => rfl
  | cons b bs ih => simp only [nodesOfBranches, List.flatMap_cons, ih]

theorem nodesOfFunctions_eq (fs : List (FixFunction Term)) (d : Nat) :
    nodesOfFunctions fs d = fs.flatMap fun f =>
      (paramTypes f.params d ++ [(f.result, d + f.arity), (f.body, d + f.arity)]).flatMap
        fun c => nodes c.1 c.2 := by
  induction fs with
  | nil => rfl
  | cons f fs ih =>
    simp only [nodesOfFunctions, List.flatMap_cons, ih, nodesOfParams_eq, List.flatMap_append,
      List.flatMap_nil, List.append_nil, FixFunction.arity]

/-- The nodes of a term are the term and the nodes of its children. -/
theorem nodes_eq (t : Term) (d : Nat) :
    t.nodes d = (t, d) :: (t.children d).flatMap fun c => c.1.nodes c.2 := by
  cases t <;>
    simp [nodes, children, nodesOfParams_eq, nodesOfTerms_eq, nodesOfBranches_eq,
      nodesOfFunctions_eq, List.flatMap_map, Bundle.size, List.flatMap_assoc, Arguments.toList]

theorem nodes_add (n : Nat) (t : Term) :
    ∀ d, t.nodes (d + n) = (t.nodes d).map fun u => (u.1, u.2 + n) := by
  induction t using induct_children with
  | node t ih =>
    intro d
    rw [nodes_eq, nodes_eq, List.map_cons, children_add, List.flatMap_map, List.map_flatMap]
    exact congrArg _ (List.flatMap_congr fun c hc => ih d c hc c.2)

/-- Whether something holds of a term and of every node below it. -/
def All (P : Term → Prop) (t : Term) : Prop := ∀ u ∈ t.nodes 0, P u.1

instance (P : Term → Prop) [DecidablePred P] (t : Term) : Decidable (t.All P) :=
  inferInstanceAs (Decidable (∀ u ∈ t.nodes 0, P u.1))

theorem all_iff_nodes {P : Term → Prop} {t : Term} (d : Nat) :
    t.All P ↔ ∀ u ∈ t.nodes d, P u.1 := by
  have h := nodes_add d t 0
  rw [Nat.zero_add] at h
  rw [h, List.forall_mem_map]
  rfl

theorem all_iff_children {P : Term → Prop} {t : Term} (d : Nat) :
    t.All P ↔ P t ∧ ∀ c ∈ t.children d, c.1.All P := by
  rw [all_iff_nodes d, nodes_eq, List.forall_mem_cons]
  refine and_congr_right fun _ => ?_
  simp only [List.mem_flatMap, forall_exists_index, and_imp]
  constructor
  · intro h c hc
    exact (all_iff_nodes c.2).2 fun u hu => h u c hc hu
  · intro h u c hc hu
    exact (all_iff_nodes c.2).1 (h c hc) u hu

end InductiveTerms.Term
