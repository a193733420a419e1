import InductiveTerms.Term.Basic

/-!
Bottom-up rewriting. A `Visitor` is offered every node after the children of that node have been
rewritten, and either replaces it or declines. `visit` returns `none` when nothing was replaced;
only nodes with a changed descendant are built anew.

Binders are entered in one order, and a node is offered with the number of binders around it: a
parameter's type is visited before the parameter is entered, a let variable after its value and
type, the scrutinee before the motive and the motive before the branches, and the functions of a
bundle are all entered before the first of them is visited.

What is done about a bundle that is met more than once is a parameter of the traversal.
-/
namespace InductiveTerms

/-- A variable that comes into scope, with the type it has in the term that is visited. -/
structure Binder where
  name : Option String
  type : Option Term

/-- What is done on the way through a term. -/
structure Visitor (m : Type → Type) where
  enter : Binder → m Unit
  leave : m Unit
  /-- Replaces a node with rewritten children, or declines; told the number of binders around it. -/
  reply : Term → Nat → m (Option Term)
  /-- Whether the replies depend on the node and its depth alone, not on the binders entered. -/
  depthOnly : Bool

/-- How the functions of a bundle, met at a depth, are rewritten by the action given. -/
abbrev BundlePolicy (m : Type → Type) : Type :=
  Bundle Term → Nat → m (Option (List (FixFunction Term))) → m (Option (Bundle Term))

namespace Visitor
variable {m : Type → Type}

/-- Has no use for binders. -/
def ofReply [Monad m] (reply : Term → Nat → m (Option Term)) : Visitor m where
  enter _ := pure ()
  leave := pure ()
  reply := reply
  depthOnly := true

/-- Declines everything. -/
def idle [Monad m] : Visitor m := ofReply fun _ _ => pure none

/-- The same visitor over a state of which it knows nothing. -/
def lift {σ : Type} [Monad m] (v : Visitor m) : Visitor (StateT σ m) where
  enter b := StateT.lift (v.enter b)
  leave := StateT.lift v.leave
  reply t d := StateT.lift (v.reply t d)
  depthOnly := v.depthOnly

end Visitor

namespace Traversal
variable {m : Type → Type} [Monad m]

/-- Repeats an action. -/
def times : Nat → m Unit → m Unit
  | 0, _ => pure ()
  | n + 1, x => do x; times n x

/-- Offers a node; if the visitor declines, the node itself counts as new when a child changed. -/
def offer (v : Visitor m) (t : Term) (d : Nat) (changed : Bool) : m (Option Term) := do
  match ← v.reply t d with
  | some u => pure (some u)
  | none => pure (if changed then some t else none)

/-- A list whose head or tail may have been replaced. -/
def replaceCons {α : Type} (a : α) (as : List α) : Option α → Option (List α) → Option (List α)
  | none, none => none
  | a', as' => some (a'.getD a :: as'.getD as)

/-- A function whose parameters, result or body may have been replaced. -/
def replaceFunction (f : FixFunction Term) :
    Option (List (Param Term)) → Option Term → Option Term → Option (FixFunction Term)
  | none, none, none => none
  | ps, r, b => some ⟨f.name, ps.getD f.params, r.getD f.result, b.getD f.body⟩

/-- Enters the functions of a bundle in order; their types are not given. -/
def enterFunctions (v : Visitor m) : List (FixFunction Term) → m Unit
  | [] => pure ()
  | f :: fs => do v.enter ⟨some f.name, none⟩; enterFunctions v fs

variable (v : Visitor m) (policy : BundlePolicy m)

mutual
/-- Rewrites a term that stands under `d` binders. -/
def visit : Term → Nat → m (Option Term)
  | .var x i, d => offer v (.var x i) d false
  | .global x, d => offer v (.global x) d false
  | .univ u, d => offer v (.univ u) d false
  | .product ps r, d => do
      let ps' ← visitParams ps d
      let r' ← visit r (d + ps.length)
      times ps.length v.leave
      offer v (.product (ps'.getD ps) (r'.getD r)) d (ps'.isSome || r'.isSome)
  | .lambda ps b, d => do
      let ps' ← visitParams ps d
      let b' ← visit b (d + ps.length)
      times ps.length v.leave
      offer v (.lambda (ps'.getD ps) (b'.getD b)) d (ps'.isSome || b'.isSome)
  | .letIn x e t b, d => do
      let e' ← visit e d
      let t' ← visit t d
      v.enter ⟨x, some t⟩
      let b' ← visit b (d + 1)
      v.leave
      offer v (.letIn x (e'.getD e) (t'.getD t) (b'.getD b)) d (e'.isSome || t'.isSome || b'.isSome)
  | .apply f ⟨a, as⟩, d => do
      let f' ← visit f d
      let a' ← visit a d
      let as' ← visitTerms as d
      offer v ((f'.getD f).applyTo (a'.getD a :: as'.getD as)) d
        (f'.isSome || a'.isSome || as'.isSome)
  | .cast t k ty, d => do
      let t' ← visit t d
      let ty' ← visit ty d
      offer v (.cast (t'.getD t) k (ty'.getD ty)) d (t'.isSome || ty'.isSome)
  | .caseOf p s bs, d => do
      let s' ← visit s d
      v.enter ⟨none, none⟩
      let p' ← visit p (d + 1)
      v.leave
      let bs' ← visitBranches bs d
      offer v (.caseOf (p'.getD p) (s'.getD s) (bs'.getD bs)) d
        (s'.isSome || p'.isSome || bs'.isSome)
  | .fix i ⟨label, fs⟩, d => do
      let bundle' ← policy ⟨label, fs⟩ d (do
        enterFunctions v fs
        let fs' ← visitFunctions fs (d + fs.length)
        times fs.length v.leave
        pure fs')
      offer v (.fix i (bundle'.getD ⟨label, fs⟩)) d bundle'.isSome
termination_by structural t => t

/-- Visits the types in order and enters each parameter after its type; nothing is left. -/
def visitParams : List (Param Term) → Nat → m (Option (List (Param Term)))
  | [], _ => pure none
  | ⟨x, t⟩ :: ps, d => do
      let t' ← visit t d
      v.enter ⟨x, some t⟩
      let ps' ← visitParams ps (d + 1)
      pure (replaceCons ⟨x, t⟩ ps (t'.map (⟨x, ·⟩)) ps')
termination_by structural ps => ps

def visitTerms : List Term → Nat → m (Option (List Term))
  | [], _ => pure none
  | t :: ts, d => do
      let t' ← visit t d
      let ts' ← visitTerms ts d
      pure (replaceCons t ts t' ts')
termination_by structural ts => ts

def visitBranches : List (Branch Term) → Nat → m (Option (List (Branch Term)))
  | [], _ => pure none
  | ⟨x, n, t⟩ :: bs, d => do
      times n (v.enter ⟨none, none⟩)
      let t' ← visit t (d + n)
      times n v.leave
      let bs' ← visitBranches bs d
      pure (replaceCons ⟨x, n, t⟩ bs (t'.map (⟨x, n, ·⟩)) bs')
termination_by structural bs => bs

/-- Visits the functions of a bundle under its own binders. -/
def visitFunctions : List (FixFunction Term) → Nat → m (Option (List (FixFunction Term)))
  | [], _ => pure none
  | ⟨x, ps, r, b⟩ :: fs, d => do
      let ps' ← visitParams ps d
      let r' ← visit r (d + ps.length)
      let b' ← visit b (d + ps.length)
      times ps.length v.leave
      let fs' ← visitFunctions fs d
      pure (replaceCons ⟨x, ps, r, b⟩ fs (replaceFunction ⟨x, ps, r, b⟩ ps' r' b') fs')
termination_by structural fs => fs
end

end Traversal
end InductiveTerms
