import InductiveTerms.Log
import InductiveTerms.Term.Equality
import InductiveTerms.Term.Printer
import InductiveTerms.Typing.Context

/-!
The type of a term. All universes have type `Type`, and an argument's type is not compared with the
type of the parameter it is passed for. A failure is logged once, with the subterm whose own rule
fails.
-/
namespace InductiveTerms
variable {m : Type → Type} [Monad m]

/-- The result type of a function of type `fnType` applied to the arguments, or the number of
arguments that it accepts if these are too many. -/
def resultTypeM [BundleLabels m] (fnType : Term) (args : List Term) : m (Except Nat Term) := do
  let (params, result) := fnType.unfoldProducts
  if params.length < args.length then
    return .error params.length
  else
    return .ok (← (Term.productOver (params.drop args.length) result).substM 0 args.reverse)

variable [LogSink m]

/-- Logs a failure at the subterm that it belongs to and fails with it. -/
def failAt {α : Type} (t : Term) (e : TypeError) : ExceptT TypeError m α := do
  (logTrace ("check failed for " ++ t.render ++ ": " ++ e.message) : m Unit)
  throw e

/-- The common type if all types agree, and `Type` otherwise. -/
def commonSort : List Term → Term
  | [] => .univ .type
  | s :: ss => if ss.all (· == s) then s else .univ .type

/-- Whether a type may be the type of a scrutinee. What is not known to be a type of another kind
may be one. -/
def Context.mayBeInductive (ctx : Context) (type : Term) : Bool :=
  match type.unfoldApps.1 with
  | .univ _ => false
  | .product .. => false
  | .lambda .. => false
  | .global x => (ctx.isInductive? x).getD true
  | _ => true

variable [BundleLabels m]

mutual
def Term.checkM : Term → Context → ExceptT TypeError m Term
  | .var x i, ctx => do
      match ← (ctx.localTypeM i : m (Except IndexError Term)) with
      | .ok type => return type
      | .error e => failAt (.var x i) (.unresolvedLocal x i e.size)
  | .global x, ctx =>
      match ctx.globalType? x with
      | some type => return type
      | none => failAt (.global x) (.unresolvedGlobal x)
  | .univ _, _ => return .univ .type
  | .product ps r, ctx => do
      let sorts ← checkParamsM ps ctx
      let sort ← r.checkM (ctx.pushParams ps)
      return commonSort (sorts ++ [sort])
  | .lambda ps b, ctx => do
      let _ ← checkParamsM ps ctx
      return Term.productOver ps (← b.checkM (ctx.pushParams ps))
  | .letIn x v t b, ctx => do
      let valueType ← v.checkM ctx
      let _ ← t.checkM ctx
      let bodyType ← b.checkM (ctx.push x valueType)
      (bodyType.substM 0 [v] : m Term)
  | .apply f ⟨a, as⟩, ctx => do
      let fnType ← f.checkM ctx
      let _ ← a.checkM ctx
      checkArgsM as ctx
      match ← (resultTypeM fnType (a :: as) : m (Except Nat Term)) with
      | .ok type => return type
      | .error accepted =>
          failAt (.apply f ⟨a, as⟩) (.notAFunction f.render fnType.render (as.length + 1) accepted)
  | .cast t _ _, ctx => t.checkM ctx
  | .caseOf p s bs, ctx => do
      let type ← s.checkM ctx
      if ctx.mayBeInductive type then
        (p.substM 0 [type] : m Term)
      else
        failAt (.caseOf p s bs) (.notInductive s.render type.render)
  | .fix i ⟨l, fs⟩, _ =>
      match fs[i]? with
      | some f => return Term.productOver f.params f.result
      | none => failAt (.fix i ⟨l, fs⟩) (.fixIndexOutOfRange i fs.length)
termination_by structural t => t

/-- The types of the parameter types, each checked under the parameters before it. -/
def checkParamsM : List (Param Term) → Context → ExceptT TypeError m (List Term)
  | [], _ => return []
  | ⟨x, t⟩ :: ps, ctx => do
      let sort ← t.checkM ctx
      return sort :: (← checkParamsM ps (ctx.push x t))
termination_by structural ps => ps

def checkArgsM : List Term → Context → ExceptT TypeError m Unit
  | [], _ => return ()
  | t :: ts, ctx => do
      let _ ← t.checkM ctx
      checkArgsM ts ctx
termination_by structural ts => ts
end

/-- The type of a term in a context. -/
def Term.check (t : Term) (ctx : Context) : Except TypeError Term := Id.run (t.checkM ctx).run

end InductiveTerms
