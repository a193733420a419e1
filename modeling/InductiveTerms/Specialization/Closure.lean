import InductiveTerms.Log
import InductiveTerms.Term.Printer
import InductiveTerms.Term.References

/-!
Which parameters of the functions of a bundle become constants. A pattern says for every parameter
of a function which constant, given by its slot, replaces it, or that it stays. Starting from one
function and a pattern for it, `closureM` walks through the bodies of the functions that are called
and gives each the pattern that its calls force on it. There is no answer when two calls disagree,
when a function is never called, or when one is used other than in a call with all its arguments.
-/
namespace InductiveTerms

/-- For every parameter of a function the slot of its constant, or `none` if it stays. -/
abbrev Pattern : Type := List (Option Nat)

namespace Pattern

/-- The number of parameters that stay. -/
def kept (p : Pattern) : Nat := p.countP (·.isNone)

def renderSlot : Option Nat → String
  | some slot => "Some(" ++ slot.repr ++ ")"
  | none => "None"

def render (p : Pattern) : String := renderList (p.map renderSlot)

end Pattern

/-- One pattern for every function of a bundle, in the order of the bundle. -/
abbrev SpecInfo : Type := List Pattern

def SpecInfo.render (info : SpecInfo) : String :=
  renderList (info.map fun p => "FunctionSpec \x7b spec_args: " ++ p.render ++ " \x7d")

namespace Closure

/-- What a local variable is known to stand for. -/
inductive Meaning where
  | function (index : Nat)
  | constant (slot : Nat)
  | unknown
  deriving DecidableEq, Repr

def Meaning.slot? : Meaning → Option Nat
  | .constant slot => some slot
  | _ => none

def Meaning.ofSlot : Option Nat → Meaning
  | some slot => .constant slot
  | none => .unknown

structure State where
  /-- For every function the pattern that its calls force on it, if it is called. -/
  patterns : List (Option Pattern)
  /-- Functions that got a pattern and have not been walked through, the latest first. -/
  pending : List Nat
  consistent : Bool

/-- The variables in the body of a function of a bundle of `n`, whose parameters are used as the
pattern says: the last parameter is the innermost, and the last function comes after the
parameters. -/
def startLocals (n : Nat) (p : Pattern) : List Meaning :=
  (p.map Meaning.ofSlot).reverse ++ (List.range n).reverse.map Meaning.function

variable {m : Type → Type} [Monad m] [LogSink m] (fs : List (FixFunction Term))

def functionName (i : Nat) : String := (fs[i]?.map (·.name)).getD ""

def reject (text : String) : StateT State m Unit := do
  logDebug text
  modify fun s => { s with consistent := false }

/-- Notes that a function is called with a pattern. -/
def call (i : Nat) (p : Pattern) : StateT State m Unit := do
  match ((← get).patterns[i]?).join with
  | some q =>
      if q = p then
        return ()
      else
        reject ("conflicting specializations of `" ++ functionName fs i ++ "`: " ++ q.render ++
          " vs " ++ p.render)
  | none =>
      logDebug ("queueing `" ++ functionName fs i ++ "` with " ++ p.render)
      modify fun s => { s with patterns := s.patterns.set i (some p), pending := i :: s.pending }

/-- A function of the bundle, met under the name `x` and applied to `args`. -/
def use (x : String) (i : Nat) (args : List Meaning) : StateT State m Unit := do
  let arity := (fs[i]?.map FixFunction.arity).getD 0
  if arity ≤ args.length then
    call fs i ((args.take arity).map Meaning.slot?)
  else
    reject ("`" ++ x ++ "` is used with " ++ args.length.repr ++ " of its " ++ arity.repr ++
      " arguments")

/-- A nested bundle must not mention a function of the bundle under consideration. -/
def rejectNested (locals : List Meaning) : List Nat → StateT State m Unit
  | [] => return ()
  | r :: rs => do
      match locals[r]? with
      | some (.function i) =>
          reject ("`" ++ functionName fs i ++ "` is referenced from a nested fixpoint")
      | _ => pure ()
      rejectNested locals rs

mutual
/-- Walks through a term whose variables are `locals` and that is applied to `args`, and says what
the term stands for. Types are not walked through. -/
def walk : Term → List Meaning → List Meaning → StateT State m Meaning
  | .var x i, locals, args =>
      match locals[i]? with
      | some (.function f) => do
          use fs x f args
          return .function f
      | some meaning => return meaning
      | none => return .unknown
  | .global _, _, _ => return .unknown
  | .univ _, _, _ => return .unknown
  | .product _ _, _, _ => return .unknown
  | .lambda ps b, locals, _ => do
      let _ ← walk b (List.replicate ps.length .unknown ++ locals) []
      return .unknown
  | .letIn _ v _ b, locals, args => do
      let meaning ← walk v locals []
      walk b (meaning :: locals) args
  | .apply f ⟨a, as⟩, locals, args => do
      let rest ← walkArgs as locals args
      let _ ← walk f locals ((← walk a locals []) :: rest)
      return .unknown
  | .cast t _ _, locals, args => walk t locals args
  | .caseOf _ s bs, locals, args => do
      let _ ← walk s locals []
      walkBranches bs locals args
      return .unknown
  | .fix i b, locals, _ => do
      rejectNested fs locals (Term.fix i b).externalReferences
      return .unknown
termination_by structural t => t

/-- Walks through arguments, the last one first, and puts their meanings before those given. -/
def walkArgs : List Term → List Meaning → List Meaning → StateT State m (List Meaning)
  | [], _, args => return args
  | t :: ts, locals, args => do
      let rest ← walkArgs ts locals args
      return (← walk t locals []) :: rest
termination_by structural ts => ts

def walkBranches : List (Branch Term) → List Meaning → List Meaning → StateT State m Unit
  | [], _, _ => return ()
  | ⟨_, n, t⟩ :: bs, locals, args => do
      let _ ← walk t (List.replicate n .unknown ++ locals) args
      walkBranches bs locals args
termination_by structural bs => bs
end

/-- Walks through the body of a function with the pattern that it has got. -/
def walkFunction (i : Nat) : StateT State m Unit := do
  match fs[i]?, ((← get).patterns[i]?).join with
  | some f, some p => do
      let _ ← walk fs f.body (startLocals fs.length p) []
  | _, _ => return ()

/-- Walks through pending functions, the latest first, until there are none or the calls are found
inconsistent. Every function is pending once, so a bundle of `n` functions takes `n` rounds. -/
def saturate : Nat → StateT State m Unit
  | 0 => return ()
  | rounds + 1 => do
      match (← get).pending with
      | [] => return ()
      | i :: rest =>
          modify fun s => { s with pending := rest }
          walkFunction fs i
          if (← get).consistent then saturate rounds else return ()

/-- What is known once function `seed` has got the pattern `p` and all calls have been followed. -/
def search (seed : Nat) (p : Pattern) : m State := do
  let start : State := ⟨List.replicate fs.length none, [], true⟩
  let walked ← (do call fs seed p; saturate fs fs.length).run start
  return walked.2

/-- The answer that a finished search gives. -/
def conclude (s : State) : m (Option SpecInfo) :=
  if s.consistent then
    match s.patterns.mapM id with
    | some info => do
        logDebug ("specialization closure: " ++ SpecInfo.render info)
        return some info
    | none => do
        logDebug "not every function of the bundle is reached from the seed"
        return none
  else
    return none

end Closure

namespace Bundle
variable {m : Type → Type} [Monad m] [LogSink m]

/-- The patterns that follow from giving function `seed` the pattern `p`, if there are such. -/
def closureM (b : Bundle Term) (seed : Nat) (p : Pattern) : m (Option SpecInfo) :=
  match b.function? seed with
  | none => do
      logDebug ("seed index " ++ seed.repr ++ " out of range for a bundle of " ++ b.size.repr)
      return none
  | some f =>
      if f.arity = p.length then do
        Closure.conclude (← Closure.search b.functions seed p)
      else do
        logDebug ("seed pattern " ++ p.render ++ " does not fit `" ++ f.name ++ "` with " ++
          f.arity.repr ++ " arguments")
        return none

def closure? (b : Bundle Term) (seed : Nat) (p : Pattern) : Option SpecInfo :=
  Id.run (b.closureM seed p)

end Bundle
end InductiveTerms
