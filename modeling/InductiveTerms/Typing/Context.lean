import InductiveTerms.Scope
import InductiveTerms.Stack
import InductiveTerms.Term.Shift
import InductiveTerms.Typing.Error

/-!
Typing contexts: the types of the local variables and what is known about global names. A context
that is extended stays as it was.
-/
namespace InductiveTerms

structure LocalEntry where
  name : Option String
  /-- Relative to the context that the entry was added to. -/
  type : Term

/-- What is known about global names. -/
structure Globals where
  typeOf? : String → Option Term
  /-- Whether a name is an inductive type; `none` where that is not known. -/
  isInductive? : String → Option Bool

namespace Globals

/-- Global names with a type and nothing else. -/
def ofTypes (typeOf? : String → Option Term) : Globals := ⟨typeOf?, fun _ => none⟩

def none : Globals := ofTypes fun _ => Option.none

end Globals

structure Context where
  locals : Stack LocalEntry
  globals : Globals

namespace Context
variable {m : Type → Type} [Monad m] [BundleLabels m]

def ofGlobals (globals : Globals) : Context := ⟨Stack.empty, globals⟩

def empty : Context := ofGlobals Globals.none

def push (ctx : Context) (name : Option String) (type : Term) : Context :=
  ⟨ctx.locals.push ⟨name, type⟩, ctx.globals⟩

/-- Adds parameters in order, so that the last one is index 0. -/
def pushParams (ctx : Context) (ps : List (Param Term)) : Context :=
  ps.foldl (fun c p => c.push p.name p.type) ctx

def size (ctx : Context) : Nat := ctx.locals.size

@[simp] theorem size_push (ctx : Context) (x : Option String) (t : Term) :
    (ctx.push x t).size = ctx.size + 1 := rfl

@[simp] theorem size_pushParams (ctx : Context) (ps : List (Param Term)) :
    (ctx.pushParams ps).size = ctx.size + ps.length := by
  induction ps generalizing ctx with
  | nil => rfl
  | cons p ps ih =>
    change ((ctx.push p.name p.type).pushParams ps).size = _
    rw [ih, size_push, List.length_cons]
    omega

/-- The names of the locals, with the indices they stand for. -/
def scope (ctx : Context) : Scope (Option String) :=
  Scope.empty.pushMany (ctx.locals.toList.reverse.map (·.name))

/-- The index of the innermost local of a name. -/
def indexOf? (ctx : Context) (name : String) : Option Nat := ctx.scope.indexOf? (some name)

/-- A reference to the innermost local of a name. -/
def localNamed? (ctx : Context) (name : String) : Option Term :=
  (ctx.indexOf? name).map (.var name ·)

def globalType? (ctx : Context) (name : String) : Option Term := ctx.globals.typeOf? name

def isInductive? (ctx : Context) (name : String) : Option Bool := ctx.globals.isInductive? name

def localTypeM (ctx : Context) (i : Nat) : m (Except IndexError Term) :=
  match ctx.locals.get i with
  | .ok entry => return .ok (← entry.type.shiftM 0 (i + 1))
  | .error e => return .error e

/-- The type of a local variable, as seen from this context. -/
def localType (ctx : Context) (i : Nat) : Except IndexError Term := Id.run (ctx.localTypeM i)

end Context

/-- The failure to find a local variable as a type error; the variable's name is not known. -/
def TypeError.ofIndexError (e : IndexError) : TypeError := .unresolvedLocal "" e.index e.size

/-- The type of a function as it reads outside its bundle. -/
def Bundle.signature? (b : Bundle Term) (i : Nat) : Option Term :=
  (b.function? i).map fun f => (Term.productOver f.params f.result).shift 0 (-b.size)

end InductiveTerms
