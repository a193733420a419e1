import InductiveTerms.Environment.Declaration
import InductiveTerms.Typing.Check

/-!
Global environments. An environment has an entry for every name that a list of declarations
introduces, in the order of declaration; a name that is declared again keeps its place and gets the
new entry. The members of a module are qualified with its path. Module types and modules that stand
for others introduce nothing.
-/
namespace InductiveTerms

inductive GlobalKind where
  | definition
  | postulate
  | inductiveType
  | constructor
  deriving DecidableEq, Repr

def GlobalKind.name : GlobalKind → String
  | .definition => "Definition"
  | .postulate => "Axiom"
  | .inductiveType => "Inductive"
  | .constructor => "Constructor"

structure GlobalEntry where
  kind : GlobalKind
  type : Term
  value : Option Term
  /-- The qualified names of the constructors of an inductive type. -/
  constructors : List String

/-- The entries of a block: the types first, then the constructors of all of them. -/
def inductiveEntries (path : String) (types : List InductiveType) : List (String × GlobalEntry) :=
  types.map (fun a =>
    (path ++ a.id, ⟨.inductiveType, a.type, none, a.constructors.map fun c => path ++ c.id⟩)) ++
  types.flatMap fun a =>
    a.constructors.map fun c => (path ++ c.id, ⟨.constructor, c.type, none, []⟩)

mutual
/-- The entries that a declaration under a module path introduces, in order. -/
def Declaration.entries (path : String) : Declaration → List (String × GlobalEntry)
  | .definition x t v => [(path ++ x, ⟨.definition, t, some v, []⟩)]
  | .postulate x t => [(path ++ x, ⟨.postulate, t, none, []⟩)]
  | .inductiveTypes types => inductiveEntries path types
  | .module _ ⟨_, .alias _⟩ => []
  | .module x ⟨_, .members _ ds⟩ => memberEntries (path ++ x ++ ".") ds
  | .moduleType _ _ => []
termination_by structural d => d

def memberEntries (path : String) : List Declaration → List (String × GlobalEntry)
  | [] => []
  | d :: ds => d.entries path ++ memberEntries path ds
termination_by structural ds => ds
end

/-- Puts an entry in the place of the one of the same name, or at the end. -/
def putEntry (name : String) (entry : GlobalEntry) :
    List (String × GlobalEntry) → List (String × GlobalEntry)
  | [] => [(name, entry)]
  | (x, e) :: rest => if x = name then (x, entry) :: rest else (x, e) :: putEntry name entry rest

structure GlobalEnv where
  entries : List (String × GlobalEntry)

namespace GlobalEnv

def empty : GlobalEnv := ⟨[]⟩

def insert (env : GlobalEnv) (name : String) (entry : GlobalEntry) : GlobalEnv :=
  ⟨putEntry name entry env.entries⟩

def insertMany (env : GlobalEnv) (entries : List (String × GlobalEntry)) : GlobalEnv :=
  entries.foldl (fun env e => env.insert e.1 e.2) env

def ofDeclarations (ds : List Declaration) : GlobalEnv := empty.insertMany (memberEntries "" ds)

def size (env : GlobalEnv) : Nat := env.entries.length

def isEmpty (env : GlobalEnv) : Bool := env.entries.isEmpty

def names (env : GlobalEnv) : List String := env.entries.map (·.1)

def get? (env : GlobalEnv) (name : String) : Option GlobalEntry := env.entries.lookup name

/-- The qualified names of the constructors, if the name is an inductive type. -/
def constructors? (env : GlobalEnv) (name : String) : Option (List String) :=
  (env.get? name).bind fun e => if e.kind = .inductiveType then some e.constructors else none

def globals (env : GlobalEnv) : Globals where
  typeOf? name := (env.get? name).map (·.type)
  isInductive? name := (env.get? name).map fun e => e.kind == .inductiveType

def context (env : GlobalEnv) : Context := Context.ofGlobals env.globals

section Check
variable {m : Type → Type} [Monad m] [LogSink m] [BundleLabels m]

/-- Checks the type of an entry and, if that succeeds, its value. -/
def checkEntryM (ctx : Context) (e : GlobalEntry) : ExceptT TypeError m Unit := do
  let _ ← e.type.checkM ctx
  match e.value with
  | some v => do
      let _ ← v.checkM ctx
  | none => return ()

/-- Checks entries in order and logs each that fails. -/
def checkEntriesM (ctx : Context) : List (String × GlobalEntry) → m (List (String × TypeError))
  | [] => return []
  | (name, e) :: rest => do
      match ← (checkEntryM ctx e).run with
      | .ok _ => checkEntriesM ctx rest
      | .error err =>
          logDebug ("declaration `" ++ name ++ "` failed to check: " ++ err.message)
          return (name, err) :: (← checkEntriesM ctx rest)

/-- The entries that fail to check against the environment itself, with their errors. -/
def failuresM (env : GlobalEnv) : m (List (String × TypeError)) :=
  checkEntriesM env.context env.entries

end Check

def failures (env : GlobalEnv) : List (String × TypeError) := Id.run env.failuresM

end GlobalEnv
end InductiveTerms
