import InductiveTerms.Term.Equality
import InductiveTerms.Term.Printer

/-!
Declarations: definitions, axioms, blocks of mutual inductive types, modules and module types.
-/
namespace InductiveTerms

structure Constructor where
  id : String
  type : Term

structure InductiveType where
  id : String
  type : Term
  constructors : List Constructor

/-- A module path applied to arguments. -/
structure ModuleExpr where
  name : String
  args : List String
  deriving DecidableEq, Repr

/-- What a module consists of: it stands for another one, or it has members of its own. -/
inductive ModuleContent (δ : Type) where
  | alias (module : ModuleExpr)
  | members (type : Option ModuleExpr) (members : List δ)

/-- A module with its parameters, each with a module type. -/
structure ModuleBody (δ : Type) where
  params : List (String × ModuleExpr)
  content : ModuleContent δ

inductive Declaration where
  | definition (id : String) (type value : Term)
  | postulate (id : String) (type : Term)
  | inductiveTypes (types : List InductiveType)
  | module (id : String) (body : ModuleBody Declaration)
  | moduleType (id : String) (body : ModuleBody Declaration)

instance : BEq Constructor := ⟨fun c d => c.id == d.id && c.type == d.type⟩

instance : BEq InductiveType :=
  ⟨fun a b => a.id == b.id && a.type == b.type && a.constructors == b.constructors⟩

mutual
/-- Equality, in which the names that a declaration gives count. -/
def Declaration.same : Declaration → Declaration → Bool
  | .definition x t v, .definition y u w => x == y && t == u && v == w
  | .postulate x t, .postulate y u => x == y && t == u
  | .inductiveTypes as, .inductiveTypes bs => as == bs
  | .module x b, .module y c => x == y && sameModules b c
  | .moduleType x b, .moduleType y c => x == y && sameModules b c
  | _, _ => false
termination_by structural d => d

def sameModules : ModuleBody Declaration → ModuleBody Declaration → Bool
  | ⟨ps, .alias e⟩, ⟨qs, .alias f⟩ => ps == qs && e == f
  | ⟨ps, .members e ds⟩, ⟨qs, .members f es⟩ => ps == qs && e == f && sameDeclarations ds es
  | _, _ => false
termination_by structural b => b

def sameDeclarations : List Declaration → List Declaration → Bool
  | [], [] => true
  | d :: ds, e :: es => d.same e && sameDeclarations ds es
  | _, _ => false
termination_by structural ds => ds
end

instance : BEq Declaration := ⟨Declaration.same⟩

def ModuleExpr.render (e : ModuleExpr) : String := " ".intercalate (e.name :: e.args)

def renderModuleParams (ps : List (String × ModuleExpr)) : String :=
  String.join (ps.map fun p => " (" ++ p.1 ++ " : " ++ p.2.render ++ ")")

def InductiveType.render (keyword : String) (a : InductiveType) : String :=
  keyword ++ " " ++ a.id ++ " : " ++ a.type.render ++ " :=" ++
    String.join (a.constructors.map fun c => "\n | " ++ c.id ++ " : " ++ c.type.render) ++ "\n"

def renderInductiveTypes : List InductiveType → String
  | [] => "."
  | a :: as => a.render "Inductive" ++ String.join (as.map (·.render "with")) ++ "."

mutual
def Declaration.render : Declaration → String
  | .definition x t v => "Definition " ++ x ++ " : " ++ t.render ++ " := " ++ v.render ++ "."
  | .postulate x t => "Axiom " ++ x ++ " : " ++ t.render ++ "."
  | .inductiveTypes as => renderInductiveTypes as
  | .module x b => "Module " ++ x ++ renderModule b ++ "."
  | .moduleType x b => "Module Type " ++ x ++ renderModule b ++ "."
termination_by structural d => d

def renderModule : ModuleBody Declaration → String
  | ⟨ps, .alias e⟩ => renderModuleParams ps ++ " := " ++ e.render
  | ⟨ps, .members none ds⟩ => renderModuleParams ps ++ ".\n" ++ renderMembers ds ++ "End"
  | ⟨ps, .members (some e) ds⟩ =>
      renderModuleParams ps ++ " <: " ++ e.render ++ ".\n" ++ renderMembers ds ++ "End"
termination_by structural b => b

def renderMembers : List Declaration → String
  | [] => ""
  | d :: ds => d.render ++ "\n" ++ renderMembers ds
termination_by structural ds => ds
end

end InductiveTerms
