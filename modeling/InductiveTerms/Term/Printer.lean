import InductiveTerms.Term.Basic

/-!
The text of a term, as it stands in diagnostics: `(x : nat -> nat)` for a product and `x,0` for a
local variable.
-/
namespace InductiveTerms

mutual
/-- The text of a term. A selection that is out of range is shown by its index. -/
def Term.render : Term → String
  | .var x i => x ++ "," ++ i.repr
  | .global x => x
  | .univ u => u.name
  | .product ps r => "(" ++ renderBinders " -> " ps ++ r.render ++ ")"
  | .lambda ps b => "(" ++ renderBinders " => " ps ++ b.render ++ ")"
  | .letIn x v t b =>
      "let " ++ x.getD "_" ++ " : " ++ t.render ++ " := " ++ v.render ++ " in (" ++ b.render ++ ")"
  | .apply f ⟨a, as⟩ => "(" ++ f.render ++ " " ++ a.render ++ renderArgs as ++ ")"
  | .cast t k ty => "Cast(" ++ t.render ++ "," ++ k.name ++ "," ++ ty.render ++ ")"
  | .caseOf p s bs =>
      "match " ++ s.render ++ " casetype " ++ p.render ++ renderBranches bs ++ " end"
  | .fix i ⟨_, fs⟩ =>
      "(fix " ++ " with ".intercalate (renderFunctions fs) ++ " for " ++
        (match fs[i]? with | some f => f.name | none => "#" ++ i.repr) ++ ")"
termination_by structural t => t

/-- Each parameter, named ones as `x : type`, followed by the separator. -/
def renderBinders (sep : String) : List (Param Term) → String
  | [] => ""
  | ⟨some x, t⟩ :: ps => x ++ " : " ++ t.render ++ sep ++ renderBinders sep ps
  | ⟨none, t⟩ :: ps => t.render ++ sep ++ renderBinders sep ps
termination_by structural ps => ps

def renderArgs : List Term → String
  | [] => ""
  | t :: ts => " " ++ t.render ++ renderArgs ts
termination_by structural ts => ts

def renderBranches : List (Branch Term) → String
  | [] => ""
  | ⟨x, n, t⟩ :: bs => "| " ++ x ++ " " ++ n.repr ++ " => " ++ t.render ++ renderBranches bs
termination_by structural bs => bs

/-- The parameters of a bundle function, each in parentheses after a blank. -/
def renderParams : List (Param Term) → String
  | [] => ""
  | ⟨x, t⟩ :: ps => " (" ++ x.getD "_" ++ " : " ++ t.render ++ ")" ++ renderParams ps
termination_by structural ps => ps

def renderFunctions : List (FixFunction Term) → List String
  | [] => []
  | ⟨x, ps, r, b⟩ :: fs =>
      (x ++ renderParams ps ++ " : " ++ r.render ++ " := " ++ b.render) :: renderFunctions fs
termination_by structural fs => fs
end

/-- A list of texts in brackets. -/
def renderList (items : List String) : String := "[" ++ ", ".intercalate items ++ "]"

/-- A parameter in parentheses, `_` where it has no name. -/
def Param.render (p : Param Term) : String :=
  "(" ++ p.name.getD "_" ++ " : " ++ p.type.render ++ ")"

def Branch.render (b : Branch Term) : String :=
  b.constructor ++ " " ++ b.arity.repr ++ " => " ++ b.body.render

def Bundle.render (b : Bundle Term) : String := renderList (renderFunctions b.functions)

end InductiveTerms
