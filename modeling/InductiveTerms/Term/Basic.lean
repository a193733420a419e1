/-!
Terms of the calculus of inductive constructions with de Bruijn indices.

A node binds as follows. `product` and `lambda` bind their parameters one after another, so that
each parameter type sees the parameters before it and the body sees all of them. `letIn` binds one
variable in its body. `caseOf` binds the scrutinee in its motive and as many constructor fields in
a branch as the branch's `arity` says. `fix` binds all functions of its bundle in every function
(the one listed last is index 0), and below them the parameters of that function.
-/
namespace InductiveTerms

inductive Universe where
  | set
  | prop
  | sprop
  | type
  deriving DecidableEq, Repr

def Universe.name : Universe → String
  | .set => "Set"
  | .prop => "Prop"
  | .sprop => "SProp"
  | .type => "Type"

inductive CastKind where
  | vm
  | default
  | revert
  | native
  deriving DecidableEq, Repr

def CastKind.name : CastKind → String
  | .vm => "VMcast"
  | .default => "DEFAULTcast"
  | .revert => "REVERTcast"
  | .native => "NATIVEcast"

/-- A bound parameter. The name is for display only. -/
structure Param (τ : Type) where
  name : Option String
  type : τ

/-- One branch of a case analysis; `body` stands under `arity` binders. -/
structure Branch (τ : Type) where
  constructor : String
  arity : Nat
  body : τ

structure FixFunction (τ : Type) where
  name : String
  params : List (Param τ)
  result : τ
  body : τ

/-- Mutually recursive functions. The label tells bundles apart where it matters which selections
share one bundle; it takes no part in equality. -/
structure Bundle (τ : Type) where
  label : Option Nat
  functions : List (FixFunction τ)

/-- The arguments of an application: at least one. -/
structure Arguments (τ : Type) where
  first : τ
  others : List τ

inductive Term where
  | var (name : String) (index : Nat)
  | global (name : String)
  | univ (u : Universe)
  | product (params : List (Param Term)) (result : Term)
  | lambda (params : List (Param Term)) (body : Term)
  | letIn (name : Option String) (value type body : Term)
  | apply (fn : Term) (args : Arguments Term)
  | cast (term : Term) (kind : CastKind) (type : Term)
  | caseOf (motive scrutinee : Term) (branches : List (Branch Term))
  | fix (index : Nat) (bundle : Bundle Term)

instance : Inhabited Term := ⟨.univ .type⟩

def FixFunction.arity {τ : Type} (f : FixFunction τ) : Nat := f.params.length

namespace Bundle
variable {τ : Type}

def size (b : Bundle τ) : Nat := b.functions.length

def isEmpty (b : Bundle τ) : Bool := b.functions.isEmpty

def function? (b : Bundle τ) (i : Nat) : Option (FixFunction τ) := b.functions[i]?

end Bundle

namespace Arguments
variable {τ υ φ : Type}

def toList (as : Arguments τ) : List τ := as.first :: as.others

instance : Coe (Arguments τ) (List τ) := ⟨toList⟩

def map (h : τ → υ) (as : Arguments τ) : Arguments υ := ⟨h as.first, as.others.map h⟩

instance : Append (Arguments τ) := ⟨fun as bs => ⟨as.first, as.others ++ bs.toList⟩⟩

@[simp] theorem toList_mk (a : τ) (as : List τ) : (Arguments.mk a as).toList = a :: as := rfl

@[simp] theorem toList_map (h : τ → υ) (as : Arguments τ) :
    (as.map h).toList = as.toList.map h := rfl

@[simp] theorem map_mk (h : τ → υ) (a : τ) (as : List τ) :
    (Arguments.mk a as).map h = ⟨h a, as.map h⟩ := rfl

@[simp] theorem toList_append (as bs : Arguments τ) :
    (as ++ bs).toList = as.toList ++ bs.toList := rfl

@[simp] theorem toList_inj {as bs : Arguments τ} : as.toList = bs.toList ↔ as = bs := by
  constructor
  · intro h
    obtain ⟨a, as⟩ := as
    obtain ⟨b, bs⟩ := bs
    obtain ⟨rfl, rfl⟩ := List.cons.inj h
    rfl
  · rintro rfl
    rfl

theorem append_assoc (as bs cs : Arguments τ) : as ++ bs ++ cs = as ++ (bs ++ cs) := by
  rw [← toList_inj, toList_append, toList_append, toList_append, toList_append, List.append_assoc]

theorem map_congr_left {as : Arguments τ} {h k : τ → υ} (heq : ∀ a ∈ as.toList, h a = k a) :
    as.map h = as.map k := by
  rw [← toList_inj, toList_map, toList_map, List.map_congr_left heq]

@[simp] theorem map_inj_left {as : Arguments τ} {h k : τ → υ} :
    as.map h = as.map k ↔ ∀ a ∈ as.toList, h a = k a := by
  rw [← toList_inj, toList_map, toList_map, List.map_inj_left]

theorem map_eq_map_iff {as : Arguments τ} {bs : Arguments υ} {h : τ → φ} {k : υ → φ} :
    as.map h = bs.map k ↔ as.toList.map h = bs.toList.map k := by
  rw [← toList_inj, toList_map, toList_map]

theorem eq_map {as : Arguments τ} {bs : Arguments υ} {h : τ → υ}
    (heq : bs.toList = as.toList.map h) : bs = as.map h := by
  rw [← toList_inj, toList_map, heq]

@[simp] theorem map_map (h : τ → υ) (k : υ → φ) (as : Arguments τ) :
    (as.map h).map k = as.map (k ∘ h) := by
  rw [← toList_inj, toList_map, toList_map, toList_map, List.map_map]

@[simp] theorem map_append (h : τ → υ) (as bs : Arguments τ) :
    (as ++ bs).map h = as.map h ++ bs.map h := by
  rw [← toList_inj, toList_map, toList_append, List.map_append]
  rfl

@[simp] theorem map_id' (as : Arguments τ) : as.map (fun a => a) = as := by
  rw [← toList_inj, toList_map, List.map_id']

end Arguments

namespace Term

inductive Kind where
  | var
  | global
  | univ
  | product
  | lambda
  | letIn
  | apply
  | cast
  | caseOf
  | fix
  deriving DecidableEq, Repr

def kind : Term → Kind
  | .var .. => .var
  | .global .. => .global
  | .univ .. => .univ
  | .product .. => .product
  | .lambda .. => .lambda
  | .letIn .. => .letIn
  | .apply .. => .apply
  | .cast .. => .cast
  | .caseOf .. => .caseOf
  | .fix .. => .fix

def asVar? : Term → Option (String × Nat)
  | .var x i => some (x, i)
  | _ => none

def asGlobal? : Term → Option String
  | .global x => some x
  | _ => none

def asUniv? : Term → Option Universe
  | .univ u => some u
  | _ => none

def asProduct? : Term → Option (List (Param Term) × Term)
  | .product ps r => some (ps, r)
  | _ => none

def asLambda? : Term → Option (List (Param Term) × Term)
  | .lambda ps b => some (ps, b)
  | _ => none

/-- Name, value, type and body. -/
def asLetIn? : Term → Option (Option String × Term × Term × Term)
  | .letIn x v t b => some (x, v, t, b)
  | _ => none

def asApply? : Term → Option (Term × List Term)
  | .apply f as => some (f, as)
  | _ => none

def asCast? : Term → Option (Term × CastKind × Term)
  | .cast t k ty => some (t, k, ty)
  | _ => none

/-- Motive, scrutinee and branches. -/
def asCaseOf? : Term → Option (Term × Term × List (Branch Term))
  | .caseOf p s bs => some (p, s, bs)
  | _ => none

def asFix? : Term → Option (Nat × Bundle Term)
  | .fix i b => some (i, b)
  | _ => none

/-- The function that a `fix` selects, if its index is in range. -/
def fixFunction? : Term → Option (FixFunction Term)
  | .fix i b => b.function? i
  | _ => none

/-- Selects another function of the same bundle; what is no selection stays as it is. -/
def select (i : Nat) : Term → Term
  | .fix _ b => .fix i b
  | t => t

/-- Application to a list of arguments; without arguments it is the function itself. -/
def applyTo (f : Term) : List Term → Term
  | [] => f
  | a :: as => .apply f ⟨a, as⟩

/-- The product over a list of parameters; without parameters it is the result itself. -/
def productOver : List (Param Term) → Term → Term
  | [], r => r
  | p :: ps, r => .product (p :: ps) r

/-- Abstraction over a list of parameters; without parameters it is the body itself. -/
def lambdaOver : List (Param Term) → Term → Term
  | [], b => b
  | p :: ps, b => .lambda (p :: ps) b

/-- Head and arguments of nested applications: `((f a) b) c` gives `f` and `[a, b, c]`. -/
def unfoldApps : Term → Term × List Term
  | .apply f as =>
      let inner := unfoldApps f
      (inner.1, inner.2 ++ as.toList)
  | t => (t, [])

/-- Parameters and result of nested products. -/
def unfoldProducts : Term → List (Param Term) × Term
  | .product ps r =>
      let inner := unfoldProducts r
      (ps ++ inner.1, inner.2)
  | t => ([], t)

@[simp] theorem applyTo_nil (f : Term) : f.applyTo [] = f := rfl

@[simp] theorem productOver_nil (r : Term) : productOver [] r = r := rfl

@[simp] theorem lambdaOver_nil (b : Term) : lambdaOver [] b = b := rfl

@[simp] theorem applyTo_cons (f a : Term) (as : List Term) :
    f.applyTo (a :: as) = .apply f ⟨a, as⟩ := rfl

@[simp] theorem applyTo_toList (f : Term) (as : Arguments Term) :
    f.applyTo as.toList = .apply f as := rfl

theorem unfoldApps_apply (f : Term) (as : Arguments Term) :
    (Term.apply f as).unfoldApps = (f.unfoldApps.1, f.unfoldApps.2 ++ as.toList) := by
  rw [unfoldApps]

theorem unfoldProducts_product (ps : List (Param Term)) (r : Term) :
    (Term.product ps r).unfoldProducts = (ps ++ r.unfoldProducts.1, r.unfoldProducts.2) := by
  rw [unfoldProducts]

theorem unfoldProducts_productOver (ps : List (Param Term)) (r : Term) :
    (productOver ps r).unfoldProducts = (ps ++ r.unfoldProducts.1, r.unfoldProducts.2) := by
  cases ps with
  | nil => rfl
  | cons p ps => exact unfoldProducts_product (p :: ps) r

end Term
end InductiveTerms
