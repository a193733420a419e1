import InductiveTerms.Proofs.Identity

/-!
Specialization where every call is direct. Rewriting goes by way of abstractions that stand for the
functions of the bundle and are contracted where they are applied. In a bundle that gives every
function all its arguments wherever it is mentioned, and applies no abstraction, nothing of this is
seen: what comes out is the bundle with every call rewritten in place (`specialize_eq_plainly`).
-/
namespace InductiveTerms
open Term Traversal Index

/-- Whether a term under `n` binders is a function of the bundle that has parameters. -/
def Bundle.IsCallee (b : Bundle Term) (t : Term) (n : Nat) : Prop :=
  ∃ x i f, t = .var x i ∧ b.functionAt? n i = some f ∧ 0 < f.arity

/-- Whether a node under `n` binders has such functions for children only where it applies them to
all their arguments. -/
def Bundle.CallsDirectlyAt (b : Bundle Term) (t : Term) (n : Nat) : Prop :=
  match t.asApply? with
  | some (f, as) => (∀ v ∈ f.asVar?, ∀ g ∈ b.functionAt? n v.2, g.arity ≤ as.length) ∧
      ∀ a ∈ as, ¬ b.IsCallee a n
  | none => ∀ c ∈ t.children n, ¬ b.IsCallee c.1 c.2

/-- Whether every function with parameters occurs in a term under `n` binders only as the head of an
application to as many arguments or more. -/
def Bundle.CallsDirectly (b : Bundle Term) (t : Term) (n : Nat) : Prop :=
  ¬ b.IsCallee t n ∧ ∀ u ∈ t.nodes n, b.CallsDirectlyAt u.1 u.2

instance (b : Bundle Term) (t : Term) (n : Nat) : Decidable (b.IsCallee t n) :=
  decidable_of_iff (∃ v ∈ t.asVar?, ∃ f ∈ b.functionAt? n v.2, 0 < f.arity) <| by
    constructor
    · rintro ⟨⟨x, i⟩, hv, f, hf, hpos⟩
      cases t with
      | var y j =>
        obtain ⟨rfl, rfl⟩ := Prod.mk.inj (Option.some.inj hv)
        exact ⟨y, j, f, rfl, hf, hpos⟩
      | _ => cases hv
    · rintro ⟨x, i, f, rfl, hf, hpos⟩
      exact ⟨(x, i), rfl, f, hf, hpos⟩

instance (b : Bundle Term) (t : Term) (n : Nat) : Decidable (b.CallsDirectlyAt t n) :=
  match h : t.asApply? with
  | some (f, as) =>
      decidable_of_iff ((∀ v ∈ f.asVar?, ∀ g ∈ b.functionAt? n v.2, g.arity ≤ as.length) ∧
        ∀ a ∈ as, ¬ b.IsCallee a n) (by simp only [Bundle.CallsDirectlyAt, h])
  | none =>
      decidable_of_iff (∀ c ∈ t.children n, ¬ b.IsCallee c.1 c.2)
        (by simp only [Bundle.CallsDirectlyAt, h])

instance (b : Bundle Term) (t : Term) (n : Nat) : Decidable (b.CallsDirectly t n) :=
  inferInstanceAs (Decidable (_ ∧ _))

namespace Specialization

/-- The slot of the parameter that a variable under `d` binders stands for, if it has one. -/
def slotAt? (q : Pattern) (i d : Nat) : Option Nat :=
  if d ≤ i ∧ i < d + q.length then (q[q.length - 1 - (i - d)]?).join else none

/-- The index of a variable under `d` binders when the parameters that have a slot are gone. -/
def renumbered (q : Pattern) (i d : Nat) : Nat :=
  if i < d then i
  else if i < d + q.length then d + Pattern.kept (q.drop (q.length - 1 - (i - d) + 1))
  else i - (q.length - q.kept)

section Plain
variable (b : Bundle Term) (info : SpecInfo) (constants : List Term) (namer : Nat → String)
  (q : Pattern)

/-- What a variable becomes that stands for no function of the bundle. -/
def plainLocal (x : String) (i d : Nat) : Term :=
  match slotAt? q i d with
  | some slot => (constantAt constants slot).shift 0 (d + q.kept + b.size : Nat)
  | none => .var x (renumbered q i d)

/-- What a variable becomes that is applied to arguments, which are rewritten already. A function of
the bundle becomes the new function, applied to the arguments that stay and then to those after the
parameters; its index leaves room for the parameters in a machine word. -/
def plainCall (x : String) (i d : Nat) (as : List Term) : Term :=
  match b.functionAt? (b.size + q.length + d) i, info[b.size + q.length + d - 1 - i]? with
  | some f, some p =>
      ((Term.var (namer (b.size + q.length + d - 1 - i))
        (min (renumbered q i d) (maxIndex - f.arity))).applyTo
          (keepArgs p (as.take f.arity))).applyTo (as.drop f.arity)
  | _, _ => (plainLocal b constants q x i d).applyTo as

mutual
/-- A term under `d` binders with every call and every variable rewritten in place. -/
def plain : Term → Nat → Term
  | .var x i, d => plainCall b info constants namer q x i d []
  | .apply (.var x i) ⟨a, as⟩, d =>
      plainCall b info constants namer q x i d (plain a d :: plainTerms as d)
  | .apply f ⟨a, as⟩, d => .apply (plain f d) ⟨plain a d, plainTerms as d⟩
  | .global x, _ => .global x
  | .univ u, _ => .univ u
  | .product ps r, d => .product (plainParams ps d) (plain r (d + ps.length))
  | .lambda ps t, d => .lambda (plainParams ps d) (plain t (d + ps.length))
  | .letIn x v t u, d => .letIn x (plain v d) (plain t d) (plain u (d + 1))
  | .cast t k ty, d => .cast (plain t d) k (plain ty d)
  | .caseOf p s bs, d => .caseOf (plain p (d + 1)) (plain s d) (plainBranches bs d)
  | .fix i ⟨l, fs⟩, d => .fix i ⟨l, plainFunctions fs (d + fs.length)⟩
termination_by structural t => t

def plainParams : List (Param Term) → Nat → List (Param Term)
  | [], _ => []
  | ⟨x, t⟩ :: ps, d => ⟨x, plain t d⟩ :: plainParams ps (d + 1)
termination_by structural ps => ps

def plainTerms : List Term → Nat → List Term
  | [], _ => []
  | t :: ts, d => plain t d :: plainTerms ts d
termination_by structural ts => ts

def plainBranches : List (Branch Term) → Nat → List (Branch Term)
  | [], _ => []
  | ⟨c, n, t⟩ :: bs, d => ⟨c, n, plain t (d + n)⟩ :: plainBranches bs d
termination_by structural bs => bs

def plainFunctions : List (FixFunction Term) → Nat → List (FixFunction Term)
  | [], _ => []
  | ⟨f, ps, r, t⟩ :: fs, d =>
      ⟨f, plainParams ps d, plain r (d + ps.length), plain t (d + ps.length)⟩ ::
        plainFunctions fs d
termination_by structural fs => fs
end

/-- The parameters that stay, each type rewritten in place under the parameters before it. -/
def plainKept (before : Pattern) : List (Param Term) → Pattern → List (Param Term)
  | ⟨x, t⟩ :: ps, none :: p =>
      ⟨x, plain b info constants namer before t 0⟩ :: plainKept (before ++ [none]) ps p
  | _ :: ps, some slot :: p => plainKept (before ++ [some slot]) ps p
  | _, _ => []

/-- A function the parameters of which have the pattern `p`, rewritten in place. -/
def plainFunction (f : FixFunction Term) (p : Pattern) (name : String) : FixFunction Term :=
  ⟨name, plainKept b info constants namer [] f.params p, plain b info constants namer p f.result 0,
    plain b info constants namer p f.body 0⟩

section Equations
variable {b info constants namer q}

theorem plainParams_eq (ps : List (Param Term)) (d : Nat) :
    plainParams b info constants namer q ps d =
      mapParamTypes (plain b info constants namer q) ps d := by
  induction ps generalizing d with
  | nil => rfl
  | cons p ps ih => simp only [plainParams, mapParamTypes, ih]

theorem plainTerms_eq (ts : List Term) (d : Nat) :
    plainTerms b info constants namer q ts d = ts.map (plain b info constants namer q · d) := by
  induction ts with
  | nil => rfl
  | cons t ts ih => simp only [plainTerms, List.map_cons, ih]

theorem plainBranches_eq (bs : List (Branch Term)) (d : Nat) :
    plainBranches b info constants namer q bs d = bs.map fun c =>
      ⟨c.constructor, c.arity, plain b info constants namer q c.body (d + c.arity)⟩ := by
  induction bs with
  | nil => rfl
  | cons c bs ih => simp only [plainBranches, List.map_cons, ih]

theorem plainFunctions_eq (fs : List (FixFunction Term)) (d : Nat) :
    plainFunctions b info constants namer q fs d =
      fs.map (mapFunction (plain b info constants namer q) · d) := by
  induction fs with
  | nil => rfl
  | cons f fs ih =>
    simp only [plainFunctions, List.map_cons, ih, plainParams_eq]
    rfl

theorem plain_var (x : String) (i d : Nat) :
    plain b info constants namer q (.var x i) d = plainCall b info constants namer q x i d [] :=
  rfl

theorem plain_apply_var (x : String) (i : Nat) (as : Arguments Term) (d : Nat) :
    plain b info constants namer q (.apply (.var x i) as) d =
      plainCall b info constants namer q x i d
        (as.toList.map (plain b info constants namer q · d)) := by
  obtain ⟨a, as⟩ := as
  rw [plain, plainTerms_eq, Arguments.toList_mk, List.map_cons]

theorem plain_node {t : Term} (ht : t.asVar? = none)
    (hhead : ∀ f as, t = .apply f as → f.asVar? = none) (d : Nat) :
    plain b info constants namer q t d =
      t.mapChildren (plain b info constants namer q) d := by
  cases t with
  | var x i => simp [asVar?] at ht
  | apply f as =>
    have hf := hhead f as rfl
    obtain ⟨a, as⟩ := as
    cases f with
    | var x i => simp [asVar?] at hf
    | _ => simp only [plain, mapChildren, Arguments.map_mk, plainTerms_eq]
  | fix i c => simp only [plain, mapChildren, plainFunctions_eq, Bundle.size]
  | _ => simp only [plain, mapChildren, plainParams_eq, plainBranches_eq]

end Equations

end Plain

section Arguments

theorem keepArgs_map (h : Term → Term) (p : Pattern) (as : List Term) :
    keepArgs p (as.map h) = (keepArgs p as).map h := by
  induction p generalizing as with
  | nil => rfl
  | cons s p ih =>
    cases as with
    | nil => cases s <;> rfl
    | cons a as => cases s <;> simp only [List.map_cons, keepArgs, ih]

end Arguments

section CallsDirectly
variable {b : Bundle Term} {t : Term} {n : Nat}

theorem callsDirectly_child (h : b.CallsDirectly t n) {c : Term × Nat} (hc : c ∈ t.children n)
    (hcallee : ¬ b.IsCallee c.1 c.2) : b.CallsDirectly c.1 c.2 := by
  refine ⟨hcallee, fun u hu => h.2 u ?_⟩
  rw [nodes_eq]
  exact List.mem_cons_of_mem _ (List.mem_flatMap.2 ⟨c, hc, hu⟩)

theorem callsDirectlyAt_of_callsDirectly (h : b.CallsDirectly t n) : b.CallsDirectlyAt t n :=
  h.2 (t, n) (by rw [nodes_eq]; exact List.mem_cons_self)

theorem arity_eq_zero_of_not_isCallee {x : String} {i : Nat} (h : ¬ b.IsCallee (.var x i) n) :
    ∀ f, b.functionAt? n i = some f → f.arity = 0 := by
  intro f hf
  by_contra hpos
  exact h ⟨x, i, f, rfl, hf, Nat.pos_of_ne_zero hpos⟩

end CallsDirectly

/-- Whether no variable is applied that stands for a parameter with an abstraction for a
constant. -/
def AppliesNoConstant (constants : List Term) (q : Pattern) (t : Term) (d : Nat) : Prop :=
  ∀ u ∈ t.asApply?, ∀ v ∈ u.1.asVar?, ∀ slot ∈ slotAt? q v.2 d,
    (constantAt constants slot).kind ≠ .lambda

/-- A term under `d` binders and parameters with the pattern `q` in which all calls are direct and
no abstraction comes to be applied. -/
structure Direct (b : Bundle Term) (constants : List Term) (q : Pattern) (t : Term) (d : Nat) :
    Prop where
  redexes : t.All fun u => u.isHeadRedex = false
  calls : b.CallsDirectly t (b.size + q.length + d)
  constants : ∀ u ∈ t.nodes d, AppliesNoConstant constants q u.1 u.2

theorem Direct.child {b : Bundle Term} {constants : List Term} {q : Pattern} {t : Term} {d : Nat}
    (h : Direct b constants q t d) {c : Term × Nat} (hc : c ∈ t.children d)
    (hcallee : ¬ b.IsCallee c.1 (b.size + q.length + c.2)) : Direct b constants q c.1 c.2 where
  redexes := ((all_iff_children d).1 h.redexes).2 c hc
  calls := by
    have hc' : (c.1, c.2 + (b.size + q.length)) ∈ t.children (d + (b.size + q.length)) := by
      rw [children_add]
      exact List.mem_map_of_mem hc
    rw [Nat.add_comm _ c.2] at hcallee ⊢
    exact callsDirectly_child (Nat.add_comm d _ ▸ h.calls) hc' hcallee
  constants := fun u hu => h.constants u (by
    rw [nodes_eq]
    exact List.mem_cons_of_mem _ (List.mem_flatMap.2 ⟨c, hc, hu⟩))

section Variables
variable {b : Bundle Term} {info : SpecInfo} {constants : List Term} {namer : Nat → String}
  {p q : Pattern} {x : String} {i d steps : Nat} {as : List Term} {f : FixFunction Term}

theorem le_of_functionAt? (hi : b.functionAt? (b.size + q.length + d) i = some f) :
    d + q.length ≤ i ∧ i < b.size + q.length + d := by
  unfold Bundle.functionAt? at hi
  split at hi
  · have hlt := Bundle.lt_of_function? hi
    omega
  · cases hi

theorem plainCall_function (hi : b.functionAt? (b.size + q.length + d) i = some f)
    (hp : info[b.size + q.length + d - 1 - i]? = some p) :
    plainCall b info constants namer q x i d as =
      ((Term.var (namer (b.size + q.length + d - 1 - i))
        (min (i - (q.length - q.kept)) (maxIndex - f.arity))).applyTo
          (keepArgs p (as.take f.arity))).applyTo (as.drop f.arity) := by
  obtain ⟨hle, _⟩ := le_of_functionAt? hi
  simp only [plainCall, hi, hp, renumbered, if_neg (Nat.not_lt.2 (Nat.le_of_add_right_le hle)),
    if_neg (Nat.not_lt.2 hle)]

theorem plainCall_arity_zero (hdescribes : b.Describes p info)
    (hi : b.functionAt? (b.size + q.length + d) i = some f) (hzero : f.arity = 0) :
    plainCall b info constants namer q x i d as =
      (Term.var (namer (b.size + q.length + d - 1 - i))
        (min (i - (q.length - q.kept)) maxIndex)).applyTo as := by
  obtain ⟨hle, hlt⟩ := le_of_functionAt? hi
  have hsize : b.size + q.length + d - 1 - i < info.length := by
    rw [hdescribes.length_eq]
    omega
  have hnone : ∀ q' : Pattern, keepArgs q' ([] : List Term) = [] := by
    intro q'
    rcases q' with _ | ⟨_ | _, _⟩ <;> rfl
  rw [plainCall_function hi (List.getElem?_eq_getElem hsize), hzero, List.take_zero, hnone,
    applyTo_nil, List.drop_zero, Nat.sub_zero]

theorem plainCall_local (hi : b.functionAt? (b.size + q.length + d) i = none) :
    plainCall b info constants namer q x i d as =
      (plainLocal b constants q x i d).applyTo as := by
  simp only [plainCall, hi]

theorem plainCall_congr {as' : List Term} (h : as.map bare = as'.map bare) :
    (plainCall b info constants namer q x i d as).bare =
      (plainCall b info constants namer q x i d as').bare := by
  unfold plainCall
  cases b.functionAt? (b.size + q.length + d) i with
  | none => simp only [bare_applyTo, h]
  | some f =>
    cases info[b.size + q.length + d - 1 - i]? with
    | none => simp only [bare_applyTo, h]
    | some p => simp only [bare_applyTo, ← keepArgs_map, List.map_take, List.map_drop, h]

theorem bare_local (hi : b.functionAt? (b.size + q.length + d) i = none)
    {w : Term} (hw : Visited (b.plan steps info constants namer q).visitor (.var x i) d w) :
    w.bare = (plainLocal b constants q x i d).bare := by
  cases Plan.visited_var hw with
  | inner hlt =>
    have hslot : slotAt? q i d = none := if_neg (by omega)
    simp only [plainLocal, hslot, renumbered, if_pos hlt]
  | kept hle hlt hnone =>
    have hlt : i < d + q.length := hlt
    have hnone : q[q.length - 1 - (i - d)]? = some none := hnone
    have hslot : slotAt? q i d = none := by
      rw [slotAt?, if_pos ⟨hle, hlt⟩, hnone]
      rfl
    simp only [plainLocal, hslot, renumbered, if_neg (Nat.not_lt.2 hle), if_pos hlt]
    rfl
  | @constant slot c hle hlt hsome hc =>
    have hlt : i < d + q.length := hlt
    have hsome : q[q.length - 1 - (i - d)]? = some (some slot) := hsome
    have hc : constants[slot]? = some c := hc
    have hslot : slotAt? q i d = some slot := by
      rw [slotAt?, if_pos ⟨hle, hlt⟩, hsome]
      rfl
    simp only [plainLocal, hslot, constantAt, hc, Option.getD_some]
    rfl
  | function hle hlt _ =>
    have hle : d + q.length ≤ i := hle
    have hlt : i < d + q.length + b.size := hlt
    have hsome : b.size + q.length + d - 1 - i < b.functions.length := by
      change _ < b.size
      omega
    rw [functionAt?_of_lt (by omega), Bundle.function?, List.getElem?_eq_getElem hsome] at hi
    cases hi
  | outside hle =>
    have hle : d + q.length + b.size ≤ i := hle
    have hslot : slotAt? q i d = none := if_neg (by omega)
    simp only [plainLocal, hslot, renumbered, if_neg (show ¬ i < d by omega),
      if_neg (show ¬ i < d + q.length by omega)]
    rfl

end Variables

section Rewritten
variable {b : Bundle Term} {info : SpecInfo} {constants : List Term} {namer : Nat → String}
  {p q : Pattern} {d steps : Nat} {t w : Term}

theorem bare_var_of_direct (hdescribes : b.Describes p info)
    (harity : ∀ f ∈ b.functions, f.arity + b.size ≤ maxIndex) {x : String} {i : Nat}
    (hzero : ∀ f, b.functionAt? (b.size + q.length + d) i = some f → f.arity = 0)
    (hw : Visited (b.plan steps info constants namer q).visitor (.var x i) d w) :
    w.bare = (plain b info constants namer q (.var x i) d).bare := by
  rw [plain_var]
  cases hi : b.functionAt? (b.size + q.length + d) i with
  | none =>
    rw [plainCall_local hi, applyTo_nil]
    exact bare_local hi hw
  | some f =>
    obtain ⟨hle, hlt⟩ := le_of_functionAt? hi
    have hroom := harity f (mem_of_functionAt? hi)
    have harity₀ := hzero f hi
    obtain ⟨q', qs, hq', hlen', hlen, hbare⟩ := bare_of_functionAt? hdescribes hi (by omega) hw
    rw [harity₀] at hlen hlen'
    obtain rfl := List.length_eq_zero_iff.1 hlen
    obtain rfl := List.length_eq_zero_iff.1 hlen'
    rw [plainCall_function hi hq', hbare, harity₀]
    cases f.params <;> rfl

theorem bare_call_of_direct (hdescribes : b.Describes p info)
    (harity : ∀ f ∈ b.functions, f.arity + b.size ≤ maxIndex) {x : String} {i : Nat}
    {f : FixFunction Term} {u : Term} {as : Arguments Term}
    (hi : b.functionAt? (b.size + q.length + d) i = some f) (hpos : 0 < f.arity)
    (has : f.arity ≤ as.toList.length)
    (hu : Visited (b.plan steps info constants namer q).visitor (.var x i) d u) {s : Nat}
    (hw : (Term.apply u as).reduceHead s = some w) :
    w.bare = (plainCall b info constants namer q x i d as.toList).bare := by
  obtain ⟨hle, hlt⟩ := le_of_functionAt? hi
  have hroom := harity f (mem_of_functionAt? hi)
  obtain ⟨q', qs, hq', hlen', hlen, hbare⟩ := bare_of_functionAt? hdescribes hi (by omega) hu
  have hindex : min (i - (q.length - q.kept) + f.arity) maxIndex =
      min (i - (q.length - q.kept)) (maxIndex - f.arity) + f.arity := by omega
  rw [hindex] at hbare
  cases qs with
  | nil =>
    rw [List.length_nil] at hlen
    omega
  | cons y qs =>
    rw [bare_saturated_call hlen' hlen hpos has hbare hw, plainCall_function hi hq', bare_applyTo,
      bare_applyTo, bare_var]

theorem kind_applyTo_ne {f : Term} (h : f.kind ≠ .lambda) (as : List Term) :
    (f.applyTo as).kind ≠ .lambda := by
  cases as with
  | nil => exact h
  | cons a as => simp [kind]

theorem kind_plain_ne (hvar : t.asVar? = none) (hkind : t.kind ≠ .lambda) :
    (plain b info constants namer q t d).kind ≠ .lambda := by
  rcases t.eq_apply_or_kind_ne with ⟨f, as, rfl⟩ | hnode
  · rcases f.eq_var_or_asVar?_eq_none with ⟨x, i, rfl⟩ | hf
    · rw [plain_apply_var]
      unfold plainCall
      split
      · exact kind_applyTo_ne (kind_applyTo_ne (by simp [kind]) _) _
      · rw [← Arguments.toList_map, applyTo_toList]
        simp [kind]
    · rwa [plain_node rfl (fun g bs heq => by cases heq; exact hf), kind_mapChildren]
  · rwa [plain_node hvar (fun g bs heq => by rw [heq] at hnode; exact absurd rfl hnode),
      kind_mapChildren]

/-- What is applied does not become an abstraction unless it is a function of the bundle. -/
theorem kind_plain_head_ne {f : Term} {as : Arguments Term}
    (h : Direct b constants q (.apply f as) d) (hdescribes : b.Describes p info)
    (hcallee : ¬ b.IsCallee f (b.size + q.length + d)) :
    (plain b info constants namer q f d).kind ≠ .lambda := by
  rcases f.eq_var_or_asVar?_eq_none with ⟨x, i, rfl⟩ | hf
  · rw [plain_var]
    cases hi : b.functionAt? (b.size + q.length + d) i with
    | none =>
      have hconst := h.constants _ (by rw [nodes_eq]; exact List.mem_cons_self) _ rfl (x, i) rfl
      rw [plainCall_local hi, applyTo_nil, plainLocal]
      cases hslot : slotAt? q i d with
      | none => simp [kind]
      | some slot =>
        rw [kind_shift]
        exact hconst slot hslot
    | some g =>
      rw [plainCall_arity_zero hdescribes hi (arity_eq_zero_of_not_isCallee hcallee g hi),
        applyTo_nil]
      simp [kind]
  · exact kind_plain_ne hf (isHeadRedex_apply_eq_false.1 ((all_iff_children d).1 h.redexes).1)

theorem plainCall_applyTo {x : String} {i : Nat} (hdescribes : b.Describes p info)
    (hcallee : ¬ b.IsCallee (.var x i) (b.size + q.length + d)) (as : List Term) :
    plainCall b info constants namer q x i d as =
      (plain b info constants namer q (.var x i) d).applyTo as := by
  rw [plain_var]
  cases hi : b.functionAt? (b.size + q.length + d) i with
  | none => rw [plainCall_local hi, plainCall_local hi, applyTo_nil]
  | some g =>
    have hzero := arity_eq_zero_of_not_isCallee hcallee g hi
    rw [plainCall_arity_zero hdescribes hi hzero, plainCall_arity_zero hdescribes hi hzero,
      applyTo_nil]

theorem Direct.callsDirectlyAt (h : Direct b constants q t d) :
    b.CallsDirectlyAt t (b.size + q.length + d) :=
  callsDirectlyAt_of_callsDirectly h.calls

theorem Direct.args {f : Term} {as : Arguments Term} (h : Direct b constants q (.apply f as) d) :
    ∀ a ∈ as.toList, Direct b constants q a d := fun a ha =>
  h.child (c := (a, d)) (by simp [children, ha]) (h.callsDirectlyAt.2 a ha)

theorem Direct.head {f : Term} {as : Arguments Term} (h : Direct b constants q (.apply f as) d)
    (hcallee : ¬ b.IsCallee f (b.size + q.length + d)) : Direct b constants q f d :=
  h.child (c := (f, d)) (by simp [children]) hcallee

theorem Direct.inside (h : Direct b constants q t d) (hnode : t.kind ≠ .apply) :
    ∀ c ∈ t.children d, Direct b constants q c.1 c.2 := by
  intro c hc
  refine h.child hc ?_
  have hnone : t.asApply? = none := by
    cases t <;> first | rfl | exact absurd rfl hnode
  have hat := h.callsDirectlyAt
  simp only [Bundle.CallsDirectlyAt, hnone] at hat
  rw [Nat.add_comm _ d, children_add, List.forall_mem_map] at hat
  rw [Nat.add_comm _ c.2]
  exact hat c hc

/-- What is left of a term in which calls are direct is the term rewritten in place. -/
theorem bare_of_direct (hdescribes : b.Describes p info)
    (harity : ∀ f ∈ b.functions, f.arity + b.size ≤ maxIndex) (t : Term) : ∀ {d w},
      Direct b constants q t d →
        Visited (b.plan steps info constants namer q).visitor t d w →
          w.bare = (plain b info constants namer q t d).bare := by
  induction t using induct_children with
  | node t ih =>
    intro d w h hw
    rcases t.eq_var_or_asVar?_eq_none with ⟨x, i, rfl⟩ | hvar
    · exact bare_var_of_direct hdescribes harity (arity_eq_zero_of_not_isCallee h.calls.1) hw
    obtain ⟨u, hu, hreduce⟩ := Plan.visited_node hvar hw
    rcases t.eq_apply_or_kind_ne with ⟨f, as, rfl⟩ | hnode
    · cases hu with
      | @apply _ f' _ as' _ hf has =>
        have hargs : as'.toList.map bare =
            (as.map (plain b info constants namer q · d)).toList.map bare := by
          rw [Arguments.toList_map, List.map_map]
          exact map_eq_of_forall₂ has fun a ha w hw =>
            ih d (a, d) (by simp [children, ha]) (h.args a ha) hw
        by_cases hcallee : b.IsCallee f (b.size + q.length + d)
        · obtain ⟨x, i, g, rfl, hi, hpos⟩ := hcallee
          have hlen := h.callsDirectlyAt.1 (x, i) rfl g hi
          rw [has.length_eq] at hlen
          rw [bare_call_of_direct hdescribes harity hi hpos hlen hf hreduce, plain_apply_var]
          exact plainCall_congr hargs
        -- otherwise the node is not reduced, and stays as it is rebuilt
        · have hhead := ih d (f, d) (by simp [children]) (h.head hcallee) hf
          have hkind : f'.kind ≠ .lambda := by
            rw [← kind_bare, hhead, kind_bare]
            exact kind_plain_head_ne h hdescribes hcallee
          rw [reduceHead_of_not_isHeadRedex (isHeadRedex_apply_eq_false.2 hkind)] at hreduce
          obtain rfl := Option.some.inj hreduce
          have hplain : plain b info constants namer q (.apply f as) d =
              .apply (plain b info constants namer q f d)
                (as.map (plain b info constants namer q · d)) := by
            rcases f.eq_var_or_asVar?_eq_none with ⟨x, i, rfl⟩ | hvar
            · rw [plain_apply_var, plainCall_applyTo hdescribes hcallee, ← Arguments.toList_map,
                applyTo_toList]
            · exact plain_node rfl (fun g bs heq => by cases heq; exact hvar) d
          rw [hplain, bare_apply, bare_apply, hhead, Arguments.map_eq_map_iff.2 hargs]
    · have hhead : ∀ f as, t = .apply f as → f.asVar? = none := by
        rintro f as rfl
        exact absurd rfl hnode
      have hredex : u.isHeadRedex = false := by
        rcases isHeadRedex_cases u with ⟨ps, c, as, rfl⟩ | hredex
        · rw [← hu.kind_eq] at hnode
          exact absurd rfl hnode
        · exact hredex
      rw [reduceHead_of_not_isHeadRedex hredex] at hreduce
      obtain rfl := Option.some.inj hreduce
      have hchildren : Rebuilt (fun c e w => w.bare = (plain b info constants namer q c e).bare)
          t d u :=
        hu.imp fun c hc w hw => ih d c hc (h.inside hnode c hc) hw
      rw [hchildren.bare_eq, plain_node hvar hhead, bare_eq _ d, mapChildren_mapChildren]

/-- Calls are direct in the children too, other than a function of the bundle that is applied. -/
theorem Direct.children_or_callee (h : Direct b constants q t d) {c : Term × Nat}
    (hc : c ∈ t.children d) :
    Direct b constants q c.1 c.2 ∨ b.IsCallee c.1 (b.size + q.length + c.2) := by
  rcases t.eq_apply_or_kind_ne with ⟨f, as, rfl⟩ | hnode
  · simp only [children, List.mem_cons, List.mem_map] at hc
    rcases hc with rfl | ⟨a, ha, rfl⟩
    · exact or_iff_not_imp_right.2 h.head
    · exact .inl (h.args a ha)
  · exact .inl (h.inside hnode c hc)

theorem visited_of_var (hcovers : (b.plan 0 info constants namer q).Covers) (x : String) (i : Nat) :
    ∃ w, Visited (b.plan steps info constants namer q).visitor (.var x i) d w := by
  rcases Plan.visited_or_stuck (t := .var x i) hcovers steps (fun c hc => nomatch hc) with
    hw | ⟨u, hu, hstuck⟩
  · exact hw
  · cases hu
    cases steps <;> cases hstuck

/-- A term in which calls are direct can be rewritten with one step for every reduction. -/
theorem visited_of_direct (hdescribes : b.Describes p info)
    (harity : ∀ f ∈ b.functions, f.arity + b.size ≤ maxIndex)
    (hcovers : (b.plan 0 info constants namer q).Covers) (t : Term) : ∀ {d},
      Direct b constants q t d →
        ∃ w, Visited (b.plan (steps + 1) info constants namer q).visitor t d w := by
  induction t using induct_children with
  | node t ih =>
    intro d h
    have hchildren : ∀ c ∈ t.children d,
        ∃ w, Visited (b.plan (steps + 1) info constants namer q).visitor c.1 c.2 w := by
      intro c hc
      rcases h.children_or_callee hc with hdirect | ⟨x, i, _, hvar, _⟩
      · exact ih d c hc hdirect
      · rw [hvar]
        exact visited_of_var hcovers x i
    rcases Plan.visited_or_stuck hcovers (steps + 1) hchildren with hw | ⟨u, hu, hstuck⟩
    · exact hw
    exfalso
    rcases isHeadRedex_cases u with ⟨ps, c, as, rfl⟩ | hstays
    · cases hu with
      | @apply f _ as₀ _ _ hf _ =>
        obtain ⟨s, hf⟩ := hf
        have hf : Visited (b.plan s info constants namer q).visitor f d (.lambda ps c) := hf
        by_cases hcallee : b.IsCallee f (b.size + q.length + d)
        -- a call takes one step
        · obtain ⟨x, i, g, rfl, hi, hpos⟩ := hcallee
          have hroom := harity g (mem_of_functionAt? hi)
          obtain ⟨hle, _⟩ := le_of_functionAt? hi
          obtain ⟨_, qs, _, _, hlen, hbare⟩ := bare_of_functionAt? hdescribes hi (by omega) hf
          cases qs with
          | nil =>
            rw [List.length_nil] at hlen
            omega
          | cons y qs =>
            have hkept : q.kept ≤ q.length := List.countP_le_length
            have hres : Residual g.arity (.lambda ps c) :=
              ⟨hpos, _, _, _, hbare, hlen, by omega⟩
            rw [hres.reduceHead] at hstuck
            cases hstuck
        -- and nothing else becomes an abstraction that is applied
        · have hkind : (plain b info constants namer q f d).kind ≠ .lambda :=
            kind_plain_head_ne h hdescribes hcallee
          rw [← kind_bare, ← bare_of_direct hdescribes harity f (h.head hcallee) hf, kind_bare]
            at hkind
          exact hkind rfl
    · rw [reduceHead_of_not_isHeadRedex hstays] at hstuck
      cases hstuck

end Rewritten

section Functions
variable {b : Bundle Term} {info : SpecInfo} {constants : List Term} {namer : Nat → String}

theorem rewriteParams_bare {plan : Plan} (ps : List (Param Term)) : ∀ {before p ps'},
    rewriteParams plan before ps p = .ok ps' →
      (∀ {k : Nat} {x : Param Term} {u : Term}, ps[k]? = some x → p[k]? = some none →
        { plan with pattern := before ++ p.take k }.rewrite x.type = .ok u →
          u.bare = (plain b info constants namer (before ++ p.take k) x.type 0).bare) →
      ps'.map bareParam = (plainKept b info constants namer before ps p).map bareParam := by
  induction ps with
  | nil =>
    intro before p ps' h _
    cases p <;> obtain rfl := Except.ok.inj h <;> rfl
  | cons y ps ih =>
    intro before p ps' h htypes
    cases p with
    | nil =>
      obtain rfl := Except.ok.inj h
      rfl
    | cons s p =>
      have hrest : ∀ {rest}, rewriteParams plan (before ++ [s]) ps p = .ok rest →
          rest.map bareParam =
            (plainKept b info constants namer (before ++ [s]) ps p).map bareParam := by
        intro rest hrewrite
        refine ih hrewrite fun {k x u} hx hp hu => ?_
        rw [List.append_assoc, List.singleton_append] at hu ⊢
        exact htypes (k := k + 1) hx hp hu
      cases s with
      | none =>
        rw [rewriteParams, bind_eq_ok_iff] at h
        obtain ⟨type, htype, h⟩ := h
        rw [bind_eq_ok_iff] at h
        obtain ⟨rest, hrewrite, h⟩ := h
        obtain rfl := Except.ok.inj h
        have hhead := htypes (k := 0) rfl rfl (by rwa [List.take_zero, List.append_nil])
        rw [List.take_zero, List.append_nil] at hhead
        rw [plainKept, List.map_cons, List.map_cons, hrest hrewrite, bareParam, bareParam, hhead]
      | some slot =>
        rw [rewriteParams] at h
        exact hrest h

theorem rewriteFunction_bare {plan : Plan} {f f' : FixFunction Term} {name : String}
    (hrewrite : rewriteFunction plan f name = .ok f')
    (hparam : ∀ {k : Nat} {x : Param Term} {u : Term}, f.params[k]? = some x →
      plan.pattern[k]? = some none →
        { plan with pattern := plan.pattern.take k }.rewrite x.type = .ok u →
          u.bare = (plain b info constants namer (plan.pattern.take k) x.type 0).bare)
    (hpart : ∀ t u, t = f.result ∨ t = f.body → plan.rewrite t = .ok u →
      u.bare = (plain b info constants namer plan.pattern t 0).bare) :
    bareFunction f' = bareFunction (plainFunction b info constants namer f plan.pattern name) := by
  obtain ⟨_, hparams, hresult, hbody⟩ := rewriteFunction_parts hrewrite
  rw [bareFunction, bareFunction, plainFunction, rewriteParams_bare f.params hparams hparam,
    hpart _ _ (.inl rfl) hresult, hpart _ _ (.inr rfl) hbody]

end Functions

end Specialization

namespace Bundle
open InductiveTerms.Specialization
variable {b : Bundle Term} {p : Pattern} {info : SpecInfo} {constants : List Term}

theorem Part.direct {q : Pattern} {t : Term} (hdescribes : b.Describes p info)
    (hredexes : (Term.fix 0 b).All fun u => u.isHeadRedex = false)
    (hcalls : b.CallsDirectly (.fix 0 b) 0) (hpart : b.Part info q t)
    (hconstants : ∀ u ∈ t.nodes 0, AppliesNoConstant constants q u.1 u.2) :
    Direct b constants q t 0 where
  redexes := ((all_iff_children 0).1 hredexes).2 _ (hpart.mem_children hdescribes)
  calls := callsDirectly_child hcalls (hpart.mem_children hdescribes)
    (callsDirectlyAt_of_callsDirectly hcalls _ (hpart.mem_children hdescribes))
  constants := hconstants

/-- The bundle with every call and every variable rewritten in place. -/
def plainly (b : Bundle Term) (info : SpecInfo) (constants : List Term) (namer : Nat → String) :
    Bundle Term :=
  ⟨none, (b.functions.zip info).mapIdx fun g f =>
    plainFunction b info constants namer f.1 f.2 (namer g)⟩

/-- Where calls are direct and no abstraction comes to be applied, specialization ends, and it is
the bundle rewritten in place that comes out. -/
theorem specialize_eq_plainly (hdescribes : b.Describes p info)
    (hslots : ∀ slot, some slot ∈ p → slot < constants.length)
    (harity : ∀ f ∈ b.functions, f.arity + b.size ≤ maxIndex)
    (hdirect : ∀ q t, b.Part info q t → Direct b constants q t 0)
    (steps : Nat) (namer : Nat → String) :
    ∃ b', b.specialize (steps + 1) info constants namer = .ok b' ∧
      (b' == b.plainly info constants namer) = true := by
  have hcovers : ∀ q t, b.Part info q t → (b.plan 0 info constants namer q).Covers :=
    fun q t hpart => hpart.covers fun q hq => hdescribes.covers hslots 0 namer hq
  obtain ⟨b', hb'⟩ : ∃ b', b.specialize (steps + 1) info constants namer = .ok b' :=
    specialize_of_visited hdescribes fun q t hpart =>
      visited_of_direct hdescribes harity (hcovers q t hpart) t (hdirect q t hpart)
  have hpart : ∀ {q t u}, b.Part info q t →
      (b.plan (steps + 1) info constants namer q).rewrite t = .ok u →
        u.bare = (plain b info constants namer q t 0).bare :=
    fun hpart hu =>
      bare_of_direct hdescribes harity _ (hdirect _ _ hpart) (Plan.visit_of_rewrite hu)
  refine ⟨b', hb', beq_iff_bareFunction.2 ?_⟩
  obtain ⟨hlen, hsize⟩ := specialize_size hb'
  have hlength : b'.functions.length = (b.plainly info constants namer).functions.length := by
    rw [plainly, List.length_mapIdx, List.length_zip]
    change b'.size = min b.size info.length
    omega
  refine (map_eq_map_iff_of_getElem? (P := fun _ _ => True) hlength fun i f₀ hf₀ => ?_).2
    fun _ _ _ => trivial
  rw [plainly, List.getElem?_mapIdx, Option.map_eq_some_iff] at hf₀
  obtain ⟨⟨f, q⟩, hfq, rfl⟩ := hf₀
  obtain ⟨hf, hq⟩ := List.getElem?_zip_eq_some.1 hfq
  obtain ⟨f', hf', hrewrite⟩ := specialize_rewrites hb' hf hq
  refine ⟨f', hf', iff_true_intro (rewriteFunction_bare hrewrite ?_ ?_)⟩
  · exact fun hx hk hu => hpart (.param hf hq hx hk) hu
  · rintro t u (rfl | rfl) hu
    · exact hpart (.result hf hq) hu
    · exact hpart (.body hf hq) hu

/-- `f c n := g c (f c n) z`, `g c n := λ m. f c m` and `z := O`. -/
def nestedCalls : Bundle Term :=
  ⟨none,
    [⟨"f", [⟨some "c", .global "fn"⟩, ⟨some "n", .global "nat"⟩], .global "nat",
      .applyTo (.var "g" 3)
        [.var "c" 1, .applyTo (.var "f" 4) [.var "c" 1, .var "n" 0], .var "z" 2]⟩,
    ⟨"g", [⟨some "c", .global "fn"⟩, ⟨some "n", .global "nat"⟩], .global "fn",
      .lambda [⟨some "m", .global "nat"⟩] (.applyTo (.var "f" 5) [.var "c" 2, .var "m" 0])⟩,
    ⟨"z", [], .global "nat", .global "O"⟩]⟩

/-- `λ y. y`. -/
def sameNumber : Term := .lambda [⟨some "y", .global "nat"⟩] (.var "y" 0)

/-- `nestedCalls` with an abstraction for `c`: `f n := (g (f n)) z` and `g n := λ m. f m`. -/
def nestedCallsAt : Bundle Term :=
  ⟨none,
    [⟨"h", [⟨some "n", .global "nat"⟩], .global "nat",
      .applyTo (.applyTo (.var "h" 2) [.applyTo (.var "h" 3) [.var "n" 0]]) [.var "h" 1]⟩,
    ⟨"h", [⟨some "n", .global "nat"⟩], .global "fn",
      .lambda [⟨some "m", .global "nat"⟩] (.applyTo (.var "h" 4) [.var "m" 0])⟩,
    ⟨"h", [], .global "nat", .global "O"⟩]⟩

theorem specialize_eq_plainly_nestedCalls :
    nestedCalls.Describes [some 0, none] [[some 0, none], [some 0, none], []] ∧
      (∀ f ∈ nestedCalls.functions, f.arity + nestedCalls.size ≤ maxIndex) ∧
      (∀ q t, nestedCalls.Part [[some 0, none], [some 0, none], []] q t →
        Direct nestedCalls [sameNumber] q t 0) ∧
      ∃ b', nestedCalls.specialize 1 [[some 0, none], [some 0, none], []] [sameNumber]
        (fun _ => "h") = .ok b' ∧ (b' == nestedCallsAt) = true := by
  have hclosure : nestedCalls.closure? 0 [some 0, none] =
      some [[some 0, none], [some 0, none], []] := by decide
  have hdescribes := describes_of_closure? hclosure
  have harity : ∀ f ∈ nestedCalls.functions, f.arity + nestedCalls.size ≤ maxIndex := by decide
  have hheads : ∀ c ∈ (Term.fix 0 nestedCalls).children 0, ∀ u ∈ c.1.nodes 0,
      ∀ a ∈ u.1.asApply?, ∀ v ∈ a.1.asVar?, u.2 + 2 ≤ v.2 := by decide
  have hdirect : ∀ q t, nestedCalls.Part [[some 0, none], [some 0, none], []] q t →
      Direct nestedCalls [sameNumber] q t 0 := by
    intro q t hpart
    refine hpart.direct hdescribes (by decide) (by decide) ?_
    -- what is applied is a function of the bundle, and no parameter
    intro u hu a ha v hv slot hslot
    obtain ⟨p, hp, hinitial⟩ := hpart.exists_initial
    have htwo : ∀ p ∈ ([[some 0, none], [some 0, none], []] : SpecInfo), p.length ≤ 2 := by decide
    have hle := Nat.le_trans hinitial.length_le (htwo p hp)
    have hfar := hheads _ (hpart.mem_children hdescribes) u hu a ha v hv
    rw [slotAt?, if_neg (by omega)] at hslot
    cases hslot
  obtain ⟨b', hb', hsame⟩ :=
    specialize_eq_plainly hdescribes (by simp) harity hdirect 0 fun _ => "h"
  have hexpected : (nestedCalls.plainly [[some 0, none], [some 0, none], []] [sameNumber]
      (fun _ => "h") == nestedCallsAt) = true := by decide
  rw [beq_iff_bareFunction] at hsame hexpected
  exact ⟨hdescribes, harity, hdirect, b', hb', beq_iff_bareFunction.2 (hsame.trans hexpected)⟩

end Bundle
end InductiveTerms
