import InductiveTerms.Proofs.Display

/-!
Substitution on unbounded indices. `raise` moves the free variables of a term past binders, and
`bind` puts a term for each of them, all at once. Both are replacements of variables; raising is
binding to variables (`raise_eq_bind`) and two bindings are one (`bind_bind`).
-/
namespace InductiveTerms.Term

/-- What raising by `n` puts for a variable. -/
def raiseVar (n i d : Nat) : Term := .var "" (if i < d then i else i + n)

/-- The term as it reads under `n` more binders. -/
def raise (t : Term) (n : Nat) : Term := mapVars (raiseVar n) t 0

/-- What binding puts for a variable. -/
def bindVar (σ : Nat → Term) (i d : Nat) : Term :=
  if i < d then .var "" i else (σ (i - d)).raise d

/-- The term with `σ j` for the free variable `j`, for every `j`. -/
def bind (t : Term) (σ : Nat → Term) : Term := mapVars (bindVar σ) t 0

/-- The same binding under `n` more binders, whose variables stay. -/
def lift (n : Nat) (σ : Nat → Term) (j : Nat) : Term :=
  if j < n then .var "" j else (σ (j - n)).raise n

/-- Binds the first variables to the terms listed and moves the ones after them down. -/
def instantiation (subs : List Term) (j : Nat) : Term :=
  subs[j]?.getD (.var "" (j - subs.length))

section Raise
variable {σ τ : Nat → Term}

theorem raiseVar_of_lt {n i d : Nat} (h : i < d) : raiseVar n i d = .var "" i := by
  rw [raiseVar, if_pos h]

theorem raiseVar_of_le {n i d : Nat} (h : d ≤ i) : raiseVar n i d = .var "" (i + n) := by
  rw [raiseVar, if_neg (Nat.not_lt.2 h)]

theorem bindVar_of_lt {i d : Nat} (h : i < d) : bindVar σ i d = .var "" i := if_pos h

theorem bindVar_of_le {i d : Nat} (h : d ≤ i) : bindVar σ i d = (σ (i - d)).raise d :=
  if_neg (Nat.not_lt.2 h)

theorem lift_of_lt {n j : Nat} (h : j < n) : lift n σ j = .var "" j := if_pos h

theorem lift_of_le {n j : Nat} (h : n ≤ j) : lift n σ j = (σ (j - n)).raise n :=
  if_neg (Nat.not_lt.2 h)

@[simp] theorem raise_var (x : String) (i n : Nat) : (Term.var x i).raise n = .var "" (i + n) :=
  raiseVar_of_le (Nat.zero_le i)

/-- A replacement under `n` binders is one under none that counts from there. -/
theorem mapVars_from (f : Nat → Nat → Term) (t : Term) (n : Nat) :
    mapVars f t n = mapVars (fun i e => f i (e + n)) t 0 := by
  have h := mapVars_add (f := f) n t 0
  rwa [Nat.zero_add] at h

theorem mapVars_raiseVar_raise (t : Term) (n e : Nat) :
    mapVars (raiseVar n) (t.raise e) e = t.raise (e + n) := by
  rw [mapVars_from, raise, raise, mapVars_mapVars]
  refine mapVars_congr t fun o _ => ?_
  obtain ⟨i, d⟩ := o
  rcases Nat.lt_or_ge i d with h | h
  · simp only [raiseVar_of_lt h, mapVars_var]
    exact raiseVar_of_lt (by omega)
  · simp only [raiseVar_of_le h, mapVars_var]
    rw [raiseVar_of_le (by omega), Nat.add_assoc]

theorem raise_raise (t : Term) (n k : Nat) : (t.raise n).raise k = t.raise (n + k) := by
  rw [raise, raise, raise, mapVars_mapVars]
  refine mapVars_congr t fun o _ => ?_
  obtain ⟨i, d⟩ := o
  rcases Nat.lt_or_ge i d with h | h
  · simp only [raiseVar_of_lt h, mapVars_var]
  · simp only [raiseVar_of_le h, mapVars_var]
    rw [raiseVar_of_le (by omega), Nat.add_assoc]

/-- What is bound under `n` binders is bound by the lifted binding. -/
theorem mapVars_bindVar (t : Term) (n : Nat) : mapVars (bindVar σ) t n = t.bind (lift n σ) := by
  rw [mapVars_from, bind]
  refine mapVars_congr t fun o _ => ?_
  obtain ⟨i, d⟩ := o
  rcases Nat.lt_or_ge i d with h | h
  · rw [bindVar_of_lt h, bindVar_of_lt (by omega)]
  · rw [bindVar_of_le h]
    rcases Nat.lt_or_ge i (d + n) with h' | h'
    · rw [bindVar_of_lt h', lift_of_lt (by omega), raise_var, Nat.sub_add_cancel h]
    · rw [bindVar_of_le h', lift_of_le (by omega), raise_raise, Nat.add_comm n d, Nat.sub_sub]

theorem mapVars_bindVar_raise (t : Term) (n : Nat) :
    mapVars (bindVar σ) (t.raise n) n = (t.bind σ).raise n := by
  rw [mapVars_from, raise, raise, bind, mapVars_mapVars, mapVars_mapVars]
  refine mapVars_congr t fun o _ => ?_
  obtain ⟨i, d⟩ := o
  rcases Nat.lt_or_ge i d with h | h
  · simp only [raiseVar_of_lt h, bindVar_of_lt h, mapVars_var]
    exact bindVar_of_lt (by omega)
  · simp only [raiseVar_of_le h, bindVar_of_le h, mapVars_var, mapVars_raiseVar_raise]
    rw [bindVar_of_le (by omega), Nat.add_sub_add_right]

theorem raise_bind (t : Term) (n : Nat) : (t.raise n).bind (lift n σ) = (t.bind σ).raise n := by
  rw [← mapVars_bindVar, mapVars_bindVar_raise]

theorem bind_bind (t : Term) : (t.bind σ).bind τ = t.bind fun j => (σ j).bind τ := by
  rw [bind, bind, bind, mapVars_mapVars]
  refine mapVars_congr t fun o _ => ?_
  obtain ⟨i, d⟩ := o
  rcases Nat.lt_or_ge i d with h | h
  · simp only [bindVar_of_lt h, mapVars_var]
  · simp only [bindVar_of_le h, mapVars_bindVar_raise, bind]

theorem raise_eq_bind (t : Term) (n : Nat) : t.raise n = t.bind fun j => .var "" (j + n) := by
  rw [raise, bind]
  refine mapVars_congr t fun o _ => ?_
  obtain ⟨i, d⟩ := o
  rcases Nat.lt_or_ge i d with h | h
  · rw [raiseVar_of_lt h, bindVar_of_lt h]
  · rw [raiseVar_of_le h, bindVar_of_le h, raise_var, Nat.add_right_comm, Nat.sub_add_cancel h]

theorem raise_zero (t : Term) : t.bare.raise 0 = t.bare :=
  mapVars_self t 0 fun o _ => by simp only [raiseVar, Nat.add_zero, ite_self]

/-- Only what is bound to the free variables matters, and of it not the names of variables. -/
theorem bind_congr {t : Term}
    (h : ∀ o ∈ t.occurrences 0, o.2 ≤ o.1 →
      (σ (o.1 - o.2)).raise 0 = (τ (o.1 - o.2)).raise 0) : t.bind σ = t.bind τ := by
  refine mapVars_congr t fun o ho => ?_
  rcases Nat.lt_or_ge o.1 o.2 with hlt | hle
  · rw [bindVar_of_lt hlt, bindVar_of_lt hlt]
  · have hraise : ∀ u : Term, u.raise o.2 = (u.raise 0).raise o.2 := by
      intro u
      rw [raise_raise, Nat.zero_add]
    rw [bindVar_of_le hle, bindVar_of_le hle, hraise, h o ho hle, ← hraise]

theorem bind_congr_raise {t : Term} (h : ∀ j, (σ j).raise 0 = (τ j).raise 0) :
    t.bind σ = t.bind τ := bind_congr fun _ _ _ => h _

@[simp] theorem bind_var (x : String) (i : Nat) : (Term.var x i).bind σ = (σ i).raise 0 := rfl

/-- A node is bound by binding its children, each under the binders around it. -/
theorem bind_eq {t : Term} (ht : t.asVar? = none) :
    t.bind σ = t.mapChildren (fun c e => c.bind (lift e σ)) 0 := by
  rw [bind, mapVars_eq ht]
  exact mapChildren_congr fun c _ => mapVars_bindVar c.1 c.2

theorem bind_lift_zero (t : Term) : t.bind (lift 0 σ) = t.bind σ :=
  bind_congr_raise fun j => by rw [lift_of_le (Nat.zero_le j), raise_raise, Nat.sub_zero]

theorem lift_lift (n k : Nat) : lift k (lift n σ) = lift (k + n) σ := by
  funext j
  rcases Nat.lt_or_ge j k with h | h
  · rw [lift_of_lt h, lift_of_lt (by omega)]
  · rw [lift_of_le h]
    rcases Nat.lt_or_ge j (k + n) with h' | h'
    · rw [lift_of_lt (by omega), lift_of_lt h', raise_var, Nat.sub_add_cancel h]
    · rw [lift_of_le (by omega), lift_of_le h', raise_raise, Nat.sub_sub, Nat.add_comm n k]

end Raise

/-! The nodes of a term that is bound. -/

section Nodes
variable (σ : Nat → Term)

/-- Parameters with their types bound, each under the parameters before it. -/
def bindParams (ps : List (Param Term)) : List (Param Term) :=
  mapParamTypes (fun c e => c.bind (lift e σ)) ps 0

@[simp] theorem length_bindParams (ps : List (Param Term)) :
    (bindParams σ ps).length = ps.length := length_mapParamTypes ps 0

theorem bindParams_drop (ps : List (Param Term)) (n : Nat) :
    (bindParams σ ps).drop n = bindParams (lift n σ) (ps.drop n) := by
  rw [bindParams, bindParams, mapParamTypes_drop, mapParamTypes_add]
  simp only [lift_lift]

theorem bindParams_append (ps qs : List (Param Term)) :
    bindParams σ (ps ++ qs) = bindParams σ ps ++ bindParams (lift ps.length σ) qs := by
  rw [bindParams, bindParams, bindParams, mapParamTypes_append, mapParamTypes_add]
  simp only [lift_lift]

theorem bindParams_cons (p : Param Term) (ps : List (Param Term)) :
    bindParams σ (p :: ps) = ⟨p.name, p.type.bind σ⟩ :: bindParams (lift 1 σ) ps := by
  have happend := bindParams_append σ [p] ps
  simp only [List.cons_append, List.nil_append, List.length_singleton] at happend
  rw [happend, bindParams, mapParamTypes, mapParamTypes, bind_lift_zero, List.cons_append,
    List.nil_append]

theorem bindParams_names (ps : List (Param Term)) :
    (bindParams σ ps).map (·.name) = ps.map (·.name) := by
  induction ps generalizing σ with
  | nil => rfl
  | cons x ps ih => rw [bindParams_cons, List.map_cons, List.map_cons, ih]

theorem getElem?_bindParams (ps : List (Param Term)) (k : Nat) :
    (bindParams σ ps)[k]? = ps[k]?.map fun x => ⟨x.name, x.type.bind (lift k σ)⟩ := by
  rw [← List.head?_drop, bindParams_drop, ← List.head?_drop]
  cases ps.drop k with
  | nil => rfl
  | cons x ps => rw [bindParams_cons, List.head?_cons, List.head?_cons, Option.map_some]

theorem bind_global (x : String) : (Term.global x).bind σ = .global x := rfl

theorem bind_univ (u : Universe) : (Term.univ u).bind σ = .univ u := rfl

theorem bind_product (ps : List (Param Term)) (r : Term) :
    (Term.product ps r).bind σ = .product (bindParams σ ps) (r.bind (lift ps.length σ)) := by
  rw [bind_eq rfl]
  simp only [mapChildren, bindParams, Nat.zero_add]

theorem bind_lambda (ps : List (Param Term)) (b : Term) :
    (Term.lambda ps b).bind σ = .lambda (bindParams σ ps) (b.bind (lift ps.length σ)) := by
  rw [bind_eq rfl]
  simp only [mapChildren, bindParams, Nat.zero_add]

theorem bind_letIn (x : Option String) (v t b : Term) :
    (Term.letIn x v t b).bind σ = .letIn x (v.bind σ) (t.bind σ) (b.bind (lift 1 σ)) := by
  rw [bind_eq rfl]
  simp only [mapChildren, bind_lift_zero, Nat.zero_add]

theorem bind_apply (f : Term) (as : Arguments Term) :
    (Term.apply f as).bind σ = .apply (f.bind σ) (as.map (·.bind σ)) := by
  rw [bind_eq rfl]
  simp only [mapChildren, bind_lift_zero]

theorem bind_cast (t : Term) (k : CastKind) (ty : Term) :
    (Term.cast t k ty).bind σ = .cast (t.bind σ) k (ty.bind σ) := by
  rw [bind_eq rfl]
  simp only [mapChildren, bind_lift_zero]

theorem bind_caseOf (p s : Term) (bs : List (Branch Term)) :
    (Term.caseOf p s bs).bind σ = .caseOf (p.bind (lift 1 σ)) (s.bind σ)
      (bs.map fun b => ⟨b.constructor, b.arity, b.body.bind (lift b.arity σ)⟩) := by
  rw [bind_eq rfl]
  simp only [mapChildren, bind_lift_zero, Nat.zero_add]

theorem bind_lambdaOver (ps : List (Param Term)) (b : Term) :
    (lambdaOver ps b).bind σ = lambdaOver (bindParams σ ps) (b.bind (lift ps.length σ)) := by
  cases ps with
  | nil => exact (bind_lift_zero b).symm
  | cons p ps => exact bind_lambda σ (p :: ps) b

theorem bind_productOver (ps : List (Param Term)) (r : Term) :
    (productOver ps r).bind σ = productOver (bindParams σ ps) (r.bind (lift ps.length σ)) := by
  cases ps with
  | nil => exact (bind_lift_zero r).symm
  | cons p ps => exact bind_product σ (p :: ps) r

theorem bind_fix (i : Nat) (b : Bundle Term) :
    (Term.fix i b).bind σ = .fix i ⟨b.label, b.functions.map fun f =>
      ⟨f.name, bindParams (lift b.size σ) f.params, f.result.bind (lift (f.arity + b.size) σ),
        f.body.bind (lift (f.arity + b.size) σ)⟩⟩ := by
  rw [bind_eq rfl]
  simp only [mapChildren, bindParams, mapFunction, Nat.zero_add, lift_lift, Nat.add_comm b.size]
  have hzero : ∀ ps : List (Param Term), mapParamTypes
      (fun c e => c.bind (lift e σ)) ps b.size = mapParamTypes
        (fun c e => c.bind (lift (e + b.size) σ)) ps 0 := by
    intro ps
    have hadd := mapParamTypes_add (h := fun c e => c.bind (lift e σ)) ps 0 b.size
    rwa [Nat.zero_add] at hadd
  simp only [hzero]

theorem bind_applyTo (f : Term) (as : List Term) :
    (f.applyTo as).bind σ = (f.bind σ).applyTo (as.map (·.bind σ)) := by
  cases as with
  | nil => rfl
  | cons a as => exact bind_apply σ f ⟨a, as⟩

end Nodes

section Instantiation
variable {σ : Nat → Term}

theorem instantiation_of_lt {subs : List Term} {j : Nat} (h : j < subs.length) :
    instantiation subs j = subs[j] := by
  rw [instantiation, List.getElem?_eq_getElem h, Option.getD_some]

theorem instantiation_of_le {subs : List Term} {j : Nat} (h : subs.length ≤ j) :
    instantiation subs j = .var "" (j - subs.length) := by
  rw [instantiation, List.getElem?_eq_none h, Option.getD_none]

/-- What was raised past the variables that are instantiated does not notice. -/
theorem raise_bind_instantiation (t : Term) (subs : List Term) :
    (t.raise subs.length).bind (instantiation subs) = t.raise 0 := by
  rw [raise_eq_bind, bind_bind, raise_eq_bind]
  refine bind_congr_raise fun j => ?_
  rw [bind_var, instantiation_of_le (Nat.le_add_left _ _), Nat.add_sub_cancel]
  simp only [raise_var, Nat.add_zero]

/-- Binding after instantiation is instantiation with what is bound, after binding under it. -/
theorem bind_instantiation (t : Term) (subs : List Term) :
    (t.bind (instantiation subs)).bind σ =
      (t.bind (lift subs.length σ)).bind (instantiation (subs.map (·.bind σ))) := by
  rw [bind_bind, bind_bind]
  refine bind_congr_raise fun j => ?_
  rcases Nat.lt_or_ge j subs.length with h | h
  · rw [instantiation_of_lt h, lift_of_lt h, bind_var,
      instantiation_of_lt (by rwa [List.length_map]), List.getElem_map, raise_raise]
  · rw [instantiation_of_le h, lift_of_le h, bind_var]
    have hraise := raise_bind_instantiation (σ (j - subs.length)) (subs.map (·.bind σ))
    rw [List.length_map] at hraise
    rw [hraise]

/-- Binds the first variables to the terms listed and the ones after them as `σ` does. -/
def extend (subs : List Term) (σ : Nat → Term) (j : Nat) : Term :=
  if h : j < subs.length then subs[j] else σ (j - subs.length)

theorem extend_of_lt {subs : List Term} {j : Nat} (h : j < subs.length) :
    extend subs σ j = subs[j] := dif_pos h

theorem extend_of_le {subs : List Term} {j : Nat} (h : subs.length ≤ j) :
    extend subs σ j = σ (j - subs.length) := dif_neg (Nat.not_lt.2 h)

theorem bind_lift_instantiation (t : Term) (subs : List Term) :
    (t.bind (lift subs.length σ)).bind (instantiation subs) = t.bind (extend subs σ) := by
  rw [bind_bind]
  refine bind_congr_raise fun j => ?_
  rcases Nat.lt_or_ge j subs.length with h | h
  · rw [lift_of_lt h, extend_of_lt h, bind_var, instantiation_of_lt h, raise_raise]
  · rw [lift_of_le h, extend_of_le h, raise_bind_instantiation, raise_raise]

end Instantiation

theorem bare_raise (t : Term) (n : Nat) : (t.raise n).bare = t.bare.raise n := bare_mapVars t 0

theorem bare_bind (t : Term) (σ : Nat → Term) :
    (t.bind σ).bare = t.bare.bind fun j => (σ j).bare := by
  rw [bind, bare_mapVars]
  refine mapVars_congr t.bare fun o _ => ?_
  unfold bindVar
  split
  · rfl
  · exact bare_raise _ _

theorem bare_instantiation (subs : List Term) (j : Nat) :
    (instantiation subs j).bare = instantiation (subs.map bare) j := by
  simp only [instantiation, List.getElem?_map, List.length_map]
  cases subs[j]? <;> rfl

end InductiveTerms.Term
