import InductiveTerms.Term.Basic

/-!
One layer of a term. `children` lists the immediate subterms of a node, each with the number of
binders around it, and `mapChildren` replaces them; what is defined by recursion on terms is one of
the two, taken layer by layer, so that its laws follow from laws of a single layer.
-/
namespace InductiveTerms.Term

/-- The types of parameters, each with the number of binders around it. -/
def paramTypes : List (Param Term) → Nat → List (Term × Nat)
  | [], _ => []
  | p :: ps, d => (p.type, d) :: paramTypes ps (d + 1)

/-- The subterms right below a node under `d` binders, each with the number of binders around it. -/
def children : Term → Nat → List (Term × Nat)
  | .var .., _ => []
  | .global _, _ => []
  | .univ _, _ => []
  | .product ps r, d => paramTypes ps d ++ [(r, d + ps.length)]
  | .lambda ps b, d => paramTypes ps d ++ [(b, d + ps.length)]
  | .letIn _ v t b, d => [(v, d), (t, d), (b, d + 1)]
  | .apply f as, d => (f, d) :: as.toList.map fun a => (a, d)
  | .cast t _ ty, d => [(t, d), (ty, d)]
  | .caseOf p s bs, d => (p, d + 1) :: (s, d) :: bs.map fun b => (b.body, d + b.arity)
  | .fix _ b, d => b.functions.flatMap fun f =>
      paramTypes f.params (d + b.size) ++
        [(f.result, d + b.size + f.arity), (f.body, d + b.size + f.arity)]

def mapParamTypes (h : Term → Nat → Term) : List (Param Term) → Nat → List (Param Term)
  | [], _ => []
  | p :: ps, d => ⟨p.name, h p.type d⟩ :: mapParamTypes h ps (d + 1)

def mapFunction (h : Term → Nat → Term) (f : FixFunction Term) (d : Nat) : FixFunction Term :=
  ⟨f.name, mapParamTypes h f.params d, h f.result (d + f.arity), h f.body (d + f.arity)⟩

/-- The node under `d` binders with every immediate subterm replaced. -/
def mapChildren (h : Term → Nat → Term) : Term → Nat → Term
  | .var x i, _ => .var x i
  | .global x, _ => .global x
  | .univ u, _ => .univ u
  | .product ps r, d => .product (mapParamTypes h ps d) (h r (d + ps.length))
  | .lambda ps b, d => .lambda (mapParamTypes h ps d) (h b (d + ps.length))
  | .letIn x v t b, d => .letIn x (h v d) (h t d) (h b (d + 1))
  | .apply f as, d => .apply (h f d) (as.map (h · d))
  | .cast t k ty, d => .cast (h t d) k (h ty d)
  | .caseOf p s bs, d =>
      .caseOf (h p (d + 1)) (h s d)
        (bs.map fun b => ⟨b.constructor, b.arity, h b.body (d + b.arity)⟩)
  | .fix i b, d => .fix i ⟨b.label, b.functions.map (mapFunction h · (d + b.size))⟩

section Params
variable {h k : Term → Nat → Term}

@[simp] theorem length_mapParamTypes (ps : List (Param Term)) (d : Nat) :
    (mapParamTypes h ps d).length = ps.length := by
  induction ps generalizing d with
  | nil => rfl
  | cons p ps ih => simp [mapParamTypes, ih]

@[simp] theorem arity_mapFunction (f : FixFunction Term) (d : Nat) :
    (mapFunction h f d).arity = f.arity := length_mapParamTypes f.params d

theorem mapParamTypes_mapParamTypes (ps : List (Param Term)) (d : Nat) :
    mapParamTypes k (mapParamTypes h ps d) d = mapParamTypes (fun c e => k (h c e) e) ps d := by
  induction ps generalizing d with
  | nil => rfl
  | cons p ps ih => simp [mapParamTypes, ih]

theorem mapParamTypes_congr {ps : List (Param Term)} {d : Nat}
    (heq : ∀ c ∈ paramTypes ps d, h c.1 c.2 = k c.1 c.2) :
    mapParamTypes h ps d = mapParamTypes k ps d := by
  induction ps generalizing d with
  | nil => rfl
  | cons p ps ih =>
    simp only [paramTypes, List.forall_mem_cons] at heq
    simp only [mapParamTypes, heq.1, ih heq.2]

theorem paramTypes_mapParamTypes (ps : List (Param Term)) (d : Nat) :
    paramTypes (mapParamTypes h ps d) d = (paramTypes ps d).map fun c => (h c.1 c.2, c.2) := by
  induction ps generalizing d with
  | nil => rfl
  | cons p ps ih => simp [mapParamTypes, paramTypes, ih]

theorem mapParamTypes_append (ps qs : List (Param Term)) (d : Nat) :
    mapParamTypes h (ps ++ qs) d = mapParamTypes h ps d ++ mapParamTypes h qs (d + ps.length) := by
  induction ps generalizing d with
  | nil => rfl
  | cons p ps ih =>
    simp only [List.cons_append, mapParamTypes, ih, List.length_cons, Nat.add_assoc,
      Nat.add_comm 1]

theorem paramTypes_append (ps qs : List (Param Term)) (d : Nat) :
    paramTypes (ps ++ qs) d = paramTypes ps d ++ paramTypes qs (d + ps.length) := by
  induction ps generalizing d with
  | nil => rfl
  | cons p ps ih =>
    rw [List.cons_append, paramTypes, paramTypes, ih, List.length_cons, List.cons_append,
      Nat.add_right_comm, Nat.add_assoc]

theorem mapParamTypes_drop (ps : List (Param Term)) (d n : Nat) :
    (mapParamTypes h ps d).drop n = mapParamTypes h (ps.drop n) (d + n) := by
  induction ps generalizing d n with
  | nil => simp [mapParamTypes]
  | cons p ps ih =>
    cases n with
    | zero => rfl
    | succ n =>
      have hd : d + 1 + n = d + (n + 1) := by omega
      simp [mapParamTypes, ih, hd]

theorem mem_paramTypes_iff {ps : List (Param Term)} {d : Nat} {c : Term × Nat} :
    c ∈ paramTypes ps d ↔ ∃ n p, ps[n]? = some p ∧ c = (p.type, d + n) := by
  induction ps generalizing d with
  | nil => simp [paramTypes]
  | cons p ps ih =>
    simp only [paramTypes, List.mem_cons, ih]
    constructor
    · rintro (rfl | ⟨n, q, hq, rfl⟩)
      · exact ⟨0, p, rfl, rfl⟩
      · exact ⟨n + 1, q, hq, by rw [Nat.add_assoc, Nat.add_comm 1]⟩
    · rintro ⟨n, q, hq, rfl⟩
      cases n with
      | zero =>
        obtain rfl : p = q := by simpa using hq
        exact .inl rfl
      | succ n => exact .inr ⟨n, q, hq, by rw [Nat.add_assoc, Nat.add_comm 1]⟩

theorem mem_of_mem_paramTypes {ps : List (Param Term)} {d : Nat} {c : Term × Nat}
    (hc : c ∈ paramTypes ps d) : ∃ p ∈ ps, c.1 = p.type := by
  obtain ⟨n, p, hp, rfl⟩ := mem_paramTypes_iff.1 hc
  exact ⟨p, List.mem_of_getElem? hp, rfl⟩

theorem forall_types {P : Term → Prop} {ps : List (Param Term)} {d : Nat}
    (hall : ∀ c ∈ paramTypes ps d, P c.1) : ∀ p ∈ ps, P p.type := by
  intro p hp
  obtain ⟨n, hn⟩ := List.mem_iff_getElem?.1 hp
  exact hall _ (mem_paramTypes_iff.2 ⟨n, p, hn, rfl⟩)

end Params

section Layer
variable {h k : Term → Nat → Term}

theorem mapChildren_mapChildren (t : Term) (d : Nat) :
    (t.mapChildren h d).mapChildren k d = t.mapChildren (fun c e => k (h c e) e) d := by
  cases t <;>
    simp [mapChildren, mapFunction, mapParamTypes_mapParamTypes, Bundle.size, FixFunction.arity]

theorem mapChildren_congr {t : Term} {d : Nat}
    (heq : ∀ c ∈ t.children d, h c.1 c.2 = k c.1 c.2) : t.mapChildren h d = t.mapChildren k d := by
  cases t with
  | var x i => rfl
  | global x => rfl
  | univ u => rfl
  | product ps r | lambda ps r =>
    simp only [children, List.mem_append, or_imp, forall_and, List.mem_singleton,
      forall_eq] at heq
    simp only [mapChildren, mapParamTypes_congr heq.1, heq.2]
  | letIn x v t b => simp_all [children, mapChildren]
  | apply f as => simp_all [children, mapChildren]
  | cast t c ty => simp_all [children, mapChildren]
  | caseOf p s bs => simp_all [children, mapChildren]
  | fix i b =>
    simp only [children, List.mem_flatMap, forall_exists_index, and_imp] at heq
    simp only [mapChildren, Term.fix.injEq, Bundle.mk.injEq, true_and]
    refine List.map_congr_left fun f hf => ?_
    have hf' := fun c hc => heq c f hf hc
    simp only [List.mem_append, or_imp, forall_and, List.mem_cons, List.not_mem_nil, or_false,
      forall_eq] at hf'
    simp only [mapFunction, mapParamTypes_congr hf'.1, hf'.2.1, hf'.2.2]

theorem children_mapChildren (t : Term) (d : Nat) :
    (t.mapChildren h d).children d = (t.children d).map fun c => (h c.1 c.2, c.2) := by
  cases t <;>
    simp [mapChildren, children, paramTypes_mapParamTypes, mapFunction, List.map_flatMap,
      List.flatMap_map, Bundle.size, FixFunction.arity, Function.comp_def]

theorem mapParamTypes_add (ps : List (Param Term)) (d n : Nat) :
    mapParamTypes h ps (d + n) = mapParamTypes (fun c e => h c (e + n)) ps d := by
  induction ps generalizing d with
  | nil => rfl
  | cons p ps ih => simp only [mapParamTypes, ← ih, Nat.add_right_comm]

theorem paramTypes_add (ps : List (Param Term)) (d n : Nat) :
    paramTypes ps (d + n) = (paramTypes ps d).map fun c => (c.1, c.2 + n) := by
  induction ps generalizing d with
  | nil => rfl
  | cons p ps ih => simp only [paramTypes, List.map_cons, ← ih, Nat.add_right_comm]

theorem mapChildren_add (t : Term) (d n : Nat) :
    t.mapChildren h (d + n) = t.mapChildren (fun c e => h c (e + n)) d := by
  cases t <;>
    simp only [mapChildren, mapFunction, ← mapParamTypes_add, Nat.add_right_comm]

theorem children_add (t : Term) (d n : Nat) :
    t.children (d + n) = (t.children d).map fun c => (c.1, c.2 + n) := by
  cases t with
  | fix i b =>
    simp only [children, List.map_flatMap, List.map_append, ← paramTypes_add, List.map_cons,
      List.map_nil, Nat.add_right_comm]
  | _ => simp [children, paramTypes_add, Nat.add_right_comm]

/-- A map that takes no notice of depth may start at any. -/
theorem mapChildren_depth {g : Term → Term} (t : Term) (d e : Nat) :
    t.mapChildren (fun c _ => g c) d = t.mapChildren (fun c _ => g c) e := by
  have hps : ∀ (ps : List (Param Term)) (d e : Nat),
      mapParamTypes (fun c _ => g c) ps d = mapParamTypes (fun c _ => g c) ps e := by
    intro ps
    induction ps with
    | nil => intros; rfl
    | cons p ps ih => intro d e; simp only [mapParamTypes, ih (d + 1) (e + 1)]
  cases t with
  | product ps r | lambda ps r => simp only [mapChildren, hps ps d e]
  | fix i b => simp only [mapChildren, mapFunction, hps _ (d + b.size) (e + b.size)]
  | _ => rfl

theorem mapChildren_id (t : Term) (d : Nat) : t.mapChildren (fun c _ => c) d = t := by
  have hps : ∀ (ps : List (Param Term)) (d : Nat), mapParamTypes (fun c _ => c) ps d = ps := by
    intro ps
    induction ps with
    | nil => intros; rfl
    | cons p ps ih => intro d; simp only [mapParamTypes, ih]
  cases t <;> simp [mapChildren, mapFunction, hps]

@[simp] theorem asVar?_mapChildren (t : Term) (d : Nat) :
    (t.mapChildren h d).asVar? = t.asVar? := by
  cases t <;> rfl

@[simp] theorem kind_mapChildren (t : Term) (d : Nat) : (t.mapChildren h d).kind = t.kind := by
  cases t <;> rfl

theorem eq_var_or_asVar?_eq_none (t : Term) : (∃ x i, t = .var x i) ∨ t.asVar? = none := by
  cases t with
  | var x i => exact .inl ⟨x, i, rfl⟩
  | _ => exact .inr rfl

end Layer

theorem sizeOf_lt_of_mem_children {t : Term} {d : Nat} {c : Term × Nat} (hc : c ∈ t.children d) :
    sizeOf c.1 < sizeOf t := by
  have hps : ∀ {ps : List (Param Term)} {d : Nat} {c : Term × Nat}, c ∈ paramTypes ps d →
      sizeOf c.1 < sizeOf ps := by
    intro ps d c hc
    obtain ⟨p, hp, hcp⟩ := mem_of_mem_paramTypes hc
    have h₁ := List.sizeOf_lt_of_mem hp
    have h₂ : sizeOf p = 1 + sizeOf p.name + sizeOf p.type := by cases p; simp
    rw [hcp]
    omega
  cases t with
  | var x i | global x | univ u => simp [children] at hc
  | product ps r | lambda ps r =>
    simp only [children, List.mem_append, List.mem_singleton] at hc
    rcases hc with hc | rfl
    · have := hps hc
      simp only [Term.product.sizeOf_spec, Term.lambda.sizeOf_spec]
      omega
    · simp only [Term.product.sizeOf_spec, Term.lambda.sizeOf_spec]
      omega
  | letIn x v t b =>
    simp only [children, List.mem_cons, List.not_mem_nil, or_false] at hc
    rcases hc with rfl | rfl | rfl <;> simp only [Term.letIn.sizeOf_spec] <;> omega
  | apply f as =>
    simp only [children, List.mem_cons, List.mem_map] at hc
    rcases hc with rfl | ⟨a, ha, rfl⟩
    · simp only [Term.apply.sizeOf_spec]
      omega
    · have h₁ := List.sizeOf_lt_of_mem ha
      have h₂ : sizeOf as.toList = sizeOf as := by
        cases as; simp
      simp only [Term.apply.sizeOf_spec]
      omega
  | cast t k ty =>
    simp only [children, List.mem_cons, List.not_mem_nil, or_false] at hc
    rcases hc with rfl | rfl <;> simp only [Term.cast.sizeOf_spec] <;> omega
  | caseOf p s bs =>
    simp only [children, List.mem_cons, List.mem_map] at hc
    rcases hc with rfl | rfl | ⟨b, hb, rfl⟩
    · simp only [Term.caseOf.sizeOf_spec]
      omega
    · simp only [Term.caseOf.sizeOf_spec]
      omega
    · have h₁ := List.sizeOf_lt_of_mem hb
      have h₂ : sizeOf b = 1 + sizeOf b.constructor + sizeOf b.arity + sizeOf b.body := by
        cases b; simp
      simp only [Term.caseOf.sizeOf_spec]
      omega
  | fix i b =>
    obtain ⟨l, fs⟩ := b
    simp only [children, List.mem_flatMap, List.mem_append, List.mem_cons, List.not_mem_nil,
      or_false] at hc
    obtain ⟨f, hf, hc⟩ := hc
    have h₁ := List.sizeOf_lt_of_mem hf
    have h₂ : sizeOf f = 1 + sizeOf f.name + sizeOf f.params + sizeOf f.result + sizeOf f.body := by
      cases f; simp
    simp only [Term.fix.sizeOf_spec, Bundle.mk.sizeOf_spec]
    rcases hc with hc | rfl | rfl
    · have := hps hc
      omega
    · simp only
      omega
    · simp only
      omega

/-- What holds of a node whenever it holds of the nodes below it holds of every term. -/
theorem induct_children {P : Term → Prop}
    (node : ∀ t, (∀ d, ∀ c ∈ t.children d, P c.1) → P t) (t : Term) : P t :=
  node t fun _ c hc =>
    have := sizeOf_lt_of_mem_children hc
    induct_children node c.1
termination_by sizeOf t

end InductiveTerms.Term
