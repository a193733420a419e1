import InductiveTerms.Proofs.Traversal
import InductiveTerms.Term.Equality

/-!
Terms without display. `bare` erases the names of variables, binders and bundle functions and the
labels of bundles; two terms are equal up to display when they are the same without it
(`same_iff_bare_eq`).
-/
namespace InductiveTerms.Term

def unnamedParam (p : Param Term) : Param Term := ⟨none, p.type⟩

/-- Erases the display of a node and leaves the nodes below as they are. -/
def bareNode : Term → Term
  | .var _ i => .var "" i
  | .global x => .global x
  | .univ u => .univ u
  | .product ps r => .product (ps.map unnamedParam) r
  | .lambda ps b => .lambda (ps.map unnamedParam) b
  | .letIn _ v t b => .letIn none v t b
  | .apply f as => .apply f as
  | .cast t k ty => .cast t k ty
  | .caseOf p s bs => .caseOf p s bs
  | .fix i b =>
      .fix i ⟨none, b.functions.map fun f => ⟨"", f.params.map unnamedParam, f.result, f.body⟩⟩

/-- The term without names and labels. -/
def bare (t : Term) : Term := everywhere (fun u _ => u.bareNode) t 0

theorem bare_eq (t : Term) (d : Nat) : t.bare = (t.mapChildren (fun c _ => c.bare) d).bareNode := by
  have hdepth : t.mapChildren (everywhere fun u _ => u.bareNode) d =
      t.mapChildren (fun c _ => c.bare) d :=
    mapChildren_congr fun c _ => everywhere_depth bareNode c.1 c.2 0
  rw [bare, everywhere_depth bareNode t 0 d, everywhere_eq, hdepth]

section Node
variable {h : Term → Nat → Term}

theorem map_unnamedParam_mapParamTypes (ps : List (Param Term)) (d : Nat) :
    (mapParamTypes h ps d).map unnamedParam = mapParamTypes h (ps.map unnamedParam) d := by
  induction ps generalizing d with
  | nil => rfl
  | cons p ps ih => simp only [mapParamTypes, List.map_cons, ih, unnamedParam]

theorem bareNode_mapChildren (t : Term) (d : Nat) :
    (t.mapChildren h d).bareNode = t.bareNode.mapChildren h d := by
  cases t <;>
    simp [mapChildren, bareNode, mapFunction, map_unnamedParam_mapParamTypes, Bundle.size,
      FixFunction.arity]

theorem asVar?_bareNode_eq_none {t : Term} (ht : t.asVar? = none) : t.bareNode.asVar? = none := by
  cases t <;> first | rfl | simp [asVar?] at ht

theorem bareNode_bareNode (t : Term) : t.bareNode.bareNode = t.bareNode := by
  cases t <;> simp [bareNode, unnamedParam, Function.comp_def]

end Node

theorem asVar?_bare_eq_none {t : Term} (ht : t.asVar? = none) : t.bare.asVar? = none := by
  rw [bare_eq t 0]
  exact asVar?_bareNode_eq_none (by rw [asVar?_mapChildren, ht])

@[simp] theorem bare_var (x : String) (i : Nat) : (Term.var x i).bare = .var "" i := rfl

@[simp] theorem bare_bare (t : Term) : t.bare.bare = t.bare := by
  induction t using induct_children with
  | node t ih =>
    have hcs : t.mapChildren (fun c _ => c.bare.bare) 0 = t.mapChildren (fun c _ => c.bare) 0 :=
      mapChildren_congr fun c hc => ih 0 c hc
    rw [bare_eq t.bare 0, bare_eq t 0, ← bareNode_mapChildren, mapChildren_mapChildren, hcs,
      bareNode_bareNode]

theorem bareNode_congr_of_children {t : Term} {d : Nat} {h k : Term → Nat → Term}
    (heq : ∀ c ∈ t.children d, h c.1 c.2 = k c.1 c.2) :
    (t.mapChildren h d).bareNode = (t.mapChildren k d).bareNode := by
  rw [mapChildren_congr heq]

/-- A replacement of variables and the erasure of display may change places. -/
theorem bare_mapVars {f : Nat → Nat → Term} (t : Term) :
    ∀ d, (mapVars f t d).bare = mapVars (fun i e => (f i e).bare) t.bare d := by
  induction t using induct_children with
  | node t ih =>
    intro d
    rcases t.eq_var_or_asVar?_eq_none with ⟨x, i, rfl⟩ | ht
    · rfl
    · rw [mapVars_eq (asVar?_bare_eq_none ht), mapVars_eq ht, bare_eq t d, ← bareNode_mapChildren,
        mapChildren_mapChildren, bare_eq _ d, mapChildren_mapChildren]
      exact bareNode_congr_of_children fun c hc => ih d c hc c.2

theorem children_bareNode (t : Term) (d : Nat) : t.bareNode.children d = t.children d := by
  have hps : ∀ (ps : List (Param Term)) (d : Nat),
      paramTypes (ps.map unnamedParam) d = paramTypes ps d := by
    intro ps
    induction ps with
    | nil => intros; rfl
    | cons p ps ih => intro d; simp only [List.map_cons, paramTypes, ih, unnamedParam]
  cases t <;>
    simp [bareNode, children, hps, List.flatMap_map, Bundle.size, FixFunction.arity]

@[simp] theorem occurrences_bare (t : Term) : ∀ d, t.bare.occurrences d = t.occurrences d := by
  induction t using induct_children with
  | node t ih =>
    intro d
    rcases t.eq_var_or_asVar?_eq_none with ⟨x, i, rfl⟩ | ht
    · rfl
    · rw [occurrences_eq (asVar?_bare_eq_none ht), occurrences_eq ht, bare_eq t d,
        children_bareNode, children_mapChildren, List.flatMap_map]
      exact List.flatMap_congr fun c hc => ih d c hc c.2

/-- Replacing every variable of a bare term by itself changes nothing. -/
theorem mapVars_self {f : Nat → Nat → Term} (t : Term) :
    ∀ d, (∀ o ∈ t.occurrences d, f o.1 o.2 = .var "" o.1) → mapVars f t.bare d = t.bare := by
  induction t using induct_children with
  | node t ih =>
    intro d hf
    rcases t.eq_var_or_asVar?_eq_none with ⟨x, i, rfl⟩ | ht
    · exact hf (i, d) (List.mem_singleton.2 rfl)
    · rw [mapVars_eq (asVar?_bare_eq_none ht), bare_eq t d, ← bareNode_mapChildren,
        mapChildren_mapChildren]
      exact bareNode_congr_of_children fun c hc =>
        ih d c hc c.2 fun o ho => hf o ((mem_occurrences_iff ht).2 ⟨c, hc, ho⟩)

theorem mapParamTypes_const (g : Term → Term) (ps : List (Param Term)) (d : Nat) :
    mapParamTypes (fun c _ => g c) ps d = ps.map fun p => ⟨p.name, g p.type⟩ := by
  induction ps generalizing d with
  | nil => rfl
  | cons p ps ih => simp only [mapParamTypes, List.map_cons, ih]

def bareParam (p : Param Term) : Param Term := ⟨none, p.type.bare⟩

def bareBranch (b : Branch Term) : Branch Term := ⟨b.constructor, b.arity, b.body.bare⟩

def bareFunction (f : FixFunction Term) : FixFunction Term :=
  ⟨"", f.params.map bareParam, f.result.bare, f.body.bare⟩

section Equations

@[simp] theorem bare_global (x : String) : (Term.global x).bare = .global x := rfl

@[simp] theorem bare_univ (u : Universe) : (Term.univ u).bare = .univ u := rfl

@[simp] theorem bare_product (ps : List (Param Term)) (r : Term) :
    (Term.product ps r).bare = .product (ps.map bareParam) r.bare := by
  rw [bare_eq _ 0]
  simp [mapChildren, mapParamTypes_const, bareNode, unnamedParam, bareParam, Function.comp_def]

@[simp] theorem bare_lambda (ps : List (Param Term)) (b : Term) :
    (Term.lambda ps b).bare = .lambda (ps.map bareParam) b.bare := by
  rw [bare_eq _ 0]
  simp [mapChildren, mapParamTypes_const, bareNode, unnamedParam, bareParam, Function.comp_def]

@[simp] theorem bare_letIn (x : Option String) (v t b : Term) :
    (Term.letIn x v t b).bare = .letIn none v.bare t.bare b.bare := bare_eq _ 0

@[simp] theorem bare_apply (f : Term) (as : Arguments Term) :
    (Term.apply f as).bare = .apply f.bare (as.map bare) := bare_eq _ 0

@[simp] theorem bare_cast (t : Term) (k : CastKind) (ty : Term) :
    (Term.cast t k ty).bare = .cast t.bare k ty.bare := bare_eq _ 0

@[simp] theorem bare_caseOf (p s : Term) (bs : List (Branch Term)) :
    (Term.caseOf p s bs).bare = .caseOf p.bare s.bare (bs.map bareBranch) := bare_eq _ 0

@[simp] theorem bare_fix (i : Nat) (b : Bundle Term) :
    (Term.fix i b).bare = .fix i ⟨none, b.functions.map bareFunction⟩ := by
  rw [bare_eq _ 0]
  simp [mapChildren, mapFunction, mapParamTypes_const, bareNode, unnamedParam, bareParam,
    bareFunction, Function.comp_def]

end Equations

section Rebuilt
variable {h : Term → Nat → Term}

theorem RebuiltParams.bare_eq {ps ps' : List (Param Term)} {d : Nat}
    (hps : RebuiltParams (fun c e u => u.bare = h c e) ps d ps') :
    ps'.map bareParam = (mapParamTypes h ps d).map unnamedParam := by
  induction hps with
  | nil => rfl
  | cons ht _ ih => simp only [List.map_cons, mapParamTypes, ih, bareParam, ht, unnamedParam]

/-- A node rebuilt from children that are known up to display is known up to display. -/
theorem Rebuilt.bare_eq {t u : Term} {d : Nat} (hu : Rebuilt (fun c e u => u.bare = h c e) t d u) :
    u.bare = (t.mapChildren h d).bareNode := by
  cases hu with
  | var => rfl
  | global => rfl
  | univ => rfl
  | product hps hr => simp only [bare_product, mapChildren, bareNode, hps.bare_eq, hr]
  | lambda hps hb => simp only [bare_lambda, mapChildren, bareNode, hps.bare_eq, hb]
  | letIn hv ht hb => simp only [bare_letIn, mapChildren, bareNode, hv, ht, hb]
  | cast ht hty => simp only [bare_cast, mapChildren, bareNode, ht, hty]
  | apply hf has =>
    have hargs : ∀ {as as' : List Term}, List.Forall₂ (fun a a' : Term => a'.bare = h a d) as as' →
        as'.map bare = as.map (h · d) := by
      intro as as' has
      induction has with
      | nil => rfl
      | cons ha _ ih => simp only [List.map_cons, ha, ih]
    simp only [bare_apply, mapChildren, bareNode, hf, Arguments.map_eq_map_iff.2 (hargs has)]
  | caseOf hp hs hbs =>
    have hbranches : ∀ {bs bs' : List (Branch Term)},
        List.Forall₂ (RebuiltBranch (fun c e u => u.bare = h c e) d) bs bs' →
          bs'.map bareBranch =
            bs.map fun b => ⟨b.constructor, b.arity, h b.body (d + b.arity)⟩ := by
      intro bs bs' hbs
      induction hbs with
      | nil => rfl
      | cons hb _ ih =>
        simp only [List.map_cons, ih, bareBranch, hb.constructor, hb.arity, hb.body]
    simp only [bare_caseOf, mapChildren, bareNode, hp, hs, hbranches hbs]
  | @fix i _ l l' fs fs' hfs =>
    have hfunctions : ∀ {e : Nat} {fs fs' : List (FixFunction Term)},
        List.Forall₂ (RebuiltFunction (fun c e u => u.bare = h c e) · e ·) fs fs' →
          fs'.map bareFunction = fs.map fun f =>
            ⟨"", (mapParamTypes h f.params e).map unnamedParam, h f.result (e + f.arity),
              h f.body (e + f.arity)⟩ := by
      intro e fs fs' hfs
      induction hfs with
      | nil => rfl
      | cons hf _ ih =>
        simp only [List.map_cons, ih, bareFunction, hf.params.bare_eq, hf.result, hf.body]
    simp [mapChildren, bareNode, mapFunction, Bundle.size, hfunctions hfs, Function.comp_def]

end Rebuilt

section Same

theorem sameParams_iff {ps : List (Param Term)}
    (ih : ∀ p ∈ ps, ∀ u, p.type.same u = true ↔ p.type.bare = u.bare) (qs : List (Param Term)) :
    sameParams ps qs = true ↔ ps.map bareParam = qs.map bareParam := by
  induction ps generalizing qs with
  | nil => cases qs <;> simp [sameParams]
  | cons p ps ihps =>
    simp only [List.forall_mem_cons] at ih
    cases qs with
    | nil => simp [sameParams]
    | cons q qs => simp [sameParams, ih.1, ihps ih.2, bareParam]

theorem sameTerms_iff {ts : List Term}
    (ih : ∀ t ∈ ts, ∀ u, t.same u = true ↔ t.bare = u.bare) (us : List Term) :
    sameTerms ts us = true ↔ ts.map bare = us.map bare := by
  induction ts generalizing us with
  | nil => cases us <;> simp [sameTerms]
  | cons t ts ihts =>
    simp only [List.forall_mem_cons] at ih
    cases us with
    | nil => simp [sameTerms]
    | cons u us => simp [sameTerms, ih.1, ihts ih.2]

theorem sameBranches_iff {bs : List (Branch Term)}
    (ih : ∀ b ∈ bs, ∀ u, b.body.same u = true ↔ b.body.bare = u.bare) (cs : List (Branch Term)) :
    sameBranches bs cs = true ↔ bs.map bareBranch = cs.map bareBranch := by
  induction bs generalizing cs with
  | nil => cases cs <;> simp [sameBranches]
  | cons b bs ihbs =>
    simp only [List.forall_mem_cons] at ih
    cases cs with
    | nil => simp [sameBranches]
    | cons c cs => simp [sameBranches, ih.1, ihbs ih.2, bareBranch, and_assoc]

theorem sameFunctions_iff {fs : List (FixFunction Term)}
    (ih : ∀ f ∈ fs, (∀ p ∈ f.params, ∀ u, p.type.same u = true ↔ p.type.bare = u.bare) ∧
      (∀ u, f.result.same u = true ↔ f.result.bare = u.bare) ∧
      ∀ u, f.body.same u = true ↔ f.body.bare = u.bare) (gs : List (FixFunction Term)) :
    sameFunctions fs gs = true ↔ fs.map bareFunction = gs.map bareFunction := by
  induction fs generalizing gs with
  | nil => cases gs <;> simp [sameFunctions]
  | cons f fs ihfs =>
    simp only [List.forall_mem_cons] at ih
    cases gs with
    | nil => simp [sameFunctions]
    | cons g gs =>
      simp [sameFunctions, sameParams_iff ih.1.1, ih.1.2.1, ih.1.2.2, ihfs ih.2, bareFunction,
        and_assoc]

theorem sameTypes_iff {ps : List (Param Term)} {d : Nat}
    (h : ∀ c ∈ paramTypes ps d, ∀ u, c.1.same u = true ↔ c.1.bare = u.bare) :
    ∀ p ∈ ps, ∀ u, p.type.same u = true ↔ p.type.bare = u.bare :=
  forall_types (P := fun t => ∀ u, t.same u = true ↔ t.bare = u.bare) h

/-- Two terms are equal up to display exactly when they are the same without it. -/
theorem same_iff_bare_eq (t : Term) : ∀ u, t.same u = true ↔ t.bare = u.bare := by
  induction t using induct_children with
  | node t ih =>
    intro u
    replace ih := ih 0
    cases t with
    | var x i => cases u <;> simp [same]
    | global x => cases u <;> simp [same]
    | univ v => cases u <;> simp [same]
    | product ps r =>
      simp only [children, List.forall_mem_append, List.forall_mem_singleton] at ih
      have hps := sameTypes_iff ih.1
      cases u <;> simp [same, sameParams_iff hps, ih.2]
    | lambda ps b =>
      simp only [children, List.forall_mem_append, List.forall_mem_singleton] at ih
      have hps := sameTypes_iff ih.1
      cases u <;> simp [same, sameParams_iff hps, ih.2]
    | letIn x v t b =>
      simp only [children, List.forall_mem_cons] at ih
      cases u <;> simp [same, ih.1, ih.2.1, ih.2.2.1, and_assoc]
    | apply f as =>
      obtain ⟨a, as⟩ := as
      simp only [children, Arguments.toList_mk, List.forall_mem_cons, List.forall_mem_map] at ih
      cases u <;> simp [same, ih.1, ih.2.1, sameTerms_iff ih.2.2, Arguments.map, and_assoc]
    | cast t k ty =>
      simp only [children, List.forall_mem_cons] at ih
      cases u <;> simp [same, ih.1, ih.2.1, and_assoc, and_left_comm]
    | caseOf p s bs =>
      simp only [children, List.forall_mem_cons, List.forall_mem_map] at ih
      cases u <;> simp [same, ih.1, ih.2.1, sameBranches_iff ih.2.2, and_assoc, and_left_comm]
    | fix i b =>
      simp only [children, List.mem_flatMap, forall_exists_index, and_imp] at ih
      have hfs : ∀ f ∈ b.functions,
          (∀ p ∈ f.params, ∀ u, p.type.same u = true ↔ p.type.bare = u.bare) ∧
          (∀ u, f.result.same u = true ↔ f.result.bare = u.bare) ∧
          ∀ u, f.body.same u = true ↔ f.body.bare = u.bare := by
        intro f hf
        have ih' := fun c hc => ih c f hf hc
        simp only [List.mem_append, or_imp, forall_and, List.mem_cons, List.not_mem_nil, or_false,
          forall_eq] at ih'
        exact ⟨sameTypes_iff ih'.1, ih'.2.1, ih'.2.2⟩
      cases u <;> simp [same, sameFunctions_iff hfs]

end Same

end InductiveTerms.Term

/-- Bundles are equal up to display when their functions are. -/
theorem InductiveTerms.Bundle.beq_iff_bareFunction {b b' : Bundle Term} :
    (b' == b) = true ↔ b'.functions.map Term.bareFunction = b.functions.map Term.bareFunction := by
  have hsame := Term.same_iff_bare_eq (.fix 0 b') (.fix 0 b)
  rw [Term.bare_fix, Term.bare_fix] at hsame
  change sameFunctions b'.functions b.functions = true ↔ _
  simpa [Term.same] using hsame
