import InductiveTerms.Proofs.Normalization

/-!
Parameters and arguments that are given in two groups, at the root of a term. The checker finds the
type that it finds when they are given in one group (`check_reassociate`), with one exception: an
argument of the first group that is a product without parameters, and that the head returns once
it has got both groups, is looked into for parameters and comes out without its products
(`normalize_ne_of_passedOn`).
-/
namespace InductiveTerms
open Term

section Apply
variable {ctx : Context} {f F T : Term} {as bs : Arguments Term}

/-- No index leaves its range in the rules for an application to two groups of arguments, nor in
the rule for the application to all of them. -/
structure ReassociatesExactly (f : Term) (as bs : Arguments Term) (ctx : Context) : Prop where
  whole : StepExact (.apply f (as ++ bs)) ctx
  inner : StepExact (.apply f as) ctx
  outer : StepExact (.apply (.apply f as) bs) ctx

instance (f : Term) (as bs : Arguments Term) (ctx : Context) :
    Decidable (ReassociatesExactly f as bs ctx) :=
  decidable_of_iff (StepExact (.apply f (as ++ bs)) ctx ∧ StepExact (.apply f as) ctx ∧
    StepExact (.apply (.apply f as) bs) ctx)
    ⟨fun h => ⟨h.1, h.2.1, h.2.2⟩, fun h => ⟨h.whole, h.inner, h.outer⟩⟩

theorem check_apply_apply (hexact : ReassociatesExactly f as bs ctx)
    (hT : (Term.apply f (as ++ bs)).check ctx = .ok T) :
    ∃ F T', f.check ctx = .ok F ∧ as.toList.length + bs.toList.length ≤ F.unfoldProducts.1.length ∧
      (Term.apply (.apply f as) bs).check ctx = .ok T' ∧
      Regrouped T ((F.residual (as.toList.length + bs.toList.length)).bind
        (instantiation (as ++ bs).toList.reverse)) ∧
      Regrouped T' ((((F.residual as.toList.length).bind (instantiation as.toList.reverse)).residual
        bs.toList.length).bind (instantiation bs.toList.reverse)) := by
  obtain ⟨F, hF, hargs, hcount, rfl⟩ := check_apply_iff.1 hT
  rw [Arguments.toList_append, List.length_append] at hcount ⊢
  rw [Arguments.toList_append, List.forall_mem_append] at hargs
  have hmemF : F ∈ (f.check ctx).toOption := mem_toOption hF
  have hinner : (Term.apply f as).check ctx =
      .ok ((F.residual as.toList.length).subst 0 as.toList.reverse) :=
    check_apply_iff.2 ⟨F, hF, hargs.1, by omega, rfl⟩
  have hmemInner : (F.residual as.toList.length).subst 0 as.toList.reverse ∈
      ((Term.apply f as).check ctx).toOption := mem_toOption hinner
  -- the arguments put in may only add parameters to those that are left
  have hleft := (regrouped_subst (hexact.inner F hmemF)).residual
  have hcountInner : bs.toList.length ≤
      ((F.residual as.toList.length).subst 0 as.toList.reverse).unfoldProducts.1.length := by
    rw [hleft.1, Term.residual, bind_productOver, unfoldProducts_productOver, List.length_append,
      length_bindParams, List.length_drop]
    omega
  have houter := hexact.outer _ hmemInner
  have hwhole := hexact.whole F hmemF
  rw [Arguments.toList_append, List.length_append] at hwhole
  exact ⟨F, _, hF, hcount, check_apply_iff.2 ⟨_, hinner, hargs.2, hcountInner, rfl⟩,
    regrouped_subst hwhole, (regrouped_subst houter).trans ((hleft.2 _).bind _)⟩

/-- Arguments may be given in two groups, unless the result is an argument of the first group that
is a product without parameters. -/
theorem check_apply_append (hexact : ReassociatesExactly f as bs ctx)
    (hT : (Term.apply f (as ++ bs)).check ctx = .ok T) :
    ∃ T', (Term.apply (.apply f as) bs).check ctx = .ok T' ∧
      ((∀ F ∈ (f.check ctx).toOption, ∀ a ∈ passedOn? F as.toList bs.toList, HasParameters a) →
        Regrouped T' T) := by
  obtain ⟨F, T', hF, hcount, hT', hwhole, hgroups⟩ := check_apply_apply hexact hT
  refine ⟨T', hT', fun hpassed => ?_⟩
  have hmemF : F ∈ (f.check ctx).toOption := mem_toOption hF
  have hresidual := residual_bind hcount (hasParameters_result (hpassed F hmemF))
  have hbind := Regrouped.bind hresidual (instantiation bs.toList.reverse)
  rw [bind_instantiation_append] at hbind
  exact hgroups.trans (hbind.trans hwhole.symm)

theorem bind_result_of_passedOn {F a : Term} (ha : a ∈ passedOn? F as.toList bs.toList) :
    F.unfoldProducts.1.length = as.toList.length + bs.toList.length ∧
      F.unfoldProducts.2.bind (lift bs.toList.length (instantiation as.toList.reverse)) =
        (a.raise bs.toList.length).raise 0 := by
  rw [passedOn?] at ha
  split at ha
  · next hcount =>
    refine ⟨hcount, ?_⟩
    rcases F.unfoldProducts.2.eq_var_or_asVar?_eq_none with ⟨x, i, hr⟩ | hr
    · rw [hr, asVar?, Option.bind_some] at ha
      split at ha
      · cases ha
      · next hi =>
        rw [hr, bind_var, lift_of_le (Nat.not_lt.1 hi), instantiation, Option.mem_def.1 ha,
          Option.getD_some]
    · rw [hr] at ha
      cases ha
  · cases ha

theorem regrouped_raise_bind_instantiation (t : Term) (bs : List Term) :
    Regrouped ((t.raise bs.length).bind (instantiation bs.reverse)) t := by
  have hraise := raise_bind_instantiation t bs.reverse
  rw [List.length_reverse] at hraise
  refine .same ?_
  rw [hraise, bare_raise, raise_zero]

/-- An argument of the first group that is passed on and is a product without parameters comes out
without its products. -/
theorem normalize_ne_of_passedOn {T' a : Term} (hexact : ReassociatesExactly f as bs ctx)
    (hT : (Term.apply f (as ++ bs)).check ctx = .ok T)
    (hT' : (Term.apply (.apply f as) bs).check ctx = .ok T') (hF : f.check ctx = .ok F)
    (ha : a ∈ passedOn? F as.toList bs.toList) (hnone : ¬ HasParameters a) :
    (T'.normalize == T.normalize) = false := by
  obtain ⟨hcount, hresult⟩ := bind_result_of_passedOn ha
  obtain ⟨F', U, hF', _, hU, hwhole, hgroups⟩ := check_apply_apply hexact hT
  obtain rfl : F = F' := Except.ok.inj (hF.symm.trans hF')
  obtain rfl : T' = U := Except.ok.inj (hT'.symm.trans hU)
  obtain ⟨hproduct, hparams⟩ : a.kind = .product ∧ a.unfoldProducts.1 = [] := by
    rw [HasParameters, Classical.not_imp] at hnone
    exact ⟨hnone.1, List.eq_nil_of_length_eq_zero (by omega)⟩
  rw [raise_raise, Nat.add_zero] at hresult
  have hT : Regrouped T a := by
    rw [Arguments.toList_append, ← bind_instantiation_append, Term.residual,
      List.drop_eq_nil_of_le (Nat.le_of_eq hcount), productOver_nil, hresult] at hwhole
    exact hwhole.trans (regrouped_raise_bind_instantiation a bs.toList)
  have hT' : Regrouped T' a.unfoldProducts.2 := by
    have hdrop : (F.unfoldProducts.1.drop as.toList.length).length = bs.toList.length := by
      rw [List.length_drop]
      omega
    have hraise : (a.raise bs.toList.length).unfoldProducts =
        ([], a.unfoldProducts.2.raise bs.toList.length) := by
      have hopening := unfoldProducts_bind_opening (n := bs.toList.length) a 0
      rw [hparams] at hopening
      rw [raise_eq_bind, raise_eq_bind]
      exact hopening
    have hleft : ((F.residual as.toList.length).bind (instantiation as.toList.reverse)).residual
        bs.toList.length = a.unfoldProducts.2.raise bs.toList.length := by
      have hinner : (F.residual as.toList.length).bind (instantiation as.toList.reverse) =
          productOver (bindParams (instantiation as.toList.reverse)
            (F.unfoldProducts.1.drop as.toList.length)) (a.raise bs.toList.length) := by
        rw [Term.residual, bind_productOver, hdrop, hresult]
      rw [hinner, Term.residual, unfoldProducts_productOver, hraise, List.append_nil,
        List.drop_eq_nil_of_le (Nat.le_of_eq (by rw [length_bindParams, hdrop])), productOver_nil]
    rw [hleft] at hgroups
    exact hgroups.trans (regrouped_raise_bind_instantiation _ bs.toList)
  rw [Bool.eq_false_iff]
  intro hsame
  -- what normalizes to the same has the same kind
  have hflat : T'.flat.bare = T.flat.bare := by
    rw [← bare_normalize, ← bare_normalize]
    exact beq_iff_bare_eq.1 hsame
  rw [hT.same_flat, hT'.same_flat] at hflat
  have hkinds := congrArg kind hflat
  rw [kind_bare, kind_bare, kind_flat, kind_flat, hproduct] at hkinds
  exact kind_unfoldProducts_ne a hkinds

end Apply

/-- Parameters and arguments at the root of a term may be given in two groups. A term that is
applied keeps its type, up to normalization, when an argument of the first group that its head
returns is no product without parameters. -/
theorem check_reassociate (ctx : Context) :
    (∀ (ps qs : List (Param Term)) (r : Term),
      (Term.product ps (.product qs r)).check ctx = (Term.product (ps ++ qs) r).check ctx) ∧
    (∀ (ps qs : List (Param Term)) (b : Term),
      Agrees (fun T T' => (T.normalize == T'.normalize) = true)
        ((Term.lambda ps (.lambda qs b)).check ctx) ((Term.lambda (ps ++ qs) b).check ctx)) ∧
    ∀ (f : Term) (as bs : Arguments Term) (T : Term), ReassociatesExactly f as bs ctx →
      (Term.apply f (as ++ bs)).check ctx = .ok T →
        ∃ T', (Term.apply (.apply f as) bs).check ctx = .ok T' ∧
          ((∀ F ∈ (f.check ctx).toOption, ∀ a ∈ passedOn? F as.toList bs.toList, HasParameters a) →
            T'.normalize == T.normalize) := by
  have hsame : ∀ {T U : Term}, Regrouped T U → (T.normalize == U.normalize) = true := by
    intro T U h
    rw [beq_iff_bare_eq, bare_normalize, bare_normalize, h.same_flat]
  refine ⟨fun ps qs r => check_product_append ctx ps qs r, fun ps qs b => ?_,
    fun f as bs T hexact hT => ?_⟩
  · exact (check_lambda_append ctx ps qs b).imp fun _ _ => hsame
  · obtain ⟨T', hT', hregrouped⟩ := check_apply_append hexact hT
    exact ⟨T', hT', fun h => hsame (hregrouped h)⟩

def numberFunctions : Term := .product [⟨none, .global "nat"⟩] (.global "nat")

def bareNumbers : Term := .product [] (.global "nat")

/-- `anyOf` passes on what it gets first: a product with a parameter. -/
theorem check_reassociate_anyOf :
    ReassociatesExactly (.global "anyOf") ⟨numberFunctions, []⟩ ⟨.global "O", []⟩ vectorContext ∧
    (Term.applyTo (.global "anyOf") [numberFunctions, .global "O"]).check vectorContext =
      .ok numberFunctions ∧
    (∀ F ∈ ((Term.global "anyOf").check vectorContext).toOption,
      ∀ a ∈ passedOn? F [numberFunctions] [.global "O"], HasParameters a) ∧
    ∃ T', (Term.applyTo (.applyTo (.global "anyOf") [numberFunctions]) [.global "O"]).check
        vectorContext = .ok T' ∧ T'.normalize == numberFunctions.normalize := by
  have hexact : ReassociatesExactly (.global "anyOf") ⟨numberFunctions, []⟩ ⟨.global "O", []⟩
      vectorContext := by decide
  have hpassed : ∀ F ∈ ((Term.global "anyOf").check vectorContext).toOption,
      ∀ a ∈ passedOn? F [numberFunctions] [.global "O"], HasParameters a := by decide
  obtain ⟨T', hT', hsame⟩ :=
    (check_reassociate vectorContext).2.2 _ _ _ numberFunctions hexact rfl
  exact ⟨hexact, rfl, hpassed, T', hT', hsame hpassed⟩

theorem check_reassociate_bareNumbers :
    ReassociatesExactly (.global "anyOf") ⟨bareNumbers, []⟩ ⟨.global "O", []⟩ vectorContext ∧
    (Term.applyTo (.global "anyOf") [bareNumbers, .global "O"]).check vectorContext =
      .ok bareNumbers ∧
    ¬ ∃ T', (Term.applyTo (.applyTo (.global "anyOf") [bareNumbers]) [.global "O"]).check
        vectorContext = .ok T' ∧ T'.normalize == bareNumbers.normalize := by
  have hexact : ReassociatesExactly (.global "anyOf") ⟨bareNumbers, []⟩ ⟨.global "O", []⟩
      vectorContext := by decide
  refine ⟨hexact, rfl, ?_⟩
  rintro ⟨T', hT', hsame⟩
  have hne := normalize_ne_of_passedOn (T := bareNumbers) (a := bareNumbers) hexact rfl hT' rfl rfl
    (by decide)
  rw [hne] at hsame
  cases hsame

end InductiveTerms
