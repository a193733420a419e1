import InductiveTerms.Proofs.Below
import InductiveTerms.Proofs.Checking
import InductiveTerms.Proofs.Stack
import InductiveTerms.Proofs.Unfolding

/-!
Entries inserted into a context. A term moves past them by a `shift` from the place on where they
stand, and so do the types of the entries after that place. `check_insertion` says that the type of
the moved term is the moved type, and a failure remains one of the same variant.
-/
namespace InductiveTerms
open Term

namespace Term
variable {limit n : Nat}

theorem bind_opening_injective {t u : Term}
    (h : t.bare.bind (opening limit n) = u.bare.bind (opening limit n)) : t.bare = u.bare := by
  have hundo : ∀ v : Term, (v.bare.bind (opening limit n)).bind
      (window limit (List.replicate n (.univ .type))) = v.bare := by
    intro v
    have hwindow := bind_opening_window v.bare limit (List.replicate n (.univ .type))
    rwa [List.length_replicate, raise_zero] at hwindow
  rw [← hundo t, h, hundo u]

/-- A closed term takes no notice of what is bound. -/
theorem bind_of_below_zero {t : Term} (h : t.Below 0) (σ : Nat → Term) :
    t.bare.bind σ = t.bare := by
  refine mapVars_self t 0 fun o ho => bindVar_of_lt ?_
  have hlt := below_iff.1 h o ho
  rwa [Nat.zero_add] at hlt

theorem subst_moved {T T' : Term} {subs subs' : List Term}
    (hT : T'.bare = T.bare.bind (opening (limit + subs.length) n))
    (hsubs : subs'.map bare = (subs.map bare).map (·.bind (opening limit n)))
    (hexact : T.InstantiatesExactly subs) (hexact' : T'.InstantiatesExactly subs') :
    (T'.subst 0 subs').bare = (T.subst 0 subs).bare.bind (opening limit n) := by
  have hlift : lift (subs.map bare).length (opening limit n) =
      opening (limit + subs.length) n := by
    rw [lift_opening, List.length_map]
  rw [bare_subst_eq_bind hexact, bare_subst_eq_bind hexact', hT, hsubs, bind_instantiation, hlift]

theorem unfoldProducts_moved {F F' : Term} (h : F'.bare = F.bare.bind (opening limit n)) :
    F'.unfoldProducts.1.length = F.unfoldProducts.1.length ∧
      ∀ k ≤ F.unfoldProducts.1.length,
        (F'.residual k).bare = (F.residual k).bare.bind (opening (limit + k) n) := by
  have hunfold := unfoldProducts_bind_opening (n := n) F.bare limit
  rw [← h, unfoldProducts_bare, unfoldProducts_bare, Prod.mk.injEq] at hunfold
  obtain ⟨hparams, hresult⟩ := hunfold
  have hlen : F'.unfoldProducts.1.length = F.unfoldProducts.1.length :=
    length_eq_of_bindParams hparams
  refine ⟨hlen, fun k hk => ?_⟩
  rw [Term.residual, Term.residual, bare_productOver, bare_productOver, List.map_drop,
    List.map_drop, hparams, hresult, bindParams_drop, bind_productOver, lift_opening, lift_opening,
    List.length_drop, List.length_map]
  have hsum : limit + k + (F.unfoldProducts.1.length - k) =
      limit + F.unfoldProducts.1.length := by omega
  rw [hsum]

end Term

theorem mayBeInductive_moved {limit n : Nat} {ctx ctx' : Context} {T T' : Term}
    (hglobals : ctx'.globals = ctx.globals) (h : T'.bare = T.bare.bind (opening limit n)) :
    ctx'.mayBeInductive T' = ctx.mayBeInductive T := by
  have hunfold := unfoldApps_bind_opening T.bare limit n
  rw [← h, unfoldApps_bare, unfoldApps_bare, Prod.mk.injEq] at hunfold
  have hkind : T'.unfoldApps.1.kind = T.unfoldApps.1.kind := by
    rw [← kind_bare, hunfold.1, kind_bind_opening, kind_bare]
  have hglobal : T'.unfoldApps.1.asGlobal? = T.unfoldApps.1.asGlobal? := by
    rw [← asGlobal?_bare, hunfold.1, asGlobal?_bind_opening, asGlobal?_bare]
  have hinductive : ctx'.isInductive? = ctx.isInductive? := by
    funext x
    rw [Context.isInductive?, Context.isInductive?, hglobals]
  rw [mayBeInductive_eq, mayBeInductive_eq, hkind, hglobal, hinductive]

section Sorts
variable {n limit : Nat}

/-- The sorts of a product when `n` entries are inserted at `limit`, which is one further away for
every parameter that a sort is found under. -/
def movedSorts (n : Nat) : Nat → List Term → List Term
  | _, [] => []
  | limit, S :: sorts => S.bind (opening limit n) :: movedSorts n (limit + 1) sorts

theorem movedSorts_append (sorts : List Term) (S : Term) :
    movedSorts n limit (sorts ++ [S]) =
      movedSorts n limit sorts ++ [S.bind (opening (limit + sorts.length) n)] := by
  induction sorts generalizing limit with
  | nil => rfl
  | cons R sorts ih =>
    rw [List.cons_append, movedSorts, ih, movedSorts, List.cons_append, List.length_cons,
      Nat.add_right_comm, Nat.add_assoc]

theorem bare_bind_opening (t : Term) (limit n : Nat) :
    (t.bind (opening limit n)).bare = t.bare.bind (opening limit n) := bare_bind t _

/-- A sort that moves alike from all places in question is told from others as before. -/
theorem all_movedSorts {S : Term} {sorts : List Term} {p : Nat}
    (h : ∀ q, p ≤ q → q < p + sorts.length →
      S.bare.bind (opening q n) = S.bare.bind (opening limit n)) :
    (movedSorts n p sorts).all (· == S.bind (opening limit n)) = sorts.all (· == S) := by
  induction sorts generalizing p with
  | nil => rfl
  | cons R sorts ih =>
    rw [List.length_cons] at h
    have hiff : (R.bind (opening p n) == S.bind (opening limit n)) = (R == S) := by
      change (R.bind (opening p n)).same (S.bind (opening limit n)) = R.same S
      rw [Bool.eq_iff_iff, same_iff_bare_eq, same_iff_bare_eq, bare_bind_opening,
        bare_bind_opening, ← h p (Nat.le_refl p) (by omega)]
      exact ⟨bind_opening_injective, fun heq => by rw [heq]⟩
    rw [movedSorts, List.all_cons, List.all_cons, hiff,
      ih fun q hle hlt => h q (by omega) (by omega)]

/-- Entries inserted keep the sorts of a product apart or together when the first sort refers to
none of the last entries before them, of which as many count as there are other sorts. -/
theorem sortsAgree_movedSorts {S : Term} {sorts : List Term}
    (h : ∀ r ∈ S.externalReferences, r < limit ∨ limit + sorts.length ≤ r) :
    sortsAgree (movedSorts n limit (S :: sorts)) = sortsAgree (S :: sorts) := by
  refine all_movedSorts fun q hle hlt => bind_congr fun o ho hdepth => ?_
  rw [occurrences_bare] at ho
  rcases h (o.1 - o.2) (mem_externalReferences.2 ⟨o, ho, hdepth, rfl⟩) with hbelow | habove
  · rw [opening_of_lt hbelow, opening_of_lt (by omega)]
  · rw [opening_of_le (by omega), opening_of_le (by omega)]

theorem commonSort_moved {sorts sorts' : List Term}
    (hsorts : sorts'.map bare = (movedSorts n limit sorts).map bare)
    (hkept : sortsAgree (movedSorts n limit sorts) = sortsAgree sorts) :
    (commonSort sorts').bare = (commonSort sorts).bare.bind (opening limit n) := by
  refine commonSort_related (R := fun S S' => S'.bare = S.bare.bind (opening limit n)) rfl ?_ ?_
  · cases sorts with
    | nil =>
      obtain rfl : sorts' = [] := by simpa [movedSorts] using hsorts
      exact .none
    | cons S sorts =>
      cases sorts' with
      | nil => simp [movedSorts] at hsorts
      | cons S' sorts' =>
        simp only [movedSorts, List.map_cons, List.cons.injEq, bare_bind_opening] at hsorts
        exact .some hsorts.1
  · rw [← hkept, ← sortsAgree_bare, ← hsorts, sortsAgree_bare]

end Sorts

/-- The second context has `n` entries more than the first, inserted after the first `older` and
below the last `limit`; the types of globals are closed. -/
inductive Inserted (n older : Nat) : Nat → Context → Context → Prop
  | base {ctx : Context} {entries : List (Param Term)} :
      (∀ x T, ctx.globals.typeOf? x = some T → T.Below 0) → ctx.locals.WellFormed →
        ctx.size = older → entries.length = n → Inserted n older 0 ctx (ctx.pushParams entries)
  | push {limit : Nat} {ctx ctx' : Context} {x x' : Option String} {T T' : Term} :
      Inserted n older limit ctx ctx' → T'.bare = T.bare.bind (opening limit n) →
        Inserted n older (limit + 1) (ctx.push x T) (ctx'.push x' T')

namespace Context

theorem toList_pushParams (ctx : Context) (ps : List (Param Term)) :
    (ctx.pushParams ps).locals.toList =
      ps.reverse.map (fun p => ⟨p.name, p.type⟩) ++ ctx.locals.toList := by
  induction ps generalizing ctx with
  | nil => rfl
  | cons p ps ih =>
    rw [pushParams_cons, ih, List.reverse_cons, List.map_append, List.append_assoc]
    simp [Context.push]

end Context

namespace Inserted
variable {n older limit i : Nat} {ctx ctx' : Context}

theorem globals_eq (h : Inserted n older limit ctx ctx') : ctx'.globals = ctx.globals := by
  induction h with
  | base => exact Context.globals_pushParams _ _
  | push _ _ ih => exact ih

theorem globalType (h : Inserted n older limit ctx ctx') {x : String} {T : Term}
    (hT : ctx.globalType? x = some T) : T.Below 0 := by
  induction h with
  | base hclosed => exact hclosed x T hT
  | push _ _ ih => exact ih hT

theorem wellFormed (h : Inserted n older limit ctx ctx') :
    ctx.locals.WellFormed ∧ ctx'.locals.WellFormed := by
  induction h with
  | base _ h _ _ => exact ⟨h, Context.wellFormed_pushParams h _⟩
  | push _ _ ih => exact ⟨ih.1.push _, ih.2.push _⟩

theorem size_eq (h : Inserted n older limit ctx ctx') : ctx.size = older + limit := by
  induction h with
  | base _ _ hsize _ => exact hsize
  | push _ _ ih => rw [Context.size_push, ih, Nat.add_assoc]

theorem get?_of_lt (h : Inserted n older limit ctx ctx') (hi : i < limit) :
    ∃ e e', ctx.locals.get? i = some e ∧ ctx'.locals.get? i = some e' ∧
      e'.type.bare = e.type.bare.bind (opening (limit - (i + 1)) n) := by
  rw [h.wellFormed.1.get?_eq_getElem?, h.wellFormed.2.get?_eq_getElem?]
  induction h generalizing i with
  | base => omega
  | @push limit ctx ctx' x x' T T' _ hT ih =>
    simp only [Context.push, Stack.toList_push]
    cases i with
    | zero => exact ⟨_, _, rfl, rfl, hT⟩
    | succ i =>
      obtain ⟨e, e', he, he', hmoved⟩ := ih (i := i) (by omega)
      exact ⟨e, e', he, he', by rwa [Nat.add_sub_add_right]⟩

theorem get?_of_le (h : Inserted n older limit ctx ctx') (hi : limit ≤ i) :
    ctx'.locals.get? (i + n) = ctx.locals.get? i := by
  rw [h.wellFormed.1.get?_eq_getElem?, h.wellFormed.2.get?_eq_getElem?]
  induction h generalizing i with
  | @base ctx entries _ _ _ hn =>
    have hle : (entries.reverse.map fun p : Param Term =>
        (⟨p.name, p.type⟩ : LocalEntry)).length ≤ i + n := by
      rw [List.length_map, List.length_reverse, hn]
      omega
    rw [Context.toList_pushParams, List.getElem?_append_right hle, List.length_map,
      List.length_reverse, hn, Nat.add_sub_cancel]
  | @push limit ctx ctx' x x' T T' _ _ ih =>
    simp only [Context.push, Stack.toList_push]
    cases i with
    | zero => omega
    | succ i =>
      rw [Nat.add_right_comm, List.getElem?_cons_succ, List.getElem?_cons_succ]
      exact ih (by omega)

end Inserted

/-- The signature of a selected function refers to nothing outside. -/
def SignatureClosed (t : Term) (_ : Context) : Prop :=
  ∀ f ∈ t.fixFunction?, (productOver f.params f.result).Below 0

instance (t : Term) (ctx : Context) : Decidable (SignatureClosed t ctx) :=
  inferInstanceAs (Decidable (∀ f ∈ t.fixFunction?, _))

/-- The sorts of a product agree just when they agree once `n` entries have been inserted after the
first `older` of the context. So it is when the first sort refers to none of the last of these, of
which as many count as there are parameters (`sortsAgree_movedSorts`). -/
def SortsKept (n older : Nat) (t : Term) (ctx : Context) : Prop :=
  ∀ u ∈ t.asProduct?, ∀ sorts ∈ (productSorts u.1 u.2 ctx).toOption,
    sortsAgree (movedSorts n (ctx.size - older) sorts) = sortsAgree sorts

instance (n older : Nat) (t : Term) (ctx : Context) : Decidable (SortsKept n older t ctx) :=
  inferInstanceAs (Decidable (∀ u ∈ t.asProduct?, ∀ sorts ∈ (productSorts u.1 u.2 ctx).toOption, _))

/-- What has to hold wherever a check comes for entries to be inserted. -/
def StepStable (t : Term) (ctx : Context) : Prop := SignatureClosed t ctx ∧ StepExact t ctx

/-- A term that is checked in two contexts, the second one with entries inserted; the flag says
whether its type counts. -/
structure Weakens (n older limit : Nat) (used : Bool) (t t' : Term) (ctx ctx' : Context) :
    Prop where
  moved : t'.bare = t.bare.bind (opening limit n)
  inserted : Inserted n older limit ctx ctx'
  stable : t.Throughout StepStable ctx
  sorts : t.WhereUsed (SortsKept n older) used ctx
  exact : t'.ChecksExactly ctx'

/-- What a check comes to when entries have been inserted, the type only where it counts. -/
abbrev MovedCheck (n limit : Nat) (used : Bool) :
    Except TypeError Term → Except TypeError Term → Prop :=
  Agrees fun T T' => used = true → T'.bare = T.bare.bind (opening limit n)

/-- Checks agree wherever entries are inserted. -/
def StableCheck (n older : Nat) (t : Term) : Prop :=
  ∀ ⦃limit : Nat⦄ ⦃used : Bool⦄ ⦃t' : Term⦄ ⦃ctx ctx' : Context⦄,
    Weakens n older limit used t t' ctx ctx' → MovedCheck n limit used (t.check ctx) (t'.check ctx')

section Rules
variable {n older limit : Nat} {used : Bool} {ctx ctx' : Context}

theorem stableCheck_var {x : String} {i : Nat} : StableCheck n older (.var x i) := by
  intro limit used t' ctx ctx' h
  obtain ⟨hmoved, hinserted, ⟨-, hexact⟩, -, hexact'⟩ := h
  obtain ⟨y, rfl⟩ : ∃ y, t' = .var y (if i < limit then i else i + n) := by
    cases t' with
    | var y k =>
      simp only [bare_var, bind_var, opening, raise_var, Term.var.injEq, true_and,
        Nat.add_zero] at hmoved
      exact ⟨y, by rw [hmoved]⟩
    | _ => simp [opening] at hmoved
  rcases Nat.lt_or_ge i limit with hi | hi
  · rw [if_pos hi] at hexact' ⊢
    obtain ⟨e, e', he, he', htype⟩ := hinserted.get?_of_lt hi
    rw [check_var_of_some ctx he, check_var_of_some ctx' he']
    have hsum : limit - (i + 1) + (i + 1) = limit := by omega
    refine .ok fun _ => ?_
    rw [bare_shift_eq_raise (hexact e he), bare_shift_eq_raise (hexact' e' he'), htype,
      raise_bind_opening, hsum]
  · rw [if_neg (Nat.not_lt.2 hi)] at hexact' ⊢
    have hget := hinserted.get?_of_le hi
    cases he : ctx.locals.get? i with
    | none =>
      rw [he] at hget
      rw [check_var_of_none ctx he, check_var_of_none ctx' hget]
      exact .error rfl
    | some e =>
      rw [he] at hget
      rw [check_var_of_some ctx he, check_var_of_some ctx' hget]
      refine .ok fun _ => ?_
      rw [bare_shift_eq_raise (hexact e he), bare_shift_eq_raise (hexact' e hget), raise_eq_bind,
        raise_eq_bind, bind_bind]
      refine bind_congr_raise fun j => ?_
      rw [bind_var, opening_of_le (by omega), raise_raise]
      have hsum : j + (i + n + 1) = j + (i + 1) + n := by omega
      rw [hsum]

theorem stableCheck_global {x : String} : StableCheck n older (.global x) := by
  intro limit used t' ctx ctx' h
  obtain rfl : t' = .global x := by
    have hmoved := h.moved
    cases t' <;> simp_all [bind_global]
  have hglobal : ctx'.globalType? x = ctx.globalType? x := by
    rw [Context.globalType?, Context.globalType?, h.inserted.globals_eq]
  cases hx : ctx.globalType? x with
  | none =>
    rw [check_global_of_none ctx hx, check_global_of_none ctx' (by rw [hglobal, hx])]
    exact .error rfl
  | some T =>
    rw [check_global_of_some ctx hx, check_global_of_some ctx' (by rw [hglobal, hx])]
    exact .ok fun _ => (bind_of_below_zero (h.inserted.globalType hx) _).symm

theorem Inserted.pushParams {ps ps' : List (Param Term)} (h : Inserted n older limit ctx ctx')
    (hps : ps'.map bareParam = bindParams (opening limit n) (ps.map bareParam)) :
    Inserted n older (limit + ps.length) (ctx.pushParams ps) (ctx'.pushParams ps') := by
  induction ps generalizing limit ctx ctx' ps' with
  | nil =>
    obtain rfl : ps' = [] := by simpa [bindParams, mapParamTypes] using hps
    exact h
  | cons p ps ih =>
    cases ps' with
    | nil => simp [bindParams_cons] at hps
    | cons p' ps' =>
      rw [List.map_cons, List.map_cons, bindParams_cons, lift_opening, List.cons.injEq] at hps
      obtain ⟨hp, hps⟩ := hps
      have hsum : limit + (p :: ps).length = limit + 1 + ps.length := by
        rw [List.length_cons]
        omega
      have hpush : Inserted n older (limit + 1) (ctx.push p.name p.type)
          (ctx'.push p'.name p'.type) := h.push (congrArg Param.type hp)
      rw [hsum, Context.pushParams_cons, Context.pushParams_cons]
      exact ih hpush hps

theorem checkParams_moved {ps ps' : List (Param Term)}
    (hstable : ∀ p ∈ ps, StableCheck n older p.type)
    (hps : ps'.map bareParam = bindParams (opening limit n) (ps.map bareParam))
    (hinserted : Inserted n older limit ctx ctx')
    (hstable' : ParamsThroughout StepStable ps ctx)
    (hsorts : ParamsWhereUsed (SortsKept n older) used ps ctx)
    (hexact : ParamsThroughout StepExact ps' ctx') :
    Agrees (fun sorts sorts' => sorts.length = ps.length ∧
        (used = true → sorts'.map bare = (movedSorts n limit sorts).map bare))
      (checkParams ps ctx) (checkParams ps' ctx') := by
  induction ps generalizing limit ctx ctx' ps' with
  | nil =>
    obtain rfl : ps' = [] := by simpa [bindParams, mapParamTypes] using hps
    exact .ok ⟨rfl, fun _ => rfl⟩
  | cons p ps ih =>
    cases ps' with
    | nil => simp [bindParams_cons] at hps
    | cons p' ps' =>
      rw [List.map_cons, List.map_cons, bindParams_cons, lift_opening, List.cons.injEq] at hps
      obtain ⟨hp, hps⟩ := hps
      rw [List.forall_mem_cons] at hstable
      have htype : p'.type.bare = p.type.bare.bind (opening limit n) := congrArg Param.type hp
      rw [checkParams_cons_eq, checkParams_cons_eq]
      refine Agrees.bind (hstable.1 ⟨htype, hinserted, hstable'.1, hsorts.1, hexact.1⟩) ?_
      intro S S' _ _ hS
      refine Agrees.bind (ih hstable.2 hps (hinserted.push htype) hstable'.2 hsorts.2 hexact.2) ?_
      intro rest rest' _ _ hrest
      refine .ok ⟨by rw [List.length_cons, hrest.1, List.length_cons], fun hused => ?_⟩
      rw [List.map_cons, hS hused, hrest.2 hused, movedSorts, List.map_cons, bare_bind_opening]

theorem checkArgs_moved {as as' : List Term} (hstable : ∀ a ∈ as, StableCheck n older a)
    (has : as'.map bare = (as.map bare).map (·.bind (opening limit n)))
    (hinserted : Inserted n older limit ctx ctx')
    (hstable' : TermsThroughout StepStable as ctx)
    (hsorts : TermsWhereUsed (SortsKept n older) as ctx)
    (hexact : TermsThroughout StepExact as' ctx') :
    Agrees (fun _ _ => True) (checkArgs as ctx) (checkArgs as' ctx') := by
  induction as generalizing as' with
  | nil =>
    obtain rfl : as' = [] := by simpa using has
    exact .ok trivial
  | cons a as ih =>
    cases as' with
    | nil => simp at has
    | cons a' as' =>
      rw [List.map_cons, List.map_cons, List.map_cons, List.cons.injEq] at has
      rw [List.forall_mem_cons] at hstable
      rw [checkArgs_cons_eq, checkArgs_cons_eq]
      refine Agrees.bind (hstable.1 ⟨has.1, hinserted, hstable'.1, hsorts.1, hexact.1⟩) ?_
      intro _ _ _ _ _
      exact ih hstable.2 has.2 hstable'.2 hsorts.2 hexact.2

theorem productSorts_moved {ps ps' : List (Param Term)} {r r' : Term}
    (hps : ∀ p ∈ ps, StableCheck n older p.type) (hr : StableCheck n older r)
    (h : Weakens n older limit used (.product ps r) (.product ps' r') ctx ctx') :
    Agrees (fun sorts sorts' => used = true →
        sorts'.map bare = (movedSorts n limit sorts).map bare)
      (productSorts ps r ctx) (productSorts ps' r' ctx') := by
  obtain ⟨hmoved, hinserted, ⟨_, hstable, hstabler⟩, ⟨_, hsorts, hsort⟩,
    ⟨_, hexact, hexactr⟩⟩ := h
  rw [bare_product, bare_product, bind_product, lift_opening, List.length_map,
    Term.product.injEq] at hmoved
  obtain ⟨hparams, hresult⟩ := hmoved
  refine Agrees.bind (checkParams_moved hps hparams hinserted hstable hsorts hexact) ?_
  intro sorts sorts' _ _ hmoved
  refine Agrees.bind (hr ⟨hresult, hinserted.pushParams hparams, hstabler, hsort, hexactr⟩) ?_
  intro S S' _ _ hS
  refine .ok fun hused => ?_
  rw [movedSorts_append, List.map_append, List.map_append, hmoved.2 hused, hmoved.1,
    List.map_singleton, List.map_singleton, hS hused, bare_bind_opening]

theorem stableCheck_product {ps : List (Param Term)} {r : Term}
    (hps : ∀ p ∈ ps, StableCheck n older p.type) (hr : StableCheck n older r) :
    StableCheck n older (.product ps r) := by
  intro limit used t' ctx ctx' h
  cases t' with
  | product ps' r' =>
    have hsorts := productSorts_moved hps hr h
    obtain ⟨_, hinserted, _, ⟨hkept, _⟩, _⟩ := h
    have hlimit : ctx.size - older = limit := by
      rw [hinserted.size_eq, Nat.add_sub_cancel_left]
    rw [check_product_eq_commonSort, check_product_eq_commonSort]
    refine Agrees.bind hsorts ?_
    intro sorts sorts' hok _ hmoved
    have hmem : sorts ∈ (productSorts ps r ctx).toOption := mem_toOption hok
    refine .ok fun hused => commonSort_moved (hmoved hused) ?_
    have hagree := hkept hused (ps, r) rfl sorts hmem
    rwa [hlimit] at hagree
  | _ =>
    have hmoved := h.moved
    simp [bind_product] at hmoved

theorem stableCheck_lambda {ps : List (Param Term)} {b : Term}
    (hps : ∀ p ∈ ps, StableCheck n older p.type) (hb : StableCheck n older b) :
    StableCheck n older (.lambda ps b) := by
  intro limit used t' ctx ctx' h
  obtain ⟨hmoved, hinserted, ⟨_, hstable, hstableb⟩, ⟨_, hsorts, hsortb⟩, hexact'⟩ := h
  cases t' with
  | lambda ps' b' =>
    rw [bare_lambda, bare_lambda, bind_lambda, lift_opening, List.length_map,
      Term.lambda.injEq] at hmoved
    obtain ⟨hparams, hbody⟩ := hmoved
    obtain ⟨_, hexact, hexactb⟩ := hexact'
    rw [check_lambda_eq, check_lambda_eq]
    refine Agrees.bind (checkParams_moved hps hparams hinserted hstable hsorts hexact) ?_
    intro _ _ _ _ _
    refine Agrees.bind (hb ⟨hbody, hinserted.pushParams hparams, hstableb, hsortb, hexactb⟩) ?_
    intro B B' _ _ hB
    refine .ok fun hused => ?_
    rw [bare_productOver, bare_productOver, bind_productOver, hparams, hB hused, lift_opening,
      List.length_map]
  | _ => simp [bind_lambda] at hmoved

theorem stableCheck_letIn {x : Option String} {v t b : Term} (hv : StableCheck n older v)
    (ht : StableCheck n older t) (hb : StableCheck n older b) :
    StableCheck n older (.letIn x v t b) := by
  intro limit used t' ctx ctx' h
  obtain ⟨hmoved, hinserted, ⟨⟨_, hstep⟩, hstablev, hstablet, hstableb⟩,
    ⟨_, hsortv, hsortt, hsortb⟩, hexact'⟩ := h
  cases t' with
  | letIn x' v' t' b' =>
    rw [bare_letIn, bare_letIn, bind_letIn, lift_opening, Term.letIn.injEq] at hmoved
    obtain ⟨_, hvalue, htype, hbody⟩ := hmoved
    obtain ⟨hstep', hexactv, hexactt, hexactb⟩ := hexact'
    rw [check_letIn_eq, check_letIn_eq]
    refine Agrees.bind (hv ⟨hvalue, hinserted, hstablev, hsortv, hexactv⟩) ?_
    intro V V' hV hV' hmovedV
    refine Agrees.bind (ht ⟨htype, hinserted, hstablet, hsortt, hexactt⟩) ?_
    intro _ _ _ _ _
    have hmemV : V ∈ (v.check ctx).toOption := mem_toOption hV
    have hmemV' : V' ∈ (v'.check ctx').toOption := mem_toOption hV'
    refine Agrees.bind (hb ⟨hbody, hinserted.push (hmovedV rfl), hstableb V hmemV,
      hsortb _ (Option.mem_map_of_mem _ hmemV), hexactb V' hmemV'⟩) ?_
    intro B B' hB hB' hmovedB
    have hmemB : B ∈ (b.check (ctx.push x V)).toOption := mem_toOption hB
    have hmemB' : B' ∈ (b'.check (ctx'.push x' V')).toOption := mem_toOption hB'
    refine .ok fun hused =>
      subst_moved (hmovedB hused) ?_ (hstep V hmemV B hmemB) (hstep' V' hmemV' B' hmemB')
    rw [List.map_cons, List.map_nil, hvalue]
    rfl
  | _ => simp [bind_letIn] at hmoved

theorem stableCheck_apply {f : Term} {as : Arguments Term} (hf : StableCheck n older f)
    (has : ∀ a ∈ as.toList, StableCheck n older a) : StableCheck n older (.apply f as) := by
  intro limit used t' ctx ctx' h
  obtain ⟨hmoved, hinserted, ⟨⟨_, hstep⟩, hstablef, hstable⟩, ⟨_, hsortf, hsorts⟩, hexact'⟩ := h
  cases t' with
  | apply f' as' =>
    rw [bare_apply, bare_apply, bind_apply, Term.apply.injEq] at hmoved
    obtain ⟨hfn, hargs⟩ := hmoved
    replace hargs := congrArg Arguments.toList hargs
    rw [Arguments.toList_map, Arguments.toList_map, Arguments.toList_map] at hargs
    obtain ⟨hstep', hexactf, hexact⟩ := hexact'
    have hlen : as'.toList.length = as.toList.length := by
      have := congrArg List.length hargs
      rwa [List.length_map, List.length_map, List.length_map] at this
    rw [check_apply_eq, check_apply_eq]
    refine Agrees.bind (hf ⟨hfn, hinserted, hstablef, hsortf, hexactf⟩) ?_
    intro F F' hF hF' hmovedF
    refine Agrees.bind (checkArgs_moved has hargs hinserted hstable hsorts hexact) ?_
    intro _ _ _ _ _
    obtain ⟨hparams, hresidual⟩ := unfoldProducts_moved (hmovedF rfl)
    have hmemF : F ∈ (f.check ctx).toOption := mem_toOption hF
    have hmemF' : F' ∈ (f'.check ctx').toOption := mem_toOption hF'
    rw [hparams, hlen]
    by_cases hfew : F.unfoldProducts.1.length < as.toList.length
    · rw [if_pos hfew, if_pos hfew]
      exact .error rfl
    · rw [if_neg hfew, if_neg hfew]
      have hexactF := hstep F hmemF
      have hexactF' := hstep' F' hmemF'
      rw [hlen] at hexactF'
      refine .ok fun _ => subst_moved ?_ ?_ hexactF hexactF'
      · rw [List.length_reverse]
        exact hresidual as.toList.length (Nat.not_lt.1 hfew)
      · rw [List.map_reverse, List.map_reverse, List.map_reverse, hargs]
  | _ => simp [bind_apply] at hmoved

theorem stableCheck_cast {t ty : Term} {k : CastKind} (ht : StableCheck n older t) :
    StableCheck n older (.cast t k ty) := by
  intro limit used t' ctx ctx' h
  obtain ⟨hmoved, hinserted, ⟨_, hstable⟩, ⟨_, hsort⟩, hexact'⟩ := h
  cases t' with
  | cast t' k' ty' =>
    rw [bare_cast, bare_cast, bind_cast, Term.cast.injEq] at hmoved
    rw [check_cast_eq, check_cast_eq]
    exact ht ⟨hmoved.1, hinserted, hstable, hsort, hexact'.2⟩
  | _ => simp [bind_cast] at hmoved

theorem stableCheck_caseOf {p s : Term} {bs : List (Branch Term)} (hs : StableCheck n older s) :
    StableCheck n older (.caseOf p s bs) := by
  intro limit used t' ctx ctx' h
  obtain ⟨hmoved, hinserted, ⟨⟨_, hstep⟩, hstable⟩, ⟨_, hsort⟩, hexact'⟩ := h
  cases t' with
  | caseOf p' s' bs' =>
    rw [bare_caseOf, bare_caseOf, bind_caseOf, lift_opening, Term.caseOf.injEq] at hmoved
    obtain ⟨hmotive, hscrutinee, _⟩ := hmoved
    obtain ⟨hstep', hexact⟩ := hexact'
    rw [check_caseOf_eq, check_caseOf_eq]
    refine Agrees.bind (hs ⟨hscrutinee, hinserted, hstable, hsort, hexact⟩) ?_
    intro S S' hS hS' hmovedS
    have hmemS : S ∈ (s.check ctx).toOption := mem_toOption hS
    have hmemS' : S' ∈ (s'.check ctx').toOption := mem_toOption hS'
    rw [mayBeInductive_moved hinserted.globals_eq (hmovedS rfl)]
    split
    · refine .ok fun _ => subst_moved hmotive ?_ (hstep S hmemS) (hstep' S' hmemS')
      rw [List.map_cons, List.map_nil, hmovedS rfl]
      rfl
    · exact .error rfl
  | _ => simp [bind_caseOf] at hmoved

theorem stableCheck_fix {i : Nat} {b : Bundle Term} : StableCheck n older (.fix i b) := by
  intro limit used t' ctx ctx' h
  obtain ⟨hmoved, _, ⟨hclosed, _⟩, _, _⟩ := h
  cases t' with
  | fix i' b' =>
    rw [bare_fix, bare_fix, bind_fix, Term.fix.injEq, Bundle.mk.injEq] at hmoved
    obtain ⟨rfl, _, hfunctions⟩ := hmoved
    have hfunction := congrArg (·[i']?) hfunctions
    simp only [List.getElem?_map, Bundle.size, List.length_map] at hfunction
    cases hf : b.function? i' with
    | none =>
      have hf' : b'.function? i' = none := by
        rw [Bundle.function?] at hf ⊢
        rw [hf, Option.map_none, Option.map_none, Option.map_eq_none_iff] at hfunction
        exact hfunction
      rw [check_fix_of_none ctx hf, check_fix_of_none ctx' hf']
      exact .error rfl
    | some f =>
      rw [Bundle.function?] at hf
      rw [hf, Option.map_some, Option.map_some] at hfunction
      obtain ⟨f', hf', heq⟩ := Option.map_eq_some_iff.1 hfunction
      rw [bareFunction, bareFunction, FixFunction.mk.injEq] at heq
      obtain ⟨_, hparams, hresult, _⟩ := heq
      rw [check_fix_of_some ctx hf, check_fix_of_some ctx' hf']
      have hbelow : (productOver f.params f.result).Below 0 := hclosed f hf
      refine .ok fun _ => ?_
      rw [bind_of_below_zero hbelow, ← bind_of_below_zero hbelow
        (lift b.functions.length (opening limit n)), bare_productOver, bare_productOver,
        bind_productOver, hparams, hresult, lift_lift, FixFunction.arity]
  | _ => simp [bind_fix] at hmoved

theorem stableCheck (n older : Nat) (t : Term) : StableCheck n older t := by
  induction t using induct_children with
  | node t ih =>
    replace ih := ih 0
    cases t with
    | var x i => exact stableCheck_var
    | global x => exact stableCheck_global
    | univ u =>
      intro limit used t' ctx ctx' h
      have hmoved := h.moved
      obtain rfl : t' = .univ u := by cases t' <;> simp_all [bind_univ]
      exact .ok fun _ => rfl
    | product ps r =>
      simp only [children, List.forall_mem_append, List.forall_mem_singleton] at ih
      exact stableCheck_product (forall_types ih.1) ih.2
    | lambda ps b =>
      simp only [children, List.forall_mem_append, List.forall_mem_singleton] at ih
      exact stableCheck_lambda (forall_types ih.1) ih.2
    | letIn x v t b =>
      simp only [children, List.forall_mem_cons] at ih
      exact stableCheck_letIn ih.1 ih.2.1 ih.2.2.1
    | apply f as =>
      simp only [children, List.forall_mem_cons, List.forall_mem_map] at ih
      exact stableCheck_apply ih.1 ih.2
    | cast t k ty =>
      simp only [children, List.forall_mem_cons] at ih
      exact stableCheck_cast ih.1
    | caseOf p s bs =>
      simp only [children, List.forall_mem_cons] at ih
      exact stableCheck_caseOf ih.2.1
    | fix i b => exact stableCheck_fix

end Rules

/-- A context made of older and newer entries, and entries to be inserted between them. -/
structure Insertion where
  globals : Globals
  older : List (Param Term)
  newer : List (Param Term)
  inserted : List (Param Term)

namespace Insertion
variable {s : Insertion} {t : Term}

def before (s : Insertion) : Context :=
  ((Context.ofGlobals s.globals).pushParams s.older).pushParams s.newer

/-- The newer entries with their types moved, each past the newer entries below it. -/
def moved (s : Insertion) : List (Param Term) :=
  mapParamTypes (fun T p => T.shift p s.inserted.length) s.newer 0

def after (s : Insertion) : Context :=
  (((Context.ofGlobals s.globals).pushParams s.older).pushParams s.inserted).pushParams s.moved

def move (s : Insertion) (t : Term) : Term := t.shift s.newer.length s.inserted.length

/-- The types of globals and the signatures of selected functions are closed, and no index leaves
its range while terms are moved and checked. -/
structure Admits (s : Insertion) (t : Term) : Prop where
  globals : ∀ x T, s.globals.typeOf? x = some T → T.Below 0
  signatures : t.Throughout SignatureClosed s.before
  entries : ∀ c ∈ paramTypes s.newer 0, c.1.ShiftsExactly c.2 s.inserted.length
  term : t.ShiftsExactly s.newer.length s.inserted.length
  before : t.ChecksExactly s.before
  after : (s.move t).ChecksExactly s.after

/-- The check of the moved term finds the moved type where the check of the term finds a type, and
fails with an error of the same variant where that one fails. -/
def Keeps (s : Insertion) (t : Term) : Prop :=
  (∀ T : Term, T.ShiftsExactly s.newer.length s.inserted.length →
    ((∃ U, t.check s.before = .ok U ∧ U == T) ↔
      ∃ U, (s.move t).check s.after = .ok U ∧ U == s.move T)) ∧
  ∀ k : TypeError.Variant, (∃ e, t.check s.before = .error e ∧ e.variant = k) ↔
    ∃ e, (s.move t).check s.after = .error e ∧ e.variant = k

theorem bareParams_moved {n : Nat} {ps : List (Param Term)} :
    ∀ {d : Nat}, (∀ c ∈ paramTypes ps d, c.1.ShiftsExactly c.2 n) →
      (mapParamTypes (fun T p => T.shift p n) ps d).map bareParam =
        bindParams (opening d n) (ps.map bareParam) := by
  induction ps with
  | nil => intros; rfl
  | cons p ps ih =>
    intro d h
    rw [paramTypes, List.forall_mem_cons] at h
    rw [mapParamTypes, List.map_cons, List.map_cons, bindParams_cons, lift_opening, ih h.2,
      bareParam, bare_shift_eq_opening h.1]
    rfl

theorem inserted_before_after (h : s.Admits t) :
    Inserted s.inserted.length s.older.length s.newer.length s.before s.after := by
  have hglobals : ∀ x T,
      ((Context.ofGlobals s.globals).pushParams s.older).globals.typeOf? x = some T →
        T.Below 0 := by
    rw [Context.globals_pushParams]
    exact h.globals
  have hsize : ((Context.ofGlobals s.globals).pushParams s.older).size = s.older.length := by
    rw [Context.size_pushParams]
    exact Nat.zero_add _
  have hbase : Inserted s.inserted.length s.older.length 0
      ((Context.ofGlobals s.globals).pushParams s.older)
      (((Context.ofGlobals s.globals).pushParams s.older).pushParams s.inserted) :=
    .base hglobals (Context.wellFormed_pushParams Stack.wellFormed_empty _) hsize rfl
  have hpush := hbase.pushParams (bareParams_moved h.entries)
  rwa [Nat.zero_add] at hpush

theorem check_moved (h : s.Admits t)
    (hsorts : t.WhereUsed (SortsKept s.inserted.length s.older.length) true s.before) :
    MovedCheck s.inserted.length s.newer.length true (t.check s.before)
      ((s.move t).check s.after) :=
  stableCheck s.inserted.length s.older.length t ⟨bare_shift_eq_opening h.term,
    inserted_before_after h, h.signatures.and h.before, hsorts, h.after⟩

/-- Inserting entries into a context keeps what a check finds, where it keeps the sorts of products
apart or together. -/
theorem check_insertion (s : Insertion) (t : Term) (h : s.Admits t)
    (hsorts : t.WhereUsed (SortsKept s.inserted.length s.older.length) true s.before) :
    s.Keeps t := by
  have hcheck := check_moved h hsorts
  refine ⟨fun T hT => ?_, fun k => ?_⟩
  · have hmove : (s.move T).bare = T.bare.bind (opening s.newer.length s.inserted.length) :=
      bare_shift_eq_opening hT
    generalize t.check s.before = x at hcheck
    generalize (s.move t).check s.after = y at hcheck
    cases hcheck with
    | error => simp
    | @ok U U' hU =>
      have hiff : U == T ↔ U' == s.move T := by
        change U.same T = true ↔ U'.same (s.move T) = true
        rw [same_iff_bare_eq, same_iff_bare_eq, hU rfl, hmove]
        exact ⟨fun heq => by rw [heq], bind_opening_injective⟩
      constructor
      · rintro ⟨_, hok, heq⟩
        obtain rfl := Except.ok.inj hok
        exact ⟨U', rfl, hiff.1 heq⟩
      · rintro ⟨_, hok, heq⟩
        obtain rfl := Except.ok.inj hok
        exact ⟨U, rfl, hiff.2 heq⟩
  · generalize t.check s.before = x at hcheck
    generalize (s.move t).check s.after = y at hcheck
    cases hcheck with
    | ok => simp
    | @error e e' he =>
      constructor
      · rintro ⟨_, herror, hk⟩
        obtain rfl := Except.error.inj herror
        exact ⟨e', rfl, by rw [he, hk]⟩
      · rintro ⟨_, herror, hk⟩
        obtain rfl := Except.error.inj herror
        exact ⟨e, rfl, by rw [← he, hk]⟩

/-- A family over an older entry, among newer entries that refer to both; two entries go in. -/
def familyInsertion : Insertion where
  globals := .ofTypes fun x => if x = "nat" then some (.univ .set) else none
  older := [⟨some "U", .univ .type⟩, ⟨some "A", .var "U" 0⟩]
  newer := [⟨some "P", .product [⟨none, .var "A" 0⟩] (.univ .set)⟩, ⟨some "a", .var "A" 1⟩]
  inserted := [⟨some "B", .univ .set⟩, ⟨some "b", .var "B" 0⟩]

/-- `λ (y : P a). let z : Set := fix h (n : nat) : Set := nat in let q : Set := Π (w : A), P w in
match y return Π (w : A), P w with`; the sort `U` of `A` refers to an older entry. -/
def familyTerm : Term :=
  .lambda [⟨some "y", .applyTo (.var "P" 1) [.var "a" 0]⟩]
    (.letIn (some "z")
      (.fix 0 ⟨none, [⟨"h", [⟨some "n", .global "nat"⟩], .univ .set, .global "nat"⟩]⟩) (.univ .set)
      (.letIn (some "q")
        (.product [⟨some "w", .var "A" 4⟩] (.applyTo (.var "P" 4) [.var "w" 0])) (.univ .set)
        (.caseOf (.product [⟨some "w", .var "A" 6⟩] (.applyTo (.var "P" 6) [.var "w" 0]))
          (.var "y" 2) [])))

theorem check_insertion_family :
    familyInsertion.Admits familyTerm ∧
      familyTerm.WhereUsed (SortsKept 2 2) true familyInsertion.before ∧
      familyInsertion.Keeps familyTerm := by
  have hadmits : familyInsertion.Admits familyTerm := by
    refine ⟨fun x T hT => ?_, by decide, by decide, by decide, by decide, by decide⟩
    simp only [familyInsertion, Globals.ofTypes] at hT
    split at hT
    · obtain rfl := Option.some.inj hT
      decide
    · cases hT
  have hsorts : familyTerm.WhereUsed (SortsKept 2 2) true familyInsertion.before := by decide
  exact ⟨hadmits, hsorts, check_insertion _ _ hadmits hsorts⟩

/-- An entry of sort `Type`, and after it one whose type is the first; one entry goes in. -/
def openSortInsertion : Insertion where
  globals := .none
  older := [⟨some "A", .univ .type⟩]
  newer := [⟨some "a", .var "A" 0⟩]
  inserted := [⟨some "B", .univ .type⟩]

/-- `Π (x : a), x`: the type of `a` under no binder and that of `x` under one are the same index and
different entries, until an insertion moves one of the two. -/
theorem check_insertion_openSort :
    ¬ ∀ (s : Insertion) (t : Term), s.Admits t → s.Keeps t := by
  intro h
  let t : Term := .product [⟨some "x", .var "a" 0⟩] (.var "x" 0)
  have hadmits : openSortInsertion.Admits t :=
    ⟨fun _ _ hT => (nomatch hT), by decide, by decide, by decide, by decide, by decide⟩
  have hbefore : t.check openSortInsertion.before = .ok (.var "A" 1) := by rfl
  have hafter : (openSortInsertion.move t).check openSortInsertion.after = .ok (.univ .type) := by
    rfl
  obtain ⟨U, hU, heq⟩ := ((h openSortInsertion t hadmits).1 (.var "A" 1) (by decide)).1
    ⟨_, hbefore, by decide⟩
  obtain rfl := Except.ok.inj (hafter.symm.trans hU)
  exact absurd heq (by decide)

end Insertion
end InductiveTerms
