import InductiveTerms.Proofs.Checking
import InductiveTerms.Proofs.Regrouping
import InductiveTerms.Proofs.RenamedBundles
import InductiveTerms.Proofs.StackRefinement

/-!
Display names carry no meaning. Terms that are equal up to display cannot be told apart by any
operation (`names_carry_no_meaning`): what comes of them is equal up to display again, a check finds
types that are or fails in one way, a closure is the same, and bundles are specialized to bundles
that are, whatever the functions are called.
-/
namespace InductiveTerms
open Term

/-- The failure without the texts and names that it reports. -/
def TypeError.bare : TypeError → TypeError
  | .unresolvedGlobal x => .unresolvedGlobal x
  | .unresolvedLocal _ i n => .unresolvedLocal "" i n
  | .notAFunction _ _ n k => .notAFunction "" "" n k
  | .notInductive _ _ => .notInductive "" ""
  | .fixIndexOutOfRange i n => .fixIndexOutOfRange i n

/-- The same names are global and inductive, with types that are equal up to display. -/
structure Globals.Same (g g' : Globals) : Prop where
  typeOf? : ∀ x, Option.Rel (fun T T' => T == T') (g.typeOf? x) (g'.typeOf? x)
  isInductive? : ∀ x, g.isInductive? x = g'.isInductive? x

theorem Globals.Same.refl (g : Globals) : g.Same g where
  typeOf? x := by
    cases g.typeOf? x with
    | none => exact .none
    | some T => exact .some (beq_iff_bare_eq.2 rfl)
  isInductive? _ := rfl

/-- Contexts over such globals with as many locals, the types of which are equal up to display. -/
structure SameContext (ctx ctx' : Context) : Prop where
  globals : ctx.globals.Same ctx'.globals
  built : ctx.locals.Built
  built' : ctx'.locals.Built
  types : List.Forall₂ (fun e e' => e.type == e'.type) ctx.locals.toList ctx'.locals.toList

namespace SameContext
variable {ctx ctx' : Context}

theorem size_eq (h : SameContext ctx ctx') : ctx.size = ctx'.size := by
  rw [Context.size, Context.size, ← h.built.skew.length_toList, ← h.built'.skew.length_toList]
  exact h.types.length_eq

theorem local_or_none (h : SameContext ctx ctx') (i : Nat) :
    (∃ e e', ctx.locals.get? i = some e ∧ ctx'.locals.get? i = some e' ∧
      e.type.bare = e'.type.bare) ∨ (ctx.locals.get? i = none ∧ ctx'.locals.get? i = none) := by
  rw [Stack.WellFormed.get?_eq_getElem? h.built.skew.complete,
    Stack.WellFormed.get?_eq_getElem? h.built'.skew.complete]
  exact related_or_none (h.types.imp fun _ _ he => beq_iff_bare_eq.1 he) i

theorem push (h : SameContext ctx ctx') {T T' : Term} (hT : T.bare = T'.bare)
    (x x' : Option String) : SameContext (ctx.push x T) (ctx'.push x' T') where
  globals := h.globals
  built := .push _ h.built
  built' := .push _ h.built'
  types := by
    rw [Context.push, Context.push, Stack.toList_push, Stack.toList_push]
    exact .cons (beq_iff_bare_eq.2 hT) h.types

theorem pushParams {ps ps' : List (Param Term)} (h : SameContext ctx ctx')
    (hps : ps.map bareParam = ps'.map bareParam) :
    SameContext (ctx.pushParams ps) (ctx'.pushParams ps') := by
  induction ps generalizing ctx ctx' ps' with
  | nil =>
    obtain rfl : ps' = [] := by simpa using hps.symm
    exact h
  | cons p ps ih =>
    cases ps' with
    | nil => simp at hps
    | cons p' ps' =>
      rw [List.map_cons, List.map_cons, List.cons.injEq] at hps
      rw [Context.pushParams_cons, Context.pushParams_cons]
      exact ih (h.push (congrArg Param.type hps.1) _ _) hps.2

theorem mayBeInductive_eq (h : SameContext ctx ctx') {T T' : Term} (hT : T.bare = T'.bare) :
    ctx.mayBeInductive T = ctx'.mayBeInductive T' := by
  have hunfold := unfoldApps_bare T
  rw [hT, unfoldApps_bare, Prod.mk.injEq] at hunfold
  have hkind : T.unfoldApps.1.kind = T'.unfoldApps.1.kind := by
    rw [← kind_bare, ← hunfold.1, kind_bare]
  have hglobal : T.unfoldApps.1.asGlobal? = T'.unfoldApps.1.asGlobal? := by
    rw [← asGlobal?_bare, ← hunfold.1, asGlobal?_bare]
  have hinductive : ctx.isInductive? = ctx'.isInductive? := funext h.globals.isInductive?
  rw [InductiveTerms.mayBeInductive_eq, InductiveTerms.mayBeInductive_eq, hkind, hglobal,
    hinductive]

end SameContext

/-- What two checks come to that cannot be told apart. -/
abbrev SameCheck : Except TypeError Term → Except TypeError Term → Prop :=
  Accord (fun e e' => e.bare = e'.bare) fun T T' => T.bare = T'.bare

section Check
variable {ctx ctx' : Context}

theorem related_or_none_of_rel {α β : Type} {R : α → β → Prop} {o : Option α} {o' : Option β}
    (h : Option.Rel R o o') :
    (∃ a b, o = some a ∧ o' = some b ∧ R a b) ∨ (o = none ∧ o' = none) := by
  cases h with
  | some h => exact .inl ⟨_, _, rfl, rfl, h⟩
  | none => exact .inr ⟨rfl, rfl⟩

theorem sortsAgree_congr {sorts sorts' : List Term}
    (h : sorts.map Term.bare = sorts'.map Term.bare) : sortsAgree sorts = sortsAgree sorts' := by
  rw [← sortsAgree_bare, h, sortsAgree_bare]

theorem bare_commonSort {sorts sorts' : List Term}
    (h : sorts.map Term.bare = sorts'.map Term.bare) :
    (commonSort sorts).bare = (commonSort sorts').bare := by
  refine commonSort_related (R := fun S S' => S.bare = S'.bare) rfl ?_ (sortsAgree_congr h)
  cases forall₂_of_map_eq h with
  | nil => exact .none
  | cons hS _ => exact .some hS

theorem unfoldProducts_congr {F F' : Term} (h : F.bare = F'.bare) :
    F.unfoldProducts.1.length = F'.unfoldProducts.1.length ∧
      ∀ k, (F.residual k).bare = (F'.residual k).bare := by
  have hunfold := unfoldProducts_bare F
  rw [h, unfoldProducts_bare, Prod.mk.injEq] at hunfold
  obtain ⟨hparams, hresult⟩ := hunfold
  refine ⟨(length_eq_of_map hparams).symm, fun k => ?_⟩
  rw [Term.residual, Term.residual, bare_productOver, bare_productOver, List.map_drop,
    List.map_drop, hparams, hresult]

/-- Whether a term cannot be told by its check from terms that are the same without display. -/
def ChecksAlike (t : Term) : Prop :=
  ∀ ⦃t' : Term⦄ ⦃ctx ctx' : Context⦄, t.bare = t'.bare → SameContext ctx ctx' →
    SameCheck (t.check ctx) (t'.check ctx')

theorem sameCheck_params {ps ps' : List (Param Term)} (ih : ∀ p ∈ ps, ChecksAlike p.type)
    (hps : ps.map bareParam = ps'.map bareParam) (hctx : SameContext ctx ctx') :
    Accord (fun e e' => e.bare = e'.bare)
      (fun sorts sorts' => sorts.map Term.bare = sorts'.map Term.bare) (checkParams ps ctx)
      (checkParams ps' ctx') := by
  induction ps generalizing ctx ctx' ps' with
  | nil =>
    obtain rfl : ps' = [] := by simpa using hps.symm
    exact .ok rfl
  | cons p ps ihps =>
    cases ps' with
    | nil => simp at hps
    | cons p' ps' =>
      rw [List.map_cons, List.map_cons, List.cons.injEq] at hps
      have htype : p.type.bare = p'.type.bare := congrArg Param.type hps.1
      rw [List.forall_mem_cons] at ih
      rw [checkParams_cons_eq, checkParams_cons_eq]
      refine (ih.1 htype hctx).bind fun S S' _ _ hS => ?_
      refine (ihps ih.2 hps.2 (hctx.push htype _ _)).bind fun sorts sorts' _ _ hsorts => .ok ?_
      rw [List.map_cons, List.map_cons, hS, hsorts]

theorem sameCheck_args {as as' : List Term} (ih : ∀ a ∈ as, ChecksAlike a)
    (has : as.map Term.bare = as'.map Term.bare) (hctx : SameContext ctx ctx') :
    Accord (fun e e' => e.bare = e'.bare) (fun _ _ => True) (checkArgs as ctx)
      (checkArgs as' ctx') := by
  induction as generalizing as' with
  | nil =>
    obtain rfl : as' = [] := by simpa using has.symm
    exact .ok trivial
  | cons a as ihas =>
    cases as' with
    | nil => simp at has
    | cons a' as' =>
      rw [List.map_cons, List.map_cons, List.cons.injEq] at has
      rw [List.forall_mem_cons] at ih
      rw [checkArgs_cons_eq, checkArgs_cons_eq]
      exact (ih.1 has.1 hctx).bind fun _ _ _ _ _ => ihas ih.2 has.2

theorem checksAlike_var {x : String} {i : Nat} : ChecksAlike (.var x i) := by
  intro t' ctx ctx' h hctx
  cases t' with
  | var y j =>
    obtain rfl : i = j := by simpa using h
    rcases hctx.local_or_none i with ⟨e, e', he, he', htype⟩ | ⟨he, he'⟩
    · rw [check_var_of_some ctx he, check_var_of_some ctx' he']
      exact .ok (bare_shift_congr htype 0 _)
    · rw [check_var_of_none ctx he, check_var_of_none ctx' he']
      exact .error (by rw [TypeError.bare, TypeError.bare, hctx.size_eq])
  | _ => simp at h

theorem checksAlike_global {x : String} : ChecksAlike (.global x) := by
  intro t' ctx ctx' h hctx
  obtain rfl : t' = .global x := by cases t' <;> simp_all
  rcases related_or_none_of_rel (hctx.globals.typeOf? x) with ⟨T, T', hT, hT', hsame⟩ | ⟨hT, hT'⟩
  · rw [check_global_of_some ctx hT, check_global_of_some ctx' hT']
    exact .ok (beq_iff_bare_eq.1 hsame)
  · rw [check_global_of_none ctx hT, check_global_of_none ctx' hT']
    exact .error rfl

theorem sameCheck_sorts {ps ps' : List (Param Term)} {r r' : Term}
    (ih : ∀ p ∈ ps, ChecksAlike p.type) (ihr : ChecksAlike r)
    (hps : ps.map bareParam = ps'.map bareParam) (hr : r.bare = r'.bare)
    (hctx : SameContext ctx ctx') :
    Accord (fun e e' => e.bare = e'.bare)
      (fun sorts sorts' => sorts.map Term.bare = sorts'.map Term.bare) (productSorts ps r ctx)
      (productSorts ps' r' ctx') := by
  refine (sameCheck_params ih hps hctx).bind fun sorts sorts' _ _ hsorts => ?_
  refine (ihr hr (hctx.pushParams hps)).bind fun S S' _ _ hS => .ok ?_
  rw [List.map_append, List.map_append, hsorts, List.map_singleton, List.map_singleton, hS]

theorem checksAlike_product {ps : List (Param Term)} {r : Term}
    (hps : ∀ p ∈ ps, ChecksAlike p.type) (hr : ChecksAlike r) : ChecksAlike (.product ps r) := by
  intro t' ctx ctx' h hctx
  cases t' with
  | product ps' r' =>
    rw [bare_product, bare_product, Term.product.injEq] at h
    rw [check_product_eq_commonSort, check_product_eq_commonSort]
    exact (sameCheck_sorts hps hr h.1 h.2 hctx).bind fun _ _ _ _ hsorts =>
      .ok (bare_commonSort hsorts)
  | _ => simp at h

theorem checksAlike_lambda {ps : List (Param Term)} {b : Term}
    (hps : ∀ p ∈ ps, ChecksAlike p.type) (hb : ChecksAlike b) : ChecksAlike (.lambda ps b) := by
  intro t' ctx ctx' h hctx
  cases t' with
  | lambda ps' b' =>
    rw [bare_lambda, bare_lambda, Term.lambda.injEq] at h
    rw [check_lambda_eq, check_lambda_eq]
    refine (sameCheck_params hps h.1 hctx).bind fun _ _ _ _ _ => ?_
    refine (hb h.2 (hctx.pushParams h.1)).bind fun B B' _ _ hB => .ok ?_
    rw [bare_productOver, bare_productOver, h.1, hB]
  | _ => simp at h

theorem checksAlike_letIn {x : Option String} {v ty b : Term} (hv : ChecksAlike v)
    (hty : ChecksAlike ty) (hb : ChecksAlike b) : ChecksAlike (.letIn x v ty b) := by
  intro t' ctx ctx' h hctx
  cases t' with
  | letIn x' v' ty' b' =>
    rw [bare_letIn, bare_letIn, Term.letIn.injEq] at h
    rw [check_letIn_eq, check_letIn_eq]
    refine (hv h.2.1 hctx).bind fun V V' _ _ hV => ?_
    refine (hty h.2.2.1 hctx).bind fun _ _ _ _ _ => ?_
    refine (hb h.2.2.2 (hctx.push hV _ _)).bind fun B B' _ _ hB => .ok ?_
    exact bare_subst_congr hB (by rw [List.map_singleton, List.map_singleton, h.2.1]) 0
  | _ => simp at h

theorem checksAlike_apply {f : Term} {as : Arguments Term} (hf : ChecksAlike f)
    (has : ∀ a ∈ as.toList, ChecksAlike a) : ChecksAlike (.apply f as) := by
  intro t' ctx ctx' h hctx
  cases t' with
  | apply f' as' =>
    rw [bare_apply, bare_apply, Term.apply.injEq, Arguments.map_eq_map_iff] at h
    rw [check_apply_eq, check_apply_eq]
    refine (hf h.1 hctx).bind fun F F' _ _ hF => ?_
    refine (sameCheck_args has h.2 hctx).bind fun _ _ _ _ _ => ?_
    obtain ⟨hparams, hresidual⟩ := unfoldProducts_congr hF
    rw [hparams, length_eq_of_map h.2]
    by_cases hfew : F'.unfoldProducts.1.length < as'.toList.length
    · rw [if_pos hfew, if_pos hfew]
      exact .error rfl
    · rw [if_neg hfew, if_neg hfew]
      refine .ok (bare_subst_congr (hresidual _) ?_ 0)
      rw [List.map_reverse, List.map_reverse, h.2]
  | _ => simp at h

theorem checksAlike_cast {u ty : Term} {k : CastKind} (hu : ChecksAlike u) :
    ChecksAlike (.cast u k ty) := by
  intro t' ctx ctx' h hctx
  cases t' with
  | cast u' k' ty' =>
    rw [bare_cast, bare_cast, Term.cast.injEq] at h
    rw [check_cast_eq, check_cast_eq]
    exact hu h.1 hctx
  | _ => simp at h

theorem checksAlike_caseOf {p s : Term} {bs : List (Branch Term)} (hs : ChecksAlike s) :
    ChecksAlike (.caseOf p s bs) := by
  intro t' ctx ctx' h hctx
  cases t' with
  | caseOf p' s' bs' =>
    rw [bare_caseOf, bare_caseOf, Term.caseOf.injEq] at h
    rw [check_caseOf_eq, check_caseOf_eq]
    refine (hs h.2.1 hctx).bind fun S S' _ _ hS => ?_
    rw [hctx.mayBeInductive_eq hS]
    split
    · exact .ok (bare_subst_congr h.1 (by rw [List.map_singleton, List.map_singleton, hS]) 0)
    · exact .error rfl
  | _ => simp at h

theorem checksAlike_fix {i : Nat} {b : Bundle Term} : ChecksAlike (.fix i b) := by
  intro t' ctx ctx' h hctx
  cases t' with
  | fix i' b' =>
    rw [bare_fix, bare_fix, Term.fix.injEq, Bundle.mk.injEq] at h
    obtain ⟨rfl, _, hfs⟩ := h
    rcases related_or_none (forall₂_of_map_eq hfs) i with ⟨f, f', hf, hf', hff⟩ | ⟨hf, hf'⟩
    · rw [bareFunction, bareFunction, FixFunction.mk.injEq] at hff
      rw [check_fix_of_some ctx hf, check_fix_of_some ctx' hf']
      refine .ok ?_
      rw [bare_productOver, bare_productOver, hff.2.1, hff.2.2.1]
    · rw [check_fix_of_none ctx hf, check_fix_of_none ctx' hf']
      exact .error (congrArg (TypeError.fixIndexOutOfRange i) (length_eq_of_map hfs))
  | _ => simp at h

/-- Terms that are the same without display cannot be told apart by their checks. -/
theorem checksAlike (t : Term) : ChecksAlike t := by
  induction t using induct_children with
  | node t ih =>
    replace ih := ih 0
    cases t with
    | var x i => exact checksAlike_var
    | global x => exact checksAlike_global
    | univ u =>
      intro t' ctx ctx' h _
      obtain rfl : t' = .univ u := by cases t' <;> simp_all
      exact .ok rfl
    | product ps r =>
      simp only [children, List.forall_mem_append, List.forall_mem_singleton] at ih
      exact checksAlike_product (forall_types ih.1) ih.2
    | lambda ps b =>
      simp only [children, List.forall_mem_append, List.forall_mem_singleton] at ih
      exact checksAlike_lambda (forall_types ih.1) ih.2
    | letIn x v ty b =>
      simp only [children, List.forall_mem_cons] at ih
      exact checksAlike_letIn ih.1 ih.2.1 ih.2.2.1
    | apply f as =>
      simp only [children, List.forall_mem_cons, List.forall_mem_map] at ih
      exact checksAlike_apply ih.1 ih.2
    | cast u k ty =>
      simp only [children, List.forall_mem_cons] at ih
      exact checksAlike_cast ih.1
    | caseOf p s bs =>
      simp only [children, List.forall_mem_cons] at ih
      exact checksAlike_caseOf ih.2.1
    | fix i b => exact checksAlike_fix

end Check

theorem map_bare_of_beq {ts us : List Term} (h : List.Forall₂ (fun t u => t == u) ts us) :
    ts.map Term.bare = us.map Term.bare := by
  rw [← List.forall₂_eq_eq_eq, List.forall₂_map_left_iff, List.forall₂_map_right_iff]
  exact h.imp fun _ _ htu => beq_iff_bare_eq.1 htu

theorem beq_equivalence : Equivalence fun t u : Term => (t == u) = true where
  refl _ := beq_iff_bare_eq.2 rfl
  symm h := beq_iff_bare_eq.2 (beq_iff_bare_eq.1 h).symm
  trans h h' := beq_iff_bare_eq.2 ((beq_iff_bare_eq.1 h).trans (beq_iff_bare_eq.1 h'))

/-- Whatever is done with one term or the other, what comes of it is equal up to display. -/
structure Term.OperatesAlike (t u : Term) : Prop where
  shift : ∀ limit delta, t.shift limit delta == u.shift limit delta
  subst : ∀ start subs subs', List.Forall₂ (fun s s' => s == s') subs subs' →
    t.subst start subs == u.subst start subs'
  normalize : t.normalize == u.normalize
  refreshNames : t.refreshNames == u.refreshNames
  reduceHead : ∀ steps, Option.Rel (fun v w => v == w) (t.reduceHead steps) (u.reduceHead steps)
  externalReferences : t.externalReferences = u.externalReferences
  check : ∀ ctx ctx', SameContext ctx ctx' →
    Accord (fun e e' => e.bare = e'.bare) (fun T T' => T == T') (t.check ctx) (u.check ctx')

/-- The bundles have the same closures, and they are specialized to bundles that are equal up to
display, whatever the functions of these are called, or neither of them is. -/
structure Bundle.OperatesAlike (b c : Bundle Term) : Prop where
  closure? : ∀ seed p, b.closure? seed p = c.closure? seed p
  specialize : ∀ steps info constants constants' namer namer',
    List.Forall₂ (fun t u => t == u) constants constants' →
      Accord AnyErrors (fun r r' => r == r') (b.specialize steps info constants namer)
        (c.specialize steps info constants' namer')

theorem Term.operatesAlike {t u : Term} (h : t.bare = u.bare) : t.OperatesAlike u where
  shift limit delta := beq_iff_bare_eq.2 (bare_shift_congr h limit delta)
  subst start _ _ hsubs := beq_iff_bare_eq.2 (bare_subst_congr h (map_bare_of_beq hsubs) start)
  normalize := beq_iff_bare_eq.2 (bare_normalize_congr h)
  refreshNames := beq_iff_bare_eq.2 (by rw [bare_refreshNames, bare_refreshNames, h])
  reduceHead steps := rel_imp (reduceHead_congr steps h) fun _ _ hvw => beq_iff_bare_eq.2 hvw
  externalReferences := externalReferences_congr h
  check _ _ hctx := (checksAlike t h hctx).imp fun _ _ hT => beq_iff_bare_eq.2 hT

theorem Bundle.operatesAlike {b c : Bundle Term}
    (h : b.functions.map bareFunction = c.functions.map bareFunction) : b.OperatesAlike c where
  closure? := closure?_congr h
  specialize _ _ _ _ _ _ hconstants :=
    (specialize_congr h (map_bare_of_beq hconstants)).imp fun _ _ hr =>
      Bundle.beq_iff_bareFunction.2 hr

/-- Terms are equal up to display just when they are the same once it is erased, and no operation
tells such terms or such bundles apart. -/
theorem names_carry_no_meaning :
    (∀ t u : Term, (t == u) = true ↔ t.bare = u.bare) ∧
      (Equivalence fun t u : Term => (t == u) = true) ∧
      (∀ t u : Term, (t == u) = true → t.OperatesAlike u) ∧
      ∀ b c : Bundle Term, (b == c) = true → b.OperatesAlike c :=
  ⟨fun _ _ => beq_iff_bare_eq, beq_equivalence,
    fun _ _ h => Term.operatesAlike (beq_iff_bare_eq.1 h),
    fun _ _ h => Bundle.operatesAlike (Bundle.beq_iff_bareFunction.1 h)⟩

/-- `Bundle.passingOn` with other names. -/
def Bundle.handingOn : Bundle Term :=
  ⟨none,
    [⟨"even", [⟨none, .global "nat"⟩, ⟨some "k", .global "nat"⟩], .global "nat",
      .letIn none (.var "a" 1) (.global "nat") (.applyTo (.var "odd" 3) [.var "b" 0, .var "k" 1])⟩,
    ⟨"odd", [⟨some "k", .global "nat"⟩, ⟨none, .global "nat"⟩], .global "nat",
      .caseOf (.global "nat") (.var "a" 0)
        [⟨"S", 1, .applyTo (.applyTo (.var "even" 4) [.var "k" 2]) [.var "l" 0]⟩]⟩]⟩

theorem names_carry_no_meaning_handingOn :
    Bundle.passingOn.OperatesAlike .handingOn ∧
      Accord (fun e e' => e.bare = e'.bare) (fun T T' => T == T')
        ((Term.fix 0 .passingOn).check (Context.empty.push (some "x") (.global "nat")))
        ((Term.fix 0 .handingOn).check (Context.empty.push none (.global "nat"))) ∧
      Accord AnyErrors (fun r r' => r == r')
        (Bundle.passingOn.specialize 1 [[some 0, none], [some 0, none]] [.var "x" 0] fun _ => "h")
        (Bundle.handingOn.specialize 1 [[some 0, none], [some 0, none]] [.var "y" 0]
          fun _ => "g") := by
  have hbundle : (Bundle.passingOn == Bundle.handingOn) = true := by decide
  have hterm : (Term.fix 0 .passingOn == Term.fix 0 .handingOn) = true := by decide
  have hglobals : Globals.none.Same Globals.none := ⟨fun _ => .none, fun _ => rfl⟩
  have hctx : SameContext (Context.empty.push (some "x") (.global "nat"))
      (Context.empty.push none (.global "nat")) :=
    ⟨hglobals, .push _ .empty, .push _ .empty, .cons (by decide) .nil⟩
  have halike := names_carry_no_meaning.2.2.2 _ _ hbundle
  exact ⟨halike, (names_carry_no_meaning.2.2.1 _ _ hterm).check _ _ hctx,
    halike.specialize _ _ _ _ _ _ (.cons (by decide) .nil)⟩

end InductiveTerms
