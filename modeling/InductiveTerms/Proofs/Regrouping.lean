import InductiveTerms.Proofs.Checking
import InductiveTerms.Proofs.Merging
import InductiveTerms.Proofs.Stack

/-!
Grouping and the rules of the type checker. A product of a product has the type of one product, and
a function of a function that of one function, up to grouping; sorts may be compared in two groups.
`RegroupedContext` relates contexts in which the types differ in grouping.
-/
namespace InductiveTerms
open Term

section CommonSort

theorem eq_univ_of_asUniv? {t : Term} {u : Universe} (h : t.asUniv? = some u) : t = .univ u := by
  cases t <;> simp_all [asUniv?]

theorem same_univ_iff {t : Term} {u : Universe} : (t == .univ u) = true ↔ t.asUniv? = some u := by
  change t.same (.univ u) = true ↔ _
  rw [same_iff_bare_eq, ← asUniv?_bare]
  constructor
  · intro h
    rw [h]
    rfl
  · exact eq_univ_of_asUniv?

theorem beq_iff_bare_eq {t u : Term} : (t == u) = true ↔ t.bare = u.bare := same_iff_bare_eq t u

/-- Sorts may be compared in two groups or all at once. -/
theorem commonSort_append (As : List Term) {Bs : List Term} (hBs : Bs ≠ []) :
    commonSort (As ++ [commonSort Bs]) = commonSort (As ++ Bs) := by
  cases As with
  | nil => rfl
  | cons A As =>
    obtain ⟨B, Bs, rfl⟩ := List.exists_cons_of_ne_nil hBs
    simp only [List.cons_append, commonSort, List.all_append, List.all_cons, List.all_nil,
      Bool.and_true]
    by_cases hB : Bs.all (· == B) = true
    · rw [if_pos hB]
      have hall : Bs.all (· == B) = true → (B == A) = true → Bs.all (· == A) = true := by
        simp only [List.all_eq_true, beq_iff_bare_eq]
        intro hBs hBA C hC
        rw [hBs C hC, hBA]
      cases hBA : B == A with
      | false => simp
      | true => rw [hall hB hBA, Bool.and_self, Bool.and_true]
    · rw [if_neg hB]
      have hne : (B == A && Bs.all (· == A)) = false := by
        rw [Bool.eq_false_iff]
        intro h
        rw [Bool.and_eq_true] at h
        refine hB ?_
        simp only [List.all_eq_true, beq_iff_bare_eq] at h ⊢
        intro C hC
        rw [h.2 C hC, h.1]
      rw [hne, Bool.and_false, if_neg Bool.false_ne_true]
      cases hA : Term.univ .type == A with
      | false => simp
      | true =>
        have hA' : A = .univ .type := by
          refine eq_univ_of_asUniv? (same_univ_iff.1 ?_)
          rw [beq_iff_bare_eq] at hA ⊢
          exact hA.symm
        rw [hA']
        simp

end CommonSort

section Append
variable (ctx : Context)

theorem checkParams_append (ps qs : List (Param Term)) :
    checkParams (ps ++ qs) ctx = (do
      let sorts ← checkParams ps ctx
      let sorts' ← checkParams qs (ctx.pushParams ps)
      pure (sorts ++ sorts')) := by
  induction ps generalizing ctx with
  | nil =>
    rw [List.nil_append, checkParams_nil_eq]
    change _ = checkParams qs ctx >>= pure
    rw [bind_pure]
  | cons p ps ih =>
    rw [List.cons_append, checkParams_cons_eq, checkParams_cons_eq, ih]
    simp only [bind_assoc, pure_bind]
    rfl

theorem paramsThroughout_append {Φ : Term → Context → Prop} {ps qs : List (Param Term)} :
    ParamsThroughout Φ (ps ++ qs) ctx ↔
      ParamsThroughout Φ ps ctx ∧ ParamsThroughout Φ qs (ctx.pushParams ps) := by
  induction ps generalizing ctx with
  | nil => simp [ParamsThroughout, Context.pushParams]
  | cons p ps ih =>
    rw [List.cons_append, ParamsThroughout, ParamsThroughout, ih, and_assoc]
    rfl

/-- The checker does not tell a product of a product from one product. -/
theorem check_product_append (ps qs : List (Param Term)) (r : Term) :
    (Term.product ps (.product qs r)).check ctx = (Term.product (ps ++ qs) r).check ctx := by
  rw [check_product_eq, check_product_eq, check_product_eq, checkParams_append,
    Context.pushParams_append]
  simp only [bind_assoc, pure_bind, List.append_assoc]
  refine bind_congr fun As => bind_congr fun Bs => bind_congr fun S => ?_
  rw [commonSort_append As (List.append_ne_nil_of_right_ne_nil Bs (List.cons_ne_nil S []))]

/-- A function of a function has a type when one function has it, and it is the same up to
grouping. -/
theorem check_lambda_append (ps qs : List (Param Term)) (b : Term) :
    Agrees Regrouped ((Term.lambda ps (.lambda qs b)).check ctx)
      ((Term.lambda (ps ++ qs) b).check ctx) := by
  simp only [check_lambda_eq, checkParams_append, Context.pushParams_append, bind_assoc, pure_bind]
  cases checkParams ps ctx with
  | error e => exact .error rfl
  | ok sorts =>
    cases hqs : checkParams qs (ctx.pushParams ps) with
    | error e => exact .error rfl
    | ok sorts' =>
      cases hb : b.check ((ctx.pushParams ps).pushParams qs) with
      | error e => exact .error rfl
      | ok B => exact .ok (regrouped_productOver_append ps qs B)

end Append

/-- Contexts over the same globals whose entries differ in grouping. -/
inductive RegroupedContext : Context → Context → Prop
  | refl {ctx : Context} : ctx.locals.WellFormed → RegroupedContext ctx ctx
  | push {ctx ctx' : Context} {x x' : Option String} {T T' : Term} :
      RegroupedContext ctx ctx' → Regrouped T T' →
        RegroupedContext (ctx.push x T) (ctx'.push x' T')

namespace RegroupedContext
variable {ctx ctx' : Context}

theorem globals_eq (h : RegroupedContext ctx ctx') : ctx'.globals = ctx.globals := by
  induction h with
  | refl => rfl
  | push _ _ ih => exact ih

theorem wellFormed (h : RegroupedContext ctx ctx') :
    ctx.locals.WellFormed ∧ ctx'.locals.WellFormed := by
  induction h with
  | refl h => exact ⟨h, h⟩
  | push _ _ ih => exact ⟨ih.1.push _, ih.2.push _⟩

theorem get? (h : RegroupedContext ctx ctx') {i : Nat} {e : LocalEntry}
    (he : ctx.locals.get? i = some e) :
    ∃ e', ctx'.locals.get? i = some e' ∧ Regrouped e.type e'.type := by
  rw [h.wellFormed.1.get?_eq_getElem?] at he
  rw [h.wellFormed.2.get?_eq_getElem?]
  induction h generalizing i with
  | refl => exact ⟨e, he, .refl _⟩
  | push _ hT ih =>
    simp only [Context.push, Stack.toList_push] at he ⊢
    cases i with
    | zero =>
      obtain rfl := Option.some.inj he
      exact ⟨_, rfl, hT⟩
    | succ i => exact ih he

theorem pushParams {ps qs : List (Param Term)} (h : RegroupedContext ctx ctx')
    (hqs : qs.map bareParam = (ps.map flatParam).map bareParam) :
    RegroupedContext (ctx.pushParams ps) (ctx'.pushParams qs) := by
  induction ps generalizing qs ctx ctx' with
  | nil =>
    obtain rfl : qs = [] := by simpa using hqs
    exact h
  | cons p ps ih =>
    cases qs with
    | nil => simp at hqs
    | cons q qs =>
      simp only [List.map_cons, List.cons.injEq] at hqs
      have htype : Regrouped p.type q.type :=
        regrouped_of_flat (congrArg Param.type hqs.1)
      rw [Context.pushParams_cons, Context.pushParams_cons]
      exact ih (h.push htype) hqs.2

end RegroupedContext

end InductiveTerms
