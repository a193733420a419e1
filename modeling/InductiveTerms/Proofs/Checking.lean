import InductiveTerms.Proofs.Stack
import InductiveTerms.Proofs.Substitution
import InductiveTerms.Proofs.TypingRules

/-!
What a check comes to. `Agrees` compares two checks: both find types that are related, or both fail
with one kind of error; products also ask whether their sorts agree (`sortsAgree`). A check comes to
some subterms only, each in a context of its own; `Throughout` says that something holds of all of
these, `WhereUsed` that it does of those of which the type counts, and `ChecksExactly` that no index
leaves its range at any of them.
-/
namespace InductiveTerms
open Term

namespace Context
variable (ctx : Context)

theorem pushParams_cons (p : Param Term) (ps : List (Param Term)) :
    ctx.pushParams (p :: ps) = (ctx.push p.name p.type).pushParams ps := rfl

theorem pushParams_append (ps qs : List (Param Term)) :
    ctx.pushParams (ps ++ qs) = (ctx.pushParams ps).pushParams qs := List.foldl_append

@[simp] theorem globals_pushParams (ctx : Context) (ps : List (Param Term)) :
    (ctx.pushParams ps).globals = ctx.globals := by
  induction ps generalizing ctx with
  | nil => rfl
  | cons p ps ih => exact ih (ctx.push p.name p.type)

theorem wellFormed_pushParams {ctx : Context} (h : ctx.locals.WellFormed)
    (ps : List (Param Term)) : (ctx.pushParams ps).locals.WellFormed := by
  induction ps generalizing ctx with
  | nil => exact h
  | cons p ps ih =>
    rw [pushParams_cons]
    exact ih (h.push _)

end Context

/-- The kinds of failure, without what they are about. -/
inductive TypeError.Variant where
  | unresolvedGlobal
  | unresolvedLocal
  | notAFunction
  | notInductive
  | fixIndexOutOfRange
  deriving DecidableEq, Repr

def TypeError.variant : TypeError → Variant
  | .unresolvedGlobal _ => .unresolvedGlobal
  | .unresolvedLocal .. => .unresolvedLocal
  | .notAFunction .. => .notAFunction
  | .notInductive .. => .notInductive
  | .fixIndexOutOfRange .. => .fixIndexOutOfRange

section Agrees
variable {α β γ δ : Type} {R : α → β → Prop} {S : γ → δ → Prop}

/-- Both succeed, with results that are related, or both fail, with errors of one variant. -/
inductive Agrees (R : α → β → Prop) : Except TypeError α → Except TypeError β → Prop
  | ok {a : α} {b : β} : R a b → Agrees R (.ok a) (.ok b)
  | error {e e' : TypeError} : e'.variant = e.variant → Agrees R (.error e) (.error e')

theorem Agrees.imp {R' : α → β → Prop} {x : Except TypeError α} {y : Except TypeError β}
    (h : Agrees R x y) (himp : ∀ a b, R a b → R' a b) : Agrees R' x y := by
  cases h with
  | ok hab => exact .ok (himp _ _ hab)
  | error he => exact .error he

theorem Agrees.exists_right {x : Except TypeError α} {y : Except TypeError β} {a : α}
    (h : Agrees R x y) (hx : x = .ok a) : ∃ b, y = .ok b ∧ R a b := by
  subst hx
  cases h with
  | ok hab => exact ⟨_, rfl, hab⟩

theorem Agrees.bind {x : Except TypeError α} {y : Except TypeError β}
    {f : α → Except TypeError γ} {g : β → Except TypeError δ} (h : Agrees R x y)
    (hfg : ∀ a b, x = .ok a → y = .ok b → R a b → Agrees S (f a) (g b)) :
    Agrees S (x >>= f) (y >>= g) := by
  cases h with
  | ok hab => exact hfg _ _ rfl rfl hab
  | error he => exact .error he

end Agrees

section Sorts

/-- Whether sorts are all the same as the first of them. -/
def sortsAgree : List Term → Bool
  | [] => true
  | S :: sorts => sorts.all (· == S)

theorem sortsAgree_bare (sorts : List Term) : sortsAgree (sorts.map bare) = sortsAgree sorts := by
  cases sorts with
  | nil => rfl
  | cons S sorts =>
    have hsame : ∀ R : Term, (R.bare == S.bare) = (R == S) := by
      intro R
      change R.bare.same S.bare = R.same S
      rw [Bool.eq_iff_iff, same_iff_bare_eq, same_iff_bare_eq, bare_bare, bare_bare]
    simp only [List.map_cons, sortsAgree, List.all_map, Function.comp_def, hsame]

/-- Comparing sorts comes to related sorts when the first ones are related and the sorts agree in
both places or in neither. -/
theorem commonSort_related {R : Term → Term → Prop} {sorts sorts' : List Term}
    (htype : R (.univ .type) (.univ .type)) (hfirst : Option.Rel R sorts.head? sorts'.head?)
    (hagree : sortsAgree sorts = sortsAgree sorts') : R (commonSort sorts) (commonSort sorts') := by
  cases sorts with
  | nil =>
    cases sorts' with
    | nil => exact htype
    | cons S' sorts' => cases hfirst
  | cons S sorts =>
    cases sorts' with
    | nil => cases hfirst
    | cons S' sorts' =>
      cases hfirst with
      | some hS =>
        rw [sortsAgree, sortsAgree] at hagree
        rw [commonSort, commonSort, hagree]
        split
        · exact hS
        · exact htype

/-- The sorts that the check of a product compares, that of the result last. -/
def productSorts (ps : List (Param Term)) (r : Term) (ctx : Context) :
    Except TypeError (List Term) := do
  let sorts ← checkParams ps ctx
  let sort ← r.check (ctx.pushParams ps)
  pure (sorts ++ [sort])

theorem check_product_eq_commonSort (ps : List (Param Term)) (r : Term) (ctx : Context) :
    (Term.product ps r).check ctx = commonSort <$> productSorts ps r ctx := by
  rw [check_product_eq, productSorts]
  simp only [map_bind, map_pure]

theorem productSorts_eq_ok_iff {ps : List (Param Term)} {r : Term} {ctx : Context}
    {sorts : List Term} :
    productSorts ps r ctx = .ok sorts ↔
      ∃ init S, checkParams ps ctx = .ok init ∧ r.check (ctx.pushParams ps) = .ok S ∧
        sorts = init ++ [S] := by
  rw [productSorts]
  simp only [bind_eq_ok_iff]
  constructor
  · rintro ⟨init, hinit, S, hS, h⟩
    exact ⟨init, S, hinit, hS, (Except.ok.inj h).symm⟩
  · rintro ⟨init, S, hinit, hS, rfl⟩
    exact ⟨init, hinit, S, hS, rfl⟩

end Sorts

mutual
/-- Whether something holds of every subterm that the check of a term comes to, in the context in
which it is checked. -/
def Term.Throughout (Φ : Term → Context → Prop) : Term → Context → Prop
  | .var x i, ctx => Φ (.var x i) ctx
  | .global x, ctx => Φ (.global x) ctx
  | .univ u, ctx => Φ (.univ u) ctx
  | .product ps r, ctx =>
      Φ (.product ps r) ctx ∧ ParamsThroughout Φ ps ctx ∧ r.Throughout Φ (ctx.pushParams ps)
  | .lambda ps b, ctx =>
      Φ (.lambda ps b) ctx ∧ ParamsThroughout Φ ps ctx ∧ b.Throughout Φ (ctx.pushParams ps)
  | .letIn x v t b, ctx =>
      Φ (.letIn x v t b) ctx ∧ v.Throughout Φ ctx ∧ t.Throughout Φ ctx ∧
        ∀ V ∈ (v.check ctx).toOption, b.Throughout Φ (ctx.push x V)
  | .apply f ⟨a, as⟩, ctx =>
      Φ (.apply f ⟨a, as⟩) ctx ∧ f.Throughout Φ ctx ∧ a.Throughout Φ ctx ∧
        TermsThroughout Φ as ctx
  | .cast t k ty, ctx => Φ (.cast t k ty) ctx ∧ t.Throughout Φ ctx
  | .caseOf p s bs, ctx => Φ (.caseOf p s bs) ctx ∧ s.Throughout Φ ctx
  | .fix i b, ctx => Φ (.fix i b) ctx
termination_by structural t => t

def ParamsThroughout (Φ : Term → Context → Prop) : List (Param Term) → Context → Prop
  | [], _ => True
  | ⟨x, t⟩ :: ps, ctx => t.Throughout Φ ctx ∧ ParamsThroughout Φ ps (ctx.push x t)
termination_by structural ps => ps

def TermsThroughout (Φ : Term → Context → Prop) : List Term → Context → Prop
  | [], _ => True
  | t :: ts, ctx => t.Throughout Φ ctx ∧ TermsThroughout Φ ts ctx
termination_by structural ts => ts
end

theorem termsThroughout_iff {Φ : Term → Context → Prop} {ts : List Term} {ctx : Context} :
    TermsThroughout Φ ts ctx ↔ ∀ t ∈ ts, t.Throughout Φ ctx := by
  induction ts with
  | nil => simp [TermsThroughout]
  | cons t ts ih => rw [TermsThroughout, List.forall_mem_cons, ih]

section And
variable {Φ Ψ : Term → Context → Prop}

mutual
theorem Term.Throughout.and : ∀ {t : Term} {ctx : Context}, t.Throughout Φ ctx →
    t.Throughout Ψ ctx → t.Throughout (fun u c => Φ u c ∧ Ψ u c) ctx
  | .var .., _, h, h' => ⟨h, h'⟩
  | .global _, _, h, h' => ⟨h, h'⟩
  | .univ _, _, h, h' => ⟨h, h'⟩
  | .product .., _, h, h' => ⟨⟨h.1, h'.1⟩, paramsThroughout_and h.2.1 h'.2.1, h.2.2.and h'.2.2⟩
  | .lambda .., _, h, h' => ⟨⟨h.1, h'.1⟩, paramsThroughout_and h.2.1 h'.2.1, h.2.2.and h'.2.2⟩
  | .letIn .., _, h, h' => ⟨⟨h.1, h'.1⟩, h.2.1.and h'.2.1, h.2.2.1.and h'.2.2.1,
      fun V hV => (h.2.2.2 V hV).and (h'.2.2.2 V hV)⟩
  | .apply _ ⟨_, _⟩, _, h, h' => ⟨⟨h.1, h'.1⟩, h.2.1.and h'.2.1, h.2.2.1.and h'.2.2.1,
      termsThroughout_and h.2.2.2 h'.2.2.2⟩
  | .cast .., _, h, h' => ⟨⟨h.1, h'.1⟩, h.2.and h'.2⟩
  | .caseOf .., _, h, h' => ⟨⟨h.1, h'.1⟩, h.2.and h'.2⟩
  | .fix .., _, h, h' => ⟨h, h'⟩
termination_by structural t => t

theorem paramsThroughout_and : ∀ {ps : List (Param Term)} {ctx : Context},
    ParamsThroughout Φ ps ctx → ParamsThroughout Ψ ps ctx →
      ParamsThroughout (fun u c => Φ u c ∧ Ψ u c) ps ctx
  | [], _, _, _ => trivial
  | _ :: _, _, h, h' => ⟨h.1.and h'.1, paramsThroughout_and h.2 h'.2⟩
termination_by structural ps => ps

theorem termsThroughout_and : ∀ {ts : List Term} {ctx : Context}, TermsThroughout Φ ts ctx →
    TermsThroughout Ψ ts ctx → TermsThroughout (fun u c => Φ u c ∧ Ψ u c) ts ctx
  | [], _, _, _ => trivial
  | _ :: _, _, h, h' => ⟨h.1.and h'.1, termsThroughout_and h.2 h'.2⟩
termination_by structural ts => ts
end

end And

section Decidable
variable {Φ : Term → Context → Prop} [∀ t ctx, Decidable (Φ t ctx)]

mutual
def Term.decidableThroughout : ∀ (t : Term) (ctx : Context), Decidable (t.Throughout Φ ctx)
  | .var x i, ctx => inferInstanceAs (Decidable (Φ (.var x i) ctx))
  | .global x, ctx => inferInstanceAs (Decidable (Φ (.global x) ctx))
  | .univ u, ctx => inferInstanceAs (Decidable (Φ (.univ u) ctx))
  | .product ps r, ctx =>
      have := decidableParamsThroughout ps ctx
      have := r.decidableThroughout (ctx.pushParams ps)
      inferInstanceAs (Decidable (_ ∧ ParamsThroughout Φ ps ctx ∧ r.Throughout Φ _))
  | .lambda ps b, ctx =>
      have := decidableParamsThroughout ps ctx
      have := b.decidableThroughout (ctx.pushParams ps)
      inferInstanceAs (Decidable (_ ∧ ParamsThroughout Φ ps ctx ∧ b.Throughout Φ _))
  | .letIn x v t b, ctx =>
      have := v.decidableThroughout ctx
      have := t.decidableThroughout ctx
      have := fun V => b.decidableThroughout (ctx.push x V)
      inferInstanceAs (Decidable (_ ∧ v.Throughout Φ ctx ∧ t.Throughout Φ ctx ∧
        ∀ V ∈ (v.check ctx).toOption, b.Throughout Φ (ctx.push x V)))
  | .apply f ⟨a, as⟩, ctx =>
      have := f.decidableThroughout ctx
      have := a.decidableThroughout ctx
      have := decidableTermsThroughout as ctx
      inferInstanceAs (Decidable (_ ∧ f.Throughout Φ ctx ∧ a.Throughout Φ ctx ∧
        TermsThroughout Φ as ctx))
  | .cast t _ _, ctx =>
      have := t.decidableThroughout ctx
      inferInstanceAs (Decidable (_ ∧ t.Throughout Φ ctx))
  | .caseOf _ s _, ctx =>
      have := s.decidableThroughout ctx
      inferInstanceAs (Decidable (_ ∧ s.Throughout Φ ctx))
  | .fix i b, ctx => inferInstanceAs (Decidable (Φ (.fix i b) ctx))
termination_by structural t => t

def decidableParamsThroughout :
    ∀ (ps : List (Param Term)) (ctx : Context), Decidable (ParamsThroughout Φ ps ctx)
  | [], _ => isTrue trivial
  | ⟨x, t⟩ :: ps, ctx =>
      have := t.decidableThroughout ctx
      have := decidableParamsThroughout ps (ctx.push x t)
      inferInstanceAs (Decidable (t.Throughout Φ ctx ∧ ParamsThroughout Φ ps _))
termination_by structural ps => ps

def decidableTermsThroughout :
    ∀ (ts : List Term) (ctx : Context), Decidable (TermsThroughout Φ ts ctx)
  | [], _ => isTrue trivial
  | t :: ts, ctx =>
      have := t.decidableThroughout ctx
      have := decidableTermsThroughout ts ctx
      inferInstanceAs (Decidable (t.Throughout Φ ctx ∧ TermsThroughout Φ ts ctx))
termination_by structural ts => ts
end

instance (t : Term) (ctx : Context) : Decidable (t.Throughout Φ ctx) :=
  t.decidableThroughout ctx

end Decidable

/-- What is known of the binders above a subterm. There is nothing to know under a let variable of
which the value has no type. -/
class Surroundings (σ : Type) where
  underParam : σ → Param Term → σ
  underLet? : σ → Option String → Term → Option σ

instance : Surroundings Context where
  underParam ctx p := ctx.push p.name p.type
  underLet? ctx x v := (v.check ctx).toOption.map (ctx.push x)

def Surroundings.underParams {σ : Type} [Surroundings σ] (s : σ) (ps : List (Param Term)) : σ :=
  ps.foldl underParam s

section WhereUsed
variable {σ : Type} [Surroundings σ]
open Surroundings

mutual
/-- Whether something holds of every subterm that the check of a term comes to and of which the type
counts; the flag says whether that of the term itself does. The check only asks of arguments, of the
types of parameters of a lambda and of the type of a let variable whether they have a type. -/
def Term.WhereUsed (Φ : Term → σ → Prop) : Bool → Term → σ → Prop
  | used, .var x i, s => used = true → Φ (.var x i) s
  | used, .global x, s => used = true → Φ (.global x) s
  | used, .univ u, s => used = true → Φ (.univ u) s
  | used, .product ps r, s =>
      (used = true → Φ (.product ps r) s) ∧ ParamsWhereUsed Φ used ps s ∧
        r.WhereUsed Φ used (underParams s ps)
  | used, .lambda ps b, s =>
      (used = true → Φ (.lambda ps b) s) ∧ ParamsWhereUsed Φ false ps s ∧
        b.WhereUsed Φ used (underParams s ps)
  | used, .letIn x v t b, s =>
      (used = true → Φ (.letIn x v t b) s) ∧ v.WhereUsed Φ true s ∧ t.WhereUsed Φ false s ∧
        ∀ s' ∈ underLet? s x v, b.WhereUsed Φ used s'
  | used, .apply f ⟨a, as⟩, s =>
      (used = true → Φ (.apply f ⟨a, as⟩) s) ∧ f.WhereUsed Φ true s ∧ a.WhereUsed Φ false s ∧
        TermsWhereUsed Φ as s
  | used, .cast t k ty, s => (used = true → Φ (.cast t k ty) s) ∧ t.WhereUsed Φ used s
  | used, .caseOf p t bs, s => (used = true → Φ (.caseOf p t bs) s) ∧ t.WhereUsed Φ true s
  | used, .fix i b, s => used = true → Φ (.fix i b) s
termination_by structural _ t => t

def ParamsWhereUsed (Φ : Term → σ → Prop) : Bool → List (Param Term) → σ → Prop
  | _, [], _ => True
  | used, ⟨x, t⟩ :: ps, s =>
      t.WhereUsed Φ used s ∧ ParamsWhereUsed Φ used ps (underParam s ⟨x, t⟩)
termination_by structural _ ps => ps

def TermsWhereUsed (Φ : Term → σ → Prop) : List Term → σ → Prop
  | [], _ => True
  | t :: ts, s => t.WhereUsed Φ false s ∧ TermsWhereUsed Φ ts s
termination_by structural ts => ts
end

theorem termsWhereUsed_iff {Φ : Term → σ → Prop} {ts : List Term} {s : σ} :
    TermsWhereUsed Φ ts s ↔ ∀ t ∈ ts, t.WhereUsed Φ false s := by
  induction ts with
  | nil => simp [TermsWhereUsed]
  | cons t ts ih => rw [TermsWhereUsed, List.forall_mem_cons, ih]

section Decidable
variable {Φ : Term → σ → Prop} [∀ t s, Decidable (Φ t s)]

mutual
def Term.decidableWhereUsed :
    ∀ (used : Bool) (t : Term) (s : σ), Decidable (t.WhereUsed Φ used s)
  | used, .var x i, s => inferInstanceAs (Decidable (used = true → Φ (.var x i) s))
  | used, .global x, s => inferInstanceAs (Decidable (used = true → Φ (.global x) s))
  | used, .univ u, s => inferInstanceAs (Decidable (used = true → Φ (.univ u) s))
  | used, .product ps r, s =>
      have := decidableParamsWhereUsed used ps s
      have := r.decidableWhereUsed used (underParams s ps)
      inferInstanceAs (Decidable (_ ∧ ParamsWhereUsed Φ used ps s ∧ r.WhereUsed Φ used _))
  | used, .lambda ps b, s =>
      have := decidableParamsWhereUsed false ps s
      have := b.decidableWhereUsed used (underParams s ps)
      inferInstanceAs (Decidable (_ ∧ ParamsWhereUsed Φ false ps s ∧ b.WhereUsed Φ used _))
  | used, .letIn x v t b, s =>
      have := v.decidableWhereUsed true s
      have := t.decidableWhereUsed false s
      have := fun s' => b.decidableWhereUsed used s'
      inferInstanceAs (Decidable (_ ∧ v.WhereUsed Φ true s ∧ t.WhereUsed Φ false s ∧
        ∀ s' ∈ underLet? s x v, b.WhereUsed Φ used s'))
  | _, .apply f ⟨a, as⟩, s =>
      have := f.decidableWhereUsed true s
      have := a.decidableWhereUsed false s
      have := decidableTermsWhereUsed as s
      inferInstanceAs (Decidable (_ ∧ f.WhereUsed Φ true s ∧ a.WhereUsed Φ false s ∧
        TermsWhereUsed Φ as s))
  | used, .cast t _ _, s =>
      have := t.decidableWhereUsed used s
      inferInstanceAs (Decidable (_ ∧ t.WhereUsed Φ used s))
  | _, .caseOf _ t _, s =>
      have := t.decidableWhereUsed true s
      inferInstanceAs (Decidable (_ ∧ t.WhereUsed Φ true s))
  | used, .fix i b, s => inferInstanceAs (Decidable (used = true → Φ (.fix i b) s))
termination_by structural _ t => t

def decidableParamsWhereUsed :
    ∀ (used : Bool) (ps : List (Param Term)) (s : σ), Decidable (ParamsWhereUsed Φ used ps s)
  | _, [], _ => isTrue trivial
  | used, ⟨x, t⟩ :: ps, s =>
      have := t.decidableWhereUsed used s
      have := decidableParamsWhereUsed used ps (underParam s ⟨x, t⟩)
      inferInstanceAs (Decidable (t.WhereUsed Φ used s ∧ ParamsWhereUsed Φ used ps _))
termination_by structural _ ps => ps

def decidableTermsWhereUsed : ∀ (ts : List Term) (s : σ), Decidable (TermsWhereUsed Φ ts s)
  | [], _ => isTrue trivial
  | t :: ts, s =>
      have := t.decidableWhereUsed false s
      have := decidableTermsWhereUsed ts s
      inferInstanceAs (Decidable (t.WhereUsed Φ false s ∧ TermsWhereUsed Φ ts s))
termination_by structural ts => ts
end

instance (used : Bool) (t : Term) (s : σ) : Decidable (t.WhereUsed Φ used s) :=
  t.decidableWhereUsed used s

end Decidable

end WhereUsed

/-- No index leaves its range where the rule for a term moves or substitutes variables. -/
def StepExact : Term → Context → Prop
  | .var _ i, ctx => ∀ e ∈ ctx.locals.get? i, e.type.RaisesExactly (i + 1)
  | .letIn x v _ b, ctx => ∀ V ∈ (v.check ctx).toOption, ∀ B ∈ (b.check (ctx.push x V)).toOption,
      B.InstantiatesExactly [v]
  | .apply f as, ctx => ∀ F ∈ (f.check ctx).toOption,
      (F.residual as.toList.length).InstantiatesExactly as.toList.reverse
  | .caseOf p s _, ctx => ∀ S ∈ (s.check ctx).toOption, p.InstantiatesExactly [S]
  | _, _ => True

instance : ∀ (t : Term) (ctx : Context), Decidable (StepExact t ctx)
  | .var _ i, ctx =>
      inferInstanceAs (Decidable (∀ e ∈ ctx.locals.get? i, e.type.RaisesExactly (i + 1)))
  | .letIn x v _ b, ctx =>
      inferInstanceAs (Decidable (∀ V ∈ (v.check ctx).toOption,
        ∀ B ∈ (b.check (ctx.push x V)).toOption, B.InstantiatesExactly [v]))
  | .apply f as, ctx =>
      inferInstanceAs (Decidable (∀ F ∈ (f.check ctx).toOption,
        (F.residual as.toList.length).InstantiatesExactly as.toList.reverse))
  | .caseOf p s _, ctx =>
      inferInstanceAs (Decidable (∀ S ∈ (s.check ctx).toOption, p.InstantiatesExactly [S]))
  | .global _, _ => isTrue trivial
  | .univ _, _ => isTrue trivial
  | .product .., _ => isTrue trivial
  | .lambda .., _ => isTrue trivial
  | .cast .., _ => isTrue trivial
  | .fix .., _ => isTrue trivial

/-- No index leaves its range when a term is checked. -/
def Term.ChecksExactly (t : Term) (ctx : Context) : Prop := t.Throughout StepExact ctx

instance (t : Term) (ctx : Context) : Decidable (t.ChecksExactly ctx) :=
  inferInstanceAs (Decidable (t.Throughout StepExact ctx))

end InductiveTerms
