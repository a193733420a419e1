import InductiveTerms.Proofs.Lockstep
import InductiveTerms.Proofs.Regrouping
import InductiveTerms.Proofs.Renaming

/-!
Specialization under a larger context. A bundle that is moved past new variables, with constants
that are moved past them, is rewritten in lockstep with the bundle that stays, since moving goes
through a step of reduction (`Opens.beta`). What the one is specialized to is what the other one is
specialized to, moved past the new variables (`specialize_shift`).
-/
namespace InductiveTerms
open Term

namespace Term
variable {limit n : Nat}

theorem isHeadRedex_bind_opening (t : Term) :
    (t.bind (opening limit n)).isHeadRedex = t.isHeadRedex := by
  cases t with
  | apply f as =>
    rw [bind_apply]
    cases f with
    | lambda ps b =>
      rw [bind_lambda]
      rfl
    | var x i =>
      rw [bind_var, opening, raise_var]
      rfl
    | _ =>
      rw [bind_eq rfl]
      rfl
  | var x i =>
    rw [bind_var, opening, raise_var]
    rfl
  | _ =>
    rw [bind_eq rfl]
    rfl

theorem Opens.beta {ps qs : List (Param Term)} {b c : Term} {as bs : Arguments Term}
    (h : Opens limit n (.apply (.lambda ps b) as) (.apply (.lambda qs c) bs))
    (hexact : ContractsExactly ps b as.toList) (hexact' : ContractsExactly qs c bs.toList) :
    Opens limit n (Term.beta ps b as.toList) (Term.beta qs c bs.toList) := by
  rw [Opens, bare_apply, bare_apply, bare_lambda, bare_lambda, bind_apply, bind_lambda,
    Term.apply.injEq, Term.lambda.injEq, ← Arguments.toList_inj, Arguments.toList_map,
    Arguments.toList_map, Arguments.toList_map] at h
  obtain ⟨⟨hps, hb⟩, has⟩ := h
  rw [Opens, bare_beta hexact, bare_beta hexact', bare_contract, bare_contract, contract_bind, hps,
    hb, has]

theorem Opens.reduceHead {steps : Nat} {t u : Term} (h : Opens limit n t u)
    (hexact : ReducesExactly steps t) (hexact' : ReducesExactly steps u) :
    Option.Rel (Opens limit n) (t.reduceHead steps) (u.reduceHead steps) := by
  -- one step uses up a step, so what stays in range has to be said of the steps that are left
  refine rel_imp (reduceHead_related (R := fun steps t u => Opens limit n t u ∧
    ReducesExactly steps t ∧ ReducesExactly steps u) ?_ ?_ steps ⟨h, hexact, hexact'⟩)
    fun _ _ ⟨_, hvw, _⟩ => hvw
  · intro _ t u h
    rw [← isHeadRedex_bare u, h.1, isHeadRedex_bind_opening, isHeadRedex_bare]
  · intro s ps b as qs c bs h
    obtain ⟨hopens, ⟨hcontract, hrest⟩, hcontract', hrest'⟩ := h
    exact ⟨hopens.beta hcontract hcontract', hrest, hrest'⟩

theorem Opens.shift {k : Nat} {t u : Term} (h : Opens limit n t u) (ht : t.RaisesExactly k)
    (hu : u.RaisesExactly k) : Opens (limit + k) n (t.shift 0 k) (u.shift 0 k) := by
  rw [Opens, bare_shift_eq_raise ht, bare_shift_eq_raise hu, h, raise_bind_opening]

end Term

namespace Specialization.Plan
open Traversal
variable {plan : Plan} {t u : Term} {d : Nat}

theorem Exact.reducesExactly (h : plan.Exact t d) (hu : Rebuilt (Visited plan.visitor) t d u) :
    ReducesExactly plan.steps u := by
  rcases isHeadRedex_cases u with ⟨ps, b, as, rfl⟩ | hredex
  · have hrebuilt : Rebuilt (fun c e w => w = plan.rewritten c e ∧ True) t d
        (.apply (.lambda ps b) as) := hu.imp fun c _ w hw => ⟨eq_rewritten hw, trivial⟩
    have hreply := h.replyExact
    cases hrebuilt with
    | @apply f _ as₀ _ _ hf has =>
      rw [mapChildren, ← hf.1, ← Arguments.eq_map (eq_map_of_forall₂ has)] at hreply
      exact hreply
  · exact reducesExactly_of_not_isHeadRedex hredex _

end Specialization.Plan

namespace Bundle
open InductiveTerms.Specialization
variable {b b' : Bundle Term} {limit n : Nat} {constants constants' : List Term}

theorem lockstep_of_exact (steps : Nat) (info : SpecInfo) (namer namer' : Nat → String)
    (hb : Opens limit n (.fix 0 b) (.fix 0 b'))
    (hconstants : List.Forall₂ (Opens limit n) constants constants') (q : Pattern) :
    Plan.Lockstep (limit + b.size + q.length) (limit + b.size + q.kept) n
      (b.plan steps info constants namer q) (b'.plan steps info constants' namer' q)
      (b.plan steps info constants namer q).Exact
      (b'.plan steps info constants' namer' q).Exact where
  children h := h.children
  children' h := h.children
  var h h' hj := by
    have halong := plan_alongside steps info namer namer' hb hconstants q
    refine halong.leaves_var_accord hj fun hji hle _ _ _ _ hc hc' hopens => ?_
    subst hji
    exact hopens.shift (h.replyExact hle _ hc) (h'.replyExact hle _ hc')
  reduceHead h h' _ hu hu' hopens := hopens.reduceHead (h.reducesExactly hu) (h'.reducesExactly hu')

theorem specialize_opens {steps : Nat} {info : SpecInfo} {namer namer' : Nat → String}
    (hb : Opens limit n (.fix 0 b) (.fix 0 b'))
    (hconstants : List.Forall₂ (Opens limit n) constants constants')
    (hexact : ∀ q t, b.Part info q t → (b.plan steps info constants namer q).Exact t 0)
    (hexact' : ∀ q t, b'.Part info q t → (b'.plan steps info constants' namer' q).Exact t 0) :
    Accord AnyErrors (fun r r' => ∀ i, Opens limit n (.fix i r) (.fix i r'))
      (b.specialize steps info constants namer) (b'.specialize steps info constants' namer') := by
  refine specialize_accord hb fun q t t' hpart hpart' hopens => ?_
  have hlockstep := lockstep_of_exact steps info namer namer' hb hconstants q
  have hleaves := hlockstep.leaves_accord t (d := 0) (hexact q t hpart) (hexact' q t' hpart') hopens
  rw [Plan.rewrite_eq_leaves, Plan.rewrite_eq_leaves]
  exact hleaves

/-- Whether no index leaves its range when a bundle, the constants `cs` for it and its
specialization are moved up by `n` from `limit` on, and while the bundle `b` and the moved one `b'`
are specialized. -/
structure MovesExactly (steps : Nat) (info : SpecInfo) (cs : List Term)
    (namer namer' : Nat → String) (limit n i : Nat) (b b' : Bundle Term) : Prop where
  bundle : (Term.fix i b).ShiftsExactly limit n
  constants : ∀ c ∈ cs, c.ShiftsExactly limit n
  result : ∀ r, b.specialize steps info cs namer = .ok r → (Term.fix i r).ShiftsExactly limit n
  parts : ∀ q t, b.Part info q t → (b.plan steps info cs namer q).Exact t 0
  moved : ∀ q t, b'.Part info q t →
    (b'.plan steps info (cs.map (·.shift limit n)) namer' q).Exact t 0

theorem eq_fix_of_bare {t : Term} {i : Nat} (h : t.bare = (Term.fix i b).bare) :
    ∃ c, t = .fix i c ∧ (b == c) = true := by
  cases t with
  | fix j c =>
    rw [bare_fix, bare_fix, Term.fix.injEq, Bundle.mk.injEq] at h
    obtain ⟨rfl, _, hfs⟩ := h
    exact ⟨c, rfl, beq_iff_bareFunction.2 hfs.symm⟩
  | _ => simp at h

/-- Specializing a bundle that has been moved, with constants that have been moved, gives what the
bundle is specialized to, moved, or nothing where this is nothing. -/
theorem specialize_shift {steps : Nat} {info : SpecInfo} {namer namer' : Nat → String} {i : Nat}
    (hb : (Term.fix i b).shift limit n = .fix i b')
    (h : MovesExactly steps info constants namer namer' limit n i b b') :
    Accord AnyErrors (fun r r' => ∃ c, (Term.fix i r).shift limit n = .fix i c ∧ (r' == c) = true)
      (b.specialize steps info constants namer)
      (b'.specialize steps info (constants.map (·.shift limit n)) namer') := by
  have hopens : Opens limit n (.fix i b) (.fix i b') := by
    rw [Opens, ← hb, bare_shift_eq_opening h.bundle]
  replace hopens : Opens limit n (.fix 0 b) (.fix 0 b') :=
    opens_fix_iff.2 ⟨rfl, (opens_fix_iff.1 hopens).2⟩
  have hconstants : List.Forall₂ (Opens limit n) constants (constants.map (·.shift limit n)) := by
    rw [List.forall₂_map_right_iff, List.forall₂_same]
    exact fun c hc => bare_shift_eq_opening (h.constants c hc)
  have hspecialize := specialize_opens hopens hconstants h.parts h.moved
  refine .of_iff hspecialize.exists_iff fun r r' hr hr' => eq_fix_of_bare ?_
  rw [bare_shift_eq_opening (h.result r hr)]
  exact (hspecialize.related hr hr' i).symm

/-- `f c n := f c n` on the type that variable `i` outside of the bundle stands for. -/
def looping (i : Nat) : Bundle Term :=
  ⟨none, [⟨"f", [⟨some "c", .var "A" (i + 1)⟩, ⟨some "n", .var "A" (i + 2)⟩], .var "A" (i + 3),
    .applyTo (.var "f" 2) [.var "c" 1, .var "n" 0]⟩]⟩

theorem looping_part {i : Nat} {P : Pattern → Term → Prop}
    (hparam : P [some 0] (.var "A" (i + 2))) (hresult : P [some 0, none] (.var "A" (i + 3)))
    (hbody : P [some 0, none] (.applyTo (.var "f" 2) [.var "c" 1, .var "n" 0])) :
    ∀ q t, (looping i).Part [[some 0, none]] q t → P q t := by
  intro q t h
  cases h with
  | @param j k f q x hf hq hx hk =>
    match j, hf, hq with
    | 0, hf, hq =>
      obtain rfl := Option.some.inj hf
      obtain rfl := Option.some.inj hq
      match k, hx, hk with
      | 1, hx, _ =>
        obtain rfl := Option.some.inj hx
        exact hparam
  | @result j f q hf hq =>
    match j, hf, hq with
    | 0, hf, hq =>
      obtain rfl := Option.some.inj hf
      obtain rfl := Option.some.inj hq
      exact hresult
  | @body j f q hf hq =>
    match j, hf, hq with
    | 0, hf, hq =>
      obtain rfl := Option.some.inj hf
      obtain rfl := Option.some.inj hq
      exact hbody

def loopingPlan (i : Nat) (q : Pattern) : Specialization.Plan :=
  (looping i).plan 1 [[some 0, none]] [.var "z" (i + 1)] (fun _ => "g") q

theorem looping_exact {i : Nat} (hi : i = 0 ∨ i = 1) :
    ∀ q t, (looping i).Part [[some 0, none]] q t → (loopingPlan i q).Exact t 0 := by
  refine looping_part (.var ?_) (.var ?_) ?_
  · rcases hi with rfl | rfl <;> decide
  · rcases hi with rfl | rfl <;> decide
  · have hf : (loopingPlan i [some 0, none]).Exact (.var "f" 2) 0 :=
      .var (by rcases hi with rfl | rfl <;> decide)
    have hc : (loopingPlan i [some 0, none]).Exact (.var "c" 1) 0 :=
      .var (by rcases hi with rfl | rfl <;> decide)
    have hn : (loopingPlan i [some 0, none]).Exact (.var "n" 0) 0 :=
      .var (by rcases hi with rfl | rfl <;> decide)
    refine .node (by simpa [children] using ⟨hf, hc, hn⟩) (And.intro ?_ trivial)
    rcases hi with rfl | rfl <;> decide

/-- The type and the constant that `looping` gets from outside move past a new variable. -/
theorem specialize_shift_looping :
    (Term.fix 0 (looping 0)).shift 0 (1 : Nat) = .fix 0 (looping 1) ∧
      MovesExactly 1 [[some 0, none]] [.var "z" 1] (fun _ => "g") (fun _ => "g") 0 1 0
        (looping 0) (looping 1) ∧
      (∃ r, (looping 0).specialize 1 [[some 0, none]] [.var "z" 1] (fun _ => "g") = .ok r) ∧
      Accord AnyErrors
        (fun r r' => ∃ c, (Term.fix 0 r).shift 0 (1 : Nat) = .fix 0 c ∧ (r' == c) = true)
        ((looping 0).specialize 1 [[some 0, none]] [.var "z" 1] fun _ => "g")
        ((looping 1).specialize 1 [[some 0, none]] [.var "z" 2] fun _ => "g") := by
  have hshift : (Term.fix 0 (looping 0)).shift 0 (1 : Nat) = .fix 0 (looping 1) := by rfl
  have hexact : MovesExactly 1 [[some 0, none]] [.var "z" 1] (fun _ => "g") (fun _ => "g") 0 1 0
      (looping 0) (looping 1) := by
    refine ⟨by decide, by decide, fun r hr => ?_, looping_exact (.inl rfl),
      looping_exact (.inr rfl)⟩
    obtain rfl := Except.ok.inj hr
    decide
  exact ⟨hshift, hexact, ⟨_, rfl⟩, specialize_shift hshift hexact⟩

end Bundle
end InductiveTerms
