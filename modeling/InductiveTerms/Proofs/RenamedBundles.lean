import InductiveTerms.Proofs.Lockstep
import InductiveTerms.Proofs.Renaming
import InductiveTerms.Proofs.SameDemands

/-!
Bundles that are the same without display. The terms in them mean and demand the same, so they have
the same closure (`closure?_congr`), and rewriting them goes in lockstep, so they are specialized
to bundles that are the same without display, or both are not (`specialize_congr`).
-/
namespace InductiveTerms
open Term

namespace Closure

/-- What a term demands has nothing to do with what is display in it. -/
theorem demandsAlike_bare (t : Term) : ∀ n, DemandsAlike n t t.bare := by
  induction t using induct_children with
  | node t ih =>
    intro n
    rcases eq_fix_or_asFix?_eq_none t with ⟨i, b, rfl⟩ | hfix
    · have hrefs := externalReferences_congr (bare_bare (.fix i b))
      rw [bare_fix] at hrefs ⊢
      exact .fix fun r _ => by rw [hrefs]
    · rw [bare_eq t n]
      have hchildren : DemandsAlike n t (t.mapChildren (fun c _ => c.bare) n) :=
        .node hfix fun c hc => ih n c hc c.2
      refine hchildren.trans ?_
      cases t with
      | fix i b => simp [asFix?] at hfix
      | lambda ps b =>
        refine ⟨fun _ => rfl, fun _ => ?_⟩
        simp only [mapChildren, bareNode, demands, List.length_map]
      | _ => exact ⟨fun _ => rfl, fun _ => rfl⟩

end Closure

namespace Bundle
open Closure
variable {b c : Bundle Term}

/-- Bundles that are the same without display demand the same. -/
theorem demandsAlike_of_bare (h : b.functions.map bareFunction = c.functions.map bareFunction) :
    b.DemandsAlike c :=
  (forall₂_of_map_eq h).imp fun f f' hff =>
    ⟨(length_eq_of_map (congrArg FixFunction.params hff)).symm, by
      have hbody : f.body.bare = f'.body.bare := congrArg FixFunction.body hff
      have halike := demandsAlike_bare f.body (b.size + f.arity)
      rw [hbody] at halike
      exact halike.trans (demandsAlike_bare f'.body _).symm⟩

theorem closure?_congr (h : b.functions.map bareFunction = c.functions.map bareFunction)
    (seed : Nat) (p : Pattern) : b.closure? seed p = c.closure? seed p :=
  ((demandsAlike_of_bare h).closure?_eq seed p).symm

section Specialize
variable {steps : Nat} {info : SpecInfo} {constants constants' : List Term}
  {namer namer' : Nat → String}

theorem opens_zero_of_bare (h : b.functions.map bareFunction = c.functions.map bareFunction)
    (i : Nat) : Opens 0 0 (.fix i b) (.fix i c) := by
  rw [opens_zero, bare_fix, bare_fix, h]

/-- Rewriting goes in lockstep in bundles that are the same without display. -/
theorem lockstep_of_bare (steps : Nat) (info : SpecInfo) (namer namer' : Nat → String)
    (h : b.functions.map bareFunction = c.functions.map bareFunction)
    (hconstants : constants.map bare = constants'.map bare) (q : Pattern) :
    Specialization.Plan.Lockstep (0 + b.size + q.length) (0 + b.size + q.kept) 0
      (b.plan steps info constants namer q) (c.plan steps info constants' namer' q)
      (fun _ _ => True) (fun _ _ => True) where
  children _ _ _ := trivial
  children' _ _ _ := trivial
  var _ _ hj := by
    have hmoved : List.Forall₂ (Opens 0 0) constants constants' :=
      (forall₂_of_map_eq hconstants).imp fun _ _ hc => opens_zero.2 hc.symm
    have halong := plan_alongside steps info namer namer' (opens_zero_of_bare h 0) hmoved q
    exact halong.leaves_var_accord hj fun _ _ _ _ _ _ _ _ hopens =>
      opens_zero.2 (bare_shift_congr (opens_zero.1 hopens) 0 _)
  reduceHead _ _ _ _ _ hopens := by
    have hreduce := reduceHead_congr steps (opens_zero.1 hopens).symm
    exact rel_imp hreduce fun _ _ hbare => opens_zero.2 hbare.symm

theorem specialize_congr (h : b.functions.map bareFunction = c.functions.map bareFunction)
    (hconstants : constants.map bare = constants'.map bare) :
    Accord AnyErrors (fun r r' => r.functions.map bareFunction = r'.functions.map bareFunction)
      (b.specialize steps info constants namer) (c.specialize steps info constants' namer') := by
  refine (specialize_accord (opens_zero_of_bare h 0) fun q t t' _ _ hopens => ?_).imp
    fun r r' hr => ?_
  · have hlockstep := lockstep_of_bare steps info namer namer' h hconstants q
    have hleaves := hlockstep.leaves_accord t (d := 0) trivial trivial hopens
    rw [Specialization.Plan.rewrite_eq_leaves, Specialization.Plan.rewrite_eq_leaves]
    exact hleaves
  · have hbare := opens_zero.1 (hr 0)
    rw [bare_fix, bare_fix, Term.fix.injEq, Bundle.mk.injEq] at hbare
    exact hbare.2.2.symm

end Specialize
end Bundle
end InductiveTerms
