import InductiveTerms.Proofs.Lowering
import InductiveTerms.Proofs.Preservation
import InductiveTerms.Proofs.Reducts

/-!
Rewriting outside of a bundle. A term of a bundle that does not refer to its functions can be taken
out of it and be rewritten there, in lockstep with the term inside (`Plan.lockstep_alone`). Outside
there is nothing to put for variables but constants (`Plan.rewrite_reduces_withConstants`), which
may be put one after another, parameter by parameter.
-/
namespace InductiveTerms
open Term

namespace Specialization

section Constants
variable {constants : List Term} {before : Pattern}

theorem withConstants_param {n j : Nat} {p : Pattern} (h : j < p.length) :
    withConstants constants n p j = putParam constants n p (p.length - 1 - j) := if_pos h

theorem withConstants_outside {n j : Nat} {p : Pattern} (h : p.length ≤ j) :
    withConstants constants n p j = .var "" (j - p.length + p.kept) := if_neg (Nat.not_lt.2 h)

theorem putParam_append (s : Option Nat) {k : Nat} (hk : k < before.length) :
    (putParam constants 0 (before ++ [s]) k).raise 0 =
      (putParam constants 0 before k).raise (Pattern.kept [s]) := by
  have hslot := List.getElem?_eq_getElem hk
  rw [putParam, putParam, List.getElem?_append_left hk, hslot, kept_append]
  cases before[k] with
  | none =>
    rw [List.drop_append_of_le_length hk, kept_append, raise_var, raise_var, Nat.add_zero]
  | some slot => rw [raise_raise, raise_raise, Nat.zero_add, Nat.zero_add, Nat.add_zero]

theorem withConstants_append_succ (s : Option Nat) (j : Nat) :
    (withConstants constants 0 (before ++ [s]) (j + 1)).raise 0 =
      (withConstants constants 0 before j).raise (Pattern.kept [s]) := by
  have hlength : (before ++ [s]).length = before.length + 1 := by simp
  rcases Nat.lt_or_ge j before.length with hlt | hle
  · have hindex : (before ++ [s]).length - 1 - (j + 1) = before.length - 1 - j := by omega
    rw [withConstants_param (by omega), withConstants_param hlt, hindex,
      putParam_append s (by omega)]
  · have hindex : j + 1 - (before ++ [s]).length + (before.kept + Pattern.kept [s]) + 0 =
        j - before.length + before.kept + Pattern.kept [s] := by omega
    rw [withConstants_outside (by omega), withConstants_outside hle, kept_append, raise_var,
      raise_var, hindex]

theorem withConstants_append_none (j : Nat) :
    (lift 1 (withConstants constants 0 before) j).raise 0 =
      (withConstants constants 0 (before ++ [none]) j).raise 0 := by
  cases j with
  | zero =>
    rw [lift_of_lt Nat.one_pos, withConstants_param (by simp), putParam]
    simp [Pattern.kept]
  | succ j =>
    rw [withConstants_append_succ, lift_of_le (Nat.le_add_left 1 j), Nat.add_sub_cancel,
      raise_raise]
    rfl

/-- In the place of a parameter with a slot stands the constant, past the parameters kept before. -/
theorem withConstants_append_some (slot j : Nat) :
    (extend [(constantAt constants slot).raise before.kept] (withConstants constants 0 before)
      j).raise 0 = (withConstants constants 0 (before ++ [some slot]) j).raise 0 := by
  cases j with
  | zero =>
    rw [extend_of_lt Nat.one_pos, withConstants_param (by simp), putParam]
    simp [Pattern.kept]
  | succ j =>
    rw [withConstants_append_succ, extend_of_le (Nat.le_add_left 1 j)]
    rfl

theorem withConstants_nil : withConstants constants 0 [] = fun j => .var "" j := by
  funext j
  rw [withConstants_outside (Nat.zero_le j)]
  rfl

end Constants

section Outside
variable {plan : Plan}

/-- Outside of a bundle a plan puts constants for parameters and nothing else. -/
theorem Plan.binding_eq_withConstants (hsize : plan.bundleSize = 0) :
    plan.binding = withConstants plan.constants 0 plan.pattern := by
  funext j
  have hkept : plan.pattern.kept ≤ plan.pattern.length := List.countP_le_length
  rcases Nat.lt_or_ge j plan.pattern.length with hlt | hle
  · rw [binding_param hlt, withConstants_param hlt, hsize]
  · have hindex : j - (plan.pattern.length - plan.pattern.kept) =
        j - plan.pattern.length + plan.pattern.kept := by omega
    rw [binding_outside (by omega), withConstants_outside hle, hindex]

theorem Plan.rewrite_reduces_withConstants {t u : Term} (hu : plan.rewrite t = .ok u)
    (hsize : plan.bundleSize = 0)
    (hexact : ∀ o ∈ t.occurrences 0, plan.ReplyExact (.var "" o.1) o.2) :
    Reduces (t.bind (withConstants plan.constants 0 plan.pattern)) u := by
  rw [← binding_eq_withConstants hsize]
  exact visited_reduces t hexact (visit_of_rewrite hu)

end Outside

section Alone

/-- The plan for a term that is taken out of the bundle. -/
def Plan.alone (plan : Plan) : Plan := { plan with bundleSize := 0, replacements := [] }

variable {plan : Plan}

@[simp] theorem Plan.alone_pattern : plan.alone.pattern = plan.pattern := rfl

@[simp] theorem Plan.alone_bundleSize : plan.alone.bundleSize = 0 := rfl

@[simp] theorem Plan.alone_constants : plan.alone.constants = plan.constants := rfl

/-- All that it inserts is constants, which move less far without the bundle. -/
theorem Plan.inserted?_of_alone {j : Nat} {c : Term × Nat} (h : c ∈ plan.alone.inserted? j) :
    j < plan.pattern.length ∧ plan.inserted? j = some (c.1, c.2 + plan.bundleSize) := by
  rw [inserted?, alone_pattern, alone_constants, alone_bundleSize, Nat.add_zero,
    Nat.add_zero] at h
  rw [inserted?]
  by_cases hparam : j < plan.pattern.length
  · refine ⟨hparam, ?_⟩
    rw [if_pos hparam] at h ⊢
    cases hs : plan.pattern[plan.pattern.length - 1 - j]? with
    | none => simp [hs] at h
    | some s =>
      cases s with
      | none => simp [hs] at h
      | some slot =>
        simp only [hs] at h ⊢
        obtain ⟨constant, hconstant, rfl⟩ := Option.map_eq_some_iff.1 h
        rw [hconstant, Option.map_some]
  · rw [if_neg hparam, if_neg hparam] at h
    cases h

theorem Plan.ReplyExact.alone {x : String} {i d : Nat} (h : plan.ReplyExact (.var x i) d) :
    plan.alone.ReplyExact (.var x i) d := by
  intro hle c hc
  exact (h hle _ (inserted?_of_alone hc).2).mono (by dsimp only; omega)

theorem Plan.Exact.replyExact_alone {t t' : Term} (h : plan.Exact t' 0)
    (hopens : Opens plan.pattern.length plan.bundleSize t t') :
    ∀ o ∈ t.occurrences 0, plan.alone.ReplyExact (.var "" o.1) o.2 := by
  intro o ho hle c hc
  have hmem := hopens.mem_occurrences ho
  have hparam := (inserted?_of_alone hc).1
  -- what constants are put for has not moved
  rw [if_pos (by omega)] at hmem
  exact (h.replyExact_of_mem _ hmem).alone hle c hc

/-- A variable outside of a bundle is left as it is inside, but for where what is outside stands. -/
theorem Plan.leaves_alone_var {x y : String} {i j d : Nat} (h : plan.ReplyExact (.var y j) d)
    (hj : j = if i < plan.pattern.length + d then i else i + plan.bundleSize) :
    Accord AnyErrors (Opens (plan.pattern.kept + d) plan.bundleSize)
      (plan.alone.leaves (.var x i) d) (plan.leaves (.var y j) d) := by
  have hkept : plan.pattern.kept ≤ plan.pattern.length := List.countP_le_length
  rcases Nat.lt_or_ge i (plan.pattern.length + d) with hlt | hle
  · obtain rfl : j = i := by rw [hj, if_pos hlt]
    rcases Nat.lt_or_ge j d with hinner | hle
    · rw [leaves_var_inner hinner, leaves_var_inner hinner]
      exact .ok (opens_var (by rw [if_pos (by omega)]))
    have hparam : j - d < plan.pattern.length := by omega
    obtain ⟨s, hs⟩ : ∃ s, plan.pattern[plan.pattern.length - 1 - (j - d)]? = some s :=
      ⟨_, List.getElem?_eq_getElem (by omega)⟩
    have hparam' : j - d < plan.alone.pattern.length := hparam
    cases s with
    | none =>
      have hlast := kept_drop_lt hs
      rw [leaves_var_kept hle hparam hs, leaves_var_kept hle hparam' hs, alone_pattern]
      exact .ok (opens_var (by rw [if_pos (by omega)]))
    | some slot =>
      rw [leaves_var_constant hle hparam hs, leaves_var_constant hle hparam' hs, alone_pattern,
        alone_constants, alone_bundleSize]
      cases hc : plan.constants[slot]? with
      | none => exact .error trivial
      | some c =>
        have hinserted : plan.inserted? (j - d) =
            some (c, plan.pattern.kept + plan.bundleSize) := by
          simp only [inserted?, if_pos hparam, hs, hc, Option.map_some]
        have hraises : c.RaisesExactly (d + (plan.pattern.kept + plan.bundleSize)) :=
          h hle _ hinserted
        rw [← Nat.add_assoc] at hraises
        rw [Nat.add_zero, ← Nat.add_assoc, Nat.add_comm plan.pattern.kept d]
        exact .ok hraises.opens_shift
  · obtain rfl : j = i + plan.bundleSize := by rw [hj, if_neg (by omega)]
    have halone : plan.alone.leaves (.var x i) d = _ :=
      leaves_var_outside (show d + (plan.pattern.length + 0) ≤ i by omega)
    rw [halone, leaves_var_outside (by omega), alone_pattern]
    refine .ok (opens_var ?_)
    rw [if_neg (by omega)]
    omega

theorem Plan.lockstep_alone (plan : Plan) :
    Lockstep plan.pattern.length plan.pattern.kept plan.bundleSize plan.alone plan
      (fun _ _ => True) plan.Exact where
  children _ _ _ := trivial
  children' h := h.children
  var _ h hj := leaves_alone_var h.replyExact hj
  reduceHead _ h' _ _ hu' hopens :=
    hopens.reduceHead (hopens.reducesExactly (h'.reducesExactly hu')) (h'.reducesExactly hu')

theorem Plan.Exact.rewrite_alone_accord {t t' : Term} (hexact : plan.Exact t' 0)
    (h : Opens plan.pattern.length plan.bundleSize t t') :
    Accord AnyErrors (Opens plan.pattern.kept plan.bundleSize) (plan.alone.rewrite t)
      (plan.rewrite t') := by
  rw [rewrite_eq_leaves, rewrite_eq_leaves]
  exact plan.lockstep_alone.leaves_accord t trivial hexact h

theorem rewriteParams_alone_accord {p : Pattern} {ps ps' : List (Param Term)}
    (h : ps'.map bareParam = bindParams (opening 0 plan.bundleSize) (ps.map bareParam))
    (hexact : ∀ (k : Nat) (x : Param Term), ps'[k]? = some x → p[k]? = some none →
      { plan with pattern := p.take k }.Exact x.type 0) :
    Accord AnyErrors
      (fun qs qs' => qs'.map bareParam =
        bindParams (opening 0 plan.bundleSize) (qs.map bareParam))
      (rewriteParams plan.alone [] ps p) (rewriteParams plan [] ps' p) :=
  rewriteParams_accord plan.alone plan [] h fun k _ x' _ hx' hk hopens => by
    rw [List.nil_append, Nat.zero_add] at hopens ⊢
    exact (hexact k x' hx' hk).rewrite_alone_accord hopens

end Alone

end Specialization
end InductiveTerms
