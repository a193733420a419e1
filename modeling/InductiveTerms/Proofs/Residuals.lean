import InductiveTerms.Proofs.Rewriting

/-!
What is left of a call. The replacement of a function is an abstraction over a call of a variable
outside it, and so is what remains when it gets some of its arguments (`Residual`). Applied once
more it takes one step of reduction: it is such an abstraction again while arguments are missing,
and a call of the variable once there are enough (`Residual.reduceHead`).
-/
namespace InductiveTerms
namespace Term
open Index

section Bare

@[simp] theorem bare_lambdaOver (ps : List (Param Term)) (b : Term) :
    (lambdaOver ps b).bare = lambdaOver (ps.map bareParam) b.bare := by
  cases ps <;> simp [lambdaOver]

theorem bare_contract (ps : List (Param Term)) (b : Term) (as : List Term) :
    (contract ps b as).bare = contract (ps.map bareParam) b.bare (as.map bare) := by
  have hinst : (fun j => (instantiation (as.take (min ps.length as.length)).reverse j).bare) =
      instantiation ((as.take (min ps.length as.length)).reverse.map bare) :=
    funext fun j => bare_instantiation _ j
  simp only [contract, bare_applyTo, bare_bind, hinst, bare_lambdaOver, List.length_map,
    List.map_drop, List.map_reverse, List.map_take]

@[simp] theorem isHeadRedex_bare (t : Term) : t.bare.isHeadRedex = t.isHeadRedex := by
  cases t with
  | apply f as => cases f <;> simp [isHeadRedex]
  | _ => simp [isHeadRedex]

theorem isHeadRedex_apply_eq_false {f : Term} {as : Arguments Term} :
    (Term.apply f as).isHeadRedex = false ↔ f.kind ≠ .lambda := by
  cases f <;> simp [isHeadRedex, kind]

theorem eq_lambda_of_bare {u b : Term} {ps : List (Param Term)} (h : u.bare = .lambda ps b) :
    ∃ qs c, u = .lambda qs c ∧ qs.map bareParam = ps ∧ c.bare = b := by
  cases u with
  | lambda qs c =>
    rw [bare_lambda] at h
    obtain ⟨hps, hb⟩ := Term.lambda.inj h
    exact ⟨qs, c, rfl, hps, hb⟩
  | _ => simp at h

end Bare

section MapVars
variable {f : Nat → Nat → Term}

theorem mapVars_applyTo (g : Term) (as : List Term) (d : Nat) :
    mapVars f (g.applyTo as) d = (mapVars f g d).applyTo (as.map (mapVars f · d)) := by
  cases as with
  | nil => rfl
  | cons a as => exact mapVars_eq rfl d

theorem mapVars_lambdaOver (ps : List (Param Term)) (b : Term) (d : Nat) :
    mapVars f (lambdaOver ps b) d =
      lambdaOver (mapParamTypes (mapVars f) ps d) (mapVars f b (d + ps.length)) := by
  cases ps with
  | nil => rfl
  | cons p ps => exact mapVars_eq rfl d

theorem substVar_of_le {subs : List Term} {i d : Nat} (h : d + subs.length ≤ i) :
    substVar 0 subs i d = .var "" (i - subs.length) := by
  have hadd : add 0 d ≤ d := by
    simp only [add]
    omega
  have hpast : subs[i - add 0 d]? = none := List.getElem?_eq_none (by omega)
  rw [substVar, if_neg (by omega), hpast]

end MapVars

section Beta
variable {ps : List (Param Term)} {b : Term} {as : List Term}

theorem beta_of_lt (h : as.length < ps.length) :
    beta ps b as = (lambdaOver (ps.drop as.length) b).subst 0 as.reverse := by
  have hmin : min ps.length as.length = as.length := by omega
  change ((lambdaOver (ps.drop (min ps.length as.length)) b).subst 0
    (as.take (min ps.length as.length)).reverse).applyTo (as.drop (min ps.length as.length)) = _
  rw [hmin, List.take_length, List.drop_length, applyTo_nil]

theorem beta_of_le (h : ps.length ≤ as.length) :
    beta ps b as = (b.subst 0 (as.take ps.length).reverse).applyTo (as.drop ps.length) := by
  have hmin : min ps.length as.length = ps.length := by omega
  change ((lambdaOver (ps.drop (min ps.length as.length)) b).subst 0
    (as.take (min ps.length as.length)).reverse).applyTo (as.drop (min ps.length as.length)) = _
  rw [hmin, List.drop_length, lambdaOver_nil]

end Beta

/-- An abstraction over `n` variables, and over one at least, that calls a variable outside it. -/
def Residual (n : Nat) (u : Term) : Prop :=
  0 < n ∧ ∃ ps j as, u.bare = .lambda ps ((Term.var "" j).applyTo as) ∧ ps.length = n ∧ n ≤ j

namespace Residual
variable {n : Nat} {u b : Term} {ps : List (Param Term)} {as : List Term}

theorem eq_lambda (h : Residual n u) : ∃ ps b, u = .lambda ps b := by
  obtain ⟨_, _, _, _, hbare, _⟩ := h
  obtain ⟨ps, b, hu, _⟩ := eq_lambda_of_bare hbare
  exact ⟨ps, b, hu⟩

theorem isHeadRedex (h : Residual n u) : u.isHeadRedex = false := by
  obtain ⟨ps, b, rfl⟩ := h.eq_lambda
  rfl

theorem length_eq (h : Residual n (.lambda ps b)) : ps.length = n := by
  obtain ⟨_, qs, _, _, hbare, hlen, _⟩ := h
  rw [bare_lambda] at hbare
  rw [← hlen, ← (Term.lambda.inj hbare).1, List.length_map]

theorem beta_of_lt (h : Residual n (.lambda ps b)) (has : as.length < n) :
    Residual (n - as.length) (beta ps b as) := by
  obtain ⟨_, qs, j, cs, hbare, hlen, hle⟩ := h
  rw [bare_lambda] at hbare
  obtain ⟨hqs, hb⟩ := Term.lambda.inj hbare
  have hps : ps.length = n := by rw [← hlen, ← hqs, List.length_map]
  have hdrop : (ps.drop as.length).length = n - as.length := by rw [List.length_drop, hps]
  refine ⟨by omega, mapParamTypes (mapVars (substVar 0 as.reverse))
    ((ps.drop as.length).map bareParam) 0, j - as.length,
    cs.map (mapVars (substVar 0 as.reverse) · (n - as.length)), ?_, ?_, by omega⟩
  · have hhead : substVar 0 as.reverse j (n - as.length) = .var "" (j - as.length) := by
      rw [substVar_of_le (by rw [List.length_reverse]; omega), List.length_reverse]
    rw [Term.beta_of_lt (hps ▸ has), bare_subst, bare_lambdaOver, mapVars_lambdaOver, hb,
      mapVars_applyTo, mapVars_var, List.length_map, hdrop, Nat.zero_add, hhead]
    cases hrest : ps.drop as.length with
    | nil =>
      rw [hrest, List.length_nil] at hdrop
      omega
    | cons p ps => rfl
  · rw [length_mapParamTypes, List.length_map, hdrop]

theorem bare_beta_call {j : Nat} {cs : List Term} {qs : List (Param Term)}
    (hbare : (Term.lambda ps b).bare = .lambda qs ((Term.var "" j).applyTo cs))
    (hj : qs.length ≤ j) (has : qs.length ≤ as.length) :
    (beta ps b as).bare = ((Term.var "" (j - qs.length)).applyTo
      (cs.map (mapVars (substVar 0 (as.take qs.length).reverse) · 0))).applyTo
        ((as.drop qs.length).map bare) := by
  rw [bare_lambda] at hbare
  obtain ⟨hqs, hb⟩ := Term.lambda.inj hbare
  have hps : ps.length = qs.length := by rw [← hqs, List.length_map]
  have htake : ((as.take qs.length).reverse).length = qs.length := by
    rw [List.length_reverse, List.length_take]
    omega
  have hhead : substVar 0 (as.take qs.length).reverse j 0 = .var "" (j - qs.length) := by
    rw [substVar_of_le (by omega), htake]
  rw [Term.beta_of_le (hps ▸ has), hps, bare_applyTo, bare_subst, hb, mapVars_applyTo, mapVars_var,
    hhead]

/-- With enough arguments it becomes a call; arguments that are left over stay outside the call. -/
theorem beta_of_le (h : Residual n (.lambda ps b)) (has : n ≤ as.length) :
    ∃ j cs, (beta ps b as).bare = ((Term.var "" j).applyTo cs).applyTo ((as.drop n).map bare) := by
  obtain ⟨_, qs, j, cs, hbare, rfl, hle⟩ := h
  exact ⟨_, _, bare_beta_call hbare hle has⟩

theorem isHeadRedex_call (x : String) (j : Nat) (cs rest : List Term) :
    (((Term.var x j).applyTo cs).applyTo rest).isHeadRedex = false := by
  cases cs <;> cases rest <;> rfl

theorem isHeadRedex_beta (h : Residual n (.lambda ps b)) (as : List Term) :
    (beta ps b as).isHeadRedex = false := by
  rcases Nat.lt_or_ge as.length n with hlt | hle
  · exact (h.beta_of_lt hlt).isHeadRedex
  · obtain ⟨j, cs, hbare⟩ := h.beta_of_le hle
    rw [← isHeadRedex_bare, hbare, isHeadRedex_call]

theorem reduceHead (h : Residual n (.lambda ps b)) (as : Arguments Term) (steps : Nat) :
    (Term.apply (.lambda ps b) as).reduceHead (steps + 1) = some (beta ps b as.toList) :=
  reduceHead_of_not_isHeadRedex (h.isHeadRedex_beta as.toList) steps

/-- If it comes out as an application to as many arguments as it was applied to, then these are the
arguments it misses, and what is applied is the variable in it. -/
theorem eq_var_of_bare_beta (h : Residual n (.lambda ps b)) {as : List Term}
    {cs : Arguments Term} {f : Term} (hbare : (beta ps b as).bare = .apply f cs)
    (hlen : cs.toList.length = as.length) :
    as.length = n ∧ ∃ j, f = .var "" j := by
  rcases Nat.lt_or_ge as.length n with hlt | hle
  · obtain ⟨qs, c, hbeta⟩ := (h.beta_of_lt hlt).eq_lambda
    rw [hbeta, bare_lambda] at hbare
    cases hbare
  have hpos : 0 < n := h.1
  obtain ⟨j, ds, hbeta⟩ := h.beta_of_le hle
  rw [hbeta] at hbare
  -- arguments left over would stand outside the call, and be fewer than all arguments
  have hdrop : as.drop n = [] := by
    cases hrest : as.drop n with
    | nil => rfl
    | cons a rest =>
      rw [hrest] at hbare
      have hcs := congrArg (·.toList.length) (Term.apply.inj hbare).2
      have hleft := congrArg List.length hrest
      simp only [Arguments.toList_mk, List.length_map, List.length_cons, List.length_drop]
        at hcs hleft
      omega
  rw [hdrop, List.map_nil, applyTo_nil] at hbare
  have hout := List.drop_eq_nil_iff.1 hdrop
  cases ds with
  | nil => cases hbare
  | cons d ds => exact ⟨by omega, j, (Term.apply.inj hbare).1.symm⟩

end Residual
end Term

namespace Specialization
open Term Index

theorem mem_keptArguments {a : Term} (ps : List (Param Term)) :
    ∀ {p}, a ∈ keptArguments ps p → ∃ x i, a = .var x i ∧ i < ps.length := by
  induction ps with
  | nil =>
    intro p ha
    cases p <;> cases ha
  | cons q ps ih =>
    intro p ha
    cases p with
    | nil => cases ha
    | cons s p =>
      have hrest : a ∈ keptArguments ps p → ∃ x i, a = .var x i ∧ i < (q :: ps).length := by
        intro ha
        obtain ⟨x, i, rfl, hi⟩ := ih ha
        exact ⟨x, i, rfl, Nat.lt_succ_of_lt hi⟩
      cases s with
      | none =>
        rcases List.mem_cons.1 ha with rfl | ha
        · exact ⟨_, _, rfl, Nat.lt_succ_self _⟩
        · exact hrest ha
      | some slot => exact hrest ha

section Replacement
variable {n g : Nat} {f : FixFunction Term} {p : Pattern} {name : String}

/-- A replacement that was moved calls a variable outside it on the arguments that stay. -/
theorem bare_shift_replacement (p : Pattern) (name : String) (hg : g < n)
    (harity : f.arity ≤ maxIndex) (e : Nat) :
    ∃ qs j, ((replacement n g f p name).shift 0 e).bare =
        lambdaOver qs ((Term.var "" j).applyTo ((keptArguments f.params p).map bare)) ∧
      qs.length = f.arity ∧ f.arity ≤ j ∧
      (f.arity + n - 1 - g ≤ maxIndex → j = min (f.arity + n - 1 - g + e) maxIndex) := by
  have hindex : f.arity ≤ f.arity + n - 1 - g := by omega
  have hadd : add 0 f.arity = f.arity := by rw [add_eq (by omega), Nat.zero_add]
  obtain ⟨j, hhead, hj, hexact⟩ : ∃ j, shiftVar 0 e (f.arity + n - 1 - g) f.arity = .var "" j ∧
      f.arity ≤ j ∧
      (f.arity + n - 1 - g ≤ maxIndex → j = min (f.arity + n - 1 - g + e) maxIndex) := by
    unfold shiftVar
    split
    · exact ⟨_, rfl, by rw [move]; omega, fun _ => by rw [move]; omega⟩
    · next hstays =>
      have he : e = 0 := by omega
      exact ⟨_, rfl, hindex, fun _ => by omega⟩
  have hargs : ((keptArguments f.params p).map bare).map (mapVars (shiftVar 0 e) · f.arity) =
      (keptArguments f.params p).map bare := by
    rw [List.map_map]
    refine List.map_congr_left fun a ha => ?_
    obtain ⟨x, i, rfl, hi⟩ := mem_keptArguments f.params ha
    have hlt : i < f.arity := hi
    rw [Function.comp_apply, bare_var, mapVars_var, shiftVar, hadd, if_neg (by omega)]
  refine ⟨mapParamTypes (mapVars (shiftVar 0 e)) (f.params.map bareParam) 0, j, ?_, ?_, hj, hexact⟩
  · have hlen : (f.params.map bareParam).length = f.arity := List.length_map _
    rw [replacement, bare_shift, bare_lambdaOver, mapVars_lambdaOver, bare_applyTo,
      mapVars_applyTo, hlen, Nat.zero_add, hargs, bare_var, mapVars_var, hhead]
  · rw [length_mapParamTypes, List.length_map, FixFunction.arity]

theorem residual_replacement (hg : g < n) (harity : f.arity ≤ maxIndex) (hpos : 0 < f.arity)
    (e : Nat) : Residual f.arity ((replacement n g f p name).shift 0 e) := by
  obtain ⟨qs, j, hbare, hlen, hj, _⟩ :=
    bare_shift_replacement p name hg harity e
  cases qs with
  | nil =>
    rw [List.length_nil] at hlen
    omega
  | cons q qs => exact ⟨hpos, q :: qs, j, _, hbare, hlen, hj⟩

end Replacement
end Specialization
end InductiveTerms
