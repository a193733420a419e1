import InductiveTerms.Proofs.Names
import InductiveTerms.Proofs.Normalization
import InductiveTerms.Proofs.Termination

/-!
What reduction at the head leaves, and application in stages. A reduction ends when the outermost
application is not that of a function; it does not look into an application that is applied itself
(`reduceHead_result`). A function that gets its arguments in two goes comes to what it comes to with
all of them at once, or reduces for ever as it does with all of them at once
(`sameOutcome_in_stages`).
-/
namespace InductiveTerms.Term

section Results
variable {t r : Term} {steps : Nat}

theorem isHeadRedex_of_reduceHead (h : t.reduceHead steps = some r) : r.isHeadRedex = false := by
  induction steps generalizing t with
  | zero =>
    rcases isHeadRedex_cases t with ⟨ps, b, as, rfl⟩ | ht
    · cases h
    · rw [reduceHead_of_not_isHeadRedex ht] at h
      rwa [← Option.some.inj h]
  | succ steps ih =>
    rcases isHeadRedex_cases t with ⟨ps, b, as, rfl⟩ | ht
    · exact ih h
    · rw [reduceHead_of_not_isHeadRedex ht] at h
      rwa [← Option.some.inj h]

theorem isHeadRedex_or_nested (hhead : t.unfoldApps.1.kind = .lambda)
    (hargs : t.unfoldApps.2 ≠ []) :
    t.isHeadRedex = true ∨ ∃ f bs as, t = .apply (.apply f bs) as := by
  rcases t.eq_apply_or_kind_ne with ⟨f, as, rfl⟩ | ht
  · rcases f.eq_apply_or_kind_ne with ⟨g, bs, rfl⟩ | hf
    · exact .inr ⟨g, bs, as, rfl⟩
    · rw [unfoldApps_apply, unfoldApps_eq_self hf] at hhead
      refine .inl ?_
      by_contra hredex
      exact isHeadRedex_apply_eq_false.1 (by simpa using hredex) hhead
  · rw [unfoldApps_eq_self ht] at hargs
    exact absurd rfl hargs

/-- When a reduction ends, the outermost application is not that of a function, and no further
reduction changes the result. So a function that is at the head of it and has arguments is applied
inside another application. -/
theorem reduceHead_result (h : t.reduceHead steps = some r) :
    (∀ f as, r = .apply f as → f.kind ≠ .lambda) ∧
      (r.unfoldApps.1.kind = .lambda → r.unfoldApps.2 ≠ [] →
        ∃ f bs as, r = .apply (.apply f bs) as) ∧
      ∀ more, r.reduceHead more = some r := by
  have hredex := isHeadRedex_of_reduceHead h
  refine ⟨?_, fun hhead hargs => ?_, reduceHead_of_not_isHeadRedex hredex⟩
  · rintro f as rfl
    exact isHeadRedex_apply_eq_false.1 hredex
  · exact (isHeadRedex_or_nested hhead hargs).resolve_left (by simp [hredex])

def identity : Term := .lambda [⟨some "y", .global "nat"⟩] (.var "y" 0)

def nestedIdentity : Term := .applyTo (.applyTo identity [.global "a"]) [.global "b"]

/-- `(λ x. (λ y. y) x) a b`: the second argument is left over when the first goes into the body. -/
def overappliedIdentity : Term :=
  .applyTo (.lambda [⟨some "x", .global "nat"⟩] (.applyTo identity [.var "x" 0]))
    [.global "a", .global "b"]

theorem reduceHead_overappliedIdentity :
    overappliedIdentity.reduceHead 1 = some nestedIdentity ∧
      (∀ f as, nestedIdentity = .apply f as → f.kind ≠ .lambda) ∧
      (nestedIdentity.unfoldApps.1.kind = .lambda → nestedIdentity.unfoldApps.2 ≠ [] →
        ∃ f bs as, nestedIdentity = .apply (.apply f bs) as) ∧
      ∀ more, nestedIdentity.reduceHead more = some nestedIdentity :=
  have h : overappliedIdentity.reduceHead 1 = some nestedIdentity := rfl
  ⟨h, reduceHead_result h⟩

/-- A reduction may end with a function at the head that has arguments: `((λ y. y) a) b` is left as
it is, also when it comes out of a reduction. -/
theorem function_left_at_head :
    nestedIdentity.reduceHead 0 = some nestedIdentity ∧
      overappliedIdentity.reduceHead 1 = some nestedIdentity ∧
      nestedIdentity.unfoldApps = (identity, [.global "a", .global "b"]) ∧
      identity.kind = .lambda ∧
      ¬ ∀ (t r : Term) (steps : Nat), t.reduceHead steps = some r → r.unfoldApps.2 ≠ [] →
        r.unfoldApps.1.kind ≠ .lambda := by
  have hnested : nestedIdentity.reduceHead 0 = some nestedIdentity := rfl
  have hover : overappliedIdentity.reduceHead 1 = some nestedIdentity := rfl
  exact ⟨hnested, hover, rfl, rfl, fun h => h _ _ 1 hover (List.cons_ne_nil _ _) rfl⟩

end Results

section Stages
variable {t u v : Term}

def ReducesTo (t u : Term) : Prop := ∃ steps, t.reduceHead steps = some u

def Diverges (t : Term) : Prop := ∀ steps, t.reduceHead steps = none

/-- The reductions of two terms both go on for ever, or end in terms that are equal up to
display. -/
def SameOutcome (t u : Term) : Prop :=
  (t.Diverges ∧ u.Diverges) ∨ ∃ v w, t.ReducesTo v ∧ u.ReducesTo w ∧ v == w

theorem sameOutcome_of_bare (h : t.bare = u.bare) : SameOutcome t u := by
  by_cases hends : ∃ steps v, t.reduceHead steps = some v
  · obtain ⟨steps, v, hv⟩ := hends
    have hrel := reduceHead_congr steps h
    rw [hv] at hrel
    generalize hw : u.reduceHead steps = o at hrel
    cases hrel with
    | @some _ w hbare => exact .inr ⟨v, w, ⟨steps, hv⟩, ⟨steps, hw⟩, beq_iff_bare_eq.2 hbare⟩
  · have hnone : t.Diverges := fun steps =>
      Option.eq_none_iff_forall_ne_some.2 fun v hv => hends ⟨steps, v, hv⟩
    refine .inl ⟨hnone, fun steps => ?_⟩
    have hrel := reduceHead_congr steps h
    rw [hnone steps] at hrel
    generalize u.reduceHead steps = o at hrel ⊢
    cases hrel with
    | none => rfl

theorem SameOutcome.of_reduces {t' u' : Term} (h : SameOutcome t u)
    (ht : ∀ v, t'.ReducesTo v ↔ t.ReducesTo v) (hu : ∀ v, u'.ReducesTo v ↔ u.ReducesTo v) :
    SameOutcome t' u' := by
  have hdiverges : ∀ {t : Term}, t.Diverges ↔ ∀ v, ¬ t.ReducesTo v := fun {t} =>
    ⟨fun h v ⟨steps, hv⟩ => by simp [h steps] at hv,
      fun h steps => Option.eq_none_iff_forall_ne_some.2 fun v hv => h v ⟨steps, hv⟩⟩
  simp only [SameOutcome, hdiverges, ht, hu] at h ⊢
  exact h

section Beta
variable {ps qs : List (Param Term)} {b c : Term} {as bs : List Term}

theorem reducesTo_apply_lambda {as : Arguments Term} :
    (Term.apply (.lambda ps b) as).ReducesTo v ↔ (beta ps b as.toList).ReducesTo v := by
  constructor
  · rintro ⟨steps, h⟩
    exact ⟨steps, reduceHead_mono (Nat.le_succ steps) h⟩
  · rintro ⟨steps, h⟩
    exact ⟨steps + 1, h⟩

theorem contract_of_lt (hlt : as.length < ps.length) :
    contract ps b as = .lambda (bindParams (instantiation as.reverse) (ps.drop as.length))
      (b.bind (lift (ps.drop as.length).length (instantiation as.reverse))) := by
  have hmin : min ps.length as.length = as.length := Nat.min_eq_right hlt.le
  rw [contract, hmin, List.take_length, List.drop_length, applyTo_nil, bind_lambdaOver]
  cases hrest : ps.drop as.length with
  | nil =>
    have hlength := congrArg List.length hrest
    rw [List.length_drop, List.length_nil] at hlength
    omega
  | cons p rest =>
    rw [bindParams_cons]
    rfl

theorem contract_append (hlt : as.length < ps.length)
    (h : contract ps b as = .lambda qs c) (bs : List Term) :
    contract qs c bs = contract ps b (as ++ bs) := by
  rw [contract_of_lt hlt] at h
  obtain ⟨rfl, rfl⟩ := Term.lambda.inj h
  set rest := ps.drop as.length with hrest
  set σ := instantiation as.reverse
  set m := min rest.length bs.length with hm
  have hlength : ps.length = as.length + rest.length := by
    rw [hrest, List.length_drop]
    omega
  have hmin : min ps.length (as ++ bs).length = as.length + m := by
    rw [hlength, List.length_append, Nat.add_min_add_left]
  have htake : (bs.take m).length = m := by
    rw [List.length_take]
    omega
  -- binding the parameters left and the body under them is binding the rest of the function
  have hbind : lambdaOver ((bindParams σ rest).drop m) (b.bind (lift rest.length σ)) =
      (lambdaOver (rest.drop m) b).bind (lift m σ) := by
    have hlift : lift (rest.drop m).length (lift m σ) = lift rest.length σ := by
      rw [lift_lift, List.length_drop, Nat.sub_add_cancel (Nat.min_le_left _ _)]
    rw [bind_lambdaOver, bindParams_drop, hlift]
  calc contract (bindParams σ rest) (b.bind (lift rest.length σ)) bs
      = (((lambdaOver (rest.drop m) b).bind (lift m σ)).bind
          (instantiation (bs.take m).reverse)).applyTo (bs.drop m) := by
        rw [contract, length_bindParams, ← hm, hbind]
    _ = ((lambdaOver (rest.drop m) b).bind
          (instantiation (as ++ bs.take m).reverse)).applyTo (bs.drop m) := by
        have happend := bind_instantiation_append (lambdaOver (rest.drop m) b) as (bs.take m)
        rw [htake] at happend
        rw [happend]
    _ = contract ps b (as ++ bs) := by
        rw [contract, hmin, List.take_length_add_append, List.drop_length_add_append, hrest,
          List.drop_drop]

theorem beta_eq_lambda (hexact : ContractsExactly ps b as) (hlt : as.length < ps.length) :
    ∃ qs c, beta ps b as = .lambda qs c ∧
      contract (ps.map bareParam) b.bare (as.map bare) = .lambda (qs.map bareParam) c.bare := by
  have hbare := bare_beta hexact
  rw [bare_contract] at hbare
  have hlt' : (as.map bare).length < (ps.map bareParam).length := by
    rwa [List.length_map, List.length_map]
  obtain ⟨qs, c, hbeta, -⟩ := eq_lambda_of_bare (hbare.trans (contract_of_lt hlt'))
  exact ⟨qs, c, hbeta, by rw [← hbare, hbeta, bare_lambda]⟩

theorem bare_beta_append (hlt : as.length < ps.length) (hbeta : beta ps b as = .lambda qs c)
    (hfirst : ContractsExactly ps b as) (hnext : ContractsExactly qs c bs)
    (honce : ContractsExactly ps b (as ++ bs)) :
    (beta qs c bs).bare = (beta ps b (as ++ bs)).bare := by
  obtain ⟨qs', c', hbeta', hcontract⟩ := beta_eq_lambda hfirst hlt
  obtain ⟨rfl, rfl⟩ := Term.lambda.inj (hbeta.symm.trans hbeta')
  have hlt' : (as.map bare).length < (ps.map bareParam).length := by
    rwa [List.length_map, List.length_map]
  rw [bare_beta hnext, bare_beta honce, bare_contract, bare_contract, List.map_append,
    contract_append hlt' hcontract]

end Beta

/-- A function that is applied to some of its arguments and then, reduced, to the others comes to
what it comes to when it is applied to all of them, or both reductions go on for ever. The other
arguments may be more than there are parameters left. -/
theorem sameOutcome_in_stages {ps : List (Param Term)} {b : Term} {as bs : List Term}
    (hlt : as.length < ps.length)
    (hfirst : ReducesExactly 1 ((Term.lambda ps b).applyTo as))
    (hnext : ∀ r, ((Term.lambda ps b).applyTo as).reduceHead 1 = some r →
      ReducesExactly 1 (r.applyTo bs))
    (honce : ReducesExactly 1 ((Term.lambda ps b).applyTo (as ++ bs))) :
    ∃ r, ((Term.lambda ps b).applyTo as).reduceHead 1 = some r ∧
      SameOutcome (r.applyTo bs) ((Term.lambda ps b).applyTo (as ++ bs)) := by
  cases as with
  | nil => exact ⟨.lambda ps b, rfl, sameOutcome_of_bare rfl⟩
  | cons a as =>
    obtain ⟨hcontract, -⟩ := hfirst
    rw [Arguments.toList_mk] at hcontract
    obtain ⟨qs, c, hbeta, -⟩ := beta_eq_lambda hcontract hlt
    have hreduce : ((Term.lambda ps b).applyTo (a :: as)).reduceHead 1 = some (.lambda qs c) := by
      change (beta ps b (a :: as)).reduceHead 0 = _
      rw [hbeta]
      rfl
    refine ⟨_, hreduce, ?_⟩
    cases bs with
    | nil =>
      have hstop : SameOutcome (Term.lambda qs c) (beta ps b (a :: as)) :=
        sameOutcome_of_bare (by rw [hbeta])
      rw [List.append_nil]
      exact hstop.of_reduces (fun _ => .rfl) fun _ => reducesTo_apply_lambda
    | cons b' bs =>
      have hstep := bare_beta_append hlt hbeta hcontract (hnext _ hreduce).1 honce.1
      exact (sameOutcome_of_bare hstep).of_reduces (fun _ => reducesTo_apply_lambda) fun _ =>
        reducesTo_apply_lambda

def chooseSecond : Term :=
  .lambda [⟨some "x", .global "nat"⟩, ⟨some "z", .applyTo (.global "P") [.var "x" 0]⟩] (.var "z" 0)

/-- Applied to a variable it is `λ (z : P k). z`, and applied to a function and one argument more
that goes on reducing. -/
theorem sameOutcome_chooseSecond :
    ReducesExactly 1 (chooseSecond.applyTo [.var "k" 4]) ∧
      ReducesExactly 1 (chooseSecond.applyTo [.var "k" 4, identity, .global "c"]) ∧
      (∀ r, (chooseSecond.applyTo [.var "k" 4]).reduceHead 1 = some r →
        ReducesExactly 1 (r.applyTo [identity, .global "c"])) ∧
      ∃ r, (chooseSecond.applyTo [.var "k" 4]).reduceHead 1 = some r ∧
        SameOutcome (r.applyTo [identity, .global "c"])
          (chooseSecond.applyTo [.var "k" 4, identity, .global "c"]) := by
  have hfirst : ReducesExactly 1 (chooseSecond.applyTo [.var "k" 4]) := ⟨by decide, trivial⟩
  have honce : ReducesExactly 1 (chooseSecond.applyTo [.var "k" 4, identity, .global "c"]) :=
    ⟨by decide, trivial⟩
  have hnext : ∀ r, (chooseSecond.applyTo [.var "k" 4]).reduceHead 1 = some r →
      ReducesExactly 1 (r.applyTo [identity, .global "c"]) := by
    intro r hr
    obtain rfl := Option.some.inj hr
    exact ⟨by decide, trivial⟩
  exact ⟨hfirst, honce, hnext, sameOutcome_in_stages (by decide) hfirst hnext honce⟩

end Stages

end InductiveTerms.Term
