import InductiveTerms.Proofs.Binding
import InductiveTerms.Term.Reduction

/-!
Moving and substituting variables as replacements of variables. Up to display, `shift` and `subst`
are replacements (`bare_shift`, `bare_subst`), and where no index leaves its range they are raising
and binding on unbounded indices (`bare_shift_eq_raise`, `bare_subst_eq_bind`). A step of reduction
is then a contraction (`bare_beta`).
-/
namespace InductiveTerms.Term
open Traversal Index

/-- A traversal that replaces nothing but variables. -/
theorem bare_visit {reply : Term → Nat → Id (Option Term)} {f : Nat → Nat → Term}
    (hvar : ∀ x i d, ((reply (.var x i) d).getD (.var x i)).bare = f i d)
    (hnode : ∀ t d, t.asVar? = none → reply t d = none) (t : Term) :
    ∀ d, ((visit (Visitor.ofReply reply) unshared t d).getD t).bare = mapVars f t.bare d := by
  induction t using induct_children with
  | node t ih =>
    intro d
    obtain ⟨u, o, hu, ho, hr⟩ := visit_returns
      (returns_id.2 (rfl : visit (Visitor.ofReply reply) unshared t d = _))
    rw [hr]
    have hchildren : Rebuilt (fun c e u => u.bare = mapVars f c.bare e) t d u :=
      hu.imp fun c hc w hw => by
        obtain ⟨r, hr, rfl⟩ := hw
        obtain rfl := returns_id.1 hr
        exact ih d c hc c.2
    rcases t.eq_var_or_asVar?_eq_none with ⟨x, i, rfl⟩ | ht
    · cases hu
      obtain rfl := returns_id.1 ho
      exact hvar x i d
    · have hnone : o = none := by
        rw [← returns_id.1 ho]
        exact hnode u d (by rw [hu.asVar?_eq, ht])
      rw [hnone, Option.getD_none, hchildren.bare_eq, mapVars_eq (asVar?_bare_eq_none ht),
        bare_eq t d, ← bareNode_mapChildren, mapChildren_mapChildren]

/-- What a move by `delta` puts for a variable. -/
def shiftVar (limit : Nat) (delta : Int) (i d : Nat) : Term :=
  if delta ≠ 0 ∧ add limit d ≤ i then .var "" (move i delta) else .var "" i

theorem bare_shift (t : Term) (limit : Nat) (delta : Int) :
    (t.shift limit delta).bare = mapVars (shiftVar limit delta) t.bare 0 := by
  by_cases hdelta : delta = 0
  · have hid : t.shift limit delta = t := by simp [shift, shiftM, shift?, hdelta]
    rw [hid, mapVars_self]
    intro o _
    simp [shiftVar, hdelta]
  · have hvisit : t.shift limit delta =
        (visit (shifter (m := Id) limit delta) unshared t 0).getD t := by
      simp [shift, shiftM, shift?, hdelta, rewrite?, BundleLabels.tracked]
      rfl
    rw [hvisit]
    refine bare_visit (fun x i d => ?_) (fun u d hu => ?_) t 0
    · simp only [shiftVar, hdelta, ne_eq, not_false_iff, true_and]
      split <;> rfl
    · cases u <;> first | rfl | simp [asVar?] at hu

/-- What a substitution puts for a variable. -/
def substVar (start : Nat) (subs : List Term) (i d : Nat) : Term :=
  if i < add start d then .var "" i
  else match subs[i - add start d]? with
    | some s => (s.shift 0 d).bare
    | none => .var "" (i - subs.length)

theorem bare_subst (t : Term) (start : Nat) (subs : List Term) :
    (t.subst start subs).bare = mapVars (substVar start subs) t.bare 0 := by
  by_cases hsubs : subs.isEmpty
  · have hid : t.subst start subs = t := by simp [subst, substM, subst?, hsubs]
    rw [hid, mapVars_self]
    intro o _
    simp [substVar, List.isEmpty_iff.1 hsubs]
  · have hvisit : t.subst start subs =
        (visit (substituter (m := Id) start subs) unshared t 0).getD t := by
      simp [subst, substM, subst?, hsubs, rewrite?, BundleLabels.tracked]
      rfl
    rw [hvisit]
    refine bare_visit (fun x i d => ?_) (fun u d hu => ?_) t 0
    · simp only [substVar]
      split
      · rfl
      · cases subs[i - add start d]? <;> rfl
    · cases u <;> first | rfl | simp [asVar?] at hu

/-- No index leaves its range when the free variables move up by `n`. -/
def RaisesExactly (n : Nat) (t : Term) : Prop :=
  ∀ o ∈ t.occurrences 0, o.2 ≤ maxIndex ∧ (o.2 ≤ o.1 → o.1 + n ≤ maxIndex)

instance (n : Nat) (t : Term) : Decidable (t.RaisesExactly n) :=
  inferInstanceAs (Decidable (∀ o ∈ t.occurrences 0, _))

theorem bare_shift_eq_raise {t : Term} {n : Nat} (h : t.RaisesExactly n) :
    (t.shift 0 n).bare = t.bare.raise n := by
  rw [bare_shift]
  refine mapVars_congr t.bare fun o ho => ?_
  rw [occurrences_bare] at ho
  obtain ⟨hd, hi⟩ := h o ho
  have hadd : add 0 o.2 = o.2 := by rw [add_eq (by omega), Nat.zero_add]
  rw [shiftVar, hadd, raiseVar]
  by_cases hle : o.2 ≤ o.1
  · rw [if_neg (Nat.not_lt.2 hle)]
    split
    · rw [move_ofNat (hi hle)]
    · obtain rfl : n = 0 := by omega
      rfl
  · rw [if_pos (Nat.not_le.1 hle), if_neg (by omega)]

/-- No index leaves its range when the terms listed are put for the first free variables. -/
def InstantiatesExactly (subs : List Term) (t : Term) : Prop :=
  ∀ o ∈ t.occurrences 0, o.2 ≤ maxIndex ∧
    (o.2 ≤ o.1 → ∀ s ∈ subs[o.1 - o.2]?, s.RaisesExactly o.2)

instance (subs : List Term) (t : Term) : Decidable (t.InstantiatesExactly subs) :=
  inferInstanceAs (Decidable (∀ o ∈ t.occurrences 0, _))

theorem bare_subst_eq_bind {t : Term} {subs : List Term} (h : t.InstantiatesExactly subs) :
    (t.subst 0 subs).bare = t.bare.bind (instantiation (subs.map bare)) := by
  rw [bare_subst]
  refine mapVars_congr t.bare fun o ho => ?_
  rw [occurrences_bare] at ho
  obtain ⟨hd, hi⟩ := h o ho
  have hadd : add 0 o.2 = o.2 := by rw [add_eq (by omega), Nat.zero_add]
  rw [substVar, hadd, bindVar]
  split
  · rfl
  · have hle : o.2 ≤ o.1 := by omega
    rw [instantiation, List.getElem?_map, List.length_map]
    cases hs : subs[o.1 - o.2]? with
    | none =>
      have hlen : subs.length ≤ o.1 - o.2 := List.getElem?_eq_none_iff.1 hs
      have hsub : o.1 - o.2 - subs.length + o.2 = o.1 - subs.length := by omega
      simp only [Option.map_none, Option.getD_none, raise_var, hsub]
    | some s => exact bare_shift_eq_raise (hi hle s hs)

/-- One step of reduction at the head, on unbounded indices. -/
def contract (ps : List (Param Term)) (b : Term) (as : List Term) : Term :=
  let n := min ps.length as.length
  ((lambdaOver (ps.drop n) b).bind (instantiation (as.take n).reverse)).applyTo (as.drop n)

/-- No index leaves its range in one step of reduction. -/
def ContractsExactly (ps : List (Param Term)) (b : Term) (as : List Term) : Prop :=
  let n := min ps.length as.length
  (lambdaOver (ps.drop n) b).InstantiatesExactly (as.take n).reverse

instance (ps : List (Param Term)) (b : Term) (as : List Term) :
    Decidable (ContractsExactly ps b as) :=
  inferInstanceAs (Decidable (InstantiatesExactly _ _))

theorem bare_applyTo (f : Term) (as : List Term) :
    (f.applyTo as).bare = f.bare.applyTo (as.map bare) := by
  cases as <;> simp [applyTo]

theorem bare_beta {ps : List (Param Term)} {b : Term} {as : List Term}
    (h : ContractsExactly ps b as) : (beta ps b as).bare = (contract ps b as).bare := by
  have hbeta : beta ps b as = ((lambdaOver (ps.drop (min ps.length as.length)) b).subst 0
      (as.take (min ps.length as.length)).reverse).applyTo
        (as.drop (min ps.length as.length)) := rfl
  rw [hbeta, contract, bare_applyTo, bare_applyTo, bare_subst_eq_bind h, bare_bind]
  have hfun : (fun j => (instantiation (as.take (min ps.length as.length)).reverse j).bare) =
      instantiation ((as.take (min ps.length as.length)).reverse.map bare) :=
    funext fun j => bare_instantiation _ j
  rw [hfun]

/-- No index leaves its range in a reduction at the head of so many steps at most. -/
def ReducesExactly : Nat → Term → Prop
  | steps + 1, .apply (.lambda ps b) as =>
      ContractsExactly ps b as.toList ∧ ReducesExactly steps (beta ps b as.toList)
  | _, _ => True

theorem reducesExactly_of_not_isHeadRedex {t : Term} (h : t.isHeadRedex = false) (steps : Nat) :
    ReducesExactly steps t := by
  cases t with
  | apply f as =>
    cases f with
    | lambda ps b => cases h
    | _ => cases steps <;> trivial
  | _ => cases steps <;> trivial

end InductiveTerms.Term
