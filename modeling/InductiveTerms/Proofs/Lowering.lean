import InductiveTerms.Proofs.Enclosing
import InductiveTerms.Proofs.IndexAlgebra
import InductiveTerms.Proofs.Simulation

/-!
Terms with variables moved down. A term that does not refer to the first variables reads as one
under fewer of them (`exists_opens_of_avoids`), which is what moving it down gives
(`Opens.bare_shift_down`). Where no index leaves its range in a reduction none does in that of the
term under fewer variables (`Opens.reducesExactly`), so that a reduction of the one tells the
reduction of the other.
-/
namespace InductiveTerms.Term
variable {limit n k : Nat} {t u : Term}

theorem Opens.mem_occurrences (h : Opens limit n t u) {o : Nat × Nat} (ho : o ∈ t.occurrences 0) :
    (if o.1 < limit + o.2 then o.1 else o.1 + n, o.2) ∈ u.occurrences 0 := by
  rw [← occurrences_bare, h, Term.bind, occurrences_mapVars, List.mem_flatMap]
  refine ⟨o, by rwa [occurrences_bare], ?_⟩
  rcases Nat.lt_or_ge o.1 o.2 with hlt | hle
  · rw [bindVar_of_lt hlt, if_pos (by omega)]
    exact List.mem_singleton.2 rfl
  · rw [bindVar_of_le hle]
    rcases Nat.lt_or_ge o.1 (limit + o.2) with hlt | hle'
    · rw [opening_of_lt (by omega), raise_var, if_pos hlt, Nat.sub_add_cancel hle]
      exact List.mem_singleton.2 rfl
    · have hindex : o.1 - o.2 + n + o.2 = o.1 + n := by omega
      rw [opening_of_le (by omega), raise_var, if_neg (Nat.not_lt.2 hle'), hindex]
      exact List.mem_singleton.2 rfl

theorem Opens.raisesExactly (h : Opens limit n t u) (hu : u.RaisesExactly k) :
    t.RaisesExactly k := by
  intro o ho
  obtain ⟨hdepth, hindex⟩ := hu _ (h.mem_occurrences ho)
  refine ⟨hdepth, fun hle => ?_⟩
  simp only at hindex
  split at hindex <;> have := hindex (by omega) <;> omega

theorem RaisesExactly.mono {m : Nat} (h : t.RaisesExactly n) (hle : m ≤ n) :
    t.RaisesExactly m := by
  intro o ho
  obtain ⟨hdepth, hindex⟩ := h o ho
  exact ⟨hdepth, fun hle' => (Nat.add_le_add_left hle o.1).trans (hindex hle')⟩

section Down

theorem bind_opening_zero (t : Term) (n : Nat) : t.bind (opening 0 n) = t.raise n :=
  (raise_eq_bind t n).symm

theorem opens_zero_iff : Opens 0 n t u ↔ u.bare = t.bare.raise n := by
  rw [Opens, bind_opening_zero]

theorem RaisesExactly.opens_shift (h : t.RaisesExactly (k + n)) :
    Opens k n (t.shift 0 k) (t.shift 0 (k + n : Nat)) := by
  have hk : t.RaisesExactly k := h.mono (Nat.le_add_right k n)
  have hmoved : (t.bare.bind (opening 0 n)).raise k = (t.bare.raise k).bind (opening (0 + k) n) :=
    raise_bind_opening t.bare k
  rw [bind_opening_zero, raise_raise, Nat.zero_add, Nat.add_comm n] at hmoved
  rw [Opens, bare_shift_eq_raise h, bare_shift_eq_raise hk, hmoved]

/-- Moving a term down past variables that it does not refer to undoes moving it up. -/
theorem Opens.bare_shift_down (h : Opens 0 n t u) (hu : u.RaisesExactly 0) :
    (u.shift 0 (-n)).bare = t.bare := by
  have hraises : t.RaisesExactly n := by
    intro o ho
    refine ⟨(h.raisesExactly hu o ho).1, fun hle => ?_⟩
    obtain ⟨-, hindex⟩ := hu _ (h.mem_occurrences ho)
    rw [if_neg (by omega)] at hindex
    exact hindex (by omega)
  have hup : u.bare = (t.shift 0 n).bare := by
    rw [opens_zero_iff.1 h, bare_shift_eq_raise hraises]
  have hmoves : t.MovesWithin 0 n := by
    intro o ho hle
    have hdepth := (hraises o ho).1
    rw [Index.add_eq (by omega), Nat.zero_add] at hle
    exact (hraises o ho).2 hle
  have hstays : t.shift 0 0 = t := by simp [Term.shift, shiftM, shift?]
  rw [bare_shift_congr hup, bare_shift_add _ hmoves, Int.add_right_neg, hstays]

/-- A term that does not refer to the first variables reads as one without them. -/
theorem exists_opens_of_avoids (h : t.Avoids n 0) : ∃ u, Opens 0 n u t := by
  refine ⟨t.bind fun j => .var "" (j - n), ?_⟩
  rw [opens_zero_iff, bare_bind, raise_eq_bind, bind_bind]
  refine ((bind_congr fun o ho hle => ?_).trans (bare_bind_var t)).symm
  rw [occurrences_bare] at ho
  have havoids := h _ (mem_externalReferences.2 ⟨o, ho, hle, rfl⟩)
  have hindex : o.1 - o.2 - n + n = o.1 - o.2 := by omega
  rw [bare_var, bind_var, raise_var, Nat.add_zero, hindex]

theorem opens_shift_down (h : t.Avoids n 0) (ht : t.RaisesExactly 0) :
    Opens 0 n (t.shift 0 (-n)) t := by
  obtain ⟨u, hu⟩ := exists_opens_of_avoids h
  rw [Opens, hu.bare_shift_down ht]
  exact hu

end Down

section Reduction
variable {ps qs : List (Param Term)} {b c : Term} {as bs : Arguments Term}

theorem Opens.apply_lambda
    (h : Opens limit n (.apply (.lambda ps b) as) (.apply (.lambda qs c) bs)) :
    qs.map bareParam = bindParams (opening limit n) (ps.map bareParam) ∧
      Opens (limit + ps.length) n b c ∧ List.Forall₂ (Opens limit n) as.toList bs.toList := by
  rw [Opens, bare_apply, bare_apply, bare_lambda, bare_lambda, bind_apply, bind_lambda,
    Term.apply.injEq, Term.lambda.injEq, List.length_map, lift_opening, Arguments.map_map] at h
  obtain ⟨⟨hps, hb⟩, has⟩ := h
  exact ⟨hps, hb, (forall₂_of_map_eq (Arguments.map_eq_map_iff.1 has)).flip⟩

theorem Opens.contractsExactly
    (h : Opens limit n (.apply (.lambda ps b) as) (.apply (.lambda qs c) bs))
    (hexact : ContractsExactly qs c bs.toList) : ContractsExactly ps b as.toList := by
  obtain ⟨hps, hb, has⟩ := h.apply_lambda
  have hlength : qs.length = ps.length := length_eq_of_bindParams hps
  rw [ContractsExactly, hlength, ← has.length_eq] at hexact
  rw [ContractsExactly]
  set m := min ps.length as.toList.length with hm
  have hinner : Opens (limit + m) n (lambdaOver (ps.drop m) b) (lambdaOver (qs.drop m) c) := by
    have hbody : limit + ps.length = limit + m + (ps.drop m).length := by
      rw [List.length_drop]
      omega
    rw [Opens, bare_lambdaOver, bare_lambdaOver, bind_lambdaOver, List.map_drop, List.map_drop,
      hps, bindParams_drop, lift_opening, lift_opening, hb, ← List.map_drop, List.length_map, hbody]
  have hargs : List.Forall₂ (Opens limit n) (as.toList.take m).reverse
      (bs.toList.take m).reverse :=
    List.rel_reverse (List.forall₂_take m has)
  intro o ho
  have hmem := hinner.mem_occurrences ho
  refine ⟨(hexact _ hmem).1, fun hle s hs => ?_⟩
  have hlt : o.1 - o.2 < m := by
    obtain ⟨hlt, -⟩ := List.getElem?_eq_some_iff.1 hs
    rw [List.length_reverse, List.length_take] at hlt
    omega
  -- what an argument is put for is bound by the redex, so it has not moved
  rw [if_pos (by omega)] at hmem
  obtain ⟨s', hs', hopens⟩ := forall₂_getElem? hargs hs
  exact hopens.raisesExactly ((hexact _ hmem).2 hle s' hs')

/-- Where no index leaves its range in a reduction none does in that of the term under fewer
variables. -/
theorem Opens.reducesExactly {steps : Nat} (h : Opens limit n t u)
    (hexact : ReducesExactly steps u) : ReducesExactly steps t := by
  induction steps generalizing t u with
  | zero => cases t <;> trivial
  | succ steps ih =>
    rcases isHeadRedex_cases t with ⟨ps, b, as, rfl⟩ | hredex
    · have hu : u.isHeadRedex = true := by
        rw [← isHeadRedex_bare u, h, isHeadRedex_bind_opening, isHeadRedex_bare]
        rfl
      rcases isHeadRedex_cases u with ⟨qs, c, bs, rfl⟩ | hnot
      · have hcontract := h.contractsExactly hexact.1
        exact ⟨hcontract, ih (h.beta hcontract hexact.1) hexact.2⟩
      · cases hu.symm.trans hnot
    · exact reducesExactly_of_not_isHeadRedex hredex _

end Reduction

end InductiveTerms.Term
