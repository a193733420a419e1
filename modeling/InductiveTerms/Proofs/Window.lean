import InductiveTerms.Proofs.Substitution

/-!
Substituting in the middle of a context. `opening` makes room for variables at an index and `window`
binds the variables from an index on; where no index leaves its range, `shift` and `subst` are these
two (`bare_shift_eq_opening`, `bare_subst_eq_window`). Two substitutions, the second one further out
than the first, may change places: the terms of the outer one make room for the variables of the
inner one, and the terms of the inner one are substituted in (`subst_subst`).
-/
namespace InductiveTerms.Term
open Index

/-- Moves the variables from `limit` on up by `n`. -/
def opening (limit n j : Nat) : Term := .var "" (if j < limit then j else j + n)

/-- Binds the variables from `start` on to the terms listed and moves the ones after them down. -/
def window (start : Nat) (subs : List Term) (j : Nat) : Term :=
  if j < start then .var "" j else subs[j - start]?.getD (.var "" (j - subs.length))

section Opening

theorem opening_of_lt {limit n j : Nat} (h : j < limit) : opening limit n j = .var "" j := by
  rw [opening, if_pos h]

theorem opening_of_le {limit n j : Nat} (h : limit ≤ j) :
    opening limit n j = .var "" (j + n) := by
  rw [opening, if_neg (Nat.not_lt.2 h)]

theorem lift_opening (limit n k : Nat) : lift k (opening limit n) = opening (limit + k) n := by
  funext j
  rcases Nat.lt_or_ge j k with h | h
  · rw [lift_of_lt h, opening_of_lt (by omega)]
  · rw [lift_of_le h]
    rcases Nat.lt_or_ge j (limit + k) with h' | h'
    · rw [opening_of_lt (by omega), opening_of_lt h', raise_var, Nat.sub_add_cancel h]
    · have hsub : j - k + n + k = j + n := by omega
      rw [opening_of_le (by omega), opening_of_le h', raise_var, hsub]

end Opening

section Window
variable {start j : Nat} {subs : List Term}

theorem window_of_lt (h : j < start) : window start subs j = .var "" j := by
  rw [window, if_pos h]

theorem window_of_mem (hle : start ≤ j) (h : j - start < subs.length) :
    window start subs j = subs[j - start] := by
  rw [window, if_neg (Nat.not_lt.2 hle), List.getElem?_eq_getElem h, Option.getD_some]

theorem window_of_le (h : start + subs.length ≤ j) :
    window start subs j = .var "" (j - subs.length) := by
  have hnone : subs[j - start]? = none := List.getElem?_eq_none (by omega)
  rw [window, if_neg (by omega), hnone, Option.getD_none]

theorem window_nil (start : Nat) : window start [] = fun j => .var "" j := by
  funext j
  rcases Nat.lt_or_ge j start with h | h
  · rw [window_of_lt h]
  · rw [window_of_le (by simpa using h), List.length_nil, Nat.sub_zero]

/-- What makes room for the variables that a window binds does not notice them. -/
theorem bind_opening_window (t : Term) (start : Nat) (subs : List Term) :
    (t.bind (opening start subs.length)).bind (window start subs) = t.raise 0 := by
  rw [bind_bind, raise_eq_bind]
  refine bind_congr_raise fun j => ?_
  rcases Nat.lt_or_ge j start with h | h
  · rw [opening_of_lt h, bind_var, window_of_lt h, raise_raise]
    rfl
  · rw [opening_of_le h, bind_var, window_of_le (by omega), Nat.add_sub_cancel, raise_raise]
    rfl

/-- Two windows change places when the outer one makes room for the inner one and the terms of the
inner one are bound by the outer one. -/
theorem bind_window_window (t : Term) (i j : Nat) (us vs : List Term) :
    (t.bind (window i us)).bind (window (i + j) vs) =
      (t.bind (window (i + us.length + j) (vs.map (·.bind (opening i us.length))))).bind
        (window i (us.map (·.bind (window (i + j) vs)))) := by
  rw [bind_bind, bind_bind]
  refine bind_congr_raise fun k => ?_
  -- `k` lies below both windows, in the inner one, between them, in the outer one or above both
  rcases Nat.lt_or_ge k i with h₁ | h₁
  · rw [window_of_lt h₁, window_of_lt (by omega), bind_var, bind_var, window_of_lt h₁,
      window_of_lt (by omega)]
  rcases Nat.lt_or_ge k (i + us.length) with h₂ | h₂
  · have hk : k - i < us.length := by omega
    rw [window_of_mem h₁ hk, window_of_lt (by omega), bind_var,
      window_of_mem h₁ (by rwa [List.length_map]), List.getElem_map, raise_raise]
  rw [window_of_le h₂, bind_var]
  rcases Nat.lt_or_ge k (i + us.length + j) with h₃ | h₃
  · rw [window_of_lt (by omega), window_of_lt h₃, bind_var,
      window_of_le (by rwa [List.length_map]), List.length_map]
  have hcancel : ∀ v : Term, (v.bind (opening i us.length)).bind
      (window i (us.map (·.bind (window (i + j) vs)))) = v.raise 0 := by
    intro v
    have h := bind_opening_window v i (us.map (·.bind (window (i + j) vs)))
    rwa [List.length_map] at h
  rcases Nat.lt_or_ge k (i + us.length + j + vs.length) with h₄ | h₄
  · have hk : k - us.length - (i + j) < vs.length := by omega
    have hk' : k - (i + us.length + j) < vs.length := by omega
    have hsub : k - us.length - (i + j) = k - (i + us.length + j) := by omega
    rw [window_of_mem (by omega) hk, window_of_mem h₃ (by rwa [List.length_map]),
      List.getElem_map, hcancel]
    simp only [hsub]
  · have hlen : i + us.length + j +
        (vs.map (·.bind (opening i us.length))).length ≤ k := by rwa [List.length_map]
    have hsub : k - us.length - vs.length = k - vs.length - us.length := by omega
    rw [window_of_le (by omega), window_of_le hlen, bind_var, List.length_map,
      window_of_le (by rw [List.length_map]; omega), List.length_map, hsub]

end Window

/-- No index leaves its range when the variables from `limit` on move up by `n`. -/
def ShiftsExactly (limit n : Nat) (t : Term) : Prop :=
  0 < n → ∀ o ∈ t.occurrences 0,
    limit + o.2 ≤ maxIndex ∧ (limit + o.2 ≤ o.1 → o.1 + n ≤ maxIndex)

instance (limit n : Nat) (t : Term) : Decidable (t.ShiftsExactly limit n) :=
  inferInstanceAs (Decidable (0 < n → ∀ o ∈ t.occurrences 0, _))

/-- No index leaves its range when the terms listed are put for the variables from `start` on. -/
def SubstitutesExactly (start : Nat) (subs : List Term) (t : Term) : Prop :=
  0 < subs.length → ∀ o ∈ t.occurrences 0,
    start + o.2 ≤ maxIndex ∧
      (start + o.2 ≤ o.1 → ∀ s ∈ subs[o.1 - (start + o.2)]?, s.RaisesExactly o.2)

instance (start : Nat) (subs : List Term) (t : Term) :
    Decidable (t.SubstitutesExactly start subs) :=
  inferInstanceAs (Decidable (0 < subs.length → ∀ o ∈ t.occurrences 0, _))

theorem bare_bind_var (t : Term) : t.bare.bind (fun j => .var "" j) = t.bare := by
  have h := raise_eq_bind t.bare 0
  simp only [Nat.add_zero] at h
  rw [← h, raise_zero]

theorem bare_shift_eq_opening {t : Term} {limit n : Nat} (h : t.ShiftsExactly limit n) :
    (t.shift limit n).bare = t.bare.bind (opening limit n) := by
  rcases Nat.eq_zero_or_pos n with rfl | hn
  · have hid : t.shift limit ((0 : Nat) : Int) = t := by simp [shift, shiftM, shift?]
    have hopening : opening limit 0 = fun j => .var "" j := by
      funext j
      simp only [opening, Nat.add_zero, ite_self]
    rw [hid, hopening, bare_bind_var]
  · rw [bare_shift]
    refine mapVars_congr t.bare fun o ho => ?_
    rw [occurrences_bare] at ho
    obtain ⟨hlimit, hi⟩ := h hn o ho
    have hdelta : (n : Int) ≠ 0 := by omega
    simp only [shiftVar, add_eq hlimit, hdelta, ne_eq, not_false_iff, true_and]
    rcases Nat.lt_or_ge o.1 o.2 with hlt | hle
    · rw [bindVar_of_lt hlt, if_neg (by omega)]
    · rw [bindVar_of_le hle]
      rcases Nat.lt_or_ge o.1 (limit + o.2) with hlt' | hle'
      · rw [if_neg (by omega), opening_of_lt (by omega), raise_var, Nat.sub_add_cancel hle]
      · have hsub : o.1 - o.2 + n + o.2 = o.1 + n := by omega
        rw [if_pos hle', move_ofNat (hi hle'), opening_of_le (by omega), raise_var, hsub]

theorem bare_subst_eq_window {t : Term} {start : Nat} {subs : List Term}
    (h : t.SubstitutesExactly start subs) :
    (t.subst start subs).bare = t.bare.bind (window start (subs.map bare)) := by
  rcases Nat.eq_zero_or_pos subs.length with hlen | hlen
  · obtain rfl := List.length_eq_zero_iff.1 hlen
    have hid : t.subst start [] = t := by simp [subst, substM, subst?]
    rw [hid, List.map_nil, window_nil, bare_bind_var]
  · rw [bare_subst]
    refine mapVars_congr t.bare fun o ho => ?_
    rw [occurrences_bare] at ho
    obtain ⟨hstart, hi⟩ := h hlen o ho
    rw [substVar, add_eq hstart]
    rcases Nat.lt_or_ge o.1 o.2 with hlt | hle
    · rw [bindVar_of_lt hlt, if_pos (by omega)]
    rw [bindVar_of_le hle]
    rcases Nat.lt_or_ge o.1 (start + o.2) with hlt' | hle'
    · rw [if_pos hlt', window_of_lt (by omega), raise_var, Nat.sub_add_cancel hle]
    rw [if_neg (Nat.not_lt.2 hle')]
    have hindex : o.1 - o.2 - start = o.1 - (start + o.2) := by omega
    rw [window, if_neg (by omega), List.getElem?_map, List.length_map, hindex]
    cases hs : subs[o.1 - (start + o.2)]? with
    | none =>
      have hle'' : subs.length ≤ o.1 - (start + o.2) := List.getElem?_eq_none_iff.1 hs
      have hsub : o.1 - o.2 - subs.length + o.2 = o.1 - subs.length := by omega
      simp only [Option.map_none, Option.getD_none, raise_var, hsub]
    | some s => exact bare_shift_eq_raise (hi hle' s hs)

/-- No index leaves its range in two substitutions, in whichever order they are made. -/
structure SubstitutesExactlyTwice (t : Term) (i j : Nat) (us vs : List Term) : Prop where
  inner : t.SubstitutesExactly i us
  thenOuter : (t.subst i us).SubstitutesExactly (i + j) vs
  room : ∀ v ∈ vs, v.ShiftsExactly i us.length
  outer : t.SubstitutesExactly (i + us.length + j) (vs.map (·.shift i us.length))
  intoInner : ∀ u ∈ us, u.SubstitutesExactly (i + j) vs
  thenInner : (t.subst (i + us.length + j) (vs.map (·.shift i us.length))).SubstitutesExactly i
    (us.map (·.subst (i + j) vs))

/-- Two substitutions change places. -/
theorem subst_subst (t : Term) (i j : Nat) (us vs : List Term)
    (h : t.SubstitutesExactlyTwice i j us vs) :
    (t.subst i us).subst (i + j) vs ==
      (t.subst (i + us.length + j) (vs.map (·.shift i us.length))).subst i
        (us.map (·.subst (i + j) vs)) := by
  have hvs : (vs.map (·.shift i us.length)).map bare =
      (vs.map bare).map (·.bind (opening i (us.map bare).length)) := by
    rw [List.map_map, List.map_map, List.length_map]
    exact List.map_congr_left fun v hv => bare_shift_eq_opening (h.room v hv)
  have hus : (us.map (·.subst (i + j) vs)).map bare =
      (us.map bare).map (·.bind (window (i + j) (vs.map bare))) := by
    rw [List.map_map, List.map_map]
    exact List.map_congr_left fun u hu => bare_subst_eq_window (h.intoInner u hu)
  have hwindows := bind_window_window t.bare i j (us.map bare) (vs.map bare)
  rw [← hvs, ← hus, List.length_map] at hwindows
  have hbare : ((t.subst i us).subst (i + j) vs).bare =
      ((t.subst (i + us.length + j) (vs.map (·.shift i us.length))).subst i
        (us.map (·.subst (i + j) vs))).bare := by
    rw [bare_subst_eq_window h.thenOuter, bare_subst_eq_window h.inner,
      bare_subst_eq_window h.thenInner, bare_subst_eq_window h.outer, hwindows]
  exact (same_iff_bare_eq _ _).2 hbare

/-- In a fixpoint in a branch under a parameter, variables of both windows, of the gap between them
and of both sides of them, with terms put in that bind variables and refer to others. -/
theorem subst_subst_openFixpoint :
    let t : Term := .lambda [⟨some "x", .applyTo (.var "w" 1) [.var "v" 2]⟩]
      (.caseOf (.var "s" 3) (.var "x" 0) [⟨"c", 1, .applyTo
        (.fix 0 ⟨none, [⟨"f", [⟨some "z", .var "a" 2⟩], .var "w" 6,
          .applyTo (.var "f" 1) [.var "v" 4]⟩]⟩) [.var "u" 5]⟩])
    let us : List Term := [.product [⟨none, .var "p" 0⟩] (.var "q" 3)]
    let vs : List Term := [.letIn none (.var "r" 1) (.var "r" 2) (.var "l" 0), .var "s" 4]
    t.SubstitutesExactlyTwice 1 1 us vs ∧
      (t.subst 1 us).subst (1 + 1) vs ==
        (t.subst (1 + us.length + 1) (vs.map (·.shift 1 us.length))).subst 1
          (us.map (·.subst (1 + 1) vs)) := by
  intro t us vs
  have h : t.SubstitutesExactlyTwice 1 1 us vs :=
    ⟨by decide, by decide, by decide, by decide, by decide, by decide⟩
  exact ⟨h, subst_subst t 1 1 us vs h⟩

end InductiveTerms.Term
