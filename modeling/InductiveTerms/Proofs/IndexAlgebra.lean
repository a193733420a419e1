import InductiveTerms.Proofs.Window

/-!
The algebra of indices. A move is followed on every index by itself (`shiftIndex`), where it stops
at the ends of the range as the program does: moves from one place add up, moves from two places
change places, and what a move makes room for can be substituted away (`shift_laws`). A move and a
substitution change places, and what is substituted moves with the term (`shift_subst`).
-/
namespace InductiveTerms.Term
open Index

/-- The index that a move by `delta` from `limit` on makes of `i` under `d` binders. -/
def shiftIndex (limit : Nat) (delta : Int) (i d : Nat) : Nat :=
  if delta ≠ 0 ∧ add limit d ≤ i then move i delta else i

section ShiftIndex
variable {limit limit' i d n n' : Nat} {delta : Int}

theorem shiftIndex_zero : shiftIndex limit 0 i d = i := if_neg fun hmoves => hmoves.1 rfl

theorem shiftIndex_of_lt (h : i < add limit d) : shiftIndex limit delta i d = i :=
  if_neg fun hmoves => Nat.not_le.2 h hmoves.2

theorem shiftIndex_of_le (h : add limit d ≤ i) (hi : i ≤ maxIndex) :
    shiftIndex limit delta i d = move i delta := by
  by_cases hdelta : delta = 0
  · rw [hdelta, shiftIndex_zero]
    simp only [move]
    omega
  · exact if_pos ⟨hdelta, h⟩

theorem shiftIndex_up (h : add limit d ≤ i) (hi : i + n ≤ maxIndex) :
    shiftIndex limit n i d = i + n := by
  rw [shiftIndex_of_le h (by omega), move_ofNat hi]

/-- A move up and one more move from there, which may go below where the index was. -/
theorem shiftIndex_add (hi : add limit d ≤ i → i + n ≤ maxIndex) :
    shiftIndex limit delta (shiftIndex limit n i d) d = shiftIndex limit (n + delta) i d := by
  rcases Nat.lt_or_ge i (add limit d) with hlt | hle
  · rw [shiftIndex_of_lt hlt, shiftIndex_of_lt hlt, shiftIndex_of_lt hlt]
  · have hmax := hi hle
    rw [shiftIndex_up hle hmax, shiftIndex_of_le (by omega) hmax, shiftIndex_of_le hle (by omega)]
    simp only [move]
    omega

theorem shiftIndex_comm (hlimits : limit ≤ limit') (hi : add limit d ≤ i → i + n ≤ maxIndex)
    (hi' : add (limit' + n) d ≤ shiftIndex limit n i d →
      shiftIndex limit n i d + n' ≤ maxIndex) :
    shiftIndex (limit' + n) n' (shiftIndex limit n i d) d =
      shiftIndex limit n (shiftIndex limit' n' i d) d := by
  have hadd : add limit d ≤ add limit' d := by simp only [add]; omega
  have hadd' : add limit' d ≤ add (limit' + n) d := by simp only [add]; omega
  rcases Nat.lt_or_ge i (add limit d) with hlt | hle
  · have hkept : shiftIndex limit' n' i d = i := shiftIndex_of_lt (by omega)
    rw [hkept, shiftIndex_of_lt hlt, shiftIndex_of_lt (by omega)]
  have hmax := hi hle
  rw [shiftIndex_up hle hmax] at hi' ⊢
  rcases Nat.eq_zero_or_pos n' with rfl | hpos
  · rw [Int.natCast_zero, shiftIndex_zero, shiftIndex_zero, shiftIndex_up hle hmax]
  rcases Nat.lt_or_ge (i + n) (add (limit' + n) d) with hlt | hle'
  -- a place past the end of the range counts as the end, where no index can move any more
  · have hbelow : i < add limit' d := by
      simp only [add] at hlt ⊢
      omega
    rw [shiftIndex_of_lt hlt, shiftIndex_of_lt hbelow, shiftIndex_up hle hmax]
  · have hmax' := hi' hle'
    have hat : add limit' d ≤ i := by
      simp only [add] at hle' ⊢
      omega
    rw [shiftIndex_up hle' hmax', shiftIndex_up hat (by omega),
      shiftIndex_up (by omega) (by omega), Nat.add_right_comm]

end ShiftIndex

/-- Whether no index that a move by `n` from `limit` on concerns leaves its range. -/
def MovesWithin (limit n : Nat) (t : Term) : Prop :=
  ∀ o ∈ t.occurrences 0, add limit o.2 ≤ o.1 → o.1 + n ≤ maxIndex

instance (limit n : Nat) (t : Term) : Decidable (t.MovesWithin limit n) :=
  inferInstanceAs (Decidable (∀ o ∈ t.occurrences 0, _))

section Moves
variable {t : Term} {c c' n n' : Nat}

theorem shiftVar_eq (limit : Nat) (delta : Int) :
    shiftVar limit delta = fun i d => .var "" (shiftIndex limit delta i d) := by
  funext i d
  unfold shiftVar shiftIndex
  split <;> rfl

theorem occurrences_shift (t : Term) (limit : Nat) (delta : Int) :
    (t.shift limit delta).occurrences 0 =
      (t.occurrences 0).map fun o => (shiftIndex limit delta o.1 o.2, o.2) := by
  rw [← occurrences_bare, bare_shift, occurrences_mapVars, occurrences_bare, shiftVar_eq]
  exact List.map_eq_flatMap.symm

theorem bare_shift_shift (t : Term) (c c' : Nat) (delta delta' : Int) :
    ((t.shift c delta).shift c' delta').bare =
      mapVars (fun i d => .var "" (shiftIndex c' delta' (shiftIndex c delta i d) d)) t.bare 0 := by
  rw [bare_shift, bare_shift, mapVars_mapVars, shiftVar_eq, shiftVar_eq]
  rfl

theorem bare_shift_add (delta : Int) (h : t.MovesWithin c n) :
    ((t.shift c n).shift c delta).bare = (t.shift c (n + delta)).bare := by
  rw [bare_shift_shift, bare_shift, shiftVar_eq]
  refine mapVars_congr t.bare fun o ho => ?_
  rw [occurrences_bare] at ho
  rw [shiftIndex_add (h o ho)]

theorem bare_shift_comm (hc : c ≤ c') (h : t.MovesWithin c n)
    (h' : (t.shift c n).MovesWithin (c' + n) n') :
    ((t.shift c n).shift (c' + n) n').bare = ((t.shift c' n').shift c n).bare := by
  rw [bare_shift_shift, bare_shift_shift]
  refine mapVars_congr t.bare fun o ho => ?_
  rw [occurrences_bare] at ho
  have hmoved : (shiftIndex c n o.1 o.2, o.2) ∈ (t.shift c n).occurrences 0 := by
    rw [occurrences_shift]
    exact List.mem_map_of_mem ho
  rw [shiftIndex_comm hc (h o ho) (h' _ hmoved)]

/-- What a move makes room for can be substituted by anything. -/
theorem bare_subst_shift (us : List Term) (h : t.MovesWithin c us.length) :
    ((t.shift c us.length).subst c us).bare = t.bare := by
  rw [bare_subst, bare_shift, mapVars_mapVars, shiftVar_eq]
  refine mapVars_self t 0 fun o ho => ?_
  rw [mapVars_var, substVar]
  rcases Nat.lt_or_ge o.1 (add c o.2) with hlt | hle
  · rw [shiftIndex_of_lt hlt, if_pos hlt]
  · have hnone : us[o.1 + us.length - add c o.2]? = none := List.getElem?_eq_none (by omega)
    rw [shiftIndex_up hle (h o ho hle), if_neg (by omega), hnone]
    simp only [Nat.add_sub_cancel]

end Moves

/-- Moves from one place on add up, also where the second one goes below the first; moves from two
places change places; and what is put where a move made room is put nowhere. -/
theorem shift_laws (t : Term) (c : Nat) :
    (∀ (n : Nat) (delta : Int), t.MovesWithin c n →
      (t.shift c n).shift c delta == t.shift c (n + delta)) ∧
    (∀ c' n n' : Nat, c ≤ c' → t.MovesWithin c n → (t.shift c n).MovesWithin (c' + n) n' →
      (t.shift c n).shift (c' + n) n' == (t.shift c' n').shift c n) ∧
    ∀ us : List Term, t.MovesWithin c us.length → (t.shift c us.length).subst c us == t :=
  ⟨fun _ delta h => (same_iff_bare_eq _ _).2 (bare_shift_add delta h),
    fun _ _ _ hc h h' => (same_iff_bare_eq _ _).2 (bare_shift_comm hc h h'),
    fun us h => (same_iff_bare_eq _ _).2 (bare_subst_shift us h)⟩

/-- Variables of the last indices that there are and of the first ones, some of which a move by -4
takes to zero, in a fixpoint under a parameter. -/
theorem shift_laws_atBothEnds :
    let t : Term := .lambda [⟨some "x", .var "a" 1⟩] (.applyTo (.var "b" 2)
      [.fix 0 ⟨none, [⟨"f", [⟨none, .var "x" 1⟩], .var "top" 18446744073709551612,
        .applyTo (.var "f" 1) [.var "a" 4, .var "c" 7]⟩]⟩])
    let us : List Term := [.var "d" 0, .product [⟨none, .var "e" 5⟩] (.var "y" 0)]
    t.MovesWithin 1 2 ∧ (t.shift 1 (2 : Nat)).MovesWithin (3 + 2) 1 ∧
      ((t.shift 1 (2 : Nat)).shift 1 (-4) == t.shift 1 ((2 : Nat) + -4)) ∧
      ((t.shift 1 (2 : Nat)).shift (3 + 2) (1 : Nat) ==
        (t.shift 3 (1 : Nat)).shift 1 (2 : Nat)) ∧
      ((t.shift 1 us.length).subst 1 us == t) := by
  intro t us
  have hmoves : t.MovesWithin 1 2 := by decide
  have hfurther : (t.shift 1 (2 : Nat)).MovesWithin (3 + 2) 1 := by decide
  obtain ⟨hadd, hcomm, hundo⟩ := shift_laws t 1
  exact ⟨hmoves, hfurther, hadd 2 (-4) hmoves, hcomm 3 2 1 (by decide) hmoves hfurther,
    hundo us hmoves⟩

section Windows
variable {i c : Nat}

/-- Room made below a window, or at its start, moves the window. -/
theorem bind_window_opening_of_le (t : Term) (us : List Term) (d : Nat) (h : c ≤ i) :
    (t.bind (window i us)).bind (opening c d) =
      (t.bind (opening c d)).bind (window (i + d) (us.map (·.bind (opening c d)))) := by
  rw [bind_bind, bind_bind]
  refine bind_congr_raise fun k => ?_
  -- `k` lies below the room, between the room and the window, in the window or above it
  rcases Nat.lt_or_ge k c with h₁ | h₁
  · rw [window_of_lt (by omega), opening_of_lt h₁, bind_var, bind_var, opening_of_lt h₁,
      window_of_lt (by omega)]
  rw [opening_of_le h₁, bind_var]
  rcases Nat.lt_or_ge k i with h₂ | h₂
  · rw [window_of_lt h₂, window_of_lt (by omega), bind_var, opening_of_le h₁, raise_raise]
  rcases Nat.lt_or_ge k (i + us.length) with h₃ | h₃
  · have hk : k - i < us.length := by omega
    have hk' : k + d - (i + d) < us.length := by omega
    have hsub : k + d - (i + d) = k - i := by omega
    rw [window_of_mem h₂ hk, window_of_mem (by omega) (by rwa [List.length_map]),
      List.getElem_map, raise_raise]
    simp only [hsub]
  · have hsub : k - us.length + d = k + d - us.length := by omega
    rw [window_of_le h₃, bind_var, opening_of_le (by omega),
      window_of_le (by rw [List.length_map]; omega), List.length_map, raise_raise, raise_raise,
      hsub]

theorem bind_window_opening_of_ge (t : Term) (us : List Term) (d : Nat) (h : i ≤ c) :
    (t.bind (window i us)).bind (opening c d) =
      (t.bind (opening (c + us.length) d)).bind (window i (us.map (·.bind (opening c d)))) := by
  rw [bind_bind, bind_bind]
  refine bind_congr_raise fun k => ?_
  -- `k` lies below the window, in it, between the window and the room or above the room
  rcases Nat.lt_or_ge k i with h₁ | h₁
  · rw [window_of_lt h₁, opening_of_lt (by omega), bind_var, bind_var, opening_of_lt (by omega),
      window_of_lt h₁]
  rcases Nat.lt_or_ge k (i + us.length) with h₂ | h₂
  · have hk : k - i < us.length := by omega
    rw [window_of_mem h₁ hk, opening_of_lt (by omega), bind_var,
      window_of_mem h₁ (by rwa [List.length_map]), List.getElem_map, raise_raise]
  rw [window_of_le h₂, bind_var]
  rcases Nat.lt_or_ge k (c + us.length) with h₃ | h₃
  · rw [opening_of_lt h₃, opening_of_lt (by omega), bind_var,
      window_of_le (by rwa [List.length_map]), List.length_map]
  · have hsub : k - us.length + d = k + d - us.length := by omega
    rw [opening_of_le h₃, opening_of_le (by omega), bind_var,
      window_of_le (by rw [List.length_map]; omega), List.length_map, hsub]

end Windows

/-- No index leaves its range when terms are put for the variables from `start` on and the result
is moved up by `n` from `limit` on, nor when the term is moved from `limit'` on, and the terms from
`limit` on, and are then put for the variables from `start'` on. -/
structure MovesAndSubstitutesExactly (t : Term) (start : Nat) (us : List Term)
    (limit n limit' start' : Nat) : Prop where
  subst : t.SubstitutesExactly start us
  thenShift : (t.subst start us).ShiftsExactly limit n
  shift : t.ShiftsExactly limit' n
  terms : ∀ u ∈ us, u.ShiftsExactly limit n
  thenSubst : (t.shift limit' n).SubstitutesExactly start' (us.map (·.shift limit n))

theorem MovesAndSubstitutesExactly.bare_eq {t : Term} {start limit n limit' start' : Nat}
    {us : List Term} (h : t.MovesAndSubstitutesExactly start us limit n limit' start')
    (hbind : (t.bare.bind (window start (us.map bare))).bind (opening limit n) =
      (t.bare.bind (opening limit' n)).bind
        (window start' ((us.map bare).map (·.bind (opening limit n))))) :
    ((t.subst start us).shift limit n).bare =
      ((t.shift limit' n).subst start' (us.map (·.shift limit n))).bare := by
  have hus : (us.map (·.shift limit n)).map bare =
      (us.map bare).map (·.bind (opening limit n)) := by
    rw [List.map_map, List.map_map]
    exact List.map_congr_left fun u hu => bare_shift_eq_opening (h.terms u hu)
  rw [bare_shift_eq_opening h.thenShift, bare_subst_eq_window h.subst,
    bare_subst_eq_window h.thenSubst, bare_shift_eq_opening h.shift, hus, hbind]

/-- A move from below the variables that are substituted for, or from above them, may be made before
the substitution. -/
theorem shift_subst (t : Term) (i c d : Nat) (us : List Term) :
    (c ≤ i → t.MovesAndSubstitutesExactly i us c d c (i + d) →
      (t.subst i us).shift c d == (t.shift c d).subst (i + d) (us.map (·.shift c d))) ∧
    (i ≤ c → t.MovesAndSubstitutesExactly i us c d (c + us.length) i →
      (t.subst i us).shift c d ==
        (t.shift (c + us.length) d).subst i (us.map (·.shift c d))) := by
  refine ⟨fun hc h => ?_, fun hc h => ?_⟩
  · exact (same_iff_bare_eq _ _).2 (h.bare_eq (bind_window_opening_of_le t.bare _ d hc))
  · have hbind := bind_window_opening_of_ge t.bare (us.map bare) d hc
    rw [List.length_map] at hbind
    exact (same_iff_bare_eq _ _).2 (h.bare_eq hbind)

/-- A fixpoint in a branch under a parameter, with variables of the window and of both sides of it
and terms that bind variables and refer to others; the place from which variables move is below the
window first and above it then. -/
theorem shift_subst_openFixpoint :
    let t : Term := .lambda [⟨some "x", .applyTo (.var "w" 1) [.var "v" 2]⟩]
      (.caseOf (.var "s" 3) (.var "x" 0) [⟨"c", 1, .applyTo
        (.fix 0 ⟨none, [⟨"f", [⟨some "z", .var "a" 2⟩], .var "w" 6,
          .applyTo (.var "f" 1) [.var "v" 4]⟩]⟩) [.var "u" 5]⟩])
    let us : List Term := [.product [⟨none, .var "p" 0⟩] (.var "q" 3),
      .letIn none (.var "r" 1) (.var "r" 2) (.var "l" 0)]
    t.MovesAndSubstitutesExactly 1 us 0 2 0 (1 + 2) ∧
      t.MovesAndSubstitutesExactly 1 us 2 3 (2 + us.length) 1 ∧
      ((t.subst 1 us).shift 0 (2 : Nat) ==
        (t.shift 0 (2 : Nat)).subst (1 + 2) (us.map (·.shift 0 (2 : Nat)))) ∧
      ((t.subst 1 us).shift 2 (3 : Nat) ==
        (t.shift (2 + us.length) (3 : Nat)).subst 1 (us.map (·.shift 2 (3 : Nat)))) := by
  intro t us
  have hbelow : t.MovesAndSubstitutesExactly 1 us 0 2 0 (1 + 2) :=
    ⟨by decide, by decide, by decide, by decide, by decide⟩
  have habove : t.MovesAndSubstitutesExactly 1 us 2 3 (2 + us.length) 1 :=
    ⟨by decide, by decide, by decide, by decide, by decide⟩
  exact ⟨hbelow, habove, (shift_subst t 1 0 2 us).1 (by decide) hbelow,
    (shift_subst t 1 2 3 us).2 (by decide) habove⟩

end InductiveTerms.Term
