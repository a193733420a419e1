import InductiveTerms.Proofs.Correspondence
import InductiveTerms.Proofs.FreeVariables

/-!
Limits that stop at the end of the range. The index from which variables are moved, or substituted
for, grows with every binder and stops at the largest index. Only the largest index notices that a
limit has stopped (`Index.add_le_iff`), and a traversal depends on nothing but what the visitor does
about the variables that occur (`Term.rewrite?_congr`). So moves and substitutions are those
whose limit knows no end, unless a variable of the largest index stands under so many binders that
the limit has grown past it (`limits_exact`). Such a variable is below the limit and is replaced all
the same (`lastIndex_replaced`).
-/
namespace InductiveTerms
open Term Traversal Index

/-- Where a limit stops is noticed by the largest index alone. -/
theorem Index.add_le_iff {limit d i : Nat} (hi : i ≤ maxIndex) :
    add limit d ≤ i ↔ limit + d ≤ i ∨ (i = maxIndex ∧ maxIndex < limit + d) := by
  simp only [add]
  omega

/-- Whether a visitor replaces the variables of index `i` that stand under `d` binders. -/
def Visitor.ReplacesVar (v : Visitor Id) (i d : Nat) : Prop := ∀ x, v.reply (.var x i) d ≠ none

/-- Being the same action. -/
def Correspondence.equality (m : Type → Type) [Monad m] : Correspondence m m where
  Holds x y := x = y
  pure _ := rfl
  bind h hfg := by rw [h, funext hfg]

namespace Term
variable {m : Type → Type} [Monad m] [BundleLabels m] {t : Term} {limit : Nat}

/-- What a visitor would reply to variables that do not occur has no part in rewriting, whether
sharing is tracked or not. -/
theorem rewrite?_congr {v w : Visitor m} (hvw : (Correspondence.equality m).OfVisitors v w)
    (hdepth : v.depthOnly = w.depthOnly)
    (hvar : ∀ x, ∀ o ∈ t.occurrences 0, v.reply (.var x o.1) o.2 = w.reply (.var x o.1) o.2) :
    t.rewrite? v = t.rewrite? w := by
  have hplain : visit v unshared t 0 = visit w unshared t 0 :=
    visit_corresponds hvw (fun _ _ _ _ hxy => congrArg _ hxy) t hvar
  have hlift : (Correspondence.equality (StateT Cache m)).OfVisitors v.lift w.lift :=
    ⟨fun b => congrArg StateT.lift (hvw.enter b), congrArg StateT.lift hvw.leave,
      fun u d hu => congrArg StateT.lift (hvw.reply u d hu)⟩
  have hshared : visit v.lift memoized t 0 = visit w.lift memoized t 0 :=
    visit_corresponds hlift (fun _ _ _ _ hxy => congrArg _ hxy) t
      fun x o ho => congrArg StateT.lift (hvar x o ho)
  rw [rewrite?, rewrite?, hdepth, hplain, hshared]

/-- Moves the variables from `limit` on, where the limit grows with the binders without end. -/
def unboundedShifter (limit : Nat) (delta : Int) : Visitor m := .ofReply fun
  | .var x i, d => pure (if limit + d ≤ i then some (.var x (move i delta)) else none)
  | _, _ => pure none

def unboundedShift? (t : Term) (limit : Nat) (delta : Int) : m (Option Term) :=
  if delta = 0 then pure none else t.rewrite? (unboundedShifter limit delta)

/-- Puts `subs[k]`, moved past the binders around it, for variable `start + k` and closes the gap,
where the start grows with the binders without end. -/
def unboundedSubstituter (start : Nat) (subs : List Term) : Visitor m := .ofReply fun
  | .var x i, d =>
      if i < start + d then
        pure none
      else
        subs[i - (start + d)]?.elim (pure (some (.var x (i - subs.length)))) fun s =>
          return some (← s.shiftM 0 d)
  | _, _ => pure none

def unboundedSubst? (t : Term) (start : Nat) (subs : List Term) : m (Option Term) :=
  if subs.isEmpty then pure none else t.rewrite? (unboundedSubstituter start subs)

/-- Whether the indices of all variables are in range. -/
def InRange (t : Term) : Prop := ∀ o ∈ t.occurrences 0, o.1 ≤ maxIndex

instance (t : Term) : Decidable t.InRange := inferInstanceAs (Decidable (∀ o ∈ t.occurrences 0, _))

/-- Whether the places that `limit` grows to above variables of the largest index are in range. -/
def ReachesLastExactly (limit : Nat) (t : Term) : Prop :=
  ∀ o ∈ t.occurrences 0, o.1 = maxIndex → limit + o.2 ≤ maxIndex

instance (limit : Nat) (t : Term) : Decidable (t.ReachesLastExactly limit) :=
  inferInstanceAs (Decidable (∀ o ∈ t.occurrences 0, _))

theorem reachesLastExactly_iff (ht : t.InRange) :
    t.ReachesLastExactly limit ↔
      ∀ o ∈ t.occurrences 0, add limit o.2 ≤ o.1 ↔ limit + o.2 ≤ o.1 := by
  refine forall₂_congr fun o ho => ?_
  rw [Index.add_le_iff (ht o ho)]
  omega

theorem shift?_eq_unboundedShift? (ht : t.InRange) (h : t.ReachesLastExactly limit)
    (delta : Int) : (t.shift? limit delta : m (Option Term)) = t.unboundedShift? limit delta := by
  have hvisitors : (Correspondence.equality m).OfVisitors (shifter limit delta)
      (unboundedShifter limit delta) := by
    refine ⟨fun _ => rfl, rfl, fun u d hu => ?_⟩
    cases u <;> first | rfl | cases hu
  rw [shift?, unboundedShift?, rewrite?_congr hvisitors rfl fun x o ho => ?_]
  · have hplace := (reachesLastExactly_iff ht).1 h o ho
    simp only [shifter, unboundedShifter, Visitor.ofReply, hplace]

theorem subst?_eq_unboundedSubst? (ht : t.InRange) (h : t.ReachesLastExactly limit)
    (us : List Term) : (t.subst? limit us : m (Option Term)) = t.unboundedSubst? limit us := by
  have hvisitors : (Correspondence.equality m).OfVisitors (substituter limit us)
      (unboundedSubstituter limit us) := by
    refine ⟨fun _ => rfl, rfl, fun u d hu => ?_⟩
    cases u <;> first | rfl | cases hu
  rw [subst?, unboundedSubst?, rewrite?_congr hvisitors rfl fun x o ho => ?_]
  · have hplace := (reachesLastExactly_iff ht).1 h o ho
    have hin := ht o ho
    simp only [substituter, unboundedSubstituter, Visitor.ofReply]
    rcases Nat.lt_or_ge o.1 (limit + o.2) with hlt | hle
    · rw [if_pos hlt, if_pos (by omega)]
    · rw [if_neg (by omega), if_neg (by omega), add_eq (by omega)]
      cases us[o.1 - (limit + o.2)]? <;> rfl

theorem replacesVar_shifter (delta : Int) (i d : Nat) :
    (shifter limit delta).ReplacesVar i d ↔ add limit d ≤ i := by
  simp only [Visitor.ReplacesVar, ne_eq, reply_shifter_var, Nat.not_lt, forall_const]

theorem replacesVar_substituter (us : List Term) (i d : Nat) :
    (substituter limit us).ReplacesVar i d ↔ add limit d ≤ i := by
  simp only [Visitor.ReplacesVar, ne_eq, reply_substituter_var, Nat.not_lt, forall_const]

/-- No occurrence is concerned just when none is at or above the limit and none is concerned below
it. -/
theorem forall_lt_add_iff (ht : t.InRange) :
    (∀ o ∈ t.occurrences 0, o.1 < add limit o.2) ↔
      t.Below limit ∧ t.ReachesLastExactly limit := by
  rw [below_iff, reachesLastExactly_iff ht, ← forall₂_and]
  refine forall₂_congr fun o _ => ?_
  have hle : add limit o.2 ≤ limit + o.2 := Nat.min_le_left _ _
  omega

theorem shift?_eq_none_iff_below (ht : t.InRange) (limit : Nat) (delta : Int) :
    (t.shift? limit delta : Id (Option Term)) = none ↔
      delta = 0 ∨ t.Below limit ∧ t.ReachesLastExactly limit := by
  by_cases hdelta : delta = 0
  · rw [shift?, if_pos hdelta]
    exact iff_of_true rfl (.inl hdelta)
  · rw [shift?_eq_none_iff_occurrences hdelta, forall_lt_add_iff ht, or_iff_right hdelta]

theorem subst?_eq_none_iff_below (ht : t.InRange) (limit : Nat) (us : List Term) :
    (t.subst? limit us : Id (Option Term)) = none ↔
      us = [] ∨ t.Below limit ∧ t.ReachesLastExactly limit := by
  by_cases hus : us = []
  · rw [subst?, if_pos (by simpa using hus)]
    exact iff_of_true rfl (.inl hus)
  · rw [subst?_eq_none_iff_occurrences hus, forall_lt_add_iff ht, or_iff_right hus]

end Term

/-- A variable is moved or substituted for just when it is at or above the limit, counted without
end, or has the largest index and the limit has grown past it. Unless there is a variable of the
second kind, moves and substitutions are those whose limit knows no end. They report no change just
when all external references are below the limit and there is no such variable. -/
theorem limits_exact {t : Term} (ht : t.InRange) (limit : Nat) :
    (∀ delta : Int,
      (∀ o ∈ t.occurrences 0, (shifter limit delta).ReplacesVar o.1 o.2 ↔
        limit + o.2 ≤ o.1 ∨ (o.1 = maxIndex ∧ maxIndex < limit + o.2)) ∧
      (t.ReachesLastExactly limit → ∀ (m : Type → Type) [Monad m] [BundleLabels m],
        (t.shift? limit delta : m (Option Term)) = t.unboundedShift? limit delta) ∧
      ((t.shift? limit delta : Id (Option Term)) = none ↔
        delta = 0 ∨ (∀ r ∈ t.externalReferences, r < limit) ∧ t.ReachesLastExactly limit) ∧
      (t.Coherent → ∀ first, (t.shift? limit delta : Labelling (Option Term)).run first = none ↔
        delta = 0 ∨ (∀ r ∈ t.externalReferences, r < limit) ∧ t.ReachesLastExactly limit)) ∧
    ∀ us : List Term,
      (∀ o ∈ t.occurrences 0, (substituter limit us).ReplacesVar o.1 o.2 ↔
        limit + o.2 ≤ o.1 ∨ (o.1 = maxIndex ∧ maxIndex < limit + o.2)) ∧
      (t.ReachesLastExactly limit → ∀ (m : Type → Type) [Monad m] [BundleLabels m],
        (t.subst? limit us : m (Option Term)) = t.unboundedSubst? limit us) ∧
      ((t.subst? limit us : Id (Option Term)) = none ↔
        us = [] ∨ (∀ r ∈ t.externalReferences, r < limit) ∧ t.ReachesLastExactly limit) ∧
      (t.Coherent → (∀ u ∈ us, u.Coherent) → ∀ first,
        (t.subst? limit us : Labelling (Option Term)).run first = none ↔
          us = [] ∨ (∀ r ∈ t.externalReferences, r < limit) ∧ t.ReachesLastExactly limit) := by
  refine ⟨fun delta => ?_, fun us => ?_⟩
  · have hplain := shift?_eq_none_iff_below ht limit delta
    refine ⟨fun o ho => ?_, fun h m _ _ => shift?_eq_unboundedShift? ht h delta, hplain,
      fun hcoherent first => ?_⟩
    · rw [replacesVar_shifter, Index.add_le_iff (ht o ho)]
    · exact ((memoizes_shift hcoherent limit delta).run_eq_none_iff first).trans hplain
  · have hplain := subst?_eq_none_iff_below ht limit us
    refine ⟨fun o ho => ?_, fun h m _ _ => subst?_eq_unboundedSubst? ht h us, hplain,
      fun hcoherent hus first => ?_⟩
    · rw [replacesVar_substituter, Index.add_le_iff (ht o ho)]
    · exact ((memoizes_subst hcoherent limit hus).run_eq_none_iff first).trans hplain

/-- The loop over a type from outside at two depths, with the variable of the largest index beside
it both times; from the index before that one on, the limit just reaches it. Under a binder a limit
of the largest index stops, and no variable notices. -/
theorem limits_exact_nearEnd :
    let t : Term := .applyTo (.fix 0 (loopAt 7)) [.var "v" maxIndex,
      .lambda [⟨some "x", .var "B" 4⟩] (.applyTo (.fix 0 (loopAt 7)) [.var "v" maxIndex])]
    let s : Term := .lambda [⟨some "x", .global "nat"⟩]
      (.applyTo (.var "v" (maxIndex - 1)) [.var "x" 0])
    let us : List Term := [.product [⟨none, .var "p" 6⟩] (.var "q" 0)]
    t.InRange ∧ t.ReachesLastExactly (maxIndex - 1) ∧ t.Coherent ∧
      (shifter (maxIndex - 1) (-3)).ReplacesVar maxIndex 1 ∧
      (substituter (maxIndex - 1) us).ReplacesVar maxIndex 1 ∧
      (t.shift? (maxIndex - 1) (-3) : Labelling (Option Term)) =
        t.unboundedShift? (maxIndex - 1) (-3) ∧
      (t.subst? (maxIndex - 1) us : Labelling (Option Term)) =
        t.unboundedSubst? (maxIndex - 1) us ∧
      s.InRange ∧ s.ReachesLastExactly maxIndex ∧ s.Coherent ∧ (∀ u ∈ us, u.Coherent) ∧
      (s.shift? maxIndex 1 : Id (Option Term)) = none ∧
      (s.shift? maxIndex 1 : Labelling (Option Term)).run 20 = none ∧
      (s.subst? maxIndex us : Id (Option Term)) = none ∧
      (s.subst? maxIndex us : Labelling (Option Term)).run 20 = none := by
  intro t s us
  have ht : t.InRange := by decide
  have hlast : t.ReachesLastExactly (maxIndex - 1) := by decide
  have hcoherent : t.Coherent := by
    refine coherent_of_table loopAt fun c hc l hl => ?_
    have hselections : t.selections 0 = [(loopAt 7, 0), (loopAt 7, 1)] := rfl
    rw [hselections] at hc
    simp only [List.mem_cons, List.not_mem_nil, or_false] at hc
    rcases hc with rfl | rfl <;> (obtain rfl := Option.some.inj hl; rfl)
  have hv : (maxIndex, 1) ∈ t.occurrences 0 := by decide
  have hs : s.InRange := by decide
  have hslast : s.ReachesLastExactly maxIndex := by decide
  have hscoherent : s.Coherent := fun c hc => nomatch hc
  have hus : ∀ u ∈ us, u.Coherent := by
    intro u hu c hc
    obtain rfl := List.mem_singleton.1 hu
    exact nomatch hc
  have hbelow : ∀ r ∈ s.externalReferences, r < maxIndex := by decide
  obtain ⟨hmoves, hputs⟩ := limits_exact ht (maxIndex - 1)
  obtain ⟨hmoved, hmove, _⟩ := hmoves (-3)
  obtain ⟨hreplaced, hput, _⟩ := hputs us
  obtain ⟨hkeeps, hleaves⟩ := limits_exact hs maxIndex
  obtain ⟨_, _, hkept, hkeptShared⟩ := hkeeps 1
  obtain ⟨_, _, hleft, hleftShared⟩ := hleaves us
  exact ⟨ht, hlast, hcoherent, (hmoved _ hv).2 (.inl (by decide)),
    (hreplaced _ hv).2 (.inl (by decide)), hmove hlast Labelling, hput hlast Labelling, hs, hslast,
    hscoherent, hus, hkept.2 (.inr ⟨hbelow, hslast⟩),
    (hkeptShared hscoherent 20).2 (.inr ⟨hbelow, hslast⟩), hleft.2 (.inr ⟨hbelow, hslast⟩),
    (hleftShared hscoherent hus 20).2 (.inr ⟨hbelow, hslast⟩)⟩

/-- In `fun x : nat => v` the variable `v` of the largest index is below the limit that the largest
index becomes under the binder, but is moved and substituted for. -/
theorem lastIndex_replaced :
    let t : Term := .lambda [⟨some "x", .global "nat"⟩] (.var "v" maxIndex)
    t.InRange ∧ t.externalReferences = [maxIndex - 1] ∧
      (shifter maxIndex (-1)).ReplacesVar maxIndex 1 ∧
      (t.shift? maxIndex (-1) : Id (Option Term)) =
        some (.lambda [⟨some "x", .global "nat"⟩] (.var "v" (maxIndex - 1))) ∧
      (substituter maxIndex [.global "O"]).ReplacesVar maxIndex 1 ∧
      (t.subst? maxIndex [.global "O"] : Id (Option Term)) =
        some (.lambda [⟨some "x", .global "nat"⟩] (.global "O")) ∧
      ¬ (∀ (t : Term) (limit : Nat) (delta : Int), t.InRange → limit ≤ maxIndex →
        -9223372036854775808 ≤ delta → delta ≤ 9223372036854775807 →
        ∀ o ∈ t.occurrences 0, (shifter limit delta).ReplacesVar o.1 o.2 ↔ limit + o.2 ≤ o.1) ∧
      ¬ (∀ (t : Term) (limit : Nat) (delta : Int), t.InRange → limit ≤ maxIndex →
        -9223372036854775808 ≤ delta → delta ≤ 9223372036854775807 →
        (∀ r ∈ t.externalReferences, r < limit) →
          (t.shift? limit delta : Id (Option Term)) = none) := by
  intro t
  have ht : t.InRange := by decide
  have hv : (maxIndex, 1) ∈ t.occurrences 0 := by decide
  have hmoved : (shifter maxIndex (-1)).ReplacesVar maxIndex 1 :=
    (replacesVar_shifter _ _ _).2 (by decide)
  have hmove : (t.shift? maxIndex (-1) : Id (Option Term)) =
      some (.lambda [⟨some "x", .global "nat"⟩] (.var "v" (maxIndex - 1))) := rfl
  refine ⟨ht, by decide, hmoved, hmove, (replacesVar_substituter _ _ _).2 (by decide), rfl,
    fun hclaim => ?_, fun hclaim => ?_⟩
  · have hexact := hclaim t maxIndex (-1) ht (Nat.le_refl _) (by decide) (by decide) _ hv
    exact absurd (hexact.1 hmoved) (by decide)
  · have hnone := hclaim t maxIndex (-1) ht (Nat.le_refl _) (by decide) (by decide) (by decide)
    rw [hmove] at hnone
    cases hnone

end InductiveTerms
