import InductiveTerms.Proofs.Below
import InductiveTerms.Proofs.Canonical
import InductiveTerms.Proofs.Memoization
import InductiveTerms.Proofs.Renaming
import InductiveTerms.Proofs.Window
import InductiveTerms.Term.Node

/-!
What becomes of external references. A term into which others are put refers to what those refer to
that stand for its references (`refers_bind`), and a visitor that replaces nothing but variables
reports no change just when it declines every occurrence (`visit_eq_none_iff_occurrences`). So moves
and substitutions change the references as they should, and hand back the node they were given just
when there is no reference that they concern (`externalReferences_exact`) or a node is put for
itself (`same_putForItself`).
-/
namespace InductiveTerms
open Term Traversal Index

namespace Term

section Refers
variable {t : Term} {r : Nat}

theorem refers_flatMap {α : Type} {as : List α} {f : α → List (Nat × Nat)} :
    Refers (as.flatMap f) r ↔ ∃ a ∈ as, Refers (f a) r := by
  simp only [Refers, List.mem_flatMap]
  constructor
  · rintro ⟨o, ⟨a, ha, ho⟩, hr⟩
    exact ⟨a, ha, o, ho, hr⟩
  · rintro ⟨a, ha, o, ho, hr⟩
    exact ⟨o, ⟨a, ha, ho⟩, hr⟩

theorem refers_raise (n : Nat) :
    Refers ((t.raise n).occurrences n) r ↔ Refers (t.occurrences 0) r := by
  have hdepth := occurrences_add n (t.raise n) 0
  rw [Nat.zero_add] at hdepth
  rw [hdepth, raise, occurrences_mapVars, List.map_flatMap, refers_flatMap, Refers]
  refine exists_congr fun o => and_congr_right fun _ => ?_
  simp only [raiseVar, occurrences_var, Refers, List.map_cons, List.map_nil, List.mem_singleton,
    exists_eq_left]
  split <;> omega

theorem refers_bind {σ : Nat → Term} :
    Refers ((t.bind σ).occurrences 0) r ↔
      ∃ j, Refers (t.occurrences 0) j ∧ Refers ((σ j).occurrences 0) r := by
  rw [bind, occurrences_mapVars, refers_flatMap]
  constructor
  · rintro ⟨o, ho, hr⟩
    rcases Nat.lt_or_ge o.1 o.2 with hlt | hle
    · rw [bindVar_of_lt hlt, occurrences_var, Refers] at hr
      obtain ⟨o', ho', hle, _⟩ := hr
      obtain rfl := List.mem_singleton.1 ho'
      exact absurd hlt (Nat.not_lt.2 hle)
    · rw [bindVar_of_le hle, refers_raise] at hr
      exact ⟨o.1 - o.2, ⟨o, ho, hle, rfl⟩, hr⟩
  · rintro ⟨j, ⟨o, ho, hle, rfl⟩, hr⟩
    refine ⟨o, ho, ?_⟩
    rwa [bindVar_of_le hle, refers_raise]

theorem mem_externalReferences_bind {u : Term} {σ : Nat → Term} (h : u.bare = t.bare.bind σ) :
    r ∈ u.externalReferences ↔
      ∃ j ∈ t.externalReferences, Refers ((σ j).occurrences 0) r := by
  rw [mem_externalReferences, ← occurrences_bare, h, refers_bind, occurrences_bare]
  simp only [mem_externalReferences]

theorem mem_externalReferences_shift {c n : Nat} (h : t.ShiftsExactly c n) :
    r ∈ (t.shift c n).externalReferences ↔
      (r ∈ t.externalReferences ∧ r < c) ∨ ∃ s ∈ t.externalReferences, c ≤ s ∧ r = s + n := by
  rw [mem_externalReferences_bind (bare_shift_eq_opening h)]
  simp only [opening, refers_var]
  constructor
  · rintro ⟨j, hj, hr⟩
    split at hr
    · next hlt => exact .inl ⟨hr ▸ hj, hr ▸ hlt⟩
    · next hle => exact .inr ⟨j, hj, Nat.not_lt.1 hle, hr.symm⟩
  · rintro (⟨hr, hlt⟩ | ⟨s, hs, hle, rfl⟩)
    · exact ⟨r, hr, by rw [if_pos hlt]⟩
    · exact ⟨s, hs, by rw [if_neg (Nat.not_lt.2 hle)]⟩

theorem mem_externalReferences_subst {i : Nat} {us : List Term} (h : t.SubstitutesExactly i us) :
    r ∈ (t.subst i us).externalReferences ↔
      (r ∈ t.externalReferences ∧ r < i) ∨
      (∃ s ∈ t.externalReferences, i + us.length ≤ s ∧ r = s - us.length) ∨
      ∃ k u, us[k]? = some u ∧ i + k ∈ t.externalReferences ∧ r ∈ u.externalReferences := by
  rw [mem_externalReferences_bind (bare_subst_eq_window h)]
  constructor
  · rintro ⟨j, hj, hr⟩
    rcases Nat.lt_or_ge j i with hbelow | hle
    · rw [window_of_lt hbelow, refers_var] at hr
      exact .inl ⟨hr ▸ hj, hr ▸ hbelow⟩
    rcases Nat.lt_or_ge j (i + us.length) with hin | habove
    · have hk : j - i < us.length := by omega
      rw [window_of_mem hle (by rwa [List.length_map]), List.getElem_map, occurrences_bare,
        ← mem_externalReferences] at hr
      refine .inr (.inr ⟨j - i, _, List.getElem?_eq_getElem hk, ?_, hr⟩)
      rwa [Nat.add_sub_cancel' hle]
    · rw [window_of_le (by rwa [List.length_map]), refers_var, List.length_map] at hr
      exact .inr (.inl ⟨j, hj, habove, hr.symm⟩)
  · rintro (⟨hr, hlt⟩ | ⟨s, hs, hle, rfl⟩ | ⟨k, u, hu, hk, hr⟩)
    · refine ⟨r, hr, ?_⟩
      rw [window_of_lt hlt, refers_var]
    · refine ⟨s, hs, ?_⟩
      rw [window_of_le (by rwa [List.length_map]), refers_var, List.length_map]
    · obtain ⟨hlen, rfl⟩ := List.getElem?_eq_some_iff.1 hu
      have hsub : i + k - i = k := Nat.add_sub_cancel_left ..
      refine ⟨i + k, hk, ?_⟩
      rw [window_of_mem (Nat.le_add_right ..) (by rwa [hsub, List.length_map]), List.getElem_map,
        occurrences_bare]
      simp only [hsub]
      exact mem_externalReferences.1 hr

end Refers

section Verdicts
variable {t : Term}

/-- A visitor that replaces nothing but variables reports no change just when it declines every
occurrence of one. -/
theorem visit_eq_none_iff_occurrences {reply : Term → Nat → Id (Option Term)}
    {P : Nat → Nat → Prop} (hvar : ∀ x i d, reply (.var x i) d = none ↔ P i d)
    (hnode : ∀ t d, t.asVar? = none → reply t d = none) (t : Term) :
    ∀ d, visit (.ofReply reply) unshared t d = none ↔ ∀ o ∈ t.occurrences d, P o.1 o.2 := by
  induction t using induct_children with
  | node t ih =>
    intro d
    rw [visit_eq_none_iff]
    rcases t.eq_var_or_asVar?_eq_none with ⟨x, i, rfl⟩ | ht
    · simp only [children, occurrences_var, List.forall_mem_singleton, hvar, List.not_mem_nil,
        false_implies, implies_true, true_and]
    · rw [and_iff_left (hnode t d ht), occurrences_eq ht]
      simp only [List.forall_mem_flatMap]
      exact forall₂_congr fun c hc => ih d c hc c.2

/-- Whether the places that the index `limit` is compared with under binders are in range. -/
def ReachesExactly (limit : Nat) (t : Term) : Prop :=
  ∀ o ∈ t.occurrences 0, limit + o.2 ≤ maxIndex

instance (limit : Nat) (t : Term) : Decidable (t.ReachesExactly limit) :=
  inferInstanceAs (Decidable (∀ o ∈ t.occurrences 0, _))

theorem below_iff_add {limit : Nat} (h : t.ReachesExactly limit) :
    t.Below limit ↔ ∀ o ∈ t.occurrences 0, o.1 < add limit o.2 := by
  rw [below_iff]
  exact forall₂_congr fun o ho => by rw [add_eq (h o ho)]

theorem reply_shifter_var {limit : Nat} {delta : Int} (x : String) (i d : Nat) :
    (shifter (m := Id) limit delta).reply (.var x i) d = none ↔ i < add limit d := by
  change (if add limit d ≤ i then some _ else none) = none ↔ _
  simp

theorem reply_substituter_var {start : Nat} {us : List Term} (x : String) (i d : Nat) :
    (substituter (m := Id) start us).reply (.var x i) d = none ↔ i < add start d := by
  change (if i < add start d then none else _) = none ↔ _
  by_cases hlt : i < add start d
  · exact iff_of_true (if_pos hlt) hlt
  · rw [if_neg hlt]
    refine iff_of_false ?_ hlt
    cases us[i - add start d]? <;> exact Option.some_ne_none _

theorem shift?_eq_none_iff_occurrences {limit : Nat} {delta : Int} (hdelta : delta ≠ 0) :
    (t.shift? limit delta : Id (Option Term)) = none ↔
      ∀ o ∈ t.occurrences 0, o.1 < add limit o.2 := by
  rw [shift?, if_neg hdelta]
  refine visit_eq_none_iff_occurrences reply_shifter_var (fun u d hu => ?_) t 0
  cases u <;> first | rfl | cases hu

theorem subst?_eq_none_iff_occurrences {start : Nat} {us : List Term} (hus : us ≠ []) :
    (t.subst? start us : Id (Option Term)) = none ↔
      ∀ o ∈ t.occurrences 0, o.1 < add start o.2 := by
  rw [subst?, if_neg (by simpa using hus)]
  refine visit_eq_none_iff_occurrences reply_substituter_var (fun u d hu => ?_) t 0
  cases u <;> first | rfl | cases hu

theorem shift?_eq_none_iff {limit : Nat} {delta : Int} (hdelta : delta ≠ 0)
    (h : t.ReachesExactly limit) :
    (t.shift? limit delta : Id (Option Term)) = none ↔ t.Below limit := by
  rw [below_iff_add h, shift?_eq_none_iff_occurrences hdelta]

theorem subst?_eq_none_iff {start : Nat} {us : List Term} (hus : us ≠ [])
    (h : t.ReachesExactly start) :
    (t.subst? start us : Id (Option Term)) = none ↔ t.Below start := by
  rw [below_iff_add h, subst?_eq_none_iff_occurrences hus]

theorem run_externalReferencesM (hcoherent : t.Coherent) (first : Nat) :
    (t.externalReferencesM : Labelling (List Nat)).run first = t.externalReferences :=
  congrArg Prod.snd (run_referenceCollector hcoherent first)

/-- Sharing has no part in the verdict. -/
theorem Memoizes.run_eq_none_iff {ι : Type} {find : Term → ι → Option (Bundle Term × Nat)}
    {reply : Term → Nat → Id (Option Term)} {x : Labelling (Option Term)} {y : Option Term}
    (h : Memoizes find reply t x y) (first : Nat) :
    x.run first = Option.none ↔ y = Option.none := by
  rw [← Option.map_eq_none_iff (f := unlabel), h.same first, Option.map_eq_none_iff]

theorem rewrite?_var {m : Type → Type} [Monad m] [LawfulMonad m] [BundleLabels m] (v : Visitor m)
    (x : String) (i : Nat) : (var x i).rewrite? v = v.reply (.var x i) 0 := by
  rw [rewrite?]
  conv_rhs => rw [← bind_pure (v.reply (.var x i) 0)]
  split
  · rw [visit, offer]
    simp only [Visitor.lift, StateT.run'_eq, StateT.run_bind, StateT.run_lift, bind_assoc,
      pure_bind, map_bind]
    refine congrArg (v.reply (.var x i) 0 >>= ·) (funext fun u => ?_)
    cases u <;> simp
  · rw [visit, offer]
    refine congrArg (v.reply (.var x i) 0 >>= ·) (funext fun u => ?_)
    cases u <;> rfl

end Verdicts

end Term

namespace Node
variable {m : Type → Type} [Monad m] [LawfulMonad m] [BundleLabels m]
variable {n : Node} {start fresh : Nat} {us : List Node}

theorem same_rewritten_iff (hfresh : fresh ≠ n.address) (t? : Option Term) :
    (n.rewritten fresh t?).Same n ↔ t? = none := by
  cases t? with
  | none => exact iff_of_true rfl rfl
  | some t => exact iff_of_false hfresh (Option.some_ne_none t)

theorem term_rewritten (n : Node) (fresh : Nat) (t? : Option Term) :
    (n.rewritten fresh t?).term = t?.getD n.term := by
  cases t? <;> rfl

theorem substitute?_eq_some_iff {s : Node} :
    n.substitute? start us = some s ↔
      ∃ x k, n.term = .var x (add start 0 + k) ∧ us[k]? = some s := by
  rw [substitute?]
  constructor
  · intro h
    split at h
    · next x i hterm =>
      dsimp only at h
      split at h
      · cases h
      · next hle => exact ⟨x, _, by rw [hterm, Nat.add_sub_cancel' (Nat.not_lt.1 hle)], h⟩
    · cases h
  · rintro ⟨x, k, hterm, hk⟩
    rw [hterm]
    simp only [Nat.not_lt.2 (Nat.le_add_right _ k), if_false, Nat.add_sub_cancel_left, hk]

/-- A node that is put for the whole of another is handed back as it is. -/
theorem substM_of_substitute? {s : Node} (h : n.substitute? start us = some s) :
    (n.substM start us fresh : m Node) = pure s := by
  rw [substM, h]
  simp only [shiftM, Term.shift?, if_true, pure_bind, rewritten]

theorem map_term_shiftM (n : Node) (limit : Nat) (delta : Int) (fresh : Nat) :
    Node.term <$> (n.shiftM limit delta fresh : m Node) = n.term.shiftM limit delta := by
  simp only [shiftM, Term.shiftM, map_bind, map_pure, term_rewritten]

theorem map_term_substM (n : Node) (start : Nat) (us : List Node) (fresh : Nat) :
    Node.term <$> (n.substM start us fresh : m Node) = n.term.substM start (us.map (·.term)) := by
  cases h : n.substitute? start us with
  | none =>
    rw [substM, h]
    simp only [Term.substM, map_bind, map_pure, term_rewritten]
  | some s =>
    obtain ⟨x, k, hterm, hk⟩ := substitute?_eq_some_iff.1 h
    have hne : us.isEmpty = false := by
      cases us with
      | nil => cases hk
      | cons => rfl
    have hput : (substituter (m := m) start (us.map (·.term))).reply
        (.var x (add start 0 + k)) 0 = some <$> s.term.shiftM 0 0 := by
      simp only [substituter, Visitor.ofReply, Nat.not_lt.2 (Nat.le_add_right _ k), if_false,
        Nat.add_sub_cancel_left, List.getElem?_map, hk, Option.map_some, Int.natCast_zero]
      exact bind_pure_comp ..
    have hshift : (s.term.shiftM 0 0 : m Term) = pure s.term := by
      simp only [Term.shiftM, Term.shift?, if_true, pure_bind, Option.getD_none]
    rw [substM_of_substitute? h, map_pure, Term.substM, Term.subst?, hterm, rewrite?_var, hput,
      hshift]
    simp only [List.isEmpty_map, hne, Bool.false_eq_true, if_false, map_pure, pure_bind,
      Option.getD_some]

/-- Whether a substitution from `start` on puts a variable's own node for it. -/
def PutForItself (n : Node) (start : Nat) (us : List Node) : Prop :=
  ∃ x k u, n.term = .var x (start + k) ∧ us[k]? = some u ∧ u.Same n

section Identity
variable (hreach : n.term.ReachesExactly start)
include hreach

/-- A term that is a variable shows that the place it is compared with is in range. -/
theorem add_start_zero {x : String} {i : Nat} (hterm : n.term = .var x i) :
    add start 0 = start := by
  refine add_eq (hreach (i, 0) ?_)
  rw [hterm, occurrences_var]
  exact List.mem_singleton_self _

theorem putForItself_iff :
    n.PutForItself start us ↔ ∃ s, n.substitute? start us = some s ∧ s.Same n := by
  constructor
  · rintro ⟨x, k, u, hterm, hk, hsame⟩
    exact ⟨u, substitute?_eq_some_iff.2 ⟨x, k, by rw [add_start_zero hreach hterm, hterm], hk⟩,
      hsame⟩
  · rintro ⟨u, hu, hsame⟩
    obtain ⟨x, k, hterm, hk⟩ := substitute?_eq_some_iff.1 hu
    exact ⟨x, k, u, by rw [hterm, add_start_zero hreach hterm], hk, hsame⟩

theorem not_below_of_substitute? {s : Node} (h : n.substitute? start us = some s) :
    ¬ n.term.Below start := by
  obtain ⟨x, k, hterm, _⟩ := substitute?_eq_some_iff.1 h
  rw [add_start_zero hreach hterm] at hterm
  rw [hterm, below_iff, occurrences_var, List.forall_mem_singleton]
  exact Nat.not_lt.2 (Nat.le_add_right ..)

/-- What a substitution hands back is the node it was given if it reports no change, and also if it
puts that node for itself. -/
theorem same_iff_of_report {result : Node} {report : Option Term} (hfresh : fresh ≠ n.address)
    (hput : ∀ s, n.substitute? start us = some s → result = s)
    (hkept : n.substitute? start us = none → result = n.rewritten fresh report)
    (hreport : report = none ↔ n.term.Below start) :
    result.Same n ↔ n.term.Below start ∨ n.PutForItself start us := by
  rw [putForItself_iff hreach]
  cases h : n.substitute? start us with
  | none =>
    rw [hkept h, same_rewritten_iff hfresh, hreport]
    simp only [reduceCtorEq, false_and, exists_false, or_false]
  | some s =>
    rw [hput s h]
    simp only [not_below_of_substitute? hreach h, Option.some.injEq, exists_eq_left', false_or]

end Identity

end Node

/-- External references are listed in increasing order, also where a bundle that is met again is
not looked at again. Moves and substitutions take them where they should. They hand back the node
they were given just when they concern none of them, or a substitution puts that node for itself. -/
theorem externalReferences_exact (n : Node) :
    n.term.externalReferences.Pairwise (· < ·) ∧
    (n.term.Coherent → ∀ first,
      (n.term.externalReferencesM : Labelling (List Nat)).run first = n.term.externalReferences) ∧
    (∀ c d : Nat, n.term.ShiftsExactly c d → ∀ r, r ∈ (n.term.shift c d).externalReferences ↔
      (r ∈ n.term.externalReferences ∧ r < c) ∨
      ∃ s ∈ n.term.externalReferences, c ≤ s ∧ r = s + d) ∧
    (∀ i us, n.term.SubstitutesExactly i us → ∀ r, r ∈ (n.term.subst i us).externalReferences ↔
      (r ∈ n.term.externalReferences ∧ r < i) ∨
      (∃ s ∈ n.term.externalReferences, i + us.length ≤ s ∧ r = s - us.length) ∨
      ∃ k u, us[k]? = some u ∧ i + k ∈ n.term.externalReferences ∧ r ∈ u.externalReferences) ∧
    ∀ fresh, fresh ≠ n.address →
      (∀ c delta, (n.shift c delta fresh).term = n.term.shift c delta ∧
        (delta ≠ 0 → n.term.ReachesExactly c →
          ((n.shift c delta fresh).Same n ↔ ∀ r ∈ n.term.externalReferences, r < c) ∧
          (n.term.Coherent → ∀ first,
            ((n.shiftM c delta fresh : Labelling Node).run first).Same n ↔
              ∀ r ∈ n.term.externalReferences, r < c))) ∧
      ∀ i us, (n.subst i us fresh).term = n.term.subst i (us.map (·.term)) ∧
        (us ≠ [] → n.term.ReachesExactly i →
          ((n.subst i us fresh).Same n ↔
            (∀ r ∈ n.term.externalReferences, r < i) ∨ n.PutForItself i us) ∧
          (n.term.Coherent → (∀ u ∈ us, u.term.Coherent) → ∀ first,
            ((n.substM i us fresh : Labelling Node).run first).Same n ↔
              (∀ r ∈ n.term.externalReferences, r < i) ∨ n.PutForItself i us)) := by
  refine ⟨externalReferences_increasing n.term, run_externalReferencesM,
    fun c d h r => mem_externalReferences_shift h, fun i us h r => mem_externalReferences_subst h,
    fun fresh hfresh => ⟨fun c delta => ⟨?_, fun hdelta h => ?_⟩,
      fun i us => ⟨?_, fun hus h => ?_⟩⟩⟩
  · exact n.map_term_shiftM (m := Id) c delta fresh
  · have hplain := shift?_eq_none_iff hdelta h
    refine ⟨(Node.same_rewritten_iff hfresh _).trans hplain, fun ht first => ?_⟩
    have hshared := ((memoizes_shift ht c delta).run_eq_none_iff first).trans hplain
    exact (Node.same_rewritten_iff hfresh _).trans hshared
  · exact n.map_term_substM (m := Id) i us fresh
  · have hne : us.map (·.term) ≠ [] := mt List.map_eq_nil_iff.1 hus
    have hplain := subst?_eq_none_iff hne h
    refine ⟨Node.same_iff_of_report h hfresh (fun s hs => ?_) (fun hs => ?_) hplain,
      fun ht hcoherent first => ?_⟩
    · rw [Node.subst, Node.substM_of_substitute? hs]
      rfl
    · rw [Node.subst, Node.substM, hs]
      rfl
    · have hsubs : ∀ u ∈ us.map (·.term), u.Coherent := List.forall_mem_map.2 hcoherent
      have hshared := ((memoizes_subst ht i hsubs).run_eq_none_iff first).trans hplain
      refine Node.same_iff_of_report h hfresh (fun s hs => ?_) (fun hs => ?_) hshared
      · rw [Node.substM_of_substitute? hs]
        rfl
      · rw [Node.substM, hs]
        rfl

/-- The loop over a type from outside at two depths, at one of which the type is the variable of
the lambda around it. -/
theorem externalReferences_exact_sharedLoop :
    let t : Term := .applyTo (.fix 0 (loopAt 7)) [.var "n" 3,
      .lambda [⟨some "x", .var "B" 4⟩] (.applyTo (.fix 0 (loopAt 7)) [.var "x" 0])]
    let n : Node := ⟨1, t⟩
    let us : List Node := [⟨2, .product [⟨none, .var "p" 6⟩] (.var "q" 0)⟩]
    t.Coherent ∧ (∀ u ∈ us, u.term.Coherent) ∧ t.ShiftsExactly 2 5 ∧
      t.SubstitutesExactly 3 (us.map (·.term)) ∧ t.ReachesExactly 5 ∧ t.ReachesExactly 3 ∧
      t.externalReferences = [0, 3, 4] ∧
      (t.externalReferencesM : Labelling (List Nat)).run 20 = t.externalReferences ∧
      8 ∈ (t.shift 2 (5 : Nat)).externalReferences ∧
      6 ∈ (t.subst 3 (us.map (·.term))).externalReferences ∧
      (n.shift 5 (-1) 9).Same n ∧ ((n.shiftM 5 (-1) 9 : Labelling Node).run 20).Same n ∧
      (n.subst 5 us 9).Same n ∧ ((n.substM 5 us 9 : Labelling Node).run 20).Same n ∧
      ¬ (n.subst 3 us 9).Same n := by
  intro t n us
  have ht : t.Coherent := by
    refine coherent_of_table loopAt fun s hs l hl => ?_
    have hselections : t.selections 0 = [(loopAt 7, 0), (loopAt 7, 1)] := rfl
    rw [hselections] at hs
    simp only [List.mem_cons, List.not_mem_nil, or_false] at hs
    rcases hs with rfl | rfl <;> (obtain rfl := Option.some.inj hl; rfl)
  have hus : ∀ u ∈ us, u.term.Coherent := by
    intro u hu s hs
    obtain rfl := List.mem_singleton.1 hu
    exact nomatch hs
  have hshift : t.ShiftsExactly 2 5 := by decide
  have hsubst : t.SubstitutesExactly 3 (us.map (·.term)) := by decide
  have hreach : t.ReachesExactly 5 := by decide
  have hreach' : t.ReachesExactly 3 := by decide
  have hbelow : ∀ r ∈ t.externalReferences, r < 5 := by decide
  obtain ⟨_, hshared, hmoved, hput, hidentity⟩ := externalReferences_exact n
  obtain ⟨hmoves, hputs⟩ := hidentity 9 (by decide)
  obtain ⟨hmovesPlain, hmovesShared⟩ := (hmoves 5 (-1)).2 (by decide) hreach
  obtain ⟨hputsPlain, hputsShared⟩ := (hputs 5 us).2 (List.cons_ne_nil _ _) hreach
  refine ⟨ht, hus, hshift, hsubst, hreach, hreach', by decide, hshared ht 20,
    (hmoved 2 5 hshift 8).2 (.inr ⟨3, by decide, by decide, rfl⟩),
    (hput 3 _ hsubst 6).2 (.inr (.inr ⟨0, _, rfl, by decide, by decide⟩)),
    hmovesPlain.2 hbelow, (hmovesShared ht 20).2 hbelow, hputsPlain.2 (.inl hbelow),
    (hputsShared ht hus 20).2 (.inl hbelow), fun hsame => ?_⟩
  rcases ((hputs 3 us).2 (List.cons_ne_nil _ _) hreach').1.1 hsame with h | ⟨_, _, _, h, _⟩
  · exact absurd h (by decide)
  · cases h

/-- A variable that is put for itself is handed back, although the substitution concerns it. -/
theorem same_putForItself :
    ¬ ∀ (n : Node) (i : Nat) (us : List Node) (fresh : Nat), fresh ≠ n.address → us ≠ [] →
      n.term.SubstitutesExactly i (us.map (·.term)) → n.term.ReachesExactly i →
      ((n.subst i us fresh).Same n ↔ ∀ r ∈ n.term.externalReferences, r < i) := by
  intro h
  let n : Node := ⟨0, .var "x" 0⟩
  have hiff := h n 0 [n] 1 (by decide) (List.cons_ne_nil _ _) (by decide) (by decide)
  have hsame : (n.subst 0 [n] 1).Same n := rfl
  exact absurd (hiff.1 hsame) (by decide)

end InductiveTerms
