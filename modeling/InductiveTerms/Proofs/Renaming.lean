import Mathlib.Data.List.Sort
import InductiveTerms.Proofs.Correspondence
import InductiveTerms.Proofs.Merging
import InductiveTerms.Proofs.References
import InductiveTerms.Proofs.Residuals
import InductiveTerms.Term.Refresh

/-!
Operations on terms and what is display only. A visitor whose replies differ from the nodes in
display only leaves of a term one that is equal to it up to display (`visit_displaying`), which is
what becomes of a term when names are refreshed. What moving, substituting, merging and reducing
make of a term is, up to display, determined by what the term is up to display.
-/
namespace InductiveTerms.Term
open Traversal

section KeepsDisplay

/-- The values that an action may give. -/
def Results (α : Type) : Type := α → Prop

namespace Results

instance : Monad Results where
  pure a := fun b => a = b
  bind S f := fun b => ∃ a, S a ∧ f a b

instance : Returning Results where
  Returns S a := S a
  returns_pure := Iff.rfl
  returns_bind := Iff.rfl

instance : BundleLabels Results where
  tracked := false
  fresh := fun _ => True

/-- Whatever state it starts from, an action gives one of the values. -/
def ofStates (σ : Type) : Correspondence (StateT σ Id) Results where
  Holds x S := ∀ s, S (x.run s).1
  pure _ _ := rfl
  bind hx hf s := ⟨_, hx s, hf _ _⟩

end Results

/-- A visitor of which nothing is known but that its replies differ from the nodes in display
only. -/
def displaying : Visitor Results where
  enter _ := fun _ => True
  leave := fun _ => True
  reply u _ := fun o => (o.getD u).bare = u.bare
  depthOnly := false

/-- It only leaves of a term one that is equal to it up to display. -/
theorem visit_displaying (t : Term) : ∀ {d : Nat} {r : Option Term},
    Returns (visit displaying unshared t d) r → (r.getD t).bare = t.bare := by
  induction t using induct_children with
  | node t ih =>
    intro d r h
    obtain ⟨u, o, hu, ho, hr⟩ := visit_returns h
    have hchildren : Rebuilt (fun c _ w => w.bare = c.bare) t d u :=
      hu.imp fun c hc w hw => by
        obtain ⟨r, hr, rfl⟩ := hw
        exact ih d c hc hr
    have hbare : u.bare = t.bare := by
      rw [hchildren.bare_eq, bare_eq t d]
    rw [hr]
    exact Eq.trans ho hbare

theorem reply_nameRefresher (u : Term) (d : Nat) :
    (Results.ofStates (List (Option String))).Holds ((nameRefresher (m := Id)).reply u d)
      (displaying.reply u d) := by
  intro names
  cases u with
  | var x i =>
    simp only [nameRefresher, StateT.run_bind, StateT.run_get, pure_bind]
    split
    · next y _ =>
      change ((if y = x then none else some (.var y i)).getD (Term.var x i)).bare = .var "" i
      split <;> rfl
    · rfl
  | _ => rfl

/-- Refreshed names are display. -/
theorem bare_refreshNames (t : Term) : t.refreshNames.bare = t.bare := by
  have hvisitors : (Results.ofStates _).OfVisitors (nameRefresher (m := Id)) displaying :=
    ⟨fun _ _ => trivial, fun _ => trivial, fun u d _ => reply_nameRefresher u d⟩
  exact visit_displaying t (visit_corresponds hvisitors (unshared_corresponds fun _ => trivial) t
    (fun _ _ _ => reply_nameRefresher _ _) [])

end KeepsDisplay

/-! What operations make of terms that are the same without display. -/

theorem length_eq_of_map {α β γ : Type} {f : α → γ} {g : β → γ} {as : List α} {bs : List β}
    (h : as.map f = bs.map g) : as.length = bs.length := by
  have := congrArg List.length h
  rwa [List.length_map, List.length_map] at this

section Congr
variable {t u : Term}

theorem bare_shift_congr (h : t.bare = u.bare) (limit : Nat) (delta : Int) :
    (t.shift limit delta).bare = (u.shift limit delta).bare := by
  rw [bare_shift, bare_shift, h]

theorem substVar_congr {subs subs' : List Term} (h : subs.map bare = subs'.map bare)
    (start : Nat) : substVar start subs = substVar start subs' := by
  funext i d
  have hlen : subs.length = subs'.length := length_eq_of_map h
  have hget := congrArg (·[i - Index.add start d]?) h
  simp only [List.getElem?_map] at hget
  rw [substVar, substVar, hlen]
  cases hs : subs[i - Index.add start d]? with
  | none =>
    rw [hs, Option.map_none] at hget
    rw [Option.map_eq_none_iff.1 hget.symm]
  | some s =>
    rw [hs, Option.map_some] at hget
    obtain ⟨s', hs', heq⟩ := Option.map_eq_some_iff.1 hget.symm
    simp only [hs', bare_shift_congr heq 0 d]

theorem bare_subst_congr (h : t.bare = u.bare) {subs subs' : List Term}
    (hsubs : subs.map bare = subs'.map bare) (start : Nat) :
    (t.subst start subs).bare = (u.subst start subs').bare := by
  rw [bare_subst, bare_subst, h, substVar_congr hsubs]

theorem bare_normalize_congr (h : t.bare = u.bare) : t.normalize.bare = u.normalize.bare := by
  rw [bare_normalize, bare_normalize, bare_flat, bare_flat, h]

theorem externalReferences_increasing (t : Term) : t.externalReferences.Pairwise (· < ·) := by
  obtain ⟨s, hs, _, hincreasing⟩ := collects_visit t 0 []
  have hrefs : t.externalReferences = s := by
    have hrun : t.externalReferences =
        ((visit (referenceCollector (m := Id)) unshared t 0).run []).2 := rfl
    rw [hrun, hs]
  rw [hrefs]
  exact hincreasing .nil

theorem externalReferences_eq_of_occurrences (h : t.occurrences 0 = u.occurrences 0) :
    t.externalReferences = u.externalReferences := by
  refine (externalReferences_increasing t).eq_of_mem_iff (externalReferences_increasing u)
    fun r => ?_
  rw [mem_externalReferences, mem_externalReferences, h]

theorem externalReferences_congr (h : t.bare = u.bare) :
    t.externalReferences = u.externalReferences :=
  externalReferences_eq_of_occurrences (by rw [← occurrences_bare, h, occurrences_bare])

theorem bare_beta_congr {ps qs : List (Param Term)} {b c : Term} {as bs : List Term}
    (hps : ps.map bareParam = qs.map bareParam) (hb : b.bare = c.bare)
    (has : as.map bare = bs.map bare) : (beta ps b as).bare = (beta qs c bs).bare := by
  have hparams : ps.length = qs.length := length_eq_of_map hps
  have hargs : as.length = bs.length := length_eq_of_map has
  change (((lambdaOver (ps.drop (min ps.length as.length)) b).subst 0
      (as.take (min ps.length as.length)).reverse).applyTo
        (as.drop (min ps.length as.length))).bare =
    (((lambdaOver (qs.drop (min qs.length bs.length)) c).subst 0
      (bs.take (min qs.length bs.length)).reverse).applyTo
        (bs.drop (min qs.length bs.length))).bare
  rw [hparams, hargs, bare_applyTo, bare_applyTo, List.map_drop, List.map_drop, has]
  congr 1
  refine bare_subst_congr ?_ ?_ 0
  · rw [bare_lambdaOver, bare_lambdaOver, List.map_drop, List.map_drop, hps, hb]
  · rw [List.map_reverse, List.map_reverse, List.map_take, List.map_take, has]

theorem rel_imp {α β : Type} {R S : α → β → Prop} {o : Option α} {o' : Option β}
    (h : Option.Rel R o o') (himp : ∀ a b, R a b → S a b) : Option.Rel S o o' := by
  cases h with
  | some hab => exact .some (himp _ _ hab)
  | none => exact .none

/-- Reductions of related terms end together, in terms that are related, if such terms are redexes
together and stay related in one step. -/
theorem reduceHead_related {R : Nat → Term → Term → Prop}
    (hredex : ∀ {s t u}, R s t u → t.isHeadRedex = u.isHeadRedex)
    (hbeta : ∀ {s ps b as qs c bs},
      R (s + 1) (.apply (.lambda ps b) as) (.apply (.lambda qs c) bs) →
        R s (beta ps b as.toList) (beta qs c bs.toList)) (steps : Nat) : ∀ {t u}, R steps t u →
    Option.Rel (fun v w => ∃ s, R s v w) (t.reduceHead steps) (u.reduceHead steps) := by
  have hstays : ∀ {steps t u}, R steps t u → t.isHeadRedex = false →
      Option.Rel (fun v w => ∃ s, R s v w) (t.reduceHead steps) (u.reduceHead steps) := by
    intro steps t u h ht
    rw [reduceHead_of_not_isHeadRedex ht,
      reduceHead_of_not_isHeadRedex ((hredex h).symm.trans ht)]
    exact .some ⟨steps, h⟩
  have hpartner : ∀ {steps ps b as u}, R steps (.apply (.lambda ps b) as) u →
      ∃ qs c bs, u = .apply (.lambda qs c) bs := by
    intro steps ps b as u h
    rcases isHeadRedex_cases u with hu | hu
    · exact hu
    · exact nomatch (hredex h).trans hu
  induction steps with
  | zero =>
    intro t u h
    rcases isHeadRedex_cases t with ⟨ps, b, as, rfl⟩ | ht
    · obtain ⟨qs, c, bs, rfl⟩ := hpartner h
      exact .none
    · exact hstays h ht
  | succ steps ih =>
    intro t u h
    rcases isHeadRedex_cases t with ⟨ps, b, as, rfl⟩ | ht
    · obtain ⟨qs, c, bs, rfl⟩ := hpartner h
      exact ih (hbeta h)
    · exact hstays h ht

/-- Reductions of terms that are the same without display end together, in such terms. -/
theorem reduceHead_congr (steps : Nat) (h : t.bare = u.bare) :
    Option.Rel (fun v w => v.bare = w.bare) (t.reduceHead steps) (u.reduceHead steps) := by
  refine rel_imp (reduceHead_related (R := fun _ t u => t.bare = u.bare) ?_ ?_ steps h)
    fun _ _ ⟨_, hvw⟩ => hvw
  · intro _ t u h
    rw [← isHeadRedex_bare, h, isHeadRedex_bare]
  · intro _ ps b as qs c bs h
    rw [bare_apply, bare_apply, bare_lambda, bare_lambda, Term.apply.injEq, Term.lambda.injEq] at h
    exact bare_beta_congr h.1.1 h.1.2 (Arguments.map_eq_map_iff.1 h.2)

end Congr

end InductiveTerms.Term
