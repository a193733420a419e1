import Mathlib.Data.List.Infix
import InductiveTerms.Proofs.Lookups
import InductiveTerms.Proofs.Merging
import InductiveTerms.Proofs.Residuals
import InductiveTerms.Proofs.Sharing

/-!
When specialization ends. Reductions that a call of the bundle gives rise to take one step at most
(`call_stops`), so that specialization ends just when the reductions at all other applications stop
(`specialize_terminates_iff`). A closure has no say in those: a bundle may hold a term that reduces
for ever (`selfApplying_diverges`).
-/
namespace InductiveTerms
open Term Traversal Index

theorem exists_common_bound {α : Type} (as : List α) (P : α → Nat → Prop)
    (h : ∀ a ∈ as, ∃ s, P a s) (hmono : ∀ a s s', s ≤ s' → P a s → P a s') :
    ∃ s, ∀ a ∈ as, P a s := by
  induction as with
  | nil => exact ⟨0, fun a ha => nomatch ha⟩
  | cons a as ih =>
    simp only [List.forall_mem_cons] at h
    obtain ⟨⟨s, hs⟩, has⟩ := h
    obtain ⟨s', hs'⟩ := ih has
    refine ⟨max s s', List.forall_mem_cons.2 ⟨hmono a s _ (Nat.le_max_left s s') hs, ?_⟩⟩
    exact fun a' ha' => hmono a' s' _ (Nat.le_max_right s s') (hs' a' ha')

namespace Term

theorem isHeadRedex_of_reduceHead_eq_none {steps : Nat} {t : Term}
    (h : t.reduceHead steps = none) : t.isHeadRedex = true := by
  by_contra hredex
  rw [reduceHead_of_not_isHeadRedex (by simpa using hredex)] at h
  cases h

theorem reduceHead_mono {s s' : Nat} (hle : s ≤ s') {t u : Term} (h : t.reduceHead s = some u) :
    t.reduceHead s' = some u := by
  induction s generalizing t s' with
  | zero =>
    rcases isHeadRedex_cases t with ⟨ps, b, as, rfl⟩ | hredex
    · cases h
    · rwa [reduceHead_of_not_isHeadRedex hredex] at h ⊢
  | succ s ih =>
    rcases isHeadRedex_cases t with ⟨ps, b, as, rfl⟩ | hredex
    · obtain ⟨k, rfl⟩ : ∃ k, s' = k + 1 := ⟨s' - 1, by omega⟩
      change (beta ps b as.toList).reduceHead s = some u at h
      exact ih (Nat.le_of_succ_le_succ hle) h
    · rwa [reduceHead_of_not_isHeadRedex hredex] at h ⊢

theorem kind_shift (t : Term) (limit : Nat) (delta : Int) :
    (t.shift limit delta).kind = t.kind := by
  rw [← kind_bare, bare_shift]
  rcases t.eq_var_or_asVar?_eq_none with ⟨x, i, rfl⟩ | ht
  · rw [bare_var, mapVars_var, shiftVar]
    split <;> rfl
  · rw [mapVars_eq (asVar?_bare_eq_none ht), kind_mapChildren, kind_bare]

/-- Whether a term is an abstraction only as what is left of a call. -/
def Tame (u : Term) : Prop := u.kind = .lambda → ∃ n, Residual n u

namespace Tame
variable {f w : Term}

theorem of_kind_ne (h : f.kind ≠ .lambda) : f.Tame := fun hkind => absurd hkind h

/-- A tame function that is applied takes one step at most, and what comes out is tame. -/
theorem reduceHead (h : f.Tame) (as : Arguments Term) :
    ∃ w, (Term.apply f as).reduceHead 1 = some w ∧ w.Tame := by
  rcases f.eq_lambda_or_kind_ne with ⟨ps, b, rfl⟩ | hf
  · obtain ⟨n, hres⟩ := h rfl
    refine ⟨beta ps b as.toList, hres.reduceHead as 0, ?_⟩
    rcases Nat.lt_or_ge as.toList.length n with hlt | hle
    · exact fun _ => ⟨_, hres.beta_of_lt hlt⟩
    · obtain ⟨j, cs, hbare⟩ := hres.beta_of_le hle
      refine of_kind_ne ?_
      rw [← kind_bare, hbare]
      generalize (as.toList.drop n).map bare = rest
      cases cs <;> cases rest <;> simp [applyTo, kind]
  · have hredex : (Term.apply f as).isHeadRedex = false := isHeadRedex_apply_eq_false.2 hf
    exact ⟨_, reduceHead_of_not_isHeadRedex hredex 1, of_kind_ne (by simp [kind])⟩

theorem of_reduceHead {as : Arguments Term} {steps : Nat} (h : f.Tame)
    (hw : (Term.apply f as).reduceHead steps = some w) : w.Tame := by
  obtain ⟨w', hw', htame⟩ := h.reduceHead as
  have hw := reduceHead_mono (Nat.le_add_right steps 1) hw
  have hw' := reduceHead_mono (Nat.le_add_left 1 steps) hw'
  obtain rfl := Option.some.inj (hw.symm.trans hw')
  exact htame

end Tame

end Term

namespace Specialization.Plan
variable {plan : Plan}

/-- The plan with another bound on the steps of a reduction. -/
def withSteps (plan : Plan) (steps : Nat) : Plan := { plan with steps := steps }

/-- What rewriting leaves of a term under `d` binders, given enough steps. -/
def Becomes (plan : Plan) (t : Term) (d : Nat) (w : Term) : Prop :=
  ∃ steps, Visited (plan.withSteps steps).visitor t d w

/-- Whether a function of the bundle is at the head of a term, below nested applications. -/
def IsCall (plan : Plan) (t : Term) (d : Nat) : Prop :=
  ∃ x i, t.unfoldApps.1 = .var x i ∧ d + plan.pattern.length ≤ i ∧
    i < d + plan.pattern.length + plan.bundleSize

/-- Whether every reduction stops that rewriting starts elsewhere than at a call. -/
def OthersStop (plan : Plan) (t : Term) (d : Nat) : Prop :=
  ∀ c ∈ t.nodes d, ¬ plan.IsCall c.1 c.2 → ∀ u, Rebuilt plan.Becomes c.1 c.2 u →
    ∃ steps v, u.reduceHead steps = some v

section Steps
variable {s s' : Nat} {t w w' : Term} {d : Nat}

theorem reply_outlasts (hle : s ≤ s') (t : Term) (d : Nat) :
    Outlasts ((plan.withSteps s').visitor.reply t d) ((plan.withSteps s).visitor.reply t d) := by
  intro o ho
  rcases isHeadRedex_cases t with ⟨ps, b, as, rfl⟩ | hredex
  · cases hreduce : (Term.apply (.lambda ps b) as).reduceHead s with
    | none => simp [visitor, Visitor.ofReply, withSteps, hreduce] at ho
    | some w =>
      have hmore := reduceHead_mono hle hreduce
      simp only [visitor, Visitor.ofReply, withSteps, hreduce] at ho
      simp only [visitor, Visitor.ofReply, withSteps, hmore]
      exact ho
  · rcases t.eq_var_or_asVar?_eq_none with ⟨x, i, rfl⟩ | hvar
    · exact ho
    · rw [reply_of_not_isHeadRedex hvar hredex] at ho ⊢
      exact ho

theorem visited_mono (hle : s ≤ s') (h : Visited (plan.withSteps s).visitor t d w) :
    Visited (plan.withSteps s').visitor t d w := by
  obtain ⟨r, hr, rfl⟩ := h
  exact ⟨r, visit_outlasts (reply_outlasts hle) t d r hr, rfl⟩

theorem Becomes.unique (h : plan.Becomes t d w) (h' : plan.Becomes t d w') : w = w' := by
  obtain ⟨s, hs⟩ := h
  obtain ⟨s', hs'⟩ := h'
  obtain ⟨r, hr, rfl⟩ := visited_mono (Nat.le_max_left s s') hs
  obtain ⟨r', hr', rfl⟩ := visited_mono (Nat.le_max_right s s') hs'
  obtain rfl := Except.ok.inj ((returns_except.1 hr).symm.trans (returns_except.1 hr'))
  rfl

theorem rebuilt_unique {u u' : Term} (h : Rebuilt plan.Becomes t d u)
    (h' : Rebuilt plan.Becomes t d u') (hredex : u.isHeadRedex = true) : u = u' := by
  have hargs : ∀ {as bs bs' : List Term}, List.Forall₂ (plan.Becomes · d ·) as bs →
      List.Forall₂ (plan.Becomes · d ·) as bs' → bs = bs' := by
    intro as bs bs' hbs hbs'
    induction hbs generalizing bs' with
    | nil =>
      cases hbs'
      rfl
    | cons ha _ ih =>
      cases hbs' with
      | cons ha' has' => rw [ha.unique ha', ih has']
  cases h with
  | apply hf has =>
    cases h' with
    | apply hf' has' => rw [hf.unique hf', Arguments.toList_inj.1 (hargs has has')]
  | _ => cases hredex

end Steps

/-- Whether what is put for the functions of the bundle is tame. -/
def TameCalls (plan : Plan) : Prop := ∀ r ∈ plan.replacements, ∀ e : Nat, (r.shift 0 e).Tame

section Calls
variable {t u w : Term} {d : Nat}

theorem tame_call (htame : plan.TameCalls) (t : Term) : ∀ {w}, plan.IsCall t d →
    Visited plan.visitor t d w → w.Tame := by
  induction t using induct_children with
  | node t ih =>
    intro w hcall hw
    obtain ⟨x, i, hhead, hle, hlt⟩ := hcall
    rcases t.eq_apply_or_kind_ne with ⟨f, as, rfl⟩ | hkind
    · obtain ⟨u, hu, hreduce⟩ := visited_node rfl hw
      cases hu with
      | apply hf _ =>
        rw [unfoldApps_apply] at hhead
        have hfun := ih d (f, d) (by simp [children]) ⟨x, i, hhead, hle, hlt⟩ hf
        exact hfun.of_reduceHead hreduce
    · rw [unfoldApps_eq_self hkind] at hhead
      obtain rfl : t = .var x i := hhead
      cases visited_var hw with
      | function _ _ hr => exact htame _ (List.mem_of_getElem? hr) _
      | _ => omega

/-- The reduction that a call gives rise to takes one step at most. -/
theorem call_stops (htame : plan.TameCalls) (hcall : plan.IsCall t d)
    (hu : Rebuilt plan.Becomes t d u) : ∃ v, u.reduceHead 1 = some v := by
  rcases isHeadRedex_cases u with ⟨ps, b, as, rfl⟩ | hredex
  · cases hu with
    | @apply f _ as₀ _ _ hf _ =>
      obtain ⟨x, i, hhead, hrange⟩ := hcall
      rw [unfoldApps_apply] at hhead
      obtain ⟨steps, hvisited⟩ := hf
      have htame : (plan.withSteps steps).TameCalls := htame
      have hfun : (Term.lambda ps b).Tame := tame_call htame f ⟨x, i, hhead, hrange⟩ hvisited
      obtain ⟨v, hv, _⟩ := hfun.reduceHead as
      exact ⟨v, hv⟩
  · exact ⟨u, reduceHead_of_not_isHeadRedex hredex 1⟩

end Calls

section Termination
variable {t w : Term} {d : Nat}

theorem rebuilt_becomes {u : Term} {steps : Nat}
    (h : Rebuilt (Visited (plan.withSteps steps).visitor) t d u) : Rebuilt plan.Becomes t d u :=
  h.imp fun _ _ _ hw => ⟨steps, hw⟩

/-- If something is left of all children, then of the node as well unless its reduction takes too
many steps. -/
theorem visited_or_stuck (hcovers : plan.Covers) (steps : Nat)
    (hchildren : ∀ c ∈ t.children d, ∃ w, Visited (plan.withSteps steps).visitor c.1 c.2 w) :
    (∃ w, Visited (plan.withSteps steps).visitor t d w) ∨
      ∃ u, Rebuilt plan.Becomes t d u ∧ u.reduceHead steps = none := by
  cases hvisit : visit (plan.withSteps steps).visitor unshared t d with
  | ok r => exact .inl ⟨_, r, hvisit, rfl⟩
  | error e =>
    have hcovers' : (plan.withSteps steps).Covers := ⟨hcovers.slots, hcovers.length_replacements⟩
    rcases hcovers'.visit_error_cases hvisit with ⟨c, hc, he⟩ | ⟨u, hu, hstuck, _⟩
    · obtain ⟨w, r, hr, _⟩ := hchildren c hc
      rw [returns_except.1 hr] at he
      cases he
    · exact .inr ⟨u, rebuilt_becomes hu, hstuck⟩

theorem visited_nodes (t : Term) : ∀ {d w}, Visited plan.visitor t d w →
    ∀ c ∈ t.nodes d, ∃ w, Visited plan.visitor c.1 c.2 w := by
  induction t using induct_children with
  | node t ih =>
    intro d w hw c hc
    rw [nodes_eq] at hc
    rcases List.mem_cons.1 hc with rfl | hc
    · exact ⟨w, hw⟩
    · obtain ⟨c₀, hc₀, hc⟩ := List.mem_flatMap.1 hc
      obtain ⟨r, hr, _⟩ := hw
      obtain ⟨u, o, hu, _, _⟩ := visit_returns hr
      obtain ⟨k, hk⟩ := List.mem_iff_getElem?.1 hc₀
      obtain ⟨c', _, _, hc'⟩ := forall₂_getElem? hu.children hk
      exact ih d c₀ hc₀ hc' c hc

theorem becomes_of_othersStop (hcovers : plan.Covers) (htame : plan.TameCalls) (t : Term) :
    ∀ {d}, plan.OthersStop t d → ∃ w, plan.Becomes t d w := by
  induction t using induct_children with
  | node t ih =>
    intro d hstop
    have hchildren : ∀ c ∈ t.children d, ∃ w, plan.Becomes c.1 c.2 w := by
      intro c hc
      refine ih d c hc fun c' hc' => hstop c' ?_
      rw [nodes_eq]
      exact List.mem_cons_of_mem _ (List.mem_flatMap.2 ⟨c, hc, hc'⟩)
    obtain ⟨s, hs⟩ := exists_common_bound (t.children d)
      (fun c s => ∃ w, Visited (plan.withSteps s).visitor c.1 c.2 w)
      (fun c hc => (hchildren c hc).elim fun w ⟨s, hw⟩ => ⟨s, w, hw⟩)
      fun _ _ _ hle ⟨w, hw⟩ => ⟨w, visited_mono hle hw⟩
    rcases visited_or_stuck hcovers s hs with ⟨w, hw⟩ | ⟨u, hu, hstuck⟩
    · exact ⟨w, s, hw⟩
    -- what keeps the node from an answer is one reduction, which stops if it may take more steps
    obtain ⟨s', v, hv⟩ : ∃ steps v, u.reduceHead steps = some v := by
      by_cases hcall : plan.IsCall t d
      · exact ⟨1, call_stops htame hcall hu⟩
      · exact hstop (t, d) (by rw [nodes_eq]; exact List.mem_cons_self) hcall u hu
    have hs' : ∀ c ∈ t.children d, ∃ w, Visited (plan.withSteps (max s s')).visitor c.1 c.2 w := by
      intro c hc
      obtain ⟨w, hw⟩ := hs c hc
      exact ⟨w, visited_mono (Nat.le_max_left s s') hw⟩
    rcases visited_or_stuck hcovers (max s s') hs' with ⟨w, hw⟩ | ⟨u', hu', hstuck'⟩
    · exact ⟨w, _, hw⟩
    obtain rfl := rebuilt_unique hu hu' (isHeadRedex_of_reduceHead_eq_none hstuck)
    rw [reduceHead_mono (Nat.le_max_right s s') hv] at hstuck'
    cases hstuck'

/-- Something is left of a term just when the reductions other than those of calls stop. -/
theorem becomes_iff (hcovers : plan.Covers) (htame : plan.TameCalls) :
    (∃ w, plan.Becomes t d w) ↔ plan.OthersStop t d := by
  refine ⟨?_, becomes_of_othersStop hcovers htame t⟩
  rintro ⟨w, s, hw⟩ c hc _ u hu
  obtain ⟨v, hv⟩ := visited_nodes t hw c hc
  rcases Bool.eq_false_or_eq_true u.isHeadRedex with hredex | hredex
  · have hvar : c.1.asVar? = none := by
      rw [← hu.asVar?_eq]
      cases u <;> first | rfl | cases hredex
    obtain ⟨u', hu', hreduce⟩ := visited_node hvar hv
    obtain rfl := rebuilt_unique hu (rebuilt_becomes hu') hredex
    exact ⟨s, v, hreduce⟩
  · exact ⟨0, u, reduceHead_of_not_isHeadRedex hredex 0⟩

end Termination

section Plain
variable {t w : Term} {d : Nat}

theorem tame_of_replaces (htame : plan.TameCalls)
    (hconstants : ∀ c ∈ plan.constants, c.kind ≠ .lambda) {x : String} {i : Nat}
    (hw : plan.Replaces x i d w) : w.Tame := by
  cases hw with
  | inner | kept | outside => exact .of_kind_ne (by simp [kind])
  | constant _ _ _ hc =>
    refine .of_kind_ne ?_
    rw [kind_shift]
    exact hconstants _ (List.mem_of_getElem? hc)
  | function _ _ hr => exact htame _ (List.mem_of_getElem? hr) _

/-- Without applied abstractions, and with constants that are none, a term becomes an abstraction
only if it is one or as what is left of a call. -/
theorem tame_of_becomes (htame : plan.TameCalls)
    (hconstants : ∀ c ∈ plan.constants, c.kind ≠ .lambda) (t : Term) : ∀ {d w},
      t.All (fun u => u.isHeadRedex = false) → t.kind ≠ .lambda → plan.Becomes t d w → w.Tame := by
  induction t using induct_children with
  | node t ih =>
    intro d w hall hkind hw
    obtain ⟨hredex, hchildren⟩ := (all_iff_children d).1 hall
    obtain ⟨steps, hvisited⟩ := hw
    rcases t.eq_var_or_asVar?_eq_none with ⟨x, i, rfl⟩ | hvar
    · have hreplaces := visited_var hvisited
      have htame : (plan.withSteps steps).TameCalls := htame
      exact tame_of_replaces htame hconstants hreplaces
    · obtain ⟨u, hu, hreduce⟩ := visited_node hvar hvisited
      rcases isHeadRedex_cases u with ⟨ps, b, as, rfl⟩ | hstays
      · cases hu with
        | @apply f _ as₀ _ _ hf _ =>
          have hfun : f.kind ≠ .lambda := isHeadRedex_apply_eq_false.1 hredex
          have hmem : (f, d) ∈ (Term.apply f as₀).children d := by simp [children]
          have htame' := ih d (f, d) hmem (hchildren _ hmem) hfun ⟨steps, hf⟩
          exact htame'.of_reduceHead hreduce
      · rw [reduceHead_of_not_isHeadRedex hstays] at hreduce
        obtain rfl := Option.some.inj hreduce
        exact .of_kind_ne (by rwa [hu.kind_eq])

theorem tame_of_rebuilt (htame : plan.TameCalls)
    (hconstants : ∀ c ∈ plan.constants, c.kind ≠ .lambda) {ps : List (Param Term)} {b : Term}
    {as : Arguments Term} (hall : t.All (fun u => u.isHeadRedex = false))
    (hu : Rebuilt plan.Becomes t d (.apply (.lambda ps b) as)) : (Term.lambda ps b).Tame := by
  cases hu with
  | @apply f _ _ _ _ hf _ =>
    obtain ⟨hredex, hchildren⟩ := (all_iff_children d).1 hall
    have hfun := hchildren (f, d) (by simp [children])
    exact tame_of_becomes htame hconstants f hfun (isHeadRedex_apply_eq_false.1 hredex) hf

theorem visited_of_plain (hcovers : plan.Covers) (htame : plan.TameCalls)
    (hconstants : ∀ c ∈ plan.constants, c.kind ≠ .lambda) (steps : Nat) (t : Term) : ∀ {d},
      t.All (fun u => u.isHeadRedex = false) →
        ∃ w, Visited (plan.withSteps (steps + 1)).visitor t d w := by
  induction t using induct_children with
  | node t ih =>
    intro d hall
    have hchildren := ((all_iff_children d).1 hall).2
    rcases visited_or_stuck hcovers (steps + 1) fun c hc => ih d c hc (hchildren c hc) with
      hw | ⟨u, hu, hstuck⟩
    · exact hw
    rcases isHeadRedex_cases u with ⟨ps, b, as, rfl⟩ | hstays
    · obtain ⟨v, hv, _⟩ := (tame_of_rebuilt htame hconstants hall hu).reduceHead as
      rw [reduceHead_mono (Nat.le_add_left 1 steps) hv] at hstuck
      cases hstuck
    · rw [reduceHead_of_not_isHeadRedex hstays] at hstuck
      cases hstuck

end Plain

end Specialization.Plan

namespace Bundle
variable {seed : Nat} {b : Bundle Term} {p q : Pattern} {info : SpecInfo} {constants : List Term}
  {namer : Nat → String}

theorem tameCalls_plan (harity : ∀ f ∈ b.functions, f.arity ≤ maxIndex) (steps : Nat)
    (info : SpecInfo) (constants : List Term) (namer : Nat → String) (q : Pattern) :
    (b.plan steps info constants namer q).TameCalls := by
  intro r hr e
  obtain ⟨g, f, p, hf, _, rfl⟩ := Specialization.mem_replacements b.functions hr
  rw [Nat.zero_add]
  rcases Nat.eq_zero_or_pos f.arity with hzero | hpos
  · have hparams : f.params = [] := List.length_eq_zero_iff.1 hzero
    refine .of_kind_ne ?_
    rw [kind_shift, Specialization.replacement, hparams]
    cases p <;> simp [Specialization.keptArguments, kind]
  · intro _
    exact ⟨_, Specialization.residual_replacement (lt_of_function? hf)
      (harity f (List.mem_of_getElem? hf)) hpos e⟩

theorem specialize_of_visited {steps : Nat} (hdescribes : b.Describes p info)
    (h : ∀ q t, b.Part info q t →
      ∃ w, Visited (b.plan steps info constants namer q).visitor t 0 w) :
    ∃ b', b.specialize steps info constants namer = .ok b' := by
  refine eq_ok_of_ne_error fun e he => ?_
  obtain ⟨q, t, hpart, he⟩ := specialize_error_part hdescribes.length_eq hdescribes.arity_eq he
  obtain ⟨w, hw⟩ := h q t hpart
  rw [Specialization.Plan.rewrite_of_visited hw] at he
  cases he

/-- Specialization succeeds with enough steps just when every part of the bundle can be
rewritten. -/
theorem specialize_succeeds_iff (hdescribes : b.Describes p info) :
    (∃ steps b', b.specialize steps info constants namer = .ok b') ↔
      ∀ q t, b.Part info q t → ∃ w, (b.plan 0 info constants namer q).Becomes t 0 w := by
  constructor
  · rintro ⟨steps, b', h⟩ q t hpart
    obtain ⟨u, hu⟩ := specialize_part h hpart
    exact ⟨u, steps, Specialization.Plan.visit_of_rewrite hu⟩
  · intro h
    obtain ⟨s, hs⟩ := exists_common_bound
      ((info.flatMap List.inits).product (((Term.fix 0 b).children 0).map Prod.fst))
      (fun c s => b.Part info c.1 c.2 →
        ∃ w, Visited ((b.plan 0 info constants namer c.1).withSteps s).visitor c.2 0 w)
      (fun c _ => by
        by_cases hpart : b.Part info c.1 c.2
        · obtain ⟨w, s, hw⟩ := h c.1 c.2 hpart
          exact ⟨s, fun _ => ⟨w, hw⟩⟩
        · exact ⟨0, fun hpart' => absurd hpart' hpart⟩)
      (fun c s s' hle hc hpart => by
        obtain ⟨w, hw⟩ := hc hpart
        exact ⟨w, Specialization.Plan.visited_mono hle hw⟩)
    refine ⟨s, specialize_of_visited hdescribes fun q t hpart => hs (q, t) ?_ hpart⟩
    obtain ⟨p, hp, hinitial⟩ := hpart.exists_initial
    have hinits : q ∈ info.flatMap List.inits :=
      List.mem_flatMap.2 ⟨p, hp, (List.mem_inits _ _).2 hinitial⟩
    exact List.pair_mem_product.2 ⟨hinits, List.mem_map_of_mem (hpart.mem_children hdescribes)⟩

theorem specialize_of_plain (hdescribes : b.Describes p info)
    (hslots : ∀ slot, some slot ∈ p → slot < constants.length)
    (harity : ∀ f ∈ b.functions, f.arity ≤ maxIndex)
    (hplain : ∀ q t, b.Part info q t → t.All fun u => u.isHeadRedex = false)
    (hconstants : ∀ c ∈ constants, c.kind ≠ .lambda) (steps : Nat) (namer : Nat → String) :
    ∃ b', b.specialize (steps + 1) info constants namer = .ok b' := by
  refine specialize_of_visited hdescribes fun q t hpart => ?_
  have hcovers : (b.plan 0 info constants namer q).Covers :=
    hpart.covers fun q hq => hdescribes.covers hslots 0 namer hq
  exact Specialization.Plan.visited_of_plain hcovers
    (tameCalls_plan harity 0 info constants namer q) hconstants steps t (hplain q t hpart)

/-- The reductions that calls give rise to take one step at most; specialization ends just when all
others stop; and there are no others if neither the bundle applies an abstraction nor a constant is
one. -/
theorem specialize_terminates_iff (hclosure : b.closure? seed p = some info)
    (hslots : ∀ slot, some slot ∈ p → slot < constants.length)
    (harity : ∀ f ∈ b.functions, f.arity ≤ maxIndex) (namer : Nat → String) :
    (∀ q t, b.Part info q t → ∀ c ∈ t.nodes 0,
      (b.plan 0 info constants namer q).IsCall c.1 c.2 →
        ∀ u, Rebuilt (b.plan 0 info constants namer q).Becomes c.1 c.2 u →
          ∃ v, u.reduceHead 1 = some v) ∧
    ((∃ steps b', b.specialize steps info constants namer = .ok b') ↔
      ∀ q t, b.Part info q t → (b.plan 0 info constants namer q).OthersStop t 0) ∧
    ((∀ q t, b.Part info q t → t.All fun u => u.isHeadRedex = false) →
      (∀ c ∈ constants, c.kind ≠ .lambda) →
        ∀ steps, ∃ b', b.specialize (steps + 1) info constants namer = .ok b') := by
  have hdescribes := describes_of_closure? hclosure
  have htame : ∀ q, (b.plan 0 info constants namer q).TameCalls :=
    tameCalls_plan harity 0 info constants namer
  have hcovers : ∀ q t, b.Part info q t → (b.plan 0 info constants namer q).Covers :=
    fun q t hpart => hpart.covers fun q hq => hdescribes.covers hslots 0 namer hq
  refine ⟨fun q t _ c _ hcall u hu => Specialization.Plan.call_stops (htame q) hcall hu, ?_, ?_⟩
  · rw [specialize_succeeds_iff hdescribes]
    refine forall_congr' fun q => forall_congr' fun t => forall_congr' fun hpart => ?_
    exact Specialization.Plan.becomes_iff (hcovers q t hpart) (htame q)
  · exact fun hplain hconstants steps => specialize_of_plain hdescribes hslots harity hplain
      hconstants steps namer

theorem specialize_terminates_passingOn :
    passingOn.closure? 0 [some 0, none] = some [[some 0, none], [some 0, none]] ∧
      (∀ f ∈ passingOn.functions, f.arity ≤ maxIndex) ∧
      ∀ steps, ∃ b', passingOn.specialize (steps + 1) [[some 0, none], [some 0, none]]
        [.global "O"] (fun _ => "h") = .ok b' := by
  have hclosure : passingOn.closure? 0 [some 0, none] = some [[some 0, none], [some 0, none]] := by
    decide
  have harity : ∀ f ∈ passingOn.functions, f.arity ≤ maxIndex := by decide
  have hslots : ∀ slot, some slot ∈ ([some 0, none] : Pattern) →
      slot < [Term.global "O"].length := by simp
  obtain ⟨_, _, hplain⟩ := specialize_terminates_iff hclosure hslots harity fun _ => "h"
  have hall : (Term.fix 0 passingOn).All fun u => u.isHeadRedex = false := by decide
  have hdescribes := describes_of_closure? hclosure
  refine ⟨hclosure, harity, hplain (fun q t hpart => ?_) (by decide)⟩
  exact ((all_iff_children 0).1 hall).2 _ (hpart.mem_children hdescribes)

/-- `λ y. y y`. -/
def duplicator : Term :=
  .lambda [⟨some "y", .global "nat"⟩] (.applyTo (.var "y" 0) [.var "y" 0])

/-- `f x := (λ y. y y) (λ y. y y)`. -/
def selfApplying : Bundle Term :=
  ⟨none, [⟨"f", [⟨some "x", .global "nat"⟩], .global "nat", .applyTo duplicator [duplicator]⟩]⟩

theorem reduceHead_duplicator (steps : Nat) :
    (Term.applyTo duplicator [duplicator]).reduceHead steps = none := by
  induction steps with
  | zero => rfl
  | succ steps ih => exact ih

/-- A closure does not keep specialization from reducing for ever. -/
theorem selfApplying_diverges :
    selfApplying.closure? 0 [none] = some [[none]] ∧
      (∀ slot, some slot ∈ ([none] : Pattern) → slot < ([] : List Term).length) ∧
      ∀ steps, selfApplying.specialize steps [[none]] [] (fun _ => "f") = .error .outOfSteps := by
  have hclosure : selfApplying.closure? 0 [none] = some [[none]] := by decide
  refine ⟨hclosure, by simp, fun steps => ?_⟩
  cases hspecialize : selfApplying.specialize steps [[none]] [] (fun _ => "f") with
  | error e =>
    rw [specialize_error_of_describes (describes_of_closure? hclosure) (by simp) hspecialize]
  | ok b' =>
    have hf : selfApplying.function? 0 = some _ := rfl
    have hbody : selfApplying.Part [[none]] [none] (.applyTo duplicator [duplicator]) :=
      .body hf rfl
    obtain ⟨u, hu⟩ := specialize_part hspecialize hbody
    have hvisited := Specialization.Plan.visit_of_rewrite hu
    obtain ⟨u, hu, hreduce⟩ := Specialization.Plan.visited_node rfl hvisited
    have hstays : ∀ {w}, Visited (selfApplying.plan steps [[none]] [] (fun _ => "f")
        [none]).visitor duplicator 0 w → w = duplicator := by
      rintro w ⟨r, hr, rfl⟩
      obtain rfl : none = r := Except.ok.inj hr
      rfl
    cases hu with
    | @apply _ _ _ as' _ hf has =>
      obtain ⟨a', as'⟩ := as'
      cases has with
      | cons ha has =>
        cases has
        obtain rfl := hstays hf
        obtain rfl := hstays ha
        change (Term.applyTo duplicator [duplicator]).reduceHead steps = _ at hreduce
        rw [reduceHead_duplicator] at hreduce
        cases hreduce

end Bundle
end InductiveTerms
