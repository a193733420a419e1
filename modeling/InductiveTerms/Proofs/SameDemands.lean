import InductiveTerms.Proofs.ClosureSlots
import InductiveTerms.Proofs.Renaming
import InductiveTerms.Proofs.Sharing

/-!
Terms and bundles that demand the same. Terms do if the children of their nodes do
(`DemandsAlike.node`), or if they are nested bundles that refer to the same variables
(`DemandsAlike.fix`). Of a bundle a closure depends only on how many parameters the functions have
and on what their bodies demand, so bundles that agree there have the same closures
(`Bundle.DemandsAlike.closure?_eq`).
-/
namespace InductiveTerms
open Closure

namespace Closure

/-- Whether two terms under `n` binders stand for the same and demand the same, whatever their
variables stand for and whatever they are applied to. -/
structure DemandsAlike (n : Nat) (t u : Term) : Prop where
  meaning_eq {locals : List Meaning} : locals.length = n → meaning u locals = meaning t locals
  demands_eq {locals args : List Meaning} :
    locals.length = n → demands u locals args = demands t locals args

section Lists
variable {locals : List Meaning}

@[simp] theorem length_unknowns (n : Nat) : (unknowns n locals).length = locals.length + n := by
  rw [unknowns, List.length_append, List.length_replicate, Nat.add_comm]

theorem unknowns_unknowns (n k : Nat) :
    unknowns k (unknowns n locals) = unknowns (n + k) locals := by
  rw [unknowns, unknowns, unknowns, ← List.append_assoc, List.replicate_append_replicate,
    Nat.add_comm]

@[simp] theorem length_startLocals (n : Nat) (p : Pattern) :
    (startLocals n p).length = n + p.length := by
  simp [startLocals, Nat.add_comm]

/-- Only references to the variables listed count. -/
theorem nestedDemands_filter (refs : List Nat) :
    nestedDemands locals (refs.filter (· < locals.length)) = nestedDemands locals refs := by
  rw [nestedDemands, nestedDemands, List.filterMap_filter]
  refine List.filterMap_congr fun r _ => ?_
  split
  · rfl
  · next hout =>
    rw [List.getElem?_eq_none (by simpa using hout)]
    rfl

theorem nestedDemands_congr {refs refs' : List Nat} (h : refs.Pairwise (· < ·))
    (h' : refs'.Pairwise (· < ·)) (hsame : ∀ r < locals.length, r ∈ refs' ↔ r ∈ refs) :
    nestedDemands locals refs' = nestedDemands locals refs := by
  rw [← nestedDemands_filter refs, ← nestedDemands_filter refs']
  congr 1
  refine (h'.filter _).eq_of_mem_iff (h.filter _) fun r => ?_
  simp only [List.mem_filter, decide_eq_true_eq]
  exact and_congr_left (hsame r)

end Lists

namespace DemandsAlike
variable {n : Nat} {t u v : Term}

theorem refl (n : Nat) (t : Term) : DemandsAlike n t t := ⟨fun _ => rfl, fun _ => rfl⟩

theorem trans (h : DemandsAlike n t u) (h' : DemandsAlike n u v) : DemandsAlike n t v :=
  ⟨fun hn => (h'.meaning_eq hn).trans (h.meaning_eq hn),
    fun hn => (h'.demands_eq hn).trans (h.demands_eq hn)⟩

theorem symm (h : DemandsAlike n t u) : DemandsAlike n u t :=
  ⟨fun hn => (h.meaning_eq hn).symm, fun hn => (h.demands_eq hn).symm⟩

/-- Nodes demand the same if their children do, each with its own variables. -/
theorem node {h : Term → Nat → Term} (hfix : t.asFix? = none)
    (hchildren : ∀ c ∈ t.children n, DemandsAlike c.2 c.1 (h c.1 c.2)) :
    DemandsAlike n t (t.mapChildren h n) := by
  cases t with
  | var x i => exact refl _ _
  | global x => exact refl _ _
  | univ u => exact refl _ _
  | fix i b => simp [Term.asFix?] at hfix
  | product ps r => exact ⟨fun _ => rfl, fun _ => rfl⟩
  | lambda ps b =>
    have hb := hchildren (b, n + ps.length) (by simp [Term.children])
    refine ⟨fun _ => rfl, fun {locals args} hn => ?_⟩
    simp only [Term.mapChildren, demands, Term.length_mapParamTypes]
    exact hb.demands_eq (by rw [length_unknowns, hn])
  | letIn x v ty b =>
    have hv := hchildren (v, n) (by simp [Term.children])
    have hb := hchildren (b, n + 1) (by simp [Term.children])
    constructor
    · intro locals hn
      simp only [Term.mapChildren, meaning, hv.meaning_eq hn]
      exact hb.meaning_eq (by rw [List.length_cons, hn])
    · intro locals args hn
      simp only [Term.mapChildren, demands, hv.meaning_eq hn, hv.demands_eq hn]
      rw [hb.demands_eq (by rw [List.length_cons, hn])]
  | apply f as =>
    have hf := hchildren (f, n) List.mem_cons_self
    have has : ∀ a ∈ as.toList, DemandsAlike n a (h a n) :=
      fun a ha => hchildren (a, n) (List.mem_cons_of_mem _ (List.mem_map_of_mem ha))
    refine ⟨fun _ => rfl, fun {locals args} hn => ?_⟩
    have hmeanings : as.toList.map ((meaning · locals) ∘ (h · n)) =
        as.toList.map (meaning · locals) :=
      List.map_congr_left fun a ha => (has a ha).meaning_eq hn
    have hargs : as.toList.reverse.flatMap (fun a => demands (h a n) locals []) =
        as.toList.reverse.flatMap (demands · locals []) :=
      List.flatMap_congr fun a ha => (has a (List.mem_reverse.1 ha)).demands_eq hn
    simp only [Term.mapChildren, demands_apply, Arguments.toList_map, ← List.map_reverse,
      List.flatMap_map, List.map_map, hmeanings, hargs, hf.demands_eq hn]
  | cast u k ty =>
    have hu := hchildren (u, n) (by simp [Term.children])
    constructor
    · intro locals hn
      simp only [Term.mapChildren, meaning, hu.meaning_eq hn]
    · intro locals args hn
      simp only [Term.mapChildren, demands, hu.demands_eq hn]
  | caseOf p s bs =>
    have hs := hchildren (s, n) (by simp [Term.children])
    refine ⟨fun _ => rfl, fun {locals args} hn => ?_⟩
    have hbodies : ∀ b ∈ bs, DemandsAlike (n + b.arity) b.body (h b.body (n + b.arity)) := by
      intro b hb
      refine hchildren (b.body, n + b.arity) ?_
      exact List.mem_cons_of_mem _ (List.mem_cons_of_mem _ (List.mem_map_of_mem hb))
    have hbs : bs.flatMap (fun b => demands (h b.body (n + b.arity)) (unknowns b.arity locals) args)
        = bs.flatMap fun b => demands b.body (unknowns b.arity locals) args :=
      List.flatMap_congr fun b hb => (hbodies b hb).demands_eq (by rw [length_unknowns, hn])
    simp only [Term.mapChildren, demands, demandsOfBranches_eq, List.flatMap_map, hs.demands_eq hn,
      hbs]

/-- Nested bundles demand the same if they refer to the same variables. -/
theorem fix {i j : Nat} {b c : Bundle Term} (h : ∀ r < n, r ∈ (Term.fix j c).externalReferences ↔
    r ∈ (Term.fix i b).externalReferences) : DemandsAlike n (.fix i b) (.fix j c) := by
  refine ⟨fun _ => rfl, fun {locals args} hn => ?_⟩
  rw [demands, demands]
  exact nestedDemands_congr (Term.externalReferences_increasing _)
    (Term.externalReferences_increasing _) (hn ▸ h)

end DemandsAlike

end Closure

/-- Whether two functions of bundles of `n` have as many parameters, and bodies that demand the
same. -/
structure FixFunction.DemandsAlike (n : Nat) (f f' : FixFunction Term) : Prop where
  arity_eq : f'.arity = f.arity
  body : Closure.DemandsAlike (n + f.arity) f.body f'.body

namespace Bundle

/-- Whether the functions of two bundles demand the same, one by one. -/
def DemandsAlike (b c : Bundle Term) : Prop :=
  List.Forall₂ (FixFunction.DemandsAlike b.size) b.functions c.functions

/-- Whether each pattern has an entry for every parameter of its function. -/
def FitsArities (b : Bundle Term) (info : SpecInfo) : Prop :=
  ∀ ⦃i f q⦄, b.function? i = some f → info[i]? = some q → f.arity = q.length

namespace DemandsAlike
variable {b c : Bundle Term} {seed i g : Nat} {p : Pattern} {info : SpecInfo}
  {found : List Meaning}

theorem size_eq (h : b.DemandsAlike c) : c.size = b.size := (List.Forall₂.length_eq h).symm

theorem symm (h : b.DemandsAlike c) : c.DemandsAlike b := by
  refine (List.Forall₂.flip h).imp fun f' f hff => ⟨hff.arity_eq.symm, ?_⟩
  rw [h.size_eq, hff.arity_eq]
  exact hff.body.symm

theorem exists_function (h : b.DemandsAlike c) {f : FixFunction Term}
    (hf : b.function? i = some f) : ∃ f', c.function? i = some f' ∧ f.DemandsAlike b.size f' :=
  Term.forall₂_getElem? h hf

theorem fitsArities (h : b.DemandsAlike c) (hinfo : b.FitsArities info) : c.FitsArities info := by
  intro i f' q hf' hq
  obtain ⟨f, hf, hff⟩ := h.symm.exists_function hf'
  rw [← hff.arity_eq]
  exact hinfo hf hq

/-- What a body demands the other one demands. -/
theorem mem_demands (h : b.DemandsAlike c) (hinfo : b.FitsArities info) {f : FixFunction Term}
    {q : Pattern} {d : Demand} (hf : b.function? i = some f) (hq : info[i]? = some q)
    (hd : d ∈ demands f.body (startLocals b.size q) []) :
    ∃ f', c.function? i = some f' ∧ d ∈ demands f'.body (startLocals c.size q) [] := by
  obtain ⟨f', hf', hff⟩ := h.exists_function hf
  refine ⟨f', hf', ?_⟩
  rwa [h.size_eq, hff.body.demands_eq (by rw [length_startLocals, hinfo hf hq])]

theorem uses_walked (h : b.DemandsAlike c) (hinfo : b.FitsArities info)
    (huse : b.Uses info .walked i g found) : c.Uses info .walked i g found := by
  obtain ⟨f, q, hf, hq, huse⟩ := (uses_body_iff (by decide)).1 huse
  obtain ⟨f', hf', hd⟩ := h.mem_demands hinfo hf hq ((call_mem_demands_iff _).2 huse)
  exact .body hf' hq ((call_mem_demands_iff _).1 hd)

theorem uses_nested (h : b.DemandsAlike c) (hinfo : b.FitsArities info)
    (huse : b.Uses info .nested i g found) : ∃ found', c.Uses info .nested i g found' := by
  obtain ⟨f, q, hf, hq, huse⟩ := (uses_body_iff (by decide)).1 huse
  obtain ⟨f', hf', hd⟩ := h.mem_demands hinfo hf hq ((nested_mem_demands_iff _).2 ⟨found, huse⟩)
  obtain ⟨found', huse'⟩ := (nested_mem_demands_iff _).1 hd
  exact ⟨found', .body hf' hq huse'⟩

theorem reached (h : b.DemandsAlike c) (hinfo : b.FitsArities info) (hi : b.Reached info seed i) :
    c.Reached info seed i := by
  induction hi with
  | seed => exact .seed
  | call _ huse ih => exact .call ih (h.uses_walked hinfo huse)

theorem solution (h : b.DemandsAlike c) (hsol : b.Solution seed p info) :
    c.Solution seed p info := by
  have hinfo : b.FitsArities info := fun _ _ _ => hsol.length_eq_arity
  have hinfo' := h.fitsArities hinfo
  exact {
    arity_eq := by
      obtain ⟨f, hf, harity⟩ := hsol.arity_eq
      obtain ⟨f', hf', hff⟩ := h.exists_function hf
      exact ⟨f', hf', hff.arity_eq.trans harity⟩
    length_eq := hsol.length_eq.trans h.size_eq.symm
    seed_eq := hsol.seed_eq
    fits := fun i g found huse => by
      obtain ⟨f, hf, hfits⟩ := hsol.fits i g found (h.symm.uses_walked hinfo' huse)
      obtain ⟨f', hf', hff⟩ := h.exists_function hf
      exact ⟨f', hf', hff.arity_eq.symm ▸ hfits⟩
    not_nested := fun i g found huse => by
      obtain ⟨found', huse'⟩ := h.symm.uses_nested hinfo' huse
      exact hsol.not_nested i g found' huse'
    reached := fun i hi => h.reached hinfo (hsol.reached i (h.size_eq ▸ hi)) }

theorem closure?_eq (h : b.DemandsAlike c) (seed : Nat) (p : Pattern) :
    c.closure? seed p = b.closure? seed p := by
  refine Option.ext fun info => ?_
  rw [closure?_eq_some_iff, closure?_eq_some_iff]
  exact ⟨h.symm.solution, h.solution⟩

end DemandsAlike

end Bundle
end InductiveTerms
