import InductiveTerms.Proofs.Enclosing
import InductiveTerms.Proofs.FreeVariables
import InductiveTerms.Proofs.NormalizedIndices
import InductiveTerms.Proofs.RenamedBundles

/-!
Closures and the ways of writing a bundle. Merging nodes changes nothing in what a term demands
(`demandsAlike_flat`), and neither does it matter what is put for variables from outside, as long as
that refers to variables from outside itself (`demandsAlike_mapVars`). So a fixpoint has the same
closures when it is normalized, renamed, moved, or when terms are substituted into it
(`closure?_presentation`).
-/
namespace InductiveTerms
open Term Index

namespace Closure

section Merged

theorem demandsAlike_flattenNode (t : Term) (n : Nat) :
    DemandsAlike n t t.flattenNode := by
  cases t with
  | product ps r =>
    rcases r.eq_product_or_kind_ne with ⟨qs, s, rfl⟩ | hr
    · rw [flattenNode_product]
      exact ⟨fun _ => rfl, fun _ => rfl⟩
    · rw [flattenNode_product_of_ne hr]
      exact .refl _ _
  | lambda ps b =>
    rcases b.eq_lambda_or_kind_ne with ⟨qs, c, rfl⟩ | hb
    · rw [flattenNode_lambda]
      refine ⟨fun _ => rfl, fun {locals args} _ => ?_⟩
      rw [demands, demands, demands, unknowns_unknowns, List.length_append]
    · rw [flattenNode_lambda_of_ne hb]
      exact .refl _ _
  | apply f bs =>
    rcases f.eq_apply_or_kind_ne with ⟨g, as, rfl⟩ | hf
    · rw [flattenNode_apply]
      refine ⟨fun _ => rfl, fun {locals args} _ => ?_⟩
      simp only [demands_apply, Arguments.toList_append, List.reverse_append, List.flatMap_append,
        List.map_append, List.append_assoc]
    · rw [flattenNode_apply_of_ne hf]
      exact .refl _ _
  | _ => exact .refl _ _

theorem demandsAlike_flat (t : Term) : ∀ n, DemandsAlike n t t.flat := by
  induction t using induct_children with
  | node t ih =>
    intro n
    rcases eq_fix_or_asFix?_eq_none t with ⟨i, b, rfl⟩ | hfix
    · have hrefs : (Term.fix i b).flat.externalReferences = (Term.fix i b).externalReferences :=
        externalReferences_eq_of_occurrences (occurrences_flat _ 0)
      rw [flat_fix] at hrefs ⊢
      exact .fix fun r _ => by rw [hrefs]
    · rw [flat_eq t n]
      have hmapped : DemandsAlike n t (t.mapChildren (fun c _ => c.flat) n) :=
        .node hfix fun c hc => ih n c hc c.2
      exact hmapped.trans (demandsAlike_flattenNode _ n)

end Merged

section Replaced
variable {f : Nat → Nat → Term} {t u : Term} {n : Nat}

theorem meaning_eq_unknown {locals : List Meaning}
    (h : ∀ r, Refers (t.occurrences 0) r → locals.length ≤ r) : meaning t locals = .unknown := by
  by_contra hm
  obtain ⟨r, hr, hlocal⟩ := refers_of_meaning hm t rfl
  rw [List.getElem?_eq_none (h r hr)] at hlocal
  cases hlocal

theorem demands_eq_nil {locals args : List Meaning}
    (h : ∀ r, Refers (t.occurrences 0) r → locals.length ≤ r) : demands t locals args = [] := by
  have hunused : ∀ {place found g}, ¬ Uses place t locals args g found := by
    intro place found g huse
    obtain ⟨r, hr, hlocal⟩ := huse.refers
    rw [List.getElem?_eq_none (h r hr)] at hlocal
    cases hlocal
  refine List.eq_nil_iff_forall_not_mem.2 fun d hd => ?_
  cases d with
  | call g found => exact hunused ((call_mem_demands_iff t).1 hd)
  | nested g =>
    obtain ⟨found, huse⟩ := (nested_mem_demands_iff t).1 hd
    exact hunused huse

theorem demandsAlike_of_outside (ht : ∀ r, Refers (t.occurrences 0) r → n ≤ r)
    (hu : ∀ r, Refers (u.occurrences 0) r → n ≤ r) : DemandsAlike n t u := by
  constructor
  · rintro locals rfl
    rw [meaning_eq_unknown ht, meaning_eq_unknown hu]
  · rintro locals args rfl
    rw [demands_eq_nil ht, demands_eq_nil hu]

/-- Whether what is put for variable `i` under `d` binders is the variable if it is one of these,
and refers to none of them otherwise. -/
structure KeepsBound (f : Nat → Nat → Term) (i d : Nat) : Prop where
  bound : i < d → ∃ x, f i d = .var x i
  free : d ≤ i → ∀ r, Refers ((f i d).occurrences 0) r → d ≤ r

theorem refers_iff_depth {r : Nat} : Refers (t.occurrences 0) r ↔
    ∃ o ∈ t.occurrences n, ∃ e, o.2 = e + n ∧ o.1 = r + e := by
  constructor
  · rintro ⟨⟨i, e⟩, ho, hle, rfl⟩
    exact ⟨(i, e + n), mem_occurrences_depth.2 ⟨e, ho, rfl⟩, e, rfl,
      (Nat.sub_add_cancel hle).symm⟩
  · rintro ⟨⟨i, d⟩, ho, e, hd, hi⟩
    obtain ⟨e', ho', hd'⟩ := mem_occurrences_depth.1 ho
    exact ⟨(i, e'), ho', by simp only at *; omega, by simp only at *; omega⟩

theorem refers_mapVars_of_lt (h : ∀ o ∈ t.occurrences n, KeepsBound f o.1 o.2) {r : Nat}
    (hr : r < n) : Refers ((mapVars f t n).occurrences 0) r ↔ Refers (t.occurrences 0) r := by
  rw [refers_iff_depth (n := n), refers_iff_depth (n := n), occurrences_mapVars]
  constructor
  · rintro ⟨⟨j, k⟩, ho, e, hk, hj⟩
    obtain ⟨⟨i, d⟩, hoi, ho⟩ := List.mem_flatMap.1 ho
    obtain ⟨e₀, _, hd⟩ := mem_occurrences_depth.1 hoi
    rcases Nat.lt_or_ge i d with hlt | hle
    · obtain ⟨x, hx⟩ := (h _ hoi).bound hlt
      simp only [hx, occurrences_var, List.mem_singleton] at ho
      exact ⟨(i, d), hoi, e, ho ▸ hk, ho ▸ hj⟩
    -- what stands for a variable from outside does not refer below `n`
    · exfalso
      obtain ⟨e', ho', hk'⟩ := mem_occurrences_depth.1 ho
      simp only at hd hk hj ho' hk'
      have hd' := (h _ hoi).free hle (r + e₀) ⟨(j, e'), ho', by simp only; omega,
        by simp only; omega⟩
      simp only at hd'
      omega
  · rintro ⟨⟨i, d⟩, ho, e, hd, hi⟩
    obtain ⟨x, hx⟩ := (h _ ho).bound (by simp only at *; omega)
    refine ⟨(i, d), List.mem_flatMap.2 ⟨_, ho, ?_⟩, e, hd, hi⟩
    simp only [hx, occurrences_var, List.mem_singleton]

/-- What is put for variables from outside does not matter if it refers to such variables. -/
theorem demandsAlike_mapVars (t : Term) :
    ∀ n, (∀ o ∈ t.occurrences n, KeepsBound f o.1 o.2) → DemandsAlike n t (mapVars f t n) := by
  induction t using induct_children with
  | node t ih =>
    intro n h
    rcases t.eq_var_or_asVar?_eq_none with ⟨x, i, rfl⟩ | hvar
    · have hi := h (i, n) (List.mem_singleton.2 rfl)
      rw [mapVars_var]
      rcases Nat.lt_or_ge i n with hlt | hle
      · obtain ⟨y, hy⟩ := hi.bound hlt
        rw [hy]
        exact ⟨fun _ => rfl, fun _ => rfl⟩
      · refine demandsAlike_of_outside (fun r hr => ?_) (hi.free hle)
        rwa [← refers_var.1 hr]
    rcases eq_fix_or_asFix?_eq_none t with ⟨i, b, rfl⟩ | hfix
    · have hrefs : ∀ r < n, r ∈ (mapVars f (.fix i b) n).externalReferences ↔
          r ∈ (Term.fix i b).externalReferences := by
        intro r hr
        rw [mem_externalReferences, mem_externalReferences, refers_mapVars_of_lt h hr]
      rw [mapVars_eq hvar] at hrefs ⊢
      exact .fix hrefs
    · rw [mapVars_eq hvar]
      exact .node hfix fun c hc =>
        ih n c hc c.2 fun o ho => h o ((mem_occurrences_iff hvar).2 ⟨c, hc, ho⟩)

theorem keepsBound_bindVar (σ : Nat → Term) (i d : Nat) : KeepsBound (bindVar σ) i d where
  bound hlt := ⟨"", bindVar_of_lt hlt⟩
  free hle r hr := by
    rw [bindVar_of_le hle, raise_eq_bind, refers_bind] at hr
    obtain ⟨j, _, hj⟩ := hr
    rw [← refers_var.1 hj]
    exact Nat.le_add_left d j

/-- An index that is a machine word is not moved below binders, also where it stops at the end of
the range. -/
theorem keepsBound_shiftVar (limit n : Nat) {i d : Nat} (hi : i ≤ maxIndex) :
    KeepsBound (shiftVar limit n) i d := by
  have hindex : i ≤ shiftIndex limit n i d ∧ (i < d → shiftIndex limit n i d = i) := by
    rcases Nat.lt_or_ge i (add limit d) with hlt | hle
    · rw [shiftIndex_of_lt hlt]
      omega
    · rw [shiftIndex_of_le hle hi]
      simp only [add, move] at hle ⊢
      omega
  rw [shiftVar_eq]
  refine ⟨fun hlt => ⟨"", by rw [hindex.2 hlt]⟩, fun hle r hr => ?_⟩
  rw [← refers_var.1 hr]
  exact Nat.le_trans hle hindex.1

end Replaced

end Closure

namespace Bundle
open Closure
variable {b c : Bundle Term} {i : Nat} {t : Term}

/-- Whether a term is function `i` of a bundle that has the same closures. -/
def SameClosures (b : Bundle Term) (i : Nat) (t : Term) : Prop :=
  ∃ c, t = .fix i c ∧ ∀ seed p, c.closure? seed p = b.closure? seed p

/-- Bundles that demand the same have the same closures, whatever is displayed of them. -/
theorem DemandsAlike.sameClosures (h : b.DemandsAlike c) (ht : t.bare = (Term.fix i c).bare) :
    b.SameClosures i t := by
  obtain ⟨c', rfl, hsame⟩ := eq_fix_of_bare ht
  refine ⟨c', rfl, fun seed p => ?_⟩
  rw [← closure?_congr (beq_iff_bareFunction.1 hsame), h.closure?_eq]

theorem body_mem_children (i : Nat) {f : FixFunction Term} (hf : f ∈ b.functions) :
    (f.body, b.size + f.arity) ∈ (Term.fix i b).children 0 := by
  simp only [children, Nat.zero_add, List.mem_flatMap]
  exact ⟨f, hf, by simp⟩

theorem sameClosures_normalize (b : Bundle Term) (i : Nat) :
    b.SameClosures i (Term.fix i b).normalize := by
  have hflat : b.DemandsAlike ⟨b.label, b.functions.map fun f =>
      ⟨f.name, f.params.map flatParam, f.result.flat, f.body.flat⟩⟩ := by
    exact List.forall₂_map_right_iff.2 (List.forall₂_same.2 fun f _ =>
      ⟨List.length_map _, demandsAlike_flat f.body _⟩)
  refine hflat.sameClosures ?_
  rw [bare_normalize, flat_fix]

theorem sameClosures_refreshNames (b : Bundle Term) (i : Nat) :
    b.SameClosures i (Term.fix i b).refreshNames :=
  (demandsAlike_of_bare rfl).sameClosures (bare_refreshNames _)

theorem demandsAlike_mapFunction {f : Nat → Nat → Term}
    (h : ∀ o ∈ (Term.fix i b).occurrences 0, KeepsBound f o.1 o.2) :
    b.DemandsAlike ⟨b.label, b.functions.map (mapFunction (mapVars f) · b.size)⟩ := by
  refine List.forall₂_map_right_iff.2 (List.forall₂_same.2 fun k hk =>
    ⟨length_mapParamTypes _ _, demandsAlike_mapVars k.body _ fun o ho => h o ?_⟩)
  exact (mem_occurrences_iff rfl).2 ⟨_, body_mem_children i hk, ho⟩

theorem sameClosures_mapVars {f : Nat → Nat → Term} (ht : t.bare = mapVars f (Term.fix i b).bare 0)
    (h : ∀ o ∈ (Term.fix i b).occurrences 0, KeepsBound f o.1 o.2) : b.SameClosures i t := by
  have hbare := bare_bare (.fix i b)
  rw [← occurrences_bare] at h
  rw [bare_fix] at ht h hbare
  have hmapped : t.bare = (mapVars f (.fix i ⟨none, b.functions.map bareFunction⟩) 0).bare := by
    rw [← ht, bare_bare]
  rw [mapVars_eq rfl, mapChildren, Nat.zero_add] at hmapped
  obtain ⟨c, rfl, hc⟩ := (demandsAlike_mapFunction h).sameClosures hmapped
  rw [bare_fix, Term.fix.injEq, Bundle.mk.injEq] at hbare
  exact ⟨c, rfl, fun seed p => (hc seed p).trans (closure?_congr hbare.2.2 seed p)⟩

end Bundle

/-- The closures of a bundle are those of the bundle when it is normalized or renamed, when it is
moved up, and when terms are put for variables from outside. -/
theorem closure?_presentation (b : Bundle Term) (i : Nat) :
    b.SameClosures i (Term.fix i b).normalize ∧
    b.SameClosures i (Term.fix i b).refreshNames ∧
    ((∀ o ∈ (Term.fix i b).occurrences 0, o.1 ≤ maxIndex) →
      ∀ c d : Nat, b.SameClosures i ((Term.fix i b).shift c d)) ∧
    ∀ j us, (Term.fix i b).SubstitutesExactly j us →
      b.SameClosures i ((Term.fix i b).subst j us) := by
  refine ⟨b.sameClosures_normalize i, b.sameClosures_refreshNames i, fun hrange c d => ?_,
    fun j us hus => ?_⟩
  · exact Bundle.sameClosures_mapVars (bare_shift _ c d)
      fun o ho => Closure.keepsBound_shiftVar c d (hrange o ho)
  · exact Bundle.sameClosures_mapVars (bare_subst_eq_window hus)
      fun o _ => Closure.keepsBound_bindVar _ o.1 o.2

/-- `f c n := let d := c in g d (h n)` and `g c n := λ k. λ l. (f c) l`, where the type `T` of `c`
and the function `h` are from outside. -/
def callsFromOutside : Bundle Term :=
  ⟨none,
    [⟨"f", [⟨some "c", .var "T" 2⟩, ⟨some "n", .global "nat"⟩], .global "nat",
      .letIn (some "d") (.var "c" 1) (.var "T" 4)
        (.applyTo (.var "g" 3) [.var "d" 0, .applyTo (.var "h" 6) [.var "n" 1]])⟩,
    ⟨"g", [⟨some "c", .var "T" 2⟩, ⟨some "n", .global "nat"⟩], .global "fn",
      .lambda [⟨some "k", .global "nat"⟩] (.lambda [⟨some "l", .global "nat"⟩]
        (.applyTo (.applyTo (.var "f" 5) [.var "c" 3]) [.var "l" 0]))⟩]⟩

/-- For the type and the function terms are put that refer to other variables from outside. -/
theorem closure?_presentation_callsFromOutside :
    let t : Term := .fix 0 callsFromOutside
    let us : List Term := [.applyTo (.var "vec" 0) [.var "m" 1],
      .lambda [⟨some "x", .global "nat"⟩] (.applyTo (.var "add" 3) [.var "x" 0, .var "vec" 1])]
    let info : SpecInfo := [[some 0, none], [some 0, none]]
    (∀ o ∈ t.occurrences 0, o.1 ≤ maxIndex) ∧ t.SubstitutesExactly 0 us ∧
      callsFromOutside.closure? 0 [some 0, none] = some info ∧
      ∀ u ∈ [t.normalize, t.refreshNames, t.shift 1 (3 : Nat), t.subst 0 us],
        ∃ c, u = .fix 0 c ∧ c.closure? 0 [some 0, none] = some info := by
  intro t us info
  have hrange : ∀ o ∈ t.occurrences 0, o.1 ≤ maxIndex := by decide
  have hus : t.SubstitutesExactly 0 us := by decide
  have hclosure : callsFromOutside.closure? 0 [some 0, none] = some info := by decide
  have hsame : ∀ {u}, callsFromOutside.SameClosures 0 u →
      ∃ c, u = .fix 0 c ∧ c.closure? 0 [some 0, none] = some info := by
    rintro u ⟨c, rfl, hc⟩
    exact ⟨c, rfl, (hc _ _).trans hclosure⟩
  obtain ⟨hnormalize, hrefresh, hshift, hsubst⟩ := closure?_presentation callsFromOutside 0
  refine ⟨hrange, hus, hclosure, ?_⟩
  simp only [List.forall_mem_cons, List.not_mem_nil, false_imp_iff, implies_true, and_true]
  exact ⟨hsame hnormalize, hsame hrefresh, hsame (hshift hrange 1 3),
    hsame (hsubst 0 us hus)⟩

end InductiveTerms
