import InductiveTerms.Proofs.Lookups
import InductiveTerms.Proofs.Reducts
import InductiveTerms.Proofs.SpecializedBundle
import InductiveTerms.Proofs.Window

/-!
The parts of a specialized bundle as substitutions. A type, result or body stands under the
parameters around it and the functions of the bundle; `substituends` lists what takes the places of
these, and putting that into the part by `shift` and `subst` gives a term that contracts to the new
part (`specialize_reduces`).
-/
namespace InductiveTerms

namespace Specialization
open Term Traversal

/-- What takes the places of parameters, first to last: the variables that the kept ones are under
those after them, and the constants seen from under `m` more binders. -/
def parameterValues (constants : List Term) (m : Nat) : Pattern → List Term
  | [] => []
  | none :: p => .var "" (Pattern.kept p) :: parameterValues constants m p
  | some slot :: p => (constantAt constants slot).shift 0 m :: parameterValues constants m p

theorem length_parameterValues (constants : List Term) (m : Nat) (p : Pattern) :
    (parameterValues constants m p).length = p.length := by
  induction p with
  | nil => rfl
  | cons s p ih => cases s <;> simp [parameterValues, ih]

theorem getElem?_parameterValues_of_none {constants : List Term} {m k : Nat} {p : Pattern}
    (h : p[k]? = some none) :
    (parameterValues constants m p)[k]? = some (.var "" (Pattern.kept (p.drop (k + 1)))) := by
  induction p generalizing k with
  | nil => cases h
  | cons s p ih =>
    cases k with
    | zero =>
      obtain rfl := Option.some.inj h
      rfl
    | succ k => cases s <;> exact ih h

theorem getElem?_parameterValues_of_some {constants : List Term} {m k slot : Nat} {p : Pattern}
    (h : p[k]? = some (some slot)) :
    (parameterValues constants m p)[k]? = some ((constantAt constants slot).shift 0 m) := by
  induction p generalizing k with
  | nil => cases h
  | cons s p ih =>
    cases k with
    | zero =>
      obtain rfl := Option.some.inj h
      rfl
    | succ k => cases s <;> exact ih h

namespace Plan
variable (plan : Plan)

/-- What is put for the variables of a term that is rewritten: for the parameters around it, last to
first, and then for the functions of the bundle, last to first. -/
def substituends : List Term :=
  (parameterValues plan.constants (plan.bundleSize + plan.pattern.kept) plan.pattern).reverse ++
    (plan.replacements.map (·.shift 0 plan.pattern.kept)).reverse

/-- The term with the substituends put for its first variables and the variables after them moved
past the new bundle and the parameters that stay. -/
def substituted (t : Term) : Term :=
  (t.shift (plan.pattern.length + plan.bundleSize : Nat)
    (plan.bundleSize + plan.pattern.kept : Nat)).subst 0 plan.substituends

/-- No index leaves its range in this substitution. -/
structure SubstitutesExactly (t : Term) : Prop where
  constants : ∀ s ∈ plan.pattern, ∀ slot ∈ s,
    (constantAt plan.constants slot).RaisesExactly (plan.bundleSize + plan.pattern.kept)
  replacements : ∀ r ∈ plan.replacements, r.RaisesExactly plan.pattern.kept
  shift : t.ShiftsExactly (plan.pattern.length + plan.bundleSize)
    (plan.bundleSize + plan.pattern.kept)
  subst : (t.shift (plan.pattern.length + plan.bundleSize : Nat)
    (plan.bundleSize + plan.pattern.kept : Nat)).SubstitutesExactly 0 plan.substituends

variable {plan}

theorem length_substituends (hlen : plan.replacements.length = plan.bundleSize) :
    plan.substituends.length = plan.pattern.length + plan.bundleSize := by
  simp [substituends, length_parameterValues, hlen]

theorem getElem?_substituends_param {j : Nat} (hj : j < plan.pattern.length) :
    plan.substituends[j]? = (parameterValues plan.constants
      (plan.bundleSize + plan.pattern.kept) plan.pattern)[plan.pattern.length - 1 - j]? := by
  have hleft : j < (parameterValues plan.constants (plan.bundleSize + plan.pattern.kept)
      plan.pattern).length := by rwa [length_parameterValues]
  rw [substituends, List.getElem?_append_left (by rwa [List.length_reverse]),
    List.getElem?_reverse hleft, length_parameterValues]

theorem getElem?_substituends_function (hlen : plan.replacements.length = plan.bundleSize) {j : Nat}
    (hle : plan.pattern.length ≤ j) (hj : j < plan.pattern.length + plan.bundleSize) :
    ∃ r ∈ plan.replacements,
      plan.replacements[plan.bundleSize - 1 - (j - plan.pattern.length)]? = some r ∧
        plan.substituends[j]? = some (r.shift 0 plan.pattern.kept) := by
  have hfunction : plan.bundleSize - 1 - (j - plan.pattern.length) < plan.replacements.length := by
    omega
  refine ⟨_, List.getElem_mem hfunction, List.getElem?_eq_getElem hfunction, ?_⟩
  have hright : (parameterValues plan.constants (plan.bundleSize + plan.pattern.kept)
      plan.pattern).reverse.length ≤ j := by rwa [List.length_reverse, length_parameterValues]
  have hmoved : j - plan.pattern.length <
      (plan.replacements.map (·.shift 0 plan.pattern.kept)).length := by
    rw [List.length_map]
    omega
  rw [substituends, List.getElem?_append_right hright, List.length_reverse, length_parameterValues,
    List.getElem?_reverse hmoved, List.length_map, hlen, List.getElem?_map,
    List.getElem?_eq_getElem hfunction]
  rfl

theorem substituend_bare_eq (hlen : plan.replacements.length = plan.bundleSize)
    (hconstants : ∀ s ∈ plan.pattern, ∀ slot ∈ s,
      (constantAt plan.constants slot).RaisesExactly (plan.bundleSize + plan.pattern.kept))
    (hreplacements : ∀ r ∈ plan.replacements, r.RaisesExactly plan.pattern.kept) {j : Nat}
    (hj : j < plan.pattern.length + plan.bundleSize) :
    ∃ s, plan.substituends[j]? = some s ∧ s.bare = (plan.binding j).bare := by
  rcases Nat.lt_or_ge j plan.pattern.length with hparam | hparam
  · have hin : plan.pattern.length - 1 - j < plan.pattern.length := by omega
    rw [getElem?_substituends_param hparam, binding_param hparam, putParam]
    cases hs : plan.pattern[plan.pattern.length - 1 - j]? with
    | none => exact absurd (List.getElem?_eq_none_iff.1 hs) (by omega)
    | some s =>
      cases s with
      | none => exact ⟨_, getElem?_parameterValues_of_none hs, rfl⟩
      | some slot =>
        refine ⟨_, getElem?_parameterValues_of_some hs, ?_⟩
        rw [bare_shift_eq_raise (hconstants _ (List.mem_of_getElem? hs) slot rfl), bare_raise]
  · obtain ⟨r, hmem, hr, hs⟩ := getElem?_substituends_function hlen hparam hj
    refine ⟨_, hs, ?_⟩
    rw [binding_function hparam hj hr, bare_shift_eq_raise (hreplacements r hmem), bare_raise]

theorem bare_substituted (hlen : plan.replacements.length = plan.bundleSize) {t : Term}
    (h : plan.SubstitutesExactly t) : (plan.substituted t).bare = (t.bind plan.binding).bare := by
  rw [substituted, bare_subst_eq_window h.subst, bare_shift_eq_opening h.shift, bind_bind,
    bare_bind]
  refine bind_congr_raise fun j => ?_
  rcases Nat.lt_or_ge j (plan.pattern.length + plan.bundleSize) with hj | hj
  · obtain ⟨s, hs, hbare⟩ := substituend_bare_eq hlen h.constants h.replacements hj
    rw [opening_of_lt hj, bind_var, window, if_neg (Nat.not_lt_zero j), List.getElem?_map,
      Nat.sub_zero, hs, Option.map_some, Option.getD_some, hbare, raise_raise]
  · have hkept : plan.pattern.kept ≤ plan.pattern.length := List.countP_le_length
    have hlength : (plan.substituends.map bare).length = plan.pattern.length + plan.bundleSize := by
      rw [List.length_map, length_substituends hlen]
    have hindex : j + (plan.bundleSize + plan.pattern.kept) -
        (plan.pattern.length + plan.bundleSize) =
          j - (plan.pattern.length - plan.pattern.kept) := by omega
    rw [opening_of_le hj, bind_var, window_of_le (by omega), hlength, hindex, binding_outside hj,
      raise_raise, bare_var]

theorem raisesExactly_of_shift {t : Term} {n k : Nat} (h : t.RaisesExactly n)
    (hshift : (t.shift 0 n).RaisesExactly k) : t.RaisesExactly (k + n) := by
  intro o ho
  refine ⟨(h o ho).1, fun hle => ?_⟩
  have hmem : (o.1 + n, o.2) ∈ (t.shift 0 n).occurrences 0 := by
    rw [← occurrences_bare, bare_shift_eq_raise h, raise, occurrences_mapVars, List.mem_flatMap]
    refine ⟨o, by rwa [occurrences_bare], ?_⟩
    rw [raiseVar_of_le hle]
    exact List.mem_singleton.2 rfl
  have := (hshift _ hmem).2 (by omega)
  omega

/-- What is inserted for a variable is moved to where the substituend for it stands. -/
theorem substituend_of_inserted (hlen : plan.replacements.length = plan.bundleSize)
    (hconstants : ∀ s ∈ plan.pattern, ∀ slot ∈ s,
      (constantAt plan.constants slot).RaisesExactly (plan.bundleSize + plan.pattern.kept))
    (hreplacements : ∀ r ∈ plan.replacements, r.RaisesExactly plan.pattern.kept) {j : Nat}
    {c : Term × Nat} (hc : c ∈ plan.inserted? j) :
    j < plan.pattern.length + plan.bundleSize ∧ c.1.RaisesExactly c.2 ∧
      plan.substituends[j]? = some (c.1.shift 0 c.2) := by
  unfold inserted? at hc
  split at hc
  · next hparam =>
    split at hc
    · next slot hs =>
      obtain ⟨constant, hconstant, rfl⟩ := Option.map_eq_some_iff.1 hc
      have hat : constantAt plan.constants slot = constant := by
        rw [constantAt, hconstant, Option.getD_some]
      have hraises := hconstants _ (List.mem_of_getElem? hs) slot rfl
      rw [hat, Nat.add_comm] at hraises
      refine ⟨by omega, hraises, ?_⟩
      rw [getElem?_substituends_param hparam, getElem?_parameterValues_of_some hs, hat,
        Nat.add_comm plan.bundleSize]
    · cases hc
  · next hparam =>
    split at hc
    · next hfunction =>
      obtain ⟨r, hmem, hr, hs⟩ :=
        getElem?_substituends_function hlen (Nat.not_lt.1 hparam) hfunction
      rw [hr] at hc
      obtain rfl := Option.some.inj hc
      exact ⟨hfunction, hreplacements r hmem, hs⟩
    · cases hc

theorem SubstitutesExactly.replyExact (hlen : plan.replacements.length = plan.bundleSize) {t : Term}
    (h : plan.SubstitutesExactly t) :
    ∀ o ∈ t.occurrences 0, plan.ReplyExact (.var "" o.1) o.2 := by
  intro o ho hle c hc
  obtain ⟨hlt, hraises, hs⟩ := substituend_of_inserted hlen h.constants h.replacements hc
  have hmem : o ∈ (t.shift (plan.pattern.length + plan.bundleSize : Nat)
      (plan.bundleSize + plan.pattern.kept : Nat)).occurrences 0 := by
    rw [← occurrences_bare, bare_shift_eq_opening h.shift, Term.bind, occurrences_mapVars,
      List.mem_flatMap]
    refine ⟨o, by rwa [occurrences_bare], ?_⟩
    rw [bindVar_of_le hle, opening_of_lt hlt, raise_var, Nat.sub_add_cancel hle]
    exact List.mem_singleton.2 rfl
  have hpos : 0 < plan.substituends.length := by
    rw [length_substituends hlen]
    omega
  have hput := (h.subst hpos o hmem).2 (by omega) (c.1.shift 0 c.2) (by rw [Nat.zero_add, hs]; rfl)
  exact raisesExactly_of_shift hraises hput

theorem rewrite_reduces (hlen : plan.replacements.length = plan.bundleSize) {t u : Term}
    (h : plan.SubstitutesExactly t) (hu : plan.rewrite t = .ok u) :
    Reduces (plan.substituted t) u := by
  have hleft : Reduces (t.bind plan.binding) u :=
    visited_reduces t (h.replyExact hlen) (visit_of_rewrite hu)
  exact .trans (.same (bare_substituted hlen h)) hleft

end Plan
end Specialization

namespace Bundle
variable {b b' : Bundle Term} {info : SpecInfo}

/-- The parts of a bundle that specialization keeps, each with the pattern of the parameters around
it and what stands in its place in the new bundle. -/
inductive Counterpart (b b' : Bundle Term) (info : SpecInfo) : Pattern → Term → Term → Prop
  | param {i k : Nat} {f f' : FixFunction Term} {q : Pattern} {x x' : Param Term} :
      b.function? i = some f → b'.function? i = some f' → info[i]? = some q →
        f.params[k]? = some x → q[k]? = some none →
          f'.params[Pattern.kept (q.take k)]? = some x' →
            Counterpart b b' info (q.take k) x.type x'.type
  | result {i : Nat} {f f' : FixFunction Term} {q : Pattern} :
      b.function? i = some f → b'.function? i = some f' → info[i]? = some q →
        Counterpart b b' info q f.result f'.result
  | body {i : Nat} {f f' : FixFunction Term} {q : Pattern} :
      b.function? i = some f → b'.function? i = some f' → info[i]? = some q →
        Counterpart b b' info q f.body f'.body

section Specialize
variable {steps : Nat} {constants : List Term} {namer : Nat → String} {q : Pattern} {t u : Term}

theorem length_replacements_plan (h : b.specialize steps info constants namer = .ok b') :
    (b.plan steps info constants namer q).replacements.length = b.size :=
  Specialization.replacements_length _ (specialize_size h).1.symm

theorem Part.exists_counterpart (h : b.specialize steps info constants namer = .ok b')
    (hpart : b.Part info q t) : ∃ u, Counterpart b b' info q t u := by
  cases hpart with
  | param hf hq hx hk =>
    obtain ⟨f', hf', hrewrite⟩ := specialize_rewrites h hf hq
    obtain ⟨_, hparams, _, _⟩ := Specialization.rewriteFunction_parts hrewrite
    obtain ⟨u, _, hu⟩ := Specialization.rewriteParams_getElem? _ hparams hx hk
    exact ⟨u, .param hf hf' hq hx hk hu⟩
  | result hf hq =>
    obtain ⟨f', hf', _⟩ := specialize_rewrites h hf hq
    exact ⟨f'.result, .result hf hf' hq⟩
  | body hf hq =>
    obtain ⟨f', hf', _⟩ := specialize_rewrites h hf hq
    exact ⟨f'.body, .body hf hf' hq⟩

theorem specialize_rewriteFunction (h : b.specialize steps info constants namer = .ok b') {i : Nat}
    {f f' : FixFunction Term} (hf : b.function? i = some f) (hf' : b'.function? i = some f')
    (hq : info[i]? = some q) : Specialization.rewriteFunction
      (b.plan steps info constants namer q) f (namer i) = .ok f' := by
  obtain ⟨g, hg, hrewrite⟩ := specialize_rewrites h hf hq
  obtain rfl := Option.some.inj (hf'.symm.trans hg)
  exact hrewrite

theorem Counterpart.rewrite_eq (h : b.specialize steps info constants namer = .ok b')
    (hpart : Counterpart b b' info q t u) :
    (b.plan steps info constants namer q).rewrite t = .ok u := by
  cases hpart with
  | param hf hf' hq hx hk hx' =>
    obtain ⟨_, hparams, _, _⟩ :=
      Specialization.rewriteFunction_parts (specialize_rewriteFunction h hf hf' hq)
    obtain ⟨v, hv, hmem⟩ := Specialization.rewriteParams_getElem? _ hparams hx hk
    obtain rfl := Option.some.inj (hx'.symm.trans hmem)
    exact hv
  | result hf hf' hq =>
    obtain ⟨_, _, hresult, _⟩ :=
      Specialization.rewriteFunction_parts (specialize_rewriteFunction h hf hf' hq)
    exact hresult
  | body hf hf' hq =>
    obtain ⟨_, _, _, hbody⟩ :=
      Specialization.rewriteFunction_parts (specialize_rewriteFunction h hf hf' hq)
    exact hbody

/-- Every part that is kept has something in its place, and contractions lead there from the part
with constants and renumbered variables for its parameters and replacements for the functions. -/
theorem specialize_reduces (h : b.specialize steps info constants namer = .ok b') :
    (∀ q t, b.Part info q t → ∃ u, Counterpart b b' info q t u) ∧
      ∀ q t u, Counterpart b b' info q t u →
        (b.plan steps info constants namer q).SubstitutesExactly t →
          Reduces ((b.plan steps info constants namer q).substituted t) u :=
  ⟨fun _ _ hpart => hpart.exists_counterpart h, fun _ _ _ hpart hexact =>
    Specialization.Plan.rewrite_reduces (length_replacements_plan h) hexact (hpart.rewrite_eq h)⟩

end Specialize

/-- `f A x v := f A x (tail v)`, for a vector `v` over `A` that is as long as `x`. -/
def overVectors : Bundle Term :=
  ⟨none, [⟨"f", [⟨some "A", .univ .type⟩, ⟨some "x", .global "nat"⟩,
    ⟨some "v", .applyTo (.global "vec") [.var "A" 1, .var "x" 0]⟩],
    .applyTo (.global "vec") [.var "A" 2, .var "x" 1],
    .applyTo (.var "f" 3) [.var "A" 2, .var "x" 1, .applyTo (.global "tail") [.var "v" 0]]⟩]⟩

/-- `overVectors` at `Z`: `g x v := g x (tail v)`. -/
def overVectorsAt : Bundle Term :=
  ⟨none, [⟨"g", [⟨some "x", .global "nat"⟩,
    ⟨some "v", .applyTo (.global "vec") [.var "Z" 2, .var "x" 0]⟩],
    .applyTo (.global "vec") [.var "Z" 3, .var "x" 1],
    .applyTo (.var "g" 2) [.var "x" 1, .applyTo (.global "tail") [.var "v" 0]]⟩]⟩

theorem specialize_reduces_overVectors :
    let plan := overVectors.plan 1 [[some 0, none, none]] [.var "Z" 0] fun _ => "g"
    let type : Term := .applyTo (.global "vec") [.var "A" 1, .var "x" 0]
    let body : Term := .applyTo (.var "f" 3)
      [.var "A" 2, .var "x" 1, .applyTo (.global "tail") [.var "v" 0]]
    overVectors.specialize 1 [[some 0, none, none]] [.var "Z" 0] (fun _ => "g") =
        .ok overVectorsAt ∧
      (plan [some 0, none]).SubstitutesExactly type ∧
      Reduces ((plan [some 0, none]).substituted type)
        (.applyTo (.global "vec") [.var "Z" 2, .var "x" 0]) ∧
      (plan [some 0, none, none]).SubstitutesExactly body ∧
      Reduces ((plan [some 0, none, none]).substituted body)
        (.applyTo (.var "g" 2) [.var "x" 1, .applyTo (.global "tail") [.var "v" 0]]) := by
  intro plan type body
  have h : overVectors.specialize 1 [[some 0, none, none]] [.var "Z" 0] (fun _ => "g") =
      .ok overVectorsAt := rfl
  have hf : overVectors.function? 0 = some _ := rfl
  have hf' : overVectorsAt.function? 0 = some _ := rfl
  have hq : [[some 0, none, none]][0]? = some [some 0, none, none] := rfl
  have htype : (plan [some 0, none]).SubstitutesExactly type :=
    ⟨by decide, by decide, by decide, by decide⟩
  have hbody : (plan [some 0, none, none]).SubstitutesExactly body :=
    ⟨by decide, by decide, by decide, by decide⟩
  have hreduces := (specialize_reduces h).2
  exact ⟨h, htype, hreduces _ _ _ (.param (k := 2) hf hf' hq rfl rfl rfl) htype, hbody,
    hreduces _ _ _ (.body hf hf' hq) hbody⟩

end Bundle
end InductiveTerms
