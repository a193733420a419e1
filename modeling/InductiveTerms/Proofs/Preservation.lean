import InductiveTerms.Proofs.ClosureSolution
import InductiveTerms.Proofs.Grouping
import InductiveTerms.Proofs.Replacement
import InductiveTerms.Proofs.SpecializedBundle

/-!
Specialization preserves meaning. With the patterns of a closure, a new body in which the new
functions call the old ones back is convertible to the old body with constants for the parameters
that were dropped (`specialize_convertible`), provided that functions occur in places that are
walked through only and that no index leaves its range.
-/
namespace InductiveTerms
open Term Closure

namespace Specialization

/-- What the variables of an old body become when constants replace parameters. -/
def withConstants (constants : List Term) (n : Nat) (p : Pattern) (j : Nat) : Term :=
  if j < p.length then putParam constants n p (p.length - 1 - j)
  else .var "" (j - p.length + p.kept)

/-- What the variables of a new body with `m` parameters become when the new functions call the old
ones back. -/
def callingBack (constants : List Term) (b : Bundle Term) (info : SpecInfo) (m j : Nat) : Term :=
  if m ≤ j ∧ j < m + b.size then
    let g := b.size - 1 - (j - m)
    match b.function? g, info[g]? with
    | some f, some p => (callBack constants b.size g f.params p f.name).raise m
    | _, _ => .var "" j
  else .var "" j

theorem getElem?_startLocals_param {n j : Nat} {p : Pattern} (h : j < p.length) :
    (startLocals n p)[j]? = p[p.length - 1 - j]?.map Meaning.ofSlot := by
  rw [startLocals, List.getElem?_append_left (by simpa using h),
    List.getElem?_reverse (by simpa using h), List.getElem?_map, List.length_map]

theorem getElem?_startLocals_function {n j : Nat} {p : Pattern} (hle : p.length ≤ j)
    (hlt : j < p.length + n) :
    (startLocals n p)[j]? = some (.function (n - 1 - (j - p.length))) := by
  have hlen : (p.map Meaning.ofSlot).reverse.length = p.length := by simp
  rw [startLocals, List.getElem?_append_right (by rwa [hlen]), hlen, List.getElem?_map,
    List.getElem?_reverse (by simpa using by omega), List.length_range,
    List.getElem?_range (by omega), Option.map_some]

theorem getElem?_startLocals_outside {n j : Nat} {p : Pattern} (h : p.length + n ≤ j) :
    (startLocals n p)[j]? = none := by
  rw [List.getElem?_eq_none]
  simpa [startLocals] using h

section Binding
variable {constants : List Term} {b b' : Bundle Term} {info : SpecInfo} {p : Pattern} {j m : Nat}

theorem callingBack_outside (h : ¬ (m ≤ j ∧ j < m + b'.size)) :
    callingBack constants b' info m j = .var "" j := if_neg h

variable (constants m) in
theorem callingBack_function {g : Nat} {f : FixFunction Term} (hg : g < b'.size)
    (hf : b'.function? g = some f) (hp : info[g]? = some p) :
    callingBack constants b' info m (b'.size - 1 - g + m) =
      (callBack constants b'.size g f.params p f.name).raise m := by
  have hindex : b'.size - 1 - (b'.size - 1 - g + m - m) = g := by omega
  rw [callingBack, if_pos ⟨by omega, by omega⟩]
  simp only [hindex, hf, hp]

variable (constants b' info m) in
/-- What was raised past the functions does not notice that they call back. -/
theorem raise_bind_callingBack (t : Term) :
    (t.raise (b'.size + m)).bind (callingBack constants b' info m) = t.raise (b'.size + m) := by
  rw [raise_eq_bind, bind_bind]
  refine bind_congr_raise fun j => ?_
  rw [bind_var, callingBack_outside (by omega), raise_raise]

end Binding

theorem interchangeable_replacement {b : Bundle Term} {info : SpecInfo} {constants : List Term}
    {g m : Nat} {h : FixFunction Term} {p : Pattern} {ps : List (Param Term)} {name name' : String}
    {σ : Nat → Term} (hh : b.function? g = some h) (hp : info[g]? = some p)
    (harity : h.arity = p.length) (hps : ps.length = p.kept)
    (hσ : σ (b.size - 1 - g + m) = (callBack constants b.size g ps p name').raise m) :
    Interchangeable b info constants (b.size + m) g
      (((replacement b.size g h p name).raise m).bind σ) (.var "" (b.size - 1 - g + m)) := by
  intro e found us vs hfits hargs
  obtain ⟨h', hh', hlen, hfound⟩ := hfits
  rw [hh] at hh'
  obtain rfl := Option.some.inj hh'
  have hpattern : p = (found.take h.arity).map Meaning.slot? :=
    Option.some.inj (hp.symm.trans hfound)
  have hg : g < b.size := (List.getElem?_eq_some_iff.1 hh).1
  have hbind : (((replacement b.size g h p name).raise m).bind σ).raise e =
      (replacement b.size g h p name).bind fun j => (σ (j + m)).raise e := by
    rw [raise_eq_bind _ m, bind_bind, raise_eq_bind _ e, bind_bind]
    refine bind_congr_raise fun j => ?_
    simp only [bind_var, ← raise_eq_bind, raise_raise, Nat.zero_add, Nat.add_zero]
  have hcalled : (σ (b.size - 1 - g + m)).raise e =
      (callBack constants b.size g ps p name').raise (m + e) := by rw [hσ, raise_raise]
  rw [hbind, raise_var, Nat.add_assoc]
  refine (replacement_applyTo hg harity hps (hargs.length_eq ▸ hlen) hcalled).trans
    (.applyTo (.refl _) ?_)
  rw [hpattern, ← Nat.add_assoc]
  exact hargs.putConstants h.arity

section Agree
variable {steps : Nat} {b b' : Bundle Term} {info : SpecInfo} {constants : List Term}
  {namer : Nat → String}

theorem alike_putParam (hsize : b'.size = b.size) {p : Pattern} {k : Nat} (hk : k < p.length) :
    Alike constants (b.size + p.kept) (Meaning.ofSlot p[k])
      ((putParam constants b.size p k).bind (callingBack constants b' info p.kept))
      (putParam constants b.size p k) := by
  have hslot := List.getElem?_eq_getElem hk
  unfold putParam
  cases hcase : p[k] with
  | none =>
    rw [hcase] at hslot
    have hlt := kept_drop_lt hslot
    simp only [hslot]
    rw [bind_var, callingBack_outside (by omega)]
    exact .of_convertible (.refl _)
  | some slot =>
    rw [hcase] at hslot
    have hraise := raise_bind_callingBack constants b' info p.kept (constantAt constants slot)
    rw [hsize] at hraise
    simp only [hslot, hraise]
    refine ⟨.refl _, fun slot' hslot' => ?_⟩
    obtain rfl := Meaning.constant.inj hslot'
    exact .refl _

/-- What stands for a variable of the old body in the new one, where new functions call the old ones
back, agrees with what stands for it in the old body with constants. -/
theorem agree_callingBack (h : b.specialize steps info constants namer = .ok b') (p : Pattern) :
    Agree b info constants p.length (b.size + p.kept) (startLocals b.size p)
      (fun j => ((b.plan steps info constants namer p).binding j).bind
        (callingBack constants b' info p.kept))
      (withConstants constants b.size p) := by
  obtain ⟨hlength, hsize⟩ := Bundle.specialize_size h
  have hkept : p.kept ≤ p.length := List.countP_le_length
  constructor
  · intro r hr
    rcases Nat.lt_or_ge r p.length with hparam | hparam
    · have hbinding : (b.plan steps info constants namer p).binding r =
          putParam constants b.size p (p.length - 1 - r) := Plan.binding_param hparam
      have hwith : withConstants constants b.size p r =
          putParam constants b.size p (p.length - 1 - r) := if_pos hparam
      rw [getElem?_startLocals_param hparam, hbinding, hwith]
      have hposition : p.length - 1 - r < p.length := by omega
      rw [List.getElem?_eq_getElem hposition, Option.map_some, Option.getD_some]
      exact alike_putParam hsize hposition
    · have hbinding : (b.plan steps info constants namer p).binding r =
          .var "" (r - (p.length - p.kept)) := by
        refine Plan.binding_outside ?_
        show p.length + b.size ≤ r
        omega
      rw [getElem?_startLocals_outside (by omega), Option.getD_none, hbinding, withConstants,
        if_neg (by omega), bind_var, callingBack_outside (by omega)]
      have hindex : r - (p.length - p.kept) = r - p.length + p.kept := by omega
      rw [hindex]
      exact .of_convertible (.refl _)
  · intro r hlo hhi
    obtain ⟨g, hg, rfl⟩ : ∃ g < b.size, r = b.size - 1 - g + p.length :=
      ⟨b.size - 1 - (r - p.length), by omega, by omega⟩
    obtain ⟨f, hf⟩ : ∃ f, b.function? g = some f := ⟨_, List.getElem?_eq_getElem hg⟩
    obtain ⟨q, hq⟩ : ∃ q, info[g]? = some q := ⟨_, List.getElem?_eq_getElem (hlength ▸ hg)⟩
    obtain ⟨f', hf', harity, hparams, _⟩ := Bundle.specialize_function? h hf hq
    have hindex : b.size - 1 - (b.size - 1 - g + p.length - p.length) = g := by omega
    have hbinding : (b.plan steps info constants namer p).binding (b.size - 1 - g + p.length) =
        (replacement b.size g f q (namer g)).raise p.kept := by
      refine Plan.binding_function hlo hhi ?_
      have hreplacement := replacements_getElem? b.size namer 0 b.functions hf hq
      rw [Nat.zero_add] at hreplacement
      exact (congrArg _ hindex).trans hreplacement
    refine ⟨g, by rw [getElem?_startLocals_function hlo hhi, hindex], ?_⟩
    rw [hbinding, withConstants, if_neg (by omega), Nat.add_sub_cancel]
    have hcall := callingBack_function constants p.kept (hsize ▸ hg) hf' hq
    rw [hsize] at hcall
    exact interchangeable_replacement hf hq harity hparams hcall

end Agree
end Specialization

/-- Specialization preserves meaning: a new body in which the new functions call the old ones back
is convertible to the old body with constants. -/
theorem Bundle.specialize_convertible {steps seed i : Nat} {b b' : Bundle Term} {p q : Pattern}
    {info : SpecInfo} {constants : List Term} {namer : Nat → String} {f : FixFunction Term}
    (hclosure : b.closure? seed p = some info)
    (hspecialize : b.specialize steps info constants namer = .ok b')
    (hf : b.function? i = some f) (hq : info[i]? = some q)
    (htypes : f.body.TypesAvoid b.size f.arity)
    (hexact : (b.plan steps info constants namer q).Exact f.body 0) :
    ∃ f', b'.function? i = some f' ∧ Convertible SpineContraction
      (f'.body.bind (Specialization.callingBack constants b' info q.kept))
      (f.body.bind (Specialization.withConstants constants b.size q)) := by
  obtain ⟨f', hf', harity, _, hrewrite⟩ := specialize_function? hspecialize hf hq
  refine ⟨f', hf', ?_⟩
  obtain ⟨r, hr, hbody⟩ := Specialization.Plan.visit_of_rewrite hrewrite
  have hrewritten := (Specialization.Plan.rewrite_convertible hexact hr).mono
    fun t u => SpineContraction.contraction
  have hsol := closure?_eq_some_iff.1 hclosure
  have hcall : Specialization.Callable b info f.body q.length (startLocals b.size q) [] :=
    ⟨harity ▸ htypes, fun g args huse => hsol.fits i g args (.body hf hq huse),
      fun g args huse => hsol.not_nested i g args (.body hf hq huse)⟩
  have hagree := Specialization.agree_callingBack hspecialize q
  rw [hbody]
  refine (hrewritten.bind _).trans ?_
  rw [← Term.bind, bind_bind]
  exact Specialization.bind_applyTo_convertible f.body hagree .nil hcall

namespace Bundle

/-- The plan for both functions of `passingOn`, with the constant `O` for their first parameters. -/
def passingOnPlan : Specialization.Plan :=
  passingOn.plan 1 [[some 0, none], [some 0, none]] [.global "O"] (fun _ => "h") [some 0, none]

theorem passingOnPlan_exact : passingOnPlan.Exact (.caseOf (.global "nat") (.var "n" 0)
    [⟨"S", 1, .applyTo (.applyTo (.var "f" 4) [.var "c" 2]) [.var "m" 0]⟩]) 0 := by
  have hf : passingOnPlan.Exact (.var "f" 4) 1 := .var (by decide)
  have hc : passingOnPlan.Exact (.var "c" 2) 1 := .var (by decide)
  have hm : passingOnPlan.Exact (.var "m" 0) 1 := .var (by decide)
  have hcall : passingOnPlan.Exact (.applyTo (.var "f" 4) [.var "c" 2]) 1 :=
    .node (by simpa [children] using ⟨hf, hc⟩) (And.intro (by decide) trivial)
  have hbody : passingOnPlan.Exact (.applyTo (.applyTo (.var "f" 4) [.var "c" 2]) [.var "m" 0]) 1 :=
    .node (by simpa [children] using ⟨hcall, hm⟩) (And.intro (by decide) trivial)
  have hn : passingOnPlan.Exact (.var "n" 0) 0 := .var (by decide)
  have hnat : passingOnPlan.Exact (.global "nat") 1 := .leaf rfl trivial
  exact .node (by simpa [children] using ⟨hnat, hn, hbody⟩) trivial

/-- In `passingOn` the second function calls the first one argument at a time, from a match. -/
theorem specialize_convertible_passingOn :
    ∃ b' f f', passingOn.closure? 0 [some 0, none] = some [[some 0, none], [some 0, none]] ∧
      passingOn.specialize 1 [[some 0, none], [some 0, none]] [.global "O"] (fun _ => "h") =
        .ok b' ∧
      passingOn.function? 1 = some f ∧ f.body.TypesAvoid 2 2 ∧ passingOnPlan.Exact f.body 0 ∧
      b'.function? 1 = some f' ∧ Convertible SpineContraction
        (f'.body.bind (Specialization.callingBack [.global "O"] b'
          [[some 0, none], [some 0, none]] 1))
        (f.body.bind (Specialization.withConstants [.global "O"] 2 [some 0, none])) := by
  have hclosure : passingOn.closure? 0 [some 0, none] = some [[some 0, none], [some 0, none]] := by
    decide
  have hspecialize : passingOn.specialize 1 [[some 0, none], [some 0, none]] [.global "O"]
      (fun _ => "h") = .ok _ := rfl
  have htypes : (Term.caseOf (.global "nat") (.var "n" 0)
      [⟨"S", 1, .applyTo (.applyTo (.var "f" 4) [.var "c" 2]) [.var "m" 0]⟩]).TypesAvoid 2 2 :=
    .caseOf (by decide) .var
      (by simpa using .apply (.apply .var (by simpa using .var)) (by simpa using .var))
  obtain ⟨f', hf', h⟩ := specialize_convertible hclosure hspecialize (i := 1) rfl rfl htypes
    passingOnPlan_exact
  exact ⟨_, _, f', hclosure, hspecialize, rfl, htypes, passingOnPlan_exact, hf', h⟩

/-- `loop x := loop x x`, a call with one argument more than the function has parameters. -/
def overapplied : Bundle Term :=
  ⟨none, [⟨"loop", [⟨some "x", .global "nat"⟩], .global "nat",
    .applyTo (.var "loop" 1) [.var "x" 0, .var "x" 0]⟩]⟩

def overappliedPlan : Specialization.Plan :=
  overapplied.plan 1 [[none]] [] (fun _ => "loop") [none]

theorem overappliedPlan_exact :
    overappliedPlan.Exact (.applyTo (.var "loop" 1) [.var "x" 0, .var "x" 0]) 0 := by
  have hloop : overappliedPlan.Exact (.var "loop" 1) 0 := .var (by decide)
  have hx : overappliedPlan.Exact (.var "x" 0) 0 := .var (by decide)
  exact .node (by simpa [children] using ⟨hloop, hx⟩) (And.intro (by decide) trivial)

/-- Contractions alone do not take a call with too many arguments, which specialization splits in
two, back to what it was. -/
theorem overapplied_not_convertible :
    ∃ b' f f', overapplied.closure? 0 [none] = some [[none]] ∧
      overapplied.specialize 1 [[none]] [] (fun _ => "loop") = .ok b' ∧
      overapplied.function? 0 = some f ∧ f.body.TypesAvoid 1 1 ∧ overappliedPlan.Exact f.body 0 ∧
      b'.function? 0 = some f' ∧ ¬ Convertible Contraction
        (f'.body.bind (Specialization.callingBack [] b' [[none]] 1))
        (f.body.bind (Specialization.withConstants [] 1 [none])) := by
  refine ⟨_, _, _, by decide, rfl, rfl, .apply .var (by simpa using .var), overappliedPlan_exact,
    rfl, fun h => ?_⟩
  have hcallBack : Convertible Contraction
      (.applyTo (.lambda [⟨some "x", .global "nat"⟩] (.applyTo (.var "" 2) [.var "" 0]))
        [.var "" 0])
      (.applyTo (.var "" 1) [.var "" 0]) := .rule .beta
  have hcalls := Convertible.applyTo hcallBack.symm (.cons (.refl (.var "" 0)) .nil)
  exact Grouping.not_convertible_regrouped "" 1 _ _ (hcalls.trans h)

end Bundle
end InductiveTerms
