import InductiveTerms.Proofs.Walk

/-!
What it means for patterns to solve a bundle. Every use of a function that is walked through has to
be a call with all arguments whose slots are those of the function's pattern, no nested bundle may
use a function, and every function is reached from the seed by such calls. There is at most one
solution for a seed and its pattern (`Solution.unique`).
-/
namespace InductiveTerms
open Closure

namespace Bundle

/-- A variable in function `i` stands for function `g` and is applied to `found`, where the
parameters of function `i` are used as its pattern says. -/
inductive Uses (b : Bundle Term) (info : SpecInfo) : Place → Nat → Nat → List Meaning → Prop
  | body {place : Place} {i g : Nat} {f : FixFunction Term} {p : Pattern} {found : List Meaning} :
      b.function? i = some f → info[i]? = some p →
        Closure.Uses place f.body (startLocals b.size p) [] g found → Uses b info place i g found
  | param {place : Place} {i k g : Nat} {f : FixFunction Term} {q : Param Term} {p : Pattern}
      {found : List Meaning} :
      b.function? i = some f → info[i]? = some p → f.params[k]? = some q →
        Closure.Uses place q.type (startLocals b.size (p.take k)) [] g found →
          Uses b info .type i g found
  | result {place : Place} {i g : Nat} {f : FixFunction Term} {p : Pattern} {found : List Meaning} :
      b.function? i = some f → info[i]? = some p →
        Closure.Uses place f.result (startLocals b.size p) [] g found → Uses b info .type i g found

/-- A function applied to `found` gets all its arguments, and their slots are its pattern. -/
def Fits (b : Bundle Term) (info : SpecInfo) (g : Nat) (found : List Meaning) : Prop :=
  ∃ h, b.function? g = some h ∧ h.arity ≤ found.length ∧
    info[g]? = some ((found.take h.arity).map Meaning.slot?)

/-- The functions that calls lead to from the seed. -/
inductive Reached (b : Bundle Term) (info : SpecInfo) (seed : Nat) : Nat → Prop
  | seed : Reached b info seed seed
  | call {i g : Nat} {found : List Meaning} :
      Reached b info seed i → b.Uses info .walked i g found → Reached b info seed g

/-- Patterns for all functions that agree with each other and with the pattern of the seed. -/
structure Solution (b : Bundle Term) (seed : Nat) (p : Pattern) (info : SpecInfo) : Prop where
  arity_eq : ∃ f, b.function? seed = some f ∧ f.arity = p.length
  length_eq : info.length = b.size
  seed_eq : info[seed]? = some p
  fits : ∀ i g found, b.Uses info .walked i g found → b.Fits info g found
  not_nested : ∀ i g found, ¬ b.Uses info .nested i g found
  reached : ∀ i < b.size, b.Reached info seed i

section Solution
variable {b : Bundle Term} {seed : Nat} {p : Pattern} {info info' : SpecInfo}

theorem uses_body_iff {place : Place} (hplace : place ≠ .type) {i g : Nat} {found : List Meaning} :
    b.Uses info place i g found ↔ ∃ f p, b.function? i = some f ∧ info[i]? = some p ∧
      Closure.Uses place f.body (startLocals b.size p) [] g found := by
  constructor
  · intro h
    cases h with
    | body hf hp h => exact ⟨_, _, hf, hp, h⟩
    | param | result => exact absurd rfl hplace
  · rintro ⟨f, p, hf, hp, h⟩
    exact .body hf hp h

/-- Along the calls from the seed the patterns of two solutions agree. -/
theorem Solution.eq_of_reached (h : b.Solution seed p info) (h' : b.Solution seed p info') {i : Nat}
    (hi : b.Reached info seed i) : info[i]? = info'[i]? := by
  induction hi with
  | seed => rw [h.seed_eq, h'.seed_eq]
  | @call i g found _ huse ih =>
    obtain ⟨f, q, hf, hq, hbody⟩ := (uses_body_iff (by decide)).1 huse
    obtain ⟨k, hk, _, hpattern⟩ := h.fits i g found huse
    obtain ⟨k', hk', _, hpattern'⟩ := h'.fits i g found (.body hf (ih ▸ hq) hbody)
    rw [hk] at hk'
    obtain rfl := Option.some.inj hk'
    rw [hpattern, hpattern']

theorem Solution.unique (h : b.Solution seed p info) (h' : b.Solution seed p info') :
    info = info' := by
  refine List.ext_getElem? fun i => ?_
  rcases Nat.lt_or_ge i b.size with hi | hi
  · exact h.eq_of_reached h' (h.reached i hi)
  · rw [List.getElem?_eq_none (by rwa [h.length_eq]), List.getElem?_eq_none (by rwa [h'.length_eq])]

end Solution
end Bundle
end InductiveTerms
