import InductiveTerms.Proofs.ClosureSolution
import InductiveTerms.Specialization.Rewrite

/-!
Which calls a closure covers. A call is covered when it has all arguments and each that is dropped
is the parameter that the same constant replaces. A closure covers the uses in the places that are
walked through, and there are none in nested bundles; whether it covers all is decided in types
(`closure?_covers_iff`), which are rewritten but not walked through.
-/
namespace InductiveTerms
open Closure

namespace Bundle

/-- A function is applied to all its arguments, and to the constant of each slot in its pattern. -/
def Covered (b : Bundle Term) (info : SpecInfo) (g : Nat) (found : List Meaning) : Prop :=
  ∃ (h : FixFunction Term) (q : Pattern), b.function? g = some h ∧ info[g]? = some q ∧
    h.arity ≤ found.length ∧
      ∀ k slot : Nat, q[k]? = some (some slot) → found[k]? = some (Meaning.constant slot)

theorem Fits.covered {b : Bundle Term} {info : SpecInfo} {g : Nat} {found : List Meaning}
    (h : b.Fits info g found) : b.Covered info g found := by
  obtain ⟨f, hf, hle, hq⟩ := h
  refine ⟨f, _, hf, hq, hle, fun k slot hk => ?_⟩
  rw [List.getElem?_map, Option.map_eq_some_iff] at hk
  obtain ⟨m, hm, hslot⟩ := hk
  rw [List.getElem?_take] at hm
  split at hm
  · rw [hm, Meaning.slot?_eq_some_iff.1 hslot]
  · cases hm

/-- A closure covers every use just when it covers those in types. -/
theorem closure?_covers_iff {b : Bundle Term} {seed : Nat} {p : Pattern} {info : SpecInfo}
    (h : b.closure? seed p = some info) :
    (∀ i g found, b.Uses info .walked i g found → b.Covered info g found) ∧
      (∀ i g found, ¬ b.Uses info .nested i g found) ∧
      ((∀ place i g found, b.Uses info place i g found → b.Covered info g found) ↔
        ∀ i g found, b.Uses info .type i g found → b.Covered info g found) := by
  have hsol := closure?_eq_some_iff.1 h
  have hwalked : ∀ i g found, b.Uses info .walked i g found → b.Covered info g found :=
    fun i g found huse => (hsol.fits i g found huse).covered
  refine ⟨hwalked, hsol.not_nested, fun hall => hall .type, fun htype place i g found huse => ?_⟩
  cases place with
  | walked => exact hwalked i g found huse
  | type => exact htype i g found huse
  | nested => exact absurd huse (hsol.not_nested i g found)

theorem closure?_covers_passingOn :
    passingOn.closure? 0 [some 0, none] = some [[some 0, none], [some 0, none]] ∧
      ∀ i g found, passingOn.Uses [[some 0, none], [some 0, none]] .walked i g found →
        passingOn.Covered [[some 0, none], [some 0, none]] g found := by
  have h : passingOn.closure? 0 [some 0, none] = some [[some 0, none], [some 0, none]] := by decide
  exact ⟨h, (closure?_covers_iff h).1⟩

/-- `f T := Set : f nat`, a call in the type of a cast. -/
def castCall : Bundle Term :=
  ⟨none, [⟨"f", [⟨some "T", .univ .type⟩], .univ .type,
    .cast (.univ .set) .default (.applyTo (.var "f" 1) [.global "nat"])⟩]⟩

theorem castCall_uses : castCall.Uses [[some 0]] .type 0 0 [.unknown] := by
  have hhead : (⟨.walked, .var "f" 1, [.constant 0, .function 0], [.unknown]⟩ : Position) ∈
      positions (.applyTo (.var "f" 1) [.global "nat"]) [.constant 0, .function 0] [] :=
    List.mem_cons_self
  have htype : aside .type [.constant 0, .function 0] (.applyTo (.var "f" 1) [.global "nat"], 0) ∈
      positions (.cast (.univ .set) .default (.applyTo (.var "f" 1) [.global "nat"]))
        [.constant 0, .function 0] [] :=
    List.mem_cons_of_mem _ List.mem_cons_self
  exact .body rfl rfl (.inside htype (.inside hhead (.here rfl)))

/-- A closure need not cover a call in a type, and then its argument is lost: `f nat` becomes `f`,
whatever the constant. -/
theorem castCall_not_covered :
    castCall.closure? 0 [some 0] = some [[some 0]] ∧
      ¬ (∀ place i g found, castCall.Uses [[some 0]] place i g found →
        castCall.Covered [[some 0]] g found) ∧
      ∀ c, castCall.specialize 1 [[some 0]] [c] (fun _ => "f") =
        .ok ⟨none, [⟨"f", [], .univ .type, .cast (.univ .set) .default (.var "f" 0)⟩]⟩ := by
  refine ⟨by decide, fun h => ?_, fun c => by rfl⟩
  obtain ⟨f, q, _, hq, _, hslots⟩ := h .type 0 0 _ castCall_uses
  obtain rfl := Option.some.inj hq
  exact absurd (hslots 0 0 rfl) (by decide)

end Bundle
end InductiveTerms
