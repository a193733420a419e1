import InductiveTerms.Proofs.ClosureSolution

/-!
What the patterns of a closure look like. Each has one entry for every parameter of its function
(`Solution.length_eq_arity`), and all slots come from the pattern of the seed (`Solution.slots`):
calls pass constants on, but none is made on the way.
-/
namespace InductiveTerms
open Closure

namespace Closure
variable {slot : Nat} {locals args : List Meaning}

theorem mem_of_meaning (t : Term) (h : meaning t locals = .constant slot) :
    Meaning.constant slot ∈ locals := by
  obtain ⟨r, _, hlocal⟩ := refers_of_meaning (m := .constant slot) nofun t h
  exact List.mem_of_getElem? hlocal

theorem mem_unknowns {n : Nat} (h : Meaning.constant slot ∈ unknowns n locals) :
    Meaning.constant slot ∈ locals := by
  rcases List.mem_append.1 h with h | h
  · have hunknown := List.eq_of_mem_replicate h
    cases hunknown
  · exact h

/-- Below a node no variable and no argument stands for a constant that none stood for before. -/
theorem constant_of_mem_positions {t : Term} {pos : Position} (hpos : pos ∈ positions t locals args)
    (h : Meaning.constant slot ∈ pos.args ∨ Meaning.constant slot ∈ pos.locals) :
    Meaning.constant slot ∈ args ∨ Meaning.constant slot ∈ locals := by
  have haside : ∀ {place c}, pos = aside place locals c →
      Meaning.constant slot ∈ args ∨ Meaning.constant slot ∈ locals := by
    rintro place c rfl
    rcases h with h | h
    · cases h
    · exact .inr (mem_unknowns h)
  cases t with
  | var x i | global x | univ u => cases hpos
  | product ps r | fix i b =>
    obtain ⟨c, _, rfl⟩ := List.mem_map.1 hpos
    exact haside rfl
  | lambda ps b =>
    rcases List.mem_cons.1 hpos with rfl | hpos
    · exact haside rfl
    · obtain ⟨c, _, rfl⟩ := List.mem_map.1 hpos
      exact haside rfl
  | letIn x v ty b =>
    simp only [positions, List.mem_cons, List.not_mem_nil, or_false] at hpos
    rcases hpos with rfl | rfl | rfl
    · exact haside rfl
    · exact haside rfl
    · rcases h with h | h
      · exact .inl h
      · rcases List.mem_cons.1 h with hv | hmem
        · exact .inr (mem_of_meaning v hv.symm)
        · exact .inr hmem
  | apply f as =>
    simp only [positions, List.mem_cons, List.mem_map] at hpos
    rcases hpos with rfl | ⟨a, _, rfl⟩
    · rcases h with h | h
      · rcases List.mem_append.1 h with h | h
        · obtain ⟨a, _, ha⟩ := List.mem_map.1 h
          exact .inr (mem_of_meaning a ha)
        · exact .inl h
      · exact .inr h
    · exact haside rfl
  | cast u k ty =>
    simp only [positions, List.mem_cons, List.not_mem_nil, or_false] at hpos
    rcases hpos with rfl | rfl
    · exact h
    · exact haside rfl
  | caseOf p s bs =>
    simp only [positions, List.mem_cons, List.mem_map] at hpos
    rcases hpos with rfl | rfl | ⟨c, _, rfl⟩
    · exact haside rfl
    · exact haside rfl
    · rcases h with h | h
      · exact .inl h
      · exact .inr (mem_unknowns h)

theorem Uses.constant {place : Place} {t : Term} {found : List Meaning} {g : Nat}
    (h : Uses place t locals args g found) (hslot : Meaning.constant slot ∈ found) :
    Meaning.constant slot ∈ args ∨ Meaning.constant slot ∈ locals := by
  induction h with
  | here _ => exact .inl hslot
  | inside hpos _ ih => exact constant_of_mem_positions hpos (ih hslot)

theorem slot_of_mem_startLocals {n : Nat} {p : Pattern}
    (h : Meaning.constant slot ∈ startLocals n p) : some slot ∈ p := by
  rcases List.mem_append.1 h with h | h
  · obtain ⟨s, hs, hmeaning⟩ := List.mem_map.1 (List.mem_reverse.1 h)
    cases s with
    | none => cases hmeaning
    | some slot' =>
      obtain rfl := Meaning.constant.inj hmeaning
      exact hs
  · obtain ⟨g, _, hmeaning⟩ := List.mem_map.1 h
    cases hmeaning

end Closure

namespace Bundle
variable {b : Bundle Term} {seed i : Nat} {p q : Pattern} {info : SpecInfo} {f : FixFunction Term}

/-- Every function is the seed or called with as many arguments as it has parameters. -/
theorem Solution.length_eq_arity (h : b.Solution seed p info) (hf : b.function? i = some f)
    (hq : info[i]? = some q) : f.arity = q.length := by
  cases h.reached i (lt_of_function? hf) with
  | seed =>
    obtain ⟨f', hf', harity⟩ := h.arity_eq
    obtain rfl := Option.some.inj (hf.symm.trans hf')
    obtain rfl := Option.some.inj (hq.symm.trans h.seed_eq)
    exact harity
  | call _ huse =>
    obtain ⟨f', hf', hlen, hpattern⟩ := h.fits _ _ _ huse
    obtain rfl := Option.some.inj (hf.symm.trans hf')
    obtain rfl := Option.some.inj (hq.symm.trans hpattern)
    rw [List.length_map, List.length_take, Nat.min_eq_left hlen]

theorem Solution.slots (h : b.Solution seed p info) {slot : Nat} (hq : info[i]? = some q)
    (hslot : some slot ∈ q) : some slot ∈ p := by
  have hi : i < b.size := h.length_eq ▸ (List.getElem?_eq_some_iff.1 hq).1
  have hreached := h.reached i hi
  clear hi
  induction hreached generalizing q with
  | seed =>
    obtain rfl := Option.some.inj (hq.symm.trans h.seed_eq)
    exact hslot
  | @call i g found _ huse ih =>
    obtain ⟨_, _, _, hpattern⟩ := h.fits _ _ _ huse
    obtain rfl := Option.some.inj (hq.symm.trans hpattern)
    obtain ⟨m, hm, hmeaning⟩ := List.mem_map.1 hslot
    obtain rfl := Meaning.slot?_eq_some_iff.1 hmeaning
    obtain ⟨f', q', _, hq', hbody⟩ := (uses_body_iff (by decide)).1 huse
    rcases hbody.constant (List.mem_of_mem_take hm) with hargs | hlocals
    · cases hargs
    · exact ih hq' (slot_of_mem_startLocals hlocals)

end Bundle
end InductiveTerms
