import InductiveTerms.Proofs.ClosureSlots
import InductiveTerms.Proofs.SpecializedBundle

/-!
What rewriting looks up. A plan covers its pattern when there is a constant for each slot and a
replacement for each function; then every lookup is answered, no subtraction goes below zero, and
rewriting fails in one way only, by a reduction that takes too many steps. The patterns of a closure
describe the bundle (`describes_of_closure?`), so this is all that may happen to a specialization
with enough constants (`specialize_error_of_describes`).
-/
namespace InductiveTerms
open Term Traversal

namespace Specialization

/-- The difference of two numbers, if it is not below zero. -/
def sub? (i j : Nat) : Option Nat := if j ≤ i then some (i - j) else none

theorem sub?_eq {i j : Nat} (h : j ≤ i) : sub? i j = some (i - j) := if_pos h

/-- What a variable becomes, with every subtraction and every lookup guarded: `none` where one
would go below zero or past the end of a list. -/
def Plan.guardedVar (plan : Plan) (x : String) (i d : Nat) : Option (Option Term) :=
  let k := plan.pattern.length
  let kept := plan.pattern.kept
  let renumbered (j : Nat) : Option Term := if j = i then none else some (.var x j)
  match sub? i d with
  | none => some none
  | some j =>
      if j < k then do
        let position ← sub? (← sub? k 1) j
        match ← plan.pattern[position]? with
        | some slot => do
            let c ← plan.constants[slot]?
            return some (c.shift 0 (d + kept + plan.bundleSize : Nat))
        | none => return renumbered (d + Pattern.kept (plan.pattern.drop (position + 1)))
      else do
        let past ← sub? j k
        if j < k + plan.bundleSize then do
          let g ← sub? (← sub? plan.bundleSize 1) past
          let r ← plan.replacements[g]?
          return some (r.shift 0 (d + kept : Nat))
        else do
          let dropped ← sub? k kept
          return renumbered (← sub? i dropped)

/-- Whether a plan has every constant and every replacement that rewriting may ask for. -/
structure Plan.Covers (plan : Plan) : Prop where
  slots {slot : Nat} : some slot ∈ plan.pattern → slot < plan.constants.length
  length_replacements : plan.replacements.length = plan.bundleSize

namespace Plan.Covers
variable {plan : Plan}

theorem of_initial (h : plan.Covers) {p : Pattern} (hp : p <+: plan.pattern) :
    { plan with pattern := p }.Covers :=
  ⟨fun hslot => h.slots (hp.mem hslot), h.length_replacements⟩

/-- Every lookup is answered and no subtraction goes below zero. -/
theorem replaceVar_guarded (h : plan.Covers) (x : String) (i d : Nat) :
    ∃ o, plan.replaceVar x i d = .ok o ∧ plan.guardedVar x i d = some o := by
  unfold Plan.replaceVar Plan.guardedVar
  have hkept : plan.pattern.kept ≤ plan.pattern.length := List.countP_le_length
  rcases Nat.lt_or_ge i d with hlt | hle
  · simp [hlt, sub?, Nat.not_le.2 hlt]
  rcases Nat.lt_or_ge (i - d) plan.pattern.length with hparam | hparam
  · have hlast : 1 ≤ plan.pattern.length := by omega
    have hposition : i - d ≤ plan.pattern.length - 1 := by omega
    have hin : plan.pattern.length - 1 - (i - d) < plan.pattern.length := by omega
    have hslot := List.getElem?_eq_getElem hin
    simp only [sub?_eq hle, Nat.not_lt.2 hle, hparam, sub?_eq hlast, sub?_eq hposition, hslot,
      if_true, if_false, Option.bind_eq_bind, Option.bind_some]
    cases hcase : plan.pattern[plan.pattern.length - 1 - (i - d)] with
    | none => exact ⟨_, rfl, rfl⟩
    | some slot =>
      have hconstant := h.slots (hcase ▸ List.getElem_mem hin)
      simp only [List.getElem?_eq_getElem hconstant]
      exact ⟨_, rfl, rfl⟩
  rcases Nat.lt_or_ge (i - d) (plan.pattern.length + plan.bundleSize) with hfun | hfun
  · have hlast : 1 ≤ plan.bundleSize := by omega
    have hposition : i - d - plan.pattern.length ≤ plan.bundleSize - 1 := by omega
    have hin : plan.bundleSize - 1 - (i - d - plan.pattern.length) < plan.replacements.length := by
      have := h.length_replacements
      omega
    simp only [sub?_eq hle, Nat.not_lt.2 hle, Nat.not_lt.2 hparam, hfun, sub?_eq hparam,
      sub?_eq hlast, sub?_eq hposition, List.getElem?_eq_getElem hin, if_true, if_false,
      Option.bind_eq_bind, Option.bind_some]
    exact ⟨_, rfl, rfl⟩
  · have hdropped : plan.pattern.length - plan.pattern.kept ≤ i := by omega
    simp only [sub?_eq hle, Nat.not_lt.2 hle, Nat.not_lt.2 hparam, Nat.not_lt.2 hfun,
      sub?_eq hparam, sub?_eq hkept, sub?_eq hdropped, if_false, Option.bind_eq_bind,
      Option.bind_some]
    exact ⟨_, rfl, rfl⟩

theorem visit_error_cases (h : plan.Covers) {t : Term} {d : Nat} {e : SpecializeError}
    (he : visit plan.visitor unshared t d = .error e) :
    (∃ c ∈ t.children d, visit plan.visitor unshared c.1 c.2 = .error e) ∨
      ∃ u, Rebuilt (Visited plan.visitor) t d u ∧ u.reduceHead plan.steps = none ∧
        e = .outOfSteps := by
  rcases @Traversal.visit_error _ plan.visitor.reply _ _ _ he with hchild | ⟨u, hu, he⟩
  · exact .inl hchild
  refine .inr ⟨u, hu, ?_⟩
  rcases u.eq_var_or_asVar?_eq_none with ⟨x, i, rfl⟩ | hvar
  · obtain ⟨o, ho, _⟩ := h.replaceVar_guarded x i d
    have hreply : plan.visitor.reply (.var x i) d = plan.replaceVar x i d := rfl
    rw [hreply, ho] at he
    cases he
  · have hreply := plan.reply_node hvar d
    rw [he] at hreply
    cases hreduce : u.reduceHead plan.steps with
    | none =>
      simp only [hreduce, Except.map] at hreply
      exact ⟨rfl, Except.error.inj hreply⟩
    | some w => simp [hreduce, Except.map] at hreply

theorem visit_error (h : plan.Covers) (t : Term) : ∀ {d e},
    visit plan.visitor unshared t d = .error e → e = .outOfSteps := by
  induction t using induct_children with
  | node t ih =>
    intro d e he
    rcases h.visit_error_cases he with ⟨c, hc, he⟩ | ⟨_, _, _, rfl⟩
    · exact ih d c hc he
    · rfl

theorem rewrite_error (h : plan.Covers) {t : Term} {e : SpecializeError}
    (he : plan.rewrite t = .error e) : e = .outOfSteps := by
  rcases bind_eq_error_iff.1 he with he | ⟨r, _, he⟩
  · exact h.visit_error t he
  · cases he

end Plan.Covers

theorem replacements_length {n : Nat} {namer : Nat → String} (fs : List (FixFunction Term)) :
    ∀ {g info}, fs.length = info.length → (replacements n namer g fs info).length = fs.length := by
  induction fs with
  | nil => exact fun _ => rfl
  | cons f fs ih =>
    intro g info hlen
    cases info with
    | nil => simp at hlen
    | cons p info => rw [replacements, List.length_cons, List.length_cons, ih (by simpa using hlen)]

end Specialization

namespace Bundle
variable {steps seed : Nat} {b : Bundle Term} {p q : Pattern} {info : SpecInfo}
  {constants : List Term} {namer : Nat → String}

/-- Whether there is one pattern for every function, with an entry for each of its parameters, and
no slots other than those of `p`. -/
structure Describes (p : Pattern) (info : SpecInfo) (b : Bundle Term) : Prop where
  length_eq : info.length = b.size
  arity_eq {i : Nat} {f : FixFunction Term} {q : Pattern} :
    b.function? i = some f → info[i]? = some q → f.arity = q.length
  slots {q : Pattern} {slot : Nat} : q ∈ info → some slot ∈ q → some slot ∈ p

theorem describes_of_closure? (hclosure : b.closure? seed p = some info) :
    b.Describes p info := by
  have hsol := closure?_eq_some_iff.1 hclosure
  refine ⟨hsol.length_eq, hsol.length_eq_arity, fun hq hslot => ?_⟩
  obtain ⟨i, hi⟩ := List.mem_iff_getElem?.1 hq
  exact hsol.slots hi hslot

theorem Describes.covers (h : b.Describes p info)
    (hslots : ∀ slot, some slot ∈ p → slot < constants.length) (steps : Nat)
    (namer : Nat → String) (hq : q ∈ info) : (b.plan steps info constants namer q).Covers where
  slots hslot := hslots _ (h.slots hq hslot)
  length_replacements := Specialization.replacements_length b.functions h.length_eq.symm

theorem Part.exists_initial {t : Term} (hpart : b.Part info q t) : ∃ p ∈ info, q <+: p := by
  cases hpart with
  | param _ hq _ _ => exact ⟨_, List.mem_of_getElem? hq, List.take_prefix _ _⟩
  | result _ hq | body _ hq => exact ⟨_, List.mem_of_getElem? hq, List.prefix_rfl⟩

theorem Part.covers {t : Term} (hpart : b.Part info q t)
    (hcovers : ∀ q ∈ info, (b.plan steps info constants namer q).Covers) :
    (b.plan steps info constants namer q).Covers := by
  obtain ⟨p, hp, hinitial⟩ := hpart.exists_initial
  exact (hcovers p hp).of_initial hinitial

theorem Part.mem_children {t : Term} (hpart : b.Part info q t) (h : b.Describes p info) :
    (t, b.size + q.length) ∈ (Term.fix 0 b).children 0 := by
  simp only [children, Nat.zero_add, List.mem_flatMap, List.mem_append, List.mem_cons]
  cases hpart with
  | @param i k f q x hf hq hx hk =>
    have hlen : (q.take k).length = k := by
      rw [List.length_take]
      have := (List.getElem?_eq_some_iff.1 hk).1
      omega
    refine ⟨f, List.mem_of_getElem? hf, .inl (mem_paramTypes_iff.2 ⟨k, x, hx, ?_⟩)⟩
    rw [hlen]
  | result hf hq =>
    refine ⟨_, List.mem_of_getElem? hf, .inr (.inl ?_)⟩
    rw [h.arity_eq hf hq]
  | body hf hq =>
    refine ⟨_, List.mem_of_getElem? hf, .inr (.inr (.inl ?_))⟩
    rw [h.arity_eq hf hq]

/-- With enough constants nothing but a reduction of too many steps stops a specialization. -/
theorem specialize_error_of_describes {e : SpecializeError} (h : b.Describes p info)
    (hslots : ∀ slot, some slot ∈ p → slot < constants.length)
    (he : b.specialize steps info constants namer = .error e) : e = .outOfSteps := by
  obtain ⟨q, t, hpart, he⟩ := specialize_error_part h.length_eq h.arity_eq he
  exact (hpart.covers fun q hq => h.covers hslots steps namer hq).rewrite_error he

end Bundle
end InductiveTerms
