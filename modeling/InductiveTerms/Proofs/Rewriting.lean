import InductiveTerms.Proofs.Conversion
import InductiveTerms.Specialization.Rewrite

/-!
What rewriting under a plan does to a term. As long as no index leaves its range, the result is
convertible to the term with something bound to its variables (`rewrite_convertible`): parameters
are renumbered or become constants, functions become their replacements and everything outside
moves closer. All that happens besides is that applied functions contract.
-/
namespace InductiveTerms
open Term Traversal

theorem isHeadRedex_cases (t : Term) :
    (∃ ps b as, t = .apply (.lambda ps b) as) ∨ t.isHeadRedex = false := by
  cases t with
  | apply f as =>
    cases f with
    | lambda ps b => exact .inl ⟨ps, b, as, rfl⟩
    | _ => exact .inr rfl
  | _ => exact .inr rfl

/-- A reduction at the head is a conversion. -/
theorem reduceHead_convertible {steps : Nat} {t u : Term} (hexact : ReducesExactly steps t)
    (h : t.reduceHead steps = some u) : Convertible Contraction t u := by
  induction steps generalizing t with
  | zero =>
    rcases isHeadRedex_cases t with ⟨ps, b, as, rfl⟩ | hredex
    · cases h
    · rw [reduceHead_of_not_isHeadRedex hredex] at h
      obtain rfl := Option.some.inj h
      exact .refl t
  | succ steps ih =>
    rcases isHeadRedex_cases t with ⟨ps, b, as, rfl⟩ | hredex
    · obtain ⟨hcontract, hrest⟩ := hexact
      have hstep : Convertible Contraction (contract ps b as.toList) (beta ps b as.toList) :=
        .same (bare_beta hcontract).symm
      exact ((Convertible.rule .beta).trans hstep).trans (ih hrest h)
    · rw [reduceHead_of_not_isHeadRedex hredex] at h
      obtain rfl := Option.some.inj h
      exact .refl t

namespace Specialization

@[simp] theorem kept_none (p : Pattern) : Pattern.kept (none :: p) = Pattern.kept p + 1 :=
  List.countP_cons_of_pos rfl

@[simp] theorem kept_some (slot : Nat) (p : Pattern) :
    Pattern.kept (some slot :: p) = Pattern.kept p := rfl

theorem kept_append (p q : Pattern) : Pattern.kept (p ++ q) = p.kept + Pattern.kept q :=
  List.countP_append

theorem kept_drop_lt {p : Pattern} {k : Nat} (h : p[k]? = some none) :
    Pattern.kept (p.drop (k + 1)) < p.kept := by
  obtain ⟨hlt, hk⟩ := List.getElem?_eq_some_iff.1 h
  have hdrop : Pattern.kept (p.drop k) ≤ p.kept := (List.drop_sublist k p).countP_le
  rw [List.drop_eq_getElem_cons hlt, hk, kept_none] at hdrop
  omega

/-- The constant of a slot; any term does where there is none. -/
def constantAt (constants : List Term) (slot : Nat) : Term := constants[slot]?.getD (.var "" 0)

/-- What stands for the parameter at a position, under the binders of a bundle of `n` and of the
parameters that stay. -/
def putParam (constants : List Term) (n : Nat) (p : Pattern) (position : Nat) : Term :=
  match p[position]? with
  | some (some slot) => (constantAt constants slot).raise (n + p.kept)
  | _ => .var "" (Pattern.kept (p.drop (position + 1)))

namespace Plan
variable (plan : Plan)

/-- What rewriting puts for a variable. -/
def binding (j : Nat) : Term :=
  if j < plan.pattern.length then
    putParam plan.constants plan.bundleSize plan.pattern (plan.pattern.length - 1 - j)
  else if j < plan.pattern.length + plan.bundleSize then
    (plan.replacements[plan.bundleSize - 1 - (j - plan.pattern.length)]?.getD
      (.var "" 0)).raise plan.pattern.kept
  else .var "" (j - (plan.pattern.length - plan.pattern.kept))

/-- The constant or replacement put for a variable, if there is one, and how far it moves. -/
def inserted? (j : Nat) : Option (Term × Nat) :=
  if j < plan.pattern.length then
    match plan.pattern[plan.pattern.length - 1 - j]? with
    | some (some slot) => plan.constants[slot]?.map (·, plan.pattern.kept + plan.bundleSize)
    | _ => none
  else if j < plan.pattern.length + plan.bundleSize then
    plan.replacements[plan.bundleSize - 1 - (j - plan.pattern.length)]?.map (·, plan.pattern.kept)
  else none

/-- Whether no index leaves its range in the reply to a node under `d` binders. -/
def ReplyExact : Term → Nat → Prop
  | .var _ i, d => d ≤ i → ∀ c ∈ plan.inserted? (i - d), c.1.RaisesExactly (d + c.2)
  | .apply (.lambda ps b) as, _ => ReducesExactly plan.steps (.apply (.lambda ps b) as)
  | _, _ => True

/-- What rewriting leaves of a term under `d` binders. -/
def rewritten (t : Term) (d : Nat) : Term :=
  match visit plan.visitor unshared t d with
  | .ok r => r.getD t
  | .error _ => t

/-- Whether no index leaves its range while a term is rewritten. -/
inductive Exact : Term → Nat → Prop
  | node {t : Term} {d : Nat} : (∀ c ∈ t.children d, Exact c.1 c.2) →
      plan.ReplyExact (t.mapChildren plan.rewritten d) d → Exact t d

variable {plan}

theorem Exact.leaf {t : Term} {d : Nat} (ht : t.children d = [])
    (h : plan.ReplyExact (t.mapChildren plan.rewritten d) d) : plan.Exact t d :=
  .node (fun _ hc => by rw [ht] at hc; cases hc) h

theorem Exact.var {x : String} {i d : Nat}
    (h : d ≤ i → ∀ c ∈ plan.inserted? (i - d), c.1.RaisesExactly (d + c.2)) :
    plan.Exact (.var x i) d := .leaf rfl h

theorem Exact.children {t : Term} {d : Nat} (h : plan.Exact t d) :
    ∀ c ∈ t.children d, plan.Exact c.1 c.2 := by
  cases h with
  | node h _ => exact h

theorem Exact.replyExact {t : Term} {d : Nat} (h : plan.Exact t d) :
    plan.ReplyExact (t.mapChildren plan.rewritten d) d := by
  cases h with
  | node _ h => exact h

theorem binding_param {j : Nat} (h : j < plan.pattern.length) :
    plan.binding j =
      putParam plan.constants plan.bundleSize plan.pattern (plan.pattern.length - 1 - j) :=
  if_pos h

theorem binding_function {j : Nat} {r : Term} (hle : plan.pattern.length ≤ j)
    (hlt : j < plan.pattern.length + plan.bundleSize)
    (hr : plan.replacements[plan.bundleSize - 1 - (j - plan.pattern.length)]? = some r) :
    plan.binding j = r.raise plan.pattern.kept := by
  rw [binding, if_neg (Nat.not_lt.2 hle), if_pos hlt, hr, Option.getD_some]

theorem binding_outside {j : Nat} (h : plan.pattern.length + plan.bundleSize ≤ j) :
    plan.binding j = .var "" (j - (plan.pattern.length - plan.pattern.kept)) := by
  rw [binding, if_neg (by omega), if_neg (Nat.not_lt.2 h)]

variable (plan) in
/-- What may be left of a variable under `d` binders. -/
inductive Replaces (x : String) (i d : Nat) : Term → Prop
  | inner : i < d → Replaces x i d (.var x i)
  | kept : d ≤ i → i < d + plan.pattern.length →
      plan.pattern[plan.pattern.length - 1 - (i - d)]? = some none →
        Replaces x i d
          (.var x (d + Pattern.kept (plan.pattern.drop (plan.pattern.length - 1 - (i - d) + 1))))
  | constant {slot : Nat} {c : Term} : d ≤ i → i < d + plan.pattern.length →
      plan.pattern[plan.pattern.length - 1 - (i - d)]? = some (some slot) →
        plan.constants[slot]? = some c →
          Replaces x i d (c.shift 0 (d + plan.pattern.kept + plan.bundleSize : Nat))
  | function {r : Term} : d + plan.pattern.length ≤ i →
      i < d + plan.pattern.length + plan.bundleSize →
        plan.replacements[plan.bundleSize - 1 - (i - d - plan.pattern.length)]? = some r →
          Replaces x i d (r.shift 0 (d + plan.pattern.kept : Nat))
  | outside : d + plan.pattern.length + plan.bundleSize ≤ i →
      Replaces x i d (.var x (i - (plan.pattern.length - plan.pattern.kept)))

theorem replaces_of_replaceVar {x : String} {i d : Nat} {o : Option Term}
    (h : plan.replaceVar x i d = .ok o) : plan.Replaces x i d (o.getD (.var x i)) := by
  have hrenumbered : ∀ j, (if j = i then none else some (Term.var x j)).getD (.var x i) =
      .var x j := by
    intro j
    split
    · next heq => rw [heq, Option.getD_none]
    · rfl
  simp only [replaceVar] at h
  rcases Nat.lt_or_ge i d with hlt | hle
  · rw [if_pos hlt] at h
    obtain rfl := Except.ok.inj h
    exact .inner hlt
  rw [if_neg (Nat.not_lt.2 hle)] at h
  rcases Nat.lt_or_ge (i - d) plan.pattern.length with hparam | hparam
  · rw [if_pos hparam] at h
    have hin : plan.pattern.length - 1 - (i - d) < plan.pattern.length := by omega
    obtain ⟨s, hs⟩ : ∃ s, plan.pattern[plan.pattern.length - 1 - (i - d)]? = some s :=
      ⟨_, List.getElem?_eq_getElem hin⟩
    cases s with
    | none =>
      simp only [hs] at h
      obtain rfl := Except.ok.inj h
      rw [hrenumbered]
      exact .kept hle (by omega) hs
    | some slot =>
      simp only [hs] at h
      cases hc : plan.constants[slot]? with
      | none => simp [hc] at h
      | some c =>
        simp only [hc] at h
        obtain rfl := Except.ok.inj h
        exact .constant hle (by omega) hs hc
  rw [if_neg (Nat.not_lt.2 hparam)] at h
  rcases Nat.lt_or_ge (i - d) (plan.pattern.length + plan.bundleSize) with hfun | hfun
  · rw [if_pos hfun] at h
    cases hr : plan.replacements[plan.bundleSize - 1 - (i - d - plan.pattern.length)]? with
    | none => simp [hr] at h
    | some r =>
      simp only [hr] at h
      obtain rfl := Except.ok.inj h
      exact .function (by omega) (by omega) hr
  · rw [if_neg (Nat.not_lt.2 hfun)] at h
    obtain rfl := Except.ok.inj h
    rw [hrenumbered]
    exact .outside (by omega)

/-- What is left of a variable is what is bound to it, as it reads under the binders around it. -/
theorem Replaces.bare_eq {x : String} {i d : Nat} {w : Term} (h : plan.Replaces x i d w)
    (hexact : plan.ReplyExact (.var x i) d) : w.bare = (bindVar plan.binding i d).bare := by
  cases h with
  | inner hlt =>
    rw [bindVar_of_lt hlt]
    rfl
  | kept hle hlt hslot =>
    rw [bindVar_of_le hle, binding_param (by omega), putParam, hslot, bare_raise, bare_var,
      bare_var, raise_var, Nat.add_comm d]
  | @constant slot c hle hlt hslot hc =>
    have hinserted := hexact hle
    have hparam : i - d < plan.pattern.length := by omega
    simp only [inserted?, if_pos hparam, hslot, hc] at hinserted
    have hmoved := bare_shift_eq_raise (hinserted (c, _) rfl)
    have hsum : d + plan.pattern.kept + plan.bundleSize =
        plan.bundleSize + plan.pattern.kept + d := by omega
    rw [← Nat.add_assoc, hsum] at hmoved
    rw [bindVar_of_le hle, binding_param hparam, putParam, hslot, bare_raise, hsum, hmoved]
    dsimp only
    rw [constantAt, hc, Option.getD_some, bare_raise, raise_raise]
  | @function r hle hlt hr =>
    have hinserted := hexact (by omega)
    have hparam : ¬ i - d < plan.pattern.length := by omega
    have hfun : i - d < plan.pattern.length + plan.bundleSize := by omega
    simp only [inserted?, if_neg hparam, if_pos hfun, hr] at hinserted
    rw [bindVar_of_le (by omega), binding_function (by omega) hfun hr, bare_raise, bare_raise,
      bare_shift_eq_raise (hinserted (r, _) rfl), raise_raise, Nat.add_comm d]
  | outside hle =>
    have hindex : i - d - (plan.pattern.length - plan.pattern.kept) + d =
        i - (plan.pattern.length - plan.pattern.kept) := by
      have hkept : plan.pattern.kept ≤ plan.pattern.length := List.countP_le_length
      omega
    rw [bindVar_of_le (by omega), binding_outside (by omega), bare_raise, bare_var, bare_var,
      raise_var, hindex]

theorem reply_of_not_isHeadRedex {u : Term} (hvar : u.asVar? = none)
    (hredex : u.isHeadRedex = false) (d : Nat) : plan.visitor.reply u d = .ok none := by
  cases u with
  | var x i => simp [asVar?] at hvar
  | apply f as =>
    cases f with
    | lambda ps b => simp [isHeadRedex] at hredex
    | _ => rfl
  | _ => rfl

/-- The reply to a node that is no variable is the node reduced at the head. -/
theorem reply_node {u : Term} (hvar : u.asVar? = none) (d : Nat) :
    (plan.visitor.reply u d).map (·.getD u) =
      match u.reduceHead plan.steps with
      | some w => .ok w
      | none => .error .outOfSteps := by
  rcases isHeadRedex_cases u with ⟨ps, b, as, rfl⟩ | hredex
  · cases hreduce : (Term.apply (.lambda ps b) as).reduceHead plan.steps with
    | none =>
      simp only [visitor, Visitor.ofReply, hreduce]
      rfl
    | some w =>
      simp only [visitor, Visitor.ofReply, hreduce]
      rfl
  · rw [reply_of_not_isHeadRedex hvar hredex, reduceHead_of_not_isHeadRedex hredex]
    rfl

theorem visited_var {x : String} {i d : Nat} {w : Term}
    (h : Visited plan.visitor (.var x i) d w) : plan.Replaces x i d w := by
  obtain ⟨r, hr, rfl⟩ := h
  obtain ⟨u, o, hu, ho, hr⟩ := visit_returns hr
  cases hu
  rw [hr]
  exact replaces_of_replaceVar (returns_except.1 ho)

/-- What is left of a node that is no variable is the rebuilt node, reduced at the head. -/
theorem visited_node {t w : Term} {d : Nat} (ht : t.asVar? = none)
    (h : Visited plan.visitor t d w) :
    ∃ u, Rebuilt (Visited plan.visitor) t d u ∧ u.reduceHead plan.steps = some w := by
  obtain ⟨r, hr, rfl⟩ := h
  obtain ⟨u, o, hu, ho, hr⟩ := visit_returns hr
  refine ⟨u, hu, ?_⟩
  have hreply := plan.reply_node (by rw [hu.asVar?_eq, ht] : u.asVar? = none) d
  rw [returns_except.1 ho] at hreply
  cases hreduce : u.reduceHead plan.steps with
  | none => simp [hreduce, Except.map] at hreply
  | some v =>
    simp only [hreduce, Except.map] at hreply
    rw [hr, Except.ok.inj hreply]

theorem eq_map_of_forall₂ {α β : Type} {g : α → β} {P : α → β → Prop} {as : List α} {bs : List β}
    (h : List.Forall₂ (fun a b => b = g a ∧ P a b) as bs) : bs = as.map g := by
  induction h with
  | nil => rfl
  | cons hab _ ih => rw [List.map_cons, ← hab.1, ← ih]

/-- Rewriting a term puts the binding of the plan for its variables, up to contractions. -/
theorem rewrite_convertible {t : Term} {d : Nat} (hexact : plan.Exact t d) :
    ∀ {r}, visit plan.visitor unshared t d = .ok r →
      Convertible Contraction (r.getD t) (mapVars (bindVar plan.binding) t d) := by
  induction hexact with
  | @node t d _ hreply ih =>
    intro r hr
    have hleft : Visited plan.visitor t d (r.getD t) := ⟨r, returns_except.2 hr, rfl⟩
    rcases t.eq_var_or_asVar?_eq_none with ⟨x, i, rfl⟩ | ht
    · exact .same ((visited_var hleft).bare_eq hreply)
    obtain ⟨u, hu, hreduce⟩ := visited_node ht hleft
    have hvisited : Rebuilt (fun c e w => w = plan.rewritten c e ∧
        Convertible Contraction w (mapVars (bindVar plan.binding) c e)) t d u :=
      hu.imp fun c hc w hw => by
        obtain ⟨r, hr, rfl⟩ := hw
        rw [returns_except] at hr
        refine ⟨?_, ih c hc hr⟩
        rw [rewritten, hr]
    have hnode : Convertible Contraction u (mapVars (bindVar plan.binding) t d) := by
      have hmap : Rebuilt (fun c _ w => Convertible Contraction c w)
          (t.mapChildren (mapVars (bindVar plan.binding)) d) d (u.mapChildren (fun w _ => w) d) :=
        hvisited.map fun _ _ _ hw => hw.2.symm
      rw [mapChildren_id, ← mapVars_eq ht] at hmap
      exact (Convertible.node hmap).symm
    refine .trans ?_ hnode
    rcases isHeadRedex_cases u with ⟨ps, b, as, rfl⟩ | hredex
    · cases hvisited with
      | @apply f _ as₀ _ _ hf has =>
        have hargs : as = as₀.map (plan.rewritten · d) := Arguments.eq_map (eq_map_of_forall₂ has)
        simp only [mapChildren, ← hf.1, ← hargs] at hreply
        exact (reduceHead_convertible hreply hreduce).symm
    · rw [reduceHead_of_not_isHeadRedex hredex] at hreduce
      obtain rfl := Option.some.inj hreduce
      exact .refl _

end Plan
end Specialization
end InductiveTerms
