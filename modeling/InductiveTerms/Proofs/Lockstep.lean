import InductiveTerms.Proofs.Opening
import InductiveTerms.Proofs.Residuals
import InductiveTerms.Proofs.SpecializedBundle

/-!
Two rewritings in lockstep. The second one rewrites the terms of the first one with variables moved
past a place (`Term.Opens`), under a plan whose replies correspond. Then both give results, which
differ in such a move again, or neither gives one (`leaves_accord`), and what goes for the parts of
two bundles goes for the bundles (`specialize_accord`).
-/
namespace InductiveTerms

section Accord
variable {ε ε' α β γ δ : Type} {E : ε → ε' → Prop} {R : α → β → Prop} {S : γ → δ → Prop}

/-- Both succeed, with results that are related, or both fail, with errors that are related. -/
inductive Accord (E : ε → ε' → Prop) (R : α → β → Prop) : Except ε α → Except ε' β → Prop
  | ok {a : α} {b : β} : R a b → Accord E R (.ok a) (.ok b)
  | error {e : ε} {e' : ε'} : E e e' → Accord E R (.error e) (.error e')

theorem Accord.bind {x : Except ε α} {y : Except ε' β} {f : α → Except ε γ} {g : β → Except ε' δ}
    (h : Accord E R x y)
    (hfg : ∀ a b, x = .ok a → y = .ok b → R a b → Accord E S (f a) (g b)) :
    Accord E S (x >>= f) (y >>= g) := by
  cases h with
  | ok hab => exact hfg _ _ rfl rfl hab
  | error he => exact .error he

theorem Accord.imp {R' : α → β → Prop} {x : Except ε α} {y : Except ε' β} (h : Accord E R x y)
    (himp : ∀ a b, R a b → R' a b) : Accord E R' x y := by
  cases h with
  | ok hab => exact .ok (himp _ _ hab)
  | error he => exact .error he

/-- Two errors of whatever kind. -/
def AnyErrors (_ : ε) (_ : ε') : Prop := True

/-- Of two computations that succeed together only the results have to be compared. -/
theorem Accord.of_iff {x : Except ε α} {y : Except ε' β} (hiff : (∃ a, x = .ok a) ↔ ∃ b, y = .ok b)
    (hR : ∀ a b, x = .ok a → y = .ok b → R a b) : Accord AnyErrors R x y := by
  cases x with
  | ok a =>
    obtain ⟨b, rfl⟩ := hiff.1 ⟨a, rfl⟩
    exact .ok (hR a b rfl rfl)
  | error e =>
    cases y with
    | ok b =>
      obtain ⟨a, ha⟩ := hiff.2 ⟨b, rfl⟩
      cases ha
    | error e' => exact .error trivial

theorem Accord.exists_iff {x : Except ε α} {y : Except ε' β} (h : Accord E R x y) :
    (∃ a, x = .ok a) ↔ ∃ b, y = .ok b := by
  cases h with
  | ok => exact ⟨fun _ => ⟨_, rfl⟩, fun _ => ⟨_, rfl⟩⟩
  | error => simp

theorem Accord.related {x : Except ε α} {y : Except ε' β} (h : Accord E R x y) {a : α} {b : β}
    (hx : x = .ok a) (hy : y = .ok b) : R a b := by
  subst hx hy
  cases h with
  | ok hab => exact hab

theorem Accord.exists_left {x : Except ε α} {y : Except ε' β} {b : β} (h : Accord E R x y)
    (hy : y = .ok b) : ∃ a, x = .ok a ∧ R a b := by
  obtain ⟨a, ha⟩ := h.exists_iff.2 ⟨b, hy⟩
  exact ⟨a, ha, h.related ha hy⟩

end Accord

theorem exists_iff_of_rel {α β : Type} {R : α → β → Prop} {o : Option α} {o' : Option β}
    (h : Option.Rel R o o') : (∃ a, o = some a) ↔ ∃ b, o' = some b := by
  cases h with
  | some => exact ⟨fun _ => ⟨_, rfl⟩, fun _ => ⟨_, rfl⟩⟩
  | none => simp

theorem related_or_none {α β : Type} {R : α → β → Prop} {as : List α} {bs : List β}
    (h : List.Forall₂ R as bs) (k : Nat) :
    (∃ a b, as[k]? = some a ∧ bs[k]? = some b ∧ R a b) ∨ (as[k]? = none ∧ bs[k]? = none) := by
  rcases Nat.lt_or_ge k as.length with hlt | hle
  · have hlt' : k < bs.length := h.length_eq ▸ hlt
    exact .inl ⟨_, _, List.getElem?_eq_getElem hlt, List.getElem?_eq_getElem hlt', h.get hlt hlt'⟩
  · exact .inr ⟨List.getElem?_eq_none hle, List.getElem?_eq_none (h.length_eq ▸ hle)⟩

theorem forall_mem_iff {α β : Type} {R : α → β → Prop} {P : α → Prop} {Q : β → Prop} {as : List α}
    {bs : List β} (h : List.Forall₂ R as bs) (hiff : ∀ a b, R a b → (P a ↔ Q b)) :
    (∀ a ∈ as, P a) ↔ ∀ b ∈ bs, Q b := by
  induction h with
  | nil => simp
  | cons hab _ ih => rw [List.forall_mem_cons, List.forall_mem_cons, hiff _ _ hab, ih]

namespace Specialization.Plan
open Term Traversal

/-- What rewriting leaves of a term under `d` binders. -/
def leaves (plan : Plan) (t : Term) (d : Nat) : Except SpecializeError Term :=
  (visit plan.visitor unshared t d).map (·.getD t)

section Leaves
variable {plan : Plan} {t w : Term} {d : Nat}

theorem leaves_eq_ok_iff : plan.leaves t d = .ok w ↔ Visited plan.visitor t d w := by
  rw [leaves]
  constructor
  · intro h
    cases hr : visit plan.visitor unshared t d with
    | ok r =>
      rw [hr] at h
      exact ⟨r, returns_except.2 hr, (Except.ok.inj h).symm⟩
    | error e =>
      rw [hr] at h
      cases h
  · rintro ⟨r, hr, rfl⟩
    rw [returns_except.1 hr]
    rfl

theorem rewrite_eq_leaves (t : Term) : plan.rewrite t = plan.leaves t 0 := by
  rw [rewrite, leaves]
  change (visit plan.visitor unshared t 0 >>= _) = _
  cases visit plan.visitor unshared t 0 <;> rfl

theorem leaves_var (x : String) (i d : Nat) :
    plan.leaves (.var x i) d = (plan.replaceVar x i d).map (·.getD (.var x i)) := by
  change Except.map _ (plan.replaceVar x i d >>= _) = _
  cases plan.replaceVar x i d with
  | error e => rfl
  | ok o => cases o <;> rfl

theorem eq_rewritten (h : Visited plan.visitor t d w) : w = plan.rewritten t d := by
  obtain ⟨r, hr, rfl⟩ := h
  rw [rewritten, returns_except.1 hr]

theorem leaves_of_rebuilt {u : Term} (hu : Rebuilt (Visited plan.visitor) t d u) :
    ∀ c ∈ t.children d, plan.leaves c.1 c.2 = .ok (plan.rewritten c.1 c.2) := by
  intro c hc
  obtain ⟨k, hk⟩ := List.mem_iff_getElem?.1 hc
  obtain ⟨c', _, _, hc'⟩ := forall₂_getElem? hu.children hk
  rw [← eq_rewritten hc']
  exact leaves_eq_ok_iff.2 hc'

theorem bare_of_rebuilt {u : Term} (hu : Rebuilt (Visited plan.visitor) t d u) :
    u.bare = (t.mapChildren plan.rewritten d).bare := by
  have hbare : Rebuilt (fun c e w => w.bare = (plan.rewritten c e).bare) t d u :=
    hu.imp fun c _ w hw => by rw [eq_rewritten hw]
  rw [hbare.bare_eq, bare_eq _ d, mapChildren_mapChildren]

theorem leaves_of_reduces (ht : t.asVar? = none)
    (hchildren : ∀ c ∈ t.children d, ∃ w, plan.leaves c.1 c.2 = .ok w)
    (hreduces : ∀ u, Rebuilt (Visited plan.visitor) t d u → ∃ w, u.reduceHead plan.steps = some w) :
    ∃ w, plan.leaves t d = .ok w := by
  cases hvisit : visit plan.visitor unshared t d with
  | ok r => exact ⟨_, leaves_eq_ok_iff.2 ⟨r, returns_except.2 hvisit, rfl⟩⟩
  | error e =>
    rcases visit_error hvisit with ⟨c, hc, he⟩ | ⟨u, hu, he⟩
    · obtain ⟨w, hw⟩ := hchildren c hc
      obtain ⟨r, hr, _⟩ := leaves_eq_ok_iff.1 hw
      cases (returns_except.1 hr).symm.trans he
    · obtain ⟨w, hw⟩ := hreduces u hu
      have hreply := plan.reply_node (by rw [hu.asVar?_eq, ht] : u.asVar? = none) d
      change (plan.visitor.reply u d) = .error e at he
      rw [he, hw] at hreply
      cases hreply

theorem leaves_children (h : plan.leaves t d = .ok w) :
    ∀ c ∈ t.children d, ∃ w, plan.leaves c.1 c.2 = .ok w := by
  intro c hc
  obtain ⟨r, hr, _⟩ := leaves_eq_ok_iff.1 h
  obtain ⟨u, _, hu, _, _⟩ := visit_returns hr
  exact ⟨_, leaves_of_rebuilt hu c hc⟩

end Leaves

/-! What is left of a variable, by what it stands for. -/

section Var
variable {plan : Plan} {x : String} {i d : Nat}

theorem leaves_var_inner (h : i < d) : plan.leaves (.var x i) d = .ok (.var x i) := by
  rw [leaves_var, replaceVar, if_pos h]
  rfl

theorem renumbered_getD (x : String) (i j : Nat) :
    (if j = i then none else some (Term.var x j)).getD (.var x i) = .var x j := by
  split
  · next heq => rw [heq, Option.getD_none]
  · rfl

theorem leaves_var_kept (hle : d ≤ i) (hlt : i - d < plan.pattern.length)
    (hslot : plan.pattern[plan.pattern.length - 1 - (i - d)]? = some none) :
    plan.leaves (.var x i) d = .ok (.var x
      (d + Pattern.kept (plan.pattern.drop (plan.pattern.length - 1 - (i - d) + 1)))) := by
  rw [leaves_var, replaceVar, if_neg (Nat.not_lt.2 hle), if_pos hlt]
  simp only [hslot, Except.map, renumbered_getD]

theorem leaves_var_constant (hle : d ≤ i) (hlt : i - d < plan.pattern.length) {slot : Nat}
    (hslot : plan.pattern[plan.pattern.length - 1 - (i - d)]? = some (some slot)) :
    plan.leaves (.var x i) d = match plan.constants[slot]? with
      | some c => .ok (c.shift 0 (d + (plan.pattern.kept + plan.bundleSize) : Nat))
      | none => .error (.missingConstant slot) := by
  rw [leaves_var, replaceVar, if_neg (Nat.not_lt.2 hle), if_pos hlt, ← Nat.add_assoc]
  simp only [hslot]
  cases plan.constants[slot]? <;> rfl

theorem leaves_var_function (hle : d ≤ i) (hparam : ¬ i - d < plan.pattern.length)
    (hlt : i - d < plan.pattern.length + plan.bundleSize) : plan.leaves (.var x i) d =
      match plan.replacements[plan.bundleSize - 1 - (i - d - plan.pattern.length)]? with
      | some r => .ok (r.shift 0 (d + plan.pattern.kept : Nat))
      | none => .error .patternMismatch := by
  rw [leaves_var, replaceVar, if_neg (Nat.not_lt.2 hle), if_neg hparam, if_pos hlt]
  cases plan.replacements[plan.bundleSize - 1 - (i - d - plan.pattern.length)]? <;> rfl

theorem leaves_var_outside (hle : d + (plan.pattern.length + plan.bundleSize) ≤ i) :
    plan.leaves (.var x i) d =
      .ok (.var x (i - (plan.pattern.length - plan.pattern.kept))) := by
  rw [leaves_var, replaceVar, if_neg (by omega), if_neg (by omega), if_neg (by omega)]
  dsimp only
  rw [Except.map, renumbered_getD]

end Var

/-- Plans of one shape. The second one has the constants and the replacements of the first one with
variables moved, those from `limit` on as seen from outside the bundle. -/
structure Alongside (limit n : Nat) (plan plan' : Plan) : Prop where
  pattern : plan'.pattern = plan.pattern
  bundleSize : plan'.bundleSize = plan.bundleSize
  steps : plan'.steps = plan.steps
  constants : List.Forall₂ (Opens limit n) plan.constants plan'.constants
  replacements : List.Forall₂ (Opens (limit + plan.bundleSize) n) plan.replacements
    plan'.replacements

namespace Alongside
variable {limit n : Nat} {plan plan' : Plan} {x y : String} {i j d : Nat}

/-- Whether what two plans insert for a variable corresponds where it is put if it does where it
comes from. -/
def InsertsAlike (n : Nat) (plan plan' : Plan) (i d : Nat) : Prop :=
  ∀ {c c' : Term} {m k : Nat}, plan.inserted? (i - d) = some (c, m) →
    plan'.inserted? (i - d) = some (c', m) → Opens k n c c' →
      Opens (k + (d + m)) n (c.shift 0 (d + m : Nat)) (c'.shift 0 (d + m : Nat))

theorem leaves_param_accord (h : Alongside limit n plan plan') (hle : d ≤ i)
    (hparam : i - d < plan.pattern.length) (hinserted : InsertsAlike n plan plan' i d) :
    Accord AnyErrors (Opens (limit + plan.bundleSize + plan.pattern.kept + d) n)
      (plan.leaves (.var x i) d) (plan'.leaves (.var y i) d) := by
  obtain ⟨hpattern, hsize, _, hconstants, _⟩ := h
  obtain ⟨s, hs⟩ : ∃ s, plan.pattern[plan.pattern.length - 1 - (i - d)]? = some s :=
    ⟨_, List.getElem?_eq_getElem (by omega)⟩
  cases s with
  | none =>
    have hlast := kept_drop_lt hs
    rw [leaves_var_kept hle hparam hs,
      leaves_var_kept hle (by rwa [hpattern]) (by rwa [hpattern]), hpattern]
    exact .ok (opens_var (by rw [if_pos (by omega)]))
  | some slot =>
    rw [leaves_var_constant hle hparam hs,
      leaves_var_constant hle (by rwa [hpattern]) (by rwa [hpattern]), hpattern, hsize]
    rcases related_or_none hconstants slot with ⟨c, c', hc, hc', hopens⟩ | ⟨hc, hc'⟩
    · simp only [InsertsAlike, inserted?, hpattern, hsize, if_pos hparam, hs, hc, hc']
        at hinserted ⊢
      have hlimit : limit + plan.bundleSize + plan.pattern.kept + d =
          limit + (d + (plan.pattern.kept + plan.bundleSize)) := by omega
      rw [hlimit]
      exact .ok (hinserted rfl rfl hopens)
    · rw [hc, hc']
      exact .error trivial

theorem leaves_function_accord (h : Alongside limit n plan plan') (hle : d ≤ i)
    (hparam : ¬ i - d < plan.pattern.length)
    (hfun : i - d < plan.pattern.length + plan.bundleSize)
    (hinserted : InsertsAlike n plan plan' i d) :
    Accord AnyErrors (Opens (limit + plan.bundleSize + plan.pattern.kept + d) n)
      (plan.leaves (.var x i) d) (plan'.leaves (.var y i) d) := by
  obtain ⟨hpattern, hsize, _, _, hreplacements⟩ := h
  rw [leaves_var_function hle hparam hfun,
    leaves_var_function hle (by rwa [hpattern]) (by rwa [hpattern, hsize]), hpattern, hsize]
  rcases related_or_none hreplacements (plan.bundleSize - 1 - (i - d - plan.pattern.length)) with
    ⟨r, r', hr, hr', hopens⟩ | ⟨hr, hr'⟩
  · simp only [InsertsAlike, inserted?, hpattern, hsize, if_neg hparam, if_pos hfun, hr, hr']
      at hinserted ⊢
    rw [Nat.add_assoc _ plan.pattern.kept, Nat.add_comm plan.pattern.kept]
    exact .ok (hinserted rfl rfl hopens)
  · rw [hr, hr']
    exact .error trivial

/-- Corresponding variables become corresponding terms if what is inserted for them does. -/
theorem leaves_var_accord (h : Alongside limit n plan plan')
    (hj : j = if i < limit + plan.bundleSize + plan.pattern.length + d then i else i + n)
    (hinserted : j = i → d ≤ i → InsertsAlike n plan plan' i d) :
    Accord AnyErrors (Opens (limit + plan.bundleSize + plan.pattern.kept + d) n)
      (plan.leaves (.var x i) d) (plan'.leaves (.var y j) d) := by
  have hkept : plan.pattern.kept ≤ plan.pattern.length := List.countP_le_length
  rcases Nat.lt_or_ge i (d + (plan.pattern.length + plan.bundleSize)) with hlt | hle
  · -- variables of the term itself, of the function and of the bundle have not moved
    obtain rfl : j = i := by rw [hj, if_pos (by omega)]
    rcases Nat.lt_or_ge j d with hinner | hle
    · rw [leaves_var_inner hinner, leaves_var_inner hinner]
      exact .ok (opens_var (by rw [if_pos (by omega)]))
    by_cases hparam : j - d < plan.pattern.length
    · exact h.leaves_param_accord hle hparam (hinserted rfl hle)
    · exact h.leaves_function_accord hle hparam (by omega) (hinserted rfl hle)
  · have hij : i ≤ j := by
      rw [hj]
      split <;> omega
    have hle' : d + (plan'.pattern.length + plan'.bundleSize) ≤ j := by
      rw [h.pattern, h.bundleSize]
      omega
    rw [leaves_var_outside hle, leaves_var_outside hle', h.pattern]
    refine .ok (opens_var ?_)
    rw [hj]
    split <;> split <;> omega

end Alongside

/-- Two plans whose replies correspond where the terms satisfy `P` and `P'`: the second one rewrites
terms that have been moved by `n` from `limit` on, and leaves terms that have been moved from
`limit'` on. -/
structure Lockstep (limit limit' n : Nat) (plan plan' : Plan) (P P' : Term → Nat → Prop) :
    Prop where
  children {t : Term} {d : Nat} : P t d → ∀ c ∈ t.children d, P c.1 c.2
  children' {t : Term} {d : Nat} : P' t d → ∀ c ∈ t.children d, P' c.1 c.2
  var {x y : String} {i j d : Nat} : P (.var x i) d → P' (.var y j) d →
    j = (if i < limit + d then i else i + n) →
      Accord AnyErrors (Opens (limit' + d) n) (plan.leaves (.var x i) d)
        (plan'.leaves (.var y j) d)
  reduceHead {t t' u u' : Term} {d : Nat} : P t d → P' t' d → t.asVar? = none →
    Rebuilt (Visited plan.visitor) t d u → Rebuilt (Visited plan'.visitor) t' d u' →
      Opens (limit' + d) n u u' →
        Option.Rel (Opens (limit' + d) n) (u.reduceHead plan.steps) (u'.reduceHead plan'.steps)

namespace Lockstep
variable {limit limit' n : Nat} {plan plan' : Plan} {P P' : Term → Nat → Prop}

theorem children_leave_iff {R : Nat → Term → Term → Prop} {t t' : Term} {d : Nat}
    (h : Rebuilt (fun c e w => Accord AnyErrors (R e) (plan.leaves c e) (plan'.leaves w e))
      t.bareNode d t'.bareNode) :
    (∀ c ∈ t.children d, ∃ w, plan.leaves c.1 c.2 = .ok w) ↔
      ∀ c ∈ t'.children d, ∃ w, plan'.leaves c.1 c.2 = .ok w := by
  have hchildren := h.children
  rw [children_bareNode, children_bareNode] at hchildren
  refine forall_mem_iff hchildren fun c c' hc => ?_
  rw [hc.1]
  exact hc.2.exists_iff

theorem opens_rebuilt {t t' u u' : Term} {d : Nat} (ht : t.asVar? = none)
    (hu : Rebuilt (Visited plan.visitor) t d u) (hu' : Rebuilt (Visited plan'.visitor) t' d u')
    (h : Rebuilt (fun c e w => Accord AnyErrors (Opens (limit' + e) n) (plan.leaves c e)
      (plan'.leaves w e)) t.bareNode d t'.bareNode) : Opens (limit' + d) n u u' := by
  have hmap : Rebuilt (fun c e w => w.bare = c.bare.bind (opening (limit' + e) n))
      (t.bareNode.mapChildren plan.rewritten d) d (t'.bareNode.mapChildren plan'.rewritten d) := by
    have hleft := leaves_of_rebuilt hu'
    rw [← children_bareNode] at hleft
    refine (h.of_mem (P := fun c e => plan'.leaves c e = .ok (plan'.rewritten c e)) hleft).map
      fun c hc w hw => ?_
    rw [children_bareNode] at hc
    exact hw.1.related (leaves_of_rebuilt hu c hc) hw.2
  have hnode : (t.mapChildren plan.rewritten d).asVar? = none := by rw [asVar?_mapChildren, ht]
  have hbare := hmap.bare_eq
  rw [← bareNode_mapChildren, ← bareNode_mapChildren, ← bareNode_mapChildren, bareNode_bareNode,
    bare_bareNode, ← bind_opening_node hnode, ← bare_of_rebuilt hu, ← bare_of_rebuilt hu'] at hbare
  exact hbare

/-- Of corresponding terms both plans leave corresponding terms or nothing. -/
theorem leaves_accord (H : Lockstep limit limit' n plan plan' P P') (t : Term) :
    ∀ {t' d}, P t d → P' t' d → Opens (limit + d) n t t' →
      Accord AnyErrors (Opens (limit' + d) n) (plan.leaves t d) (plan'.leaves t' d) := by
  induction t using induct_children with
  | node t ih =>
    intro t' d hP hP' hopens
    rcases t.eq_var_or_asVar?_eq_none with ⟨x, i, rfl⟩ | ht
    · obtain ⟨y, rfl⟩ := hopens.eq_var
      exact H.var hP hP' rfl
    have ht' := hopens.asVar?_eq_none ht
    have hchildren : Rebuilt (fun c e w => Accord AnyErrors (Opens (limit' + e) n)
        (plan.leaves c e) (plan'.leaves w e)) t.bareNode d t'.bareNode := by
      have hmem : ∀ c ∈ t'.bareNode.children d, P' c.1 c.2 := by
        rw [children_bareNode]
        exact H.children' hP'
      refine ((hopens.node ht).of_mem hmem).imp fun c hc w hw => ?_
      rw [children_bareNode] at hc
      exact ih d c hc (H.children hP c hc) hw.2 hw.1
    have hiff := children_leave_iff hchildren
    have hreduce : ∀ {u u' : Term}, Rebuilt (Visited plan.visitor) t d u →
        Rebuilt (Visited plan'.visitor) t' d u' → Option.Rel (Opens (limit' + d) n)
          (u.reduceHead plan.steps) (u'.reduceHead plan'.steps) := fun hu hu' =>
      H.reduceHead hP hP' ht hu hu' (opens_rebuilt ht hu hu' hchildren)
    -- what the visitors are shown exists on both sides only where both visits of the children end
    refine .of_iff ⟨?_, ?_⟩ fun w w' hw hw' => ?_
    · rintro ⟨w, hw⟩
      obtain ⟨u, hu, hw'⟩ := visited_node ht (leaves_eq_ok_iff.1 hw)
      refine leaves_of_reduces ht' (hiff.1 (leaves_children hw)) fun u' hu' => ?_
      exact (exists_iff_of_rel (hreduce hu hu')).1 ⟨w, hw'⟩
    · rintro ⟨w, hw⟩
      obtain ⟨u', hu', hw'⟩ := visited_node ht' (leaves_eq_ok_iff.1 hw)
      refine leaves_of_reduces ht (hiff.2 (leaves_children hw)) fun u hu => ?_
      exact (exists_iff_of_rel (hreduce hu hu')).2 ⟨w, hw'⟩
    · obtain ⟨u, hu, hreduced⟩ := visited_node ht (leaves_eq_ok_iff.1 hw)
      obtain ⟨u', hu', hreduced'⟩ := visited_node ht' (leaves_eq_ok_iff.1 hw')
      have hrel := hreduce hu hu'
      rw [hreduced, hreduced'] at hrel
      cases hrel with
      | some h => exact h

end Lockstep
end Specialization.Plan

namespace Specialization
open Term

section Params
variable (plan plan' : Plan) {limit n : Nat}

theorem rewriteParams_accord {ps : List (Param Term)} : ∀ (before : Pattern) {p ps'},
    ps'.map bareParam = bindParams (opening (limit + before.length) n) (ps.map bareParam) →
    (∀ k x x', ps[k]? = some x → ps'[k]? = some x' → p[k]? = some none →
      Opens (limit + (before ++ p.take k).length) n x.type x'.type →
        Accord AnyErrors (Opens (limit + Pattern.kept (before ++ p.take k)) n)
          ({ plan with pattern := before ++ p.take k }.rewrite x.type)
          ({ plan' with pattern := before ++ p.take k }.rewrite x'.type)) →
    Accord AnyErrors (fun qs qs' => qs'.map bareParam =
        bindParams (opening (limit + Pattern.kept before) n) (qs.map bareParam))
      (rewriteParams plan before ps p) (rewriteParams plan' before ps' p) := by
  induction ps with
  | nil =>
    intro before p ps' hps _
    obtain rfl : ps' = [] := by simpa [bindParams, mapParamTypes] using hps
    cases p <;> exact .ok rfl
  | cons x ps ih =>
    intro before p ps' hps htypes
    cases ps' with
    | nil => simp [bindParams_cons] at hps
    | cons x' ps' =>
      rw [List.map_cons, List.map_cons, bindParams_cons, lift_opening, List.cons.injEq] at hps
      obtain ⟨hx, hps⟩ := hps
      have htype : Opens (limit + before.length) n x.type x'.type := congrArg Param.type hx
      cases p with
      | nil => exact .ok rfl
      | cons s p =>
        have hrest : Accord AnyErrors (fun qs qs' => qs'.map bareParam =
              bindParams (opening (limit + Pattern.kept (before ++ [s])) n) (qs.map bareParam))
            (rewriteParams plan (before ++ [s]) ps p)
            (rewriteParams plan' (before ++ [s]) ps' p) := by
          refine ih _ (by rwa [List.length_append, List.length_singleton, ← Nat.add_assoc]) ?_
          intro k y y' hy hy' hk hopens
          have htypes' := htypes (k + 1) y y' hy hy' hk
          rw [List.take_succ_cons, ← List.singleton_append, ← List.append_assoc] at htypes'
          exact htypes' hopens
        cases s with
        | some slot =>
          have hkept : Pattern.kept (before ++ [some slot]) = Pattern.kept before := by
            simp [Pattern.kept]
          rw [hkept] at hrest
          exact hrest
        | none =>
          have hkept : Pattern.kept (before ++ [none]) = Pattern.kept before + 1 := by
            simp [Pattern.kept]
          have hhead := htypes 0 x x' rfl rfl rfl
          rw [List.take_zero, List.append_nil] at hhead
          rw [hkept, ← Nat.add_assoc] at hrest
          refine (hhead htype).bind fun u u' _ _ hu => ?_
          refine hrest.bind fun qs qs' _ _ hqs => .ok ?_
          rw [List.map_cons, List.map_cons, bindParams_cons, lift_opening, hqs]
          exact congrArg (· :: _) (congrArg (Param.mk none) hu)

end Params

section Functions
variable (plan plan' : Plan) {limit n : Nat} (namer namer' : Nat → String)

theorem rewriteFunction_accord {f f' : FixFunction Term} {name name' : String}
    (hpattern : plan'.pattern = plan.pattern) (hf : OpensFunction limit n f f')
    (hparams : f.arity = plan.pattern.length → Accord AnyErrors
      (fun qs qs' => qs'.map bareParam = bindParams (opening limit n) (qs.map bareParam))
      (rewriteParams plan [] f.params plan.pattern) (rewriteParams plan' [] f'.params plan.pattern))
    (hresult : f.arity = plan.pattern.length →
      Accord AnyErrors (Opens (limit + plan.pattern.kept) n) (plan.rewrite f.result)
        (plan'.rewrite f'.result))
    (hbody : f.arity = plan.pattern.length →
      Accord AnyErrors (Opens (limit + plan.pattern.kept) n) (plan.rewrite f.body)
        (plan'.rewrite f'.body)) :
    Accord AnyErrors (OpensFunction limit n) (rewriteFunction plan f name)
      (rewriteFunction plan' f' name') := by
  rw [rewriteFunction, rewriteFunction, hpattern, hf.arity_eq]
  by_cases harity : f.arity = plan.pattern.length
  · rw [if_pos harity, if_pos harity]
    refine (hparams harity).bind fun qs qs' hqs _ hmoved => ?_
    refine (hresult harity).bind fun r r' _ _ hr => (hbody harity).bind fun c c' _ _ hc => .ok ?_
    have hlen : qs.length = plan.pattern.kept := rewriteParams_length f.params harity hqs
    exact ⟨hmoved, by rw [FixFunction.arity, hlen]; exact hr,
      by rw [FixFunction.arity, hlen]; exact hc⟩
  · rw [if_neg harity, if_neg harity]
    exact .error trivial

theorem rewriteFunctions_accord {fs fs' : List (FixFunction Term)} (g : Nat)
    (hfs : List.Forall₂ (OpensFunction limit n) fs fs') : ∀ {info : SpecInfo},
    (∀ (i : Nat) f f' q, fs[i]? = some f → fs'[i]? = some f' → info[i]? = some q →
      OpensFunction limit n f f' → ∀ name name', Accord AnyErrors (OpensFunction limit n)
        (rewriteFunction { plan with pattern := q } f name)
        (rewriteFunction { plan' with pattern := q } f' name')) →
    Accord AnyErrors (List.Forall₂ (OpensFunction limit n))
      (rewriteFunctions plan namer g fs info) (rewriteFunctions plan' namer' g fs' info) := by
  induction hfs generalizing g with
  | nil =>
    intro info _
    cases info <;> exact .ok .nil
  | @cons f f' fs fs' hf _ ih =>
    intro info hrewrite
    cases info with
    | nil => exact .ok .nil
    | cons q info =>
      refine (hrewrite 0 f f' q rfl rfl rfl hf _ _).bind fun h h' _ _ hh => ?_
      refine (ih (g + 1) fun i k k' q' hk hk' hq' => hrewrite (i + 1) k k' q' hk hk' hq').bind ?_
      exact fun hs hs' _ _ hhs => .ok (.cons hh hhs)

end Functions

section Replacements
variable {limit n m : Nat}

theorem keptArguments_opens {ps ps' : List (Param Term)} (hlen : ps'.length = ps.length)
    (hlimit : ps.length ≤ limit) {p : Pattern} : (keptArguments ps' p).map bare =
      (keptArguments ps p).map fun c => c.bare.bind (opening limit n) := by
  induction ps generalizing ps' p with
  | nil =>
    obtain rfl := List.length_eq_zero_iff.1 hlen
    rfl
  | cons x ps ih =>
    cases ps' with
    | nil => simp at hlen
    | cons x' ps' =>
      rw [List.length_cons, List.length_cons, Nat.add_right_cancel_iff] at hlen
      rw [List.length_cons] at hlimit
      have hrest := @ih ps' hlen (Nat.le_of_succ_le hlimit)
      cases p with
      | nil => rfl
      | cons s p =>
        cases s with
        | some slot => exact hrest
        | none =>
          rw [keptArguments, keptArguments, List.map_cons, List.map_cons, hrest, bare_var, bare_var,
            bind_var, opening_of_lt hlimit, raise_var, hlen]
          rfl

/-- The replacement of a function refers to its parameters and to the function only. -/
theorem replacement_opens {g : Nat} {f f' : FixFunction Term} {p : Pattern} {name name' : String}
    (hf : OpensFunction (limit + m) n f f') (hg : g < m) :
    Opens (limit + m) n (replacement m g f p name) (replacement m g f' p name') := by
  have harity := hf.arity_eq
  have hargs := keptArguments_opens (n := n) (p := p) harity
    (show f.params.length ≤ limit + m + f.arity from Nat.le_add_left _ _)
  have hvar : f.arity + m - 1 - g < limit + m + f.arity := by omega
  rw [Opens, replacement, replacement, bare_lambdaOver, bare_lambdaOver, bind_lambdaOver, hf.params,
    bare_applyTo, bare_applyTo, bind_applyTo, lift_opening, List.length_map, hargs, List.map_map,
    bare_var, bare_var, bind_var, harity]
  congr 2
  exact (congrArg (raise · 0) (opening_of_lt hvar)).symm

theorem replacements_opens {namer namer' : Nat → String} {fs fs' : List (FixFunction Term)}
    (hfs : List.Forall₂ (OpensFunction (limit + m) n) fs fs') : ∀ {g : Nat} {info : SpecInfo},
    g + fs.length ≤ m → List.Forall₂ (Opens (limit + m) n) (replacements m namer g fs info)
      (replacements m namer' g fs' info) := by
  induction hfs with
  | nil =>
    intro g info _
    cases info <;> exact .nil
  | cons hf _ ih =>
    intro g info hg
    rw [List.length_cons] at hg
    cases info with
    | nil => exact .nil
    | cons p info => exact .cons (replacement_opens hf (by omega)) (ih (by omega))

end Replacements
end Specialization

namespace Bundle
open Term
variable {limit n : Nat} {b b' : Bundle Term} {info : SpecInfo} {constants constants' : List Term}
  {namer namer' : Nat → String} {steps : Nat}

/-- The plans for a function of each bundle have one shape if the bundles and constants do. -/
theorem plan_alongside (steps : Nat) (info : SpecInfo) (namer namer' : Nat → String)
    (hb : Opens limit n (.fix 0 b) (.fix 0 b'))
    (hconstants : List.Forall₂ (Opens limit n) constants constants') (q : Pattern) :
    Specialization.Plan.Alongside limit n (b.plan steps info constants namer q)
      (b'.plan steps info constants' namer' q) := by
  obtain ⟨_, hfs⟩ := opens_fix_iff.1 hb
  have hsize : b'.size = b.size := hfs.length_eq.symm
  refine ⟨rfl, hsize, rfl, hconstants, ?_⟩
  rw [plan, plan, hsize]
  exact Specialization.replacements_opens hfs (Nat.le_of_eq (Nat.zero_add _))

theorem rewriteFunction_accord
    (hparts : ∀ q t t', b.Part info q t → b'.Part info q t' →
      Opens (limit + b.size + q.length) n t t' →
        Accord AnyErrors (Opens (limit + b.size + q.kept) n)
          ((b.plan steps info constants namer q).rewrite t)
          ((b'.plan steps info constants' namer' q).rewrite t'))
    {i : Nat} {f f' : FixFunction Term} {q : Pattern} (hf : b.function? i = some f)
    (hf' : b'.function? i = some f') (hq : info[i]? = some q)
    (hff : OpensFunction (limit + b.size) n f f') (name name' : String) :
    Accord AnyErrors (OpensFunction (limit + b.size) n)
      (Specialization.rewriteFunction (b.plan steps info constants namer q) f name)
      (Specialization.rewriteFunction (b'.plan steps info constants' namer' q) f' name') := by
  refine Specialization.rewriteFunction_accord (b.plan steps info constants namer q)
    (b'.plan steps info constants' namer' q) rfl hff (fun _ => ?_) (fun harity => ?_)
    fun harity => ?_
  · have hparams : f'.params.map bareParam =
        bindParams (opening (limit + b.size + ([] : Pattern).length) n)
          (f.params.map bareParam) := hff.params
    exact Specialization.rewriteParams_accord (b.plan steps info constants namer q)
      (b'.plan steps info constants' namer' q) [] hparams fun k x x' hx hx' hk hopens =>
        hparts _ _ _ (.param hf hq hx hk) (.param hf' hq hx' hk) hopens
  · exact hparts q _ _ (.result hf hq) (.result hf' hq) (harity ▸ hff.result)
  · exact hparts q _ _ (.body hf hq) (.body hf' hq) (harity ▸ hff.body)

/-- Two bundles are specialized in lockstep if their parts are rewritten so. -/
theorem specialize_accord (hb : Opens limit n (.fix 0 b) (.fix 0 b'))
    (hparts : ∀ q t t', b.Part info q t → b'.Part info q t' →
      Opens (limit + b.size + q.length) n t t' →
        Accord AnyErrors (Opens (limit + b.size + q.kept) n)
          ((b.plan steps info constants namer q).rewrite t)
          ((b'.plan steps info constants' namer' q).rewrite t')) :
    Accord AnyErrors (fun r r' => ∀ i, Opens limit n (.fix i r) (.fix i r'))
      (b.specialize steps info constants namer) (b'.specialize steps info constants' namer') := by
  obtain ⟨_, hfs⟩ := opens_fix_iff.1 hb
  have hsize : b'.size = b.size := hfs.length_eq.symm
  by_cases hlen : b.size = info.length
  · have hlen' : b'.size = info.length := hsize.trans hlen
    rw [specialize, specialize, if_pos hlen, if_pos hlen']
    have hfunctions := Specialization.rewriteFunctions_accord
      (b.plan steps info constants namer []) (b'.plan steps info constants' namer' []) namer namer'
      0 hfs fun i f f' q hf hf' hq hff name name' =>
        rewriteFunction_accord hparts hf hf' hq hff name name'
    refine hfunctions.bind fun gs gs' hgs _ hmoved => .ok fun i => opens_fix_iff.2 ⟨rfl, ?_⟩
    have hlength := Specialization.rewriteFunctions_length b.functions hlen hgs
    rw [Bundle.size, hlength]
    exact hmoved
  · have hlen' : b'.size ≠ info.length := fun h => hlen (hsize.symm.trans h)
    rw [specialize, specialize, if_neg hlen, if_neg hlen']
    exact .error trivial

end Bundle
end InductiveTerms
