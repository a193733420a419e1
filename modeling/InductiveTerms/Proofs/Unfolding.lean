import InductiveTerms.Proofs.TypingRules
import InductiveTerms.Proofs.Window

/-!
Nested products and nested applications, unfolded. The parameters and the result of nested products
and the head and the arguments of nested applications are those of the bare term, and of the term
in which variables have been moved, up to what has been done to the term.
-/
namespace InductiveTerms
open Term

namespace Term
variable {limit n : Nat}

theorem raise_bind_opening (t : Term) (k : Nat) :
    (t.bind (opening limit n)).raise k = (t.raise k).bind (opening (limit + k) n) := by
  rw [← raise_bind, lift_opening]

@[simp] theorem kind_bare (t : Term) : t.bare.kind = t.kind := by
  cases t <;> simp [kind]

@[simp] theorem asGlobal?_bare (t : Term) : t.bare.asGlobal? = t.asGlobal? := by
  cases t <;> simp [asGlobal?]

theorem kind_bind {t : Term} (ht : t.asVar? = none) (σ : Nat → Term) :
    (t.bind σ).kind = t.kind := by
  rw [bind_eq ht, kind_mapChildren]

theorem kind_bind_opening (t : Term) : (t.bind (opening limit n)).kind = t.kind := by
  rcases t.eq_var_or_asVar?_eq_none with ⟨x, i, rfl⟩ | ht
  · rfl
  · exact kind_bind ht _

theorem asGlobal?_bind_opening (t : Term) :
    (t.bind (opening limit n)).asGlobal? = t.asGlobal? := by
  rcases t.eq_var_or_asVar?_eq_none with ⟨x, i, rfl⟩ | ht
  · rfl
  · rw [bind_eq ht]
    cases t <;> rfl

theorem eq_product_or_kind_ne (t : Term) : (∃ ps r, t = .product ps r) ∨ t.kind ≠ .product := by
  cases t with
  | product ps r => exact .inl ⟨ps, r, rfl⟩
  | _ => exact .inr (by simp [kind])

theorem eq_apply_or_kind_ne (t : Term) : (∃ f as, t = .apply f as) ∨ t.kind ≠ .apply := by
  cases t with
  | apply f as => exact .inl ⟨f, as, rfl⟩
  | _ => exact .inr (by simp [kind])

theorem unfoldProducts_eq_self {t : Term} (h : t.kind ≠ .product) : t.unfoldProducts = ([], t) := by
  cases t <;> first | rfl | exact absurd rfl h

theorem unfoldApps_eq_self {t : Term} (h : t.kind ≠ .apply) : t.unfoldApps = (t, []) := by
  cases t <;> first | rfl | exact absurd rfl h

/-- The result of nested products is no product. -/
theorem kind_unfoldProducts_ne (t : Term) : t.unfoldProducts.2.kind ≠ .product := by
  induction t using induct_children with
  | node t ih =>
    rcases t.eq_product_or_kind_ne with ⟨ps, r, rfl⟩ | ht
    · rw [unfoldProducts_product]
      exact ih 0 (r, 0 + ps.length) (by simp [children])
    · rwa [unfoldProducts_eq_self ht]

theorem unfoldProducts_bare (t : Term) :
    t.bare.unfoldProducts = (t.unfoldProducts.1.map bareParam, t.unfoldProducts.2.bare) := by
  induction t using induct_children with
  | node t ih =>
    rcases t.eq_product_or_kind_ne with ⟨ps, r, rfl⟩ | ht
    · have hr := ih 0 (r, 0 + ps.length) (by simp [children])
      rw [bare_product, unfoldProducts_product, unfoldProducts_product, hr, List.map_append]
    · rw [unfoldProducts_eq_self (by rwa [kind_bare]), unfoldProducts_eq_self ht, List.map_nil]

theorem unfoldApps_bare (t : Term) :
    t.bare.unfoldApps = (t.unfoldApps.1.bare, t.unfoldApps.2.map bare) := by
  induction t using induct_children with
  | node t ih =>
    rcases t.eq_apply_or_kind_ne with ⟨f, as, rfl⟩ | ht
    · have hf := ih 0 (f, 0) (by simp [children])
      rw [bare_apply, unfoldApps_apply, unfoldApps_apply, hf, Arguments.toList_map, List.map_append]
    · rw [unfoldApps_eq_self (by rwa [kind_bare]), unfoldApps_eq_self ht, List.map_nil]

theorem unfoldProducts_bind_opening (t : Term) :
    ∀ limit, (t.bind (opening limit n)).unfoldProducts =
      (bindParams (opening limit n) t.unfoldProducts.1,
        t.unfoldProducts.2.bind (opening (limit + t.unfoldProducts.1.length) n)) := by
  induction t using induct_children with
  | node t ih =>
    intro limit
    rcases t.eq_product_or_kind_ne with ⟨ps, r, rfl⟩ | ht
    · have hr := ih 0 (r, 0 + ps.length) (by simp [children]) (limit + ps.length)
      rw [bind_product, lift_opening, unfoldProducts_product, unfoldProducts_product, hr,
        bindParams_append, lift_opening, List.length_append, Nat.add_assoc]
    · rw [unfoldProducts_eq_self (by rwa [kind_bind_opening]), unfoldProducts_eq_self ht]
      rfl

theorem unfoldApps_bind_opening (t : Term) (limit n : Nat) :
    (t.bind (opening limit n)).unfoldApps =
      (t.unfoldApps.1.bind (opening limit n),
        t.unfoldApps.2.map (·.bind (opening limit n))) := by
  induction t using induct_children with
  | node t ih =>
    rcases t.eq_apply_or_kind_ne with ⟨f, as, rfl⟩ | ht
    · have hf := ih 0 (f, 0) (by simp [children])
      rw [bind_apply, unfoldApps_apply, unfoldApps_apply, hf, Arguments.toList_map, List.map_append]
    · rw [unfoldApps_eq_self (by rwa [kind_bind_opening]), unfoldApps_eq_self ht]
      rfl

theorem length_eq_of_bindParams {σ : Nat → Term} {ps ps' : List (Param Term)}
    (h : ps'.map bareParam = bindParams σ (ps.map bareParam)) : ps'.length = ps.length := by
  have hlen := congrArg List.length h
  rwa [List.length_map, length_bindParams, List.length_map] at hlen

theorem bare_productOver (ps : List (Param Term)) (r : Term) :
    (productOver ps r).bare = productOver (ps.map bareParam) r.bare := by
  cases ps <;> simp [productOver]

end Term

theorem mayBeInductive_eq (ctx : Context) (type : Term) :
    ctx.mayBeInductive type = match type.unfoldApps.1.asGlobal? with
      | some x => (ctx.isInductive? x).getD true
      | none => !([.univ, .product, .lambda] : List Kind).contains type.unfoldApps.1.kind := by
  rw [Context.mayBeInductive]
  cases type.unfoldApps.1 <;> rfl

end InductiveTerms
