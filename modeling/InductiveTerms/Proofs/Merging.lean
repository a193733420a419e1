import InductiveTerms.Proofs.Conversion
import InductiveTerms.Proofs.Nodes
import InductiveTerms.Proofs.Unfolding
import InductiveTerms.Term.Normalize

/-!
Terms that differ in grouping. `Regrouped` is the smallest congruence in which a product of a
product, a function of a function and an application of an application are the node that merges the
two. Normalization stays within it (`regrouped_flat`) and makes terms that it relates the same
(`Regrouped.same_flat`); it keeps the head of nested applications, and the parameters of nested
products one by one.
-/
namespace InductiveTerms
open Term Traversal

namespace Term

/-- Merges a node with the one inside it, if they are of one kind. -/
def flattenNode (t : Term) : Term := t.flatten?.getD t

/-- The term with every chain of nodes of one kind merged. -/
def flat (t : Term) : Term := everywhere (fun u _ => u.flattenNode) t 0

theorem flat_eq (t : Term) (d : Nat) :
    t.flat = (t.mapChildren (fun c _ => c.flat) d).flattenNode := by
  have hdepth : t.mapChildren (everywhere fun u _ => u.flattenNode) d =
      t.mapChildren (fun c _ => c.flat) d :=
    mapChildren_congr fun c _ => everywhere_depth flattenNode c.1 c.2 0
  rw [flat, everywhere_depth flattenNode t 0 d, everywhere_eq, hdepth]

section FlattenNode

theorem flattenNode_product (ps qs : List (Param Term)) (r : Term) :
    (Term.product ps (.product qs r)).flattenNode = .product (ps ++ qs) r := rfl

theorem flattenNode_lambda (ps qs : List (Param Term)) (b : Term) :
    (Term.lambda ps (.lambda qs b)).flattenNode = .lambda (ps ++ qs) b := rfl

theorem flattenNode_apply (f : Term) (as bs : Arguments Term) :
    (Term.apply (.apply f as) bs).flattenNode = .apply f (as ++ bs) := rfl

theorem flatten?_product_of_ne {ps : List (Param Term)} {r : Term} (h : r.kind ≠ .product) :
    (Term.product ps r).flatten? = none := by
  cases r <;> first | rfl | exact absurd rfl h

theorem flatten?_lambda_of_ne {ps : List (Param Term)} {b : Term} (h : b.kind ≠ .lambda) :
    (Term.lambda ps b).flatten? = none := by
  cases b <;> first | rfl | exact absurd rfl h

theorem flatten?_apply_of_ne {f : Term} {as : Arguments Term} (h : f.kind ≠ .apply) :
    (Term.apply f as).flatten? = none := by
  cases f <;> first | rfl | exact absurd rfl h

theorem flattenNode_product_of_ne {ps : List (Param Term)} {r : Term} (h : r.kind ≠ .product) :
    (Term.product ps r).flattenNode = .product ps r := by
  rw [flattenNode, flatten?_product_of_ne h]
  rfl

theorem flattenNode_lambda_of_ne {ps : List (Param Term)} {b : Term} (h : b.kind ≠ .lambda) :
    (Term.lambda ps b).flattenNode = .lambda ps b := by
  rw [flattenNode, flatten?_lambda_of_ne h]
  rfl

theorem flattenNode_apply_of_ne {f : Term} {as : Arguments Term} (h : f.kind ≠ .apply) :
    (Term.apply f as).flattenNode = .apply f as := by
  rw [flattenNode, flatten?_apply_of_ne h]
  rfl

theorem eq_lambda_or_kind_ne (t : Term) : (∃ ps b, t = .lambda ps b) ∨ t.kind ≠ .lambda := by
  cases t with
  | lambda ps b => exact .inl ⟨ps, b, rfl⟩
  | _ => exact .inr (by simp [kind])

theorem kind_flattenNode (t : Term) : t.flattenNode.kind = t.kind := by
  unfold flattenNode flatten?
  split <;> rfl

theorem flattenNode_bare (t : Term) : t.flattenNode.bare = t.bare.flattenNode := by
  cases t with
  | product ps r =>
    rcases r.eq_product_or_kind_ne with ⟨qs, s, rfl⟩ | hr
    · simp [flattenNode_product]
    · rw [flattenNode_product_of_ne hr, bare_product, flattenNode_product_of_ne (by simpa)]
  | lambda ps b =>
    rcases b.eq_lambda_or_kind_ne with ⟨qs, c, rfl⟩ | hb
    · simp [flattenNode_lambda]
    · rw [flattenNode_lambda_of_ne hb, bare_lambda, flattenNode_lambda_of_ne (by simpa)]
  | apply f as =>
    rcases f.eq_apply_or_kind_ne with ⟨g, bs, rfl⟩ | hf
    · simp [flattenNode_apply]
    · rw [flattenNode_apply_of_ne hf, bare_apply, flattenNode_apply_of_ne (by simpa)]
  | var x i => rfl
  | global x => rfl
  | univ u => rfl
  | letIn x v t b => simp [flattenNode, flatten?]
  | cast t k ty => simp [flattenNode, flatten?]
  | caseOf p s bs => simp [flattenNode, flatten?]
  | fix i b => simp [flattenNode, flatten?]

end FlattenNode

theorem kind_flat (t : Term) : t.flat.kind = t.kind := by
  rw [flat_eq t 0, kind_flattenNode, kind_mapChildren]

theorem bare_flat (t : Term) : t.flat.bare = t.bare.flat := by
  induction t using induct_children with
  | node t ih =>
    have hchildren : (t.mapChildren (fun c _ => c.flat.bare) 0).bareNode =
        (t.mapChildren (fun c _ => c.bare.flat) 0).bareNode :=
      bareNode_congr_of_children fun c hc => ih 0 c hc
    rw [flat_eq t 0, flattenNode_bare, bare_eq _ 0, mapChildren_mapChildren, hchildren,
      bare_eq t 0, flat_eq _ 0, ← bareNode_mapChildren, mapChildren_mapChildren]

theorem bare_normalize (t : Term) : t.normalize.bare = t.flat.bare := by
  have hvisit : ∀ (t : Term) (d : Nat),
      ((visit (normalizer (m := Id)) unshared t d).getD t).bare = t.flat.bare := by
    intro t
    induction t using induct_children with
    | node t ih =>
      intro d
      obtain ⟨u, o, hu, ho, hr⟩ := visit_returns
        (returns_id.2 (rfl : visit (normalizer (m := Id)) unshared t d = _))
      obtain rfl := returns_id.1 ho
      have hchildren : Rebuilt (fun c _ w => w.bare = c.flat.bare) t d u :=
        hu.imp fun c hc w hw => by
          obtain ⟨r, hr, rfl⟩ := hw
          obtain rfl := returns_id.1 hr
          exact ih d c hc c.2
      have hu' : u.bare = (t.mapChildren (fun c _ => c.flat) d).bare := by
        rw [hchildren.bare_eq, bare_eq _ d, mapChildren_mapChildren]
      rw [hr, flat_eq t d, flattenNode_bare, ← hu', ← flattenNode_bare]
      rfl
  exact hvisit t 0

section Equations

def flatParam (p : Param Term) : Param Term := ⟨p.name, p.type.flat⟩

theorem flat_product (ps : List (Param Term)) (r : Term) :
    (Term.product ps r).flat = (Term.product (ps.map flatParam) r.flat).flattenNode := by
  rw [flat_eq _ 0]
  simp only [mapChildren, mapParamTypes_const]
  rfl

theorem flat_lambda (ps : List (Param Term)) (b : Term) :
    (Term.lambda ps b).flat = (Term.lambda (ps.map flatParam) b.flat).flattenNode := by
  rw [flat_eq _ 0]
  simp only [mapChildren, mapParamTypes_const]
  rfl

theorem flat_apply (f : Term) (as : Arguments Term) :
    (Term.apply f as).flat = (Term.apply f.flat (as.map flat)).flattenNode := flat_eq _ 0

theorem flat_letIn (x : Option String) (v t b : Term) :
    (Term.letIn x v t b).flat = .letIn x v.flat t.flat b.flat := flat_eq _ 0

theorem flat_cast (t : Term) (k : CastKind) (ty : Term) :
    (Term.cast t k ty).flat = .cast t.flat k ty.flat := flat_eq _ 0

theorem flat_caseOf (p s : Term) (bs : List (Branch Term)) :
    (Term.caseOf p s bs).flat =
      .caseOf p.flat s.flat (bs.map fun b => ⟨b.constructor, b.arity, b.body.flat⟩) := flat_eq _ 0

theorem flat_fix (i : Nat) (b : Bundle Term) :
    (Term.fix i b).flat = .fix i ⟨b.label, b.functions.map fun f =>
      ⟨f.name, f.params.map flatParam, f.result.flat, f.body.flat⟩⟩ := by
  rw [flat_eq _ 0]
  simp only [mapChildren, mapFunction, mapParamTypes_const]
  rfl

end Equations

/-! Merging nested nodes of one kind and flattening gives what flattening gives. -/

theorem flat_product_product (ps qs : List (Param Term)) (r : Term) :
    (Term.product ps (.product qs r)).flat = (Term.product (ps ++ qs) r).flat := by
  rw [flat_product, flat_product, flat_product, List.map_append]
  rcases r.flat.eq_product_or_kind_ne with ⟨rs, s, hr⟩ | hr
  · rw [hr, flattenNode_product, flattenNode_product, flattenNode_product, List.append_assoc]
  · rw [flattenNode_product_of_ne hr, flattenNode_product, flattenNode_product_of_ne hr]

theorem flat_lambda_lambda (ps qs : List (Param Term)) (b : Term) :
    (Term.lambda ps (.lambda qs b)).flat = (Term.lambda (ps ++ qs) b).flat := by
  rw [flat_lambda, flat_lambda, flat_lambda, List.map_append]
  rcases b.flat.eq_lambda_or_kind_ne with ⟨rs, c, hb⟩ | hb
  · rw [hb, flattenNode_lambda, flattenNode_lambda, flattenNode_lambda, List.append_assoc]
  · rw [flattenNode_lambda_of_ne hb, flattenNode_lambda, flattenNode_lambda_of_ne hb]

theorem flat_apply_apply (f : Term) (as bs : Arguments Term) :
    (Term.apply (.apply f as) bs).flat = (Term.apply f (as ++ bs)).flat := by
  rw [flat_apply, flat_apply, flat_apply, Arguments.map_append]
  rcases f.flat.eq_apply_or_kind_ne with ⟨g, cs, hf⟩ | hf
  · rw [hf, flattenNode_apply, flattenNode_apply, flattenNode_apply, Arguments.append_assoc]
  · rw [flattenNode_apply_of_ne hf, flattenNode_apply, flattenNode_apply_of_ne hf]

theorem flat_flattenNode (t : Term) : t.flattenNode.flat = t.flat := by
  cases t with
  | product ps r =>
    rcases r.eq_product_or_kind_ne with ⟨qs, s, rfl⟩ | hr
    · rw [flattenNode_product, flat_product_product]
    · rw [flattenNode_product_of_ne hr]
  | lambda ps b =>
    rcases b.eq_lambda_or_kind_ne with ⟨qs, c, rfl⟩ | hb
    · rw [flattenNode_lambda, flat_lambda_lambda]
    · rw [flattenNode_lambda_of_ne hb]
  | apply f bs =>
    rcases f.eq_apply_or_kind_ne with ⟨g, as, rfl⟩ | hf
    · rw [flattenNode_apply, flat_apply_apply]
    · rw [flattenNode_apply_of_ne hf]
  | _ => rfl

end Term

/-- The rules by which nested nodes of one kind merge. -/
inductive Merging : Term → Term → Prop
  | product {ps qs : List (Param Term)} {r : Term} :
      Merging (.product ps (.product qs r)) (.product (ps ++ qs) r)
  | lambda {ps qs : List (Param Term)} {b : Term} :
      Merging (.lambda ps (.lambda qs b)) (.lambda (ps ++ qs) b)
  | apply {f : Term} {as bs : Arguments Term} :
      Merging (.apply (.apply f as) bs) (.apply f (as ++ bs))

/-- The smallest congruence in which nested nodes of one kind merge. -/
abbrev Regrouped : Term → Term → Prop := Convertible Merging

theorem Merging.bind {t u : Term} (h : Merging t u) (σ : Nat → Term) :
    Merging (t.bind σ) (u.bind σ) := by
  cases h with
  | @product ps qs r =>
    rw [bind_product, bind_product, bind_product, lift_lift, bindParams_append, List.length_append,
      Nat.add_comm qs.length]
    exact .product
  | @lambda ps qs b =>
    rw [bind_lambda, bind_lambda, bind_lambda, lift_lift, bindParams_append, List.length_append,
      Nat.add_comm qs.length]
    exact .lambda
  | apply =>
    rw [bind_apply, bind_apply, bind_apply, Arguments.map_append]
    exact .apply

namespace Regrouped
variable {t u : Term}

theorem bind (h : Regrouped t u) (σ : Nat → Term) : Regrouped (t.bind σ) (u.bind σ) :=
  h.bind_of_rules (fun _ _ σ h => .rule (h.bind σ)) σ

theorem raise (h : Regrouped t u) (n : Nat) : Regrouped (t.raise n) (u.raise n) := by
  rw [raise_eq_bind, raise_eq_bind]
  exact h.bind _

end Regrouped

theorem regrouped_flattenNode (t : Term) : Regrouped t t.flattenNode := by
  cases t with
  | product ps r =>
    rcases r.eq_product_or_kind_ne with ⟨qs, s, rfl⟩ | hr
    · exact .rule .product
    · rw [flattenNode_product_of_ne hr]
      exact .refl _
  | lambda ps b =>
    rcases b.eq_lambda_or_kind_ne with ⟨qs, c, rfl⟩ | hb
    · exact .rule .lambda
    · rw [flattenNode_lambda_of_ne hb]
      exact .refl _
  | apply f bs =>
    rcases f.eq_apply_or_kind_ne with ⟨g, as, rfl⟩ | hf
    · exact .rule .apply
    · rw [flattenNode_apply_of_ne hf]
      exact .refl _
  | _ => exact .refl _

theorem regrouped_flat (t : Term) : Regrouped t t.flat := by
  induction t using induct_children with
  | node t ih =>
    have hmap : Rebuilt (fun c _ w => Regrouped c w) (t.mapChildren (fun c _ => c) 0) 0
        (t.mapChildren (fun c _ => c.flat) 0) :=
      .of_children fun c hc => ih 0 c hc
    rw [mapChildren_id] at hmap
    rw [Term.flat_eq t 0]
    exact (Convertible.node hmap).trans (regrouped_flattenNode _)

theorem regrouped_of_flat {t u : Term} (hu : u.bare = t.flat.bare) : Regrouped t u :=
  (regrouped_flat t).trans (.same hu.symm)

/-- Terms that differ in grouping only are the same when they are flat. -/
theorem Regrouped.same_flat {t u : Term} (h : Regrouped t u) : t.flat.bare = u.flat.bare := by
  refine h (fun t u => t.flat.bare = u.flat.bare) ⟨?_, Eq.symm, Eq.trans, ?_⟩ ?_
  · intro t u htu
    rw [bare_flat, bare_flat, htu]
  · intro t u d htu
    have hmap : Rebuilt (fun c _ w => w.bare = c.bare) (t.mapChildren (fun c _ => c.flat) d) d
        (u.mapChildren (fun c _ => c.flat) d) :=
      htu.map fun c _ w hw => hw.symm
    rw [flat_eq t d, flat_eq u d, flattenNode_bare, flattenNode_bare, hmap.bare_eq, ← bare_eq]
  · intro t u htu
    cases htu with
    | product => rw [flat_product_product]
    | lambda => rw [flat_lambda_lambda]
    | apply => rw [flat_apply_apply]

section Heads

theorem Term.Rebuilt.kind_eq {R : Term → Nat → Term → Prop} {t u : Term} {d : Nat}
    (h : Rebuilt R t d u) : u.kind = t.kind := by
  cases h <;> rfl

theorem Term.Rebuilt.asGlobal?_eq {R : Term → Nat → Term → Prop} {t u : Term} {d : Nat}
    (h : Rebuilt R t d u) : u.asGlobal? = t.asGlobal? := by
  cases h <;> rfl

theorem Term.asUniv?_bare (t : Term) : t.bare.asUniv? = t.asUniv? := by
  cases t <;> simp [asUniv?]

/-- Regrouping keeps the kind of the head of nested applications, and its name. -/
theorem Regrouped.head_eq {t u : Term} (h : Regrouped t u) :
    t.unfoldApps.1.kind = u.unfoldApps.1.kind ∧
      t.unfoldApps.1.asGlobal? = u.unfoldApps.1.asGlobal? := by
  refine h (fun t u => t.unfoldApps.1.kind = u.unfoldApps.1.kind ∧
    t.unfoldApps.1.asGlobal? = u.unfoldApps.1.asGlobal?) ⟨?_, ?_, ?_, ?_⟩ ?_
  · intro t u htu
    have hhead : t.unfoldApps.1.bare = u.unfoldApps.1.bare := by
      have hunfold := congrArg unfoldApps htu
      rw [unfoldApps_bare, unfoldApps_bare, Prod.mk.injEq] at hunfold
      exact hunfold.1
    rw [← kind_bare, hhead, kind_bare, ← asGlobal?_bare, hhead, asGlobal?_bare]
    exact ⟨rfl, rfl⟩
  · intro t u htu
    exact ⟨htu.1.symm, htu.2.symm⟩
  · intro t u v htu huv
    exact ⟨htu.1.trans huv.1, htu.2.trans huv.2⟩
  · intro t u d htu
    rcases t.eq_apply_or_kind_ne with ⟨f, as, rfl⟩ | ht
    · cases htu with
      | apply hf _ =>
        rw [unfoldApps_apply, unfoldApps_apply]
        exact hf
    · rw [unfoldApps_eq_self ht, unfoldApps_eq_self (by rwa [htu.kind_eq])]
      exact ⟨htu.kind_eq.symm, htu.asGlobal?_eq.symm⟩
  · intro t u htu
    cases htu with
    | product => exact ⟨rfl, rfl⟩
    | lambda => exact ⟨rfl, rfl⟩
    | apply => rw [unfoldApps_apply, unfoldApps_apply, unfoldApps_apply]; exact ⟨rfl, rfl⟩

end Heads

section Products

theorem Term.RebuiltParams.drop {R : Term → Nat → Term → Prop} {ps ps' : List (Param Term)}
    {d : Nat} (h : RebuiltParams R ps d ps') :
    ∀ n, RebuiltParams R (ps.drop n) (d + n) (ps'.drop n) := by
  induction h with
  | nil =>
    intro n
    rw [List.drop_nil]
    exact .nil
  | @cons x t t' ps ps' d ht hps ih =>
    intro n
    cases n with
    | zero => exact .cons ht hps
    | succ n =>
      have hdrop := ih n
      rwa [Nat.add_right_comm] at hdrop

theorem Convertible.productOver {R : Term → Term → Prop} {ps ps' : List (Param Term)}
    {r r' : Term} {d : Nat} (hps : RebuiltParams (fun c _ w => Convertible R c w) ps d ps')
    (hr : Convertible R r r') : Convertible R (productOver ps r) (productOver ps' r') := by
  cases hps with
  | nil => exact hr
  | cons ht hps => exact .node (.product (.cons ht hps) hr)

theorem regrouped_productOver_append (ps qs : List (Param Term)) (r : Term) :
    Regrouped (productOver ps (productOver qs r)) (productOver (ps ++ qs) r) := by
  cases ps with
  | nil => exact .refl _
  | cons p ps =>
    cases qs with
    | nil =>
      rw [List.append_nil]
      exact .refl _
    | cons q qs => exact .rule .product

theorem residual_product (ps : List (Param Term)) (r : Term) (n : Nat) :
    Regrouped ((Term.product ps r).residual n)
      (productOver (ps.drop n) (r.residual (n - ps.length))) := by
  rw [Term.residual, Term.residual, unfoldProducts_product, List.drop_append]
  exact (regrouped_productOver_append _ _ _).symm

/-- What is left of a type after some arguments does not depend on its grouping. -/
theorem Regrouped.residual {t u : Term} (h : Regrouped t u) :
    t.unfoldProducts.1.length = u.unfoldProducts.1.length ∧
      ∀ n, Regrouped (t.residual n) (u.residual n) := by
  refine (h (fun t u => Regrouped t u ∧ t.unfoldProducts.1.length = u.unfoldProducts.1.length ∧
    ∀ n, Regrouped (t.residual n) (u.residual n)) ⟨?_, ?_, ?_, ?_⟩ ?_).2
  · intro t u htu
    have hunfold := congrArg unfoldProducts htu
    rw [unfoldProducts_bare, unfoldProducts_bare, Prod.mk.injEq] at hunfold
    refine ⟨.same htu, by simpa using congrArg List.length hunfold.1, fun n => .same ?_⟩
    rw [Term.residual, Term.residual, bare_productOver, bare_productOver, List.map_drop,
      List.map_drop, hunfold.1, hunfold.2]
  · intro t u htu
    exact ⟨htu.1.symm, htu.2.1.symm, fun n => (htu.2.2 n).symm⟩
  · intro t u v htu huv
    exact ⟨htu.1.trans huv.1, htu.2.1.trans huv.2.1, fun n => (htu.2.2 n).trans (huv.2.2 n)⟩
  · intro t u d htu
    have hnode : Regrouped t u := .node (htu.imp fun _ _ _ hw => hw.1)
    rcases t.eq_product_or_kind_ne with ⟨ps, r, rfl⟩ | ht
    · cases htu with
      | @product _ ps' _ r' _ hps hr =>
        refine ⟨hnode, ?_, fun n => ?_⟩
        · rw [unfoldProducts_product, unfoldProducts_product, List.length_append,
            List.length_append, hps.length_eq, hr.2.1]
        · have hparams : RebuiltParams (fun c _ w => Regrouped c w) ps d ps' :=
            hps.imp fun _ _ _ hw => hw.1
          refine (residual_product ps r n).trans (.trans ?_ (residual_product ps' r' n).symm)
          rw [hps.length_eq]
          exact .productOver (hparams.drop n) (hr.2.2 _)
    · have hu : u.kind ≠ .product := by rwa [htu.kind_eq]
      refine ⟨hnode, ?_, fun n => ?_⟩
      · rw [unfoldProducts_eq_self ht, unfoldProducts_eq_self hu]
      · rw [Term.residual, Term.residual, unfoldProducts_eq_self ht, unfoldProducts_eq_self hu,
          List.drop_nil]
        exact hnode
  · intro t u htu
    refine ⟨.rule htu, ?_, fun n => ?_⟩
    · cases htu with
      | product =>
        rw [unfoldProducts_product, unfoldProducts_product, unfoldProducts_product,
          List.append_assoc]
      | lambda => rfl
      | apply => rfl
    · cases htu with
      | product =>
        rw [Term.residual, Term.residual, unfoldProducts_product, unfoldProducts_product,
          unfoldProducts_product, List.append_assoc]
        exact .refl _
      | lambda =>
        rw [Term.residual, Term.residual, unfoldProducts_eq_self (by simp [kind]),
          unfoldProducts_eq_self (by simp [kind]), List.drop_nil]
        exact .rule .lambda
      | apply =>
        rw [Term.residual, Term.residual, unfoldProducts_eq_self (by simp [kind]),
          unfoldProducts_eq_self (by simp [kind]), List.drop_nil]
        exact .rule .apply

/-- If the term is a product, there is a parameter among those of the nested products. -/
def HasParameters (t : Term) : Prop := t.kind = .product → 0 < t.unfoldProducts.1.length

instance : DecidablePred HasParameters := fun t =>
  inferInstanceAs (Decidable (t.kind = .product → 0 < t.unfoldProducts.1.length))

theorem regrouped_product (ps : List (Param Term)) (r : Term) :
    Regrouped (.product ps r) (.product (ps ++ r.unfoldProducts.1) r.unfoldProducts.2) := by
  induction r using induct_children generalizing ps with
  | node r ih =>
    rcases r.eq_product_or_kind_ne with ⟨qs, s, rfl⟩ | hr
    · have hs := ih 0 (s, 0 + qs.length) (by simp [children]) (ps ++ qs)
      rw [unfoldProducts_product, ← List.append_assoc]
      exact (Convertible.rule .product).trans hs
    · rw [unfoldProducts_eq_self hr, List.append_nil]
      exact .refl _

theorem regrouped_residual_zero {t : Term} (h : HasParameters t) : Regrouped (t.residual 0) t := by
  rw [Term.residual, List.drop_zero]
  rcases t.eq_product_or_kind_ne with ⟨ps, r, rfl⟩ | ht
  · have hparams := h rfl
    rw [unfoldProducts_product] at hparams ⊢
    cases hps : ps ++ r.unfoldProducts.1 with
    | nil =>
      rw [hps] at hparams
      exact absurd hparams (Nat.lt_irrefl 0)
    | cons p rest =>
      have hproduct := regrouped_product ps r
      rw [hps] at hproduct
      exact hproduct.symm
  · rw [unfoldProducts_eq_self ht]
    exact .refl _

theorem HasParameters.var (x : String) (i : Nat) : HasParameters (.var x i) := nofun

theorem HasParameters.raise {t : Term} (h : HasParameters t) (n : Nat) :
    HasParameters (t.raise n) := by
  have hopening : t.raise n = t.bind (opening 0 n) := raise_eq_bind t n
  intro hkind
  rw [hopening, kind_bind_opening] at hkind
  rw [hopening, unfoldProducts_bind_opening, length_bindParams]
  exact h hkind

theorem HasParameters.bind {t : Term} {σ : Nat → Term} (ht : t.kind ≠ .product)
    (hσ : ∀ j, HasParameters (σ j)) : HasParameters (t.bind σ) := by
  rcases t.eq_var_or_asVar?_eq_none with ⟨x, i, rfl⟩ | hvar
  · exact (hσ i).raise 0
  · intro hkind
    rw [kind_bind hvar] at hkind
    exact absurd hkind ht

theorem HasParameters.lift {σ : Nat → Term} (hσ : ∀ j, HasParameters (σ j)) (n j : Nat) :
    HasParameters (Term.lift n σ j) := by
  rcases Nat.lt_or_ge j n with h | h
  · rw [lift_of_lt h]
    exact .var _ _
  · rw [lift_of_le h]
    exact (hσ _).raise n

theorem HasParameters.instantiation {subs : List Term} (h : ∀ a ∈ subs, HasParameters a)
    (j : Nat) : HasParameters (Term.instantiation subs j) := by
  rcases Nat.lt_or_ge j subs.length with hj | hj
  · rw [instantiation_of_lt hj]
    exact h _ (List.getElem_mem hj)
  · rw [instantiation_of_le hj]
    exact .var _ _

/-- What is left of a product over parameters does not depend on where its result ends, unless
there are no such parameters and the result is a product without any. -/
theorem regrouped_productOver_residual {ps : List (Param Term)} {r : Term}
    (h : ps = [] → HasParameters r) :
    Regrouped (productOver ps (r.residual 0)) (productOver ps r) := by
  cases ps with
  | nil => exact regrouped_residual_zero (h rfl)
  | cons p ps =>
    refine (regrouped_productOver_append _ _ _).trans ?_
    exact (regrouped_product (p :: ps) r).symm

/-- Parameters are counted before terms are put in; what terms that are put in add to them comes
after those that were there. -/
theorem residual_bind {F : Term} {σ : Nat → Term} {m k : Nat}
    (hk : m + k ≤ F.unfoldProducts.1.length)
    (hresult : F.unfoldProducts.1.length = m + k →
      HasParameters (F.unfoldProducts.2.bind (lift k σ))) :
    Regrouped (((F.residual m).bind σ).residual k) ((F.residual (m + k)).bind (lift k σ)) := by
  have hlen : k ≤ (bindParams σ (F.unfoldProducts.1.drop m)).length := by
    rw [length_bindParams, List.length_drop]
    omega
  have hright : (F.residual (m + k)).bind (Term.lift k σ) = productOver
      ((bindParams σ (F.unfoldProducts.1.drop m)).drop k)
      (F.unfoldProducts.2.bind (Term.lift (F.unfoldProducts.1.drop m).length σ)) := by
    have hsum : (F.unfoldProducts.1.drop (m + k)).length + k =
        (F.unfoldProducts.1.drop m).length := by
      rw [List.length_drop, List.length_drop]
      omega
    rw [Term.residual, bind_productOver, lift_lift, hsum, bindParams_drop, List.drop_drop]
  rw [hright, Term.residual, Term.residual, bind_productOver, unfoldProducts_productOver,
    List.drop_append_of_le_length hlen]
  refine (regrouped_productOver_append _ _ _).symm.trans (regrouped_productOver_residual ?_)
  intro hnone
  have hcount := List.drop_eq_nil_iff.1 hnone
  rw [length_bindParams, List.length_drop] at hcount
  have hk' : (F.unfoldProducts.1.drop m).length = k := by
    rw [List.length_drop]
    omega
  rw [hk']
  exact hresult (by omega)

end Products

/-- What is put for variables may be regrouped, and what it is put into. -/
theorem Regrouped.bind_instantiation {t u : Term} {subs subs' : List Term} (h : Regrouped t u)
    (hsubs : List.Forall₂ Regrouped subs subs') :
    Regrouped (t.bind (instantiation subs)) (u.bind (instantiation subs')) := by
  have hat : ∀ j, Regrouped (instantiation subs j) (instantiation subs' j) := by
    intro j
    rcases Nat.lt_or_ge j subs.length with hj | hj
    · have hj' : j < subs'.length := by rwa [← hsubs.length_eq]
      rw [instantiation_of_lt hj, instantiation_of_lt hj']
      exact hsubs.get hj hj'
    · rw [instantiation_of_le hj, instantiation_of_le (by rwa [← hsubs.length_eq]),
        hsubs.length_eq]
      exact .refl _
  exact (h.bind _).trans (.bind_free fun o _ _ => (hat _).raise o.2)

end InductiveTerms
