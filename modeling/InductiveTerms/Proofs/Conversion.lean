import InductiveTerms.Proofs.Substitution

/-!
Convertible terms. `Convertible R` is the smallest congruence, up to display, that contains the
rules `R`. The rules of interest contract: a function applied to arguments, a let, a cast, and a
match that is applied, the arguments of which move into the branches; the other ones regroup the
arguments of nested applications as well. Conversion is kept by binding (`Convertible.bind`).
-/
namespace InductiveTerms
open Term

/-- An equivalence that takes no notice of display and is kept by every node. -/
structure Congruence (S : Term → Term → Prop) : Prop where
  same {t u : Term} : t.bare = u.bare → S t u
  symm {t u : Term} : S t u → S u t
  trans {t u v : Term} : S t u → S u v → S t v
  node {t u : Term} {d : Nat} : Rebuilt (fun c _ w => S c w) t d u → S t u

/-- The smallest congruence that contains the rules. -/
def Convertible (R : Term → Term → Prop) (t u : Term) : Prop :=
  ∀ S, Congruence S → (∀ t u, R t u → S t u) → S t u

namespace Convertible
variable {R : Term → Term → Prop} {t u v : Term}

theorem rule (h : R t u) : Convertible R t u := fun _ _ hR => hR t u h

theorem same (h : t.bare = u.bare) : Convertible R t u := fun _ hS _ => hS.same h

theorem refl (t : Term) : Convertible R t t := same rfl

theorem symm (h : Convertible R t u) : Convertible R u t := fun S hS hR => hS.symm (h S hS hR)

theorem trans (h : Convertible R t u) (h' : Convertible R u v) : Convertible R t v :=
  fun S hS hR => hS.trans (h S hS hR) (h' S hS hR)

theorem node {d : Nat} (h : Rebuilt (fun c _ w => Convertible R c w) t d u) : Convertible R t u :=
  fun S hS hR => hS.node (h.imp fun _ _ _ hw => hw S hS hR)

theorem congruence : Congruence (Convertible R) := ⟨same, symm, trans, node⟩

theorem mono {R' : Term → Term → Prop} (hR : ∀ t u, R t u → R' t u) (h : Convertible R t u) :
    Convertible R' t u := fun S hS hR' => h S hS fun t u htu => hR' t u (hR t u htu)

section Nodes

theorem apply {f f' : Term} {as as' : Arguments Term} (hf : Convertible R f f')
    (has : List.Forall₂ (Convertible R) as.toList as'.toList) :
    Convertible R (.apply f as) (.apply f' as') :=
  node (d := 0) (.apply hf has)

theorem applyTo {f f' : Term} {as as' : List Term} (hf : Convertible R f f')
    (has : List.Forall₂ (Convertible R) as as') :
    Convertible R (f.applyTo as) (f'.applyTo as') := by
  cases has with
  | nil => exact hf
  | cons ha has => exact apply hf (.cons ha has)

theorem forall₂_refl (as : List Term) : List.Forall₂ (Convertible R) as as :=
  List.forall₂_same.2 fun a _ => refl a

/-- Terms put for variables may be converted at every occurrence. -/
theorem mapVars {f g : Nat → Nat → Term} (t : Term) :
    ∀ {d}, (∀ o ∈ t.occurrences d, Convertible R (f o.1 o.2) (g o.1 o.2)) →
      Convertible R (Term.mapVars f t d) (Term.mapVars g t d) := by
  induction t using induct_children with
  | node t ih =>
    intro d h
    rcases t.eq_var_or_asVar?_eq_none with ⟨x, i, rfl⟩ | ht
    · exact h (i, d) (List.mem_singleton.2 rfl)
    · rw [mapVars_eq ht, mapVars_eq ht]
      refine node (.of_children fun c hc => ?_)
      exact ih d c hc fun o ho => h o ((mem_occurrences_iff ht).2 ⟨c, hc, ho⟩)

/-- What two bindings put for the free variables of a term may be converted. -/
theorem bind_free {t : Term} {σ τ : Nat → Term}
    (h : ∀ o ∈ t.occurrences 0, o.2 ≤ o.1 →
      Convertible R ((σ (o.1 - o.2)).raise o.2) ((τ (o.1 - o.2)).raise o.2)) :
    Convertible R (t.bind σ) (t.bind τ) := by
  refine mapVars t fun o ho => ?_
  rcases Nat.lt_or_ge o.1 o.2 with hlt | hle
  · rw [bindVar_of_lt hlt, bindVar_of_lt hlt]
    exact refl _
  · rw [bindVar_of_le hle, bindVar_of_le hle]
    exact h o ho hle

end Nodes

/-- Conversion is kept by binding when the rules are. -/
theorem bind_of_rules (hR : ∀ t u σ, R t u → Convertible R (t.bind σ) (u.bind σ))
    (h : Convertible R t u) (σ : Nat → Term) : Convertible R (t.bind σ) (u.bind σ) := by
  refine h (fun t u => ∀ σ, Convertible R (t.bind σ) (u.bind σ)) ⟨?_, ?_, ?_, ?_⟩
    (fun t u htu σ => hR t u σ htu) σ
  · intro t u htu σ
    exact same (by rw [bare_bind, bare_bind, htu])
  · intro t u htu σ
    exact (htu σ).symm
  · intro t u v htu huv σ
    exact (htu σ).trans (huv σ)
  · intro t u d htu σ
    rcases t.eq_var_or_asVar?_eq_none with ⟨x, i, rfl⟩ | ht
    · cases htu
      exact refl _
    · rw [bind_eq ht, bind_eq (by rw [htu.asVar?_eq, ht])]
      exact node ((htu.depth 0).map fun c _ w hw => hw (lift c.2 σ))

end Convertible

/-- The arguments of a match, moved into its branches. -/
def distribute (as : Arguments Term) (b : Branch Term) : Branch Term :=
  ⟨b.constructor, b.arity, .apply b.body (as.map (·.raise b.arity))⟩

/-- The rules by which terms contract. -/
inductive Contraction : Term → Term → Prop
  | beta {ps : List (Param Term)} {b : Term} {as : Arguments Term} :
      Contraction (.apply (.lambda ps b) as) (contract ps b as.toList)
  | letIn {x : Option String} {v t b : Term} :
      Contraction (.letIn x v t b) (b.bind (instantiation [v]))
  | cast {t ty : Term} {k : CastKind} : Contraction (.cast t k ty) t
  | caseOf {p s : Term} {bs : List (Branch Term)} {as : Arguments Term} :
      Contraction (.apply (.caseOf p s bs) as) (.caseOf p s (bs.map (distribute as)))

/-- The rules by which terms contract, and one that regroups arguments. -/
inductive SpineContraction : Term → Term → Prop
  | contraction {t u : Term} : Contraction t u → SpineContraction t u
  | regroup {f : Term} {as bs : Arguments Term} :
      SpineContraction (.apply (.apply f as) bs) (.apply f (as ++ bs))

theorem contract_bind (ps : List (Param Term)) (b : Term) (as : List Term) (σ : Nat → Term) :
    (contract ps b as).bind σ =
      contract (bindParams σ ps) (b.bind (lift ps.length σ)) (as.map (·.bind σ)) := by
  have hlen : (as.take (min ps.length as.length)).reverse.length = min ps.length as.length := by
    rw [List.length_reverse, List.length_take, Nat.min_assoc, Nat.min_self]
  have hlift : (lambdaOver (ps.drop (min ps.length as.length)) b).bind
      (lift (min ps.length as.length) σ) =
        lambdaOver ((bindParams σ ps).drop (min ps.length as.length))
          (b.bind (lift ps.length σ)) := by
    rw [bind_lambdaOver, lift_lift, List.length_drop, Nat.sub_add_cancel (Nat.min_le_left _ _),
      bindParams_drop]
  have hinst := bind_instantiation (σ := σ) (lambdaOver (ps.drop (min ps.length as.length)) b)
    (as.take (min ps.length as.length)).reverse
  rw [hlen, hlift] at hinst
  simp only [contract, bind_applyTo, hinst, length_bindParams, List.length_map, List.map_reverse,
    List.map_take, List.map_drop]

theorem Contraction.bind {t u : Term} (h : Contraction t u) (σ : Nat → Term) :
    Contraction (t.bind σ) (u.bind σ) := by
  cases h with
  | @beta ps b as =>
    rw [bind_apply, bind_lambda, contract_bind, ← Arguments.toList_map]
    exact .beta
  | @letIn x v t b =>
    have hinst := bind_instantiation (σ := σ) b [v]
    rw [bind_letIn, hinst]
    exact .letIn
  | cast =>
    rw [bind_cast]
    exact .cast
  | @caseOf p s bs as =>
    have hbranches : (bs.map (distribute as)).map (fun b : Branch Term =>
        (⟨b.constructor, b.arity, b.body.bind (lift b.arity σ)⟩ : Branch Term)) =
        (bs.map fun b : Branch Term =>
          (⟨b.constructor, b.arity, b.body.bind (lift b.arity σ)⟩ : Branch Term)).map
            (distribute (as.map (·.bind σ))) := by
      simp only [List.map_map]
      refine List.map_congr_left fun b _ => ?_
      simp only [Function.comp_apply, distribute, bind_apply, Arguments.map_map]
      have hargs : as.map ((·.bind (lift b.arity σ)) ∘ (·.raise b.arity)) =
          as.map ((·.raise b.arity) ∘ (·.bind σ)) :=
        Arguments.map_congr_left fun a _ => raise_bind a b.arity
      rw [hargs]
    rw [bind_apply, bind_caseOf, bind_caseOf, hbranches]
    exact .caseOf

theorem SpineContraction.bind {t u : Term} (h : SpineContraction t u) (σ : Nat → Term) :
    SpineContraction (t.bind σ) (u.bind σ) := by
  cases h with
  | contraction h => exact .contraction (h.bind σ)
  | regroup =>
    simp only [bind_apply, Arguments.map_append]
    exact .regroup

namespace Convertible
variable {t u : Term}

theorem bind (h : Convertible SpineContraction t u) (σ : Nat → Term) :
    Convertible SpineContraction (t.bind σ) (u.bind σ) :=
  h.bind_of_rules (fun _ _ σ h => rule (h.bind σ)) σ

theorem raise (h : Convertible SpineContraction t u) (n : Nat) :
    Convertible SpineContraction (t.raise n) (u.raise n) := by
  rw [raise_eq_bind, raise_eq_bind]
  exact h.bind _

/-- Arguments may be given in groups or all at once. -/
theorem apply_applyTo (f : Term) (as : Arguments Term) (bs : List Term) :
    Convertible SpineContraction ((Term.apply f as).applyTo bs) (f.applyTo (as.toList ++ bs)) := by
  cases bs with
  | nil =>
    rw [List.append_nil]
    exact refl _
  | cons b bs =>
    change Convertible SpineContraction (.apply (.apply f as) ⟨b, bs⟩) (.apply f (as ++ ⟨b, bs⟩))
    exact rule .regroup

/-- Applications are convertible when what they are with all arguments at once is. -/
theorem apply_applyTo_congr {f f' : Term} {as as' : Arguments Term} {bs bs' : List Term}
    (h : Convertible SpineContraction (f.applyTo (as.toList ++ bs))
      (f'.applyTo (as'.toList ++ bs'))) :
    Convertible SpineContraction ((Term.apply f as).applyTo bs)
      ((Term.apply f' as').applyTo bs') :=
  (apply_applyTo f as bs).trans (h.trans (apply_applyTo f' as' bs').symm)

theorem applyTo_applyTo (f : Term) (as bs : List Term) :
    Convertible SpineContraction ((f.applyTo as).applyTo bs) (f.applyTo (as ++ bs)) := by
  cases as with
  | nil => exact refl _
  | cons a as => exact apply_applyTo f ⟨a, as⟩ bs

/-- A function that gets all its arguments contracts, and the ones left over stay. -/
theorem lambdaOver_applyTo (ps : List (Param Term)) (b : Term) (as : List Term) (σ : Nat → Term)
    (h : ps.length ≤ as.length) :
    Convertible SpineContraction (((lambdaOver ps b).bind σ).applyTo as)
      ((b.bind (extend (as.take ps.length).reverse σ)).applyTo (as.drop ps.length)) := by
  rw [bind_lambdaOver]
  have hlen : (as.take ps.length).reverse.length = ps.length := by
    rw [List.length_reverse, List.length_take, Nat.min_eq_left h]
  cases ps with
  | nil =>
    have hextend : extend [] σ = σ := funext fun j => extend_of_le (Nat.zero_le j)
    have hbind : b.bind (lift 0 σ) = b.bind (extend [] σ) := by rw [bind_lift_zero, hextend]
    simp only [List.length_nil, List.take_zero, List.reverse_nil, List.drop_zero, hbind]
    exact refl _
  | cons p ps =>
    cases as with
    | nil => simp at h
    | cons a as =>
      have hcontract : contract (bindParams σ (p :: ps)) (b.bind (lift (p :: ps).length σ))
          (a :: as) = (b.bind (extend ((a :: as).take (p :: ps).length).reverse σ)).applyTo
            ((a :: as).drop (p :: ps).length) := by
        have hinst := bind_lift_instantiation (σ := σ) b ((a :: as).take (p :: ps).length).reverse
        rw [hlen] at hinst
        have hdrop : (bindParams σ (p :: ps)).drop (p :: ps).length = [] :=
          List.drop_eq_nil_of_le (Nat.le_of_eq (length_bindParams σ (p :: ps)))
        simp only [contract, length_bindParams, Nat.min_eq_left h, hdrop, lambdaOver_nil, hinst]
      rw [← hcontract]
      exact rule (.contraction .beta)

theorem letIn_bind (x : Option String) (v t b : Term) (σ : Nat → Term) :
    Convertible SpineContraction ((Term.letIn x v t b).bind σ)
      (b.bind (extend [v.bind σ] σ)) := by
  have hinst := bind_lift_instantiation (σ := σ) b [v.bind σ]
  rw [bind_letIn, ← hinst]
  exact rule (.contraction .letIn)

/-- The arguments of a match, however many, move into its branches. -/
theorem caseOf_applyTo (p s : Term) (bs : List (Branch Term)) (as : List Term) :
    Convertible SpineContraction ((Term.caseOf p s bs).applyTo as) (.caseOf p s (bs.map fun b =>
      ⟨b.constructor, b.arity, b.body.applyTo (as.map (·.raise b.arity))⟩)) := by
  cases as with
  | nil =>
    have hid : (bs.map fun b : Branch Term =>
        (⟨b.constructor, b.arity, b.body⟩ : Branch Term)) = bs := List.map_id bs
    simp only [List.map_nil, applyTo_nil, hid]
    exact refl _
  | cons a as => exact rule (.contraction .caseOf)

/-- Parameters are convertible under two bindings when their types are. -/
theorem rebuilt_bindParams {R : Term → Term → Prop} {σ τ : Nat → Term} {ps : List (Param Term)}
    (h : ∀ c ∈ paramTypes ps 0, Convertible R (c.1.bind (lift c.2 σ)) (c.1.bind (lift c.2 τ))) :
    RebuiltParams (fun c _ w => Convertible R c w) (bindParams σ ps) 0 (bindParams τ ps) := by
  exact .of_types h

end Convertible
end InductiveTerms
