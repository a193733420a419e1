import InductiveTerms.Proofs.References
import InductiveTerms.Proofs.Substitution

/-!
The scope of a term. `Below n` says that a term refers outside itself to variables below `n` only.
It is read off the nodes of a term, and what moves, substitutes or unfolds terms moves the bound as
it should; indices that stop at the end of their range do no harm, as they only get smaller.
-/
namespace InductiveTerms
open Term Index

namespace Term

/-- Whether everything that the term refers to outside is below `n`. -/
def Below (n : Nat) (t : Term) : Prop := ∀ r ∈ t.externalReferences, r < n

instance (n : Nat) (t : Term) : Decidable (t.Below n) :=
  inferInstanceAs (Decidable (∀ r ∈ t.externalReferences, r < n))

theorem below_iff {n : Nat} {t : Term} :
    t.Below n ↔ ∀ o ∈ t.occurrences 0, o.1 < n + o.2 := by
  simp only [Below, mem_externalReferences, Refers]
  constructor
  · intro h o ho
    rcases Nat.lt_or_ge o.1 o.2 with hlt | hle
    · omega
    · have := h _ ⟨o, ho, hle, rfl⟩
      omega
  · rintro h r ⟨o, ho, hle, rfl⟩
    have := h o ho
    omega

theorem Below.mono {n k : Nat} {t : Term} (h : t.Below n) (hle : n ≤ k) : t.Below k :=
  fun r hr => Nat.lt_of_lt_of_le (h r hr) hle

theorem below_iff_at {n : Nat} {t : Term} (d : Nat) :
    t.Below (n + d) ↔ ∀ o ∈ t.occurrences d, o.1 < n + o.2 := by
  rw [below_iff]
  constructor
  · intro h o ho
    obtain ⟨e, he, hd⟩ := mem_occurrences_depth.1 ho
    have := h _ he
    simp only at this
    omega
  · intro h o ho
    have := h (o.1, o.2 + d) (mem_occurrences_depth.2 ⟨o.2, ho, rfl⟩)
    simp only at this
    omega

@[simp] theorem below_var {n i : Nat} {x : String} : (Term.var x i).Below n ↔ i < n := by
  simp [below_iff, occurrences_var]

/-- A node is in scope when its children are, each under the binders around it. -/
theorem below_iff_children {n : Nat} {t : Term} (ht : t.asVar? = none) :
    t.Below n ↔ ∀ c ∈ t.children 0, c.1.Below (n + c.2) := by
  rw [below_iff]
  simp only [below_iff_at, mem_occurrences_iff ht]
  exact ⟨fun h c hc o ho => h o ⟨c, hc, ho⟩, fun h o ⟨c, hc, ho⟩ => h c hc o ho⟩

/-- Whether the types of parameters are in scope, each under the parameters before it. -/
def ParamsBelow (n : Nat) : List (Param Term) → Prop
  | [] => True
  | p :: ps => p.type.Below n ∧ ParamsBelow (n + 1) ps

theorem paramsBelow_iff {n d : Nat} {ps : List (Param Term)} :
    (∀ c ∈ paramTypes ps d, c.1.Below (n + c.2)) ↔ ParamsBelow (n + d) ps := by
  induction ps generalizing d with
  | nil => simp [paramTypes, ParamsBelow]
  | cons p ps ih => simp only [paramTypes, ParamsBelow, List.forall_mem_cons, ih, Nat.add_assoc]

theorem paramsBelow_append {n : Nat} {ps qs : List (Param Term)} :
    ParamsBelow n (ps ++ qs) ↔ ParamsBelow n ps ∧ ParamsBelow (n + ps.length) qs := by
  induction ps generalizing n with
  | nil => simp [ParamsBelow]
  | cons p ps ih =>
    simp only [List.cons_append, ParamsBelow, ih, and_assoc, List.length_cons, Nat.add_assoc,
      Nat.add_comm 1]

section Nodes
variable {n : Nat}

theorem below_product {ps : List (Param Term)} {r : Term} :
    (Term.product ps r).Below n ↔ ParamsBelow n ps ∧ r.Below (n + ps.length) := by
  have hps : _ ↔ ParamsBelow (n + 0) ps := paramsBelow_iff
  rw [Nat.add_zero] at hps
  rw [below_iff_children rfl, ← hps]
  simp only [children, List.forall_mem_append, List.forall_mem_singleton, Nat.zero_add]

theorem below_lambda {ps : List (Param Term)} {b : Term} :
    (Term.lambda ps b).Below n ↔ ParamsBelow n ps ∧ b.Below (n + ps.length) := by
  have hps : _ ↔ ParamsBelow (n + 0) ps := paramsBelow_iff
  rw [Nat.add_zero] at hps
  rw [below_iff_children rfl, ← hps]
  simp only [children, List.forall_mem_append, List.forall_mem_singleton, Nat.zero_add]

theorem below_letIn {x : Option String} {v t b : Term} :
    (Term.letIn x v t b).Below n ↔ v.Below n ∧ t.Below n ∧ b.Below (n + 1) := by
  rw [below_iff_children rfl]
  simp [children]

theorem below_apply {f : Term} {as : Arguments Term} :
    (Term.apply f as).Below n ↔ f.Below n ∧ ∀ a ∈ as.toList, a.Below n := by
  rw [below_iff_children rfl]
  simp [children]

theorem below_cast {t ty : Term} {k : CastKind} :
    (Term.cast t k ty).Below n ↔ t.Below n ∧ ty.Below n := by
  rw [below_iff_children rfl]
  simp [children]

theorem Below.motive {p s : Term} {bs : List (Branch Term)} (h : (Term.caseOf p s bs).Below n) :
    p.Below (n + 1) := (below_iff_children rfl).1 h (p, 1) (by simp [children])

theorem Below.scrutinee {p s : Term} {bs : List (Branch Term)}
    (h : (Term.caseOf p s bs).Below n) : s.Below n :=
  (below_iff_children rfl).1 h (s, 0) (by simp [children])

theorem below_productOver {ps : List (Param Term)} {r : Term} :
    (productOver ps r).Below n ↔ ParamsBelow n ps ∧ r.Below (n + ps.length) := by
  cases ps with
  | nil => simp [ParamsBelow]
  | cons p ps => exact below_product

/-- The flattened parameters of nested products are in scope when the product is. -/
theorem Below.unfoldProducts {t : Term} (h : t.Below n) :
    ParamsBelow n t.unfoldProducts.1 ∧
      t.unfoldProducts.2.Below (n + t.unfoldProducts.1.length) := by
  induction t using induct_children generalizing n with
  | node t ih =>
    cases t with
    | product ps r =>
      obtain ⟨hps, hr⟩ := below_product.1 h
      obtain ⟨hparams, hresult⟩ := ih 0 (r, 0 + ps.length) (by simp [children]) hr
      rw [unfoldProducts_product]
      refine ⟨paramsBelow_append.2 ⟨hps, hparams⟩, ?_⟩
      rwa [List.length_append, ← Nat.add_assoc]
    | _ => exact ⟨trivial, h⟩

end Nodes

theorem below_bare {n : Nat} {t : Term} : t.bare.Below n ↔ t.Below n := by
  rw [below_iff, below_iff, occurrences_bare]

/-- A replacement of variables is in scope when what is put for the occurrences is. -/
theorem below_mapVars {n k : Nat} {f : Nat → Nat → Term} {t : Term} (ht : t.Below n)
    (hf : ∀ i d, i < n + d → (f i d).Below (k + d)) : (mapVars f t 0).Below k := by
  rw [below_iff, occurrences_mapVars]
  intro o ho
  obtain ⟨⟨i, d⟩, hmem, ho⟩ := List.mem_flatMap.1 ho
  exact (below_iff_at d).1 (hf i d (below_iff.1 ht _ hmem)) o ho

theorem Below.shift {n : Nat} {t : Term} (h : t.Below n) (k : Nat) :
    (t.shift 0 k).Below (n + k) := by
  rw [← below_bare, bare_shift]
  refine below_mapVars (below_bare.2 h) fun i d hi => ?_
  unfold shiftVar
  split
  · rw [below_var, move]
    omega
  · rw [below_var]
    omega

theorem Below.subst {n : Nat} {t : Term} {subs : List Term} (h : t.Below (n + subs.length))
    (hsubs : ∀ s ∈ subs, s.Below n) : (t.subst 0 subs).Below n := by
  rw [← below_bare, bare_subst]
  refine below_mapVars (below_bare.2 h) fun i d hi => ?_
  have hadd : add 0 d ≤ d := by simp only [add]; omega
  unfold substVar
  split
  · rw [below_var]
    omega
  · split
    · next s hs => exact below_bare.2 ((hsubs s (List.mem_of_getElem? hs)).shift d)
    · next hs =>
      have hlen := List.getElem?_eq_none_iff.1 hs
      rw [below_var]
      omega

end Term
end InductiveTerms
