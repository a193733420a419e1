import InductiveTerms.Proofs.Merging

/-!
Normalized terms are canonical. A traversal reports no change when the visitor declines every node
(`visit_eq_none_iff`), so that normalization does when no node stands right inside one of its kind;
nothing does in a normalized term (`unchained_normalize`). Terms have one normalized term just when
they differ in grouping only (`normalize_decides_regrouped`).
-/
namespace InductiveTerms
open Term Traversal

namespace Traversal
variable {reply : Term → Nat → Id (Option Term)}

theorem replaceCons_eq_none_iff {α : Type} {a : α} {as : List α} {a' : Option α}
    {as' : Option (List α)} : replaceCons a as a' as' = none ↔ a' = none ∧ as' = none := by
  cases a' <;> cases as' <;> simp [replaceCons]

theorem replaceFunction_eq_none_iff {f : FixFunction Term} {ps : Option (List (Param Term))}
    {r b : Option Term} :
    replaceFunction f ps r b = none ↔ ps = none ∧ r = none ∧ b = none := by
  cases ps <;> cases r <;> cases b <;> simp [replaceFunction]

theorem offer_eq_none_iff {t u : Term} {d : Nat} {changed : Bool}
    (hu : changed = false → u = t) :
    offer (.ofReply reply) u d changed = none ↔ changed = false ∧ reply t d = none := by
  change (match reply u d with
    | some w => some w
    | none => if changed then some u else none) = none ↔ _
  cases changed with
  | false =>
    obtain rfl := hu rfl
    cases reply u d <;> simp
  | true => cases reply u d <;> simp

theorem visitParams_eq_none_iff {ps : List (Param Term)} {d : Nat} :
    visitParams (.ofReply reply) unshared ps d = none ↔
      ∀ c ∈ paramTypes ps d, visit (.ofReply reply) unshared c.1 c.2 = none := by
  induction ps generalizing d with
  | nil => exact iff_of_true rfl (by simp [paramTypes])
  | cons p ps ih =>
    simp only [paramTypes, List.forall_mem_cons, ← ih]
    change replaceCons p ps ((visit (.ofReply reply) unshared p.type d).map fun t =>
      (⟨p.name, t⟩ : Param Term)) (visitParams (.ofReply reply) unshared ps (d + 1)) = none ↔ _
    rw [replaceCons_eq_none_iff, Option.map_eq_none_iff]

theorem visitTerms_eq_none_iff {ts : List Term} {d : Nat} :
    visitTerms (.ofReply reply) unshared ts d = none ↔
      ∀ t ∈ ts, visit (.ofReply reply) unshared t d = none := by
  induction ts with
  | nil => exact iff_of_true rfl (by simp)
  | cons t ts ih =>
    rw [List.forall_mem_cons, ← ih]
    exact replaceCons_eq_none_iff

theorem visitBranches_eq_none_iff {bs : List (Branch Term)} {d : Nat} :
    visitBranches (.ofReply reply) unshared bs d = none ↔
      ∀ b ∈ bs, visit (.ofReply reply) unshared b.body (d + b.arity) = none := by
  induction bs with
  | nil => exact iff_of_true rfl (by simp)
  | cons b bs ih =>
    rw [List.forall_mem_cons, ← ih]
    simp only [visitBranches, enter_ofReply, leave_ofReply, times_pure, pure_bind]
    change replaceCons b bs ((visit (.ofReply reply) unshared b.body (d + b.arity)).map fun t =>
      (⟨b.constructor, b.arity, t⟩ : Branch Term)) (visitBranches (.ofReply reply) unshared bs d) =
        none ↔ _
    rw [replaceCons_eq_none_iff, Option.map_eq_none_iff]

theorem visitFunctions_eq_none_iff {fs : List (FixFunction Term)} {d : Nat} :
    visitFunctions (.ofReply reply) unshared fs d = none ↔
      ∀ f ∈ fs, ∀ c ∈ paramTypes f.params d ++ [(f.result, d + f.arity), (f.body, d + f.arity)],
        visit (.ofReply reply) unshared c.1 c.2 = none := by
  induction fs with
  | nil => exact iff_of_true rfl (by simp)
  | cons f fs ih =>
    simp only [List.forall_mem_cons, List.forall_mem_append] at ih ⊢
    simp only [visitFunctions, leave_ofReply, times_pure, pure_bind]
    change replaceCons f fs (replaceFunction f (visitParams (.ofReply reply) unshared f.params d)
      (visit (.ofReply reply) unshared f.result (d + f.arity))
      (visit (.ofReply reply) unshared f.body (d + f.arity)))
        (visitFunctions (.ofReply reply) unshared fs d) = none ↔ _
    rw [replaceCons_eq_none_iff, replaceFunction_eq_none_iff, visitParams_eq_none_iff, ih]
    simp

theorem unshared_id (b : Bundle Term) (d : Nat) (x : Id (Option (List (FixFunction Term)))) :
    unshared b d x = (Option.map (fun fs => ⟨none, fs⟩) x : Option (Bundle Term)) := by
  cases x using Option.casesOn <;> rfl

/-- A traversal reports no change just when it reports none for the children and the visitor
declines the node. -/
theorem visit_eq_none_iff {t : Term} {d : Nat} :
    visit (.ofReply reply) unshared t d = none ↔
      (∀ c ∈ t.children d, visit (.ofReply reply) unshared c.1 c.2 = none) ∧ reply t d = none := by
  cases t with
  | var x i => exact (offer_eq_none_iff fun _ => rfl).trans (by simp [children])
  | global x => exact (offer_eq_none_iff fun _ => rfl).trans (by simp [children])
  | univ u => exact (offer_eq_none_iff fun _ => rfl).trans (by simp [children])
  | product ps r =>
    simp only [visit, leave_ofReply, times_pure, pure_bind, children, List.forall_mem_append,
      List.forall_mem_singleton]
    rw [← visitParams_eq_none_iff]
    refine (offer_eq_none_iff (t := .product ps r) ?_).trans ?_
    · cases visitParams (.ofReply reply) unshared ps d <;>
        cases visit (.ofReply reply) unshared r (d + ps.length) <;> simp
    · simp [and_assoc]
  | lambda ps b =>
    simp only [visit, leave_ofReply, times_pure, pure_bind, children, List.forall_mem_append,
      List.forall_mem_singleton]
    rw [← visitParams_eq_none_iff]
    refine (offer_eq_none_iff (t := .lambda ps b) ?_).trans ?_
    · cases visitParams (.ofReply reply) unshared ps d <;>
        cases visit (.ofReply reply) unshared b (d + ps.length) <;> simp
    · simp [and_assoc]
  | letIn x v ty b =>
    simp only [visit, enter_ofReply, leave_ofReply, pure_bind, children, List.forall_mem_cons]
    refine (offer_eq_none_iff (t := .letIn x v ty b) ?_).trans ?_
    · cases visit (.ofReply reply) unshared v d <;>
        cases visit (.ofReply reply) unshared ty d <;>
          cases visit (.ofReply reply) unshared b (d + 1) <;> simp
    · simp [and_assoc]
  | apply f as =>
    obtain ⟨a, as⟩ := as
    simp only [visit, children, Arguments.toList_mk, List.forall_mem_cons, List.forall_mem_map]
    rw [← visitTerms_eq_none_iff]
    refine (offer_eq_none_iff (t := .apply f ⟨a, as⟩) ?_).trans ?_
    · cases visit (.ofReply reply) unshared f d <;>
        cases visit (.ofReply reply) unshared a d <;>
          cases visitTerms (.ofReply reply) unshared as d <;> simp
    · simp [and_assoc]
  | cast t k ty =>
    simp only [visit, children, List.forall_mem_cons]
    refine (offer_eq_none_iff (t := .cast t k ty) ?_).trans ?_
    · cases visit (.ofReply reply) unshared t d <;>
        cases visit (.ofReply reply) unshared ty d <;> simp
    · simp [and_assoc]
  | caseOf p s bs =>
    simp only [visit, enter_ofReply, leave_ofReply, pure_bind, children, List.forall_mem_cons,
      List.forall_mem_map]
    rw [← visitBranches_eq_none_iff]
    refine (offer_eq_none_iff (t := .caseOf p s bs) ?_).trans ?_
    · cases visit (.ofReply reply) unshared s d <;>
        cases visit (.ofReply reply) unshared p (d + 1) <;>
          cases visitBranches (.ofReply reply) unshared bs d <;> simp
    · simp [and_assoc, and_left_comm]
  | fix i b =>
    obtain ⟨l, fs⟩ := b
    have hchildren : (∀ c ∈ (Term.fix i ⟨l, fs⟩).children d,
        visit (.ofReply reply) unshared c.1 c.2 = none) ↔
          visitFunctions (.ofReply reply) unshared fs (d + fs.length) = none := by
      rw [visitFunctions_eq_none_iff]
      simp only [children, Bundle.size, List.mem_flatMap, forall_exists_index, and_imp]
      exact ⟨fun h f hf c hc => h c f hf hc, fun h c f hf hc => h f hf c hc⟩
    rw [hchildren]
    simp only [visit, enterFunctions_ofReply, leave_ofReply, times_pure, pure_bind]
    refine (offer_eq_none_iff (t := .fix i ⟨l, fs⟩) ?_).trans ?_
    · rw [unshared_id]
      cases visitFunctions (.ofReply reply) unshared fs (d + fs.length) <;> simp
    · rw [unshared_id]
      simp

end Traversal

namespace Term

/-- Whether a node has one of its own kind right inside it, with which it merges. -/
def Chained : Term → Prop
  | .product _ r => r.kind = .product
  | .lambda _ b => b.kind = .lambda
  | .apply f _ => f.kind = .apply
  | _ => False

instance : DecidablePred Chained := fun t => by
  cases t <;> unfold Chained <;> infer_instance

/-- Whether no node stands right inside one of its own kind, anywhere in a term. -/
def Unchained (t : Term) : Prop := t.All fun u => ¬ u.Chained

instance : DecidablePred Unchained := fun t =>
  inferInstanceAs (Decidable (t.All fun u => ¬ u.Chained))

theorem flatten?_eq_none_iff (t : Term) : t.flatten? = none ↔ ¬ t.Chained := by
  cases t with
  | product ps r =>
    rcases r.eq_product_or_kind_ne with ⟨qs, s, rfl⟩ | hr
    · simp [flatten?, Chained, kind]
    · simp [flatten?_product_of_ne hr, Chained, hr]
  | lambda ps b =>
    rcases b.eq_lambda_or_kind_ne with ⟨qs, c, rfl⟩ | hb
    · simp [flatten?, Chained, kind]
    · simp [flatten?_lambda_of_ne hb, Chained, hb]
  | apply f as =>
    rcases f.eq_apply_or_kind_ne with ⟨g, bs, rfl⟩ | hf
    · simp [flatten?, Chained, kind]
    · simp [flatten?_apply_of_ne hf, Chained, hf]
  | _ => simp [flatten?, Chained]

/-- Normalization reports no change just where there is nothing to merge. -/
theorem normalize?_eq_none_iff (t : Term) :
    (t.normalize? : Id (Option Term)) = none ↔ t.Unchained := by
  have hvisit : ∀ (t : Term) (d : Nat),
      visit (normalizer (m := Id)) unshared t d = none ↔ t.Unchained := by
    intro t
    induction t using induct_children with
    | node t ih =>
      intro d
      have hall := all_iff_children (P := fun u => ¬ u.Chained) (t := t) d
      rw [normalizer, visit_eq_none_iff, Unchained, hall, and_comm]
      refine and_congr (flatten?_eq_none_iff t) ?_
      exact forall₂_congr fun c hc => ih d c hc c.2
  exact hvisit t 0

theorem chained_bare (t : Term) : t.bare.Chained ↔ t.Chained := by
  cases t <;> simp [Chained]

theorem unchained_bare (t : Term) : t.bare.Unchained ↔ t.Unchained := by
  induction t using induct_children with
  | node t ih =>
    have hall := all_iff_children (P := fun u => ¬ u.Chained) (t := t) 0
    have hbare := all_iff_children (P := fun u => ¬ u.Chained) (t := t.bare) 0
    have hchildren : t.bare.children 0 = (t.children 0).map fun c => (c.1.bare, c.2) := by
      rw [bare_eq t 0, children_bareNode, children_mapChildren]
    rw [hchildren, List.forall_mem_map, chained_bare] at hbare
    rw [Unchained, Unchained, hall, hbare]
    exact and_congr_right fun _ => forall₂_congr fun c hc => ih 0 c hc

/-- Merging a node with the one right inside it leaves nothing to merge if there was nothing to
merge below it: one level is enough. -/
theorem unchained_flattenNode {t : Term} (h : ∀ c ∈ t.children 0, c.1.Unchained) :
    t.flattenNode.Unchained := by
  have hkept : ¬ t.Chained → t.flattenNode.Unchained := by
    intro ht
    rw [flattenNode, (flatten?_eq_none_iff t).2 ht]
    exact (all_iff_children 0).2 ⟨ht, h⟩
  cases t with
  | product ps r =>
    rcases r.eq_product_or_kind_ne with ⟨qs, s, rfl⟩ | hr
    · simp only [children, List.forall_mem_append, List.forall_mem_singleton] at h
      obtain ⟨hqs, hinner⟩ := (all_iff_children (0 + ps.length)).1 h.2
      simp only [children, List.forall_mem_append, List.forall_mem_singleton] at hinner
      rw [flattenNode_product]
      refine (all_iff_children 0).2 ⟨hqs, ?_⟩
      simp only [children, paramTypes_append, List.forall_mem_append, List.forall_mem_singleton,
        List.length_append, ← Nat.add_assoc]
      exact ⟨⟨h.1, hinner.1⟩, hinner.2⟩
    · exact hkept hr
  | lambda ps b =>
    rcases b.eq_lambda_or_kind_ne with ⟨qs, c, rfl⟩ | hb
    · simp only [children, List.forall_mem_append, List.forall_mem_singleton] at h
      obtain ⟨hqs, hinner⟩ := (all_iff_children (0 + ps.length)).1 h.2
      simp only [children, List.forall_mem_append, List.forall_mem_singleton] at hinner
      rw [flattenNode_lambda]
      refine (all_iff_children 0).2 ⟨hqs, ?_⟩
      simp only [children, paramTypes_append, List.forall_mem_append, List.forall_mem_singleton,
        List.length_append, ← Nat.add_assoc]
      exact ⟨⟨h.1, hinner.1⟩, hinner.2⟩
    · exact hkept hb
  | apply f bs =>
    rcases f.eq_apply_or_kind_ne with ⟨g, as, rfl⟩ | hf
    · simp only [children, List.forall_mem_cons, List.forall_mem_map] at h
      obtain ⟨hg, hinner⟩ := (all_iff_children 0).1 h.1
      simp only [children, List.forall_mem_cons, List.forall_mem_map] at hinner
      rw [flattenNode_apply]
      refine (all_iff_children 0).2 ⟨hg, ?_⟩
      simp only [children, Arguments.toList_append, List.forall_mem_cons, List.forall_mem_map,
        List.forall_mem_append]
      exact ⟨hinner.1, hinner.2, h.2⟩
    · exact hkept hf
  | _ => exact hkept (by simp [Chained])

theorem unchained_flat (t : Term) : t.flat.Unchained := by
  induction t using induct_children with
  | node t ih =>
    rw [flat_eq t 0]
    refine unchained_flattenNode fun c hc => ?_
    rw [children_mapChildren, List.mem_map] at hc
    obtain ⟨c, hc, rfl⟩ := hc
    exact ih 0 c hc

theorem unchained_normalize (t : Term) : t.normalize.Unchained := by
  rw [← unchained_bare, bare_normalize, unchained_bare]
  exact unchained_flat t

/-- Normalization decides which terms differ in grouping only. It reports a change just where a node
stands right inside one of its kind, and none the second time. -/
theorem normalize_decides_regrouped (t u : Term) :
    ((t.normalize == u.normalize) = true ↔ Regrouped t u) ∧
    ((t.normalize? : Id (Option Term)) = none ↔ t.Unchained) ∧
    (t.normalize.normalize? : Id (Option Term)) = none := by
  refine ⟨?_, normalize?_eq_none_iff t, (normalize?_eq_none_iff _).2 (unchained_normalize t)⟩
  have hsame := same_iff_bare_eq t.normalize u.normalize
  rw [bare_normalize, bare_normalize] at hsame
  refine hsame.trans ⟨fun h => ?_, Regrouped.same_flat⟩
  exact (regrouped_flat t).trans ((Convertible.same h).trans (regrouped_flat u).symm)

/-- A function of a function that adds its arguments, one by one. -/
def curriedSum : Term :=
  .lambda [⟨some "a", .global "nat"⟩] (.lambda [⟨some "b", .global "nat"⟩]
    (.applyTo (.applyTo (.global "plus") [.var "a" 1]) [.var "b" 0]))

/-- The same sum by one function. -/
def uncurriedSum : Term :=
  .lambda [⟨some "x", .global "nat"⟩, ⟨some "y", .global "nat"⟩]
    (.applyTo (.global "plus") [.var "x" 1, .var "y" 0])

theorem normalize_decides_regrouped_sums :
    Regrouped curriedSum uncurriedSum ∧
    (curriedSum.normalize? : Id (Option Term)) ≠ none ∧
    (uncurriedSum.normalize? : Id (Option Term)) = none := by
  have hsame : (curriedSum.normalize == uncurriedSum.normalize) = true := by decide
  obtain ⟨hdecides, hcurriedChange, -⟩ :=
    normalize_decides_regrouped curriedSum uncurriedSum
  obtain ⟨-, huncurriedChange, -⟩ :=
    normalize_decides_regrouped uncurriedSum curriedSum
  refine ⟨hdecides.1 hsame, fun h => ?_, huncurriedChange.2 (by decide)⟩
  exact absurd (hcurriedChange.1 h) (by decide)

end Term
end InductiveTerms
