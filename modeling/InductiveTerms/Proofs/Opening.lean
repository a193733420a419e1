import InductiveTerms.Proofs.Sharing
import InductiveTerms.Proofs.Unfolding

/-!
Terms with variables moved past a place. `Opens` compares two terms up to display: the second is the
first one with the variables from a place on moved up. Nodes that are so related have the children
in which the variables are moved past the binders (`Opens.node`), and bundles the functions
(`opens_fix_iff`).
-/
namespace InductiveTerms.Term

section Symm
variable {R : Term → Nat → Term → Prop}

theorem RebuiltParams.symm {ps ps' : List (Param Term)} {d : Nat} (h : RebuiltParams R ps d ps') :
    RebuiltParams (fun w e c => R c e w) ps' d ps := by
  induction h with
  | nil => exact .nil
  | cons ht _ ih => exact .cons ht ih

/-- Rebuilding a node can be read the other way around. -/
theorem Rebuilt.symm {t u : Term} {d : Nat} (h : Rebuilt R t d u) :
    Rebuilt (fun w e c => R c e w) u d t := by
  cases h with
  | var => exact .var
  | global => exact .global
  | univ => exact .univ
  | product hps hr => exact .product hps.symm (by rwa [hps.length_eq])
  | lambda hps hb => exact .lambda hps.symm (by rwa [hps.length_eq])
  | letIn hv ht hb => exact .letIn hv ht hb
  | apply hf has => exact .apply hf has.flip
  | cast ht hty => exact .cast ht hty
  | caseOf hp hs hbs =>
    refine .caseOf hp hs (hbs.flip.imp fun b b' hb => ?_)
    exact ⟨hb.constructor.symm, hb.arity.symm, by rw [hb.arity]; exact hb.body⟩
  | fix hfs =>
    rw [hfs.length_eq] at hfs
    refine .fix (hfs.flip.imp fun f f' hf => ?_)
    refine ⟨hf.name.symm, hf.params.symm, ?_, ?_⟩
    · rw [hf.arity_eq]
      exact hf.result
    · rw [hf.arity_eq]
      exact hf.body

/-- The children of the rebuilt node may be told where they stand. -/
theorem Rebuilt.of_mem {P : Term → Nat → Prop} {t u : Term} {d : Nat} (h : Rebuilt R t d u)
    (hP : ∀ c ∈ u.children d, P c.1 c.2) : Rebuilt (fun c e w => R c e w ∧ P w e) t d u :=
  (h.symm.imp fun c hc _ hw => ⟨hw, hP c hc⟩).symm

end Symm

/-- Whether the second term is the first one with the variables from `limit` on moved up by `n`, up
to display. -/
def Opens (limit n : Nat) (t t' : Term) : Prop := t'.bare = t.bare.bind (opening limit n)

section Opens
variable {limit n d : Nat} {t t' : Term}

theorem opens_zero : Opens limit 0 t t' ↔ t'.bare = t.bare := by
  have hopening : opening limit 0 = fun j => .var "" j := by
    funext j
    simp only [opening, Nat.add_zero, ite_self]
  rw [Opens, hopening, bare_bind_var]

theorem opens_var {x y : String} {i j : Nat} (h : j = if i < limit then i else i + n) :
    Opens limit n (.var x i) (.var y j) := by
  rw [Opens, bare_var, bare_var, bind_var, opening, raise_var, h, Nat.add_zero]

theorem Opens.eq_var {x : String} {i : Nat} (h : Opens limit n (.var x i) t') :
    ∃ y, t' = .var y (if i < limit then i else i + n) := by
  cases t' with
  | var y k =>
    simp only [Opens, bare_var, bind_var, opening, raise_var, Nat.add_zero, Term.var.injEq,
      true_and] at h
    exact ⟨y, by rw [h]⟩
  | _ => simp [Opens, opening] at h

/-- The names of the parameters of a node are the only thing that is not rebuilt of it. -/
theorem rebuiltParams_of_bare {h : Term → Nat → Term} {ps qs : List (Param Term)}
    (heq : qs.map bareParam = (mapParamTypes h ps d).map unnamedParam) :
    RebuiltParams (fun c e w => w.bare = h c e) (ps.map unnamedParam) d
      (qs.map unnamedParam) := by
  induction ps generalizing qs d with
  | nil =>
    obtain rfl : qs = [] := by simpa [mapParamTypes] using heq
    exact .nil
  | cons p ps ih =>
    cases qs with
    | nil => simp [mapParamTypes] at heq
    | cons q qs =>
      simp only [List.map_cons, mapParamTypes, List.cons.injEq] at heq
      exact .cons (congrArg Param.type heq.1) (ih heq.2)

/-- A node that is known up to display has been rebuilt from children that are. -/
theorem rebuilt_of_bare {h : Term → Nat → Term} {t u : Term}
    (heq : u.bare = (t.mapChildren h d).bareNode) :
    Rebuilt (fun c e w => w.bare = h c e) t.bareNode d u.bareNode := by
  cases t with
  | var x i => cases u <;> simp_all [mapChildren, bareNode, Rebuilt.var]
  | global x => cases u <;> simp_all [mapChildren, bareNode, Rebuilt.global]
  | univ v => cases u <;> simp_all [mapChildren, bareNode, Rebuilt.univ]
  | product ps r =>
    cases u with
    | product qs s =>
      simp only [bare_product, mapChildren, bareNode, Term.product.injEq] at heq
      exact .product (rebuiltParams_of_bare heq.1) (by rw [List.length_map]; exact heq.2)
    | _ => simp [mapChildren, bareNode] at heq
  | lambda ps b =>
    cases u with
    | lambda qs c =>
      simp only [bare_lambda, mapChildren, bareNode, Term.lambda.injEq] at heq
      exact .lambda (rebuiltParams_of_bare heq.1) (by rw [List.length_map]; exact heq.2)
    | _ => simp [mapChildren, bareNode] at heq
  | letIn x v ty b =>
    cases u with
    | letIn y w uy c =>
      simp only [bare_letIn, mapChildren, bareNode, Term.letIn.injEq, true_and] at heq
      exact .letIn heq.1 heq.2.1 heq.2.2
    | _ => simp [mapChildren, bareNode] at heq
  | apply f as =>
    cases u with
    | apply g bs =>
      simp only [bare_apply, mapChildren, bareNode, Term.apply.injEq] at heq
      exact .apply heq.1 (forall₂_of_map_eq (Arguments.map_eq_map_iff.1 heq.2)).flip
    | _ => simp [mapChildren, bareNode] at heq
  | cast v k ty =>
    cases u with
    | cast w l uy =>
      simp only [bare_cast, mapChildren, bareNode, Term.cast.injEq] at heq
      obtain ⟨hv, rfl, hty⟩ := heq
      exact .cast hv hty
    | _ => simp [mapChildren, bareNode] at heq
  | caseOf p s bs =>
    cases u with
    | caseOf q r cs =>
      simp only [bare_caseOf, mapChildren, bareNode, Term.caseOf.injEq] at heq
      refine .caseOf heq.1 heq.2.1 ((forall₂_of_map_eq heq.2.2).flip.imp fun b c hbc => ?_)
      rw [bareBranch, Branch.mk.injEq] at hbc
      exact ⟨hbc.1, hbc.2.1, hbc.2.2⟩
    | _ => simp [mapChildren, bareNode] at heq
  | fix i b =>
    cases u with
    | fix j c =>
      simp only [bare_fix, mapChildren, bareNode, Term.fix.injEq, Bundle.mk.injEq, true_and,
        List.map_map] at heq
      obtain ⟨rfl, hfs⟩ := heq
      refine .fix ?_
      rw [List.length_map]
      refine forall₂_map_of_mem (forall₂_of_map_eq hfs).flip fun f _ g hfg => ?_
      simp only [bareFunction, Function.comp_apply, mapFunction, FixFunction.mk.injEq,
        true_and] at hfg
      have harity : FixFunction.arity ⟨"", f.params.map unnamedParam, f.result, f.body⟩ =
          f.arity := List.length_map _
      refine ⟨rfl, rebuiltParams_of_bare hfg.1, ?_, ?_⟩
      · rw [harity]
        exact hfg.2.1
      · rw [harity]
        exact hfg.2.2
    | _ => simp [mapChildren, bareNode] at heq

theorem bare_bareNode (t : Term) : t.bareNode.bare = t.bare := by
  rw [bare_eq _ 0, ← bareNode_mapChildren, bareNode_bareNode, ← bare_eq]

/-- The children of a moved node have been moved, each past the binders around it. -/
theorem bind_opening_node (ht : t.asVar? = none) (limit n d : Nat) :
    t.bare.bind (opening (limit + d) n) =
      (t.mapChildren (fun c e => c.bare.bind (opening (limit + e) n)) d).bareNode := by
  have hshift := mapChildren_add (h := fun c e => c.bind (opening (limit + e) n)) t.bare 0 d
  rw [Nat.zero_add] at hshift
  have hlift : (fun (c : Term) (e : Nat) => c.bind (lift e (opening (limit + d) n))) =
      fun c e => c.bind (opening (limit + (e + d)) n) := by
    funext c e
    rw [lift_opening, Nat.add_assoc, Nat.add_comm d]
  rw [bind_eq (asVar?_bare_eq_none ht), hlift, ← hshift, bare_eq t d, ← bareNode_mapChildren,
    mapChildren_mapChildren]

theorem Opens.node (h : Opens (limit + d) n t t') (ht : t.asVar? = none) :
    Rebuilt (fun c e w => Opens (limit + e) n c w) t.bareNode d t'.bareNode := by
  rw [Opens, bind_opening_node ht] at h
  exact rebuilt_of_bare h

theorem Opens.asVar?_eq_none (h : Opens limit n t t') (ht : t.asVar? = none) :
    t'.asVar? = none := by
  rcases t'.eq_var_or_asVar?_eq_none with ⟨y, k, rfl⟩ | ht'
  · rw [Opens, bind_eq (asVar?_bare_eq_none ht), bare_var] at h
    have hvar : (t.bare.mapChildren (fun c e => c.bind (lift e (opening limit n))) 0).asVar? =
        none := by rw [asVar?_mapChildren, asVar?_bare_eq_none ht]
    rw [← h] at hvar
    cases hvar
  · exact ht'

end Opens

/-- Whether the second function is the first one with the variables from `limit` on moved up by `n`,
up to display. -/
structure OpensFunction (limit n : Nat) (f f' : FixFunction Term) : Prop where
  params : f'.params.map bareParam = bindParams (opening limit n) (f.params.map bareParam)
  result : Opens (limit + f.arity) n f.result f'.result
  body : Opens (limit + f.arity) n f.body f'.body

theorem OpensFunction.arity_eq {limit n : Nat} {f f' : FixFunction Term}
    (h : OpensFunction limit n f f') : f'.arity = f.arity :=
  length_eq_of_bindParams h.params

theorem opensFunction_iff {limit n : Nat} {f f' : FixFunction Term} :
    OpensFunction limit n f f' ↔ bareFunction f' =
      ⟨"", bindParams (opening limit n) (f.params.map bareParam),
        f.result.bare.bind (opening (limit + f.arity) n),
        f.body.bare.bind (opening (limit + f.arity) n)⟩ := by
  rw [bareFunction, FixFunction.mk.injEq]
  exact ⟨fun h => ⟨rfl, h.params, h.result, h.body⟩, fun h => ⟨h.2.1, h.2.2.1, h.2.2.2⟩⟩

theorem opens_fix_iff {limit n i j : Nat} {b b' : Bundle Term} :
    Opens limit n (.fix i b) (.fix j b') ↔
      j = i ∧ List.Forall₂ (OpensFunction (limit + b.size) n) b.functions b'.functions := by
  have hsize : (⟨none, b.functions.map bareFunction⟩ : Bundle Term).size = b.size :=
    List.length_map _
  have harity : ∀ f : FixFunction Term, (bareFunction f).arity = f.arity :=
    fun f => List.length_map _
  rw [Opens, bare_fix, bare_fix, bind_fix, Term.fix.injEq, Bundle.mk.injEq, hsize]
  refine and_congr_right fun _ => ?_
  simp only [true_and, List.map_map]
  rw [← List.forall₂_eq_eq_eq, List.forall₂_map_left_iff, List.forall₂_map_right_iff]
  have hfunction : ∀ f f' : FixFunction Term, OpensFunction (limit + b.size) n f f' ↔
      bareFunction f' = ⟨"", bindParams (lift b.size (opening limit n)) (bareFunction f).params,
        (bareFunction f).result.bind (lift ((bareFunction f).arity + b.size) (opening limit n)),
        (bareFunction f).body.bind (lift ((bareFunction f).arity + b.size) (opening limit n))⟩ := by
    intro f f'
    rw [opensFunction_iff, harity, lift_opening, lift_opening, Nat.add_comm f.arity,
      ← Nat.add_assoc]
    rfl
  constructor
  · exact fun h => (h.imp fun f' f hff => (hfunction f f').2 hff).flip
  · exact fun h => (h.imp fun f f' hff => (hfunction f f').1 hff).flip

/-- Parameters that correspond have types that do. -/
theorem exists_opens_type {limit n k : Nat} {ps ps' : List (Param Term)} {x : Param Term}
    (h : ps'.map bareParam = bindParams (opening limit n) (ps.map bareParam))
    (hx : ps[k]? = some x) : ∃ x', ps'[k]? = some x' ∧ Opens (limit + k) n x.type x'.type := by
  have hget := congrArg (·[k]?) h
  simp only [getElem?_bindParams, List.getElem?_map, hx, Option.map_some, lift_opening] at hget
  obtain ⟨x', hx', htype⟩ := Option.map_eq_some_iff.1 hget
  exact ⟨x', hx', congrArg Param.type htype⟩

theorem opens_productOver {limit n : Nat} {ps ps' : List (Param Term)} {r r' : Term}
    (hlen : ps'.length = ps.length) :
    Opens limit n (productOver ps r) (productOver ps' r') ↔
      ps'.map bareParam = bindParams (opening limit n) (ps.map bareParam) ∧
        Opens (limit + ps.length) n r r' := by
  rw [Opens, Opens, bare_productOver, bare_productOver, bind_productOver, lift_opening,
    List.length_map]
  cases ps with
  | nil =>
    obtain rfl := List.length_eq_zero_iff.1 hlen
    exact ⟨fun h => ⟨rfl, h⟩, fun h => h.2⟩
  | cons p ps =>
    cases ps' with
    | nil => simp at hlen
    | cons p' ps' => exact Term.product.injEq .. ▸ Iff.rfl

end InductiveTerms.Term
