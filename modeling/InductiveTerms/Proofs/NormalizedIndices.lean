import InductiveTerms.Proofs.Canonical
import InductiveTerms.Proofs.IndexAlgebra
import InductiveTerms.Proofs.Renaming
import InductiveTerms.Proofs.Residuals

/-!
Normalization and indices. Merged nodes have the variables of the nodes they are made of, at the
same depths (`occurrences_flat`), so that what is put for the variables of a term may be put into
the normalized term (`flat_mapVars`); variables put for variables leave nothing to merge
(`unchained_renamed`). Normalization hence goes through moves, through substitutions up to another
normalization, and leaves references as they are (`normalize_commutes`).
-/
namespace InductiveTerms.Term

section Occurrences

theorem occurrences_apply (f : Term) (as : Arguments Term) (d : Nat) :
    (Term.apply f as).occurrences d =
      f.occurrences d ++ as.toList.flatMap (occurrences · d) := by
  obtain ⟨a, as⟩ := as
  rw [occurrences, occurrencesOfTerms_eq, Arguments.toList_mk, List.flatMap_cons]

theorem occurrences_flattenNode (t : Term) (d : Nat) :
    t.flattenNode.occurrences d = t.occurrences d := by
  cases t with
  | product ps r =>
    rcases r.eq_product_or_kind_ne with ⟨qs, s, rfl⟩ | hr
    · simp only [flattenNode_product, occurrences, occurrencesOfParams_eq, paramTypes_append,
        List.flatMap_append, List.length_append, List.append_assoc, Nat.add_assoc]
    · rw [flattenNode_product_of_ne hr]
  | lambda ps b =>
    rcases b.eq_lambda_or_kind_ne with ⟨qs, c, rfl⟩ | hb
    · simp only [flattenNode_lambda, occurrences, occurrencesOfParams_eq, paramTypes_append,
        List.flatMap_append, List.length_append, List.append_assoc, Nat.add_assoc]
    · rw [flattenNode_lambda_of_ne hb]
  | apply f bs =>
    rcases f.eq_apply_or_kind_ne with ⟨g, as, rfl⟩ | hf
    · simp only [flattenNode_apply, occurrences_apply, Arguments.toList_append,
        List.flatMap_append, List.append_assoc]
    · rw [flattenNode_apply_of_ne hf]
  | _ => rfl

/-- Normalization moves no variable out of its binders or into others. -/
theorem occurrences_flat (t : Term) : ∀ d, t.flat.occurrences d = t.occurrences d := by
  induction t using induct_children with
  | node t ih =>
    intro d
    rcases t.eq_var_or_asVar?_eq_none with ⟨x, i, rfl⟩ | ht
    · rfl
    · rw [flat_eq t d, occurrences_flattenNode, occurrences_eq (by rwa [asVar?_mapChildren]),
        children_mapChildren, occurrences_eq ht, List.flatMap_map]
      exact List.flatMap_congr fun c hc => ih d c hc c.2

end Occurrences

section Replacements
variable {f g : Nat → Nat → Term}

/-- Nodes that merge still do when something is put for their variables. -/
theorem flattenNode_mapVars {t : Term} (h : t.Chained) (d : Nat) :
    (mapVars f t d).flattenNode = mapVars f t.flattenNode d := by
  cases t with
  | product ps r =>
    rcases r.eq_product_or_kind_ne with ⟨qs, s, rfl⟩ | hr
    · simp only [flattenNode_product, mapVars_eq (t := .product _ _) rfl, mapChildren,
        mapParamTypes_append, List.length_append, Nat.add_assoc]
    · exact absurd h hr
  | lambda ps b =>
    rcases b.eq_lambda_or_kind_ne with ⟨qs, c, rfl⟩ | hb
    · simp only [flattenNode_lambda, mapVars_eq (t := .lambda _ _) rfl, mapChildren,
        mapParamTypes_append, List.length_append, Nat.add_assoc]
    · exact absurd h hb
  | apply k bs =>
    rcases k.eq_apply_or_kind_ne with ⟨k, as, rfl⟩ | hk
    · simp only [flattenNode_apply, mapVars_eq (t := .apply _ _) rfl, mapChildren,
        Arguments.map_append]
    · exact absurd h hk
  | _ => exact h.elim

theorem flat_mapVars_flattenNode (t : Term) (d : Nat) :
    (mapVars f t.flattenNode d).flat = (mapVars f t d).flat := by
  by_cases h : t.Chained
  · rw [← flattenNode_mapVars h, flat_flattenNode]
  · rw [flattenNode, (flatten?_eq_none_iff t).2 h, Option.getD_none]

/-- What is put into a term may be put into what is left of it when it is normalized, and may be
normalized itself. -/
theorem flat_mapVars (t : Term) :
    ∀ {d}, (∀ o ∈ t.occurrences d, (f o.1 o.2).flat = (g o.1 o.2).flat) →
      (mapVars f t d).flat = (mapVars g t.flat d).flat := by
  induction t using induct_children with
  | node t ih =>
    intro d h
    rcases t.eq_var_or_asVar?_eq_none with ⟨x, i, rfl⟩ | ht
    · exact h (i, d) (List.mem_singleton.2 rfl)
    · have hchildren : t.mapChildren (fun c e => (mapVars f c e).flat) d =
          t.mapChildren (fun c e => (mapVars g c.flat e).flat) d :=
        mapChildren_congr fun c hc =>
          ih d c hc fun o ho => h o ((mem_occurrences_iff ht).2 ⟨c, hc, ho⟩)
      have hvar : (t.mapChildren (fun c _ => c.flat) d).asVar? = none := by
        rwa [asVar?_mapChildren]
      rw [flat_eq t d, flat_mapVars_flattenNode, mapVars_eq hvar, mapVars_eq ht, flat_eq _ d,
        flat_eq _ d, mapChildren_mapChildren, mapChildren_mapChildren, mapChildren_mapChildren,
        hchildren]

end Replacements

section Renamed
variable (h : Nat → Nat → Nat)

theorem kind_renamed (t : Term) (d : Nat) :
    (mapVars (fun i e => .var "" (h i e)) t d).kind = t.kind := by
  rcases t.eq_var_or_asVar?_eq_none with ⟨x, i, rfl⟩ | ht
  · rfl
  · rw [mapVars_eq ht, kind_mapChildren]

/-- Variables put for variables leave nothing to merge where there was nothing. -/
theorem unchained_renamed {t : Term} (ht : t.Unchained) :
    ∀ d, (mapVars (fun i e => .var "" (h i e)) t d).Unchained := by
  induction t using induct_children with
  | node t ih =>
    intro d
    obtain ⟨hnode, hchildren⟩ := (all_iff_children d).1 ht
    rcases t.eq_var_or_asVar?_eq_none with ⟨x, i, rfl⟩ | hvar
    · exact (all_iff_children 0).2 ⟨id, nofun⟩
    · rw [mapVars_eq hvar]
      refine (all_iff_children d).2 ⟨?_, ?_⟩
      · cases t <;> simpa only [mapChildren, Chained, kind_renamed] using hnode
      · rw [children_mapChildren, List.forall_mem_map]
        exact fun c hc => ih d c hc (hchildren c hc) c.2

theorem flat_of_unchained {t : Term} (ht : t.Unchained) : t.flat = t := by
  induction t using induct_children with
  | node t ih =>
    obtain ⟨hnode, hchildren⟩ := (all_iff_children 0).1 ht
    have hsame : t.mapChildren (fun c _ => c.flat) 0 = t.mapChildren (fun c _ => c) 0 :=
      mapChildren_congr fun c hc => ih 0 c hc (hchildren c hc)
    rw [flat_eq t 0, hsame, mapChildren_id, flattenNode, (flatten?_eq_none_iff t).2 hnode,
      Option.getD_none]

theorem flat_renamed (t : Term) (d : Nat) :
    (mapVars (fun i e => .var "" (h i e)) t d).flat =
      mapVars (fun i e => .var "" (h i e)) t.flat d := by
  rw [flat_mapVars t fun _ _ => rfl, flat_of_unchained (unchained_renamed h (unchained_flat t) d)]

end Renamed

section Normalize
variable (t : Term)

theorem bare_normalize_bare : t.normalize.bare = t.bare.flat := by rw [bare_normalize, bare_flat]

theorem bare_normalize_shift (c : Nat) (delta : Int) :
    (t.shift c delta).normalize.bare = (t.normalize.shift c delta).bare := by
  rw [bare_normalize_bare, bare_shift, bare_shift, bare_normalize_bare, shiftVar_eq, flat_renamed]

theorem flat_substVar (start : Nat) (us : List Term) (i d : Nat) :
    (substVar start us i d).flat = (substVar start (us.map normalize) i d).flat := by
  unfold substVar
  split
  · rfl
  · rw [List.getElem?_map, List.length_map]
    cases us[i - Index.add start d]? with
    | none => rfl
    | some s =>
      change (s.shift 0 d).bare.flat = (s.normalize.shift 0 d).bare.flat
      rw [bare_shift, bare_shift, bare_normalize_bare]
      exact flat_mapVars s.bare fun _ _ => rfl

theorem bare_normalize_subst (i : Nat) (us : List Term) :
    (t.subst i us).normalize.bare =
      (t.normalize.subst i (us.map normalize)).normalize.bare := by
  rw [bare_normalize_bare, bare_normalize_bare, bare_subst, bare_subst, bare_normalize_bare]
  exact flat_mapVars t.bare fun o _ => flat_substVar i us o.1 o.2

theorem externalReferences_normalize : t.normalize.externalReferences = t.externalReferences :=
  externalReferences_eq_of_occurrences (by
    rw [← occurrences_bare, bare_normalize, occurrences_bare, occurrences_flat])

end Normalize

/-- Normalization goes through moves, also where an index stops at an end of its range, goes through
substitutions if what they leave is normalized again, and keeps the references. -/
theorem normalize_commutes (t : Term) :
    (∀ c delta, (t.shift c delta).normalize == t.normalize.shift c delta) ∧
    (∀ i us, (t.subst i us).normalize ==
      (t.normalize.subst i (us.map normalize)).normalize) ∧
    t.normalize.externalReferences = t.externalReferences :=
  ⟨fun c delta => (same_iff_bare_eq _ _).2 (bare_normalize_shift t c delta),
    fun i us => (same_iff_bare_eq _ _).2 (bare_normalize_subst t i us),
    externalReferences_normalize t⟩

end InductiveTerms.Term
