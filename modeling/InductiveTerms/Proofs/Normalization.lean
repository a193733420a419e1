import InductiveTerms.Proofs.Names
import InductiveTerms.Proofs.Regrouping

/-!
The type of a normalized term. Where the rules of the type checker take no notice of how parameters
and arguments are grouped, the normalized term has the type of the term, up to grouping
(`check_normalize`). They do take notice in three places: parameters are counted before arguments
are put in, an argument without parameters that an application returns is looked into for them by
the next application, and the sorts of a product are compared as they are.
-/
namespace InductiveTerms
open Term

section PassedOn
variable {F : Term} {as bs : List Term}

/-- The argument among the first ones that a head of type `F` returns when it has got all arguments,
if it takes no more than these. -/
def passedOn? (F : Term) (as bs : List Term) : Option Term :=
  if F.unfoldProducts.1.length = as.length + bs.length then
    F.unfoldProducts.2.asVar?.bind fun v =>
      if v.2 < bs.length then none else as.reverse[v.2 - bs.length]?
  else none

/-- What a head returns when it has got the first arguments has parameters, or is no product, if
that is so of the argument that it passes on. -/
theorem hasParameters_result (h : ∀ a ∈ passedOn? F as bs, HasParameters a)
    (hcount : F.unfoldProducts.1.length = as.length + bs.length) :
    HasParameters (F.unfoldProducts.2.bind (lift bs.length (instantiation as.reverse))) := by
  rw [passedOn?, if_pos hcount] at h
  have hkind := kind_unfoldProducts_ne F
  generalize F.unfoldProducts.2 = r at h hkind ⊢
  rcases r.eq_var_or_asVar?_eq_none with ⟨x, i, rfl⟩ | hvar
  · rw [bind_var]
    refine HasParameters.raise ?_ 0
    rcases Nat.lt_or_ge i bs.length with hi | hi
    · rw [lift_of_lt hi]
      exact .var _ _
    · rw [lift_of_le hi]
      refine HasParameters.raise ?_ bs.length
      simp only [asVar?, Option.bind_some, if_neg (Nat.not_lt.2 hi)] at h
      rw [instantiation]
      cases ha : as.reverse[i - bs.length]? with
      | none => exact .var _ _
      | some a => exact h a ha
  · intro hproduct
    rw [kind_bind hvar] at hproduct
    exact absurd hproduct hkind

end PassedOn

/-- In nested applications the head has parameters for all arguments before any is put in. -/
def ChainFits (t : Term) (ctx : Context) : Prop :=
  ∀ _u ∈ t.asApply?, ∀ H ∈ (t.unfoldApps.1.check ctx).toOption,
    t.unfoldApps.2.length ≤ H.unfoldProducts.1.length

instance (t : Term) (ctx : Context) : Decidable (ChainFits t ctx) :=
  inferInstanceAs (Decidable (∀ u ∈ t.asApply?, _))

/-- What has to hold wherever a check comes for the normal form to have a type. -/
def StepFits (t : Term) (ctx : Context) : Prop := ChainFits t ctx ∧ StepExact t ctx

/-- The contexts in which a subterm and its normal form are checked. -/
structure BothContexts where
  plain : Context
  normal : Context

def normalParam (p : Param Term) : Param Term := ⟨p.name, p.type.normalize⟩

namespace BothContexts

instance : Surroundings BothContexts where
  underParam c p :=
    ⟨c.plain.push p.name p.type, c.normal.push (normalParam p).name (normalParam p).type⟩
  underLet? c x v := do
    let V ← (v.check c.plain).toOption
    let V' ← (v.normalize.check c.normal).toOption
    return ⟨c.plain.push x V, c.normal.push x V'⟩

theorem underParams_eq (c : BothContexts) (ps : List (Param Term)) :
    Surroundings.underParams c ps =
      ⟨c.plain.pushParams ps, c.normal.pushParams (ps.map normalParam)⟩ := by
  induction ps generalizing c with
  | nil => rfl
  | cons p ps ih => exact ih _

theorem mem_underLet? {c : BothContexts} {x : Option String} {v V V' : Term}
    (hV : v.check c.plain = .ok V) (hV' : v.normalize.check c.normal = .ok V') :
    ⟨c.plain.push x V, c.normal.push x V'⟩ ∈ Surroundings.underLet? c x v := by
  change _ = _
  simp only [Surroundings.underLet?, hV, hV']
  rfl

end BothContexts

/-- An argument that an application returns, and that the next one gets arguments for, has
parameters if it is a product. -/
def ChainPasses (t : Term) (c : BothContexts) : Prop :=
  ∀ u ∈ t.asApply?, ∀ H ∈ (t.unfoldApps.1.check c.plain).toOption,
    ∀ a ∈ passedOn? H u.1.unfoldApps.2 u.2, HasParameters a

instance (t : Term) (c : BothContexts) : Decidable (ChainPasses t c) :=
  inferInstanceAs (Decidable (∀ u ∈ t.asApply?, ∀ H ∈ (t.unfoldApps.1.check c.plain).toOption, _))

theorem map_bare_normalize {sorts sorts' : List Term} (h : List.Forall₂ Regrouped sorts sorts') :
    (sorts.map normalize).map bare = (sorts'.map normalize).map bare := by
  induction h with
  | nil => rfl
  | cons hS _ ih =>
    rw [List.map_cons, List.map_cons, List.map_cons, List.map_cons, ih, bare_normalize,
      bare_normalize, hS.same_flat]

theorem sortsAgree_normalize {sorts : List Term} (h : sortsAgree sorts = true) :
    sortsAgree (sorts.map normalize) = true := by
  cases sorts with
  | nil => rfl
  | cons S sorts =>
    simp only [List.map_cons, sortsAgree, List.all_map, List.all_eq_true, Function.comp_apply,
      beq_iff_bare_eq] at h ⊢
    intro R hR
    rw [bare_normalize, bare_normalize, bare_flat, bare_flat, h R hR]

/-- Sorts that differ in grouping agree on both sides or on neither, if sorts that agree once they
are normalized agree as they are. -/
theorem sortsAgree_regrouped {sorts sorts' : List Term} (h : List.Forall₂ Regrouped sorts sorts')
    (htell : sortsAgree (sorts.map normalize) = true → sortsAgree sorts = true)
    (htell' : sortsAgree (sorts'.map normalize) = true → sortsAgree sorts' = true) :
    sortsAgree sorts = sortsAgree sorts' := by
  have hsame : sortsAgree (sorts.map normalize) = sortsAgree (sorts'.map normalize) :=
    sortsAgree_congr (map_bare_normalize h)
  rw [Bool.eq_iff_iff]
  constructor
  · intro hagree
    exact htell' (hsame ▸ sortsAgree_normalize hagree)
  · intro hagree
    exact htell (hsame ▸ sortsAgree_normalize hagree)

/-- The sorts of a product agree just when they agree in its normal form. So it is when, in both,
sorts that agree once they are normalized agree as they are (`sortsAgree_regrouped`). -/
def ComparesAlike (t : Term) (c : BothContexts) : Prop :=
  ∀ u ∈ t.asProduct?, ∀ sorts ∈ (productSorts u.1 u.2 c.plain).toOption,
    ∀ sorts' ∈ (productSorts (u.1.map normalParam) u.2.normalize c.normal).toOption,
      sortsAgree sorts = sortsAgree sorts'

instance (t : Term) (c : BothContexts) : Decidable (ComparesAlike t c) :=
  inferInstanceAs (Decidable (∀ u ∈ t.asProduct?,
    ∀ sorts ∈ (productSorts u.1 u.2 c.plain).toOption, _))

/-- What has to hold where the type of a subterm counts for it to be that of the normal form. -/
def StepRegroups (t : Term) (c : BothContexts) : Prop := ChainPasses t c ∧ ComparesAlike t c

instance (t : Term) (c : BothContexts) : Decidable (StepRegroups t c) :=
  inferInstanceAs (Decidable (_ ∧ _))

/-- A term that is checked, and its flat form in a context of which the entries are regrouped; the
flag says whether the type counts. -/
structure Flattens (used : Bool) (t u : Term) (c : BothContexts) (ctx' : Context) : Prop where
  flat : u.bare = t.flat.bare
  contexts : RegroupedContext c.plain ctx'
  same : SameContext c.normal ctx'
  steps : t.Throughout StepFits c.plain
  types : t.WhereUsed StepRegroups used c
  exact : u.ChecksExactly ctx'

/-- The flat form has a type when the term has one, and where it counts it is the same up to
grouping. -/
def KeepsType (t : Term) : Prop :=
  ∀ ⦃used : Bool⦄ ⦃u : Term⦄ ⦃c : BothContexts⦄ ⦃ctx' : Context⦄ ⦃T : Term⦄,
    Flattens used t u c ctx' → t.check c.plain = .ok T →
      ∃ T', u.check ctx' = .ok T' ∧ (used = true → Regrouped T T')

section Spine
variable {ctx : Context}

theorem whereUsed_spine {σ : Type} [Surroundings σ] {Φ : Term → σ → Prop} {used : Bool} {f : Term}
    {as : Arguments Term} {s : σ} (h : (Term.apply f as).WhereUsed Φ used s) :
    (Term.apply f as).unfoldApps.1.WhereUsed Φ true s ∧
      ∀ a ∈ (Term.apply f as).unfoldApps.2, a.WhereUsed Φ false s := by
  induction f using induct_children generalizing as used with
  | node f ih =>
    obtain ⟨_, hf, has⟩ := h
    have hargs : ∀ a ∈ as.toList, a.WhereUsed Φ false s :=
      List.forall_mem_cons.2 ⟨has.1, termsWhereUsed_iff.1 has.2⟩
    rw [unfoldApps_apply]
    rcases f.eq_apply_or_kind_ne with ⟨g, bs, rfl⟩ | hkind
    · obtain ⟨hhead, hinner⟩ := ih 0 (g, 0) (by simp [children]) hf
      exact ⟨hhead, List.forall_mem_append.2 ⟨hinner, hargs⟩⟩
    · rw [unfoldApps_eq_self hkind]
      exact ⟨hf, List.forall_mem_append.2 ⟨List.forall_mem_nil _, hargs⟩⟩

theorem throughout_spine {Φ : Term → Context → Prop} {t : Term} (h : t.Throughout Φ ctx) :
    t.unfoldApps.1.Throughout Φ ctx ∧ ∀ a ∈ t.unfoldApps.2, a.Throughout Φ ctx := by
  induction t using induct_children with
  | node t ih =>
    rcases t.eq_apply_or_kind_ne with ⟨f, as, rfl⟩ | ht
    · obtain ⟨_, hf, has⟩ := h
      obtain ⟨hhead, hargs⟩ := ih 0 (f, 0) (by simp [children]) hf
      rw [unfoldApps_apply]
      exact ⟨hhead, List.forall_mem_append.2 ⟨hargs,
        List.forall_mem_cons.2 ⟨has.1, termsThroughout_iff.1 has.2⟩⟩⟩
    · rw [unfoldApps_eq_self ht]
      exact ⟨h, List.forall_mem_nil _⟩

theorem all_spine {P : Term → Prop} {t : Term} (h : t.All P) :
    t.unfoldApps.1.All P ∧ ∀ a ∈ t.unfoldApps.2, a.All P := by
  induction t using induct_children with
  | node t ih =>
    rcases t.eq_apply_or_kind_ne with ⟨f, as, rfl⟩ | ht
    · have hchildren := ((all_iff_children 0).1 h).2
      simp only [children, List.forall_mem_cons, List.forall_mem_map] at hchildren
      obtain ⟨hhead, hargs⟩ := ih 0 (f, 0) (by simp [children]) hchildren.1
      rw [unfoldApps_apply]
      exact ⟨hhead, List.forall_mem_append.2 ⟨hargs, hchildren.2⟩⟩
    · rw [unfoldApps_eq_self ht]
      exact ⟨h, List.forall_mem_nil _⟩

theorem flat_spine (f : Term) (as : Arguments Term) :
    ∃ bs : Arguments Term, bs.toList = (Term.apply f as).unfoldApps.2 ∧
      (Term.apply f as).flat = .apply (Term.apply f as).unfoldApps.1.flat (bs.map Term.flat) := by
  induction f using induct_children generalizing as with
  | node f ih =>
    rw [flat_apply, unfoldApps_apply]
    rcases f.eq_apply_or_kind_ne with ⟨g, bs, rfl⟩ | hf
    · obtain ⟨cs, hcs, hg⟩ := ih 0 (g, 0) (by simp [children]) bs
      refine ⟨cs ++ as, by rw [Arguments.toList_append, hcs], ?_⟩
      rw [hg, flattenNode_apply, Arguments.map_append]
    · refine ⟨as, by rw [unfoldApps_eq_self hf, List.nil_append], ?_⟩
      rw [unfoldApps_eq_self hf, flattenNode_apply_of_ne (by rwa [kind_flat])]

theorem regrouped_subst {T : Term} {subs : List Term} (h : T.InstantiatesExactly subs) :
    Regrouped (T.subst 0 subs) (T.bind (instantiation subs)) := by
  refine .same ?_
  rw [bare_subst_eq_bind h, bare_bind]
  exact congrArg _ (funext fun j => (bare_instantiation subs j).symm)

theorem Regrouped.subst {T T' : Term} {subs subs' : List Term} (h : Regrouped T T')
    (hT : T.InstantiatesExactly subs) (hT' : T'.InstantiatesExactly subs')
    (hsubs : List.Forall₂ Regrouped subs subs') :
    Regrouped (T.subst 0 subs) (T'.subst 0 subs') := by
  exact (regrouped_subst hT).trans
    ((h.bind_instantiation hsubs).trans (regrouped_subst hT').symm)

/-- Arguments may be put in one group after the other or all at once. -/
theorem bind_instantiation_append (t : Term) (as bs : List Term) :
    (t.bind (lift bs.length (instantiation as.reverse))).bind (instantiation bs.reverse) =
      t.bind (instantiation (as ++ bs).reverse) := by
  have hextend := bind_lift_instantiation (σ := instantiation as.reverse) t bs.reverse
  rw [List.length_reverse] at hextend
  have hfun : extend bs.reverse (instantiation as.reverse) =
      instantiation (as ++ bs).reverse := by
    funext j
    rw [List.reverse_append]
    rcases Nat.lt_or_ge j bs.reverse.length with hj | hj
    · rw [extend_of_lt hj, instantiation, List.getElem?_append_left hj,
        List.getElem?_eq_getElem hj, Option.getD_some]
    · rw [extend_of_le hj, instantiation, instantiation, List.getElem?_append_right hj,
        List.length_append, Nat.sub_sub]
  rw [hextend, hfun]

/-- Nested applications have a type when the head takes all arguments at once, and where it counts
it is that of the head with all of them put in. -/
theorem check_spine {used : Bool} {c : BothContexts} {f : Term} {as : Arguments Term} {T : Term}
    (hsteps : (Term.apply f as).Throughout StepFits c.plain)
    (htypes : (Term.apply f as).WhereUsed StepRegroups used c)
    (h : (Term.apply f as).check c.plain = .ok T) :
    ∃ H, (Term.apply f as).unfoldApps.1.check c.plain = .ok H ∧
      (Term.apply f as).unfoldApps.2.length ≤ H.unfoldProducts.1.length ∧
      (∀ a ∈ (Term.apply f as).unfoldApps.2, ∃ A, a.check c.plain = .ok A) ∧
      (used = true → Regrouped T ((H.residual (Term.apply f as).unfoldApps.2.length).bind
        (instantiation (Term.apply f as).unfoldApps.2.reverse))) := by
  induction f using induct_children generalizing as used T with
  | node f ih =>
    obtain ⟨F, hF, hargs, hle, rfl⟩ := check_apply_iff.1 h
    obtain ⟨⟨hfits, hexact⟩, hstepsf, _⟩ := hsteps
    obtain ⟨hroot, htypesf, _⟩ := htypes
    have hmemF : F ∈ (f.check c.plain).toOption := mem_toOption hF
    have hsubst := regrouped_subst (hexact F hmemF)
    have hcount := hfits (f, as.toList) rfl
    rw [unfoldApps_apply] at hcount ⊢
    rcases f.eq_apply_or_kind_ne with ⟨g, bs, rfl⟩ | hf
    · obtain ⟨H, hH, _, hargs', hregrouped⟩ := ih 0 (g, 0) (by simp [children]) hstepsf htypesf hF
      have hmemH : H ∈ ((Term.apply g bs).unfoldApps.1.check c.plain).toOption := mem_toOption hH
      have hcountH := hcount H hmemH
      refine ⟨H, hH, hcountH, List.forall_mem_append.2 ⟨hargs', hargs⟩,
        fun hused => hsubst.trans ?_⟩
      have hpasses := (hroot hused).1 (.apply g bs, as.toList) rfl H
      rw [unfoldApps_apply] at hpasses
      rw [List.length_append] at hcountH
      have hresidual := residual_bind hcountH (hasParameters_result (hpasses hmemH))
      have hbind := Regrouped.bind (((hregrouped rfl).residual.2 as.toList.length).trans hresidual)
        (instantiation as.toList.reverse)
      rwa [bind_instantiation_append, ← List.length_append] at hbind
    · rw [unfoldApps_eq_self hf, List.nil_append]
      exact ⟨F, hF, hle, hargs, fun _ => hsubst⟩

end Spine

section Rules
variable {used : Bool} {c : BothContexts} {ctx ctx' : Context}

theorem keepsType_var {x : String} {i : Nat} : KeepsType (.var x i) := by
  intro used u c ctx' T h hT
  obtain ⟨y, rfl⟩ : ∃ y, u = .var y i := by
    have hflat := h.flat
    cases u with
    | var y k =>
      simp only [bare_var, Term.flat, everywhere, flattenNode, flatten?, Option.getD_none,
        Term.var.injEq, true_and] at hflat
      exact ⟨y, by rw [hflat]⟩
    | _ => simp [Term.flat, everywhere, flattenNode, flatten?] at hflat
  cases he : c.plain.locals.get? i with
  | none =>
    rw [check_var_of_none c.plain he] at hT
    cases hT
  | some e =>
    obtain ⟨e', he', htype⟩ := h.contexts.get? he
    rw [check_var_of_some c.plain he] at hT
    obtain rfl := Except.ok.inj hT
    refine ⟨_, check_var_of_some ctx' he', fun _ => ?_⟩
    have hraise : ∀ {T : Term}, T.RaisesExactly (i + 1) →
        Regrouped (T.shift 0 (i + 1 : Nat)) (T.raise (i + 1)) :=
      fun hT => .same (by rw [bare_shift_eq_raise hT, bare_raise])
    exact (hraise (h.steps.2 e he)).trans ((htype.raise _).trans (hraise (h.exact e' he')).symm)

theorem keepsType_global {x : String} : KeepsType (.global x) := by
  intro used u c ctx' T h hT
  obtain rfl : u = .global x := by
    have hflat := h.flat
    cases u <;> simp_all [Term.flat, everywhere, flattenNode, flatten?]
  have hglobal : ctx'.globalType? x = c.plain.globalType? x := by
    rw [Context.globalType?, Context.globalType?, h.contexts.globals_eq]
  exact ⟨T, check_global_of_some ctx' (hglobal ▸ check_global hT), fun _ => .refl T⟩

theorem keepsType_univ {v : Universe} : KeepsType (.univ v) := by
  intro used u c ctx' T h hT
  obtain rfl : u = .univ v := by
    have hflat := h.flat
    cases u <;> simp_all [Term.flat, everywhere, flattenNode, flatten?]
  exact ⟨T, hT, fun _ => .refl T⟩

theorem keepsType_apply {f : Term} {as : Arguments Term}
    (hhead : KeepsType (Term.apply f as).unfoldApps.1)
    (hargs : ∀ a ∈ (Term.apply f as).unfoldApps.2, KeepsType a) : KeepsType (.apply f as) := by
  intro used u c ctx' T h hT
  have hflat := h.flat
  obtain ⟨bs', hbs', hspine⟩ := flat_spine f as
  rw [hspine, bare_apply, Arguments.map_map] at hflat
  obtain ⟨H, hH, hcount, hchecks, hregrouped⟩ := check_spine h.steps h.types hT
  obtain ⟨hstepsHead, hstepsArgs⟩ := throughout_spine h.steps
  obtain ⟨htypesHead, htypesArgs⟩ := whereUsed_spine h.types
  cases u with
  | apply g bs =>
    rw [bare_apply, Term.apply.injEq] at hflat
    obtain ⟨hg, hbs⟩ := hflat
    rw [Arguments.map_eq_map_iff, hbs'] at hbs
    obtain ⟨hexact, hexactg, hexactb, hexactbs⟩ := h.exact
    have hexactbs : ∀ b ∈ bs.toList, b.ChecksExactly ctx' :=
      List.forall_mem_cons.2 ⟨hexactb, termsThroughout_iff.1 hexactbs⟩
    generalize (Term.apply f as).unfoldApps.1 = head at *
    generalize (Term.apply f as).unfoldApps.2 = args at *
    obtain ⟨H', hH', hregroupedH⟩ :=
      hhead ⟨hg, h.contexts, h.same, hstepsHead, htypesHead, hexactg⟩ hH
    replace hregroupedH := hregroupedH rfl
    have hpairs : List.Forall₂ (fun a b => b.bare = a.flat.bare) args bs.toList :=
      (forall₂_of_map_eq hbs.symm).imp fun _ _ => Eq.symm
    have hlen : args.length = bs.toList.length := hpairs.length_eq
    have hregroupedArgs : List.Forall₂ Regrouped args bs.toList :=
      hpairs.imp fun _ _ => regrouped_of_flat
    have hchecks' : ∀ b ∈ bs.toList, ∃ B, b.check ctx' = .ok B := by
      intro b hb
      obtain ⟨i, hi, rfl⟩ := List.mem_iff_getElem.1 hb
      have hi' : i < args.length := by rwa [hlen]
      have ha : args[i] ∈ args := List.getElem_mem hi'
      obtain ⟨A, hA⟩ := hchecks _ ha
      obtain ⟨B, hB, _⟩ := hargs _ ha ⟨hpairs.get hi' hi, h.contexts, h.same, hstepsArgs _ ha,
        htypesArgs _ ha, hexactbs _ hb⟩ hA
      exact ⟨B, hB⟩
    have hcount' : bs.toList.length ≤ H'.unfoldProducts.1.length := by
      rw [← hlen, ← hregroupedH.residual.1]
      exact hcount
    have hmemH' : H' ∈ (g.check ctx').toOption := mem_toOption hH'
    have hresidual : Regrouped (H.residual args.length) (H'.residual bs.toList.length) := by
      rw [← hlen]
      exact hregroupedH.residual.2 _
    exact ⟨_, check_apply_iff.2 ⟨H', hH', hchecks', hcount', rfl⟩, fun hused =>
      (hregrouped hused).trans ((hresidual.bind_instantiation
        (List.rel_reverse hregroupedArgs)).trans (regrouped_subst (hexact H' hmemH')).symm)⟩
  | _ => simp at hflat

theorem bare_normalParam {p q : Param Term} (h : bareParam q = bareParam (flatParam p)) :
    (normalParam p).type.bare = q.type.bare := by
  have htype : q.type.bare = p.type.flat.bare := congrArg Param.type h
  rw [htype]
  exact bare_normalize p.type

theorem map_bare_normalParam {ps qs : List (Param Term)}
    (hqs : qs.map bareParam = (ps.map flatParam).map bareParam) :
    (ps.map normalParam).map bareParam = qs.map bareParam := by
  rw [hqs, List.map_map, List.map_map]
  refine List.map_congr_left fun p _ => ?_
  exact congrArg (Param.mk none) (bare_normalize p.type)

theorem checkParams_keeps {ps qs : List (Param Term)} {sorts : List Term}
    (hkeeps : ∀ p ∈ ps, KeepsType p.type)
    (hqs : qs.map bareParam = (ps.map flatParam).map bareParam)
    (hcontexts : RegroupedContext c.plain ctx') (hsame : SameContext c.normal ctx')
    (hsteps : ParamsThroughout StepFits ps c.plain)
    (htypes : ParamsWhereUsed StepRegroups used ps c) (hexact : ParamsThroughout StepExact qs ctx')
    (h : checkParams ps c.plain = .ok sorts) :
    ∃ sorts', checkParams qs ctx' = .ok sorts' ∧
      (used = true → List.Forall₂ Regrouped sorts sorts') := by
  induction ps generalizing qs c ctx' sorts with
  | nil =>
    obtain rfl : qs = [] := by simpa using hqs
    obtain rfl := Except.ok.inj h
    exact ⟨[], rfl, fun _ => .nil⟩
  | cons p ps ih =>
    cases qs with
    | nil => simp at hqs
    | cons q qs =>
      simp only [List.map_cons, List.cons.injEq] at hqs
      rw [List.forall_mem_cons] at hkeeps
      obtain ⟨S, rest, rfl, hS, hrest⟩ := checkParams_cons h
      have hflat : q.type.bare = p.type.flat.bare := congrArg Param.type hqs.1
      obtain ⟨S', hS', hregrouped⟩ :=
        hkeeps.1 ⟨hflat, hcontexts, hsame, hsteps.1, htypes.1, hexact.1⟩ hS
      have htype : Regrouped p.type q.type := regrouped_of_flat hflat
      obtain ⟨rest', hrest', hall⟩ := ih hkeeps.2 hqs.2 (hcontexts.push htype)
        (hsame.push (bare_normalParam hqs.1) _ _) hsteps.2 htypes.2 hexact.2 hrest
      refine ⟨S' :: rest', ?_, fun hused => .cons (hregrouped hused) (hall hused)⟩
      rw [checkParams_cons_eq, hS', hrest']
      rfl

theorem regrouped_productOver {ps qs : List (Param Term)} {r s : Term}
    (hqs : qs.map bareParam = (ps.map flatParam).map bareParam)
    (hr : Regrouped r s) :
    Regrouped (productOver ps r) (productOver qs s) := by
  have hmap : RebuiltParams (fun c _ w => Regrouped c w) (mapParamTypes (fun c _ => c) ps 0) 0
      (mapParamTypes (fun c _ => c.flat) ps 0) :=
    .of_types fun c _ => regrouped_flat c.1
  rw [mapParamTypes_const, mapParamTypes_const] at hmap
  have hid : (ps.map fun p : Param Term => (⟨p.name, p.type⟩ : Param Term)) = ps := List.map_id ps
  rw [hid] at hmap
  refine (Convertible.productOver hmap hr).trans (.same ?_)
  rw [bare_productOver, bare_productOver, hqs]
  rfl

/-- The flat form of a product is checked as the product of what is flat inside. -/
theorem split_product {u : Term} {ps : List (Param Term)} {r : Term}
    (h : u.bare = (Term.product ps r).flat.bare) (hexact : u.ChecksExactly ctx') :
    ∃ qs s, qs.map bareParam = (ps.map flatParam).map bareParam ∧ s.bare = r.flat.bare ∧
      u.check ctx' = (Term.product qs s).check ctx' ∧ (Term.product qs s).ChecksExactly ctx' := by
  rw [flat_product] at h
  rcases r.flat.eq_product_or_kind_ne with ⟨rs, w, hr⟩ | hr
  · rw [hr, flattenNode_product, bare_product, List.map_append] at h
    cases u with
    | product us x =>
      rw [bare_product, Term.product.injEq] at h
      obtain ⟨us₁, us₂, rfl, h₁, h₂⟩ := List.map_eq_append_iff.1 h.1
      obtain ⟨_, hparams, hresult⟩ := hexact
      obtain ⟨hparams₁, hparams₂⟩ := (paramsThroughout_append ctx').1 hparams
      rw [Context.pushParams_append] at hresult
      refine ⟨us₁, .product us₂ x, h₁, ?_, (check_product_append ctx' us₁ us₂ x).symm,
        ⟨trivial, hparams₁, trivial, hparams₂, hresult⟩⟩
      rw [hr, bare_product, bare_product, h₂, h.2]
    | _ => simp at h
  · rw [flattenNode_product_of_ne hr, bare_product] at h
    cases u with
    | product us x =>
      rw [bare_product, Term.product.injEq] at h
      exact ⟨us, x, h.1, h.2, rfl, hexact⟩
    | _ => simp at h

theorem split_lambda {u : Term} {ps : List (Param Term)} {b : Term}
    (h : u.bare = (Term.lambda ps b).flat.bare) (hexact : u.ChecksExactly ctx') :
    ∃ qs c, qs.map bareParam = (ps.map flatParam).map bareParam ∧ c.bare = b.flat.bare ∧
      (Term.lambda qs c).ChecksExactly ctx' ∧ ∀ T, (Term.lambda qs c).check ctx' = .ok T →
        ∃ T', u.check ctx' = .ok T' ∧ Regrouped T T' := by
  rw [flat_lambda] at h
  rcases b.flat.eq_lambda_or_kind_ne with ⟨rs, w, hb⟩ | hb
  · rw [hb, flattenNode_lambda, bare_lambda, List.map_append] at h
    cases u with
    | lambda us x =>
      rw [bare_lambda, Term.lambda.injEq] at h
      obtain ⟨us₁, us₂, rfl, h₁, h₂⟩ := List.map_eq_append_iff.1 h.1
      obtain ⟨_, hparams, hbody⟩ := hexact
      obtain ⟨hparams₁, hparams₂⟩ := (paramsThroughout_append ctx').1 hparams
      rw [Context.pushParams_append] at hbody
      refine ⟨us₁, .lambda us₂ x, h₁, ?_, ⟨trivial, hparams₁, trivial, hparams₂, hbody⟩,
        fun T hT => (check_lambda_append ctx' us₁ us₂ x).exists_right hT⟩
      rw [hb, bare_lambda, bare_lambda, h₂, h.2]
    | _ => simp at h
  · rw [flattenNode_lambda_of_ne hb, bare_lambda] at h
    cases u with
    | lambda us x =>
      rw [bare_lambda, Term.lambda.injEq] at h
      exact ⟨us, x, h.1, h.2, hexact, fun T hT => ⟨T, hT, .refl T⟩⟩
    | _ => simp at h

theorem productSorts_keeps {ps qs : List (Param Term)} {r s : Term} {sorts : List Term}
    (hps : ∀ p ∈ ps, KeepsType p.type) (hr : KeepsType r)
    (hqs : qs.map bareParam = (ps.map flatParam).map bareParam) (hs : s.bare = r.flat.bare)
    (hcontexts : RegroupedContext c.plain ctx') (hsame : SameContext c.normal ctx')
    (hsteps : (Term.product ps r).Throughout StepFits c.plain)
    (htypes : (Term.product ps r).WhereUsed StepRegroups used c)
    (hexact : (Term.product qs s).ChecksExactly ctx')
    (h : productSorts ps r c.plain = .ok sorts) :
    ∃ sorts', productSorts qs s ctx' = .ok sorts' ∧
      (used = true → List.Forall₂ Regrouped sorts sorts') := by
  obtain ⟨_, hstepsps, hstepsr⟩ := hsteps
  obtain ⟨_, htypesps, htypesr⟩ := htypes
  obtain ⟨_, hexactps, hexactr⟩ := hexact
  rw [BothContexts.underParams_eq] at htypesr
  obtain ⟨init, S, hinit, hS, rfl⟩ := productSorts_eq_ok_iff.1 h
  obtain ⟨init', hinit', hregrouped⟩ :=
    checkParams_keeps hps hqs hcontexts hsame hstepsps htypesps hexactps hinit
  obtain ⟨S', hS', hregroupedS⟩ := hr ⟨hs, hcontexts.pushParams hqs,
    hsame.pushParams (map_bare_normalParam hqs), hstepsr, htypesr, hexactr⟩ hS
  exact ⟨init' ++ [S'], productSorts_eq_ok_iff.2 ⟨init', S', hinit', hS', rfl⟩, fun hused =>
    List.rel_append (hregrouped hused) (.cons (hregroupedS hused) .nil)⟩

theorem keepsType_product {ps : List (Param Term)} {r : Term}
    (hps : ∀ p ∈ ps, KeepsType p.type) (hr : KeepsType r) : KeepsType (.product ps r) := by
  intro used u c ctx' T h hT
  obtain ⟨qs, s, hqs, hs, hcheck, hexact⟩ := split_product h.flat h.exact
  rw [check_product_eq_commonSort, map_eq_pure_bind] at hT
  obtain ⟨sorts, hsorts, hT⟩ := bind_eq_ok_iff.1 hT
  obtain rfl := Except.ok.inj hT
  obtain ⟨sorts', hsorts', hregrouped⟩ := productSorts_keeps hps hr hqs hs h.contexts
    h.same h.steps h.types hexact hsorts
  refine ⟨commonSort sorts', ?_, fun hused => ?_⟩
  · rw [hcheck, check_product_eq_commonSort, hsorts']
    rfl
  · -- the sorts of the normal form are those that are found here up to display
    have hsame : r.normalize.bare = s.bare := by rw [bare_normalize, hs]
    obtain ⟨sorts'', hsorts'', hbare⟩ := (sameCheck_sorts (fun p _ => checksAlike p.type)
      (checksAlike _) (map_bare_normalParam hqs) hsame h.same).exists_left hsorts'
    have hmem : sorts ∈ (productSorts ps r c.plain).toOption := mem_toOption hsorts
    have hmem'' : sorts'' ∈ (productSorts (ps.map normalParam) r.normalize c.normal).toOption :=
      mem_toOption hsorts''
    have hagree := (h.types.1 hused).2 (ps, r) rfl sorts hmem sorts'' hmem''
    rw [sortsAgree_congr hbare] at hagree
    refine commonSort_related (.refl _) ?_ hagree
    cases hregrouped hused with
    | nil => exact .none
    | cons hS _ => exact .some hS

theorem keepsType_lambda {ps : List (Param Term)} {b : Term}
    (hps : ∀ p ∈ ps, KeepsType p.type) (hb : KeepsType b) : KeepsType (.lambda ps b) := by
  intro used u c ctx' T h hT
  obtain ⟨qs, b', hqs, hb', ⟨_, hexact, hexactb⟩, hmerge⟩ := split_lambda h.flat h.exact
  obtain ⟨_, hsteps, hstepsb⟩ := h.steps
  obtain ⟨_, htypes, htypesb⟩ := h.types
  rw [BothContexts.underParams_eq] at htypesb
  rw [check_lambda_eq] at hT
  obtain ⟨sorts, hsorts, hT⟩ := bind_eq_ok_iff.1 hT
  obtain ⟨B, hB, hT⟩ := bind_eq_ok_iff.1 hT
  obtain rfl := Except.ok.inj hT
  obtain ⟨sorts', hsorts', _⟩ := checkParams_keeps hps hqs h.contexts h.same hsteps
    htypes hexact hsorts
  obtain ⟨B', hB', hregrouped⟩ := hb ⟨hb', h.contexts.pushParams hqs,
    h.same.pushParams (map_bare_normalParam hqs), hstepsb, htypesb, hexactb⟩ hB
  have hcheck : (Term.lambda qs b').check ctx' = .ok (productOver qs B') := by
    rw [check_lambda_eq, hsorts', hB']
    rfl
  obtain ⟨T', hT', hregroupedT⟩ := hmerge _ hcheck
  exact ⟨T', hT', fun hused =>
    (regrouped_productOver hqs (hregrouped hused)).trans hregroupedT⟩

theorem keepsType_letIn {x : Option String} {v t b : Term} (hv : KeepsType v)
    (ht : KeepsType t) (hb : KeepsType b) : KeepsType (.letIn x v t b) := by
  intro used u c ctx' T h hT
  have hflat := h.flat
  rw [flat_letIn, bare_letIn] at hflat
  obtain ⟨⟨_, hstep⟩, hstepsv, hstepst, hstepsb⟩ := h.steps
  obtain ⟨_, htypesv, htypest, htypesb⟩ := h.types
  cases u with
  | letIn x' v' t' b' =>
    rw [bare_letIn, Term.letIn.injEq] at hflat
    obtain ⟨_, hflatv, hflatt, hflatb⟩ := hflat
    obtain ⟨hstep', hexactv, hexactt, hexactb⟩ := h.exact
    rw [check_letIn_eq] at hT
    obtain ⟨V, hV, hT⟩ := bind_eq_ok_iff.1 hT
    obtain ⟨U, hU, hT⟩ := bind_eq_ok_iff.1 hT
    obtain ⟨B, hB, hT⟩ := bind_eq_ok_iff.1 hT
    obtain rfl := Except.ok.inj hT
    obtain ⟨V', hV', hregroupedV⟩ :=
      hv ⟨hflatv, h.contexts, h.same, hstepsv, htypesv, hexactv⟩ hV
    obtain ⟨U', hU', _⟩ :=
      ht ⟨hflatt, h.contexts, h.same, hstepst, htypest, hexactt⟩ hU
    have hsame : v.normalize.bare = v'.bare := by rw [bare_normalize, hflatv]
    obtain ⟨W, hW, hbare⟩ := (checksAlike _ hsame h.same).exists_left hV'
    have hmemV : V ∈ (v.check c.plain).toOption := mem_toOption hV
    have hmemB : B ∈ (b.check (c.plain.push x V)).toOption := mem_toOption hB
    have hmemV' : V' ∈ (v'.check ctx').toOption := mem_toOption hV'
    obtain ⟨B', hB', hregroupedB⟩ := hb ⟨hflatb, h.contexts.push (hregroupedV rfl),
      h.same.push hbare x x', hstepsb V hmemV, htypesb _ (BothContexts.mem_underLet? hV hW),
      hexactb V' hmemV'⟩ hB
    have hmemB' : B' ∈ (b'.check (ctx'.push x' V')).toOption := mem_toOption hB'
    have hregroupedv : Regrouped v v' := regrouped_of_flat hflatv
    have hcheck : (Term.letIn x' v' t' b').check ctx' = .ok (B'.subst 0 [v']) := by
      rw [check_letIn_eq, hV', hU']
      change b'.check (ctx'.push x' V') >>= _ = _
      rw [hB']
      rfl
    exact ⟨_, hcheck, fun hused => (hregroupedB hused).subst (hstep V hmemV B hmemB)
      (hstep' V' hmemV' B' hmemB') (.cons hregroupedv .nil)⟩
  | _ => simp at hflat

theorem keepsType_cast {t ty : Term} {k : CastKind} (ht : KeepsType t) :
    KeepsType (.cast t k ty) := by
  intro used u c ctx' T h hT
  have hflat := h.flat
  rw [flat_cast, bare_cast] at hflat
  cases u with
  | cast t' k' ty' =>
    rw [bare_cast, Term.cast.injEq] at hflat
    rw [check_cast_eq] at hT ⊢
    exact ht ⟨hflat.1, h.contexts, h.same, h.steps.2, h.types.2, h.exact.2⟩ hT
  | _ => simp at hflat

theorem mayBeInductive_regrouped {T T' : Term} (hglobals : ctx'.globals = ctx.globals)
    (h : Regrouped T T') : ctx'.mayBeInductive T' = ctx.mayBeInductive T := by
  have hinductive : ctx'.isInductive? = ctx.isInductive? := by
    funext x
    rw [Context.isInductive?, Context.isInductive?, hglobals]
  rw [mayBeInductive_eq, mayBeInductive_eq, h.head_eq.1, h.head_eq.2, hinductive]

theorem keepsType_caseOf {p s : Term} {bs : List (Branch Term)} (hs : KeepsType s) :
    KeepsType (.caseOf p s bs) := by
  intro used u c ctx' T h hT
  have hflat := h.flat
  rw [flat_caseOf, bare_caseOf] at hflat
  obtain ⟨⟨_, hstep⟩, hsteps⟩ := h.steps
  cases u with
  | caseOf p' s' bs' =>
    rw [bare_caseOf, Term.caseOf.injEq] at hflat
    obtain ⟨hflatp, hflats, _⟩ := hflat
    obtain ⟨hstep', hexact⟩ := h.exact
    rw [check_caseOf_eq] at hT
    obtain ⟨S, hS, hT⟩ := bind_eq_ok_iff.1 hT
    obtain ⟨S', hS', hregroupedS⟩ :=
      hs ⟨hflats, h.contexts, h.same, hsteps, h.types.2, hexact⟩ hS
    replace hregroupedS := hregroupedS rfl
    have hmemS : S ∈ (s.check c.plain).toOption := mem_toOption hS
    have hmemS' : S' ∈ (s'.check ctx').toOption := mem_toOption hS'
    have hregroupedp : Regrouped p p' := regrouped_of_flat hflatp
    cases hinductive : c.plain.mayBeInductive S with
    | false =>
      rw [hinductive, if_neg Bool.false_ne_true] at hT
      cases hT
    | true =>
      rw [hinductive, if_pos rfl] at hT
      obtain rfl := Except.ok.inj hT
      have hcheck : (Term.caseOf p' s' bs').check ctx' = .ok (p'.subst 0 [S']) := by
        rw [check_caseOf_eq, hS']
        change (if ctx'.mayBeInductive S' = true then _ else _) = _
        rw [mayBeInductive_regrouped h.contexts.globals_eq hregroupedS, hinductive, if_pos rfl]
        rfl
      exact ⟨_, hcheck, fun _ => hregroupedp.subst (hstep S hmemS) (hstep' S' hmemS')
        (.cons hregroupedS .nil)⟩
  | _ => simp at hflat

theorem keepsType_fix {i : Nat} {b : Bundle Term} : KeepsType (.fix i b) := by
  intro used u c ctx' T h hT
  have hflat := h.flat
  rw [flat_fix, bare_fix] at hflat
  obtain ⟨f, hf, rfl⟩ := check_fix hT
  cases u with
  | fix i' b' =>
    rw [bare_fix, Term.fix.injEq, Bundle.mk.injEq] at hflat
    obtain ⟨rfl, _, hfunctions⟩ := hflat
    have hfunction := congrArg (·[i']?) hfunctions
    rw [Bundle.function?] at hf
    simp only [List.getElem?_map, hf, Option.map_some] at hfunction
    obtain ⟨f', hf', heq⟩ := Option.map_eq_some_iff.1 hfunction
    rw [bareFunction, bareFunction, FixFunction.mk.injEq] at heq
    obtain ⟨_, hparams, hresult, _⟩ := heq
    exact ⟨_, check_fix_of_some ctx' hf', fun _ =>
      regrouped_productOver hparams (regrouped_of_flat hresult)⟩
  | _ => simp at hflat

/-- The rule for nested applications goes by the head and all arguments, which are no children. -/
theorem all_keepsType (t : Term) : t.All KeepsType := by
  induction t using induct_children with
  | node t ih =>
    have hall := ih 0
    refine (all_iff_children 0).2 ⟨?_, hall⟩
    have hkeeps : ∀ c ∈ t.children 0, KeepsType c.1 := fun c hc =>
      ((all_iff_children 0).1 (hall c hc)).1
    cases t with
    | var x i => exact keepsType_var
    | global x => exact keepsType_global
    | univ u => exact keepsType_univ
    | product ps r =>
      simp only [children, List.forall_mem_append, List.forall_mem_singleton] at hkeeps
      exact keepsType_product (forall_types hkeeps.1) hkeeps.2
    | lambda ps b =>
      simp only [children, List.forall_mem_append, List.forall_mem_singleton] at hkeeps
      exact keepsType_lambda (forall_types hkeeps.1) hkeeps.2
    | letIn x v t b =>
      simp only [children, List.forall_mem_cons] at hkeeps
      exact keepsType_letIn hkeeps.1 hkeeps.2.1 hkeeps.2.2.1
    | apply f as =>
      simp only [children, List.forall_mem_cons, List.forall_mem_map] at hall hkeeps
      obtain ⟨hhead, hargs⟩ := all_spine hall.1
      have hself : ∀ {t : Term}, t.All KeepsType → KeepsType t := fun ht =>
        ((all_iff_children 0).1 ht).1
      refine keepsType_apply ?_ ?_
      · rw [unfoldApps_apply]
        exact hself hhead
      · rw [unfoldApps_apply]
        exact List.forall_mem_append.2 ⟨fun a ha => hself (hargs a ha), hkeeps.2⟩
    | cast t k ty =>
      simp only [children, List.forall_mem_cons] at hkeeps
      exact keepsType_cast hkeeps.1
    | caseOf p s bs =>
      simp only [children, List.forall_mem_cons] at hkeeps
      exact keepsType_caseOf hkeeps.2.1
    | fix i b => exact keepsType_fix

theorem keepsType (t : Term) : KeepsType t := ((all_iff_children 0).1 (all_keepsType t)).1

end Rules

/-- Grouping shows in no rule that the check of a term comes to, and no index leaves its range while
the term and its normal form are checked. -/
structure Term.ChecksRegrouped (t : Term) (ctx : Context) : Prop where
  chains : t.Throughout ChainFits ctx
  types : t.WhereUsed StepRegroups true ⟨ctx, ctx⟩
  exact : t.ChecksExactly ctx
  normal : t.normalize.ChecksExactly ctx

/-- If a term has a type, its normal form has the same type up to normalization. -/
def Term.NormalKeepsType (t : Term) (ctx : Context) : Prop :=
  ∀ T, t.check ctx = .ok T → ∃ T', t.normalize.check ctx = .ok T' ∧ T'.normalize == T.normalize

theorem Term.not_normalKeepsType {t : Term} {ctx : Context} {T : Term} (hT : t.check ctx = .ok T)
    (h : ∀ T' ∈ (t.normalize.check ctx).toOption, (T'.normalize == T.normalize) = false) :
    ¬ t.NormalKeepsType ctx := by
  intro hkeeps
  obtain ⟨T', hT', heq⟩ := hkeeps T hT
  have hmem : T' ∈ (t.normalize.check ctx).toOption := mem_toOption hT'
  rw [h T' hmem] at heq
  cases heq

/-- Where the rules of the checker take no notice of grouping, normalization keeps types. -/
theorem check_normalize (globals : Globals) (entries : List (Param Term)) (t : Term)
    (h : t.ChecksRegrouped ((Context.ofGlobals globals).pushParams entries)) :
    t.NormalKeepsType ((Context.ofGlobals globals).pushParams entries) := by
  intro T hT
  have hwellFormed : ((Context.ofGlobals globals).pushParams entries).locals.WellFormed :=
    Context.wellFormed_pushParams Stack.wellFormed_empty entries
  have hempty : SameContext (Context.ofGlobals globals) (Context.ofGlobals globals) :=
    ⟨.refl globals, .empty, .empty, .nil⟩
  have hflattens : Flattens true t t.normalize ⟨_, _⟩ _ :=
    ⟨bare_normalize t, .refl hwellFormed, hempty.pushParams rfl,
      h.chains.and h.exact, h.types, h.normal⟩
  obtain ⟨T', hT', hregrouped⟩ := keepsType t hflattens hT
  refine ⟨T', hT', beq_iff_bare_eq.2 ?_⟩
  rw [bare_normalize, bare_normalize, (hregrouped rfl).same_flat]

section Examples

/-- A type, an element of it, vectors of a length, a function to any type and one that takes a
number too. -/
def vectorGlobals : Globals :=
  .ofTypes fun x => [
    ("nat", .univ .set),
    ("O", .global "nat"),
    ("vec", .product [⟨some "X", .univ .set⟩, ⟨some "n", .global "nat"⟩] (.univ .set)),
    ("any", .product [⟨some "X", .univ .type⟩] (.var "X" 0)),
    ("anyOf", .product [⟨some "X", .univ .type⟩, ⟨some "n", .global "nat"⟩] (.var "X" 1)),
    ("row", .product [⟨some "n", .global "nat"⟩, ⟨none, .global "nat"⟩]
      (.applyTo (.global "vec") [.global "nat", .var "n" 1]))].lookup x

def vectorContext : Context := .ofGlobals vectorGlobals

/-- `λ (n : nat), λ (v : (vec A) n), Π (x : A), Π (w : (vec A) n), A` under `U : Type` and `A : U`,
with vectors over `A`. -/
def vectorTerm : Term :=
  .lambda [⟨some "n", .global "nat"⟩]
    (.lambda [⟨some "v", .applyTo (.applyTo (.global "vec") [.var "A" 1]) [.var "n" 0]⟩]
      (.product [⟨some "x", .var "A" 2⟩]
        (.product [⟨some "w", .applyTo (.applyTo (.global "vec") [.var "A" 3]) [.var "n" 2]⟩]
          (.var "A" 4))))

theorem check_normalize_vectors :
    vectorTerm.ChecksRegrouped (Context.pushParams (.ofGlobals vectorGlobals)
      [⟨some "U", .univ .type⟩, ⟨some "A", .var "U" 0⟩]) ∧
    vectorTerm.NormalKeepsType (Context.pushParams (.ofGlobals vectorGlobals)
      [⟨some "U", .univ .type⟩, ⟨some "A", .var "U" 0⟩]) := by
  have h : vectorTerm.ChecksRegrouped (Context.pushParams (.ofGlobals vectorGlobals)
      [⟨some "U", .univ .type⟩, ⟨some "A", .var "U" 0⟩]) :=
    ⟨by decide, by decide, by decide, by decide⟩
  exact ⟨h, check_normalize _ _ _ h⟩

/-- `(any (nat -> nat)) O`: the second parameter is there once the first argument is put in. -/
def lateParameter : Term :=
  .applyTo (.applyTo (.global "any") [.product [⟨none, .global "nat"⟩] (.global "nat")])
    [.global "O"]

/-- `(anyOf (Π nat)) O`: what is looked at for parameters, and has none, is put in by the first
application. -/
def bareProduct : Term :=
  .applyTo (.applyTo (.global "anyOf") [.product [] (.global "nat")]) [.global "O"]

/-- `λ (x : Set), λ (y : Set), x` -/
def firstOfTwo : Term :=
  .lambda [⟨some "x", .univ .set⟩] (.lambda [⟨some "y", .univ .set⟩] (.var "x" 1))

/-- `Π (_ : λ (x : Set), λ (y : Set), x), λ (x y : Set), x`: the sorts are `Π x, Π y, Set` and
`Π x y, Set`. -/
def groupedSorts : Term :=
  .product [⟨none, firstOfTwo⟩]
    (.lambda [⟨some "x", .univ .set⟩, ⟨some "y", .univ .set⟩] (.var "x" 1))

/-- `Π (_ : λ (x : Set), λ (y : Set), x), k` under `k : Π x, Π y, Set`: the sorts are the same, but
that of the function is regrouped with it, and that of `k` is not. -/
def partedSorts : Term := .product [⟨none, firstOfTwo⟩] (.var "k" 1)

def curriedContext : Context :=
  vectorContext.push (some "k")
    (.product [⟨some "x", .univ .set⟩] (.product [⟨some "y", .univ .set⟩] (.univ .set)))

/-- `(row (O : #max)) O`: the first argument stands under a binder in between. -/
def largestIndex : Term :=
  .applyTo (.applyTo (.global "row") [.cast (.global "O") .vm (.var "x" Index.maxIndex)])
    [.global "O"]

/-- Normalization does not keep every type: each condition fails for one of these terms, where the
others hold. -/
theorem check_normalize_grouping :
    (lateParameter.WhereUsed StepRegroups true ⟨vectorContext, vectorContext⟩ ∧
      lateParameter.ChecksExactly vectorContext ∧
      lateParameter.normalize.ChecksExactly vectorContext ∧
      ¬ lateParameter.NormalKeepsType vectorContext) ∧
    (bareProduct.Throughout ChainFits vectorContext ∧
      bareProduct.WhereUsed ComparesAlike true ⟨vectorContext, vectorContext⟩ ∧
      bareProduct.ChecksExactly vectorContext ∧
      bareProduct.normalize.ChecksExactly vectorContext ∧
      ¬ bareProduct.NormalKeepsType vectorContext) ∧
    (groupedSorts.Throughout ChainFits vectorContext ∧
      groupedSorts.WhereUsed ChainPasses true ⟨vectorContext, vectorContext⟩ ∧
      groupedSorts.ChecksExactly vectorContext ∧
      groupedSorts.normalize.ChecksExactly vectorContext ∧
      ¬ groupedSorts.NormalKeepsType vectorContext) ∧
    (partedSorts.Throughout ChainFits curriedContext ∧
      partedSorts.WhereUsed ChainPasses true ⟨curriedContext, curriedContext⟩ ∧
      partedSorts.ChecksExactly curriedContext ∧
      partedSorts.normalize.ChecksExactly curriedContext ∧
      ¬ partedSorts.NormalKeepsType curriedContext) ∧
    (largestIndex.Throughout ChainFits vectorContext ∧
      largestIndex.WhereUsed StepRegroups true ⟨vectorContext, vectorContext⟩ ∧
      ¬ largestIndex.NormalKeepsType vectorContext) := by
  refine ⟨⟨by decide, by decide, by decide, ?_⟩,
    ⟨by decide, by decide, by decide, by decide, ?_⟩,
    ⟨by decide, by decide, by decide, by decide, ?_⟩,
    ⟨by decide, by decide, by decide, by decide, ?_⟩,
    ⟨by decide, by decide, ?_⟩⟩
  · exact not_normalKeepsType (T := .global "nat") rfl (by decide)
  · exact not_normalKeepsType (T := .global "nat") rfl (by decide)
  · exact not_normalKeepsType (T := .univ .type) rfl (by decide)
  · exact not_normalKeepsType rfl (by decide)
  · exact not_normalKeepsType rfl (by decide)

end Examples

end InductiveTerms
