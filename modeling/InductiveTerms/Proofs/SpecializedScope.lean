import InductiveTerms.Proofs.Lookups
import InductiveTerms.Proofs.Sharing
import InductiveTerms.Proofs.Residuals
import InductiveTerms.Proofs.TypeScope

/-!
A closure makes specialization safe and well scoped (`closure?_specializes_safely`). All that the
rewriting looks up is there and no subtraction goes below zero, so that a reduction that takes too
many steps is all that can keep it from an answer; and what is left of a bundle that is in scope in
a context is in scope there again, with fewer parameters.
-/
namespace InductiveTerms
open Term Traversal

/-- Whether a function is in scope under `n` variables, those of its bundle among them. -/
def FixFunction.Below (n : Nat) (f : FixFunction Term) : Prop :=
  ParamsBelow n f.params ∧ f.result.Below (n + f.arity) ∧ f.body.Below (n + f.arity)

/-- Whether a bundle is in scope in a context of `m` variables. -/
def Bundle.Below (m : Nat) (b : Bundle Term) : Prop :=
  ∀ f ∈ b.functions, f.Below (m + b.size)

instance decidableParamsBelow : (n : Nat) → (ps : List (Param Term)) → Decidable (ParamsBelow n ps)
  | _, [] => inferInstanceAs (Decidable True)
  | n, p :: ps =>
      have := decidableParamsBelow (n + 1) ps
      inferInstanceAs (Decidable (p.type.Below n ∧ ParamsBelow (n + 1) ps))

instance (n : Nat) (f : FixFunction Term) : Decidable (f.Below n) :=
  inferInstanceAs (Decidable (_ ∧ _))

instance (m : Nat) (b : Bundle Term) : Decidable (b.Below m) :=
  inferInstanceAs (Decidable (∀ f ∈ b.functions, f.Below (m + b.size)))

namespace Term
variable {n : Nat}

theorem below_lambdaOver {ps : List (Param Term)} {b : Term} :
    (lambdaOver ps b).Below n ↔ ParamsBelow n ps ∧ b.Below (n + ps.length) := by
  cases ps with
  | nil => simp [ParamsBelow]
  | cons p ps => exact below_lambda

theorem below_applyTo {f : Term} {as : List Term} :
    (f.applyTo as).Below n ↔ f.Below n ∧ ∀ a ∈ as, a.Below n := by
  cases as with
  | nil => simp
  | cons a as => exact below_apply

theorem Below.beta {ps : List (Param Term)} {b : Term} {as : List Term}
    (hfn : (Term.lambda ps b).Below n) (has : ∀ a ∈ as, a.Below n) : (beta ps b as).Below n := by
  obtain ⟨hps, hb⟩ := below_lambda.1 hfn
  have hcut : min (min ps.length as.length) ps.length = min ps.length as.length := by omega
  have hsubs : ((as.take (min ps.length as.length)).reverse).length = min ps.length as.length := by
    rw [List.length_reverse, List.length_take]
    omega
  have hinner : (lambdaOver (ps.drop (min ps.length as.length)) b).Below
      (n + ((as.take (min ps.length as.length)).reverse).length) := by
    have hparams := hps.drop (min ps.length as.length)
    rw [hcut] at hparams
    rw [hsubs, below_lambdaOver]
    refine ⟨hparams, hb.mono ?_⟩
    rw [List.length_drop]
    omega
  refine below_applyTo.2 ⟨hinner.subst fun a ha => ?_, fun a ha => ?_⟩
  · exact has a (List.mem_of_mem_take (List.mem_reverse.1 ha))
  · exact has a (List.mem_of_mem_drop ha)

theorem Below.reduceHead {steps : Nat} {t u : Term} (ht : t.Below n)
    (h : t.reduceHead steps = some u) : u.Below n := by
  induction steps generalizing t with
  | zero =>
    rcases isHeadRedex_cases t with ⟨ps, b, as, rfl⟩ | hredex
    · cases h
    · rw [reduceHead_of_not_isHeadRedex hredex] at h
      exact Option.some.inj h ▸ ht
  | succ steps ih =>
    rcases isHeadRedex_cases t with ⟨ps, b, as, rfl⟩ | hredex
    · obtain ⟨hfn, has⟩ := below_apply.1 ht
      exact ih (hfn.beta has) h
    · rw [reduceHead_of_not_isHeadRedex hredex] at h
      exact Option.some.inj h ▸ ht

theorem Below.child {t : Term} {d : Nat} (hvar : t.asVar? = none) (h : t.Below (n + d))
    {c : Term × Nat} (hc : c ∈ t.children d) : c.1.Below (n + c.2) := by
  have hadd := children_add t 0 d
  rw [Nat.zero_add] at hadd
  rw [hadd] at hc
  obtain ⟨c₀, hc₀, rfl⟩ := List.mem_map.1 hc
  change c₀.1.Below (n + (c₀.2 + d))
  rw [Nat.add_comm c₀.2, ← Nat.add_assoc]
  exact (below_iff_children hvar).1 h c₀ hc₀

theorem Rebuilt.below {t u : Term} {d : Nat} (hvar : t.asVar? = none)
    (h : Rebuilt (fun _ e w => w.Below (n + e)) t d u) : u.Below (n + d) := by
  have hu : u.asVar? = none := by rw [h.asVar?_eq, hvar]
  rw [below_iff_children hu]
  intro c hc
  have hmem : (c.1, c.2 + d) ∈ u.children d := by
    have hadd := children_add u 0 d
    rw [Nat.zero_add] at hadd
    rw [hadd]
    exact List.mem_map_of_mem hc
  obtain ⟨k, hk⟩ := List.mem_iff_getElem?.1 hmem
  obtain ⟨_, _, hdepth, hbelow⟩ := forall₂_getElem? h.children.flip hk
  rw [← hdepth] at hbelow
  rwa [Nat.add_assoc, Nat.add_comm d]

end Term

namespace Specialization

/-- Whether a plan covers its pattern with constants and replacements that are in scope, seen from
`m` variables around the bundle. -/
structure Plan.Fits (m : Nat) (plan : Plan) : Prop extends Plan.Covers plan where
  constants : ∀ c ∈ plan.constants, c.Below m
  replacements : ∀ r ∈ plan.replacements, r.Below (m + plan.bundleSize)

namespace Plan.Fits
variable {m : Nat} {plan : Plan}

theorem of_initial (h : plan.Fits m) {p : Pattern} (hp : p <+: plan.pattern) :
    { plan with pattern := p }.Fits m :=
  ⟨h.toCovers.of_initial hp, h.constants, h.replacements⟩

/-- What is put for a variable is in scope where it is put. -/
theorem below_replaces (h : plan.Fits m) {x : String} {i d : Nat} {w : Term}
    (hi : i < m + plan.bundleSize + plan.pattern.length + d) (hw : plan.Replaces x i d w) :
    w.Below (m + plan.bundleSize + plan.pattern.kept + d) := by
  have hkept : plan.pattern.kept ≤ plan.pattern.length := List.countP_le_length
  cases hw with
  | inner hlt => exact below_var.2 (by omega)
  | kept _ _ hslot =>
    have hlt := kept_drop_lt hslot
    exact below_var.2 (by omega)
  | constant _ _ _ hc =>
    have hmoved := (h.constants _ (List.mem_of_getElem? hc)).shift
      (d + plan.pattern.kept + plan.bundleSize)
    exact hmoved.mono (by omega)
  | function _ _ hr =>
    have hmoved := (h.replacements _ (List.mem_of_getElem? hr)).shift (d + plan.pattern.kept)
    exact hmoved.mono (by omega)
  | outside hle => exact below_var.2 (by omega)

theorem below_visited (h : plan.Fits m) (t : Term) : ∀ {d w},
    t.Below (m + plan.bundleSize + plan.pattern.length + d) → Visited plan.visitor t d w →
      w.Below (m + plan.bundleSize + plan.pattern.kept + d) := by
  induction t using induct_children with
  | node t ih =>
    intro d w ht hw
    rcases t.eq_var_or_asVar?_eq_none with ⟨x, i, rfl⟩ | hvar
    · exact h.below_replaces (below_var.1 ht) (visited_var hw)
    · obtain ⟨u, hu, hreduce⟩ := visited_node hvar hw
      have hbelow : u.Below (m + plan.bundleSize + plan.pattern.kept + d) :=
        Rebuilt.below hvar (hu.imp fun c hc _ hw => ih d c hc (ht.child hvar hc) hw)
      exact hbelow.reduceHead hreduce

end Plan.Fits

section Functions
variable {m : Nat} {plan : Plan}

theorem replacement_below {n g : Nat} {f : FixFunction Term} {p : Pattern} {name : String}
    (hg : g < n) (hf : f.Below (m + n)) : (replacement n g f p name).Below (m + n) := by
  refine below_lambdaOver.2 ⟨hf.1, below_applyTo.2 ⟨below_var.2 ?_, fun a ha => ?_⟩⟩
  · rw [← FixFunction.arity]
    omega
  · obtain ⟨x, i, rfl, hi⟩ := mem_keptArguments f.params ha
    exact below_var.2 (by omega)

theorem Plan.Fits.of_bundle {steps : Nat} {b : Bundle Term} {info : SpecInfo}
    {constants : List Term} {namer : Nat → String} {q : Pattern} (hb : b.Below m)
    (hconstants : ∀ c ∈ constants, c.Below m)
    (hcovers : (b.plan steps info constants namer q).Covers) :
    (b.plan steps info constants namer q).Fits m where
  toCovers := hcovers
  constants := hconstants
  replacements r hr := by
    obtain ⟨g, f, p, hf, _, rfl⟩ := mem_replacements b.functions hr
    rw [Nat.zero_add]
    exact replacement_below (Bundle.lt_of_function? hf) (hb f (List.mem_of_getElem? hf))

theorem Plan.Fits.below_rewrite (h : plan.Fits m) {t u : Term}
    (ht : t.Below (m + plan.bundleSize + plan.pattern.length)) (hu : plan.rewrite t = .ok u) :
    u.Below (m + plan.bundleSize + plan.pattern.kept) := by
  exact h.below_visited t ht (Plan.visit_of_rewrite hu)

/-- The types of the parameters that stay are in scope, each under those before it. -/
theorem rewriteParams_below (ps : List (Param Term)) : ∀ {before p ps'},
    { plan with pattern := before ++ p }.Fits m →
      ParamsBelow (m + plan.bundleSize + before.length) ps →
        rewriteParams plan before ps p = .ok ps' →
          ParamsBelow (m + plan.bundleSize + before.kept) ps' := by
  induction ps with
  | nil =>
    intro before p ps' _ _ h
    cases p <;> obtain rfl := Except.ok.inj h <;> trivial
  | cons q ps ih =>
    intro before p ps' h hps hrewrite
    cases p with
    | nil =>
      obtain rfl := Except.ok.inj hrewrite
      trivial
    | cons s p =>
      have hrest : { plan with pattern := (before ++ [s]) ++ p }.Fits m := by
        rwa [List.append_assoc, List.singleton_append]
      have hparams : ParamsBelow (m + plan.bundleSize + (before ++ [s]).length) ps := by
        rw [List.length_append, List.length_singleton]
        exact hps.2
      have hkept : (before ++ [s]).kept = before.kept + Pattern.kept [s] := List.countP_append
      cases s with
      | none =>
        rw [rewriteParams, bind_eq_ok_iff] at hrewrite
        obtain ⟨type, htype, hrewrite⟩ := hrewrite
        rw [bind_eq_ok_iff] at hrewrite
        obtain ⟨rest, hrewritten, hrewrite⟩ := hrewrite
        obtain rfl := Except.ok.inj hrewrite
        have hbelow := ih hrest hparams hrewritten
        rw [hkept] at hbelow
        exact ⟨(h.of_initial (List.prefix_append before _)).below_rewrite hps.1 htype, hbelow⟩
      | some slot =>
        rw [rewriteParams] at hrewrite
        have hbelow := ih hrest hparams hrewrite
        rwa [hkept] at hbelow

theorem rewriteFunction_below (h : plan.Fits m) {f f' : FixFunction Term} {name : String}
    (hf : f.Below (m + plan.bundleSize)) (hrewrite : rewriteFunction plan f name = .ok f') :
    f'.Below (m + plan.bundleSize) := by
  obtain ⟨harity, hparams, hresult, hbody⟩ := rewriteFunction_parts hrewrite
  obtain ⟨_, hkept, _⟩ := rewriteFunction_eq_ok hrewrite
  obtain ⟨hps, hr, hb⟩ := hf
  rw [harity] at hr hb
  refine ⟨rewriteParams_below f.params h hps hparams, ?_, ?_⟩
  · rw [FixFunction.arity, hkept]
    exact h.below_rewrite hr hresult
  · rw [FixFunction.arity, hkept]
    exact h.below_rewrite hb hbody

end Functions

end Specialization

namespace Bundle
variable {m seed : Nat} {b : Bundle Term} {p : Pattern} {info : SpecInfo} {constants : List Term}

/-- A closure makes specialization safe and well scoped. -/
theorem closure?_specializes_safely (hb : b.Below m) (hclosure : b.closure? seed p = some info)
    (hconstants : ∀ c ∈ constants, c.Below m)
    (hslots : ∀ slot, some slot ∈ p → slot < constants.length) :
    b.Describes p info ∧ ∀ steps namer,
      (∀ q ∈ info, ∀ k x i d, ∃ o,
        (b.plan steps info constants namer (q.take k)).replaceVar x i d = .ok o ∧
        (b.plan steps info constants namer (q.take k)).guardedVar x i d = some o) ∧
      (∀ e, b.specialize steps info constants namer = .error e → e = .outOfSteps) ∧
      ∀ b', b.specialize steps info constants namer = .ok b' →
        b'.size = b.size ∧ b'.Below m ∧
          ∀ i f' q, b'.function? i = some f' → info[i]? = some q → f'.arity = q.kept := by
  have hdescribes := describes_of_closure? hclosure
  refine ⟨hdescribes, fun steps namer => ?_⟩
  have hcovers : ∀ q ∈ info, (b.plan steps info constants namer q).Covers :=
    fun q hq => hdescribes.covers hslots steps namer hq
  refine ⟨fun q hq k x i d => ?_, fun e => specialize_error_of_describes hdescribes hslots,
    fun b' hb' => ?_⟩
  · exact ((hcovers q hq).of_initial (List.take_prefix k q)).replaceVar_guarded x i d
  have hlen := hdescribes.length_eq
  obtain ⟨_, hsize⟩ := specialize_size hb'
  have hfunction : ∀ i f' q, b'.function? i = some f' → info[i]? = some q →
      f'.Below (m + b.size) ∧ f'.arity = q.kept := by
    intro i f' q hf' hq
    have hlt : i < b.size := hsize ▸ lt_of_function? hf'
    obtain ⟨f, hf⟩ : ∃ f, b.function? i = some f := ⟨_, List.getElem?_eq_getElem hlt⟩
    obtain ⟨f₀, hf₀, hrewrite⟩ := specialize_rewrites hb' hf hq
    obtain rfl := Option.some.inj (hf₀.symm.trans hf')
    have hfits : (b.plan steps info constants namer q).Fits m :=
      .of_bundle hb hconstants (hcovers q (List.mem_of_getElem? hq))
    exact ⟨Specialization.rewriteFunction_below hfits (hb f (List.mem_of_getElem? hf)) hrewrite,
      (Specialization.rewriteFunction_eq_ok hrewrite).2.1⟩
  refine ⟨hsize, fun f' hf' => ?_, fun i f' q hf' hq => (hfunction i f' q hf' hq).2⟩
  obtain ⟨i, hi⟩ := List.mem_iff_getElem?.1 hf'
  have hlt : i < info.length := by
    rw [hlen, ← hsize]
    exact lt_of_function? hi
  rw [hsize]
  exact (hfunction i f' _ hi (List.getElem?_eq_getElem hlt)).1

/-- Under one variable around it, that variable being the constant put for the first parameters. -/
theorem closure?_specializes_safely_passingOn :
    passingOn.Below 1 ∧
      passingOn.closure? 0 [some 0, none] = some [[some 0, none], [some 0, none]] ∧
      (Term.var "z" 0).Below 1 ∧
      ∃ b', passingOn.specialize 1 [[some 0, none], [some 0, none]] [.var "z" 0] (fun _ => "h") =
        .ok b' ∧ b'.size = 2 ∧ b'.Below 1 := by
  have hbelow : passingOn.Below 1 := by decide
  have hclosure : passingOn.closure? 0 [some 0, none] = some [[some 0, none], [some 0, none]] := by
    decide
  have hconstants : ∀ c ∈ [Term.var "z" 0], c.Below 1 := by decide
  obtain ⟨_, hsafe⟩ := closure?_specializes_safely hbelow hclosure hconstants (by simp)
  obtain ⟨_, _, hok⟩ := hsafe 1 fun _ => "h"
  have hspecialize : passingOn.specialize 1 [[some 0, none], [some 0, none]] [.var "z" 0]
      (fun _ => "h") = .ok _ := rfl
  obtain ⟨hsize, hscope, _⟩ := hok _ hspecialize
  exact ⟨hbelow, hclosure, by decide, _, hspecialize, hsize, hscope⟩

end Bundle
end InductiveTerms
