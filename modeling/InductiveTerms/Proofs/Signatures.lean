import InductiveTerms.Proofs.Outside

/-!
Signatures of specialized functions. The signature of a function reads outside of its bundle.
Putting constants for the parameters that have slots, one after another, instantiates it
(`instantiateSlots`), and contractions lead from there to the signature of the specialized function
(`signature_specialize`): what the parts are rewritten to inside of the bundle is what they are
rewritten to outside of it, seen from inside.
-/
namespace InductiveTerms
open Term Traversal

theorem Term.exists_shift_productOver (ps : List (Param Term)) (r : Term) (limit : Nat)
    (delta : Int) :
    ∃ ps' r', (productOver ps r).shift limit delta = productOver ps' r' ∧
      ps'.map (·.name) = ps.map (·.name) := by
  cases ps with
  | nil => exact ⟨[], _, rfl, rfl⟩
  | cons p ps =>
    by_cases hdelta : delta = 0
    · exact ⟨p :: ps, r, by simp [shift, shiftM, shift?, hdelta], rfl⟩
    have hvisit : (productOver (p :: ps) r).shift limit delta =
        (visit (shifter (m := Id) limit delta) unshared (productOver (p :: ps) r) 0).getD
          (productOver (p :: ps) r) := by
      simp [shift, shiftM, shift?, hdelta, rewrite?, BundleLabels.tracked]
      rfl
    obtain ⟨u, o, hu, ho, hr⟩ := visit_returns (returns_id.2
      (rfl : visit (shifter (m := Id) limit delta) unshared (productOver (p :: ps) r) 0 = _))
    rw [hvisit, hr]
    cases hu with
    | @product _ ps' _ r' _ hps _ =>
      obtain rfl := returns_id.1 ho
      cases ps' with
      | nil => cases hps
      | cons p' ps' => exact ⟨p' :: ps', r', rfl, hps.names_eq⟩

namespace Specialization
variable {constants : List Term} {plan : Plan}

/-- Parameters and a result in which constants take the places of parameters. Where the pattern
names a slot, the parameter is removed, and the constant is put for its variable as it reads under
the `m` parameters that were kept before. -/
def instantiateSlots (constants : List Term) :
    Nat → Pattern → List (Param Term) → Term → List (Param Term) × Term
  | m, none :: p, x :: ps, r =>
      let rest := instantiateSlots constants (m + 1) p ps r
      (x :: rest.1, rest.2)
  | m, some slot :: p, _ :: ps, r =>
      let σ := instantiation [(constantAt constants slot).raise m]
      instantiateSlots constants m p (bindParams σ ps) (r.bind (lift ps.length σ))
  | _, _, ps, r => (ps, r)

theorem instantiateSlots_names (constants : List Term) (ps₀ : List (Param Term)) :
    ∀ {m : Nat} {before p : Pattern} {ps qs : List (Param Term)} {r : Term},
      ps₀.length = p.length → ps.map (·.name) = ps₀.map (·.name) →
        rewriteParams plan before ps₀ p = .ok qs →
          qs.map (·.name) = (instantiateSlots constants m p ps r).1.map (·.name) := by
  induction ps₀ with
  | nil =>
    intro m before p ps qs r hlen hnames hqs
    obtain rfl := List.length_eq_zero_iff.1 hlen.symm
    obtain rfl := List.map_eq_nil_iff.1 hnames
    obtain rfl := Except.ok.inj hqs
    rfl
  | cons x₀ ps₀ ih =>
    intro m before p ps qs r hlen hnames hqs
    cases ps with
    | nil => simp at hnames
    | cons x ps =>
      rw [List.map_cons, List.map_cons, List.cons.injEq] at hnames
      cases p with
      | nil => simp at hlen
      | cons s p =>
        rw [List.length_cons, List.length_cons, Nat.add_right_cancel_iff] at hlen
        cases s with
        | none =>
          rw [rewriteParams, bind_eq_ok_iff] at hqs
          obtain ⟨type, _, hqs⟩ := hqs
          obtain ⟨rest, hrewrite, hqs⟩ := bind_eq_ok_iff.1 hqs
          obtain rfl := Except.ok.inj hqs
          rw [instantiateSlots, List.map_cons, List.map_cons, ih hlen hnames.2 hrewrite, hnames.1]
        | some slot =>
          rw [rewriteParams] at hqs
          rw [instantiateSlots]
          exact ih hlen ((bindParams_names _ ps).trans hnames.2) hqs

theorem bare_product_cons {σ : Nat → Term} {x x₀ : Param Term} {ps ps₀ : List (Param Term)}
    {r r₀ : Term}
    (h : (Term.product (x :: ps) r).bare = ((Term.product (x₀ :: ps₀) r₀).bind σ).bare) :
    x.type.bare = (x₀.type.bind σ).bare ∧
      (Term.product ps r).bare = ((Term.product ps₀ r₀).bind (lift 1 σ)).bare := by
  rw [bind_product, bindParams_cons, bare_product, bare_product, Term.product.injEq, List.map_cons,
    List.map_cons, List.cons.injEq] at h
  obtain ⟨⟨hx, hps⟩, hr⟩ := h
  refine ⟨congrArg Param.type hx, ?_⟩
  rw [bind_product, bare_product, bare_product, hps, hr, lift_lift]
  rfl

section Slots
variable {before : Pattern} {ps ps₀ : List (Param Term)} {r r₀ : Term}

theorem bare_product_kept (h : (Term.product ps r).bare =
      ((Term.product ps₀ r₀).bind (lift 1 (withConstants constants 0 before))).bare) :
    (Term.product ps r).bare =
      ((Term.product ps₀ r₀).bind (withConstants constants 0 (before ++ [none]))).bare :=
  h.trans (congrArg bare (bind_congr_raise withConstants_append_none))

theorem bare_product_slot (slot : Nat) (h : (Term.product ps r).bare =
      ((Term.product ps₀ r₀).bind (lift 1 (withConstants constants 0 before))).bare) :
    ((Term.product ps r).bind
        (instantiation [(constantAt constants slot).raise before.kept])).bare =
      ((Term.product ps₀ r₀).bind (withConstants constants 0 (before ++ [some slot]))).bare := by
  have hextend := bind_lift_instantiation (σ := withConstants constants 0 before)
    (Term.product ps₀ r₀) [(constantAt constants slot).raise before.kept]
  rw [bare_bind, h, ← bare_bind]
  exact congrArg bare (hextend.trans (bind_congr_raise (withConstants_append_some slot)))

end Slots

/-- What a plan outside of a bundle makes of parameters is reached from them by putting in the
constants. -/
theorem rewriteParams_reduces (hsize : plan.bundleSize = 0) (ps₀ : List (Param Term)) :
    ∀ {before p : Pattern} {ps qs : List (Param Term)} {r r₀ : Term} {d : Nat},
      ps₀.length = p.length →
      ps.map (·.name) = ps₀.map (·.name) →
      (Term.product ps r).bare =
        ((Term.product ps₀ r₀).bind (withConstants plan.constants 0 before)).bare →
      (∀ (k : Nat) (x : Param Term), ps₀[k]? = some x → p[k]? = some none →
        ∀ o ∈ x.type.occurrences 0,
          { plan with pattern := before ++ p.take k }.ReplyExact (.var "" o.1) o.2) →
      rewriteParams plan before ps₀ p = .ok qs →
        RebuiltParams (fun c _ w => Reduces c w)
          (instantiateSlots plan.constants before.kept p ps r).1 d qs ∧
        (instantiateSlots plan.constants before.kept p ps r).2.bare =
          (r₀.bind (withConstants plan.constants 0 (before ++ p))).bare := by
  induction ps₀ with
  | nil =>
    intro before p ps qs r r₀ d hlen hnames hbare _ hqs
    obtain rfl := List.length_eq_zero_iff.1 hlen.symm
    obtain rfl := List.map_eq_nil_iff.1 hnames
    obtain rfl := Except.ok.inj hqs
    rw [bind_product, bare_product, bare_product, Term.product.injEq] at hbare
    rw [List.append_nil]
    exact ⟨.nil, hbare.2.trans (congrArg bare (bind_lift_zero r₀))⟩
  | cons x₀ ps₀ ih =>
    intro before p ps qs r r₀ d hlen hnames hbare hexact hqs
    cases ps with
    | nil => simp at hnames
    | cons x ps =>
      obtain ⟨hx, hrest⟩ := bare_product_cons hbare
      rw [List.map_cons, List.map_cons, List.cons.injEq] at hnames
      cases p with
      | nil => simp at hlen
      | cons s p =>
        rw [List.length_cons, List.length_cons, Nat.add_right_cancel_iff] at hlen
        have hexact' : ∀ (k : Nat) (y : Param Term), ps₀[k]? = some y → p[k]? = some none →
            ∀ o ∈ y.type.occurrences 0,
              { plan with pattern := before ++ [s] ++ p.take k }.ReplyExact (.var "" o.1) o.2 := by
          intro k y hy hk o ho
          have h := hexact (k + 1) y hy hk o ho
          rwa [List.take_succ_cons, ← List.singleton_append, ← List.append_assoc] at h
        have happend : before ++ s :: p = before ++ [s] ++ p := by simp
        cases s with
        | none =>
          rw [rewriteParams, bind_eq_ok_iff] at hqs
          obtain ⟨type, htype, hqs⟩ := hqs
          obtain ⟨rest, hrewrite, hqs⟩ := bind_eq_ok_iff.1 hqs
          obtain rfl := Except.ok.inj hqs
          obtain ⟨hparams, hresult⟩ :=
            ih (d := d + 1) hlen hnames.2 (bare_product_kept hrest) hexact' hrewrite
          rw [kept_append] at hparams hresult
          rw [happend]
          have hhead : Reduces x.type type := by
            have hexact₀ := hexact 0 x₀ rfl rfl
            rw [List.take_zero, List.append_nil] at hexact₀
            exact .trans (.same hx) (Plan.rewrite_reduces_withConstants htype hsize hexact₀)
          obtain ⟨y, T⟩ := x
          obtain rfl : y = x₀.name := hnames.1
          exact ⟨.cons hhead hparams, hresult⟩
        | some slot =>
          rw [rewriteParams] at hqs
          have hnames' : (bindParams (instantiation
              [(constantAt plan.constants slot).raise before.kept]) ps).map (·.name) =
                ps₀.map (·.name) := (bindParams_names _ ps).trans hnames.2
          have hput := bare_product_slot slot hrest
          rw [bind_product] at hput
          have hnext := ih (d := d) hlen hnames' hput hexact' hqs
          rw [kept_append] at hnext
          rw [happend]
          exact hnext

theorem rewriteFunction_reduces {f f' : FixFunction Term} {name : String}
    {ps : List (Param Term)} {r : Term} (h : rewriteFunction plan f name = .ok f')
    (hopens : Opens 0 plan.bundleSize (productOver ps r) (productOver f.params f.result))
    (hlen : f.params.length = ps.length)
    (hparams : ∀ (k : Nat) (x : Param Term), f.params[k]? = some x →
      plan.pattern[k]? = some none → { plan with pattern := plan.pattern.take k }.Exact x.type 0)
    (hresult : plan.Exact f.result 0) :
    ∃ qs s, Opens 0 plan.bundleSize (productOver qs s) (productOver f'.params f'.result) ∧
      Reduces (productOver (instantiateSlots plan.constants 0 plan.pattern ps r).1
        (instantiateSlots plan.constants 0 plan.pattern ps r).2) (productOver qs s) := by
  obtain ⟨harity, hqs, hs, _⟩ := rewriteFunction_parts h
  have harity' : ps.length = plan.pattern.length := hlen.symm.trans harity
  obtain ⟨hps, hr⟩ := (opens_productOver hlen).1 hopens
  obtain ⟨qs, hqs₀, hqsOpens⟩ := (rewriteParams_alone_accord hps hparams).exists_left hqs
  rw [Nat.zero_add, harity'] at hr
  obtain ⟨s, hs₀, hsOpens⟩ := (hresult.rewrite_alone_accord hr).exists_left hs
  have hsize : plan.alone.bundleSize = 0 := rfl
  have hexact : ∀ (k : Nat) (x : Param Term), ps[k]? = some x → plan.pattern[k]? = some none →
      ∀ o ∈ x.type.occurrences 0,
        { plan.alone with pattern := [] ++ plan.pattern.take k }.ReplyExact (.var "" o.1) o.2 := by
    intro k x hx hk
    obtain ⟨x', hx', hxx'⟩ := exists_opens_type hps hx
    have htake : (plan.pattern.take k).length = k := by
      have hlt := (List.getElem?_eq_some_iff.1 hk).1
      rw [List.length_take]
      omega
    rw [Nat.zero_add, ← htake] at hxx'
    exact (hparams k x' hx' hk).replyExact_alone hxx'
  have hbare : (Term.product ps r).bare =
      ((Term.product ps r).bind (withConstants plan.alone.constants 0 [])).bare := by
    rw [withConstants_nil, bare_bind]
    exact (bare_bind_var _).symm
  obtain ⟨hreducesParams, hbareResult⟩ :=
    rewriteParams_reduces (d := 0) hsize ps harity' rfl hbare hexact hqs₀
  refine ⟨qs, s, ?_, .productOver hreducesParams ?_⟩
  · have hkept : qs.length = plan.pattern.kept := rewriteParams_length ps harity' hqs₀
    rw [opens_productOver (length_eq_of_bindParams hqsOpens), Nat.zero_add, hkept]
    exact ⟨hqsOpens, hsOpens⟩
  · have hreduces := Plan.rewrite_reduces_withConstants hs₀ hsize (hresult.replyExact_alone hr)
    exact .trans (.same hbareResult) hreduces

end Specialization

namespace Bundle
open InductiveTerms.Specialization
variable {steps : Nat} {b b' : Bundle Term} {info : SpecInfo} {constants : List Term}
  {namer : Nat → String} {i : Nat} {f : FixFunction Term} {q : Pattern}

/-- Whether no index leaves its range while the parameters and the result of function `i` are
rewritten and where its signature is seen from outside of the bundle. -/
structure SignatureExact (steps : Nat) (b b' : Bundle Term) (info : SpecInfo)
    (constants : List Term) (namer : Nat → String) (i : Nat) (f : FixFunction Term) (q : Pattern) :
    Prop where
  before : (productOver f.params f.result).RaisesExactly 0
  params : ∀ (k : Nat) (x : Param Term), f.params[k]? = some x → q[k]? = some none →
    (b.plan steps info constants namer (q.take k)).Exact x.type 0
  result : (b.plan steps info constants namer q).Exact f.result 0
  after : ∀ f', b'.function? i = some f' → (productOver f'.params f'.result).RaisesExactly 0

/-- Contractions lead to the signature of a specialized function from its signature before with the
constants put in, where this does not refer to the functions of the bundle. -/
theorem signature_specialize (h : b.specialize steps info constants namer = .ok b')
    (hf : b.function? i = some f) (hq : info[i]? = some q)
    (havoids : (productOver f.params f.result).Avoids b.size 0)
    (hexact : SignatureExact steps b b' info constants namer i f q) :
    ∃ ps r ps' r', b.signature? i = some (productOver ps r) ∧ ps.length = q.length ∧
      b'.signature? i = some (productOver ps' r') ∧
      ps'.map (·.name) = (instantiateSlots constants 0 q ps r).1.map (·.name) ∧
      Reduces (productOver (instantiateSlots constants 0 q ps r).1
        (instantiateSlots constants 0 q ps r).2) (productOver ps' r') := by
  obtain ⟨f', hf', hrewrite⟩ := specialize_rewrites h hf hq
  obtain ⟨harity, hparams, _, _⟩ := rewriteFunction_parts hrewrite
  have hsize : b'.size = b.size := (specialize_size h).2
  obtain ⟨ps, r, hsignature, hnames⟩ := exists_shift_productOver f.params f.result 0 (-b.size)
  have hlen : ps.length = f.params.length := by
    simpa only [List.length_map] using congrArg List.length hnames
  have hopens := opens_shift_down havoids hexact.before
  rw [hsignature] at hopens
  obtain ⟨qs, s, hopens', hreduces⟩ :=
    rewriteFunction_reduces hrewrite hopens hlen.symm hexact.params hexact.result
  obtain ⟨ps', r', hsignature', hnames'⟩ := exists_shift_productOver f'.params f'.result 0 (-b.size)
  refine ⟨ps, r, ps', r', ?_, hlen.trans harity, ?_, ?_, ?_⟩
  · rw [signature?, hf, ← hsignature]
    rfl
  · rw [signature?, hf', hsize, ← hsignature']
    rfl
  · exact hnames'.trans (instantiateSlots_names constants f.params harity hnames hparams)
  · have hdown := hopens'.bare_shift_down (hexact.after f' hf')
    exact .trans hreduces (.same (hdown.symm.trans (congrArg bare hsignature')))

/-- `f x A v := f x A (tail v)`, for `v` of a type that depends on `x` as the family `A` says. -/
def overFamilies : Bundle Term :=
  ⟨none, [⟨"f", [⟨some "x", .global "nat"⟩,
    ⟨some "A", .product [⟨none, .global "nat"⟩] (.univ .type)⟩,
    ⟨some "v", .applyTo (.var "A" 0) [.var "x" 1]⟩], .applyTo (.var "A" 1) [.var "x" 2],
    .applyTo (.var "f" 3) [.var "x" 2, .var "A" 1, .applyTo (.global "tail") [.var "v" 0]]⟩]⟩

/-- The family of vectors over the variable just outside. -/
def vectorFamily : Term :=
  .lambda [⟨some "n", .global "nat"⟩] (.applyTo (.global "vec") [.var "Z" 1, .var "n" 0])

def overFamiliesAt : Bundle Term :=
  ⟨none, [⟨"g", [⟨some "x", .global "nat"⟩,
    ⟨some "v", .applyTo (.global "vec") [.var "Z" 2, .var "x" 0]⟩],
    .applyTo (.global "vec") [.var "Z" 3, .var "x" 1],
    .applyTo (.var "g" 2) [.var "x" 1, .applyTo (.global "tail") [.var "v" 0]]⟩]⟩

def overFamiliesPlan (q : Pattern) : Specialization.Plan :=
  overFamilies.plan 1 [[none, some 0, none]] [vectorFamily] (fun _ => "g") q

theorem overFamilies_exact :
    (overFamiliesPlan [none, some 0]).Exact (.applyTo (.var "A" 0) [.var "x" 1]) 0 ∧
      (overFamiliesPlan [none, some 0, none]).Exact (.applyTo (.var "A" 1) [.var "x" 2]) 0 := by
  constructor
  · have hA : (overFamiliesPlan [none, some 0]).Exact (.var "A" 0) 0 := .var (by decide)
    have hx : (overFamiliesPlan [none, some 0]).Exact (.var "x" 1) 0 := .var (by decide)
    exact .node (by simpa [children] using ⟨hA, hx⟩) (And.intro (by decide) trivial)
  · have hA : (overFamiliesPlan [none, some 0, none]).Exact (.var "A" 1) 0 := .var (by decide)
    have hx : (overFamiliesPlan [none, some 0, none]).Exact (.var "x" 2) 0 := .var (by decide)
    exact .node (by simpa [children] using ⟨hA, hx⟩) (And.intro (by decide) trivial)

/-- The dependent type and result of `overFamilies` contract to vectors when the family is put in
between the parameters that stay. -/
theorem signature_specialize_overFamilies :
    overFamilies.specialize 1 [[none, some 0, none]] [vectorFamily] (fun _ => "g") =
        .ok overFamiliesAt ∧
      (∀ f, overFamilies.function? 0 = some f →
        (productOver f.params f.result).Avoids overFamilies.size 0 ∧
          SignatureExact 1 overFamilies overFamiliesAt [[none, some 0, none]] [vectorFamily]
            (fun _ => "g") 0 f [none, some 0, none]) ∧
      ∃ ps r ps' r', overFamilies.signature? 0 = some (productOver ps r) ∧
        ps.length = 3 ∧ overFamiliesAt.signature? 0 = some (productOver ps' r') ∧
        ps'.map (·.name) =
          (instantiateSlots [vectorFamily] 0 [none, some 0, none] ps r).1.map (·.name) ∧
        Reduces
          (productOver (instantiateSlots [vectorFamily] 0 [none, some 0, none] ps r).1
            (instantiateSlots [vectorFamily] 0 [none, some 0, none] ps r).2)
          (productOver ps' r') := by
  have h : overFamilies.specialize 1 [[none, some 0, none]] [vectorFamily] (fun _ => "g") =
      .ok overFamiliesAt := rfl
  have hf : overFamilies.function? 0 = some _ := rfl
  have hside : ∀ f, overFamilies.function? 0 = some f →
      (productOver f.params f.result).Avoids overFamilies.size 0 ∧
        SignatureExact 1 overFamilies overFamiliesAt [[none, some 0, none]] [vectorFamily]
          (fun _ => "g") 0 f [none, some 0, none] := by
    intro f hf
    obtain rfl := Option.some.inj hf
    refine ⟨by decide, by decide, fun k x hx hk => ?_, overFamilies_exact.2, fun f' hf' => ?_⟩
    · match k, hx, hk with
      | 0, hx, _ =>
        obtain rfl := Option.some.inj hx
        exact .leaf rfl trivial
      | 2, hx, _ =>
        obtain rfl := Option.some.inj hx
        exact overFamilies_exact.1
    · obtain rfl := Option.some.inj hf'
      decide
  exact ⟨h, hside, signature_specialize h hf rfl (hside _ hf).1 (hside _ hf).2⟩

example : overFamiliesAt.signature? 0 = some (.product
    [⟨some "x", .global "nat"⟩, ⟨some "v", .applyTo (.global "vec") [.var "Z" 1, .var "x" 0]⟩]
    (.applyTo (.global "vec") [.var "Z" 2, .var "x" 1])) := rfl

end Bundle
end InductiveTerms
