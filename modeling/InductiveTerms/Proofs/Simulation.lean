import InductiveTerms.Proofs.Conversion
import InductiveTerms.Proofs.Solution
import InductiveTerms.Proofs.Rewriting

/-!
Two bindings of the variables of a walked term. They agree when they bind every variable alike, and
every function of the bundle to terms that are interchangeable in calls that fit. Then the term
bound in the one way and in the other are convertible, whatever it is applied to, provided all its
uses of functions are calls that fit (`bind_applyTo_convertible`). Lets are expanded, casts erased
and arguments of matches moved into the branches on the way, as the walk sees through all of them.
-/
namespace InductiveTerms
open Term Closure

namespace Term

/-- Whether a term does not refer to the `n` variables from `lo` on. -/
def Avoids (n : Nat) (t : Term) (lo : Nat) : Prop :=
  ∀ r ∈ t.externalReferences, ¬ (lo ≤ r ∧ r < lo + n)

instance (n : Nat) (t : Term) (lo : Nat) : Decidable (t.Avoids n lo) :=
  inferInstanceAs (Decidable (∀ r ∈ t.externalReferences, _))

/-- Whether the types in a term do not refer to the `n` variables from `lo` on. What types a nested
bundle has does not matter, as it may not refer to them at all. -/
inductive TypesAvoid (n : Nat) : Term → Nat → Prop
  | var {x : String} {i lo : Nat} : TypesAvoid n (.var x i) lo
  | global {x : String} {lo : Nat} : TypesAvoid n (.global x) lo
  | univ {u : Universe} {lo : Nat} : TypesAvoid n (.univ u) lo
  | product {ps : List (Param Term)} {r : Term} {lo : Nat} :
      (Term.product ps r).Avoids n lo → TypesAvoid n (.product ps r) lo
  | lambda {ps : List (Param Term)} {b : Term} {lo : Nat} :
      (∀ c ∈ paramTypes ps 0, c.1.Avoids n (lo + c.2)) → TypesAvoid n b (lo + ps.length) →
        TypesAvoid n (.lambda ps b) lo
  | letIn {x : Option String} {v t b : Term} {lo : Nat} :
      TypesAvoid n v lo → t.Avoids n lo → TypesAvoid n b (lo + 1) →
        TypesAvoid n (.letIn x v t b) lo
  | apply {f : Term} {as : Arguments Term} {lo : Nat} :
      TypesAvoid n f lo → (∀ a ∈ as.toList, TypesAvoid n a lo) → TypesAvoid n (.apply f as) lo
  | cast {t ty : Term} {k : CastKind} {lo : Nat} :
      TypesAvoid n t lo → ty.Avoids n lo → TypesAvoid n (.cast t k ty) lo
  | caseOf {p s : Term} {bs : List (Branch Term)} {lo : Nat} :
      p.Avoids n (lo + 1) → TypesAvoid n s lo →
        (∀ b ∈ bs, TypesAvoid n b.body (lo + b.arity)) → TypesAvoid n (.caseOf p s bs) lo
  | fix {i lo : Nat} {b : Bundle Term} : TypesAvoid n (.fix i b) lo

end Term

namespace Specialization

variable (b : Bundle Term) (info : SpecInfo) (constants : List Term)

/-- Terms that stand for one thing under `depth` binders: they are convertible, and to the constant
if that is what they stand for. -/
structure Alike (depth : Nat) (m : Meaning) (u v : Term) : Prop where
  convertible : Convertible SpineContraction u v
  constant : ∀ slot, m = .constant slot →
    Convertible SpineContraction u ((constantAt constants slot).raise depth)

inductive AlikeArgs (depth : Nat) : List Meaning → List Term → List Term → Prop
  | nil : AlikeArgs depth [] [] []
  | cons {m : Meaning} {u v : Term} {ms : List Meaning} {us vs : List Term} :
      Alike constants depth m u v → AlikeArgs depth ms us vs →
        AlikeArgs depth (m :: ms) (u :: us) (v :: vs)

/-- Terms that are interchangeable in the calls of function `g` that fit, also under more
binders. -/
def Interchangeable (depth g : Nat) (u v : Term) : Prop :=
  ∀ e found us vs, b.Fits info g found → AlikeArgs constants (depth + e) found us vs →
    Convertible SpineContraction ((u.raise e).applyTo us) ((v.raise e).applyTo vs)

/-- Bindings of variables of which `locals` is known, where those from `lo` on stand for the
functions of the bundle. -/
structure Agree (lo depth : Nat) (locals : List Meaning) (σ τ : Nat → Term) : Prop where
  alike : ∀ r, ¬ (lo ≤ r ∧ r < lo + b.size) →
    Alike constants depth (locals[r]?.getD .unknown) (σ r) (τ r)
  function : ∀ r, lo ≤ r → r < lo + b.size →
    ∃ g, locals[r]? = some (.function g) ∧ Interchangeable b info constants depth g (σ r) (τ r)

variable {b info constants} {lo depth : Nat} {locals found : List Meaning} {σ τ : Nat → Term}
  {us vs : List Term}

theorem Alike.of_convertible {u v : Term} (h : Convertible SpineContraction u v) :
    Alike constants depth .unknown u v := ⟨h, fun _ heq => nomatch heq⟩

theorem Alike.raise {m : Meaning} {u v : Term} (h : Alike constants depth m u v) (n : Nat) :
    Alike constants (depth + n) m (u.raise n) (v.raise n) := by
  refine ⟨h.convertible.raise n, fun slot hslot => ?_⟩
  rw [← raise_raise]
  exact (h.constant slot hslot).raise n

theorem AlikeArgs.raise (h : AlikeArgs constants depth found us vs) (n : Nat) :
    AlikeArgs constants (depth + n) found (us.map (·.raise n)) (vs.map (·.raise n)) := by
  induction h with
  | nil => exact .nil
  | cons hu _ ih => exact .cons (hu.raise n) ih

theorem AlikeArgs.length_eq (h : AlikeArgs constants depth found us vs) :
    us.length = found.length := by
  induction h with
  | nil => rfl
  | cons _ _ ih => rw [List.length_cons, List.length_cons, ih]

theorem AlikeArgs.convertible (h : AlikeArgs constants depth found us vs) :
    List.Forall₂ (Convertible SpineContraction) us vs := by
  induction h with
  | nil => exact .nil
  | cons hu _ ih => exact .cons hu.convertible ih

theorem AlikeArgs.append {found' : List Meaning} {us' vs' : List Term}
    (h : AlikeArgs constants depth found us vs) (h' : AlikeArgs constants depth found' us' vs') :
    AlikeArgs constants depth (found ++ found') (us ++ us') (vs ++ vs') := by
  induction h with
  | nil => exact h'
  | cons hu _ ih => exact .cons hu ih

theorem Interchangeable.raise {g : Nat} {u v : Term}
    (h : Interchangeable b info constants depth g u v) (n : Nat) :
    Interchangeable b info constants (depth + n) g (u.raise n) (v.raise n) := by
  intro e found us vs hfits hargs
  rw [raise_raise, raise_raise]
  exact h (n + e) found us vs hfits (Nat.add_assoc depth n e ▸ hargs)

namespace Agree

/-- Bindings that agree do so under more binders. -/
theorem lift (h : Agree b info constants lo depth locals σ τ) (n : Nat) :
    Agree b info constants (lo + n) (depth + n) (unknowns n locals) (Term.lift n σ)
      (Term.lift n τ) := by
  constructor
  · intro r hr
    rcases Nat.lt_or_ge r n with hlt | hle
    · rw [lift_of_lt hlt, lift_of_lt hlt]
      refine ⟨.refl _, fun slot hslot => ?_⟩
      rw [unknowns, List.getElem?_append_left (by simpa using hlt),
        List.getElem?_replicate, if_pos hlt] at hslot
      cases hslot
    · obtain ⟨r, rfl⟩ := Nat.exists_eq_add_of_le' hle
      rw [lift_of_le hle, lift_of_le hle, getElem?_unknowns_add, Nat.add_sub_cancel]
      exact (h.alike r (by omega)).raise n
  · intro r hlo hhi
    obtain ⟨r, rfl⟩ := Nat.exists_eq_add_of_le' (Nat.le_trans (Nat.le_add_left n lo) hlo)
    obtain ⟨g, hg, hcall⟩ := h.function r (by omega) (by omega)
    refine ⟨g, by rw [getElem?_unknowns_add, hg], ?_⟩
    rw [lift_of_le (by omega), lift_of_le (by omega), Nat.add_sub_cancel]
    exact hcall.raise n

/-- Bindings that agree do so with one more variable bound alike. -/
theorem extend (h : Agree b info constants lo depth locals σ τ) {m : Meaning} {u v : Term}
    (hu : Alike constants depth m u v) :
    Agree b info constants (lo + 1) depth (m :: locals) (Term.extend [u] σ)
      (Term.extend [v] τ) := by
  constructor
  · intro r hr
    cases r with
    | zero => exact hu
    | succ r => exact h.alike r (by omega)
  · intro r hlo hhi
    cases r with
    | zero => omega
    | succ r => exact h.function r (by omega) (by omega)

/-- A term that refers to no function is convertible under both bindings. -/
theorem bind_of_avoids (h : Agree b info constants lo depth locals σ τ) {t : Term}
    (ht : t.Avoids b.size lo) : Convertible SpineContraction (t.bind σ) (t.bind τ) := by
  refine .bind_free fun o ho hle => ?_
  exact (h.alike _ (ht _ (mem_externalReferences.2 ⟨o, ho, hle, rfl⟩))).convertible.raise o.2

end Agree

/-- What stands for a constant is convertible to it. -/
theorem bind_of_meaning {slot : Nat} (t : Term) :
    ∀ {locals σ}, (∀ r, locals[r]? = some (.constant slot) →
      Convertible SpineContraction (σ r) ((constantAt constants slot).raise depth)) →
      meaning t locals = .constant slot →
        Convertible SpineContraction (t.bind σ) ((constantAt constants slot).raise depth) := by
  induction t using induct_children with
  | node t ih =>
    intro locals σ hσ h
    cases t with
    | var x i =>
      have hi : locals[i]? = some (.constant slot) := by
        cases hi : locals[i]? <;> simp_all [meaning]
      have hraise : Convertible SpineContraction ((Term.var x i).bind σ) (σ i) :=
        .same (by rw [bind_var, bare_raise, raise_zero])
      exact hraise.trans (hσ i hi)
    | letIn x v ty b =>
      have hextend : ∀ r, (meaning v locals :: locals)[r]? = some (.constant slot) →
          Convertible SpineContraction (Term.extend [v.bind σ] σ r)
            ((constantAt constants slot).raise depth) := by
        intro r hr
        cases r with
        | zero => exact ih 0 (v, 0) (by simp [children]) hσ (Option.some.inj hr)
        | succ r => exact hσ r hr
      exact (Convertible.letIn_bind x v ty b σ).trans (ih 0 (b, 1) (by simp [children]) hextend h)
    | cast u k ty =>
      rw [bind_cast]
      exact .trans (.rule (.contraction .cast)) (ih 0 (u, 0) (by simp [children]) hσ h)
    | _ => simp [meaning] at h

theorem Agree.alike_bind (h : Agree b info constants lo depth locals σ τ) {t : Term}
    (ht : Convertible SpineContraction (t.bind σ) (t.bind τ)) :
    Alike constants depth (meaning t locals) (t.bind σ) (t.bind τ) := by
  refine ⟨ht, fun slot hslot => bind_of_meaning t (fun r hr => ?_) hslot⟩
  have hplain : ¬ (lo ≤ r ∧ r < lo + b.size) := by
    rintro ⟨hlo, hhi⟩
    obtain ⟨g, hg, _⟩ := h.function r hlo hhi
    rw [hr] at hg
    cases hg
  exact (h.alike r hplain).constant slot (by rw [hr, Option.getD_some])

theorem Agree.alikeArgs_bind (h : Agree b info constants lo depth locals σ τ) {as : List Term}
    (has : ∀ a ∈ as, Convertible SpineContraction (a.bind σ) (a.bind τ)) :
    AlikeArgs constants depth (as.map (meaning · locals)) (as.map (·.bind σ))
      (as.map (·.bind τ)) := by
  induction as with
  | nil => exact .nil
  | cons a as ih =>
    simp only [List.forall_mem_cons] at has
    exact .cons (h.alike_bind has.1) (ih has.2)

/-- What a walk asks of a term: all its uses of functions are calls that fit, it has none in nested
bundles, and its types do not refer to functions. -/
structure Callable (b : Bundle Term) (info : SpecInfo) (t : Term) (lo : Nat)
    (locals found : List Meaning) : Prop where
  types : t.TypesAvoid b.size lo
  fits : ∀ g args, Uses .walked t locals found g args → b.Fits info g args
  not_nested : ∀ g args, ¬ Uses .nested t locals found g args

theorem Callable.position {t : Term} (h : Callable b info t lo locals found) (pos : Position)
    (hpos : pos ∈ positions t locals found) (hplace : pos.place = .walked) {lo' : Nat}
    (htypes : pos.term.TypesAvoid b.size lo') :
    Callable b info pos.term lo' pos.locals pos.args := by
  have hwithin : ∀ place, pos.place.within place = place := fun place => by rw [hplace]; rfl
  refine ⟨htypes, fun g args huse => ?_, fun g args huse => ?_⟩
  · have hparent := Uses.inside hpos huse
    rw [hwithin] at hparent
    exact h.fits g args hparent
  · have hparent := Uses.inside hpos huse
    rw [hwithin] at hparent
    exact h.not_nested g args hparent

namespace Callable

theorem lambda {ps : List (Param Term)} {t : Term}
    (h : Callable b info (.lambda ps t) lo locals found) :
    (∀ c ∈ paramTypes ps 0, c.1.Avoids b.size (lo + c.2)) ∧
      Callable b info t (lo + ps.length) (unknowns ps.length locals) [] := by
  cases h.types with
  | lambda hps ht =>
    have hpos : aside .walked locals (t, ps.length) ∈ positions (.lambda ps t) locals found := by
      simp [positions]
    exact ⟨hps, h.position _ hpos rfl ht⟩

theorem letIn {x : Option String} {v ty t : Term}
    (h : Callable b info (.letIn x v ty t) lo locals found) :
    Callable b info v lo locals [] ∧
      Callable b info t (lo + 1) (meaning v locals :: locals) found := by
  cases h.types with
  | letIn hv _ ht =>
    have hvalue : aside .walked locals (v, 0) ∈ positions (.letIn x v ty t) locals found := by
      simp [positions]
    have hbody : ⟨.walked, t, meaning v locals :: locals, found⟩ ∈
        positions (.letIn x v ty t) locals found := by
      simp [positions]
    exact ⟨h.position _ hvalue rfl hv, h.position _ hbody rfl ht⟩

theorem apply {f : Term} {as : Arguments Term}
    (h : Callable b info (.apply f as) lo locals found) :
    Callable b info f lo locals (as.toList.map (meaning · locals) ++ found) ∧
      ∀ a ∈ as.toList, Callable b info a lo locals [] := by
  cases h.types with
  | apply hf has =>
    have hhead : ⟨.walked, f, locals, as.toList.map (meaning · locals) ++ found⟩ ∈
        positions (.apply f as) locals found := by
      simp [positions]
    have harg : ∀ a ∈ as.toList,
        aside .walked locals (a, 0) ∈ positions (.apply f as) locals found :=
      fun a ha => by simp [positions, aside, ha]
    exact ⟨h.position _ hhead rfl hf, fun a ha => h.position _ (harg a ha) rfl (has a ha)⟩

theorem cast {t ty : Term} {k : CastKind} (h : Callable b info (.cast t k ty) lo locals found) :
    Callable b info t lo locals found := by
  cases h.types with
  | cast ht _ =>
    have hpos : ⟨.walked, t, locals, found⟩ ∈ positions (.cast t k ty) locals found := by
      simp [positions]
    exact h.position _ hpos rfl ht

theorem caseOf {p s : Term} {bs : List (Branch Term)}
    (h : Callable b info (.caseOf p s bs) lo locals found) :
    p.Avoids b.size (lo + 1) ∧ Callable b info s lo locals [] ∧
      ∀ c ∈ bs, Callable b info c.body (lo + c.arity) (unknowns c.arity locals) found := by
  cases h.types with
  | caseOf hp hs hbs =>
    have hscrutinee : aside .walked locals (s, 0) ∈ positions (.caseOf p s bs) locals found := by
      simp [positions]
    have hbranch : ∀ c ∈ bs, ⟨.walked, c.body, unknowns c.arity locals, found⟩ ∈
        positions (.caseOf p s bs) locals found := fun c hc =>
      List.mem_cons_of_mem _ (List.mem_cons_of_mem _ (List.mem_map_of_mem hc))
    exact ⟨hp, h.position _ hscrutinee rfl hs,
      fun c hc => h.position _ (hbranch c hc) rfl (hbs c hc)⟩

/-- A nested bundle refers to no function, as it must not use any. -/
theorem avoids_fix {i : Nat} {c : Bundle Term} (h : Callable b info (.fix i c) lo locals found)
    (hlocals : ∀ r, lo ≤ r → r < lo + b.size → ∃ g, locals[r]? = some (.function g)) :
    (Term.fix i c).Avoids b.size lo := by
  intro r hr hfun
  obtain ⟨g, hg⟩ := hlocals r hfun.1 hfun.2
  obtain ⟨place, args, huse⟩ := uses_of_refers _ (mem_externalReferences.1 hr) hg found
  obtain ⟨pos, hpos, inner, hplace, _⟩ := (uses_iff_positions rfl).1 huse
  rw [place_of_fix hpos] at hplace
  rw [show place = .nested from hplace] at huse
  exact h.not_nested g args huse

end Callable

/-- A walked term is convertible under bindings that agree, whatever it is applied to. -/
theorem bind_applyTo_convertible (t : Term) : ∀ {lo depth locals found σ τ us vs},
    Agree b info constants lo depth locals σ τ → AlikeArgs constants depth found us vs →
      Callable b info t lo locals found →
        Convertible SpineContraction ((t.bind σ).applyTo us) ((t.bind τ).applyTo vs) := by
  induction t using induct_children with
  | node t ih =>
    intro lo depth locals found σ τ us vs hagree hargs hcall
    cases t with
    | var x i =>
      by_cases hfun : lo ≤ i ∧ i < lo + b.size
      · obtain ⟨g, hg, hinter⟩ := hagree.function i hfun.1 hfun.2
        exact hinter 0 found us vs (hcall.fits g found (.here hg)) hargs
      · exact .applyTo ((hagree.alike i hfun).convertible.raise 0) hargs.convertible
    | global x => exact .applyTo (.refl _) hargs.convertible
    | univ u => exact .applyTo (.refl _) hargs.convertible
    | product ps r =>
      cases hcall.types with
      | product havoids => exact .applyTo (hagree.bind_of_avoids havoids) hargs.convertible
    | lambda ps c =>
      obtain ⟨hps, hc⟩ := hcall.lambda
      have hparams := Convertible.rebuilt_bindParams (R := SpineContraction) fun q hq =>
        (hagree.lift q.2).bind_of_avoids (hps q hq)
      have hbody := ih 0 (c, 0 + ps.length) (by simp [children]) (hagree.lift ps.length) .nil hc
      rw [bind_lambda, bind_lambda]
      exact .applyTo (.node (.lambda hparams hbody)) hargs.convertible
    | letIn x v ty c =>
      obtain ⟨hv, hc⟩ := hcall.letIn
      have hvalue := ih 0 (v, 0) (by simp [children]) hagree .nil hv
      have hbody := ih 0 (c, 1) (by simp [children]) (hagree.extend (hagree.alike_bind hvalue))
        hargs hc
      have hσ := Convertible.letIn_bind x v ty c σ
      have hτ := Convertible.letIn_bind x v ty c τ
      exact .trans (.applyTo hσ (Convertible.forall₂_refl us))
        (hbody.trans (.applyTo hτ.symm (Convertible.forall₂_refl vs)))
    | apply f as =>
      obtain ⟨hf, has⟩ := hcall.apply
      have hterms : ∀ a ∈ as.toList, Convertible SpineContraction (a.bind σ) (a.bind τ) :=
        fun a ha => ih 0 (a, 0) (by simp [children, ha]) hagree .nil (has a ha)
      have halike := hagree.alikeArgs_bind hterms
      have hhead := ih 0 (f, 0) (by simp [children]) hagree (halike.append hargs) hf
      rw [bind_apply, bind_apply]
      exact .apply_applyTo_congr hhead
    | cast u k ty =>
      have hterm := ih 0 (u, 0) (by simp [children]) hagree hargs hcall.cast
      rw [bind_cast, bind_cast]
      exact .trans (.applyTo (.rule (.contraction .cast)) (Convertible.forall₂_refl us))
        (hterm.trans (.applyTo (Convertible.symm (.rule (.contraction .cast)))
          (Convertible.forall₂_refl vs)))
    | caseOf p s bs =>
      obtain ⟨hp, hs, hbs⟩ := hcall.caseOf
      have hmotive := (hagree.lift 1).bind_of_avoids hp
      have hscrutinee := ih 0 (s, 0) (by simp [children]) hagree .nil hs
      have hbranch : ∀ c ∈ bs, Convertible SpineContraction
          ((c.body.bind (Term.lift c.arity σ)).applyTo (us.map (·.raise c.arity)))
          ((c.body.bind (Term.lift c.arity τ)).applyTo (vs.map (·.raise c.arity))) := by
        intro c hc
        have hmem : (c.body, 0 + c.arity) ∈ (Term.caseOf p s bs).children 0 :=
          List.mem_cons_of_mem _ (List.mem_cons_of_mem _ (List.mem_map_of_mem hc))
        exact ih 0 _ hmem (hagree.lift c.arity) (hargs.raise c.arity) (hbs c hc)
      rw [bind_caseOf, bind_caseOf]
      refine (Convertible.caseOf_applyTo _ _ _ us).trans (.trans ?_
        (Convertible.caseOf_applyTo _ _ _ vs).symm)
      rw [List.map_map, List.map_map]
      refine .node (.caseOf (d := 0) hmotive hscrutinee ?_)
      rw [List.forall₂_map_left_iff, List.forall₂_map_right_iff, List.forall₂_same]
      exact fun c hc => ⟨rfl, rfl, hbranch c hc⟩
    | fix i c =>
      have havoids := hcall.avoids_fix fun r hlo hhi => by
        obtain ⟨g, hg, _⟩ := hagree.function r hlo hhi
        exact ⟨g, hg⟩
      exact .applyTo (hagree.bind_of_avoids havoids) hargs.convertible

end Specialization
end InductiveTerms
