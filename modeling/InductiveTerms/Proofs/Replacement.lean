import InductiveTerms.Proofs.Rewriting
import InductiveTerms.Proofs.Simulation

/-!
What stands for the functions of a bundle, before and after it is specialized. The replacement of an
old function calls the new one on the arguments that stay; `callBack` stands for the new function
and calls the old one on all arguments, the constants among them. Both together are the old function
with constants for the arguments that were dropped (`replacement_applyTo`), so in calls that fit it
may stand for itself (`interchangeable_replacement`).
-/
namespace InductiveTerms.Specialization
open Term Closure

/-- The arguments of an old function under the parameters that stay, given the number of binders
between them and the constants. -/
def fullArguments (constants : List Term) (depth : Nat) : Pattern → List Term
  | [] => []
  | none :: p => .var "" (Pattern.kept p) :: fullArguments constants depth p
  | some slot :: p => (constantAt constants slot).raise depth :: fullArguments constants depth p

/-- Stands in for the new function `g` of a bundle of `n`, with the parameters `ps`, and calls the
old one. -/
def callBack (constants : List Term) (n g : Nat) (ps : List (Param Term)) (p : Pattern)
    (name : String) : Term :=
  lambdaOver ps ((Term.var name (p.kept + n - 1 - g)).applyTo
    (fullArguments constants (n + p.kept) p))

def keepArgs : Pattern → List Term → List Term
  | none :: p, a :: as => a :: keepArgs p as
  | some _ :: p, _ :: as => keepArgs p as
  | _, _ => []

def putConstants (constants : List Term) (depth : Nat) : Pattern → List Term → List Term
  | none :: p, a :: as => a :: putConstants constants depth p as
  | some slot :: p, _ :: as =>
      (constantAt constants slot).raise depth :: putConstants constants depth p as
  | _, as => as

section Arguments
variable {constants : List Term} {σ : Nat → Term}

theorem length_keepArgs (p : Pattern) :
    ∀ as : List Term, p.length = as.length → (keepArgs p as).length = p.kept := by
  induction p with
  | nil => exact fun _ _ => rfl
  | cons s p ih =>
    intro as h
    cases as with
    | nil => simp at h
    | cons a as =>
      have hlen := ih as (by simpa using h)
      cases s with
      | none => rw [keepArgs, List.length_cons, hlen, kept_none]
      | some slot => rw [keepArgs, hlen, kept_some]

theorem putConstants_append (depth : Nat) (p : Pattern) (bs : List Term) :
    ∀ as : List Term, p.length = as.length →
      putConstants constants depth p (as ++ bs) = putConstants constants depth p as ++ bs := by
  induction p with
  | nil =>
    intro as h
    rfl
  | cons s p ih =>
    intro as h
    cases as with
    | nil => simp at h
    | cons a as =>
      have hrest := ih as (by simpa using h)
      cases s <;> simp only [List.cons_append, putConstants, hrest]

theorem keptArguments_map {F G : Term → Term} (ps : List (Param Term)) :
    ∀ {p as}, p.length = ps.length → as.length = ps.length →
      (∀ x j a, as.reverse[j]? = some a → F (.var x j) = G a) →
        (keptArguments ps p).map F = (keepArgs p as).map G := by
  induction ps with
  | nil =>
    intro p as hp has _
    obtain rfl := List.length_eq_zero_iff.1 hp
    obtain rfl := List.length_eq_zero_iff.1 has
    rfl
  | cons q ps ih =>
    intro p as hp has hF
    cases p with
    | nil => simp at hp
    | cons s p =>
      cases as with
      | nil => simp at has
      | cons a as =>
        rw [List.length_cons, List.length_cons, Nat.add_right_cancel_iff] at hp has
        rw [List.reverse_cons] at hF
        have hrest := ih hp has fun x j b hb => hF x j b (by
          rw [List.getElem?_append_left (List.getElem?_eq_some_iff.1 hb).1, hb])
        have hlast : ∀ x, F (.var x ps.length) = G a := fun x => hF x ps.length a (by
          rw [← has, ← List.length_reverse, List.getElem?_concat_length])
        cases s with
        | none => simp only [keptArguments, keepArgs, List.map_cons, hrest, hlast]
        | some slot => simp only [keptArguments, keepArgs, hrest]

theorem keptArguments_bind (ps : List (Param Term)) {p : Pattern} {as : List Term}
    (hp : p.length = ps.length) (has : as.length = ps.length)
    (hσ : ∀ j a, as.reverse[j]? = some a → σ j = a) :
    (keptArguments ps p).map (·.bind σ) = (keepArgs p as).map (·.raise 0) :=
  keptArguments_map ps hp has fun _ j a ha => by rw [bind_var, hσ j a ha]

variable (constants) in
theorem fullArguments_bind {depth depth' : Nat}
    (hconst : ∀ t : Term, (t.raise depth).bind σ = (t.raise depth').raise 0) (p : Pattern) :
    ∀ {as}, p.length = as.length → (∀ j a, (keepArgs p as).reverse[j]? = some a → σ j = a) →
      (fullArguments constants depth p).map (·.bind σ) =
        (putConstants constants depth' p as).map (·.raise 0) := by
  induction p with
  | nil =>
    intro as h _
    obtain rfl := List.length_eq_zero_iff.1 h.symm
    rfl
  | cons s p ih =>
    intro as h hσ
    cases as with
    | nil => simp at h
    | cons a as =>
      rw [List.length_cons, List.length_cons, Nat.add_right_cancel_iff] at h
      cases s with
      | none =>
        rw [keepArgs, List.reverse_cons] at hσ
        have hrest := ih h fun j b hb => hσ j b (by
          rw [List.getElem?_append_left (List.getElem?_eq_some_iff.1 hb).1, hb])
        have hlast : σ (Pattern.kept p) = a := hσ _ a (by
          rw [← length_keepArgs p as h, ← List.length_reverse, List.getElem?_concat_length])
        simp only [fullArguments, putConstants, List.map_cons, hrest, bind_var, hlast]
      | some slot =>
        simp only [fullArguments, putConstants, List.map_cons, ih h hσ, hconst]

theorem forall₂_raise_zero {R : Term → Term → Prop} (as : List Term) :
    List.Forall₂ (Convertible R) (as.map (·.raise 0)) as := by
  rw [List.forall₂_map_left_iff, List.forall₂_same]
  exact fun a _ => .same (by rw [bare_raise, raise_zero])

theorem extend_getElem? {subs : List Term} (j : Nat) (a : Term) (h : subs[j]? = some a) :
    extend subs σ j = a := by
  obtain ⟨hlt, rfl⟩ := List.getElem?_eq_some_iff.1 h
  exact extend_of_lt hlt

end Arguments

section Replacement
variable {constants : List Term} {n g : Nat} {h : FixFunction Term} {p : Pattern}
  {ps : List (Param Term)} {name name' : String} {σ : Nat → Term} {as : List Term}

theorem callBack_applyTo (hg : g < n) (hps : ps.length = p.kept) (hlen : p.length ≤ as.length)
    (x : Nat) :
    Convertible SpineContraction
      (((callBack constants n g ps p name').raise x).applyTo
        (keepArgs p (as.take p.length) ++ as.drop p.length))
      ((Term.var "" (n - 1 - g + x)).applyTo (putConstants constants (n + x) p as)) := by
  have htake : p.length = (as.take p.length).length := by
    rw [List.length_take, Nat.min_eq_left hlen]
  have hkeep := length_keepArgs p (as.take p.length) htake
  generalize hks : keepArgs p (as.take p.length) = ks at hkeep ⊢
  have hcall := Convertible.lambdaOver_applyTo ps ((Term.var name' (p.kept + n - 1 - g)).applyTo
    (fullArguments constants (n + p.kept) p)) (ks ++ as.drop p.length)
    (fun j => .var "" (j + x)) (by rw [hps, List.length_append]; omega)
  have hsplit : (ks ++ as.drop p.length).take ps.length = ks ∧
      (ks ++ as.drop p.length).drop ps.length = as.drop p.length := by
    rw [hps, ← hkeep]
    exact ⟨List.take_left, List.drop_left⟩
  have hconst : ∀ t : Term, (t.raise (n + p.kept)).bind
      (extend ks.reverse fun j => .var "" (j + x)) = (t.raise (n + x)).raise 0 := by
    intro t
    rw [raise_eq_bind, bind_bind, raise_raise, raise_eq_bind]
    refine bind_congr_raise fun j => ?_
    rw [bind_var, extend_of_le (by rw [List.length_reverse]; omega), List.length_reverse, hkeep]
    simp only [raise_var]
    congr 1
    omega
  have hhead : extend ks.reverse (fun j => .var "" (j + x)) (p.kept + n - 1 - g) =
      .var "" (n - 1 - g + x) := by
    rw [extend_of_le (by rw [List.length_reverse]; omega), List.length_reverse, hkeep]
    congr 1
    omega
  have hargs := fullArguments_bind constants hconst p htake
    (fun j a ha => extend_getElem? j a (hks ▸ ha))
  rw [callBack, raise_eq_bind]
  refine hcall.trans ?_
  rw [hsplit.1, hsplit.2, bind_applyTo, bind_var, hhead, hargs, raise_var, Nat.add_zero]
  refine (Convertible.applyTo (.applyTo (.refl _) (forall₂_raise_zero _))
    (Convertible.forall₂_refl _)).trans ((Convertible.applyTo_applyTo _ _ _).trans ?_)
  rw [← putConstants_append _ _ _ _ htake, List.take_append_drop]
  exact .refl _

/-- The replacement of an old function is the old function with constants, if the new function is
one that calls it back. -/
theorem replacement_applyTo (hg : g < n) (hp : h.arity = p.length) (hps : ps.length = p.kept)
    (hlen : h.arity ≤ as.length) {x : Nat}
    (hσ : σ (n - 1 - g) = (callBack constants n g ps p name').raise x) :
    Convertible SpineContraction (((replacement n g h p name).bind σ).applyTo as)
      ((Term.var "" (n - 1 - g + x)).applyTo (putConstants constants (n + x) p as)) := by
  have hcall := Convertible.lambdaOver_applyTo h.params
    ((Term.var name (h.arity + n - 1 - g)).applyTo (keptArguments h.params p)) as σ hlen
  have htake : (as.take h.arity).length = h.params.length := by
    rw [List.length_take, Nat.min_eq_left hlen, FixFunction.arity]
  have hargs := keptArguments_bind (σ := extend (as.take h.arity).reverse σ) h.params hp.symm htake
    (fun j a ha => extend_getElem? j a ha)
  have hhead : extend (as.take h.arity).reverse σ (h.arity + n - 1 - g) =
      (callBack constants n g ps p name').raise x := by
    have harity : h.params.length = h.arity := rfl
    rw [extend_of_le (by rw [List.length_reverse, htake]; omega), List.length_reverse, htake, ← hσ]
    congr 1
    omega
  refine hcall.trans ?_
  rw [← FixFunction.arity, bind_applyTo, bind_var, hhead, hargs, raise_raise, Nat.add_zero]
  refine (Convertible.applyTo (.applyTo (.refl _) (forall₂_raise_zero _))
    (Convertible.forall₂_refl _)).trans ((Convertible.applyTo_applyTo _ _ _).trans ?_)
  rw [hp] at hlen ⊢
  exact callBack_applyTo hg hps hlen x

end Replacement

theorem AlikeArgs.putConstants {constants : List Term} {depth : Nat} {found : List Meaning}
    {us vs : List Term} (h : AlikeArgs constants depth found us vs) :
    ∀ k, List.Forall₂ (Convertible SpineContraction)
      (putConstants constants depth ((found.take k).map Meaning.slot?) us) vs := by
  induction h with
  | nil =>
    intro k
    rw [List.take_nil]
    exact .nil
  | @cons m u v ms us vs hu hargs ih =>
    intro k
    cases k with
    | zero => exact .cons hu.convertible hargs.convertible
    | succ k =>
      rw [List.take_succ_cons, List.map_cons]
      cases hslot : m.slot? with
      | none => exact .cons hu.convertible (ih k)
      | some slot =>
        have hconst := hu.constant slot (Meaning.slot?_eq_some_iff.1 hslot)
        exact .cons (hconst.symm.trans hu.convertible) (ih k)

end InductiveTerms.Specialization
