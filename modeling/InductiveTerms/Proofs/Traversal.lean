import Mathlib.Data.List.Forall2
import InductiveTerms.Proofs.Variables
import InductiveTerms.Term.Sharing

/-!
What one step of a traversal does. Whatever a traversal gives for a term is what the visitor makes
of a node that was rebuilt from what the traversal gives for the children (`visit_returns`). Where
nothing but the values of a computation matters, this is all that is ever used of a traversal.
-/
namespace InductiveTerms

/-- Computations of which it makes sense to say that they give a value. -/
class Returning (m : Type → Type) [Monad m] where
  Returns {α : Type} : m α → α → Prop
  returns_pure {α : Type} {a b : α} : Returns (pure a) b ↔ a = b
  returns_bind {α β : Type} {x : m α} {f : α → m β} {b : β} :
    Returns (x >>= f) b ↔ ∃ a, Returns x a ∧ Returns (f a) b

export Returning (Returns returns_pure returns_bind)

instance : Returning Id where
  Returns x a := x = a
  returns_pure := Iff.rfl
  returns_bind := by
    intro α β x f b
    exact ⟨fun h => ⟨x, rfl, h⟩, fun ⟨a, ha, h⟩ => ha ▸ h⟩

instance {ε : Type} : Returning (Except ε) where
  Returns x a := x = .ok a
  returns_pure := by
    intro α a b
    exact ⟨fun h => Except.ok.inj h, fun h => h ▸ rfl⟩
  returns_bind := by
    intro α β x f b
    cases x with
    | error e => exact ⟨fun h => (nomatch h), fun ⟨a, ha, _⟩ => (nomatch ha)⟩
    | ok a => exact ⟨fun h => ⟨a, rfl, h⟩, fun ⟨a', ha, h⟩ => by cases ha; exact h⟩

theorem returns_id {α : Type} {x : Id α} {a : α} : Returns x a ↔ x = a := Iff.rfl

theorem returns_except {ε α : Type} {x : Except ε α} {a : α} : Returns x a ↔ x = .ok a := Iff.rfl

theorem bind_eq_ok_iff {ε α β : Type} {x : Except ε α} {f : α → Except ε β} {b : β} :
    (x >>= f) = .ok b ↔ ∃ a, x = .ok a ∧ f a = .ok b := by
  rw [← returns_except, Returning.returns_bind]
  rfl

theorem mem_toOption {ε α : Type} {x : Except ε α} {a : α} (h : x = .ok a) : a ∈ x.toOption := by
  rw [h]
  rfl

namespace Term

inductive RebuiltParams (R : Term → Nat → Term → Prop) :
    List (Param Term) → Nat → List (Param Term) → Prop
  | nil {d : Nat} : RebuiltParams R [] d []
  | cons {x : Option String} {t t' : Term} {ps ps' : List (Param Term)} {d : Nat} :
      R t d t' → RebuiltParams R ps (d + 1) ps' →
        RebuiltParams R (⟨x, t⟩ :: ps) d (⟨x, t'⟩ :: ps')

structure RebuiltFunction (R : Term → Nat → Term → Prop) (f : FixFunction Term) (d : Nat)
    (f' : FixFunction Term) : Prop where
  name : f'.name = f.name
  params : RebuiltParams R f.params d f'.params
  result : R f.result (d + f.arity) f'.result
  body : R f.body (d + f.arity) f'.body

structure RebuiltBranch (R : Term → Nat → Term → Prop) (d : Nat) (b b' : Branch Term) : Prop where
  constructor : b'.constructor = b.constructor
  arity : b'.arity = b.arity
  body : R b.body (d + b.arity) b'.body

/-- A node under `d` binders and one of the same layout whose children are related to its own. The
label of a bundle is not part of the layout. -/
inductive Rebuilt (R : Term → Nat → Term → Prop) : Term → Nat → Term → Prop
  | var {x : String} {i d : Nat} : Rebuilt R (.var x i) d (.var x i)
  | global {x : String} {d : Nat} : Rebuilt R (.global x) d (.global x)
  | univ {u : Universe} {d : Nat} : Rebuilt R (.univ u) d (.univ u)
  | product {ps ps' : List (Param Term)} {r r' : Term} {d : Nat} :
      RebuiltParams R ps d ps' → R r (d + ps.length) r' →
        Rebuilt R (.product ps r) d (.product ps' r')
  | lambda {ps ps' : List (Param Term)} {b b' : Term} {d : Nat} :
      RebuiltParams R ps d ps' → R b (d + ps.length) b' →
        Rebuilt R (.lambda ps b) d (.lambda ps' b')
  | letIn {x : Option String} {v v' t t' b b' : Term} {d : Nat} :
      R v d v' → R t d t' → R b (d + 1) b' → Rebuilt R (.letIn x v t b) d (.letIn x v' t' b')
  | apply {f f' : Term} {as as' : Arguments Term} {d : Nat} :
      R f d f' → List.Forall₂ (R · d ·) as.toList as'.toList →
        Rebuilt R (.apply f as) d (.apply f' as')
  | cast {t t' ty ty' : Term} {k : CastKind} {d : Nat} :
      R t d t' → R ty d ty' → Rebuilt R (.cast t k ty) d (.cast t' k ty')
  | caseOf {p p' s s' : Term} {bs bs' : List (Branch Term)} {d : Nat} :
      R p (d + 1) p' → R s d s' → List.Forall₂ (RebuiltBranch R d) bs bs' →
        Rebuilt R (.caseOf p s bs) d (.caseOf p' s' bs')
  | fix {i d : Nat} {l l' : Option Nat} {fs fs' : List (FixFunction Term)} :
      List.Forall₂ (RebuiltFunction R · (d + fs.length) ·) fs fs' →
        Rebuilt R (.fix i ⟨l, fs⟩) d (.fix i ⟨l', fs'⟩)

section Rebuilt
variable {R S : Term → Nat → Term → Prop}

theorem RebuiltParams.length_eq {ps ps' : List (Param Term)} {d : Nat}
    (h : RebuiltParams R ps d ps') : ps'.length = ps.length := by
  induction h with
  | nil => rfl
  | cons _ _ ih => simp [ih]

theorem RebuiltParams.names_eq {ps ps' : List (Param Term)} {d : Nat}
    (h : RebuiltParams R ps d ps') :
    ps'.map (·.name) = ps.map (·.name) := by
  induction h with
  | nil => rfl
  | cons _ _ ih => rw [List.map_cons, List.map_cons, ih]

theorem RebuiltFunction.arity_eq {f f' : FixFunction Term} {d : Nat}
    (h : RebuiltFunction R f d f') : f'.arity = f.arity := h.params.length_eq

theorem RebuiltParams.imp {ps ps' : List (Param Term)} {d : Nat} (h : RebuiltParams R ps d ps')
    (himp : ∀ c ∈ paramTypes ps d, ∀ u, R c.1 c.2 u → S c.1 c.2 u) : RebuiltParams S ps d ps' := by
  induction h with
  | nil => exact .nil
  | cons ht _ ih =>
    simp only [paramTypes, List.forall_mem_cons] at himp
    exact .cons (himp.1 _ ht) (ih himp.2)

theorem forall₂_imp_of_mem {α β : Type} {P Q : α → β → Prop} {as : List α} {bs : List β}
    (h : List.Forall₂ P as bs) (himp : ∀ a ∈ as, ∀ b, P a b → Q a b) : List.Forall₂ Q as bs := by
  induction h with
  | nil => exact .nil
  | cons hab _ ih =>
    simp only [List.forall_mem_cons] at himp
    exact .cons (himp.1 _ hab) (ih himp.2)

theorem Rebuilt.asVar?_eq {t u : Term} {d : Nat} (h : Rebuilt R t d u) : u.asVar? = t.asVar? := by
  cases h <;> rfl

theorem RebuiltParams.map {h k : Term → Nat → Term} {ps ps' : List (Param Term)} {d : Nat}
    (hps : RebuiltParams R ps d ps')
    (himp : ∀ c ∈ paramTypes ps d, ∀ u, R c.1 c.2 u → S (h c.1 c.2) c.2 (k u c.2)) :
    RebuiltParams S (mapParamTypes h ps d) d (mapParamTypes k ps' d) := by
  induction hps with
  | nil => exact .nil
  | cons ht _ ih =>
    simp only [paramTypes, List.forall_mem_cons] at himp
    exact .cons (himp.1 _ ht) (ih himp.2)

theorem forall₂_map_of_mem {α β γ δ : Type} {P : α → β → Prop} {Q : γ → δ → Prop} {h : α → γ}
    {k : β → δ} {as : List α} {bs : List β} (hall : List.Forall₂ P as bs)
    (himp : ∀ a ∈ as, ∀ b, P a b → Q (h a) (k b)) : List.Forall₂ Q (as.map h) (bs.map k) := by
  rw [List.forall₂_map_left_iff, List.forall₂_map_right_iff]
  exact forall₂_imp_of_mem hall himp

theorem forall₂_of_map_eq {α β γ : Type} {h : α → γ} {k : β → γ} {as : List α} {bs : List β}
    (heq : as.map h = bs.map k) : List.Forall₂ (fun a b => h a = k b) as bs := by
  have hall : List.Forall₂ Eq (as.map h) (bs.map k) := by rw [List.forall₂_eq_eq_eq, heq]
  rwa [List.forall₂_map_left_iff, List.forall₂_map_right_iff] at hall

/-- Replacing the children on both sides leaves nodes of one layout. -/
theorem Rebuilt.map {h k : Term → Nat → Term} {t u : Term} {d : Nat} (ht : Rebuilt R t d u)
    (himp : ∀ c ∈ t.children d, ∀ w, R c.1 c.2 w → S (h c.1 c.2) c.2 (k w c.2)) :
    Rebuilt S (t.mapChildren h d) d (u.mapChildren k d) := by
  cases ht with
  | var => exact .var
  | global => exact .global
  | univ => exact .univ
  | @product ps ps' r r' d hps hr =>
    simp only [children, List.forall_mem_append, List.forall_mem_singleton] at himp
    refine .product (hps.map himp.1) ?_
    rw [length_mapParamTypes, hps.length_eq]
    exact himp.2 _ hr
  | @lambda ps ps' b b' d hps hb =>
    simp only [children, List.forall_mem_append, List.forall_mem_singleton] at himp
    refine .lambda (hps.map himp.1) ?_
    rw [length_mapParamTypes, hps.length_eq]
    exact himp.2 _ hb
  | letIn hv ht hb =>
    simp only [children, List.forall_mem_cons] at himp
    exact .letIn (himp.1 _ hv) (himp.2.1 _ ht) (himp.2.2.1 _ hb)
  | apply hf has =>
    simp only [children, List.forall_mem_cons, List.forall_mem_map] at himp
    refine .apply (himp.1 _ hf) ?_
    rw [Arguments.toList_map, Arguments.toList_map]
    exact forall₂_map_of_mem has himp.2
  | cast ht hty =>
    simp only [children, List.forall_mem_cons] at himp
    exact .cast (himp.1 _ ht) (himp.2.1 _ hty)
  | caseOf hp hs hbs =>
    simp only [children, List.forall_mem_cons, List.forall_mem_map] at himp
    refine .caseOf (himp.1 _ hp) (himp.2.1 _ hs) (forall₂_map_of_mem hbs fun b hb b' hbb => ?_)
    refine ⟨hbb.constructor, hbb.arity, ?_⟩
    rw [hbb.arity]
    exact himp.2.2 b hb _ hbb.body
  | @fix i d l l' fs fs' hfs =>
    simp only [children, List.mem_flatMap, forall_exists_index, and_imp] at himp
    have hsize : fs'.length = fs.length := hfs.length_eq.symm
    simp only [mapChildren, Bundle.size, hsize]
    refine .fix ?_
    rw [List.length_map]
    refine forall₂_map_of_mem hfs fun f hf f' hff => ?_
    have himp' := fun c hc => himp c f hf hc
    simp only [List.mem_append, or_imp, forall_and, List.mem_cons, List.not_mem_nil, or_false,
      forall_eq] at himp'
    refine ⟨hff.name, hff.params.map himp'.1, ?_, ?_⟩
    · rw [arity_mapFunction]
      simp only [mapFunction, hff.arity_eq]
      exact himp'.2.1 _ hff.result
    · rw [arity_mapFunction]
      simp only [mapFunction, hff.arity_eq]
      exact himp'.2.2 _ hff.body

/-- What relates the children may be replaced by what it implies of them. -/
theorem Rebuilt.imp {t u : Term} {d : Nat} (h : Rebuilt R t d u)
    (himp : ∀ c ∈ t.children d, ∀ u, R c.1 c.2 u → S c.1 c.2 u) : Rebuilt S t d u := by
  have hmap : Rebuilt S (t.mapChildren (fun c _ => c) d) d (u.mapChildren (fun c _ => c) d) :=
    h.map himp
  rwa [mapChildren_id, mapChildren_id] at hmap

theorem RebuiltParams.refl (hR : ∀ t d, R t d t) (ps : List (Param Term)) (d : Nat) :
    RebuiltParams R ps d ps := by
  induction ps generalizing d with
  | nil => exact .nil
  | cons p ps ih => exact .cons (hR _ _) (ih (d + 1))

theorem Rebuilt.refl (hR : ∀ t d, R t d t) (t : Term) (d : Nat) : Rebuilt R t d t := by
  have hall : ∀ (as : List Term), List.Forall₂ (R · d ·) as as :=
    fun as => List.forall₂_same.2 fun a _ => hR a d
  cases t with
  | var => exact .var
  | global => exact .global
  | univ => exact .univ
  | product ps r => exact .product (.refl hR ps d) (hR _ _)
  | lambda ps b => exact .lambda (.refl hR ps d) (hR _ _)
  | letIn => exact .letIn (hR _ _) (hR _ _) (hR _ _)
  | apply f as => exact .apply (hR _ _) (hall as.toList)
  | cast => exact .cast (hR _ _) (hR _ _)
  | caseOf p s bs =>
    exact .caseOf (hR _ _) (hR _ _) (List.forall₂_same.2 fun b _ => ⟨rfl, rfl, hR _ _⟩)
  | fix i b =>
    exact .fix (List.forall₂_same.2 fun f _ => ⟨rfl, .refl hR f.params _, hR _ _, hR _ _⟩)

theorem RebuiltParams.of_types {h k : Term → Nat → Term} {ps : List (Param Term)} {d : Nat}
    (hS : ∀ c ∈ paramTypes ps d, S (h c.1 c.2) c.2 (k c.1 c.2)) :
    RebuiltParams S (mapParamTypes h ps d) d (mapParamTypes k ps d) := by
  have hself : RebuiltParams (fun c _ w => c = w) ps d ps := .refl (fun _ _ => rfl) ps d
  refine hself.map fun c hc w hw => ?_
  subst hw
  exact hS c hc

/-- Two ways to replace the children of one node. -/
theorem Rebuilt.of_children {h k : Term → Nat → Term} {t : Term} {d : Nat}
    (hS : ∀ c ∈ t.children d, S (h c.1 c.2) c.2 (k c.1 c.2)) :
    Rebuilt S (t.mapChildren h d) d (t.mapChildren k d) := by
  have hself : Rebuilt (fun c _ w => c = w) t d t := .refl (fun _ _ => rfl) t d
  refine hself.map fun c hc w hw => ?_
  subst hw
  exact hS c hc

/-- A relation that takes no notice of depth relates the children at any. -/
theorem Rebuilt.depth {R : Term → Term → Prop} {t u : Term} {d : Nat}
    (h : Rebuilt (fun c _ w => R c w) t d u) (e : Nat) : Rebuilt (fun c _ w => R c w) t e u := by
  have hparams : ∀ {ps ps' : List (Param Term)} {d : Nat},
      RebuiltParams (fun c _ w => R c w) ps d ps' → ∀ e,
        RebuiltParams (fun c _ w => R c w) ps e ps' := by
    intro ps ps' d hps
    induction hps with
    | nil => exact fun _ => .nil
    | cons ht _ ih => exact fun e => .cons ht (ih (e + 1))
  cases h with
  | var => exact .var
  | global => exact .global
  | univ => exact .univ
  | product hps hr => exact .product (hparams hps e) hr
  | lambda hps hb => exact .lambda (hparams hps e) hb
  | letIn hv ht hb => exact .letIn hv ht hb
  | apply hf has => exact .apply hf has
  | cast ht hty => exact .cast ht hty
  | caseOf hp hs hbs =>
    exact .caseOf hp hs (hbs.imp fun _ _ h => ⟨h.constructor, h.arity, h.body⟩)
  | fix hfs =>
    exact .fix (hfs.imp fun _ _ h => ⟨h.name, hparams h.params _, h.result, h.body⟩)

end Rebuilt

end Term

namespace Traversal

theorem getD_replaceCons {α : Type} (a : α) (as : List α) (a' : Option α) (as' : Option (List α)) :
    (replaceCons a as a' as').getD (a :: as) = a'.getD a :: as'.getD as := by
  cases a' <;> cases as' <;> rfl

theorem getD_replaceFunction (f : FixFunction Term) (ps : Option (List (Param Term)))
    (r b : Option Term) :
    (replaceFunction f ps r b).getD f =
      ⟨f.name, ps.getD f.params, r.getD f.result, b.getD f.body⟩ := by
  cases ps <;> cases r <;> cases b <;> rfl

theorem isSome_replaceCons {α : Type} (a : α) (as : List α) (a' : Option α)
    (as' : Option (List α)) : (replaceCons a as a' as').isSome = (a'.isSome || as'.isSome) := by
  cases a' <;> cases as' <;> rfl

theorem isSome_replaceFunction (f : FixFunction Term) (ps : Option (List (Param Term)))
    (r b : Option Term) :
    (replaceFunction f ps r b).isSome = (ps.isSome || r.isSome || b.isSome) := by
  cases ps <;> cases r <;> cases b <;> rfl

section Binders
variable {m : Type → Type} [Monad m]

theorem enter_ofReply (reply : Term → Nat → m (Option Term)) (b : Binder) :
    (Visitor.ofReply reply).enter b = pure () := rfl

theorem leave_ofReply (reply : Term → Nat → m (Option Term)) :
    (Visitor.ofReply reply).leave = pure () := rfl

variable [LawfulMonad m]

theorem times_pure (n : Nat) : times n (pure () : m Unit) = pure () := by
  induction n with
  | zero => rfl
  | succ n ih => simp only [times, ih, pure_bind]

/-- A visitor that has no use for binders does nothing about those of a bundle. -/
theorem enterFunctions_ofReply (reply : Term → Nat → m (Option Term))
    (fs : List (FixFunction Term)) : enterFunctions (Visitor.ofReply reply) fs = pure () := by
  induction fs with
  | nil => rfl
  | cons f fs ih =>
    rw [enterFunctions, ih]
    exact pure_bind _ _

end Binders

variable {m : Type → Type} [Monad m] [Returning m] {v : Visitor m}

/-- What is left of a node that was offered: the reply, or else the node, which is the old one when
no child changed. -/
theorem offer_returns {t u : Term} {d : Nat} {changed : Bool} {r : Option Term}
    (h : Returns (offer v u d changed) r) (hu : changed = false → u = t) :
    ∃ o, Returns (v.reply u d) o ∧ r.getD t = o.getD u := by
  obtain ⟨o, ho, hr⟩ := returns_bind.1 h
  refine ⟨o, ho, ?_⟩
  cases o with
  | some w =>
    obtain rfl := returns_pure.1 hr
    rfl
  | none =>
    obtain rfl := returns_pure.1 hr
    cases changed with
    | false => exact (hu rfl).symm
    | true => rfl

variable [BundleLabels m]

/-- What a traversal may leave of a term under `d` binders. -/
def Visited (v : Visitor m) (t : Term) (d : Nat) (u : Term) : Prop :=
  ∃ r, Returns (visit v unshared t d) r ∧ u = r.getD t

theorem visitParams_returns {ps : List (Param Term)} {d : Nat} {r : Option (List (Param Term))}
    (h : Returns (visitParams v unshared ps d) r) :
    Term.RebuiltParams (Visited v) ps d (r.getD ps) := by
  induction ps generalizing d r with
  | nil =>
    simp only [visitParams, returns_pure] at h
    subst h
    exact .nil
  | cons p ps ih =>
    simp only [visitParams, returns_bind, returns_pure] at h
    obtain ⟨t', ht, _, _, ps', hps, rfl⟩ := h
    rw [getD_replaceCons]
    have hhead : (t'.map fun t' => (⟨p.name, t'⟩ : Param Term)).getD p =
        ⟨p.name, t'.getD p.type⟩ := by
      cases t' <;> rfl
    rw [hhead]
    exact .cons ⟨t', ht, rfl⟩ (ih hps)

theorem visitTerms_returns {ts : List Term} {d : Nat} {r : Option (List Term)}
    (h : Returns (visitTerms v unshared ts d) r) :
    List.Forall₂ (Visited v · d ·) ts (r.getD ts) := by
  induction ts generalizing r with
  | nil =>
    simp only [visitTerms, returns_pure] at h
    subst h
    exact .nil
  | cons t ts ih =>
    simp only [visitTerms, returns_bind, returns_pure] at h
    obtain ⟨t', ht, ts', hts, rfl⟩ := h
    rw [getD_replaceCons]
    exact .cons ⟨t', ht, rfl⟩ (ih hts)

theorem visitBranches_returns {bs : List (Branch Term)} {d : Nat} {r : Option (List (Branch Term))}
    (h : Returns (visitBranches v unshared bs d) r) :
    List.Forall₂ (Term.RebuiltBranch (Visited v) d) bs (r.getD bs) := by
  induction bs generalizing r with
  | nil =>
    simp only [visitBranches, returns_pure] at h
    subst h
    exact .nil
  | cons b bs ih =>
    simp only [visitBranches, returns_bind, returns_pure] at h
    obtain ⟨_, _, t', ht, _, _, bs', hbs, rfl⟩ := h
    rw [getD_replaceCons]
    have hhead : (t'.map fun t' => (⟨b.constructor, b.arity, t'⟩ : Branch Term)).getD b =
        ⟨b.constructor, b.arity, t'.getD b.body⟩ := by
      cases t' <;> rfl
    rw [hhead]
    exact .cons ⟨rfl, rfl, t', ht, rfl⟩ (ih hbs)

theorem visitFunctions_returns {fs : List (FixFunction Term)} {d : Nat}
    {r : Option (List (FixFunction Term))} (h : Returns (visitFunctions v unshared fs d) r) :
    List.Forall₂ (Term.RebuiltFunction (Visited v) · d ·) fs (r.getD fs) := by
  induction fs generalizing r with
  | nil =>
    simp only [visitFunctions, returns_pure] at h
    subst h
    exact .nil
  | cons f fs ih =>
    simp only [visitFunctions, returns_bind, returns_pure] at h
    obtain ⟨ps', hps, r', hr, b', hb, _, _, fs', hfs, rfl⟩ := h
    rw [getD_replaceCons, getD_replaceFunction]
    exact .cons ⟨rfl, visitParams_returns hps, ⟨r', hr, rfl⟩, ⟨b', hb, rfl⟩⟩ (ih hfs)

theorem unshared_returns {b : Bundle Term} {d : Nat} {x : m (Option (List (FixFunction Term)))}
    {r : Option (Bundle Term)} (h : Returns (unshared b d x) r) :
    ∃ fs, Returns x fs ∧ ((fs = none ∧ r = none) ∨ ∃ fs' l, fs = some fs' ∧ r = some ⟨l, fs'⟩) := by
  obtain ⟨fs, hx, hr⟩ := returns_bind.1 h
  refine ⟨fs, hx, ?_⟩
  cases fs with
  | none => exact .inl ⟨rfl, (returns_pure.1 hr).symm⟩
  | some fs =>
    obtain ⟨l, _, hr⟩ := returns_bind.1 hr
    exact .inr ⟨fs, l, rfl, (returns_pure.1 hr).symm⟩

/-- One step of a traversal: what it leaves of a term is what the visitor makes of a node rebuilt
from what the traversal leaves of the children. -/
theorem visit_returns {t : Term} {d : Nat} {r : Option Term}
    (h : Returns (visit v unshared t d) r) :
    ∃ u o, Term.Rebuilt (Visited v) t d u ∧ Returns (v.reply u d) o ∧ r.getD t = o.getD u := by
  cases t with
  | var x i =>
    obtain ⟨o, ho, hr⟩ := offer_returns h fun _ => rfl
    exact ⟨_, o, .var, ho, hr⟩
  | global x =>
    obtain ⟨o, ho, hr⟩ := offer_returns h fun _ => rfl
    exact ⟨_, o, .global, ho, hr⟩
  | univ u =>
    obtain ⟨o, ho, hr⟩ := offer_returns h fun _ => rfl
    exact ⟨_, o, .univ, ho, hr⟩
  | product ps r =>
    simp only [visit, returns_bind] at h
    obtain ⟨ps', hps, r', hr, _, _, h⟩ := h
    obtain ⟨o, ho, hr'⟩ := offer_returns (t := .product ps r) h (by cases ps' <;> cases r' <;> simp)
    exact ⟨_, o, .product (visitParams_returns hps) ⟨r', hr, rfl⟩, ho, hr'⟩
  | lambda ps b =>
    simp only [visit, returns_bind] at h
    obtain ⟨ps', hps, b', hb, _, _, h⟩ := h
    obtain ⟨o, ho, hr⟩ := offer_returns (t := .lambda ps b) h (by cases ps' <;> cases b' <;> simp)
    exact ⟨_, o, .lambda (visitParams_returns hps) ⟨b', hb, rfl⟩, ho, hr⟩
  | letIn x e t b =>
    simp only [visit, returns_bind] at h
    obtain ⟨e', he, t', ht, _, _, b', hb, _, _, h⟩ := h
    obtain ⟨o, ho, hr⟩ := offer_returns (t := .letIn x e t b) h
      (by cases e' <;> cases t' <;> cases b' <;> simp)
    exact ⟨_, o, .letIn ⟨e', he, rfl⟩ ⟨t', ht, rfl⟩ ⟨b', hb, rfl⟩, ho, hr⟩
  | apply f as =>
    obtain ⟨a, as⟩ := as
    simp only [visit, returns_bind] at h
    obtain ⟨f', hf, a', ha, as', has, h⟩ := h
    obtain ⟨o, ho, hr⟩ := offer_returns (t := .apply f ⟨a, as⟩) h
      (by cases f' <;> cases a' <;> cases as' <;> simp)
    exact ⟨_, o, .apply ⟨f', hf, rfl⟩ (.cons ⟨a', ha, rfl⟩ (visitTerms_returns has)), ho, hr⟩
  | cast t k ty =>
    simp only [visit, returns_bind] at h
    obtain ⟨t', ht, ty', hty, h⟩ := h
    obtain ⟨o, ho, hr⟩ := offer_returns (t := .cast t k ty) h (by cases t' <;> cases ty' <;> simp)
    exact ⟨_, o, .cast ⟨t', ht, rfl⟩ ⟨ty', hty, rfl⟩, ho, hr⟩
  | caseOf p s bs =>
    simp only [visit, returns_bind] at h
    obtain ⟨s', hs, _, _, p', hp, _, _, bs', hbs, h⟩ := h
    obtain ⟨o, ho, hr⟩ := offer_returns (t := .caseOf p s bs) h
      (by cases s' <;> cases p' <;> cases bs' <;> simp)
    exact ⟨_, o, .caseOf ⟨p', hp, rfl⟩ ⟨s', hs, rfl⟩ (visitBranches_returns hbs), ho, hr⟩
  | fix i b =>
    obtain ⟨l, fs⟩ := b
    simp only [visit, returns_bind] at h
    obtain ⟨b', hb, h⟩ := h
    obtain ⟨o, ho, hr⟩ := offer_returns (t := .fix i ⟨l, fs⟩) h (by cases b' <;> simp)
    obtain ⟨fs', hfs, hb'⟩ := unshared_returns hb
    simp only [returns_bind, returns_pure] at hfs
    obtain ⟨_, _, gs, hgs, _, _, rfl⟩ := hfs
    have hrebuilt := visitFunctions_returns hgs
    rcases hb' with ⟨rfl, rfl⟩ | ⟨fs', l', rfl, rfl⟩
    · exact ⟨_, o, .fix hrebuilt, ho, hr⟩
    · exact ⟨_, o, .fix hrebuilt, ho, hr⟩

end Traversal
end InductiveTerms
