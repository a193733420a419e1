import InductiveTerms.Proofs.Traversal

/-!
Two runs of one traversal. A correspondence between the actions of two monads that is kept when
actions are put together is kept by a traversal: if two visitors correspond in what they do about
binders and in their replies, so do the traversals of a term (`visit_corresponds`). Of variables
only those have to be looked at that the term has.
-/
namespace InductiveTerms

/-- A relation between the actions of two monads that holds of what is put together from actions of
which it holds. -/
structure Correspondence (m n : Type → Type) [Monad m] [Monad n] where
  Holds {α : Type} : m α → n α → Prop
  pure {α : Type} (a : α) : Holds (Pure.pure a) (Pure.pure a)
  bind {α β : Type} {x : m α} {y : n α} {f : α → m β} {g : α → n β} :
    Holds x y → (∀ a, Holds (f a) (g a)) → Holds (x >>= f) (y >>= g)

namespace Correspondence
variable {m n : Type → Type} [Monad m] [Monad n] {C : Correspondence m n}

/-- The visitors correspond, up to what they reply to variables. -/
structure OfVisitors (C : Correspondence m n) (v : Visitor m) (w : Visitor n) : Prop where
  enter : ∀ b, C.Holds (v.enter b) (w.enter b)
  leave : C.Holds v.leave w.leave
  reply : ∀ u d, u.asVar? = none → C.Holds (v.reply u d) (w.reply u d)

/-- Bundles are treated alike when their functions are. -/
def OfPolicies (C : Correspondence m n) (policy : BundlePolicy m) (policy' : BundlePolicy n) :
    Prop :=
  ∀ b d x y, C.Holds x y → C.Holds (policy b d x) (policy' b d y)

theorem ofVisitors_ofReply {reply : Term → Nat → m (Option Term)}
    {reply' : Term → Nat → n (Option Term)} (h : ∀ u d, C.Holds (reply u d) (reply' u d)) :
    C.OfVisitors (.ofReply reply) (.ofReply reply') :=
  ⟨fun _ => C.pure (), C.pure (), fun u d _ => h u d⟩

end Correspondence

namespace Traversal
open Term

variable {m n : Type → Type} [Monad m] [Monad n] {C : Correspondence m n} {v : Visitor m}
  {w : Visitor n} {policy : BundlePolicy m} {policy' : BundlePolicy n}

theorem unshared_corresponds [BundleLabels m] [BundleLabels n]
    (hfresh : C.Holds (BundleLabels.fresh : m (Option Nat)) BundleLabels.fresh) :
    C.OfPolicies unshared unshared := by
  intro b d x y hxy
  refine C.bind hxy fun fs => ?_
  cases fs with
  | none => exact C.pure none
  | some fs => exact C.bind hfresh fun l => C.pure _

theorem times_corresponds {x : m Unit} {y : n Unit} (h : C.Holds x y) (k : Nat) :
    C.Holds (times k x) (times k y) := by
  induction k with
  | zero => exact C.pure ()
  | succ k ih => exact C.bind h fun _ => ih

theorem offer_corresponds {t : Term} {d : Nat} (h : C.Holds (v.reply t d) (w.reply t d))
    (changed : Bool) : C.Holds (offer v t d changed) (offer w t d changed) := by
  refine C.bind h fun o => ?_
  cases o with
  | none => exact C.pure _
  | some u => exact C.pure _

section Lists
variable (hvw : C.OfVisitors v w)
include hvw

theorem enterFunctions_corresponds (fs : List (FixFunction Term)) :
    C.Holds (enterFunctions v fs) (enterFunctions w fs) := by
  induction fs with
  | nil => exact C.pure ()
  | cons f fs ih => exact C.bind (hvw.enter _) fun _ => ih

theorem visitParams_corresponds {ps : List (Param Term)} {d : Nat}
    (h : ∀ c ∈ paramTypes ps d, C.Holds (visit v policy c.1 c.2) (visit w policy' c.1 c.2)) :
    C.Holds (visitParams v policy ps d) (visitParams w policy' ps d) := by
  induction ps generalizing d with
  | nil => exact C.pure none
  | cons p ps ih =>
    simp only [paramTypes, List.forall_mem_cons] at h
    refine C.bind h.1 fun _ => C.bind (hvw.enter _) fun _ => ?_
    exact C.bind (ih h.2) fun _ => C.pure _

theorem visitBranches_corresponds {bs : List (Branch Term)} {d : Nat}
    (h : ∀ b ∈ bs, C.Holds (visit v policy b.body (d + b.arity))
      (visit w policy' b.body (d + b.arity))) :
    C.Holds (visitBranches v policy bs d) (visitBranches w policy' bs d) := by
  induction bs with
  | nil => exact C.pure none
  | cons b bs ih =>
    rw [List.forall_mem_cons] at h
    refine C.bind (times_corresponds (hvw.enter _) _) fun _ => C.bind h.1 fun _ => ?_
    refine C.bind (times_corresponds hvw.leave _) fun _ => ?_
    exact C.bind (ih h.2) fun _ => C.pure _

theorem visitFunctions_corresponds {fs : List (FixFunction Term)} {d : Nat}
    (h : ∀ f ∈ fs, ∀ c ∈ paramTypes f.params d ++ [(f.result, d + f.arity), (f.body, d + f.arity)],
      C.Holds (visit v policy c.1 c.2) (visit w policy' c.1 c.2)) :
    C.Holds (visitFunctions v policy fs d) (visitFunctions w policy' fs d) := by
  induction fs with
  | nil => exact C.pure none
  | cons f fs ih =>
    rw [List.forall_mem_cons] at h
    obtain ⟨hf, hfs⟩ := h
    simp only [List.forall_mem_append, List.forall_mem_cons] at hf
    obtain ⟨hparams, hresult, hbody, _⟩ := hf
    refine C.bind (visitParams_corresponds hvw hparams) fun _ => C.bind hresult fun _ => ?_
    refine C.bind hbody fun _ => C.bind (times_corresponds hvw.leave _) fun _ => ?_
    exact C.bind (ih hfs) fun _ => C.pure _

end Lists

theorem visitTerms_corresponds {ts : List Term} {d : Nat}
    (h : ∀ t ∈ ts, C.Holds (visit v policy t d) (visit w policy' t d)) :
    C.Holds (visitTerms v policy ts d) (visitTerms w policy' ts d) := by
  induction ts with
  | nil => exact C.pure none
  | cons t ts ih =>
    rw [List.forall_mem_cons] at h
    exact C.bind h.1 fun _ => C.bind (ih h.2) fun _ => C.pure _

/-- One step of two traversals. -/
theorem visit_corresponds_node (hvw : C.OfVisitors v w) (hpolicy : C.OfPolicies policy policy')
    {t : Term} {d : Nat} (ht : t.asVar? = none)
    (h : ∀ c ∈ t.children d, C.Holds (visit v policy c.1 c.2) (visit w policy' c.1 c.2)) :
    C.Holds (visit v policy t d) (visit w policy' t d) := by
  have hoffer : ∀ u d changed, u.asVar? = none →
      C.Holds (offer v u d changed) (offer w u d changed) :=
    fun u d changed hu => offer_corresponds (hvw.reply u d hu) changed
  cases t with
  | var x i => cases ht
  | global x => exact hoffer _ d _ rfl
  | univ u => exact hoffer _ d _ rfl
  | product ps r | lambda ps r =>
    simp only [children, List.forall_mem_append, List.forall_mem_singleton] at h
    refine C.bind (visitParams_corresponds hvw h.1) fun _ => C.bind h.2 fun _ => ?_
    exact C.bind (times_corresponds hvw.leave _) fun _ => hoffer _ d _ rfl
  | letIn x e ty b =>
    simp only [children, List.forall_mem_cons] at h
    refine C.bind h.1 fun _ => C.bind h.2.1 fun _ => C.bind (hvw.enter _) fun _ => ?_
    exact C.bind h.2.2.1 fun _ => C.bind hvw.leave fun _ => hoffer _ d _ rfl
  | apply f as =>
    obtain ⟨a, as⟩ := as
    simp only [children, Arguments.toList_mk, List.forall_mem_cons, List.forall_mem_map] at h
    refine C.bind h.1 fun _ => C.bind h.2.1 fun _ => ?_
    exact C.bind (visitTerms_corresponds h.2.2) fun _ => hoffer _ d _ rfl
  | cast u k ty =>
    simp only [children, List.forall_mem_cons] at h
    exact C.bind h.1 fun _ => C.bind h.2.1 fun _ => hoffer _ d _ rfl
  | caseOf p s bs =>
    simp only [children, List.forall_mem_cons, List.forall_mem_map] at h
    refine C.bind h.2.1 fun _ => C.bind (hvw.enter _) fun _ => C.bind h.1 fun _ => ?_
    refine C.bind hvw.leave fun _ => ?_
    exact C.bind (visitBranches_corresponds hvw h.2.2) fun _ => hoffer _ d _ rfl
  | fix i b =>
    obtain ⟨l, fs⟩ := b
    simp only [children, List.forall_mem_flatMap, Bundle.size] at h
    refine C.bind (hpolicy _ _ _ _ ?_) fun _ => hoffer _ d _ rfl
    refine C.bind (enterFunctions_corresponds hvw fs) fun _ => ?_
    refine C.bind (visitFunctions_corresponds hvw h) fun _ => ?_
    exact C.bind (times_corresponds hvw.leave _) fun _ => C.pure _

/-- Traversals by visitors that correspond do so. -/
theorem visit_corresponds (hvw : C.OfVisitors v w) (hpolicy : C.OfPolicies policy policy')
    (t : Term) : ∀ {d},
      (∀ x, ∀ o ∈ t.occurrences d,
        C.Holds (v.reply (.var x o.1) o.2) (w.reply (.var x o.1) o.2)) →
          C.Holds (visit v policy t d) (visit w policy' t d) := by
  induction t using induct_children with
  | node t ih =>
    intro d hvar
    rcases t.eq_var_or_asVar?_eq_none with ⟨x, i, rfl⟩ | ht
    · exact offer_corresponds (hvar x (i, d) (List.mem_singleton.2 rfl)) false
    · refine visit_corresponds_node hvw hpolicy ht fun c hc => ih d c hc fun x o ho => ?_
      exact hvar x o ((mem_occurrences_iff ht).2 ⟨c, hc, ho⟩)

end Traversal
end InductiveTerms
