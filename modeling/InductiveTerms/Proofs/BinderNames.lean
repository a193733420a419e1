import InductiveTerms.Proofs.Regrouping
import InductiveTerms.Proofs.Renaming

/-!
Which name stands where in a term, and what refreshing makes of it. `Term.mentions` goes through a
term by its scoping alone: it lists the names of the binders and of the variables, each variable
with the names of the binders around it. Refreshing gives every variable the name of its binder,
where it has a binder in the term and that has a name, and changes nothing else; then there is
nothing left to refresh (`refreshNames_exact`).
-/
namespace InductiveTerms
open Traversal Term

/-- A variable where it occurs, with the names of the binders around it, innermost first. -/
structure VariableUse where
  name : String
  index : Nat
  enclosing : List (Option String)
  deriving DecidableEq

namespace VariableUse

/-- The name of the binder, if there is one around the variable and it has a name. -/
def binderName? (v : VariableUse) : Option String := v.enclosing[v.index]?.join

/-- The variable called as its binder is. -/
def refreshed (v : VariableUse) : VariableUse := { v with name := v.binderName?.getD v.name }

theorem refreshed_refreshed (v : VariableUse) : v.refreshed.refreshed = v.refreshed := by
  have hbinder : v.refreshed.binderName? = v.binderName? := rfl
  rw [refreshed, hbinder]
  cases h : v.binderName? with
  | none => rfl
  | some y => simp only [refreshed, h, Option.getD_some]

end VariableUse

/-- A place of a term where a name stands for display. -/
inductive Mention where
  /-- A parameter, a let variable or a function of a bundle. -/
  | binder (name : Option String)
  | use (v : VariableUse)

namespace Mention

def refreshed : Mention → Mention
  | .binder x => .binder x
  | .use v => .use v.refreshed

def binder? : Mention → Option (Option String)
  | .binder x => some x
  | .use _ => none

def use? : Mention → Option VariableUse
  | .binder _ => none
  | .use v => some v

theorem refreshed_refreshed (a : Mention) : a.refreshed.refreshed = a.refreshed := by
  cases a with
  | binder x => rfl
  | use v => exact congrArg Mention.use v.refreshed_refreshed

theorem binder?_refreshed (a : Mention) : a.refreshed.binder? = a.binder? := by
  cases a <;> rfl

theorem use?_refreshed (a : Mention) :
    a.refreshed.use? = a.use?.map VariableUse.refreshed := by
  cases a <;> rfl

end Mention

def paramNames (ps : List (Param Term)) : List (Option String) := ps.map (·.name)

def functionNames (fs : List (FixFunction Term)) : List (Option String) := fs.map (some ·.name)

@[simp] theorem length_paramNames (ps : List (Param Term)) : (paramNames ps).length = ps.length :=
  List.length_map _

@[simp] theorem length_functionNames (fs : List (FixFunction Term)) :
    (functionNames fs).length = fs.length :=
  List.length_map _

/-- The names of the binders around what stands below some more, the outermost of these first. -/
def below (xs Γ : List (Option String)) : List (Option String) := xs.reverse ++ Γ

theorem below_cons (x : Option String) (xs Γ : List (Option String)) :
    below (x :: xs) Γ = below xs (x :: Γ) := by
  rw [below, List.reverse_cons, List.append_assoc, List.singleton_append, below]

mutual
/-- The names in a term that stands under the binders `Γ`. -/
def Term.mentions : Term → List (Option String) → List Mention
  | .var x i, Γ => [.use ⟨x, i, Γ⟩]
  | .global _, _ => []
  | .univ _, _ => []
  | .product ps r, Γ => mentionsOfParams ps Γ ++ r.mentions (below (paramNames ps) Γ)
  | .lambda ps b, Γ => mentionsOfParams ps Γ ++ b.mentions (below (paramNames ps) Γ)
  | .letIn x v t b, Γ => .binder x :: (v.mentions Γ ++ t.mentions Γ ++ b.mentions (x :: Γ))
  | .apply f ⟨a, as⟩, Γ => f.mentions Γ ++ a.mentions Γ ++ mentionsOfTerms as Γ
  | .cast t _ ty, Γ => t.mentions Γ ++ ty.mentions Γ
  | .caseOf p s bs, Γ => s.mentions Γ ++ p.mentions (none :: Γ) ++ mentionsOfBranches bs Γ
  | .fix _ ⟨_, fs⟩, Γ => mentionsOfFunctions fs (below (functionNames fs) Γ)
termination_by structural t => t

def mentionsOfParams : List (Param Term) → List (Option String) → List Mention
  | [], _ => []
  | ⟨x, t⟩ :: ps, Γ => .binder x :: t.mentions Γ ++ mentionsOfParams ps (x :: Γ)
termination_by structural ps => ps

def mentionsOfTerms : List Term → List (Option String) → List Mention
  | [], _ => []
  | t :: ts, Γ => t.mentions Γ ++ mentionsOfTerms ts Γ
termination_by structural ts => ts

def mentionsOfBranches : List (Branch Term) → List (Option String) → List Mention
  | [], _ => []
  | ⟨_, n, t⟩ :: bs, Γ => t.mentions (below (List.replicate n none) Γ) ++ mentionsOfBranches bs Γ
termination_by structural bs => bs

/-- In the functions of a bundle, under its own binders. -/
def mentionsOfFunctions : List (FixFunction Term) → List (Option String) → List Mention
  | [], _ => []
  | ⟨x, ps, r, b⟩ :: fs, Γ =>
      .binder (some x) :: (mentionsOfParams ps Γ ++ r.mentions (below (paramNames ps) Γ) ++
        b.mentions (below (paramNames ps) Γ)) ++ mentionsOfFunctions fs Γ
termination_by structural fs => fs
end

/-- The names of all parameters, let variables and functions of bundles, from left to right. -/
def Term.binderNames (t : Term) : List (Option String) := (t.mentions []).filterMap Mention.binder?

/-- All variables, from left to right. -/
def Term.variableUses (t : Term) : List VariableUse := (t.mentions []).filterMap Mention.use?

section Passes
variable {m : Type → Type} [Monad m] {α β : Type} {Γ Δ Θ : List (Option String)}

/-- Started under the names `Γ`, an action comes to a value that satisfies `P` and leaves the names
`Δ`, whatever else it does. -/
def Passes (Γ : List (Option String)) (x : StateT (List (Option String)) m α)
    (Δ : List (Option String)) (P : α → Prop) : Prop :=
  ∃ y : m { a // P a }, x.run Γ = (fun a => (a.1, Δ)) <$> y

variable [LawfulMonad m]

theorem passes_of_run {P : α → Prop} {x : StateT (List (Option String)) m α} {a : α}
    (hrun : x.run Γ = pure (a, Δ)) (h : P a) : Passes Γ x Δ P :=
  ⟨pure ⟨a, h⟩, by rw [hrun, map_pure]⟩

theorem passes_pure {P : α → Prop} {a : α} (h : P a) : Passes (m := m) Γ (pure a) Γ P :=
  passes_of_run (StateT.run_pure a Γ) h

theorem Passes.bind {P : α → Prop} {Q : β → Prop} {x : StateT (List (Option String)) m α}
    {f : α → StateT (List (Option String)) m β} (hx : Passes Γ x Δ P)
    (hf : ∀ a, P a → Passes Δ (f a) Θ Q) : Passes Γ (x >>= f) Θ Q := by
  obtain ⟨y, hy⟩ := hx
  choose z hz using hf
  refine ⟨y >>= fun a => z a.1 a.2, ?_⟩
  simp only [StateT.run_bind, hy, map_eq_pure_bind, bind_assoc, pure_bind]
  exact bind_congr fun a => by rw [hz a.1 a.2, map_eq_pure_bind]

/-- An action that changes nothing but the names. -/
theorem Passes.step {Q : β → Prop} {x : StateT (List (Option String)) m α}
    {f : α → StateT (List (Option String)) m β} (hx : Passes Γ x Δ fun _ => True)
    (hf : ∀ a, Passes Δ (f a) Θ Q) : Passes Γ (x >>= f) Θ Q :=
  hx.bind fun a _ => hf a

theorem passes_lift (x : m α) : Passes Γ (StateT.lift x) Γ fun _ => True :=
  ⟨(⟨·, trivial⟩) <$> x, by simp [StateT.run_lift]⟩

theorem passes_enter (b : Binder) (Γ : List (Option String)) :
    Passes Γ ((nameRefresher (m := m)).enter b) (b.name :: Γ) fun _ => True :=
  passes_of_run rfl trivial

theorem passes_leave (x : Option String) (Γ : List (Option String)) :
    Passes (x :: Γ) (nameRefresher (m := m)).leave Γ fun _ => True :=
  passes_of_run rfl trivial

theorem passes_times_leave (xs Γ : List (Option String)) :
    Passes (xs ++ Γ) (times xs.length (nameRefresher (m := m)).leave) Γ fun _ => True := by
  induction xs with
  | nil => exact passes_pure trivial
  | cons x xs ih => exact (passes_leave x (xs ++ Γ)).step fun _ => ih

theorem passes_leave_below {n : Nat} {xs : List (Option String)} (h : n = xs.length)
    (Γ : List (Option String)) :
    Passes (below xs Γ) (times n (nameRefresher (m := m)).leave) Γ fun _ => True := by
  rw [h, ← List.length_reverse]
  exact passes_times_leave xs.reverse Γ

theorem passes_times_enter (n : Nat) (Γ : List (Option String)) :
    Passes Γ (times n ((nameRefresher (m := m)).enter ⟨none, none⟩))
      (below (List.replicate n none) Γ) fun _ => True := by
  induction n generalizing Γ with
  | zero => exact passes_pure trivial
  | succ n ih =>
    rw [List.replicate_succ, below_cons]
    exact (passes_enter _ Γ).step fun _ => ih (none :: Γ)

theorem passes_enterFunctions (fs : List (FixFunction Term)) (Γ : List (Option String)) :
    Passes Γ (enterFunctions (nameRefresher (m := m)) fs) (below (functionNames fs) Γ)
      fun _ => True := by
  induction fs generalizing Γ with
  | nil => exact passes_pure trivial
  | cons f fs ih =>
    rw [functionNames, List.map_cons, below_cons]
    exact (passes_enter _ Γ).step fun _ => ih (some f.name :: Γ)

end Passes

/-- What refreshing makes of a part of a term: the part stays as it is up to display, its variables
are called as their binders are, and it is replaced only if one of them was not. -/
structure Refreshed {α β : Type} (shape : α → β) (mentions : α → List Mention) (a : α)
    (o : Option α) : Prop where
  shape_eq : shape (o.getD a) = shape a
  mentions_eq : mentions (o.getD a) = (mentions a).map Mention.refreshed
  eq_none : (∀ x ∈ mentions a, x.refreshed = x) → o = none

section Refreshed
variable {α β γ δ : Type} {shape : α → β} {mentions : α → List Mention} {a : α} {o : Option α}

/-- A part with another one inside and binders around that. -/
theorem Refreshed.map {f : α → γ} {shape' : γ → δ} {mentions' : γ → List Mention}
    (xs : List (Option String)) (h : Refreshed shape mentions a o)
    (hshape : ∀ {b}, shape b = shape a → shape' (f b) = shape' (f a))
    (hmentions : ∀ b, mentions' (f b) = xs.map .binder ++ mentions b) :
    Refreshed shape' mentions' (f a) (o.map f) := by
  have hgetD : (o.map f).getD (f a) = f (o.getD a) := by cases o <;> rfl
  refine ⟨by rw [hgetD, hshape h.shape_eq], ?_, fun hall => ?_⟩
  · rw [hgetD, hmentions, hmentions, h.mentions_eq, List.map_append, List.map_map]
    rfl
  · rw [hmentions, List.forall_mem_append] at hall
    rw [h.eq_none hall.2, Option.map_none]

theorem Refreshed.cons {as : List α} {os : Option (List α)} {tail : List α → List Mention}
    {mentions' : List α → List Mention}
    (ha : Refreshed shape mentions a o) (has : Refreshed (List.map shape) tail as os)
    (h : mentions' (a :: as) = mentions a ++ tail as)
    (h' : mentions' (o.getD a :: os.getD as) = mentions (o.getD a) ++ tail (os.getD as)) :
    Refreshed (List.map shape) mentions' (a :: as) (replaceCons a as o os) := by
  refine ⟨?_, ?_, fun hall => ?_⟩
  · rw [getD_replaceCons, List.map_cons, List.map_cons, ha.shape_eq, has.shape_eq]
  · rw [getD_replaceCons, h', h, ha.mentions_eq, has.mentions_eq, List.map_append]
  · rw [h, List.forall_mem_append] at hall
    rw [ha.eq_none hall.1, has.eq_none hall.2, replaceCons]

/-- A parameter up to display, and its name. -/
def paramShape (p : Param Term) : Param Term × Option String := (bareParam p, p.name)

/-- A function of a bundle up to display, and its name. -/
def functionShape (f : FixFunction Term) : FixFunction Term × String := (bareFunction f, f.name)

section Params
variable {ps : List (Param Term)} {ps' : Option (List (Param Term))}
  {mentions : List (Param Term) → List Mention}

theorem Refreshed.bareParams (h : Refreshed (List.map paramShape) mentions ps ps') :
    (ps'.getD ps).map bareParam = ps.map bareParam := by
  have hfst := congrArg (List.map Prod.fst) h.shape_eq
  rwa [List.map_map, List.map_map] at hfst

theorem Refreshed.paramNames (h : Refreshed (List.map paramShape) mentions ps ps') :
    paramNames (ps'.getD ps) = paramNames ps := by
  have hsnd := congrArg (List.map Prod.snd) h.shape_eq
  rwa [List.map_map, List.map_map] at hsnd

end Params

section Functions
variable {fs : List (FixFunction Term)} {fs' : Option (List (FixFunction Term))}
  {mentions : List (FixFunction Term) → List Mention}

theorem Refreshed.bareFunctions (h : Refreshed (List.map functionShape) mentions fs fs') :
    (fs'.getD fs).map bareFunction = fs.map bareFunction := by
  have hfst := congrArg (List.map Prod.fst) h.shape_eq
  rwa [List.map_map, List.map_map] at hfst

theorem Refreshed.functionNames (h : Refreshed (List.map functionShape) mentions fs fs') :
    functionNames (fs'.getD fs) = functionNames fs := by
  have hsnd := congrArg (List.map fun s : FixFunction Term × String => some s.2) h.shape_eq
  rwa [List.map_map, List.map_map] at hsnd

end Functions

end Refreshed

section Visit
variable {m : Type → Type} [Monad m] [LawfulMonad m] [BundleLabels m] {Γ : List (Option String)}

omit [BundleLabels m] in
/-- A node that is no variable is declined. -/
theorem passes_offer {t u : Term} {d : Nat} {changed : Bool} (hvar : u.asVar? = none)
    (hu : changed = false → u = t) (hbare : u.bare = t.bare)
    (hmentions : u.mentions Γ = (t.mentions Γ).map Mention.refreshed)
    (hnone : (∀ x ∈ t.mentions Γ, x.refreshed = x) → changed = false) :
    Passes Γ (offer (nameRefresher (m := m)) u d changed) Γ
      (Refreshed bare (Term.mentions · Γ) t) := by
  have hreply : (nameRefresher (m := m)).reply u d = pure none := by
    cases u with
    | var x i => cases hvar
    | _ => rfl
  rw [offer, hreply, pure_bind]
  refine passes_pure ?_
  cases changed with
  | false =>
    obtain rfl := hu rfl
    exact ⟨rfl, hmentions, fun _ => rfl⟩
  | true => exact ⟨hbare, hmentions, fun h => by cases hnone h⟩

omit [BundleLabels m] in
theorem passes_offer_var (x : String) (i d : Nat) :
    Passes Γ (offer (nameRefresher (m := m)) (.var x i) d false) Γ
      (Refreshed bare (Term.mentions · Γ) (.var x i)) := by
  let v : VariableUse := ⟨x, i, Γ⟩
  have hrun : (offer (nameRefresher (m := m)) (.var x i) d false).run Γ =
      pure (if v.refreshed.name = x then none else some (.var v.refreshed.name i), Γ) := by
    have hname : v.refreshed.name = Γ[i]?.join.getD x := rfl
    rw [hname]
    rcases hΓ : Γ[i]? with _ | _ | y
    · simp [offer, nameRefresher, hΓ]
    · simp [offer, nameRefresher, hΓ]
    · by_cases hy : y = x <;> simp [offer, nameRefresher, hΓ, hy]
  refine passes_of_run hrun ?_
  split
  next hname =>
    refine ⟨rfl, ?_, fun _ => rfl⟩
    have hrefreshed : v.refreshed = v := congrArg (fun y => (⟨y, i, Γ⟩ : VariableUse)) hname
    exact congrArg (fun w => [Mention.use w]) hrefreshed.symm
  next hname =>
    refine ⟨rfl, rfl, fun h => absurd ?_ hname⟩
    exact congrArg VariableUse.name (Mention.use.inj (h (.use v) (List.mem_singleton.2 rfl)))

/-- Functions that are put for others in a bundle are put for them in its place. -/
theorem passes_unshared {P : Option (List (FixFunction Term)) → Prop} (b : Bundle Term) (d : Nat)
    {x : StateT (List (Option String)) m (Option (List (FixFunction Term)))}
    (hx : Passes Γ x Γ P) : Passes Γ (unshared b d x) Γ fun b' =>
      ∃ fs' l, P fs' ∧ b' = fs'.map (⟨l, ·⟩) := by
  refine hx.bind fun fs' hfs => ?_
  cases fs' with
  | none => exact passes_pure ⟨none, none, hfs, rfl⟩
  | some gs => exact (passes_lift _).step fun l => passes_pure ⟨some gs, l, hfs, rfl⟩

mutual
theorem passes_visit : ∀ (t : Term) (d : Nat) (Γ : List (Option String)),
    Passes Γ (visit (nameRefresher (m := m)) unshared t d) Γ
      (Refreshed bare (Term.mentions · Γ) t)
  | .var x i, d, Γ => passes_offer_var x i d
  | .global x, d, Γ => passes_offer rfl (fun _ => rfl) rfl rfl fun _ => rfl
  | .univ u, d, Γ => passes_offer rfl (fun _ => rfl) rfl rfl fun _ => rfl
  | .product ps r, d, Γ => by
    refine (passes_visitParams ps d Γ).bind fun ps' hps => ?_
    refine (passes_visit r (d + ps.length) _).bind fun r' hr => ?_
    refine (passes_leave_below (length_paramNames ps).symm Γ).step fun _ => ?_
    refine passes_offer rfl (fun h => ?_) ?_ ?_ fun h => ?_
    · obtain ⟨rfl, rfl⟩ : ps' = none ∧ r' = none := by simpa using h
      rfl
    · rw [bare_product, bare_product, hps.bareParams, hr.shape_eq]
    · simp only [Term.mentions, hps.paramNames, hps.mentions_eq, hr.mentions_eq, List.map_append]
    · simp only [Term.mentions, List.forall_mem_append] at h
      rw [hps.eq_none h.1, hr.eq_none h.2]
      rfl
  | .lambda ps b, d, Γ => by
    refine (passes_visitParams ps d Γ).bind fun ps' hps => ?_
    refine (passes_visit b (d + ps.length) _).bind fun b' hb => ?_
    refine (passes_leave_below (length_paramNames ps).symm Γ).step fun _ => ?_
    refine passes_offer rfl (fun h => ?_) ?_ ?_ fun h => ?_
    · obtain ⟨rfl, rfl⟩ : ps' = none ∧ b' = none := by simpa using h
      rfl
    · rw [bare_lambda, bare_lambda, hps.bareParams, hb.shape_eq]
    · simp only [Term.mentions, hps.paramNames, hps.mentions_eq, hb.mentions_eq, List.map_append]
    · simp only [Term.mentions, List.forall_mem_append] at h
      rw [hps.eq_none h.1, hb.eq_none h.2]
      rfl
  | .letIn x e t b, d, Γ => by
    refine (passes_visit e d Γ).bind fun e' he => ?_
    refine (passes_visit t d Γ).bind fun t' ht => ?_
    refine (passes_enter _ Γ).step fun _ => ?_
    refine (passes_visit b (d + 1) _).bind fun b' hb => ?_
    refine (passes_leave _ Γ).step fun _ => ?_
    refine passes_offer rfl (fun h => ?_) ?_ ?_ fun h => ?_
    · obtain ⟨⟨rfl, rfl⟩, rfl⟩ : (e' = none ∧ t' = none) ∧ b' = none := by simpa using h
      rfl
    · rw [bare_letIn, bare_letIn, he.shape_eq, ht.shape_eq, hb.shape_eq]
    · simp only [Term.mentions, he.mentions_eq, ht.mentions_eq, hb.mentions_eq, List.map_cons,
        List.map_append, Mention.refreshed]
    · simp only [Term.mentions, List.forall_mem_cons, List.forall_mem_append] at h
      rw [he.eq_none h.2.1.1, ht.eq_none h.2.1.2, hb.eq_none h.2.2]
      rfl
  | .apply f ⟨a, as⟩, d, Γ => by
    refine (passes_visit f d Γ).bind fun f' hf => ?_
    refine (passes_visit a d Γ).bind fun a' ha => ?_
    refine (passes_visitTerms as d Γ).bind fun as' has => ?_
    refine passes_offer rfl (fun h => ?_) ?_ ?_ fun h => ?_
    · obtain ⟨⟨rfl, rfl⟩, rfl⟩ : (f' = none ∧ a' = none) ∧ as' = none := by simpa using h
      rfl
    · rw [applyTo_cons, bare_apply, bare_apply, Arguments.map_mk, Arguments.map_mk, hf.shape_eq,
        ha.shape_eq, has.shape_eq]
    · simp only [applyTo_cons, Term.mentions, hf.mentions_eq, ha.mentions_eq, has.mentions_eq,
        List.map_append]
    · simp only [Term.mentions, List.forall_mem_append] at h
      rw [hf.eq_none h.1.1, ha.eq_none h.1.2, has.eq_none h.2]
      rfl
  | .cast t k ty, d, Γ => by
    refine (passes_visit t d Γ).bind fun t' ht => ?_
    refine (passes_visit ty d Γ).bind fun ty' hty => ?_
    refine passes_offer rfl (fun h => ?_) ?_ ?_ fun h => ?_
    · obtain ⟨rfl, rfl⟩ : t' = none ∧ ty' = none := by simpa using h
      rfl
    · rw [bare_cast, bare_cast, ht.shape_eq, hty.shape_eq]
    · simp only [Term.mentions, ht.mentions_eq, hty.mentions_eq, List.map_append]
    · simp only [Term.mentions, List.forall_mem_append] at h
      rw [ht.eq_none h.1, hty.eq_none h.2]
      rfl
  | .caseOf p s bs, d, Γ => by
    refine (passes_visit s d Γ).bind fun s' hs => ?_
    refine (passes_enter _ Γ).step fun _ => ?_
    refine (passes_visit p (d + 1) _).bind fun p' hp => ?_
    refine (passes_leave _ Γ).step fun _ => ?_
    refine (passes_visitBranches bs d Γ).bind fun bs' hbs => ?_
    refine passes_offer rfl (fun h => ?_) ?_ ?_ fun h => ?_
    · obtain ⟨⟨rfl, rfl⟩, rfl⟩ : (s' = none ∧ p' = none) ∧ bs' = none := by simpa using h
      rfl
    · rw [bare_caseOf, bare_caseOf, hs.shape_eq, hp.shape_eq, hbs.shape_eq]
    · simp only [Term.mentions, hs.mentions_eq, hp.mentions_eq, hbs.mentions_eq, List.map_append]
    · simp only [Term.mentions, List.forall_mem_append] at h
      rw [hs.eq_none h.1.1, hp.eq_none h.1.2, hbs.eq_none h.2]
      rfl
  | .fix i ⟨l, fs⟩, d, Γ => by
    have hvisit : Passes Γ (do
        enterFunctions (nameRefresher (m := m)) fs
        let fs' ← visitFunctions nameRefresher unshared fs (d + fs.length)
        times fs.length nameRefresher.leave
        pure fs') Γ (Refreshed (List.map functionShape)
          (mentionsOfFunctions · (below (functionNames fs) Γ)) fs) := by
      refine (passes_enterFunctions fs Γ).step fun _ => ?_
      refine (passes_visitFunctions fs _ _).bind fun fs' hfs => ?_
      exact (passes_leave_below (length_functionNames fs).symm Γ).step fun _ => passes_pure hfs
    refine (passes_unshared ⟨l, fs⟩ d hvisit).bind ?_
    rintro _ ⟨fs', l', hfs, rfl⟩
    have hbundle : (fs'.map fun gs => (⟨l', gs⟩ : Bundle Term)).getD ⟨l, fs⟩ =
        ⟨if fs'.isSome then l' else l, fs'.getD fs⟩ := by
      cases fs' <;> rfl
    rw [hbundle]
    refine passes_offer rfl (fun h => ?_) ?_ ?_ fun h => ?_
    · obtain rfl : fs' = none := by simpa using h
      rfl
    · rw [bare_fix, bare_fix, hfs.bareFunctions]
    · simp only [Term.mentions, hfs.functionNames, hfs.mentions_eq]
    · rw [hfs.eq_none h]
      rfl
termination_by structural t => t

theorem passes_visitParams : ∀ (ps : List (Param Term)) (d : Nat) (Γ : List (Option String)),
    Passes Γ (visitParams (nameRefresher (m := m)) unshared ps d) (below (paramNames ps) Γ)
      (Refreshed (List.map paramShape) (mentionsOfParams · Γ) ps)
  | [], _, Γ => passes_pure ⟨rfl, rfl, fun _ => rfl⟩
  | ⟨x, t⟩ :: ps, d, Γ => by
    refine (passes_visit t d Γ).bind fun t' ht => ?_
    refine (passes_enter _ Γ).step fun _ => ?_
    rw [paramNames, List.map_cons, below_cons]
    refine (passes_visitParams ps (d + 1) (x :: Γ)).bind fun ps' hps => passes_pure ?_
    have hhead : Refreshed paramShape
        (fun p : Param Term => .binder x :: p.type.mentions Γ) ⟨x, t⟩ (t'.map (⟨x, ·⟩)) :=
      ht.map [x] (fun h => by simp only [paramShape, bareParam, h]) fun _ => rfl
    refine hhead.cons hps rfl ?_
    cases t' <;> rfl
termination_by structural ps => ps

theorem passes_visitTerms : ∀ (ts : List Term) (d : Nat) (Γ : List (Option String)),
    Passes Γ (visitTerms (nameRefresher (m := m)) unshared ts d) Γ
      (Refreshed (List.map bare) (mentionsOfTerms · Γ) ts)
  | [], _, Γ => passes_pure ⟨rfl, rfl, fun _ => rfl⟩
  | t :: ts, d, Γ => by
    refine (passes_visit t d Γ).bind fun t' ht => ?_
    refine (passes_visitTerms ts d Γ).bind fun ts' hts => passes_pure ?_
    exact ht.cons hts rfl rfl
termination_by structural ts => ts

theorem passes_visitBranches : ∀ (bs : List (Branch Term)) (d : Nat) (Γ : List (Option String)),
    Passes Γ (visitBranches (nameRefresher (m := m)) unshared bs d) Γ
      (Refreshed (List.map bareBranch) (mentionsOfBranches · Γ) bs)
  | [], _, Γ => passes_pure ⟨rfl, rfl, fun _ => rfl⟩
  | ⟨x, n, t⟩ :: bs, d, Γ => by
    refine (passes_times_enter n Γ).step fun _ => ?_
    refine (passes_visit t (d + n) _).bind fun t' ht => ?_
    refine (passes_leave_below List.length_replicate.symm Γ).step fun _ => ?_
    refine (passes_visitBranches bs d Γ).bind fun bs' hbs => passes_pure ?_
    have hhead : Refreshed bareBranch
        (fun b : Branch Term => b.body.mentions (below (List.replicate n none) Γ)) ⟨x, n, t⟩
        (t'.map (⟨x, n, ·⟩)) :=
      ht.map [] (fun h => by simp only [bareBranch, h]) fun _ => rfl
    refine hhead.cons hbs rfl ?_
    cases t' <;> rfl
termination_by structural bs => bs

theorem passes_visitFunctions :
    ∀ (fs : List (FixFunction Term)) (d : Nat) (Γ : List (Option String)),
      Passes Γ (visitFunctions (nameRefresher (m := m)) unshared fs d) Γ
        (Refreshed (List.map functionShape) (mentionsOfFunctions · Γ) fs)
  | [], _, Γ => passes_pure ⟨rfl, rfl, fun _ => rfl⟩
  | ⟨x, ps, r, b⟩ :: fs, d, Γ => by
    refine (passes_visitParams ps d Γ).bind fun ps' hps => ?_
    refine (passes_visit r (d + ps.length) _).bind fun r' hr => ?_
    refine (passes_visit b (d + ps.length) _).bind fun b' hb => ?_
    refine (passes_leave_below (length_paramNames ps).symm Γ).step fun _ => ?_
    refine (passes_visitFunctions fs d Γ).bind fun fs' hfs => passes_pure ?_
    have hhead : Refreshed functionShape (fun f => .binder (some f.name) ::
        (mentionsOfParams f.params Γ ++ f.result.mentions (below (paramNames f.params) Γ) ++
          f.body.mentions (below (paramNames f.params) Γ)))
        ⟨x, ps, r, b⟩ (replaceFunction ⟨x, ps, r, b⟩ ps' r' b') := by
      refine ⟨?_, ?_, fun h => ?_⟩
      · rw [getD_replaceFunction, functionShape, functionShape, bareFunction, bareFunction,
          hps.bareParams, hr.shape_eq, hb.shape_eq]
      · rw [getD_replaceFunction]
        simp only [hps.paramNames, hps.mentions_eq, hr.mentions_eq, hb.mentions_eq, List.map_cons,
          List.map_append, Mention.refreshed]
      · simp only [List.forall_mem_cons, List.forall_mem_append] at h
        rw [hps.eq_none h.2.1.1, hr.eq_none h.2.1.2, hb.eq_none h.2.2]
        rfl
    exact hhead.cons hfs rfl rfl
termination_by structural fs => fs
end

/-- Refreshing comes to a term with its names refreshed, whatever labels are handed out. -/
theorem exists_refreshNames? (t : Term) :
    ∃ y : m { o // Refreshed bare (Term.mentions · []) t o },
      t.refreshNames? = Subtype.val <$> y := by
  obtain ⟨y, hy⟩ := passes_visit (m := m) t 0 []
  refine ⟨y, ?_⟩
  have hrewrite : t.rewrite? (nameRefresher (m := m)) = visit nameRefresher unshared t 0 := by
    simp [rewrite?, nameRefresher]
  have hrun : t.refreshNames? (m := m) = (·.1) <$> (visit nameRefresher unshared t 0).run [] := by
    rw [refreshNames?, hrewrite]
    rfl
  rw [hrun, hy, ← comp_map]
  rfl

end Visit

namespace Refreshed
variable {t u : Term} {o : Option Term}

theorem binderNames (h : Refreshed bare (Term.mentions · []) t o) :
    (o.getD t).binderNames = t.binderNames := by
  rw [Term.binderNames, h.mentions_eq, List.filterMap_map]
  exact List.filterMap_congr fun a _ => a.binder?_refreshed

theorem variableUses (h : Refreshed bare (Term.mentions · []) t o) :
    (o.getD t).variableUses = t.variableUses.map VariableUse.refreshed := by
  rw [Term.variableUses, h.mentions_eq, List.filterMap_map, Term.variableUses, List.map_filterMap]
  exact List.filterMap_congr fun a _ => a.use?_refreshed

/-- A term with refreshed names is not replaced. -/
theorem again (h : Refreshed bare (Term.mentions · []) t o) {o' : Option Term}
    (h' : Refreshed bare (Term.mentions · []) (o.getD t) o') : o' = none := by
  refine h'.eq_none fun a ha => ?_
  simp only [h.mentions_eq] at ha
  obtain ⟨b, -, rfl⟩ := List.mem_map.1 ha
  exact b.refreshed_refreshed

end Refreshed

/-- `u` is `t` with its names refreshed: nothing that counts and no name of a binder is changed, and
every variable is called as its binder is, if it has one in the term and that has a name. -/
structure NamesRefreshed (t u : Term) : Prop where
  same : u == t
  binderNames : u.binderNames = t.binderNames
  variableUses : u.variableUses = t.variableUses.map VariableUse.refreshed

theorem Refreshed.namesRefreshed {t : Term} {o : Option Term}
    (h : Refreshed bare (Term.mentions · []) t o) : NamesRefreshed t (o.getD t) :=
  ⟨beq_iff_bare_eq.2 h.shape_eq, h.binderNames, h.variableUses⟩

theorem refreshed_refreshNames? (t : Term) :
    Refreshed bare (Term.mentions · []) t (Id.run t.refreshNames?) := by
  obtain ⟨y, hy⟩ := exists_refreshNames? (m := Id) t
  rw [hy]
  exact y.2

theorem refreshed_refreshNames?_run (t : Term) (first : Nat) :
    Refreshed bare (Term.mentions · []) t
      ((t.refreshNames? : Labelling (Option Term)).run first) := by
  obtain ⟨y, hy⟩ := exists_refreshNames? (m := Labelling) t
  rw [hy]
  exact (y.run first).2

/-- Refreshing gives every variable the name of its binder, if it has one in the term and that has a
name, and changes nothing else; what has been refreshed is not replaced by another refreshing. This
holds where the sharing of bundles is ignored and where it is tracked. -/
theorem refreshNames_exact (t : Term) :
    (NamesRefreshed t t.refreshNames ∧ Id.run t.refreshNames.refreshNames? = none) ∧
      ∀ first next, let u := (t.refreshNamesM : Labelling Term).run first
        NamesRefreshed t u ∧ (u.refreshNames? : Labelling (Option Term)).run next = none := by
  refine ⟨?_, fun first next => ?_⟩
  · have h := refreshed_refreshNames? t
    exact ⟨h.namesRefreshed, h.again (refreshed_refreshNames? _)⟩
  · have h := refreshed_refreshNames?_run t first
    exact ⟨h.namesRefreshed, h.again (refreshed_refreshNames?_run _ next)⟩

example : (Term.lambda [⟨some "x", .global "nat"⟩, ⟨none, .var "n" 0⟩]
      (.applyTo (.var "stale" 1) [.var "stale" 0, .var "stale" 2])).refreshNames =
    .lambda [⟨some "x", .global "nat"⟩, ⟨none, .var "x" 0⟩]
      (.applyTo (.var "x" 1) [.var "stale" 0, .var "stale" 2]) := rfl

end InductiveTerms
