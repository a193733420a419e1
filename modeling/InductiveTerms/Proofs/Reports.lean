import InductiveTerms.Environment.Global
import InductiveTerms.Proofs.Entries
import InductiveTerms.Proofs.Origins
import InductiveTerms.Proofs.Silence

/-!
What the checker logs. The rule for a term rests on checks of some of its parts, its premises; a
check fails at the term itself when its premises hold and its own rule fails, and otherwise where
its first premise that fails does (`FailsAt`). A check that finds a type logs nothing, and one that
fails logs one record, about the term at which it fails (`check_logs_origin`). So the check of an
environment logs two records for each entry that fails: that of the failure and one with the name.
-/
namespace InductiveTerms
open Term

section Premises

/-- The checks of the types of parameters, each under the parameters before it. -/
def paramPremises : List (Param Term) → Context → List (Term × Context)
  | [], _ => []
  | p :: ps, ctx => (p.type, ctx) :: paramPremises ps (ctx.push p.name p.type)

/-- The checks of parts of a term that the rule for it rests on, in the order in which they are
made. The body of a let is checked under the type that is found for its value. -/
def Term.premises : Term → Context → List (Term × Context)
  | .product ps r, ctx => paramPremises ps ctx ++ [(r, ctx.pushParams ps)]
  | .lambda ps b, ctx => paramPremises ps ctx ++ [(b, ctx.pushParams ps)]
  | .letIn x v t b, ctx =>
      (v, ctx) :: (t, ctx) :: (v.check ctx).toOption.toList.map fun V => (b, ctx.push x V)
  | .apply f as, ctx => (f, ctx) :: as.toList.map (·, ctx)
  | .cast t _ _, ctx => [(t, ctx)]
  | .caseOf _ s _, ctx => [(s, ctx)]
  | .var .., _ => []
  | .global _, _ => []
  | .univ _, _ => []
  | .fix .., _ => []

/-- Whether a check finds a type. -/
def Succeeds (c : Term × Context) : Prop := ∃ T, c.1.check c.2 = .ok T

/-- Where a check fails: at the term whose own rule fails although its premises hold, which is
reached through premises each of which is the first to fail. -/
inductive FailsAt : Term → Context → Term → TypeError → Prop
  | rule {t : Term} {ctx : Context} {e : TypeError} :
      (∀ c ∈ t.premises ctx, Succeeds c) → RuleFails t ctx e → FailsAt t ctx t e
  | premise {t u w : Term} {ctx ctx' : Context} {before after : List (Term × Context)}
      {e : TypeError} : t.premises ctx = before ++ (u, ctx') :: after →
        (∀ c ∈ before, Succeeds c) → FailsAt u ctx' w e → FailsAt t ctx w e

/-- The checks of a list, made one after the other. -/
def checkAll : List (Term × Context) → Except TypeError Unit
  | [] => .ok ()
  | c :: cs => do
      let _ ← c.1.check c.2
      checkAll cs

variable {cs ds : List (Term × Context)} {t w : Term} {ctx : Context} {e : TypeError}

theorem checkAll_append : checkAll (cs ++ ds) = (do checkAll cs; checkAll ds) := by
  induction cs with
  | nil => rfl
  | cons c cs ih =>
    simp only [List.cons_append, checkAll, ih, bind_assoc]

theorem checkAll_eq_ok_iff : checkAll cs = .ok () ↔ ∀ c ∈ cs, Succeeds c := by
  induction cs with
  | nil => simp [checkAll]
  | cons c cs ih =>
    rw [List.forall_mem_cons, ← ih, checkAll, bind_eq_ok_iff, Succeeds]
    exact exists_and_right

/-- The first check to fail is the one that counts. -/
theorem checkAll_of_first {before after : List (Term × Context)} {c : Term × Context}
    (hbefore : ∀ c ∈ before, Succeeds c) (hc : c.1.check c.2 = .error e) :
    checkAll (before ++ c :: after) = .error e := by
  rw [checkAll_append, checkAll_eq_ok_iff.2 hbefore]
  change (c.1.check c.2 >>= _) = _
  rw [hc]
  rfl

theorem checkAll_paramPremises (ps : List (Param Term)) (ctx : Context) :
    checkAll (paramPremises ps ctx) = (do let _ ← checkParams ps ctx; pure ()) := by
  induction ps generalizing ctx with
  | nil => rfl
  | cons p ps ih =>
    simp only [paramPremises, checkAll, ih, checkParams_cons_eq, bind_assoc, pure_bind]

theorem checkAll_args (as : List Term) (ctx : Context) :
    checkAll (as.map (·, ctx)) = checkArgs as ctx := by
  induction as with
  | nil => rfl
  | cons a as ih => rw [List.map_cons, checkAll, ih, checkArgs_cons_eq]

/-- A check fails if one of its premises does. -/
theorem check_of_premises_fail (h : checkAll (t.premises ctx) = .error e) :
    t.check ctx = .error e := by
  cases t with
  | var | global | univ | fix => cases h
  | product ps r =>
    simp only [premises, checkAll_append, checkAll_paramPremises, checkAll, bind_assoc, pure_bind,
      bind_eq_error_iff] at h
    rw [check_product_eq]
    simp only [bind_eq_error_iff]
    rcases h with h | ⟨S, hS, h | ⟨_, _, h⟩⟩
    · exact .inl h
    · exact .inr ⟨S, hS, .inl h⟩
    · cases h
  | lambda ps b =>
    simp only [premises, checkAll_append, checkAll_paramPremises, checkAll, bind_assoc, pure_bind,
      bind_eq_error_iff] at h
    rw [check_lambda_eq]
    simp only [bind_eq_error_iff]
    rcases h with h | ⟨S, hS, h | ⟨_, _, h⟩⟩
    · exact .inl h
    · exact .inr ⟨S, hS, .inl h⟩
    · cases h
  | letIn x v ty b =>
    simp only [premises, checkAll, bind_eq_error_iff] at h
    rw [check_letIn_eq]
    simp only [bind_eq_error_iff]
    rcases h with h | ⟨V, hV, h | ⟨T, hT, h⟩⟩
    · exact .inl h
    · exact .inr ⟨V, hV, .inl h⟩
    · rw [hV] at h
      simp only [Except.toOption, Option.toList_some, List.map_cons, List.map_nil, checkAll,
        bind_eq_error_iff] at h
      rcases h with h | ⟨_, _, h⟩
      · exact .inr ⟨V, hV, .inr ⟨T, hT, .inl h⟩⟩
      · cases h
  | apply f as =>
    simp only [premises, checkAll, checkAll_args, bind_eq_error_iff] at h
    rw [check_apply_eq]
    simp only [bind_eq_error_iff]
    rcases h with h | ⟨F, hF, h⟩
    · exact .inl h
    · exact .inr ⟨F, hF, .inl h⟩
  | cast u k ty =>
    simp only [premises, checkAll, bind_eq_error_iff] at h
    rcases h with h | ⟨_, _, h⟩
    · exact h
    · cases h
  | caseOf p s bs =>
    simp only [premises, checkAll, bind_eq_error_iff] at h
    rw [check_caseOf_eq]
    rcases h with h | ⟨_, _, h⟩
    · exact bind_eq_error_iff.2 (.inl h)
    · cases h

/-- A check fails if its premises hold and its own rule fails. -/
theorem check_of_rule_fails (hpremises : ∀ c ∈ t.premises ctx, Succeeds c)
    (h : RuleFails t ctx e) : t.check ctx = .error e := by
  cases h with
  | unresolvedLocal hi => exact check_var_of_none ctx hi
  | unresolvedGlobal hx => exact check_global_of_none ctx hx
  | fixIndexOutOfRange hf => exact check_fix_of_none ctx hf
  | @notAFunction f F as ctx hF hlt =>
    simp only [premises, List.forall_mem_cons, List.forall_mem_map] at hpremises
    have hargs : checkArgs as.toList ctx = .ok () := checkArgs_eq_ok_iff.2 hpremises.2
    rw [check_apply_eq, hF]
    change (checkArgs as.toList ctx >>= _) = _
    rw [hargs]
    exact if_pos hlt
  | notInductive hS hno =>
    rw [check_caseOf_eq, hS]
    exact if_neg (by rw [hno]; exact Bool.false_ne_true)

theorem FailsAt.check_eq (h : FailsAt t ctx w e) : t.check ctx = .error e := by
  induction h with
  | rule hpremises hrule => exact check_of_rule_fails hpremises hrule
  | premise heq hbefore _ ih =>
    exact check_of_premises_fail (heq ▸ checkAll_of_first hbefore ih)

theorem Succeeds.not_error {c : Term × Context} (h : Succeeds c) : c.1.check c.2 ≠ .error e := by
  obtain ⟨T, hT⟩ := h
  rw [hT]
  exact nofun

/-- There is one first failure in a list. -/
theorem first_failure_unique {before after before' after' : List (Term × Context)}
    {c c' : Term × Context} (heq : before ++ c :: after = before' ++ c' :: after')
    (hbefore : ∀ c ∈ before, Succeeds c) (hc : ¬ Succeeds c)
    (hbefore' : ∀ c ∈ before', Succeeds c) (hc' : ¬ Succeeds c') : c = c' := by
  induction before generalizing before' with
  | nil =>
    cases before' with
    | nil => exact (List.cons.inj heq).1
    | cons b' before' =>
      obtain ⟨rfl, _⟩ := List.cons.inj heq
      exact absurd (hbefore' _ List.mem_cons_self) hc
  | cons b before ih =>
    cases before' with
    | nil =>
      obtain ⟨rfl, _⟩ := List.cons.inj heq
      exact absurd (hbefore _ List.mem_cons_self) hc'
    | cons b' before' =>
      exact ih (List.cons.inj heq).2 (fun c hc => hbefore c (List.mem_cons_of_mem _ hc))
        (fun c hc => hbefore' c (List.mem_cons_of_mem _ hc))

theorem FailsAt.not_succeeds (h : FailsAt t ctx w e) : ¬ Succeeds (t, ctx) :=
  fun hok => hok.not_error h.check_eq

/-- A check fails at one place. -/
theorem FailsAt.unique {w' : Term} {e' : TypeError} (h : FailsAt t ctx w e)
    (h' : FailsAt t ctx w' e') : w' = w ∧ e' = e := by
  refine ⟨?_, Except.error.inj (h'.check_eq.symm.trans h.check_eq)⟩
  induction h with
  | rule hpremises =>
    cases h' with
    | rule => rfl
    | premise heq _ hfails =>
      have hmem := heq ▸ List.mem_append_right _ List.mem_cons_self
      exact absurd (hpremises _ hmem) hfails.not_succeeds
  | premise heq hbefore hfails ih =>
    cases h' with
    | rule hpremises =>
      have hmem := heq ▸ List.mem_append_right _ List.mem_cons_self
      exact absurd (hpremises _ hmem) hfails.not_succeeds
    | premise heq' hbefore' hfails' =>
      have hsame := first_failure_unique (heq.symm.trans heq') hbefore hfails.not_succeeds hbefore'
        hfails'.not_succeeds
      obtain ⟨rfl, rfl⟩ := Prod.mk.inj hsame
      exact ih hfails'

theorem mem_paramPremises {ps : List (Param Term)} {ctx : Context} {c : Term × Context}
    (hc : c ∈ paramPremises ps ctx) (d : Nat) : ∃ entries : List (Param Term),
      (c.1, entries.length + d) ∈ paramTypes ps d ∧ c.2 = ctx.pushParams entries := by
  induction ps generalizing ctx d with
  | nil => cases hc
  | cons p ps ih =>
    rcases List.mem_cons.1 hc with rfl | hc
    · exact ⟨[], by simp [paramTypes], rfl⟩
    · obtain ⟨entries, hmem, hctx⟩ := ih hc (d + 1)
      refine ⟨p :: entries, List.mem_cons_of_mem _ ?_, hctx⟩
      rwa [List.length_cons, Nat.add_assoc, Nat.add_comm 1]

/-- A premise is the check of a child, under one entry more for each binder around it. -/
theorem mem_premises {c : Term × Context} (hc : c ∈ t.premises ctx) :
    ∃ entries : List (Param Term),
      (c.1, entries.length) ∈ t.children 0 ∧ c.2 = ctx.pushParams entries := by
  cases t with
  | var | global | univ | fix => cases hc
  | product ps r | lambda ps r =>
    rcases List.mem_append.1 hc with hc | hc
    · obtain ⟨entries, hmem, hctx⟩ := mem_paramPremises hc 0
      exact ⟨entries, List.mem_append_left _ hmem, hctx⟩
    · obtain rfl := List.mem_singleton.1 hc
      exact ⟨ps, by simp [children], rfl⟩
  | letIn x v ty b =>
    simp only [premises, List.mem_cons, List.mem_map] at hc
    rcases hc with rfl | rfl | ⟨V, _, rfl⟩
    · exact ⟨[], by simp [children], rfl⟩
    · exact ⟨[], by simp [children], rfl⟩
    · exact ⟨[⟨x, V⟩], by simp [children], rfl⟩
  | apply f as =>
    simp only [premises, List.mem_cons, List.mem_map] at hc
    rcases hc with rfl | ⟨a, ha, rfl⟩
    · exact ⟨[], by simp [children], rfl⟩
    · exact ⟨[], by simp [children, ha], rfl⟩
  | cast u k ty =>
    obtain rfl := List.mem_singleton.1 hc
    exact ⟨[], by simp [children], rfl⟩
  | caseOf p s bs =>
    obtain rfl := List.mem_singleton.1 hc
    exact ⟨[], by simp [children], rfl⟩

/-- The place is a node of the term, whose rule fails in the context that the binders around the
node have led to. -/
theorem FailsAt.mem_nodes (h : FailsAt t ctx w e) : ∃ entries : List (Param Term),
    (w, entries.length) ∈ t.nodes 0 ∧ RuleFails w (ctx.pushParams entries) e := by
  induction h with
  | @rule t ctx e _ hrule =>
    refine ⟨[], ?_, hrule⟩
    rw [nodes_eq]
    exact List.mem_cons_self
  | @premise t u w ctx ctx' before after e heq _ _ ih =>
    obtain ⟨inner, hmem, hfails⟩ := ih
    have hpremise : (u, ctx') ∈ t.premises ctx :=
      heq ▸ List.mem_append_right _ List.mem_cons_self
    obtain ⟨entries, hchild, rfl⟩ := mem_premises hpremise
    rw [← Context.pushParams_append] at hfails
    refine ⟨entries ++ inner, ?_, hfails⟩
    rw [nodes_eq]
    refine List.mem_cons_of_mem _ (List.mem_flatMap.2 ⟨_, hchild, ?_⟩)
    have hdepth := nodes_add entries.length u 0
    rw [Nat.zero_add] at hdepth
    rw [hdepth, List.length_append, Nat.add_comm]
    exact List.mem_map_of_mem (f := fun u : Term × Nat => (u.1, u.2 + entries.length)) hmem

/-- The first of a list of checks to fail does so at a term. -/
def FirstFailsAt (cs : List (Term × Context)) (w : Term) (e : TypeError) : Prop :=
  ∃ before u ctx after, cs = before ++ (u, ctx) :: after ∧ (∀ c ∈ before, Succeeds c) ∧
    FailsAt u ctx w e

theorem FirstFailsAt.head (h : FailsAt t ctx w e) : FirstFailsAt ((t, ctx) :: cs) w e :=
  ⟨[], t, ctx, cs, rfl, by simp, h⟩

theorem FirstFailsAt.append_left (h : FirstFailsAt cs w e) (ds : List (Term × Context)) :
    FirstFailsAt (cs ++ ds) w e := by
  obtain ⟨before, u, ctx, after, rfl, hbefore, hfails⟩ := h
  exact ⟨before, u, ctx, after ++ ds, by simp, hbefore, hfails⟩

theorem FirstFailsAt.append_right (h : FirstFailsAt ds w e) (hcs : ∀ c ∈ cs, Succeeds c) :
    FirstFailsAt (cs ++ ds) w e := by
  obtain ⟨before, u, ctx, after, rfl, hbefore, hfails⟩ := h
  exact ⟨cs ++ before, u, ctx, after, by simp,
    List.forall_mem_append.2 ⟨hcs, hbefore⟩, hfails⟩

theorem FirstFailsAt.cons {c : Term × Context} (h : FirstFailsAt cs w e) (hc : Succeeds c) :
    FirstFailsAt (c :: cs) w e := by
  have hsingle : FirstFailsAt ([c] ++ cs) w e := h.append_right (by simpa using hc)
  exact hsingle

theorem FirstFailsAt.failsAt (h : FirstFailsAt (t.premises ctx) w e) : FailsAt t ctx w e := by
  obtain ⟨before, u, ctx', after, heq, hbefore, hfails⟩ := h
  exact .premise heq hbefore hfails

end Premises

/-- Runs an action on a log. -/
def Logging.runFrom {α : Type} (x : Logging Id α) (log : List LogRecord) : α × List LogRecord :=
  Id.run (StateT.run x log)

theorem Logging.runFrom_bind {α β : Type} (x : Logging Id α) (f : α → Logging Id β)
    (log : List LogRecord) :
    runFrom (x >>= f) log = runFrom (f (runFrom x log).1) (runFrom x log).2 := rfl

theorem Logging.runFrom_run_bind {ε α β : Type} (x : ExceptT ε (Logging Id) α)
    (f : α → ExceptT ε (Logging Id) β) (log : List LogRecord) :
    runFrom (x >>= f).run log =
      match runFrom x.run log with
      | (.ok a, log) => runFrom (f a).run log
      | (.error e, log) => (.error e, log) := by
  change runFrom (x.run >>= ExceptT.bindCont f) log = _
  rw [runFrom_bind]
  obtain ⟨_ | _, _⟩ := runFrom x.run log <;> rfl

/-- The record of a failure at a term. -/
def failureRecord (w : Term) (e : TypeError) : LogRecord :=
  ⟨.trace, "check failed for " ++ w.render ++ ": " ++ e.message⟩

/-- What a check that keeps a log does, by what it comes to: it leaves the log as it is or adds one
record, of the place of the failure. -/
inductive Reports {α : Type} (At : Term → TypeError → Prop)
    (x : ExceptT TypeError (Logging Id) α) : Except TypeError α → Prop
  | ok {a : α} : (∀ log, Logging.runFrom x.run log = (.ok a, log)) → Reports At x (.ok a)
  | error {w : Term} {e : TypeError} : At w e →
      (∀ log, Logging.runFrom x.run log = (.error e, log ++ [failureRecord w e])) →
        Reports At x (.error e)

namespace Reports
variable {α β : Type} {At At' : Term → TypeError → Prop}

theorem pure (a : α) : Reports At (Pure.pure a) (.ok a) := .ok fun _ => rfl

theorem failAt {w : Term} {e : TypeError} (h : At w e) :
    Reports At (InductiveTerms.failAt (α := α) w e) (.error e) := .error h fun _ => rfl

theorem congr {x x' : ExceptT TypeError (Logging Id) α} {y : Except TypeError α}
    (hx : Reports At x y) (h : ∀ log, Logging.runFrom x'.run log = Logging.runFrom x.run log) :
    Reports At x' y := by
  cases hx with
  | ok hrun => exact .ok fun log => (h log).trans (hrun log)
  | error hat hrun => exact .error hat fun log => (h log).trans (hrun log)

theorem bind {x : ExceptT TypeError (Logging Id) α} {y : Except TypeError α}
    {f : α → ExceptT TypeError (Logging Id) β} {g : α → Except TypeError β} (hx : Reports At x y)
    (hf : ∀ a, y = .ok a → Reports At (f a) (g a)) : Reports At (x >>= f) (y >>= g) := by
  cases hx with
  | @ok a hx =>
    have hrun (log : List LogRecord) :
        Logging.runFrom (x >>= f).run log = Logging.runFrom (f a).run log := by
      rw [Logging.runFrom_run_bind, hx]
    exact (hf a rfl).congr hrun
  | error hat hx =>
    exact .error hat fun log => by rw [Logging.runFrom_run_bind, hx]

theorem imp {x : ExceptT TypeError (Logging Id) α} {y : Except TypeError α} (hx : Reports At x y)
    (h : ∀ w e, At w e → At' w e) : Reports At' x y := by
  cases hx with
  | ok hrun => exact .ok hrun
  | error hat hrun => exact .error (h _ _ hat) hrun

end Reports

section Check
variable {ctx : Context} {t : Term}

theorem reports_params {ps : List (Param Term)} {d : Nat}
    (h : ∀ c ∈ paramTypes ps d, ∀ ctx, Reports (FailsAt c.1 ctx) (c.1.checkM ctx) (c.1.check ctx))
    (ctx : Context) :
    Reports (FirstFailsAt (paramPremises ps ctx)) (checkParamsM ps ctx) (checkParams ps ctx) := by
  induction ps generalizing ctx d with
  | nil => exact .pure []
  | cons p ps ih =>
    simp only [paramTypes, List.forall_mem_cons] at h
    rw [checkParams_cons_eq]
    refine .bind ((h.1 ctx).imp fun _ _ => .head) fun S hS => ?_
    refine .bind ((ih h.2 _).imp fun _ _ hw => hw.cons ⟨S, hS⟩) fun sorts _ => ?_
    exact .pure _

theorem succeeds_paramPremises {ps : List (Param Term)} {sorts : List Term}
    (h : checkParams ps ctx = .ok sorts) : ∀ c ∈ paramPremises ps ctx, Succeeds c := by
  rw [← checkAll_eq_ok_iff, checkAll_paramPremises, h]
  rfl

theorem localTypeM_of_some {i : Nat} {entry : LocalEntry} (h : ctx.locals.get? i = some entry) :
    (ctx.localTypeM i : Logging Id _) = pure (.ok (entry.type.shift 0 (i + 1 : Nat))) := by
  simp only [Context.localTypeM, Stack.get, h, shiftM_logging, pure_bind]
  rfl

theorem localTypeM_of_none {i : Nat} (h : ctx.locals.get? i = none) :
    (ctx.localTypeM i : Logging Id _) = pure (.error ⟨i, ctx.size⟩) := by
  simp only [Context.localTypeM, Stack.get, h]
  rfl

theorem reports_args {as : List Term}
    (h : ∀ a ∈ as, Reports (FailsAt a ctx) (a.checkM ctx) (a.check ctx)) :
    Reports (FirstFailsAt (as.map (·, ctx))) (checkArgsM as ctx) (checkArgs as ctx) := by
  induction as with
  | nil => exact .pure ()
  | cons a as ih =>
    rw [List.forall_mem_cons] at h
    rw [checkArgs_cons_eq]
    refine .bind (h.1.imp fun _ _ => .head) fun A hA => ?_
    exact (ih h.2).imp fun _ _ hw => hw.cons ⟨A, hA⟩

/-- A check reports as its parts do: it forwards the first failure of its premises, and its own rule
is the only other thing that can fail. -/
theorem reports_check (t : Term) (ctx : Context) :
    Reports (FailsAt t ctx) (t.checkM ctx) (t.check ctx) := by
  induction t using induct_children generalizing ctx with
  | node t ih =>
    have hchild : ∀ c ∈ t.children 0, ∀ ctx,
        Reports (FailsAt c.1 ctx) (c.1.checkM ctx) (c.1.check ctx) := fun c hc => ih 0 c hc
    cases t with
    | var x i =>
      change Reports _ (liftM (ctx.localTypeM (m := Logging Id) i) >>= _) _
      cases he : ctx.locals.get? i with
      | some entry =>
        rw [check_var_of_some ctx he, localTypeM_of_some he]
        exact .ok fun _ => rfl
      | none =>
        rw [check_var_of_none ctx he, localTypeM_of_none he]
        exact .failAt (.rule (List.forall_mem_nil _) (.unresolvedLocal he))
    | global x =>
      cases hx : ctx.globalType? x with
      | some type =>
        rw [check_global_of_some ctx hx]
        simp only [checkM, hx]
        exact .pure type
      | none =>
        rw [check_global_of_none ctx hx]
        simp only [checkM, hx]
        exact .failAt (.rule (List.forall_mem_nil _) (.unresolvedGlobal hx))
    | univ u => exact .pure _
    | product ps r =>
      simp only [children, List.forall_mem_append, List.forall_mem_singleton] at hchild
      rw [check_product_eq]
      refine .bind ((reports_params hchild.1 ctx).imp fun _ _ h => (h.append_left _).failsAt)
        fun sorts hsorts => ?_
      refine .bind ((hchild.2 _).imp fun _ _ h => ?_) fun sort _ => .pure _
      exact FirstFailsAt.failsAt (.append_right (.head h) (succeeds_paramPremises hsorts))
    | lambda ps b =>
      simp only [children, List.forall_mem_append, List.forall_mem_singleton] at hchild
      rw [check_lambda_eq]
      refine .bind ((reports_params hchild.1 ctx).imp fun _ _ h => (h.append_left _).failsAt)
        fun sorts hsorts => ?_
      refine .bind ((hchild.2 _).imp fun _ _ h => ?_) fun body _ => .pure _
      exact FirstFailsAt.failsAt (.append_right (.head h) (succeeds_paramPremises hsorts))
    | letIn x v ty b =>
      simp only [children, List.forall_mem_cons] at hchild
      rw [check_letIn_eq]
      refine .bind ((hchild.1 ctx).imp fun _ _ h => FirstFailsAt.failsAt (.head h))
        fun V hV => ?_
      refine .bind ((hchild.2.1 ctx).imp fun _ _ h => ?_) fun S hS => ?_
      · exact FirstFailsAt.failsAt (.cons (.head h) ⟨V, hV⟩)
      refine .bind ((hchild.2.2.1 _).imp fun w e h => ?_) fun B _ => ?_
      · refine FirstFailsAt.failsAt (.cons (.cons ?_ ⟨S, hS⟩) ⟨V, hV⟩)
        rw [hV]
        exact .head h
      · rw [substM_logging]
        exact .pure _
    | apply f as =>
      obtain ⟨a, as⟩ := as
      simp only [children, Arguments.toList_mk, List.forall_mem_cons, List.forall_mem_map] at hchild
      rw [check_apply_eq, Arguments.toList_mk, checkArgs_cons_eq]
      simp only [bind_assoc]
      refine .bind ((hchild.1 ctx).imp fun _ _ h => FirstFailsAt.failsAt (.head h))
        fun F hF => ?_
      refine .bind ((hchild.2.1 ctx).imp fun _ _ h =>
        FirstFailsAt.failsAt (.cons (.head h) ⟨F, hF⟩)) fun A hA => ?_
      refine .bind ((reports_args fun b hb => hchild.2.2 b hb ctx).imp fun _ _ h =>
        FirstFailsAt.failsAt ((h.cons ⟨A, hA⟩).cons ⟨F, hF⟩)) fun _ hargs => ?_
      simp only [resultTypeM, substM_logging, pure_bind]
      split
      · next hlt =>
        refine .failAt (.rule ?_ (.notAFunction hF hlt))
        simp only [premises, Arguments.toList_mk, List.forall_mem_cons, List.forall_mem_map]
        exact ⟨⟨F, hF⟩, ⟨A, hA⟩, checkArgs_eq_ok_iff.1 hargs⟩
      · exact .ok fun _ => rfl
    | cast u k ty =>
      simp only [children, List.forall_mem_cons] at hchild
      exact (hchild.1 ctx).imp fun _ _ h => FirstFailsAt.failsAt (.head h)
    | caseOf p s bs =>
      simp only [children, List.forall_mem_cons] at hchild
      rw [check_caseOf_eq]
      refine .bind ((hchild.2.1 ctx).imp fun _ _ h => FirstFailsAt.failsAt (.head h))
        fun S hS => ?_
      split
      · rw [substM_logging]
        exact .pure _
      · next hinductive =>
        refine .failAt (.rule ?_ (.notInductive hS (Bool.eq_false_iff.2 hinductive)))
        simpa [premises] using ⟨S, hS⟩
    | fix i b =>
      obtain ⟨l, fs⟩ := b
      cases hf : Bundle.function? ⟨l, fs⟩ i with
      | some f =>
        rw [check_fix_of_some ctx hf]
        change fs[i]? = some f at hf
        simp only [checkM, hf]
        exact .pure _
      | none =>
        rw [check_fix_of_none ctx hf]
        have hnone : fs[i]? = none := hf
        simp only [checkM, hnone]
        exact .failAt (.rule (List.forall_mem_nil _) (.fixIndexOutOfRange hf))

end Check

section Entries
open GlobalEnv

/-- The checks of an entry: of its type and then of its value, if it has one. -/
def GlobalEntry.parts (e : GlobalEntry) (ctx : Context) : List (Term × Context) :=
  (e.type, ctx) :: e.value.toList.map (·, ctx)

/-- The record that an entry fails. -/
def entryRecord (name : String) (err : TypeError) : LogRecord :=
  ⟨.debug, "declaration `" ++ name ++ "` failed to check: " ++ err.message⟩

/-- The entries that fail, in order and with the first failure of their checks, and what is logged:
the record of that failure, followed by one with the name. -/
inductive EntriesFail (ctx : Context) :
    List (String × GlobalEntry) → List (String × TypeError) → List LogRecord → Prop
  | nil : EntriesFail ctx [] [] []
  | checks {name : String} {e : GlobalEntry} {rest : List (String × GlobalEntry)}
      {failures : List (String × TypeError)} {log : List LogRecord} :
        (∀ c ∈ e.parts ctx, Succeeds c) → EntriesFail ctx rest failures log →
          EntriesFail ctx ((name, e) :: rest) failures log
  | fails {name : String} {e : GlobalEntry} {rest : List (String × GlobalEntry)}
      {failures : List (String × TypeError)} {log : List LogRecord} {w : Term} {err : TypeError} :
        FirstFailsAt (e.parts ctx) w err → EntriesFail ctx rest failures log →
          EntriesFail ctx ((name, e) :: rest) ((name, err) :: failures)
            (failureRecord w err :: entryRecord name err :: log)

theorem checkAll_parts (ctx : Context) (e : GlobalEntry) :
    checkAll (e.parts ctx) = checkEntry ctx e := by
  rw [checkEntry_eq, ← checkAll_args]
  rfl

theorem reports_entry (ctx : Context) (e : GlobalEntry) :
    Reports (FirstFailsAt (e.parts ctx)) (checkEntryM ctx e) (checkEntry ctx e) := by
  rw [← checkAll_parts]
  refine .bind ((reports_check e.type ctx).imp fun _ _ => .head) fun S hS => ?_
  obtain ⟨kind, type, _ | v, cs⟩ := e
  · exact .pure ()
  · refine .bind ((reports_check v ctx).imp fun _ _ hv => .cons (.head hv) ⟨S, hS⟩) fun _ _ => ?_
    exact .pure ()

theorem runFrom_checkEntriesM_cons (ctx : Context) (name : String) (e : GlobalEntry)
    (rest : List (String × GlobalEntry)) (log : List LogRecord) :
    Logging.runFrom (checkEntriesM ctx ((name, e) :: rest)) log =
      match Logging.runFrom (checkEntryM ctx e).run log with
      | (.ok _, log) => Logging.runFrom (checkEntriesM ctx rest) log
      | (.error err, log) =>
          let (failures, log) :=
            Logging.runFrom (checkEntriesM ctx rest) (log ++ [entryRecord name err])
          ((name, err) :: failures, log) := by
  rw [checkEntriesM, Logging.runFrom_bind]
  obtain ⟨_ | _, _⟩ := Logging.runFrom (checkEntryM ctx e).run log <;> rfl

/-- Checking entries adds the records of those that fail. -/
theorem runFrom_checkEntriesM (ctx : Context) (entries : List (String × GlobalEntry)) :
    ∃ log, EntriesFail ctx entries (Id.run (checkEntriesM ctx entries)) log ∧
      ∀ before, Logging.runFrom (checkEntriesM ctx entries) before =
        (Id.run (checkEntriesM ctx entries), before ++ log) := by
  induction entries with
  | nil =>
    refine ⟨[], .nil, fun before => ?_⟩
    rw [List.append_nil]
    rfl
  | cons p rest ih =>
    obtain ⟨name, e⟩ := p
    obtain ⟨log, hrest, hrun⟩ := ih
    have hentry := reports_entry ctx e
    generalize hresult : checkEntry ctx e = result at hentry
    cases hentry with
    | ok hok =>
      rw [checkEntries_cons_of_ok rest hresult]
      have hparts := checkAll_eq_ok_iff.1 ((checkAll_parts ctx e).trans hresult)
      refine ⟨log, .checks hparts hrest, fun before => ?_⟩
      rw [runFrom_checkEntriesM_cons, hok]
      exact hrun before
    | error hat herror =>
      rw [checkEntries_cons_of_error rest hresult]
      refine ⟨_, .fails hat hrest, fun before => ?_⟩
      rw [runFrom_checkEntriesM_cons, herror]
      simp [hrun]

theorem EntriesFail.names_sublist {ctx : Context} {entries : List (String × GlobalEntry)}
    {failures : List (String × TypeError)} {log : List LogRecord}
    (h : EntriesFail ctx entries failures log) :
    (failures.map (·.1)).Sublist (entries.map (·.1)) := by
  induction h with
  | nil => exact .slnil
  | checks _ _ ih => exact .cons _ ih
  | fails _ _ ih => exact .cons_cons _ ih

end Entries

/-- What is logged. A check that finds a type logs nothing; one that fails logs one record, with the
term whose own rule fails and the error that is returned. In an environment the entries that fail
are returned in order, and for each there are this record and one with its name. -/
theorem check_logs_origin :
    (∀ (t : Term) (ctx : Context),
      (∀ T, t.check ctx = .ok T → Id.run (Logging.run (t.checkM ctx).run) = (.ok T, [])) ∧
      ∀ e, t.check ctx = .error e → ∃ (w : Term) (entries : List (Param Term)),
        FailsAt t ctx w e ∧ (∀ w' e', FailsAt t ctx w' e' → w' = w) ∧
        (w, entries.length) ∈ t.nodes 0 ∧ RuleFails w (ctx.pushParams entries) e ∧
        Id.run (Logging.run (t.checkM ctx).run) = (.error e, [failureRecord w e])) ∧
    ∀ env : GlobalEnv, ∃ log, EntriesFail env.context env.entries env.failures log ∧
      (env.failures.map (·.1)).Sublist env.names ∧
      Id.run (Logging.run env.failuresM) = (env.failures, log) := by
  refine ⟨fun t ctx => ?_, fun env => ?_⟩
  · have hreports := reports_check t ctx
    generalize t.check ctx = result at hreports
    cases hreports with
    | @ok T hrun =>
      refine ⟨fun T' hT => ?_, nofun⟩
      obtain rfl := Except.ok.inj hT
      exact hrun []
    | @error w e hat hrun =>
      refine ⟨nofun, fun e' he => ?_⟩
      obtain rfl := Except.error.inj he
      obtain ⟨entries, hmem, hrule⟩ := hat.mem_nodes
      exact ⟨w, entries, hat, fun w' e' h => (hat.unique h).1, hmem, hrule, hrun []⟩
  · obtain ⟨log, hfail, hrun⟩ := runFrom_checkEntriesM env.context env.entries
    exact ⟨log, hfail, hfail.names_sublist, hrun []⟩

/-- `S (S (λ (_ : nat), missing))`, where `missing` is not declared. -/
def missingInside : Term :=
  .applyTo (.global "S")
    [.applyTo (.global "S") [.lambda [⟨none, .global "nat"⟩] (.global "missing")]]

/-- An environment where a value and a type fail. -/
def twoFailures : GlobalEnv := .ofDeclarations
  [.postulate "nat" (.univ .set),
   .postulate "S" (.product [⟨none, .global "nat"⟩] (.global "nat")),
   .definition "f" (.global "nat") missingInside,
   .postulate "g" (.global "absent")]

theorem check_logs_origin_missingInside :
    (Term.global "S").check twoFailures.context =
      .ok (.product [⟨none, .global "nat"⟩] (.global "nat")) ∧
    missingInside.check twoFailures.context = .error (.unresolvedGlobal "missing") ∧
    Id.run (Logging.run ((Term.global "S").checkM twoFailures.context).run) =
      (.ok (.product [⟨none, .global "nat"⟩] (.global "nat")), []) ∧
    Id.run (Logging.run (missingInside.checkM twoFailures.context).run) =
      (.error (.unresolvedGlobal "missing"),
        [⟨.trace, "check failed for missing: unresolved global `missing`"⟩]) ∧
    EntriesFail twoFailures.context twoFailures.entries
      [("f", .unresolvedGlobal "missing"), ("g", .unresolvedGlobal "absent")]
      [⟨.trace, "check failed for missing: unresolved global `missing`"⟩,
       ⟨.debug, "declaration `f` failed to check: unresolved global `missing`"⟩,
       ⟨.trace, "check failed for absent: unresolved global `absent`"⟩,
       ⟨.debug, "declaration `g` failed to check: unresolved global `absent`"⟩] := by
  have hS : (Term.global "S").check twoFailures.context =
      .ok (.product [⟨none, .global "nat"⟩] (.global "nat")) := rfl
  have hmissing : missingInside.check twoFailures.context = .error (.unresolvedGlobal "missing") :=
    rfl
  obtain ⟨hterms, henvs⟩ := check_logs_origin
  obtain ⟨w, entries, _, _, _, hrule, hrun⟩ := (hterms missingInside _).2 _ hmissing
  obtain ⟨log, hfail, _, hlog⟩ := henvs twoFailures
  refine ⟨hS, hmissing, (hterms _ _).1 _ hS, ?_, ?_⟩
  · cases hrule
    exact hrun
  · have hboth : Id.run (Logging.run twoFailures.failuresM) = (_, _) := rfl
    obtain ⟨hfailures, hrecords⟩ := Prod.mk.inj (hlog.symm.trans hboth)
    rw [hfailures, hrecords] at hfail
    exact hfail

end InductiveTerms
