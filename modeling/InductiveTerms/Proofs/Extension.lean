import InductiveTerms.Proofs.Checking
import InductiveTerms.Proofs.Entries
import InductiveTerms.Proofs.Unfolding

/-!
More global names. The type of a term that has one stays what it is when names become known that
were not (`carried_check`), but not every term keeps having a type: a match is accepted as long as
nothing is known about the head of the scrutinee's type, and is refused once that is known to be no
inductive type. `failures_append` says so of environments that are extended by declarations.
-/
namespace InductiveTerms
open Term

/-- What is known from `g`, and from `new` where nothing is known from `g`. -/
def Globals.orElse (g new : Globals) : Globals where
  typeOf? x := (g.typeOf? x).or (new.typeOf? x)
  isInductive? x := (g.isInductive? x).or (new.isInductive? x)

/-- Where more global names are known. -/
def Context.adding (ctx : Context) (new : Globals) : Context :=
  ⟨ctx.locals, ctx.globals.orElse new⟩

/-- Whether a match can still be accepted: the type of its scrutinee is not headed by a name that is
now known to be something other than an inductive type. -/
def MatchStands (new : Globals) : Term → Context → Prop
  | .caseOf _ s _, ctx => ∀ S ∈ (s.check ctx).toOption, ∀ x ∈ S.unfoldApps.1.asGlobal?,
      new.isInductive? x ≠ some false
  | _, _ => True

instance (new : Globals) : ∀ (t : Term) (ctx : Context), Decidable (MatchStands new t ctx)
  | .caseOf _ s _, ctx =>
      inferInstanceAs (Decidable (∀ S ∈ (s.check ctx).toOption, ∀ x ∈ S.unfoldApps.1.asGlobal?,
        new.isInductive? x ≠ some false))
  | .var .., _ => isTrue trivial
  | .global _, _ => isTrue trivial
  | .univ _, _ => isTrue trivial
  | .product .., _ => isTrue trivial
  | .lambda .., _ => isTrue trivial
  | .letIn .., _ => isTrue trivial
  | .apply .., _ => isTrue trivial
  | .cast .., _ => isTrue trivial
  | .fix .., _ => isTrue trivial

section Carried
variable {α β : Type} {p q : Prop}

/-- What one computation finds the other finds too, if `p` holds; if not, it fails at a match. -/
def Carried (p : Prop) (x y : Except TypeError α) : Prop :=
  ∀ a, x = .ok a → (p ∧ y = .ok a) ∨ (¬p ∧ ∃ e, y = .error e ∧ e.variant = .notInductive)

namespace Carried

theorem refl (x : Except TypeError α) : Carried True x x :=
  fun _ ha => .inl ⟨trivial, ha⟩

theorem of_error (e : TypeError) (y : Except TypeError α) : Carried p (.error e) y :=
  fun _ ha => nomatch ha

theorem congr {x y : Except TypeError α} (h : Carried p x y) (hpq : p ↔ q) : Carried q x y := by
  rwa [← propext hpq]

/-- Of two steps the first has to be carried over, and then the second. -/
theorem bind {x y : Except TypeError α} {f g : α → Except TypeError β} (h : Carried p x y)
    (hfg : ∀ a, x = .ok a → Carried q (f a) (g a)) : Carried (p ∧ q) (x >>= f) (y >>= g) := by
  intro b hb
  obtain ⟨a, ha, hfa⟩ := bind_eq_ok_iff.1 hb
  rcases h a ha with ⟨hp, hy⟩ | ⟨hp, e, hy, he⟩
  · rw [hy]
    rcases hfg a ha b hfa with ⟨hq, hga⟩ | ⟨hq, e, hga, he⟩
    · exact .inl ⟨⟨hp, hq⟩, hga⟩
    · exact .inr ⟨fun hpq => hq hpq.2, e, hga, he⟩
  · rw [hy]
    exact .inr ⟨fun hpq => hp hpq.1, e, rfl, he⟩

theorem bind_pure {x y : Except TypeError α} (h : Carried p x y) (f : α → Except TypeError β) :
    Carried p (x >>= f) (y >>= f) :=
  (h.bind fun a _ => refl (f a)).congr (iff_of_eq (and_true p))

end Carried
end Carried

section Check
variable {new : Globals} {ctx : Context}

theorem Context.adding_pushParams (ps : List (Param Term)) :
    (ctx.adding new).pushParams ps = (ctx.pushParams ps).adding new := by
  induction ps generalizing ctx with
  | nil => rfl
  | cons p ps ih =>
    rw [pushParams_cons, pushParams_cons, ← ih]
    rfl

/-- What is known of a name is known of it alone. -/
def Globals.Apart (g new : Globals) : Prop :=
  ∀ x, (g.isInductive? x).isSome → new.isInductive? x = Option.none

/-- The check of a term where more names are known. -/
def CheckCarried (new : Globals) (t : Term) : Prop :=
  ∀ ctx : Context, ctx.globals.Apart new →
    Carried (t.Throughout (MatchStands new) ctx) (t.check ctx) (t.check (ctx.adding new))

theorem carried_params {ps : List (Param Term)} (ih : ∀ p ∈ ps, CheckCarried new p.type)
    (hctx : ctx.globals.Apart new) :
    Carried (ParamsThroughout (MatchStands new) ps ctx) (checkParams ps ctx)
      (checkParams ps (ctx.adding new)) := by
  induction ps generalizing ctx with
  | nil => exact .refl _
  | cons p ps ihps =>
    rw [List.forall_mem_cons] at ih
    rw [checkParams_cons_eq, checkParams_cons_eq]
    have hps : (ctx.push p.name p.type).globals.Apart new := hctx
    exact (ih.1 ctx hctx).bind fun _ _ => (ihps ih.2 hps).bind_pure _

theorem carried_args {as : List Term} (ih : ∀ a ∈ as, CheckCarried new a)
    (hctx : ctx.globals.Apart new) :
    Carried (TermsThroughout (MatchStands new) as ctx) (checkArgs as ctx)
      (checkArgs as (ctx.adding new)) := by
  induction as with
  | nil => exact .refl _
  | cons a as ihas =>
    rw [List.forall_mem_cons] at ih
    rw [checkArgs_cons_eq, checkArgs_cons_eq]
    exact (ih.1 ctx hctx).bind fun _ _ => ihas ih.2

/-- The one thing that is asked about a name apart from its type. -/
theorem mayBeInductive_adding_iff {S : Term} (hctx : ctx.globals.Apart new)
    (h : ctx.mayBeInductive S = true) :
    (ctx.adding new).mayBeInductive S = true ↔
      ∀ x ∈ S.unfoldApps.1.asGlobal?, new.isInductive? x ≠ some false := by
  rw [mayBeInductive_eq] at h ⊢
  cases hx : S.unfoldApps.1.asGlobal? with
  | none =>
    rw [hx] at h
    simpa using h
  | some x =>
    have hnew : (ctx.adding new).isInductive? x = (ctx.isInductive? x).or (new.isInductive? x) :=
      rfl
    have happart : (ctx.isInductive? x).isSome → new.isInductive? x = none := hctx x
    simp only [hx, Option.mem_some_iff, forall_eq', hnew] at h ⊢
    cases hold : ctx.isInductive? x with
    | some known =>
      rw [hold, Option.getD_some] at h
      simp [happart (by rw [hold]; rfl), h]
    | none =>
      rw [Option.none_or]
      cases new.isInductive? x with
      | none => simp
      | some known => cases known <;> simp

theorem carried_match {S T : Term} {text text' : String} (hctx : ctx.globals.Apart new) :
    Carried (∀ x ∈ S.unfoldApps.1.asGlobal?, new.isInductive? x ≠ some false)
      (if ctx.mayBeInductive S then pure T else .error (.notInductive text text'))
      (if (ctx.adding new).mayBeInductive S then pure T
        else .error (.notInductive text text')) := by
  by_cases h : ctx.mayBeInductive S = true
  · rw [if_pos h, ← mayBeInductive_adding_iff hctx h]
    by_cases h' : (ctx.adding new).mayBeInductive S = true
    · rw [if_pos h']
      exact fun a ha => .inl ⟨h', ha⟩
    · rw [if_neg h']
      exact fun a _ => .inr ⟨h', _, rfl, rfl⟩
  · rw [if_neg h]
    exact .of_error _ _

/-- A term keeps its type where more names are known, unless that makes a match of it fail. -/
theorem carried_check (t : Term) : CheckCarried new t := by
  induction t using induct_children with
  | node t ih =>
    intro ctx hctx
    replace ih := ih 0
    cases t with
    | var x i =>
      cases hi : ctx.locals.get? i with
      | some e =>
        rw [check_var_of_some ctx hi, check_var_of_some (ctx.adding new) hi]
        exact .refl _
      | none =>
        rw [check_var_of_none ctx hi]
        exact .of_error _ _
    | global x =>
      cases hx : ctx.globalType? x with
      | some T =>
        have hnew : (ctx.adding new).globalType? x = some T := by
          change (ctx.globalType? x).or _ = _
          rw [hx, Option.some_or]
        rw [check_global_of_some ctx hx, check_global_of_some _ hnew]
        exact .refl _
      | none =>
        rw [check_global_of_none ctx hx]
        exact .of_error _ _
    | univ u => exact .refl _
    | product ps r =>
      simp only [children, List.forall_mem_append, List.forall_mem_singleton] at ih
      rw [check_product_eq, check_product_eq, Context.adding_pushParams]
      have hr := ih.2 (ctx.pushParams ps) (by rwa [Context.globals_pushParams])
      exact ((carried_params (forall_types ih.1) hctx).bind fun _ _ => hr.bind_pure _).congr
        (iff_of_eq (true_and _)).symm
    | lambda ps b =>
      simp only [children, List.forall_mem_append, List.forall_mem_singleton] at ih
      rw [check_lambda_eq, check_lambda_eq, Context.adding_pushParams]
      have hb := ih.2 (ctx.pushParams ps) (by rwa [Context.globals_pushParams])
      exact ((carried_params (forall_types ih.1) hctx).bind fun _ _ => hb.bind_pure _).congr
        (iff_of_eq (true_and _)).symm
    | letIn x v ty b =>
      simp only [children, List.forall_mem_cons] at ih
      rw [check_letIn_eq, check_letIn_eq]
      refine ((ih.1 ctx hctx).bind fun V hV => (ih.2.1 ctx hctx).bind fun _ _ =>
        (?_ : Carried (∀ V ∈ (v.check ctx).toOption, b.Throughout _ (ctx.push x V)) _ _)).congr
          (iff_of_eq (true_and _)).symm
      refine ((ih.2.2.1 (ctx.push x V) hctx).bind_pure _).congr ?_
      rw [hV]
      simp [Except.toOption]
    | apply f as =>
      simp only [children, List.forall_mem_cons, List.forall_mem_map] at ih
      rw [check_apply_eq, check_apply_eq]
      exact ((ih.1 ctx hctx).bind fun _ _ => (carried_args ih.2 hctx).bind_pure _).congr
        (iff_of_eq (true_and _)).symm
    | cast u k ty =>
      simp only [children, List.forall_mem_cons] at ih
      rw [check_cast_eq, check_cast_eq]
      exact (ih.1 ctx hctx).congr (iff_of_eq (true_and _)).symm
    | caseOf p s bs =>
      simp only [children, List.forall_mem_cons] at ih
      rw [check_caseOf_eq, check_caseOf_eq]
      refine ((ih.2.1 ctx hctx).bind fun S hS =>
        (?_ : Carried (MatchStands new (.caseOf p s bs) ctx) _ _)).congr and_comm
      refine (carried_match hctx).congr ?_
      rw [MatchStands, hS]
      simp [Except.toOption]
    | fix i b =>
      cases hi : b.function? i with
      | some f =>
        rw [check_fix_of_some ctx hi, check_fix_of_some _ hi]
        exact .refl _
      | none =>
        rw [check_fix_of_none ctx hi]
        exact .of_error _ _

end Check

namespace GlobalEnv
variable {ds es : List Declaration} {x : String} {e : GlobalEntry}

/-- The second declarations introduce no name that the first ones do. -/
def Fresh (ds es : List Declaration) : Prop :=
  ∀ x ∈ (ofDeclarations es).names, x ∉ (ofDeclarations ds).names

instance (ds es : List Declaration) : Decidable (Fresh ds es) :=
  inferInstanceAs (Decidable (∀ x ∈ (ofDeclarations es).names, x ∉ (ofDeclarations ds).names))

theorem Fresh.get?_eq_none (h : Fresh ds es) (hx : ((ofDeclarations ds).get? x).isSome) :
    (ofDeclarations es).get? x = none :=
  Option.not_isSome_iff_eq_none.1 fun hx' => h x (mem_names_iff.2 hx') (mem_names_iff.2 hx)

theorem Fresh.get?_append (h : Fresh ds es) (y : String) :
    (ofDeclarations (ds ++ es)).get? y =
      ((ofDeclarations ds).get? y).or ((ofDeclarations es).get? y) := by
  rw [get?_ofDeclarations_append]
  cases hy : (ofDeclarations ds).get? y with
  | none => rw [Option.or_none, Option.none_or]
  | some f => rw [h.get?_eq_none (by rw [hy]; rfl), Option.none_or, Option.some_or]

theorem Fresh.apart (h : Fresh ds es) :
    (ofDeclarations ds).globals.Apart (ofDeclarations es).globals := by
  intro y hy
  change Option.map _ _ = none
  rw [h.get?_eq_none (by simpa [globals] using hy), Option.map_none]

theorem Fresh.context_append (h : Fresh ds es) :
    (ofDeclarations (ds ++ es)).context =
      (ofDeclarations ds).context.adding (ofDeclarations es).globals := by
  simp only [context, Context.ofGlobals, Context.adding, globals, Globals.orElse, h.get?_append,
    Option.map_or]

/-- What has been declared stays declared. -/
theorem Fresh.mem_entries_append (h : Fresh ds es) (he : (x, e) ∈ (ofDeclarations ds).entries) :
    (x, e) ∈ (ofDeclarations (ds ++ es)).entries := by
  rw [mem_entries_iff (nodup_names_ofDeclarations _)] at he ⊢
  rw [h.get?_append, he, Option.some_or]

theorem carried_entry {new : Globals} {ctx : Context} (hctx : ctx.globals.Apart new) :
    Carried (∀ t ∈ e.type :: e.value.toList, t.Throughout (MatchStands new) ctx)
      (checkEntry ctx e) (checkEntry (ctx.adding new) e) := by
  rw [checkEntry_eq, checkEntry_eq]
  refine ((carried_check _ ctx hctx).bind fun _ _ =>
    carried_args (fun t _ => carried_check t) hctx).congr ?_
  rw [List.forall_mem_cons, termsThroughout_iff]

/-- An entry that checks goes on to check when names are declared that were not, unless one of them
is something other than an inductive type and heads the type of what is matched on: then the entry
is reported, and for a match. -/
theorem failures_append (hfresh : Fresh ds es) (he : (x, e) ∈ (ofDeclarations ds).entries)
    (hok : x ∉ (ofDeclarations ds).failures.map (·.1)) :
    (x ∉ (ofDeclarations (ds ++ es)).failures.map (·.1) ↔
      ∀ t ∈ e.type :: e.value.toList,
        t.Throughout (MatchStands (ofDeclarations es).globals) (ofDeclarations ds).context) ∧
    ∀ err, (x, err) ∈ (ofDeclarations (ds ++ es)).failures → err.variant = .notInductive := by
  have hnodup := nodup_names_ofDeclarations
  have hkept := hfresh.mem_entries_append he
  have hcheck : checkEntry (ofDeclarations ds).context e = .ok () := by
    cases hold : checkEntry (ofDeclarations ds).context e with
    | ok _ => rfl
    | error err =>
      have hreported := (mem_failures_entry_iff (hnodup _) he).2 hold
      exact absurd (List.mem_map_of_mem hreported) hok
  have hnames : x ∉ (ofDeclarations (ds ++ es)).failures.map (·.1) ↔
      ∀ err, checkEntry (ofDeclarations (ds ++ es)).context e ≠ .error err := by
    simp only [List.mem_map, Prod.exists, exists_and_right, exists_eq_right, not_exists,
      mem_failures_entry_iff (hnodup _) hkept, ne_eq]
  have hcarried := carried_entry (e := e) hfresh.apart () hcheck
  rw [← hfresh.context_append] at hcarried
  simp only [hnames, mem_failures_entry_iff (hnodup _) hkept]
  rcases hcarried with ⟨hstands, hnew⟩ | ⟨hfails, err, hnew, herr⟩
  · simp only [hnew]
    exact ⟨⟨fun _ => hstands, fun _ _ => nofun⟩, nofun⟩
  · simp only [hnew, Except.error.injEq]
    exact ⟨⟨fun hno => absurd rfl (hno err), fun h => absurd h hfails⟩, fun _ h => h ▸ herr⟩

/-- An axiom of an undeclared type, and a definition by a match on it. -/
def onUndeclared : List Declaration :=
  [.postulate "a" (.global "T"),
    .definition "d" (.univ .type) (.caseOf (.univ .set) (.global "a") [])]

def matchOnUndeclared : GlobalEntry :=
  ⟨.definition, .univ .type, some (.caseOf (.univ .set) (.global "a") []), []⟩

theorem failures_append_inductiveType :
    Fresh onUndeclared [.inductiveTypes [⟨"T", .univ .set, []⟩]] ∧
      ("d", matchOnUndeclared) ∈ (ofDeclarations onUndeclared).entries ∧
      "d" ∉ (ofDeclarations onUndeclared).failures.map (·.1) ∧
      "d" ∉ (ofDeclarations
        (onUndeclared ++ [.inductiveTypes [⟨"T", .univ .set, []⟩]])).failures.map (·.1) := by
  have hfresh : Fresh onUndeclared [.inductiveTypes [⟨"T", .univ .set, []⟩]] := by decide
  have he : ("d", matchOnUndeclared) ∈ (ofDeclarations onUndeclared).entries :=
    List.mem_of_getElem? (i := 1) rfl
  have hok : "d" ∉ (ofDeclarations onUndeclared).failures.map (·.1) := by decide
  exact ⟨hfresh, he, hok, (failures_append hfresh he hok).1.2 (by decide)⟩

/-- Once the name is declared as an axiom, the match on something of that type is refused. -/
theorem failures_append_postulate :
    ¬ ∀ ds es : List Declaration, Fresh ds es → ∀ x e, (x, e) ∈ (ofDeclarations ds).entries →
      x ∉ (ofDeclarations ds).failures.map (·.1) →
        x ∉ (ofDeclarations (ds ++ es)).failures.map (·.1) := by
  intro h
  refine h onUndeclared [.postulate "T" (.univ .set)] (by decide) "d" matchOnUndeclared
    (List.mem_of_getElem? (i := 1) rfl) (by decide) (by decide)

end GlobalEnv
end InductiveTerms
