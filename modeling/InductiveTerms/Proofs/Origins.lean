import InductiveTerms.Proofs.Checking
import InductiveTerms.Proofs.Failures
import InductiveTerms.Proofs.Nodes
import InductiveTerms.Proofs.References
import InductiveTerms.Proofs.StackRefinement

/-!
Where a check fails. A check fails with the error of one node, whose own rule fails in the context
that the binders around it have led to (`check_error`): that of the whole term with one entry more
for each of these binders. So a local variable that is not resolved is an external reference past
the locals of the context, and the other scope errors name a node of the term (`check_scoped`).
-/
namespace InductiveTerms
open Term

namespace Stack
variable {α : Type} {s : Stack α}

theorem Built.get?_eq_getElem? (h : s.Built) (i : Nat) : s.get? i = s.toList[i]? :=
  WellFormed.get?_eq_getElem? h.skew.complete i

theorem Built.size_le_of_get?_eq_none (h : s.Built) {i : Nat} (hi : s.get? i = none) :
    s.size ≤ i := by
  have hlength : s.toList.length = s.size := h.skew.length_toList
  rw [h.get?_eq_getElem?, List.getElem?_eq_none_iff, hlength] at hi
  exact hi

end Stack

theorem Context.built_pushParams {ctx : Context} (h : ctx.locals.Built) (ps : List (Param Term)) :
    (ctx.pushParams ps).locals.Built := by
  induction ps generalizing ctx with
  | nil => exact h
  | cons p ps ih => exact ih (.push _ h)

/-- The rule for a term fails, with what the rule finds wrong; the checks of its parts, as far as
the rule comes to them, do not fail. -/
inductive RuleFails : Term → Context → TypeError → Prop
  | unresolvedLocal {x : String} {i : Nat} {ctx : Context} :
      ctx.locals.get? i = none → RuleFails (.var x i) ctx (.unresolvedLocal x i ctx.size)
  | unresolvedGlobal {x : String} {ctx : Context} :
      ctx.globalType? x = none → RuleFails (.global x) ctx (.unresolvedGlobal x)
  | notAFunction {f F : Term} {as : Arguments Term} {ctx : Context} :
      f.check ctx = .ok F → F.unfoldProducts.1.length < as.toList.length →
        RuleFails (.apply f as) ctx
          (.notAFunction f.render F.render as.toList.length F.unfoldProducts.1.length)
  | notInductive {p s S : Term} {bs : List (Branch Term)} {ctx : Context} :
      s.check ctx = .ok S → ctx.mayBeInductive S = false →
        RuleFails (.caseOf p s bs) ctx (.notInductive s.render S.render)
  | fixIndexOutOfRange {i : Nat} {b : Bundle Term} {ctx : Context} :
      b.function? i = none → RuleFails (.fix i b) ctx (.fixIndexOutOfRange i b.size)

/-- The check of a part of a term fails, under as many more entries as there are binders around the
part. -/
def PartFails (c : Term × Nat) (ctx : Context) (e : TypeError) : Prop :=
  ∃ entries : List (Param Term),
    entries.length = c.2 ∧ c.1.check (ctx.pushParams entries) = .error e

section Step
variable {ctx : Context} {e : TypeError}

theorem partFails_zero {t : Term} (h : t.check ctx = .error e) : PartFails (t, 0) ctx e :=
  ⟨[], rfl, h⟩

theorem checkParams_error {ps : List (Param Term)} (h : checkParams ps ctx = .error e) :
    ∃ c ∈ paramTypes ps 0, PartFails c ctx e := by
  have hat : ∀ (ps : List (Param Term)) (ctx : Context) (d : Nat),
      checkParams ps ctx = .error e → ∃ c ∈ paramTypes ps d, ∃ entries : List (Param Term),
        entries.length + d = c.2 ∧ c.1.check (ctx.pushParams entries) = .error e := by
    intro ps
    induction ps with
    | nil =>
      intro ctx d h
      cases h
    | cons p ps ih =>
      intro ctx d h
      rw [checkParams_cons_eq] at h
      rcases bind_eq_error_iff.1 h with h | ⟨S, _, h⟩
      · exact ⟨_, List.mem_cons_self, [], Nat.zero_add d, h⟩
      rcases bind_eq_error_iff.1 h with h | ⟨_, _, h⟩
      · obtain ⟨c, hc, entries, hlen, hcheck⟩ := ih (ctx.push p.name p.type) (d + 1) h
        refine ⟨c, List.mem_cons_of_mem _ hc, p :: entries, ?_, hcheck⟩
        rw [← hlen, List.length_cons]
        omega
      · cases h
  exact hat ps ctx 0 h

theorem checkArgs_error {as : List Term} (h : checkArgs as ctx = .error e) :
    ∃ a ∈ as, a.check ctx = .error e := by
  induction as with
  | nil => cases h
  | cons a as ih =>
    rw [checkArgs_cons_eq] at h
    rcases bind_eq_error_iff.1 h with h | ⟨_, _, h⟩
    · exact ⟨a, List.mem_cons_self, h⟩
    · obtain ⟨b, hb, h⟩ := ih h
      exact ⟨b, List.mem_cons_of_mem _ hb, h⟩

/-- A check fails because the rule for the term does or because the check of a child does. -/
theorem check_error_step {t : Term} (h : t.check ctx = .error e) :
    RuleFails t ctx e ∨ ∃ c ∈ t.children 0, PartFails c ctx e := by
  cases t with
  | var x i =>
    cases he : ctx.locals.get? i with
    | some entry =>
      rw [check_var_of_some ctx he] at h
      cases h
    | none =>
      rw [check_var_of_none ctx he] at h
      obtain rfl := Except.error.inj h
      exact .inl (.unresolvedLocal he)
  | global x =>
    cases hx : ctx.globalType? x with
    | some type =>
      rw [check_global_of_some ctx hx] at h
      cases h
    | none =>
      rw [check_global_of_none ctx hx] at h
      obtain rfl := Except.error.inj h
      exact .inl (.unresolvedGlobal hx)
  | univ u => cases h
  | product ps r =>
    rw [check_product_eq] at h
    rcases bind_eq_error_iff.1 h with h | ⟨_, _, h⟩
    · obtain ⟨c, hc, hfails⟩ := checkParams_error h
      exact .inr ⟨c, by simp [children, hc], hfails⟩
    rcases bind_eq_error_iff.1 h with h | ⟨_, _, h⟩
    · exact .inr ⟨(r, 0 + ps.length), by simp [children], ps, (Nat.zero_add _).symm, h⟩
    · cases h
  | lambda ps b =>
    rw [check_lambda_eq] at h
    rcases bind_eq_error_iff.1 h with h | ⟨_, _, h⟩
    · obtain ⟨c, hc, hfails⟩ := checkParams_error h
      exact .inr ⟨c, by simp [children, hc], hfails⟩
    rcases bind_eq_error_iff.1 h with h | ⟨_, _, h⟩
    · exact .inr ⟨(b, 0 + ps.length), by simp [children], ps, (Nat.zero_add _).symm, h⟩
    · cases h
  | letIn x v t b =>
    rw [check_letIn_eq] at h
    rcases bind_eq_error_iff.1 h with h | ⟨V, _, h⟩
    · exact .inr ⟨(v, 0), by simp [children], partFails_zero h⟩
    rcases bind_eq_error_iff.1 h with h | ⟨_, _, h⟩
    · exact .inr ⟨(t, 0), by simp [children], partFails_zero h⟩
    rcases bind_eq_error_iff.1 h with h | ⟨_, _, h⟩
    · exact .inr ⟨(b, 0 + 1), by simp [children], [⟨x, V⟩], rfl, h⟩
    · cases h
  | apply f as =>
    rw [check_apply_eq] at h
    rcases bind_eq_error_iff.1 h with h | ⟨F, hF, h⟩
    · exact .inr ⟨(f, 0), by simp [children], partFails_zero h⟩
    rcases bind_eq_error_iff.1 h with h | ⟨_, _, h⟩
    · obtain ⟨a, ha, h⟩ := checkArgs_error h
      exact .inr ⟨(a, 0), by simp [children, ha], partFails_zero h⟩
    split at h
    · next hlt =>
      obtain rfl := Except.error.inj h
      exact .inl (.notAFunction hF hlt)
    · cases h
  | cast t k ty =>
    rw [check_cast_eq] at h
    exact .inr ⟨(t, 0), by simp [children], partFails_zero h⟩
  | caseOf p s bs =>
    rw [check_caseOf_eq] at h
    rcases bind_eq_error_iff.1 h with h | ⟨S, hS, h⟩
    · exact .inr ⟨(s, 0), by simp [children], partFails_zero h⟩
    split at h
    · cases h
    · next hinductive =>
      obtain rfl := Except.error.inj h
      exact .inl (.notInductive hS (Bool.eq_false_iff.2 hinductive))
  | fix i b =>
    cases hf : b.function? i with
    | some f =>
      rw [check_fix_of_some ctx hf] at h
      cases h
    | none =>
      rw [check_fix_of_none ctx hf] at h
      obtain rfl := Except.error.inj h
      exact .inl (.fixIndexOutOfRange hf)

end Step

/-- A check fails with the error of a node of the term, in the context that the binders around the
node have led to. -/
theorem check_error {t : Term} {e : TypeError} : ∀ {ctx : Context}, t.check ctx = .error e →
    ∃ (u : Term) (entries : List (Param Term)),
      (u, entries.length) ∈ t.nodes 0 ∧ RuleFails u (ctx.pushParams entries) e := by
  induction t using induct_children with
  | node t ih =>
    intro ctx h
    rw [nodes_eq]
    rcases check_error_step h with hrule | ⟨c, hc, entries, hlen, hcheck⟩
    · exact ⟨t, [], List.mem_cons_self, hrule⟩
    · obtain ⟨u, inner, hu, hfails⟩ := ih 0 c hc hcheck
      rw [← Context.pushParams_append] at hfails
      refine ⟨u, entries ++ inner, List.mem_cons_of_mem _ (List.mem_flatMap.2 ⟨c, hc, ?_⟩),
        hfails⟩
      have hdepth := nodes_add c.2 c.1 0
      rw [Nat.zero_add] at hdepth
      rw [hdepth, List.length_append, hlen, Nat.add_comm]
      exact List.mem_map_of_mem (f := fun u : Term × Nat => (u.1, u.2 + c.2)) hu

theorem Term.mem_occurrences_of_mem_nodes {t : Term} {x : String} {i k : Nat} :
    ∀ {d : Nat}, (Term.var x i, k) ∈ t.nodes d → (i, k) ∈ t.occurrences d := by
  induction t using induct_children with
  | node t ih =>
    intro d h
    rw [nodes_eq, List.mem_cons] at h
    rcases h with h | h
    · obtain ⟨rfl, rfl⟩ := Prod.mk.inj h
      exact List.mem_singleton_self _
    · obtain ⟨c, hc, h⟩ := List.mem_flatMap.1 h
      rcases t.eq_var_or_asVar?_eq_none with ⟨y, j, rfl⟩ | ht
      · cases hc
      · exact (mem_occurrences_iff ht).2 ⟨c, hc, ih d c hc h⟩

section Scoped
variable {ctx : Context} {t : Term}

/-- A local variable that is not resolved is an external reference that the context has no local
for, told with the number of locals where it stands. -/
theorem check_unresolvedLocal (hctx : ctx.locals.Built) {x : String} {i n : Nat}
    (h : t.check ctx = .error (.unresolvedLocal x i n)) :
    ctx.size ≤ n ∧ n ≤ i ∧ i - (n - ctx.size) ∈ t.externalReferences := by
  obtain ⟨u, entries, hu, hfails⟩ := check_error h
  cases hfails with
  | unresolvedLocal hi =>
    have hlocals := (Context.built_pushParams hctx entries).size_le_of_get?_eq_none hi
    change (ctx.pushParams entries).size ≤ i at hlocals
    rw [Context.size_pushParams] at hlocals ⊢
    refine ⟨by omega, hlocals, ?_⟩
    rw [Nat.add_sub_cancel_left, mem_externalReferences]
    exact ⟨_, mem_occurrences_of_mem_nodes hu, by omega, rfl⟩

theorem check_unresolvedGlobal {x : String} (h : t.check ctx = .error (.unresolvedGlobal x)) :
    ctx.globalType? x = none ∧ ∃ d, (.global x, d) ∈ t.nodes 0 := by
  obtain ⟨u, entries, hu, hfails⟩ := check_error h
  cases hfails with
  | unresolvedGlobal hx =>
    rw [Context.globalType?, Context.globals_pushParams] at hx
    exact ⟨hx, _, hu⟩

theorem check_fixIndexOutOfRange {i n : Nat}
    (h : t.check ctx = .error (.fixIndexOutOfRange i n)) :
    n ≤ i ∧ ∃ b d, (.fix i b, d) ∈ t.nodes 0 ∧ b.size = n := by
  obtain ⟨u, entries, hu, hfails⟩ := check_error h
  cases hfails with
  | fixIndexOutOfRange hf => exact ⟨List.getElem?_eq_none_iff.1 hf, _, _, hu, rfl⟩

/-- What is in scope is resolved, whatever else may be wrong. A local variable that is not resolved
has an index past the locals where it stands, and these are at least those of the context. -/
theorem check_scoped (hctx : ctx.locals.Built) (t : Term) :
    ((∀ r ∈ t.externalReferences, r < ctx.size) →
      ∀ x i n, t.check ctx ≠ .error (.unresolvedLocal x i n)) ∧
    (t.All (fun u => ∀ x ∈ u.asGlobal?, (ctx.globalType? x).isSome) →
      ∀ x, t.check ctx ≠ .error (.unresolvedGlobal x)) ∧
    (t.All (fun u => ∀ s ∈ u.asFix?, s.1 < s.2.size) →
      ∀ i n, t.check ctx ≠ .error (.fixIndexOutOfRange i n)) ∧
    ∀ x i n, t.check ctx = .error (.unresolvedLocal x i n) → n ≤ i ∧ ctx.size ≤ n := by
  refine ⟨fun hrefs x i n h => ?_, fun hglobals x h => ?_, fun hfix i n h => ?_, fun x i n h => ?_⟩
  · obtain ⟨hsize, hle, hmem⟩ := check_unresolvedLocal hctx h
    have hlt := hrefs _ hmem
    omega
  · obtain ⟨hx, d, hmem⟩ := check_unresolvedGlobal h
    have hsome := hglobals _ hmem x rfl
    rw [hx] at hsome
    cases hsome
  · obtain ⟨hle, b, d, hmem, rfl⟩ := check_fixIndexOutOfRange h
    exact absurd (hfix _ hmem (i, b) rfl) (Nat.not_lt.2 hle)
  · obtain ⟨hsize, hle, _⟩ := check_unresolvedLocal hctx h
    exact ⟨hle, hsize⟩

end Scoped

/-- A local number, with `nat` and `O` as the global names. -/
def numberContext : Context :=
  (Context.ofGlobals (.ofTypes fun x =>
    [("nat", .univ .set), ("O", .global "nat")].lookup x)).push (some "n") (.global "nat")

/-- `λ (y : nat), let z : nat := n in (fix f (x : nat) : nat := f x) z y`, which applies a function
to too many arguments. -/
def tooManyArguments : Term :=
  .lambda [⟨some "y", .global "nat"⟩]
    (.letIn (some "z") (.var "n" 1) (.global "nat")
      (.applyTo (.fix 0 ⟨none, [⟨"f", [⟨some "x", .global "nat"⟩], .global "nat",
        .applyTo (.var "f" 1) [.var "x" 0]⟩]⟩) [.var "z" 0, .var "y" 1]))

/-- `λ (y : nat), k` where `k` is past `n`. -/
def pastLocals : Term := .lambda [⟨some "y", .global "nat"⟩] (.var "k" 2)

theorem check_scoped_tooManyArguments :
    numberContext.locals.Built ∧
    (∀ r ∈ tooManyArguments.externalReferences, r < numberContext.size) ∧
    tooManyArguments.All (fun u => ∀ x ∈ u.asGlobal?, (numberContext.globalType? x).isSome) ∧
    tooManyArguments.All (fun u => ∀ s ∈ u.asFix?, s.1 < s.2.size) ∧
    ((∀ x i n, tooManyArguments.check numberContext ≠ .error (.unresolvedLocal x i n)) ∧
      (∀ x, tooManyArguments.check numberContext ≠ .error (.unresolvedGlobal x)) ∧
      ∀ i n, tooManyArguments.check numberContext ≠ .error (.fixIndexOutOfRange i n)) ∧
    pastLocals.check numberContext = .error (.unresolvedLocal "k" 2 2) ∧
    2 ≤ 2 ∧ numberContext.size ≤ 2 := by
  have hctx : numberContext.locals.Built := .push _ .empty
  have hrefs : ∀ r ∈ tooManyArguments.externalReferences, r < numberContext.size := by decide
  have hglobals : tooManyArguments.All fun u => ∀ x ∈ u.asGlobal?,
      (numberContext.globalType? x).isSome := by decide
  have hfix : tooManyArguments.All fun u => ∀ s ∈ u.asFix?, s.1 < s.2.size := by decide
  obtain ⟨hlocal, hglobal, hindex, _⟩ := check_scoped hctx tooManyArguments
  exact ⟨hctx, hrefs, hglobals, hfix, ⟨hlocal hrefs, hglobal hglobals, hindex hfix⟩, rfl,
    (check_scoped hctx pastLocals).2.2.2 "k" 2 2 rfl⟩

end InductiveTerms
