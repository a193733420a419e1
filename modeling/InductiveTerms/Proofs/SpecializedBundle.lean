import InductiveTerms.Proofs.Failures
import InductiveTerms.Proofs.Rewriting

/-!
The functions of a specialized bundle. The result has one function for each, with the parameters
that stay and the rewritten body (`specialize_function?`). Specializing a bundle that its patterns
describe succeeds just when all parts of it that are kept can be rewritten, each under the plan of
the parameters around it (`specialize_error_part`, `specialize_part`).
-/
namespace InductiveTerms

/-- The plan by which a function with the pattern `p` is rewritten. -/
def Bundle.plan (steps : Nat) (b : Bundle Term) (info : SpecInfo) (constants : List Term)
    (namer : Nat → String) (p : Pattern) : Specialization.Plan :=
  ⟨p, b.size, constants, Specialization.replacements b.size namer 0 b.functions info, steps⟩

/-- The terms that specialization rewrites, each with the pattern of the parameters around it. -/
inductive Bundle.Part (b : Bundle Term) (info : SpecInfo) : Pattern → Term → Prop
  | param {i k : Nat} {f : FixFunction Term} {q : Pattern} {x : Param Term} :
      b.function? i = some f → info[i]? = some q → f.params[k]? = some x → q[k]? = some none →
        Part b info (q.take k) x.type
  | result {i : Nat} {f : FixFunction Term} {q : Pattern} :
      b.function? i = some f → info[i]? = some q → Part b info q f.result
  | body {i : Nat} {f : FixFunction Term} {q : Pattern} :
      b.function? i = some f → info[i]? = some q → Part b info q f.body

namespace Specialization
open Term Traversal

theorem Plan.visit_of_rewrite {plan : Plan} {t u : Term} (h : plan.rewrite t = .ok u) :
    Visited plan.visitor t 0 u := by
  rw [rewrite, bind_eq_ok_iff] at h
  obtain ⟨r, hr, hu⟩ := h
  exact ⟨r, hr, (Except.ok.inj hu).symm⟩

theorem Plan.rewrite_of_visited {plan : Plan} {t u : Term} (h : Visited plan.visitor t 0 u) :
    plan.rewrite t = .ok u := by
  obtain ⟨r, hr, rfl⟩ := h
  exact bind_eq_ok_iff.2 ⟨r, hr, rfl⟩

theorem rewriteParams_length {plan : Plan} (ps : List (Param Term)) :
    ∀ {before p ps'}, ps.length = p.length → rewriteParams plan before ps p = .ok ps' →
      ps'.length = p.kept := by
  induction ps with
  | nil =>
    intro before p ps' hlen h
    obtain rfl := List.length_eq_zero_iff.1 hlen.symm
    obtain rfl := Except.ok.inj h
    rfl
  | cons q ps ih =>
    intro before p ps' hlen h
    cases p with
    | nil => simp at hlen
    | cons s p =>
      rw [List.length_cons, List.length_cons, Nat.add_right_cancel_iff] at hlen
      cases s with
      | none =>
        rw [rewriteParams, bind_eq_ok_iff] at h
        obtain ⟨type, _, h⟩ := h
        rw [bind_eq_ok_iff] at h
        obtain ⟨rest, hrest, h⟩ := h
        obtain rfl := Except.ok.inj h
        rw [List.length_cons, ih hlen hrest, kept_none]
      | some slot =>
        rw [rewriteParams] at h
        rw [ih hlen h, kept_some]

theorem rewriteParams_getElem? {plan : Plan} (ps : List (Param Term)) :
    ∀ {before p ps'}, rewriteParams plan before ps p = .ok ps' →
      ∀ {k x}, ps[k]? = some x → p[k]? = some none →
        ∃ u, { plan with pattern := before ++ p.take k }.rewrite x.type = .ok u ∧
          ps'[Pattern.kept (p.take k)]? = some ⟨x.name, u⟩ := by
  induction ps with
  | nil =>
    intro before p ps' _ k x hx
    cases hx
  | cons y ps ih =>
    intro before p ps' h k x hx hp
    cases p with
    | nil => cases hp
    | cons s p =>
      cases s with
      | none =>
        rw [rewriteParams, bind_eq_ok_iff] at h
        obtain ⟨type, htype, h⟩ := h
        rw [bind_eq_ok_iff] at h
        obtain ⟨rest, hrest, h⟩ := h
        obtain rfl := Except.ok.inj h
        cases k with
        | zero =>
          obtain rfl := Option.some.inj hx
          rw [List.take_zero, List.append_nil]
          exact ⟨type, htype, rfl⟩
        | succ k =>
          obtain ⟨u, hu, hmem⟩ := ih hrest hx hp
          rw [List.append_assoc, List.singleton_append] at hu
          rw [List.take_succ_cons, kept_none, List.getElem?_cons_succ]
          exact ⟨u, hu, hmem⟩
      | some slot =>
        rw [rewriteParams] at h
        cases k with
        | zero => cases hp
        | succ k =>
          obtain ⟨u, hu, hmem⟩ := ih h hx hp
          rw [List.append_assoc, List.singleton_append] at hu
          exact ⟨u, hu, hmem⟩

theorem rewriteParams_error {plan : Plan} {e : SpecializeError} (ps : List (Param Term)) :
    ∀ {before p}, rewriteParams plan before ps p = .error e →
      ∃ (k : Nat) (x : Param Term), ps[k]? = some x ∧ p[k]? = some none ∧
        { plan with pattern := before ++ p.take k }.rewrite x.type = .error e := by
  induction ps with
  | nil =>
    intro before p h
    cases p <;> cases h
  | cons y ps ih =>
    intro before p h
    cases p with
    | nil => cases h
    | cons s p =>
      have hrest : rewriteParams plan (before ++ [s]) ps p = .error e →
          ∃ (k : Nat) (x : Param Term), (y :: ps)[k]? = some x ∧ (s :: p)[k]? = some none ∧
            { plan with pattern := before ++ (s :: p).take k }.rewrite x.type = .error e := by
        intro h
        obtain ⟨k, x, hx, hp, hu⟩ := ih h
        rw [List.append_assoc, List.singleton_append] at hu
        exact ⟨k + 1, x, hx, hp, hu⟩
      cases s with
      | none =>
        rw [rewriteParams, bind_eq_error_iff] at h
        rcases h with h | ⟨_, _, h⟩
        · refine ⟨0, y, rfl, rfl, ?_⟩
          rwa [List.take_zero, List.append_nil]
        · rcases bind_eq_error_iff.1 h with h | ⟨_, _, h⟩
          · exact hrest h
          · cases h
      | some slot =>
        rw [rewriteParams] at h
        exact hrest h

theorem rewriteFunction_parts {plan : Plan} {f f' : FixFunction Term} {name : String}
    (h : rewriteFunction plan f name = .ok f') :
    f.arity = plan.pattern.length ∧ rewriteParams plan [] f.params plan.pattern = .ok f'.params ∧
      plan.rewrite f.result = .ok f'.result ∧ plan.rewrite f.body = .ok f'.body := by
  unfold rewriteFunction at h
  split at h
  · next harity =>
    rw [bind_eq_ok_iff] at h
    obtain ⟨ps, hps, h⟩ := h
    rw [bind_eq_ok_iff] at h
    obtain ⟨result, hresult, h⟩ := h
    rw [bind_eq_ok_iff] at h
    obtain ⟨body, hbody, h⟩ := h
    obtain rfl := Except.ok.inj h
    exact ⟨harity, hps, hresult, hbody⟩
  · cases h

theorem rewriteFunction_eq_ok {plan : Plan} {f f' : FixFunction Term} {name : String}
    (h : rewriteFunction plan f name = .ok f') :
    f.arity = plan.pattern.length ∧ f'.params.length = plan.pattern.kept ∧
      plan.rewrite f.body = .ok f'.body := by
  obtain ⟨harity, hps, _, hbody⟩ := rewriteFunction_parts h
  exact ⟨harity, rewriteParams_length f.params harity hps, hbody⟩

theorem rewriteFunctions_getElem? {plan : Plan} {namer : Nat → String}
    (fs : List (FixFunction Term)) :
    ∀ {g info fs'}, rewriteFunctions plan namer g fs info = .ok fs' →
      ∀ {i f p}, fs[i]? = some f → info[i]? = some p → ∃ f', fs'[i]? = some f' ∧
        rewriteFunction { plan with pattern := p } f (namer (g + i)) = .ok f' := by
  induction fs with
  | nil =>
    intro g info fs' _ i f p hf
    cases hf
  | cons f₀ fs ih =>
    intro g info fs' h i f p hf hp
    cases info with
    | nil => cases hp
    | cons p₀ info =>
      rw [rewriteFunctions, bind_eq_ok_iff] at h
      obtain ⟨f₀', hf₀, h⟩ := h
      rw [bind_eq_ok_iff] at h
      obtain ⟨rest, hrest, h⟩ := h
      obtain rfl := Except.ok.inj h
      cases i with
      | zero =>
        obtain rfl := Option.some.inj hf
        obtain rfl := Option.some.inj hp
        exact ⟨f₀', rfl, hf₀⟩
      | succ i =>
        obtain ⟨f', hf', hrewrite⟩ := ih hrest hf hp
        exact ⟨f', hf', by rw [← hrewrite, Nat.add_right_comm, Nat.add_assoc]⟩

theorem rewriteFunctions_length {plan : Plan} {namer : Nat → String}
    (fs : List (FixFunction Term)) :
    ∀ {g info fs'}, fs.length = info.length → rewriteFunctions plan namer g fs info = .ok fs' →
      fs'.length = fs.length := by
  induction fs with
  | nil =>
    intro g info fs' _ h
    obtain rfl := Except.ok.inj h
    rfl
  | cons f fs ih =>
    intro g info fs' hlen h
    cases info with
    | nil => simp at hlen
    | cons p info =>
      rw [List.length_cons, List.length_cons, Nat.add_right_cancel_iff] at hlen
      rw [rewriteFunctions, bind_eq_ok_iff] at h
      obtain ⟨f', _, h⟩ := h
      rw [bind_eq_ok_iff] at h
      obtain ⟨rest, hrest, h⟩ := h
      obtain rfl := Except.ok.inj h
      rw [List.length_cons, List.length_cons, ih hlen hrest]

theorem rewriteFunctions_error {plan : Plan} {namer : Nat → String} {e : SpecializeError}
    (fs : List (FixFunction Term)) :
    ∀ {g info}, rewriteFunctions plan namer g fs info = .error e →
      ∃ (i : Nat) (f : FixFunction Term) (q : Pattern), fs[i]? = some f ∧ info[i]? = some q ∧
        rewriteFunction { plan with pattern := q } f (namer (g + i)) = .error e := by
  induction fs with
  | nil =>
    intro g info h
    cases info <;> cases h
  | cons f fs ih =>
    intro g info h
    cases info with
    | nil => cases h
    | cons q info =>
      rw [rewriteFunctions, bind_eq_error_iff] at h
      rcases h with h | ⟨_, _, h⟩
      · exact ⟨0, f, q, rfl, rfl, h⟩
      · rcases bind_eq_error_iff.1 h with h | ⟨_, _, h⟩
        · obtain ⟨i, f', q', hf', hq', h⟩ := ih h
          rw [Nat.add_assoc, Nat.add_comm 1] at h
          exact ⟨i + 1, f', q', hf', hq', h⟩
        · cases h

theorem replacements_getElem? (n : Nat) (namer : Nat → String) (g : Nat)
    (fs : List (FixFunction Term)) :
    ∀ {info i f p}, fs[i]? = some f → info[i]? = some p →
      (replacements n namer g fs info)[i]? = some (replacement n (g + i) f p (namer (g + i))) := by
  induction fs generalizing g with
  | nil =>
    intro info i f p hf
    cases hf
  | cons f₀ fs ih =>
    intro info i f p hf hp
    cases info with
    | nil => cases hp
    | cons p₀ info =>
      cases i with
      | zero =>
        obtain rfl := Option.some.inj hf
        obtain rfl := Option.some.inj hp
        rfl
      | succ i =>
        have hrest : (replacements n namer (g + 1) fs info)[i]? = _ := ih (g + 1) hf hp
        rw [replacements, List.getElem?_cons_succ, hrest, Nat.add_right_comm, Nat.add_assoc]

theorem mem_replacements {n : Nat} {namer : Nat → String} {r : Term}
    (fs : List (FixFunction Term)) :
    ∀ {g info}, r ∈ replacements n namer g fs info →
      ∃ (i : Nat) (f : FixFunction Term) (p : Pattern), fs[i]? = some f ∧ info[i]? = some p ∧
        r = replacement n (g + i) f p (namer (g + i)) := by
  induction fs with
  | nil =>
    intro g info hr
    cases info <;> cases hr
  | cons f fs ih =>
    intro g info hr
    cases info with
    | nil => cases hr
    | cons p info =>
      rcases List.mem_cons.1 hr with rfl | hr
      · exact ⟨0, f, p, rfl, rfl, rfl⟩
      · obtain ⟨i, f', p', hf', hp', rfl⟩ := ih hr
        exact ⟨i + 1, f', p', hf', hp', by rw [Nat.add_assoc, Nat.add_comm 1]⟩

end Specialization

theorem Bundle.specialize_size {steps : Nat} {b b' : Bundle Term} {info : SpecInfo}
    {constants : List Term} {namer : Nat → String}
    (h : b.specialize steps info constants namer = .ok b') :
    info.length = b.size ∧ b'.size = b.size := by
  unfold specialize at h
  split at h
  · next hlen =>
    rw [bind_eq_ok_iff] at h
    obtain ⟨fs', hfs', h⟩ := h
    obtain rfl := Except.ok.inj h
    exact ⟨hlen.symm, Specialization.rewriteFunctions_length b.functions hlen hfs'⟩
  · cases h

/-- Every function of a specialized bundle is one of the bundle, rewritten by its plan. -/
theorem Bundle.specialize_rewrites {steps : Nat} {b b' : Bundle Term} {info : SpecInfo}
    {constants : List Term} {namer : Nat → String}
    (h : b.specialize steps info constants namer = .ok b') {i : Nat} {f : FixFunction Term}
    {p : Pattern} (hf : b.function? i = some f) (hp : info[i]? = some p) :
    ∃ f', b'.function? i = some f' ∧
      Specialization.rewriteFunction (b.plan steps info constants namer p) f (namer i) =
        .ok f' := by
  unfold specialize at h
  split at h
  · rw [bind_eq_ok_iff] at h
    obtain ⟨fs', hfs', h⟩ := h
    obtain rfl := Except.ok.inj h
    obtain ⟨f', hf', hrewrite⟩ := Specialization.rewriteFunctions_getElem? b.functions hfs' hf hp
    rw [Nat.zero_add] at hrewrite
    exact ⟨f', hf', hrewrite⟩
  · cases h

section Parts
variable {steps : Nat} {b b' : Bundle Term} {info : SpecInfo} {constants : List Term}
  {namer : Nat → String} {q : Pattern} {t : Term}

theorem Bundle.specialize_part (h : b.specialize steps info constants namer = .ok b')
    (hpart : b.Part info q t) :
    ∃ u, (b.plan steps info constants namer q).rewrite t = .ok u := by
  cases hpart with
  | param hf hq hx hk =>
    obtain ⟨f', _, hrewrite⟩ := specialize_rewrites h hf hq
    obtain ⟨_, hparams, _, _⟩ := Specialization.rewriteFunction_parts hrewrite
    obtain ⟨u, hu, _⟩ := Specialization.rewriteParams_getElem? _ hparams hx hk
    exact ⟨u, hu⟩
  | result hf hq =>
    obtain ⟨f', _, hrewrite⟩ := specialize_rewrites h hf hq
    obtain ⟨_, _, hresult, _⟩ := Specialization.rewriteFunction_parts hrewrite
    exact ⟨_, hresult⟩
  | body hf hq =>
    obtain ⟨f', _, hrewrite⟩ := specialize_rewrites h hf hq
    obtain ⟨_, _, _, hbody⟩ := Specialization.rewriteFunction_parts hrewrite
    exact ⟨_, hbody⟩

/-- Where the patterns describe the bundle, specializing fails for one of its parts only. -/
theorem Bundle.specialize_error_part {e : SpecializeError} (hlen : info.length = b.size)
    (harity : ∀ {i f q}, b.function? i = some f → info[i]? = some q → f.arity = q.length)
    (h : b.specialize steps info constants namer = .error e) :
    ∃ q t, b.Part info q t ∧ (b.plan steps info constants namer q).rewrite t = .error e := by
  rw [specialize, if_pos hlen.symm] at h
  rcases bind_eq_error_iff.1 h with h | ⟨_, _, h⟩
  · obtain ⟨i, f, q, hf, hq, h⟩ := Specialization.rewriteFunctions_error b.functions h
    rw [Specialization.rewriteFunction, if_pos (harity hf hq)] at h
    rcases bind_eq_error_iff.1 h with h | ⟨_, _, h⟩
    · obtain ⟨k, x, hx, hk, h⟩ := Specialization.rewriteParams_error f.params h
      exact ⟨_, _, .param hf hq hx hk, h⟩
    rcases bind_eq_error_iff.1 h with h | ⟨_, _, h⟩
    · exact ⟨_, _, .result hf hq, h⟩
    rcases bind_eq_error_iff.1 h with h | ⟨_, _, h⟩
    · exact ⟨_, _, .body hf hq, h⟩
    · cases h
  · cases h

end Parts

theorem Bundle.specialize_function? {steps : Nat} {b b' : Bundle Term} {info : SpecInfo}
    {constants : List Term} {namer : Nat → String}
    (h : b.specialize steps info constants namer = .ok b') {i : Nat} {f : FixFunction Term}
    {p : Pattern} (hf : b.function? i = some f) (hp : info[i]? = some p) :
    ∃ f', b'.function? i = some f' ∧ f.arity = p.length ∧ f'.params.length = p.kept ∧
      (b.plan steps info constants namer p).rewrite f.body = .ok f'.body := by
  obtain ⟨f', hf', hrewrite⟩ := specialize_rewrites h hf hp
  exact ⟨f', hf', Specialization.rewriteFunction_eq_ok hrewrite⟩

end InductiveTerms
