import InductiveTerms.Proofs.Traversal
import InductiveTerms.Typing.Check

/-!
The rules of the type checker, first read forwards: for each kind of term what its check comes to,
a type or a failure, from what the checks of its parts come to. Read backwards they say what has
been found when the rule for a kind of term gives a type. Whatever is proved of types that are found
goes through these and leaves the checker closed.
-/
namespace InductiveTerms
open Term

section Value
variable {ε α β : Type}

/-- What a computation that keeps no log comes to. -/
def value (x : ExceptT ε Id α) : Except ε α := Id.run x.run

theorem value_bind (x : ExceptT ε Id α) (f : α → ExceptT ε Id β) :
    value (x >>= f) = value x >>= fun a => value (f a) := by
  rw [value, ExceptT.run_bind]
  simp only [value]
  cases (x.run : Except ε α) <;> rfl

end Value

/-- The types of the types of parameters, each found under the parameters before it. -/
def checkParams (ps : List (Param Term)) (ctx : Context) : Except TypeError (List Term) :=
  value (checkParamsM ps ctx)

def checkArgs (ts : List Term) (ctx : Context) : Except TypeError Unit :=
  value (checkArgsM ts ctx)

/-- What is left of the type of a function when it has got `n` arguments. -/
def Term.residual (F : Term) (n : Nat) : Term :=
  productOver (F.unfoldProducts.1.drop n) F.unfoldProducts.2

section Equations
variable (ctx : Context)

theorem check_var_of_some {x : String} {i : Nat} {e : LocalEntry}
    (h : ctx.locals.get? i = some e) :
    (Term.var x i).check ctx = .ok (e.type.shift 0 (i + 1 : Nat)) := by
  have hlocal : ctx.localTypeM (m := Id) i = .ok (e.type.shift 0 (i + 1 : Nat)) := by
    simp only [Context.localTypeM, Stack.get, h]
    rfl
  change value (liftM (ctx.localTypeM (m := Id) i) >>= _) = _
  rw [value_bind, hlocal]
  rfl

theorem check_var_of_none {x : String} {i : Nat} (h : ctx.locals.get? i = none) :
    (Term.var x i).check ctx = .error (.unresolvedLocal x i ctx.size) := by
  have hlocal : ctx.localTypeM (m := Id) i = .error ⟨i, ctx.size⟩ := by
    simp only [Context.localTypeM, Stack.get, h]
    rfl
  change value (liftM (ctx.localTypeM (m := Id) i) >>= _) = _
  rw [value_bind, hlocal]
  rfl

theorem check_global_of_some {x : String} {type : Term} (h : ctx.globalType? x = some type) :
    (Term.global x).check ctx = .ok type := by
  simp only [Term.check, checkM, h]
  rfl

theorem check_global_of_none {x : String} (h : ctx.globalType? x = none) :
    (Term.global x).check ctx = .error (.unresolvedGlobal x) := by
  simp only [Term.check, checkM, h]
  rfl

theorem check_univ_eq (u : Universe) : (Term.univ u).check ctx = .ok (.univ .type) := rfl

theorem checkParams_nil_eq : checkParams [] ctx = .ok [] := rfl

theorem checkParams_cons_eq (p : Param Term) (ps : List (Param Term)) :
    checkParams (p :: ps) ctx = (do
      let sort ← p.type.check ctx
      let sorts ← checkParams ps (ctx.push p.name p.type)
      pure (sort :: sorts)) := by
  change value (p.type.checkM (m := Id) ctx >>= fun sort =>
    checkParamsM ps (ctx.push p.name p.type) >>= fun sorts => pure (sort :: sorts)) = _
  simp only [value_bind]
  rfl

theorem checkArgs_nil_eq : checkArgs [] ctx = .ok () := rfl

theorem checkArgs_cons_eq (t : Term) (ts : List Term) :
    checkArgs (t :: ts) ctx = (do
      let _ ← t.check ctx
      checkArgs ts ctx) := value_bind _ _

theorem check_product_eq (ps : List (Param Term)) (r : Term) :
    (Term.product ps r).check ctx = (do
      let sorts ← checkParams ps ctx
      let sort ← r.check (ctx.pushParams ps)
      pure (commonSort (sorts ++ [sort]))) := by
  change value (checkParamsM (m := Id) ps ctx >>= fun sorts =>
    r.checkM (ctx.pushParams ps) >>= fun sort => pure (commonSort (sorts ++ [sort]))) = _
  simp only [value_bind]
  rfl

theorem check_lambda_eq (ps : List (Param Term)) (b : Term) :
    (Term.lambda ps b).check ctx = (do
      let _ ← checkParams ps ctx
      let body ← b.check (ctx.pushParams ps)
      pure (productOver ps body)) := by
  change value (checkParamsM (m := Id) ps ctx >>= fun _ =>
    b.checkM (ctx.pushParams ps) >>= fun body => pure (productOver ps body)) = _
  simp only [value_bind]
  rfl

theorem check_letIn_eq (x : Option String) (v t b : Term) :
    (Term.letIn x v t b).check ctx = (do
      let V ← v.check ctx
      let _ ← t.check ctx
      let B ← b.check (ctx.push x V)
      pure (B.subst 0 [v])) := by
  change value (v.checkM (m := Id) ctx >>= fun V => t.checkM ctx >>= fun _ =>
    b.checkM (ctx.push x V) >>= fun B => liftM (B.substM (m := Id) 0 [v])) = _
  simp only [value_bind]
  rfl

theorem check_apply_eq (f : Term) (as : Arguments Term) :
    (Term.apply f as).check ctx = (do
      let F ← f.check ctx
      let _ ← checkArgs as.toList ctx
      if F.unfoldProducts.1.length < as.toList.length then
        .error (.notAFunction f.render F.render as.toList.length F.unfoldProducts.1.length)
      else
        pure ((F.residual as.toList.length).subst 0 as.toList.reverse)) := by
  obtain ⟨a, as⟩ := as
  change value (f.checkM (m := Id) ctx >>= fun F => a.checkM ctx >>= fun _ =>
    checkArgsM as ctx >>= fun _ => liftM (resultTypeM (m := Id) F (a :: as)) >>= _) = _
  simp only [value_bind]
  refine bind_congr fun F => ?_
  rw [Arguments.toList_mk, checkArgs_cons_eq, bind_assoc]
  refine bind_congr fun _ => bind_congr fun _ => ?_
  simp only [resultTypeM]
  split <;> rfl

theorem check_cast_eq (t : Term) (k : CastKind) (ty : Term) :
    (Term.cast t k ty).check ctx = t.check ctx := rfl

theorem check_caseOf_eq (p s : Term) (bs : List (Branch Term)) :
    (Term.caseOf p s bs).check ctx = (do
      let S ← s.check ctx
      if ctx.mayBeInductive S then pure (p.subst 0 [S])
      else .error (.notInductive s.render S.render)) := by
  change value (s.checkM (m := Id) ctx >>= _) = _
  rw [value_bind]
  refine bind_congr fun S => ?_
  split <;> rfl

theorem check_fix_of_some {i : Nat} {b : Bundle Term} {f : FixFunction Term}
    (h : b.function? i = some f) :
    (Term.fix i b).check ctx = .ok (productOver f.params f.result) := by
  obtain ⟨l, fs⟩ := b
  change fs[i]? = some f at h
  simp only [Term.check, checkM, h]
  rfl

theorem check_fix_of_none {i : Nat} {b : Bundle Term} (h : b.function? i = none) :
    (Term.fix i b).check ctx = .error (.fixIndexOutOfRange i b.size) := by
  obtain ⟨l, fs⟩ := b
  change fs[i]? = none at h
  simp only [Term.check, checkM, h]
  rfl

end Equations

theorem checkArgs_eq_ok_iff {ts : List Term} {ctx : Context} :
    checkArgs ts ctx = .ok () ↔ ∀ t ∈ ts, ∃ T, t.check ctx = .ok T := by
  induction ts with
  | nil => simp [checkArgs_nil_eq]
  | cons t ts ih =>
    rw [checkArgs_cons_eq, bind_eq_ok_iff, List.forall_mem_cons, ← ih]
    constructor
    · rintro ⟨T, hT, hts⟩
      exact ⟨⟨T, hT⟩, hts⟩
    · rintro ⟨⟨T, hT⟩, hts⟩
      exact ⟨T, hT, hts⟩

theorem commonSort_cons (s : Term) (ss : List Term) :
    commonSort (s :: ss) = s ∨ commonSort (s :: ss) = .univ .type := by
  rw [commonSort]
  split
  · exact .inl rfl
  · exact .inr rfl

section Rules
variable {ctx : Context} {T : Term}

/-! What the rule for a kind of term has found when it gives a type. -/

theorem check_var {x : String} {i : Nat} (h : (Term.var x i).check ctx = .ok T) :
    ctx.localType i = .ok T := by
  cases he : ctx.locals.get? i with
  | some e =>
    rw [check_var_of_some ctx he] at h
    obtain rfl := Except.ok.inj h
    simp only [Context.localType, Context.localTypeM, Stack.get, he]
    rfl
  | none =>
    rw [check_var_of_none ctx he] at h
    cases h

theorem check_global {x : String} (h : (Term.global x).check ctx = .ok T) :
    ctx.globalType? x = some T := by
  cases hx : ctx.globalType? x with
  | some type =>
    rw [check_global_of_some ctx hx] at h
    rw [Except.ok.inj h]
  | none =>
    rw [check_global_of_none ctx hx] at h
    cases h

theorem check_univ {u : Universe} (h : (Term.univ u).check ctx = .ok T) : T = .univ .type :=
  (Except.ok.inj h).symm

theorem checkParams_cons {p : Param Term} {ps : List (Param Term)} {sorts : List Term}
    (h : checkParams (p :: ps) ctx = .ok sorts) :
    ∃ sort rest, sorts = sort :: rest ∧ p.type.check ctx = .ok sort ∧
      checkParams ps (ctx.push p.name p.type) = .ok rest := by
  rw [checkParams_cons_eq] at h
  obtain ⟨sort, hsort, h⟩ := bind_eq_ok_iff.1 h
  obtain ⟨rest, hrest, h⟩ := bind_eq_ok_iff.1 h
  exact ⟨sort, rest, (Except.ok.inj h).symm, hsort, hrest⟩

theorem check_product {ps : List (Param Term)} {r : Term}
    (h : (Term.product ps r).check ctx = .ok T) :
    ∃ sorts sort, checkParams ps ctx = .ok sorts ∧ r.check (ctx.pushParams ps) = .ok sort ∧
      T = commonSort (sorts ++ [sort]) := by
  rw [check_product_eq] at h
  obtain ⟨sorts, hsorts, h⟩ := bind_eq_ok_iff.1 h
  obtain ⟨sort, hsort, h⟩ := bind_eq_ok_iff.1 h
  exact ⟨sorts, sort, hsorts, hsort, (Except.ok.inj h).symm⟩

theorem check_product_nil {r : Term} (h : (Term.product [] r).check ctx = .ok T) :
    r.check ctx = .ok T := by
  obtain ⟨sorts, sort, hsorts, hsort, rfl⟩ := check_product h
  obtain rfl := Except.ok.inj hsorts
  exact hsort

theorem check_product_cons {p : Param Term} {ps : List (Param Term)} {r : Term}
    (h : (Term.product (p :: ps) r).check ctx = .ok T) :
    T = .univ .type ∨ p.type.check ctx = .ok T := by
  obtain ⟨sorts, sort, hsorts, _, rfl⟩ := check_product h
  obtain ⟨first, rest, rfl, hfirst, _⟩ := checkParams_cons hsorts
  rcases commonSort_cons first (rest ++ [sort]) with heq | heq
  · exact .inr (by rw [List.cons_append, heq, hfirst])
  · exact .inl heq

theorem check_lambda {ps : List (Param Term)} {b : Term}
    (h : (Term.lambda ps b).check ctx = .ok T) :
    ∃ B, b.check (ctx.pushParams ps) = .ok B ∧ T = productOver ps B := by
  rw [check_lambda_eq] at h
  obtain ⟨_, _, h⟩ := bind_eq_ok_iff.1 h
  obtain ⟨B, hB, h⟩ := bind_eq_ok_iff.1 h
  exact ⟨B, hB, (Except.ok.inj h).symm⟩

theorem check_letIn {x : Option String} {v t b : Term}
    (h : (Term.letIn x v t b).check ctx = .ok T) :
    ∃ V B, v.check ctx = .ok V ∧ b.check (ctx.push x V) = .ok B ∧ T = B.subst 0 [v] := by
  rw [check_letIn_eq] at h
  obtain ⟨V, hV, h⟩ := bind_eq_ok_iff.1 h
  obtain ⟨_, _, h⟩ := bind_eq_ok_iff.1 h
  obtain ⟨B, hB, h⟩ := bind_eq_ok_iff.1 h
  exact ⟨V, B, hV, hB, (Except.ok.inj h).symm⟩

theorem check_apply_iff {f : Term} {as : Arguments Term} :
    (Term.apply f as).check ctx = .ok T ↔
      ∃ F, f.check ctx = .ok F ∧ (∀ a ∈ as.toList, ∃ A, a.check ctx = .ok A) ∧
        as.toList.length ≤ F.unfoldProducts.1.length ∧
          T = (F.residual as.toList.length).subst 0 as.toList.reverse := by
  rw [check_apply_eq, bind_eq_ok_iff]
  refine exists_congr fun F => and_congr_right fun _ => ?_
  rw [bind_eq_ok_iff, ← checkArgs_eq_ok_iff]
  constructor
  · rintro ⟨_, hargs, h⟩
    split at h
    · cases h
    · next hle => exact ⟨hargs, Nat.not_lt.1 hle, (Except.ok.inj h).symm⟩
  · rintro ⟨hargs, hle, rfl⟩
    exact ⟨(), hargs, by rw [if_neg (Nat.not_lt.2 hle)]; rfl⟩

theorem check_apply {f : Term} {as : Arguments Term} (h : (Term.apply f as).check ctx = .ok T) :
    ∃ F, f.check ctx = .ok F ∧ as.toList.length ≤ F.unfoldProducts.1.length ∧
      T = (productOver (F.unfoldProducts.1.drop as.toList.length) F.unfoldProducts.2).subst 0
        as.toList.reverse := by
  obtain ⟨F, hF, _, hle, hT⟩ := check_apply_iff.1 h
  exact ⟨F, hF, hle, hT⟩

theorem check_cast {t ty : Term} {k : CastKind} (h : (Term.cast t k ty).check ctx = .ok T) :
    t.check ctx = .ok T := by
  rwa [check_cast_eq] at h

theorem check_caseOf {p s : Term} {bs : List (Branch Term)}
    (h : (Term.caseOf p s bs).check ctx = .ok T) :
    ∃ S, s.check ctx = .ok S ∧ T = p.subst 0 [S] := by
  rw [check_caseOf_eq] at h
  obtain ⟨S, hS, h⟩ := bind_eq_ok_iff.1 h
  refine ⟨S, hS, ?_⟩
  split at h
  · exact (Except.ok.inj h).symm
  · cases h

theorem check_fix {i : Nat} {b : Bundle Term} (h : (Term.fix i b).check ctx = .ok T) :
    ∃ f, b.function? i = some f ∧ T = productOver f.params f.result := by
  cases hf : b.function? i with
  | some f =>
    rw [check_fix_of_some ctx hf] at h
    exact ⟨f, rfl, (Except.ok.inj h).symm⟩
  | none =>
    rw [check_fix_of_none ctx hf] at h
    cases h

end Rules

end InductiveTerms
