import Mathlib.Data.List.Basic
import InductiveTerms.Proofs.Children

/-!
The variables of a term and what is put in their places. `everywhere` rewrites a term from the
bottom up, `occurrences` lists the occurrences of variables with their depths, `mapVars` replaces
each by a term that depends on its index and depth alone. Two replacements one after the other are
one replacement, and only the values at the occurrences matter.
-/
namespace InductiveTerms.Term

mutual
/-- Rewrites every node, the nodes below it first; told the number of binders around it. -/
def everywhere (h : Term → Nat → Term) : Term → Nat → Term
  | .var x i, d => h (.var x i) d
  | .global x, d => h (.global x) d
  | .univ u, d => h (.univ u) d
  | .product ps r, d =>
      h (.product (everywhereParams h ps d) (everywhere h r (d + ps.length))) d
  | .lambda ps b, d =>
      h (.lambda (everywhereParams h ps d) (everywhere h b (d + ps.length))) d
  | .letIn x v t b, d =>
      h (.letIn x (everywhere h v d) (everywhere h t d) (everywhere h b (d + 1))) d
  | .apply f ⟨a, as⟩, d =>
      h (.apply (everywhere h f d) ⟨everywhere h a d, everywhereTerms h as d⟩) d
  | .cast t k ty, d => h (.cast (everywhere h t d) k (everywhere h ty d)) d
  | .caseOf p s bs, d =>
      h (.caseOf (everywhere h p (d + 1)) (everywhere h s d) (everywhereBranches h bs d)) d
  | .fix i ⟨l, fs⟩, d => h (.fix i ⟨l, everywhereFunctions h fs (d + fs.length)⟩) d
termination_by structural t => t

def everywhereParams (h : Term → Nat → Term) : List (Param Term) → Nat → List (Param Term)
  | [], _ => []
  | ⟨x, t⟩ :: ps, d => ⟨x, everywhere h t d⟩ :: everywhereParams h ps (d + 1)
termination_by structural ps => ps

def everywhereTerms (h : Term → Nat → Term) : List Term → Nat → List Term
  | [], _ => []
  | t :: ts, d => everywhere h t d :: everywhereTerms h ts d
termination_by structural ts => ts

def everywhereBranches (h : Term → Nat → Term) : List (Branch Term) → Nat → List (Branch Term)
  | [], _ => []
  | ⟨x, n, t⟩ :: bs, d => ⟨x, n, everywhere h t (d + n)⟩ :: everywhereBranches h bs d
termination_by structural bs => bs

def everywhereFunctions (h : Term → Nat → Term) :
    List (FixFunction Term) → Nat → List (FixFunction Term)
  | [], _ => []
  | ⟨x, ps, r, b⟩ :: fs, d =>
      ⟨x, everywhereParams h ps d, everywhere h r (d + ps.length), everywhere h b (d + ps.length)⟩
        :: everywhereFunctions h fs d
termination_by structural fs => fs
end

section Everywhere
variable (h : Term → Nat → Term)

theorem everywhereParams_eq (ps : List (Param Term)) (d : Nat) :
    everywhereParams h ps d = mapParamTypes (everywhere h) ps d := by
  induction ps generalizing d with
  | nil => rfl
  | cons p ps ih => simp only [everywhereParams, mapParamTypes, ih]

theorem everywhereTerms_eq (ts : List Term) (d : Nat) :
    everywhereTerms h ts d = ts.map (everywhere h · d) := by
  induction ts with
  | nil => rfl
  | cons t ts ih => simp only [everywhereTerms, List.map_cons, ih]

theorem everywhereBranches_eq (bs : List (Branch Term)) (d : Nat) :
    everywhereBranches h bs d =
      bs.map fun b => ⟨b.constructor, b.arity, everywhere h b.body (d + b.arity)⟩ := by
  induction bs with
  | nil => rfl
  | cons b bs ih => simp only [everywhereBranches, List.map_cons, ih]

theorem everywhereFunctions_eq (fs : List (FixFunction Term)) (d : Nat) :
    everywhereFunctions h fs d = fs.map (mapFunction (everywhere h) · d) := by
  induction fs with
  | nil => rfl
  | cons f fs ih =>
    simp only [everywhereFunctions, List.map_cons, ih, everywhereParams_eq, mapFunction,
      FixFunction.arity]

/-- A term is rewritten by rewriting its children and then the node that results. -/
theorem everywhere_eq (t : Term) (d : Nat) :
    everywhere h t d = h (t.mapChildren (everywhere h) d) d := by
  cases t <;>
    simp only [everywhere, mapChildren, everywhereParams_eq, everywhereTerms_eq,
      everywhereBranches_eq, everywhereFunctions_eq, Bundle.size, Arguments.map]

/-- Rewriting that takes no notice of depth may start at any. -/
theorem everywhere_depth (g : Term → Term) (t : Term) :
    ∀ d e, everywhere (fun t _ => g t) t d = everywhere (fun t _ => g t) t e := by
  induction t using induct_children with
  | node t ih =>
    intro d e
    have hzero : ∀ d, t.mapChildren (everywhere fun t _ => g t) d =
        t.mapChildren (fun c _ => everywhere (fun t _ => g t) c 0) d :=
      fun d => mapChildren_congr fun c hc => ih d c hc c.2 0
    rw [everywhere_eq, everywhere_eq, hzero d, hzero e, mapChildren_depth t d e]

end Everywhere

mutual
/-- The indices of the occurrences of variables, each with the number of binders around it. -/
def occurrences : Term → Nat → List (Nat × Nat)
  | .var _ i, d => [(i, d)]
  | .global _, _ => []
  | .univ _, _ => []
  | .product ps r, d => occurrencesOfParams ps d ++ occurrences r (d + ps.length)
  | .lambda ps b, d => occurrencesOfParams ps d ++ occurrences b (d + ps.length)
  | .letIn _ v t b, d => occurrences v d ++ (occurrences t d ++ occurrences b (d + 1))
  | .apply f ⟨a, as⟩, d => occurrences f d ++ (occurrences a d ++ occurrencesOfTerms as d)
  | .cast t _ ty, d => occurrences t d ++ occurrences ty d
  | .caseOf p s bs, d => occurrences p (d + 1) ++ (occurrences s d ++ occurrencesOfBranches bs d)
  | .fix _ ⟨_, fs⟩, d => occurrencesOfFunctions fs (d + fs.length)
termination_by structural t => t

def occurrencesOfParams : List (Param Term) → Nat → List (Nat × Nat)
  | [], _ => []
  | ⟨_, t⟩ :: ps, d => occurrences t d ++ occurrencesOfParams ps (d + 1)
termination_by structural ps => ps

def occurrencesOfTerms : List Term → Nat → List (Nat × Nat)
  | [], _ => []
  | t :: ts, d => occurrences t d ++ occurrencesOfTerms ts d
termination_by structural ts => ts

def occurrencesOfBranches : List (Branch Term) → Nat → List (Nat × Nat)
  | [], _ => []
  | ⟨_, n, t⟩ :: bs, d => occurrences t (d + n) ++ occurrencesOfBranches bs d
termination_by structural bs => bs

def occurrencesOfFunctions : List (FixFunction Term) → Nat → List (Nat × Nat)
  | [], _ => []
  | ⟨_, ps, r, b⟩ :: fs, d =>
      (occurrencesOfParams ps d ++
        (occurrences r (d + ps.length) ++ occurrences b (d + ps.length))) ++
        occurrencesOfFunctions fs d
termination_by structural fs => fs
end

theorem occurrencesOfParams_eq (ps : List (Param Term)) (d : Nat) :
    occurrencesOfParams ps d = (paramTypes ps d).flatMap fun c => occurrences c.1 c.2 := by
  induction ps generalizing d with
  | nil => rfl
  | cons p ps ih => simp only [occurrencesOfParams, paramTypes, List.flatMap_cons, ih]

theorem occurrencesOfTerms_eq (ts : List Term) (d : Nat) :
    occurrencesOfTerms ts d = ts.flatMap (occurrences · d) := by
  induction ts with
  | nil => rfl
  | cons t ts ih => simp only [occurrencesOfTerms, List.flatMap_cons, ih]

theorem occurrencesOfBranches_eq (bs : List (Branch Term)) (d : Nat) :
    occurrencesOfBranches bs d = bs.flatMap fun b => occurrences b.body (d + b.arity) := by
  induction bs with
  | nil => rfl
  | cons b bs ih => simp only [occurrencesOfBranches, List.flatMap_cons, ih]

theorem occurrencesOfFunctions_eq (fs : List (FixFunction Term)) (d : Nat) :
    occurrencesOfFunctions fs d = fs.flatMap fun f =>
      (paramTypes f.params d ++ [(f.result, d + f.arity), (f.body, d + f.arity)]).flatMap
        fun c => occurrences c.1 c.2 := by
  induction fs with
  | nil => rfl
  | cons f fs ih =>
    simp only [occurrencesOfFunctions, List.flatMap_cons, ih, occurrencesOfParams_eq,
      List.flatMap_append, List.flatMap_nil, List.append_nil, FixFunction.arity]

theorem occurrences_var (x : String) (i d : Nat) : (Term.var x i).occurrences d = [(i, d)] := rfl

/-- The variables of a node that is none are those of its children. -/
theorem occurrences_eq {t : Term} (ht : t.asVar? = none) (d : Nat) :
    t.occurrences d = (t.children d).flatMap fun c => c.1.occurrences c.2 := by
  cases t <;>
    simp_all [occurrences, children, occurrencesOfParams_eq, occurrencesOfTerms_eq,
      occurrencesOfBranches_eq, occurrencesOfFunctions_eq, List.flatMap_map, Bundle.size, asVar?,
      List.flatMap_assoc, Arguments.toList]

theorem mem_occurrences_iff {t : Term} (ht : t.asVar? = none) {d : Nat} {o : Nat × Nat} :
    o ∈ t.occurrences d ↔ ∃ c ∈ t.children d, o ∈ c.1.occurrences c.2 := by
  rw [occurrences_eq ht, List.mem_flatMap]

/-- What a replacement of variables does to a node. -/
def replaceVar (f : Nat → Nat → Term) : Term → Nat → Term
  | .var _ i, d => f i d
  | t, _ => t

/-- Puts `f i d` for each variable of index `i` that stands under `d` binders. -/
def mapVars (f : Nat → Nat → Term) : Term → Nat → Term := everywhere (replaceVar f)

section MapVars
variable {f g : Nat → Nat → Term}

theorem mapVars_var (x : String) (i d : Nat) : mapVars f (.var x i) d = f i d := rfl

theorem replaceVar_eq_self {t : Term} (ht : t.asVar? = none) (d : Nat) :
    replaceVar f t d = t := by
  cases t <;> first | rfl | simp [asVar?] at ht

theorem mapVars_eq {t : Term} (ht : t.asVar? = none) (d : Nat) :
    mapVars f t d = t.mapChildren (mapVars f) d := by
  rw [mapVars, everywhere_eq, replaceVar_eq_self (by rw [asVar?_mapChildren, ht])]

theorem asVar?_mapVars {t : Term} (ht : t.asVar? = none) (d : Nat) :
    (mapVars f t d).asVar? = none := by
  rw [mapVars_eq ht, asVar?_mapChildren, ht]

/-- Two replacements, one after the other, are one. -/
theorem mapVars_mapVars (t : Term) :
    ∀ d, mapVars g (mapVars f t d) d = mapVars (fun i e => mapVars g (f i e) e) t d := by
  induction t using induct_children with
  | node t ih =>
    intro d
    rcases t.eq_var_or_asVar?_eq_none with ⟨x, i, rfl⟩ | ht
    · rfl
    · rw [mapVars_eq (asVar?_mapVars ht d), mapVars_eq ht, mapVars_eq ht, mapChildren_mapChildren]
      exact mapChildren_congr fun c hc => ih d c hc c.2

/-- Only what is put for the occurrences that occur matters. -/
theorem mapVars_congr (t : Term) :
    ∀ {d}, (∀ o ∈ t.occurrences d, f o.1 o.2 = g o.1 o.2) → mapVars f t d = mapVars g t d := by
  induction t using induct_children with
  | node t ih =>
    intro d heq
    rcases t.eq_var_or_asVar?_eq_none with ⟨x, i, rfl⟩ | ht
    · exact heq (i, d) (List.mem_singleton.2 rfl)
    · rw [mapVars_eq ht, mapVars_eq ht]
      exact mapChildren_congr fun c hc =>
        ih d c hc fun o ho => heq o ((mem_occurrences_iff ht).2 ⟨c, hc, ho⟩)

theorem occurrences_mapVars (t : Term) :
    ∀ d, (mapVars f t d).occurrences d =
      (t.occurrences d).flatMap fun o => (f o.1 o.2).occurrences o.2 := by
  induction t using induct_children with
  | node t ih =>
    intro d
    rcases t.eq_var_or_asVar?_eq_none with ⟨x, i, rfl⟩ | ht
    · simp [mapVars_var, occurrences_var]
    · rw [occurrences_eq (asVar?_mapVars ht d), mapVars_eq ht, children_mapChildren,
        occurrences_eq ht, List.flatMap_map, List.flatMap_assoc]
      exact List.flatMap_congr fun c hc => ih d c hc c.2

/-- Under more binders, the same is put in at depths that count from there. -/
theorem mapVars_add (n : Nat) (t : Term) :
    ∀ d, mapVars f t (d + n) = mapVars (fun i e => f i (e + n)) t d := by
  induction t using induct_children with
  | node t ih =>
    intro d
    rcases t.eq_var_or_asVar?_eq_none with ⟨x, i, rfl⟩ | ht
    · rfl
    · rw [mapVars_eq ht, mapVars_eq ht, mapChildren_add]
      exact mapChildren_congr fun c hc => ih d c hc c.2

end MapVars

theorem occurrences_add (n : Nat) (t : Term) :
    ∀ d, t.occurrences (d + n) = (t.occurrences d).map fun o => (o.1, o.2 + n) := by
  induction t using induct_children with
  | node t ih =>
    intro d
    rcases t.eq_var_or_asVar?_eq_none with ⟨x, i, rfl⟩ | ht
    · rfl
    · rw [occurrences_eq ht, occurrences_eq ht, children_add, List.flatMap_map, List.map_flatMap]
      exact List.flatMap_congr fun c hc => ih d c hc c.2

/-- The occurrences under `d` binders, in terms of those under none. -/
theorem mem_occurrences_depth {t : Term} {d : Nat} {o : Nat × Nat} :
    o ∈ t.occurrences d ↔ ∃ e, (o.1, e) ∈ t.occurrences 0 ∧ o.2 = e + d := by
  have h := occurrences_add d t 0
  rw [Nat.zero_add] at h
  rw [h, List.mem_map]
  constructor
  · rintro ⟨o, ho, rfl⟩
    exact ⟨o.2, ho, rfl⟩
  · rintro ⟨e, he, hd⟩
    exact ⟨_, he, by rw [← hd]⟩

end InductiveTerms.Term
