import InductiveTerms.Proofs.Uses

/-!
What a walk through a term does. It says what the term stands for and notes, one after another, the
demands that the term makes on the functions of the bundle (`walk_notes`). These are exactly what
the term uses at places that are walked through or in nested bundles (`mem_demands_iff`).
-/
namespace InductiveTerms
namespace Closure

/-- What a term asks for: that a function may be called with arguments of such meanings, or that
it may be used in a nested bundle. -/
inductive Demand where
  | call (function : Nat) (args : List Meaning)
  | nested (function : Nat)
  deriving DecidableEq

/-- The demand of a nested bundle that refers to a variable of such a meaning. -/
def nestedDemand? : Option Meaning → Option Demand
  | some (.function g) => some (.nested g)
  | _ => none

def nestedDemands (locals : List Meaning) (refs : List Nat) : List Demand :=
  refs.filterMap fun r => nestedDemand? locals[r]?

mutual
/-- What a term with the variables `locals` that is applied to `args` demands, in the order in which
a walk comes upon it. -/
def demands : Term → List Meaning → List Meaning → List Demand
  | .var _ i, locals, args =>
      match locals[i]? with
      | some (.function g) => [.call g args]
      | _ => []
  | .global _, _, _ => []
  | .univ _, _, _ => []
  | .product _ _, _, _ => []
  | .lambda ps b, locals, _ => demands b (unknowns ps.length locals) []
  | .letIn _ v _ b, locals, args =>
      demands v locals [] ++ demands b (meaning v locals :: locals) args
  | .apply f ⟨a, as⟩, locals, args =>
      demandsOfArgs as locals ++ (demands a locals [] ++
        demands f locals (meaning a locals :: (as.map (meaning · locals) ++ args)))
  | .cast t _ _, locals, args => demands t locals args
  | .caseOf _ s bs, locals, args => demands s locals [] ++ demandsOfBranches bs locals args
  | .fix i b, locals, _ => nestedDemands locals (Term.fix i b).externalReferences
termination_by structural t => t

def demandsOfArgs : List Term → List Meaning → List Demand
  | [], _ => []
  | t :: ts, locals => demandsOfArgs ts locals ++ demands t locals []
termination_by structural ts => ts

def demandsOfBranches : List (Branch Term) → List Meaning → List Meaning → List Demand
  | [], _, _ => []
  | ⟨_, n, t⟩ :: bs, locals, args =>
      demands t (unknowns n locals) args ++ demandsOfBranches bs locals args
termination_by structural bs => bs
end

/-- Gives function `i` a pattern, which has to be the one that it has got before. -/
def State.assign (s : State) (i : Nat) (p : Pattern) : State :=
  match (s.patterns[i]?).join with
  | some q => if q = p then s else { s with consistent := false }
  | none => { s with patterns := s.patterns.set i (some p), pending := i :: s.pending }

variable (fs : List (FixFunction Term))

def arityOf (g : Nat) : Nat := (fs[g]?.map FixFunction.arity).getD 0

/-- The pattern that a call with such arguments forces on function `g`. -/
def forced (g : Nat) (args : List Meaning) : Pattern := (args.take (arityOf fs g)).map Meaning.slot?

/-- What a demand does to the state of a search. -/
def State.note (s : State) : Demand → State
  | .call g args =>
      if arityOf fs g ≤ args.length then s.assign g (forced fs g args)
      else { s with consistent := false }
  | .nested _ => { s with consistent := false }

/-- An action that has the result `a` and notes the demands listed. -/
def Notes {α : Type} (x : StateT State Id α) (a : α) (ds : List Demand) : Prop :=
  ∀ s, x.run s = (a, ds.foldl (State.note fs) s)

section Notes
variable {fs} {α β : Type}

theorem Notes.bind {x : StateT State Id α} {f : α → StateT State Id β} {a : α} {b : β}
    {ds ds' : List Demand} (hx : Notes fs x a ds) (hf : Notes fs (f a) b ds') :
    Notes fs (x >>= f) b (ds ++ ds') := by
  intro s
  rw [StateT.run_bind, hx s, List.foldl_append]
  exact hf _

theorem notes_pure (a : α) : Notes fs (pure a) a [] := fun _ => rfl

/-- A result may be turned into another one in the end. -/
theorem Notes.last {x : StateT State Id α} {f : α → StateT State Id β} {a : α} {b : β}
    {ds : List Demand} (hx : Notes fs x a ds) (hf : Notes fs (f a) b []) :
    Notes fs (x >>= f) b ds := by
  have h := hx.bind hf
  rwa [List.append_nil] at h

theorem run_call (i : Nat) (p : Pattern) (s : State) :
    (call (m := Id) fs i p).run s = ((), s.assign i p) := by
  simp only [call, State.assign]
  cases h : (s.patterns[i]?).join with
  | none =>
    simp only [StateT.run_bind, StateT.run_get, pure_bind, h]
    rfl
  | some q =>
    simp only [StateT.run_bind, StateT.run_get, pure_bind, h]
    split <;> rfl

theorem notes_use (x : String) (g : Nat) (args : List Meaning) :
    Notes fs (use (m := Id) fs x g args) () [.call g args] := by
  intro s
  simp only [use, List.foldl_cons, List.foldl_nil, State.note]
  by_cases h : arityOf fs g ≤ args.length
  · rw [if_pos h]
    exact (congrArg (StateT.run · s) (if_pos h)).trans (run_call g _ s)
  · rw [if_neg h]
    exact (congrArg (StateT.run · s) (if_neg h)).trans rfl

theorem notes_rejectNested (locals : List Meaning) (refs : List Nat) :
    Notes fs (rejectNested (m := Id) fs locals refs) () (nestedDemands locals refs) := by
  induction refs with
  | nil => exact notes_pure ()
  | cons r rs ih =>
    simp only [rejectNested, nestedDemands, List.filterMap_cons]
    cases locals[r]? with
    | none => exact ih
    | some m =>
      cases m with
      | function g =>
        have hreject : ∀ text, Notes fs (reject (m := Id) text) () [.nested g] := fun _ _ => rfl
        exact (hreject _).bind ih
      | constant slot => exact ih
      | unknown => exact ih

end Notes

mutual
/-- A walk through a term gives its meaning and notes its demands. -/
theorem walk_notes : ∀ (t : Term) (locals args : List Meaning),
    Notes fs (walk (m := Id) fs t locals args) (meaning t locals) (demands t locals args)
  | .var x i, locals, args => by
    simp only [walk, meaning, demands]
    cases hi : locals[i]? with
    | none => exact notes_pure _
    | some m =>
      cases m with
      | function g => exact (notes_use x g args).last (notes_pure _)
      | constant slot => exact notes_pure _
      | unknown => exact notes_pure _
  | .global _, _, _ => notes_pure _
  | .univ _, _, _ => notes_pure _
  | .product _ _, _, _ => notes_pure _
  | .lambda ps b, locals, _ => by
    simp only [walk, meaning, demands]
    exact (walk_notes b _ []).last (notes_pure _)
  | .letIn _ v _ b, locals, args => by
    simp only [walk, meaning, demands]
    exact (walk_notes v locals []).bind (walk_notes b _ args)
  | .apply f ⟨a, as⟩, locals, args => by
    simp only [walk, meaning, demands]
    exact (walkArgs_notes as locals args).bind ((walk_notes a locals []).bind
      ((walk_notes f locals _).last (notes_pure _)))
  | .cast t _ _, locals, args => by
    simp only [walk, meaning, demands]
    exact walk_notes t locals args
  | .caseOf _ s bs, locals, args => by
    simp only [walk, meaning, demands]
    exact (walk_notes s locals []).bind ((walkBranches_notes bs locals args).last (notes_pure _))
  | .fix i b, locals, _ => by
    simp only [walk, meaning, demands]
    exact (notes_rejectNested locals _).last (notes_pure _)
termination_by structural t => t

theorem walkArgs_notes : ∀ (ts : List Term) (locals args : List Meaning),
    Notes fs (walkArgs (m := Id) fs ts locals args) (ts.map (meaning · locals) ++ args)
      (demandsOfArgs ts locals)
  | [], _, _ => notes_pure _
  | t :: ts, locals, args => by
    simp only [walkArgs, demandsOfArgs]
    exact (walkArgs_notes ts locals args).bind ((walk_notes t locals []).last (notes_pure _))
termination_by structural ts => ts

theorem walkBranches_notes : ∀ (bs : List (Branch Term)) (locals args : List Meaning),
    Notes fs (walkBranches (m := Id) fs bs locals args) () (demandsOfBranches bs locals args)
  | [], _, _ => notes_pure _
  | ⟨_, n, t⟩ :: bs, locals, args => by
    simp only [walkBranches, demandsOfBranches]
    exact (walk_notes t _ args).bind (walkBranches_notes bs locals args)
termination_by structural bs => bs
end

section Members
variable {locals args : List Meaning} {d : Demand}

theorem demandsOfArgs_eq (ts : List Term) :
    demandsOfArgs ts locals = ts.reverse.flatMap (demands · locals []) := by
  induction ts with
  | nil => rfl
  | cons t ts ih => simp [demandsOfArgs, ih]

theorem demandsOfBranches_eq (bs : List (Branch Term)) :
    demandsOfBranches bs locals args =
      bs.flatMap fun b => demands b.body (unknowns b.arity locals) args := by
  induction bs with
  | nil => rfl
  | cons b bs ih => simp [demandsOfBranches, ih]

theorem demands_apply (f : Term) (as : Arguments Term) (args : List Meaning) :
    demands (.apply f as) locals args = as.toList.reverse.flatMap (demands · locals []) ++
      demands f locals (as.toList.map (meaning · locals) ++ args) := by
  obtain ⟨a, as⟩ := as
  simp [demands, demandsOfArgs_eq]

theorem mem_demandsOfBranches {bs : List (Branch Term)} :
    d ∈ demandsOfBranches bs locals args ↔
      ∃ b ∈ bs, d ∈ demands b.body (unknowns b.arity locals) args := by
  simp [demandsOfBranches_eq]

/-- A node that is no variable and no nested bundle demands what its walked positions demand. -/
theorem mem_demands_iff_positions {t : Term} (hvar : t.asVar? = none) (hfix : t.asFix? = none) :
    d ∈ demands t locals args ↔ ∃ pos ∈ positions t locals args,
      pos.place = .walked ∧ d ∈ demands pos.term pos.locals pos.args := by
  cases t with
  | var x i => simp [Term.asVar?] at hvar
  | fix i b => simp [Term.asFix?] at hfix
  | global x | univ u => simp [demands, positions]
  | product ps r => simp [demands, positions, aside]
  | lambda ps b => simp [demands, positions, aside]
  | letIn x v t b => simp [demands, positions, aside]
  | apply f as => simp [demands_apply, positions, aside, or_comm]
  | cast t k ty => simp [demands, positions, aside]
  | caseOf p s bs => simp [demands, positions, aside, mem_demandsOfBranches]

theorem uses_iff_positions {t : Term} (ht : t.asVar? = none) {place : Place} {g : Nat}
    {found : List Meaning} :
    Uses place t locals args g found ↔ ∃ pos ∈ positions t locals args, ∃ inner,
      place = pos.place.within inner ∧ Uses inner pos.term pos.locals pos.args g found := by
  constructor
  · intro h
    cases h with
    | here => simp [Term.asVar?] at ht
    | inside hpos h => exact ⟨_, hpos, _, rfl, h⟩
  · rintro ⟨pos, hpos, inner, rfl, h⟩
    exact .inside hpos h

theorem eq_fix_or_asFix?_eq_none (t : Term) : (∃ i b, t = .fix i b) ∨ t.asFix? = none := by
  cases t with
  | fix i b => exact .inl ⟨i, b, rfl⟩
  | _ => exact .inr rfl

theorem place_of_fix {i : Nat} {b : Bundle Term} {pos : Position}
    (h : pos ∈ positions (.fix i b) locals args) : pos.place = .nested := by
  obtain ⟨c, _, rfl⟩ := List.mem_map.1 h
  rfl

theorem place_ne_nested {t : Term} (hfix : t.asFix? = none) :
    ∀ pos ∈ positions t locals args, pos.place ≠ .nested := by
  cases t with
  | fix i b => simp [Term.asFix?] at hfix
  | _ => simp +contextual only [positions, aside, List.forall_mem_cons, List.forall_mem_map,
      List.not_mem_nil, ne_eq, reduceCtorEq, not_false_eq_true, implies_true, and_true,
      false_implies]

theorem uses_var_iff {x : String} {i g : Nat} {place : Place} {found : List Meaning} :
    Uses place (.var x i) locals args g found ↔
      place = .walked ∧ found = args ∧ locals[i]? = some (.function g) := by
  constructor
  · intro h
    cases h with
    | here hg => exact ⟨rfl, rfl, hg⟩
    | inside hpos => simp [positions] at hpos
  · rintro ⟨rfl, rfl, hg⟩
    exact .here hg

theorem mem_nestedDemands {refs : List Nat} {g : Nat} :
    .nested g ∈ nestedDemands locals refs ↔ ∃ r ∈ refs, locals[r]? = some (.function g) := by
  simp only [nestedDemands, List.mem_filterMap]
  refine exists_congr fun r => and_congr_right fun _ => ?_
  cases locals[r]? with
  | none => simp [nestedDemand?]
  | some m => cases m <;> simp [nestedDemand?]

theorem call_not_mem_nestedDemands {refs : List Nat} {g : Nat} {found : List Meaning} :
    .call g found ∉ nestedDemands locals refs := by
  simp only [nestedDemands, List.mem_filterMap, not_exists, not_and]
  intro r _
  cases locals[r]? with
  | none => simp [nestedDemand?]
  | some m => cases m <;> simp [nestedDemand?]

end Members

/-- The calls demanded are the uses that are walked through. -/
theorem call_mem_demands_iff {g : Nat} {found : List Meaning} (t : Term) :
    ∀ {locals args},
      .call g found ∈ demands t locals args ↔ Uses .walked t locals args g found := by
  induction t using Term.induct_children with
  | node t ih =>
    intro locals args
    rcases t.eq_var_or_asVar?_eq_none with ⟨x, i, rfl⟩ | hvar
    · simp only [demands]
      rw [uses_var_iff]
      constructor
      · intro h
        split at h
        · next g' hg =>
          obtain ⟨rfl, rfl⟩ := Demand.call.inj (List.mem_singleton.1 h)
          exact ⟨rfl, rfl, hg⟩
        · simp at h
      · rintro ⟨_, rfl, hg⟩
        simp [hg]
    · rcases eq_fix_or_asFix?_eq_none t with ⟨i, b, rfl⟩ | hfix
      · rw [uses_iff_positions hvar, demands]
        refine iff_of_false call_not_mem_nestedDemands ?_
        rintro ⟨pos, hpos, inner, hplace, _⟩
        rw [place_of_fix hpos] at hplace
        cases hplace
      · rw [mem_demands_iff_positions hvar hfix, uses_iff_positions hvar]
        refine exists_congr fun pos => and_congr_right fun hpos => ?_
        obtain ⟨d, hchild, _⟩ := child_of_mem_positions hpos
        rw [ih 0 _ hchild]
        constructor
        · rintro ⟨hplace, h⟩
          exact ⟨.walked, by rw [hplace]; rfl, h⟩
        · rintro ⟨inner, hplace, h⟩
          cases hpl : pos.place with
          | walked =>
            rw [hpl] at hplace
            cases hplace
            exact ⟨rfl, h⟩
          | type | nested =>
            rw [hpl] at hplace
            cases hplace

/-- The nested demands are the uses in nested bundles. -/
theorem nested_mem_demands_iff {g : Nat} (t : Term) :
    ∀ {locals args}, .nested g ∈ demands t locals args ↔
      ∃ found, Uses .nested t locals args g found := by
  induction t using Term.induct_children with
  | node t ih =>
    intro locals args
    rcases t.eq_var_or_asVar?_eq_none with ⟨x, i, rfl⟩ | hvar
    · refine iff_of_false (fun h => ?_) ?_
      · simp only [demands] at h
        split at h <;> simp at h
      · rintro ⟨found, h⟩
        exact nomatch (uses_var_iff.1 h).1
    · rcases eq_fix_or_asFix?_eq_none t with ⟨i, b, rfl⟩ | hfix
      · rw [demands, mem_nestedDemands]
        constructor
        · rintro ⟨r, hr, hlocal⟩
          obtain ⟨place, found, huses⟩ :=
            uses_of_refers _ (Term.mem_externalReferences.1 hr) hlocal args
          obtain ⟨pos, hpos, inner, _, h⟩ := (uses_iff_positions hvar).1 huses
          refine ⟨found, (uses_iff_positions hvar).2 ⟨pos, hpos, inner, ?_, h⟩⟩
          rw [place_of_fix hpos]
          rfl
        · rintro ⟨found, h⟩
          obtain ⟨r, hr, hlocal⟩ := h.refers
          exact ⟨r, Term.mem_externalReferences.2 hr, hlocal⟩
      · rw [mem_demands_iff_positions hvar hfix]
        simp only [uses_iff_positions hvar]
        constructor
        · rintro ⟨pos, hpos, hplace, h⟩
          obtain ⟨d, hchild, _⟩ := child_of_mem_positions hpos
          obtain ⟨found, h⟩ := (ih 0 _ hchild).1 h
          exact ⟨found, pos, hpos, .nested, by rw [hplace]; rfl, h⟩
        · rintro ⟨found, pos, hpos, inner, hplace, h⟩
          obtain ⟨d, hchild, _⟩ := child_of_mem_positions hpos
          cases hpl : pos.place with
          | walked =>
            rw [hpl] at hplace
            cases hplace
            exact ⟨pos, hpos, hpl, (ih 0 _ hchild).2 ⟨found, h⟩⟩
          | type =>
            rw [hpl] at hplace
            cases hplace
          | nested => exact absurd hpl (place_ne_nested hfix pos hpos)

end Closure
end InductiveTerms
