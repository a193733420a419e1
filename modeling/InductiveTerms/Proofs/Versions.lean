import InductiveTerms.Proofs.Origins
import InductiveTerms.Proofs.Shadowing

/-!
Names in the versions of a context. Any version may be extended, at any time and more than once. A
version makes the scope of its locals when it is first asked for a name and keeps it; what is pushed
on it begins a version without one. Whatever has been asked for and pushed, a scope that is kept is
that of the locals of its version (`sound_history`), so that a name is found where the locals have
it (`lookup_agrees`).
-/
namespace InductiveTerms

namespace Context
variable {ctx : Context} {x : String}

/-- Whether the local at a position has a name. -/
def Carries (ctx : Context) (i : Nat) (x : String) : Prop :=
  ∃ e ∈ ctx.locals.get? i, e.name = some x

instance (ctx : Context) (i : Nat) (x : String) : Decidable (ctx.Carries i x) :=
  inferInstanceAs (Decidable (∃ e ∈ ctx.locals.get? i, e.name = some x))

theorem indexOf?_eq (ctx : Context) (x : String) :
    ctx.indexOf? x = (ctx.locals.toList.map (·.name)).findIdx? (· == some x) := by
  simp only [indexOf?, scope, Scope.indexOf?_pushMany, Scope.pushesAfter, List.map_reverse,
    List.reverse_reverse]

theorem carries_iff (h : ctx.locals.Built) {i : Nat} :
    ctx.Carries i x ↔ (ctx.locals.toList.map (·.name))[i]? = some (some x) := by
  simp [Carries, h.get?_eq_getElem?]

theorem indexOf?_eq_some_iff (h : ctx.locals.Built) {i : Nat} :
    ctx.indexOf? x = some i ↔ ctx.Carries i x ∧ ∀ j < i, ¬ ctx.Carries j x := by
  simp only [indexOf?_eq, carries_iff h, List.findIdx?_eq_some_iff_getElem, beq_iff_eq]
  constructor
  · rintro ⟨hi, hname, hbefore⟩
    refine ⟨List.getElem?_eq_some_iff.2 ⟨hi, hname⟩, fun j hj hcarries => hbefore j hj ?_⟩
    obtain ⟨_, hname⟩ := List.getElem?_eq_some_iff.1 hcarries
    exact hname
  · rintro ⟨hcarries, hbefore⟩
    obtain ⟨hi, hname⟩ := List.getElem?_eq_some_iff.1 hcarries
    exact ⟨hi, hname, fun j hj heq => hbefore j hj (List.getElem?_eq_some_iff.2 ⟨_, heq⟩)⟩

theorem indexOf?_eq_none_iff (h : ctx.locals.Built) :
    ctx.indexOf? x = none ↔ ∀ i, ¬ ctx.Carries i x := by
  simp only [indexOf?_eq, carries_iff h, List.findIdx?_eq_none_iff, beq_eq_false_iff_ne]
  constructor
  · exact fun hno i hi => hno _ (List.mem_of_getElem? hi) rfl
  · rintro hno name hmem rfl
    obtain ⟨i, hi⟩ := List.getElem?_of_mem hmem
    exact hno i hi

/-- The variable that stands for a name has the type that its local was given, seen from here. -/
theorem check_localNamed? (h : ctx.locals.Built) {l : Term} (hl : ctx.localNamed? x = some l) :
    ∃ i, ctx.indexOf? x = some i ∧ ∃ e ∈ ctx.locals.get? i,
      l = .var x i ∧ l.check ctx = .ok (e.type.shift 0 (i + 1 : Nat)) := by
  obtain ⟨i, hi, rfl⟩ := Option.map_eq_some_iff.1 hl
  obtain ⟨⟨e, he, _⟩, _⟩ := (indexOf?_eq_some_iff h).1 hi
  exact ⟨i, hi, e, he, rfl, check_var_of_some ctx he⟩

end Context

/-- A context with the scope of its locals, once that has been asked for. -/
structure Version where
  context : Context
  kept : Option (Scope (Option String))

namespace Version

/-- A version on which nothing has been looked up. -/
def ofContext (ctx : Context) : Version := ⟨ctx, none⟩

def push (v : Version) (x : Option String) (type : Term) : Version :=
  ofContext (v.context.push x type)

/-- Adds parameters in order; without any the version is the same, with the scope that it keeps. -/
def pushParams (v : Version) (ps : List (Param Term)) : Version :=
  ps.foldl (fun v p => v.push p.name p.type) v

/-- The scope that is kept, or one made by going through the locals from the top down and pushing
their names in the opposite order. -/
def scope (v : Version) : Scope (Option String) :=
  let locals := v.context.locals
  v.kept.getD (Scope.empty.pushMany ((locals.iterate.collect locals.size).map (·.name)).reverse)

/-- The version after a lookup. -/
def keeping (v : Version) : Version := ⟨v.context, some v.scope⟩

def indexOf? (v : Version) (x : String) : Option Nat := v.scope.indexOf? (some x)

def localNamed? (v : Version) (x : String) : Option Term := (v.indexOf? x).map (.var x ·)

/-- What is kept is the scope of the locals. -/
structure Sound (v : Version) : Prop where
  built : v.context.locals.Built
  kept_eq : ∀ s ∈ v.kept, s = v.context.scope

theorem sound_ofContext {ctx : Context} (h : ctx.locals.Built) : (ofContext ctx).Sound :=
  ⟨h, fun _ hs => nomatch hs⟩

namespace Sound
variable {v : Version}

theorem push (h : v.Sound) (x : Option String) (type : Term) : (v.push x type).Sound :=
  sound_ofContext (.push _ h.built)

theorem pushParams (h : v.Sound) (ps : List (Param Term)) : (v.pushParams ps).Sound := by
  induction ps generalizing v with
  | nil => exact h
  | cons p ps ih => exact ih (h.push p.name p.type)

theorem scope_eq (h : v.Sound) : v.scope = v.context.scope := by
  cases hkept : v.kept with
  | some s => simp [scope, hkept, h.kept_eq s hkept]
  | none =>
    have hall :
        v.context.locals.iterate.collect v.context.locals.size = v.context.locals.toList := by
      rw [Stack.iterate, Stack.Cursor.collect_eq h.built.skew.complete, List.drop_zero,
        ← h.built.skew.length_toList]
      exact List.take_length
    simp [scope, hkept, hall, Context.scope, List.map_reverse]

theorem keeping (h : v.Sound) : v.keeping.Sound := by
  refine ⟨h.built, fun s hs => ?_⟩
  rw [← Option.some.inj hs]
  exact h.scope_eq

theorem indexOf?_eq (h : v.Sound) (x : String) : v.indexOf? x = v.context.indexOf? x := by
  rw [indexOf?, h.scope_eq]
  rfl

theorem localNamed?_eq (h : v.Sound) (x : String) :
    v.localNamed? x = v.context.localNamed? x := by
  rw [localNamed?, h.indexOf?_eq]
  rfl

end Sound

/-- What is asked of the versions that there are, which are numbered as they come about. -/
inductive Request where
  | push (version : Nat) (name : Option String) (type : Term)
  | pushParams (version : Nat) (ps : List (Param Term))
  | lookUp (version : Nat)

/-- A push adds a version and a lookup leaves a scope; no other version is touched. -/
def perform (vs : List Version) : Request → List Version
  | .push n x type => vs ++ (vs[n]?.map (·.push x type)).toList
  | .pushParams n ps => vs ++ (vs[n]?.map (·.pushParams ps)).toList
  | .lookUp n => vs.modify n keeping

/-- The versions after some requests, from a context without locals on. -/
def history (globals : Globals) (rs : List Request) : List Version :=
  rs.foldl perform [ofContext (Context.ofGlobals globals)]

theorem sound_added {vs : List Version} (h : ∀ v ∈ vs, v.Sound) {f : Version → Version}
    (hf : ∀ v : Version, v.Sound → (f v).Sound) (n : Nat) :
    ∀ v ∈ vs ++ (vs[n]?.map f).toList, v.Sound := by
  intro v hv
  rw [List.mem_append, Option.mem_toList, Option.map_eq_some_iff] at hv
  rcases hv with hv | ⟨u, hu, rfl⟩
  · exact h v hv
  · exact hf u (h u (List.mem_of_getElem? hu))

theorem sound_perform {vs : List Version} (h : ∀ v ∈ vs, v.Sound) (r : Request) :
    ∀ v ∈ perform vs r, v.Sound := by
  cases r with
  | push n x type => exact sound_added h (fun v hv => hv.push x type) n
  | pushParams n ps => exact sound_added h (fun v hv => hv.pushParams ps) n
  | lookUp n =>
    intro v hv
    obtain ⟨i, hi⟩ := List.getElem?_of_mem hv
    rw [perform, List.getElem?_modify] at hi
    obtain ⟨u, hu, rfl⟩ := Option.map_eq_some_iff.1 hi
    have hsound := h u (List.mem_of_getElem? hu)
    split
    · exact hsound.keeping
    · exact hsound

theorem sound_history (globals : Globals) (rs : List Request) :
    ∀ v ∈ history globals rs, v.Sound := by
  have hfrom : ∀ (rs : List Request) (vs : List Version), (∀ v ∈ vs, v.Sound) →
      ∀ v ∈ rs.foldl perform vs, v.Sound := by
    intro rs
    induction rs with
    | nil => exact fun _ h => h
    | cons r rs ih => exact fun vs h => ih _ (sound_perform h r)
  exact hfrom rs _ (List.forall_mem_singleton.2 (sound_ofContext .empty))

/-- After any requests a name stands, in every version, for the first local that carries it, and
for none if none carries it; the variable found has the type of that local, seen from there. -/
theorem lookup_agrees {globals : Globals} {rs : List Request} {v : Version}
    (hv : v ∈ history globals rs) (x : String) :
    (∀ i, v.indexOf? x = some i ↔
      v.context.Carries i x ∧ ∀ j < i, ¬ v.context.Carries j x) ∧
    (v.indexOf? x = none ↔ ∀ i, ¬ v.context.Carries i x) ∧
    (∀ l, v.localNamed? x = some l → ∃ i, v.indexOf? x = some i ∧
      ∃ e ∈ v.context.locals.get? i, l = .var x i ∧
        l.check v.context = .ok (e.type.shift 0 (i + 1 : Nat))) ∧
    v.indexOf? x = v.context.indexOf? x ∧ v.localNamed? x = v.context.localNamed? x := by
  have hsound := sound_history globals rs v hv
  rw [hsound.indexOf?_eq, hsound.localNamed?_eq]
  exact ⟨fun i => Context.indexOf?_eq_some_iff hsound.built,
    Context.indexOf?_eq_none_iff hsound.built,
    fun l hl => Context.check_localNamed? hsound.built hl, rfl, rfl⟩

/-- Two locals of one name with an anonymous one between them, looked up and then extended on two
sides and by nothing. -/
def branching : List Request :=
  [.push 0 (some "A") (.univ .set),
    .pushParams 1 [⟨none, .global "nat"⟩, ⟨some "x", .var "A" 1⟩], .lookUp 2,
    .push 2 (some "A") (.univ .set), .push 1 (some "y") (.var "A" 0), .lookUp 1,
    .pushParams 2 []]

theorem lookup_agrees_branching :
    (∃ v, (history .none branching)[3]? = some v ∧ v.indexOf? "A" = some 0 ∧
      v.localNamed? "x" = some (.var "x" 1) ∧
      (Term.var "x" 1).check v.context = .ok ((Term.var "A" 1).shift 0 2)) ∧
    ∃ v, (history .none branching)[5]? = some v ∧ v.kept.isSome ∧ v.indexOf? "A" = some 2 := by
  obtain ⟨v, hv⟩ : ∃ v, (history .none branching)[3]? = some v := ⟨_, rfl⟩
  obtain ⟨w, hw⟩ : ∃ w, (history .none branching)[5]? = some w := ⟨_, rfl⟩
  have hmem := List.mem_of_getElem? hv
  have hx : v.indexOf? "x" = some 1 := by
    refine ((lookup_agrees hmem "x").1 1).2 ?_
    cases hv
    decide
  have hlocal : v.localNamed? "x" = some (.var "x" 1) := by rw [localNamed?, hx]; rfl
  refine ⟨⟨v, hv, ?_, hlocal, ?_⟩, w, hw, ?_, ?_⟩
  · refine ((lookup_agrees hmem "A").1 0).2 ?_
    cases hv
    decide
  · obtain ⟨i, hi, e, he, -, hcheck⟩ := (lookup_agrees hmem "x").2.2.1 _ hlocal
    obtain rfl := Option.some.inj (hi.symm.trans hx)
    rw [hcheck]
    cases hv
    cases he
    rfl
  · cases hw
    rfl
  · refine ((lookup_agrees (List.mem_of_getElem? hw) "A").1 2).2 ?_
    cases hw
    decide

end Version
end InductiveTerms
