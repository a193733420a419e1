import InductiveTerms.Proofs.References
import InductiveTerms.Specialization.Closure

/-!
Where the functions of a bundle occur. `positions` lists the places directly below a node together
with what is known about the variables and the arguments there, and `Uses` follows them down to the
variables that stand for a function. Some places are walked through, some belong to a type and some
to a nested bundle; the first step that leaves the walk decides.
-/
namespace InductiveTerms
namespace Closure

/-- What a term stands for whose variables are `locals`. -/
def meaning : Term → List Meaning → Meaning
  | .var _ i, locals => locals[i]?.getD .unknown
  | .letIn _ v _ b, locals => meaning b (meaning v locals :: locals)
  | .cast t _ _, locals => meaning t locals
  | _, _ => .unknown

theorem Meaning.slot?_eq_some_iff {m : Meaning} {slot : Nat} :
    m.slot? = some slot ↔ m = .constant slot := by
  cases m <;> simp [Meaning.slot?]

inductive Place where
  | walked
  | type
  | nested
  deriving DecidableEq, Repr

/-- The place of what lies at `inner` within something that lies at `outer`. -/
def Place.within : (outer inner : Place) → Place
  | .walked, inner => inner
  | outer, _ => outer

/-- A subterm with its place, what its variables stand for and what it is applied to. -/
structure Position where
  place : Place
  term : Term
  locals : List Meaning
  args : List Meaning

/-- Variables of which nothing is known, in front of others. -/
def unknowns (n : Nat) (locals : List Meaning) : List Meaning :=
  List.replicate n .unknown ++ locals

/-- A subterm under unknown variables that is not applied. -/
def aside (place : Place) (locals : List Meaning) (c : Term × Nat) : Position :=
  ⟨place, c.1, unknowns c.2 locals, []⟩

/-- The places directly below a node. -/
def positions : Term → List Meaning → List Meaning → List Position
  | .lambda ps b, locals, _ =>
      aside .walked locals (b, ps.length) :: (Term.paramTypes ps 0).map (aside .type locals)
  | .letIn _ v t b, locals, args =>
      [aside .walked locals (v, 0), aside .type locals (t, 0),
        ⟨.walked, b, meaning v locals :: locals, args⟩]
  | .apply f as, locals, args =>
      ⟨.walked, f, locals, as.toList.map (meaning · locals) ++ args⟩ ::
        as.toList.map fun a => aside .walked locals (a, 0)
  | .cast t _ ty, locals, args => [⟨.walked, t, locals, args⟩, aside .type locals (ty, 0)]
  | .caseOf p s bs, locals, args =>
      aside .walked locals (s, 0) :: aside .type locals (p, 1) ::
        bs.map fun b => ⟨.walked, b.body, unknowns b.arity locals, args⟩
  | .product ps r, locals, _ => ((Term.product ps r).children 0).map (aside .type locals)
  | .fix i b, locals, _ => ((Term.fix i b).children 0).map (aside .nested locals)
  | _, _, _ => []

/-- A variable within the term stands for function `g` and is applied to `found`; it lies at the
place given, where the whole term has the variables `locals` and is applied to `args`. -/
inductive Uses : Place → Term → List Meaning → List Meaning → Nat → List Meaning → Prop
  | here {x : String} {i g : Nat} {locals args : List Meaning} :
      locals[i]? = some (.function g) → Uses .walked (.var x i) locals args g args
  | inside {t : Term} {locals args found : List Meaning} {pos : Position} {place : Place}
      {g : Nat} :
      pos ∈ positions t locals args → Uses place pos.term pos.locals pos.args g found →
        Uses (pos.place.within place) t locals args g found

section Lookup
variable {locals : List Meaning}

theorem getElem?_unknowns {n i g : Nat} :
    (unknowns n locals)[i]? = some (.function g) ↔
      n ≤ i ∧ locals[i - n]? = some (.function g) := by
  rw [unknowns]
  rcases Nat.lt_or_ge i n with h | h
  · rw [List.getElem?_append_left (by simpa using h), List.getElem?_replicate, if_pos h]
    simp [Nat.not_le.2 h]
  · rw [List.getElem?_append_right (by simpa using h), List.length_replicate]
    simp [h]

@[simp] theorem unknowns_zero : unknowns 0 locals = locals := rfl

end Lookup

/-- Every position is a child of its node, and its variables are those of the node past unknown
ones, or past the variable of a let. -/
theorem child_of_mem_positions {t : Term} {locals args : List Meaning} {pos : Position}
    (h : pos ∈ positions t locals args) :
    ∃ d, (pos.term, d) ∈ t.children 0 ∧ (pos.locals = unknowns d locals ∨
      ∃ x v ty b, t = .letIn x v ty b ∧ d = 1 ∧ pos.locals = meaning v locals :: locals) := by
  cases t with
  | var x i | global x | univ u => simp [positions] at h
  | product ps r | fix i b =>
    obtain ⟨c, hc, rfl⟩ := List.mem_map.1 h
    exact ⟨c.2, hc, .inl rfl⟩
  | lambda ps b =>
    rcases List.mem_cons.1 h with rfl | h
    · exact ⟨ps.length, by simp [Term.children, aside], .inl rfl⟩
    · obtain ⟨c, hc, rfl⟩ := List.mem_map.1 h
      exact ⟨c.2, List.mem_append_left _ hc, .inl rfl⟩
  | letIn x v t b =>
    simp only [positions, List.mem_cons, List.not_mem_nil, or_false] at h
    rcases h with rfl | rfl | rfl
    · exact ⟨0, by simp [Term.children, aside], .inl rfl⟩
    · exact ⟨0, by simp [Term.children, aside], .inl rfl⟩
    · exact ⟨1, by simp [Term.children], .inr ⟨x, v, t, b, rfl, rfl, rfl⟩⟩
  | apply f as =>
    simp only [positions, List.mem_cons, List.mem_map] at h
    rcases h with rfl | ⟨a, ha, rfl⟩
    · exact ⟨0, by simp [Term.children], .inl rfl⟩
    · exact ⟨0, by simp [Term.children, aside, ha], .inl rfl⟩
  | cast t k ty =>
    simp only [positions, List.mem_cons, List.not_mem_nil, or_false] at h
    rcases h with rfl | rfl
    · exact ⟨0, by simp [Term.children], .inl rfl⟩
    · exact ⟨0, by simp [Term.children, aside], .inl rfl⟩
  | caseOf p s bs =>
    simp only [positions, List.mem_cons, List.mem_map] at h
    rcases h with rfl | rfl | ⟨b, hb, rfl⟩
    · exact ⟨0, by simp [Term.children, aside], .inl rfl⟩
    · exact ⟨1, by simp [Term.children, aside], .inl rfl⟩
    · refine ⟨b.arity, ?_, .inl rfl⟩
      simp only [Term.children, List.mem_cons, List.mem_map, Prod.mk.injEq]
      exact .inr (.inr ⟨b, hb, rfl, Nat.zero_add _⟩)

theorem getElem?_unknowns_add {locals : List Meaning} {r d : Nat} :
    (unknowns d locals)[r + d]? = locals[r]? := by
  rw [unknowns, List.getElem?_append_right (by simp), List.length_replicate, Nat.add_sub_cancel]

theorem position_of_mem_children {t : Term} {d : Nat} {c : Term} (locals args : List Meaning)
    (h : (c, d) ∈ t.children 0) :
    ∃ pos ∈ positions t locals args, pos.term = c ∧ ∀ r, pos.locals[r + d]? = locals[r]? := by
  cases t with
  | var x i | global x | univ u => simp [Term.children] at h
  | product ps r =>
    exact ⟨aside .type locals (c, d), List.mem_map_of_mem h, rfl, fun _ => getElem?_unknowns_add⟩
  | fix i b =>
    exact ⟨aside .nested locals (c, d), List.mem_map_of_mem h, rfl, fun _ => getElem?_unknowns_add⟩
  | lambda ps b =>
    simp only [Term.children, List.mem_append, List.mem_singleton, Prod.mk.injEq,
      Nat.zero_add] at h
    rcases h with h | ⟨rfl, rfl⟩
    · exact ⟨aside .type locals (c, d), List.mem_cons_of_mem _ (List.mem_map_of_mem h), rfl,
        fun _ => getElem?_unknowns_add⟩
    · exact ⟨aside .walked locals (c, ps.length), List.mem_cons_self, rfl,
        fun _ => getElem?_unknowns_add⟩
  | letIn x v t b =>
    simp only [Term.children, List.mem_cons, List.not_mem_nil, or_false, Prod.mk.injEq] at h
    rcases h with ⟨rfl, rfl⟩ | ⟨rfl, rfl⟩ | ⟨rfl, rfl⟩
    · exact ⟨aside .walked locals (c, 0), by simp [positions], rfl, fun _ => rfl⟩
    · exact ⟨aside .type locals (c, 0), by simp [positions], rfl, fun _ => rfl⟩
    · exact ⟨⟨.walked, c, meaning v locals :: locals, args⟩, by simp [positions], rfl,
        fun _ => rfl⟩
  | apply f as =>
    simp only [Term.children, List.mem_cons, List.mem_map, Prod.mk.injEq] at h
    rcases h with ⟨rfl, rfl⟩ | ⟨a, ha, rfl, rfl⟩
    · exact ⟨_, List.mem_cons_self, rfl, fun _ => rfl⟩
    · exact ⟨aside .walked locals (a, 0), List.mem_cons_of_mem _ (List.mem_map_of_mem ha), rfl,
        fun _ => rfl⟩
  | cast t k ty =>
    simp only [Term.children, List.mem_cons, List.not_mem_nil, or_false, Prod.mk.injEq] at h
    rcases h with ⟨rfl, rfl⟩ | ⟨rfl, rfl⟩
    · exact ⟨_, List.mem_cons_self, rfl, fun _ => rfl⟩
    · exact ⟨aside .type locals (c, 0), by simp [positions], rfl, fun _ => rfl⟩
  | caseOf p s bs =>
    simp only [Term.children, List.mem_cons, List.mem_map, Prod.mk.injEq, Nat.zero_add] at h
    rcases h with ⟨rfl, rfl⟩ | ⟨rfl, rfl⟩ | ⟨b, hb, rfl, rfl⟩
    · exact ⟨aside .type locals (c, 1), by simp [positions], rfl, fun _ => rfl⟩
    · exact ⟨aside .walked locals (c, 0), by simp [positions], rfl, fun _ => rfl⟩
    · refine ⟨⟨.walked, b.body, unknowns b.arity locals, args⟩, ?_, rfl,
        fun _ => getElem?_unknowns_add⟩
      exact List.mem_cons_of_mem _ (List.mem_cons_of_mem _ (List.mem_map_of_mem hb))

theorem refers_of_meaning {m : Meaning} (hm : m ≠ .unknown) (t : Term) :
    ∀ {locals}, meaning t locals = m →
      ∃ r, Term.Refers (t.occurrences 0) r ∧ locals[r]? = some m := by
  induction t using Term.induct_children with
  | node t ih =>
    intro locals h
    cases t with
    | var x i =>
      refine ⟨i, Term.refers_var.2 rfl, ?_⟩
      rw [meaning] at h
      cases hi : locals[i]? with
      | none => exact absurd (by rw [← h, hi, Option.getD_none]) hm
      | some m' => rw [← h, hi, Option.getD_some]
    | letIn x v ty b =>
      have hv : (v, 0) ∈ (Term.letIn x v ty b).children 0 := by simp [Term.children]
      have hb : (b, 1) ∈ (Term.letIn x v ty b).children 0 := by simp [Term.children]
      obtain ⟨r, hr, hlocal⟩ := ih 0 _ hb h
      cases r with
      | zero =>
        obtain ⟨r, hr, hlocal⟩ := ih 0 _ hv (Option.some.inj hlocal)
        exact ⟨r, (Term.refers_iff_children rfl).2 ⟨_, hv, hr⟩, hlocal⟩
      | succ r => exact ⟨r, (Term.refers_iff_children rfl).2 ⟨_, hb, hr⟩, hlocal⟩
    | cast u k ty =>
      have hu : (u, 0) ∈ (Term.cast u k ty).children 0 := by simp [Term.children]
      obtain ⟨r, hr, hlocal⟩ := ih 0 _ hu h
      exact ⟨r, (Term.refers_iff_children rfl).2 ⟨_, hu, hr⟩, hlocal⟩
    | _ => exact absurd h.symm hm

theorem asVar?_of_mem_positions {t : Term} {locals args : List Meaning} {pos : Position}
    (h : pos ∈ positions t locals args) : t.asVar? = none := by
  cases t <;> first | rfl | simp [positions] at h

theorem Uses.refers {place : Place} {t : Term} {locals args found : List Meaning} {g : Nat}
    (h : Uses place t locals args g found) :
    ∃ r, Term.Refers (t.occurrences 0) r ∧ locals[r]? = some (.function g) := by
  induction h with
  | here hi => exact ⟨_, Term.refers_var.2 rfl, hi⟩
  | @inside t locals args _ pos _ g hpos _ ih =>
    obtain ⟨r, hr, hlocal⟩ := ih
    have ht := asVar?_of_mem_positions hpos
    obtain ⟨d, hchild, hlocals | ⟨x, v, ty, b, rfl, rfl, hlocals⟩⟩ := child_of_mem_positions hpos
    · rw [hlocals, getElem?_unknowns] at hlocal
      refine ⟨r - d, (Term.refers_iff_children ht).2 ⟨_, hchild, ?_⟩, hlocal.2⟩
      rwa [Nat.sub_add_cancel hlocal.1]
    · rw [hlocals] at hlocal
      cases r with
      | zero =>
        obtain ⟨r, hr, hlocal⟩ := refers_of_meaning (m := .function g) nofun v
          (Option.some.inj hlocal)
        exact ⟨r, (Term.refers_iff_children ht).2 ⟨(v, 0), by simp [Term.children], hr⟩, hlocal⟩
      | succ r => exact ⟨r, (Term.refers_iff_children ht).2 ⟨_, hchild, hr⟩, hlocal⟩

theorem uses_of_refers {g : Nat} (t : Term) :
    ∀ {locals r}, Term.Refers (t.occurrences 0) r → locals[r]? = some (.function g) →
      ∀ args, ∃ place found, Uses place t locals args g found := by
  induction t using Term.induct_children with
  | node t ih =>
    intro locals r hr hlocal args
    rcases t.eq_var_or_asVar?_eq_none with ⟨x, i, rfl⟩ | ht
    · obtain rfl := Term.refers_var.1 hr
      exact ⟨.walked, args, .here hlocal⟩
    · obtain ⟨⟨c, d⟩, hc, hr⟩ := (Term.refers_iff_children ht).1 hr
      obtain ⟨pos, hpos, rfl, hlocals⟩ := position_of_mem_children locals args hc
      obtain ⟨place, found, huses⟩ := ih 0 _ hc hr (by rw [hlocals, hlocal]) pos.args
      exact ⟨_, found, .inside hpos huses⟩

end Closure
end InductiveTerms
