import InductiveTerms.Proofs.Solution
import Mathlib.Data.List.Perm.Subperm

/-!
The search for patterns, in any order. A run processes pending functions one after another, any one
of them next, until the state is inconsistent or nothing is pending. Whatever the order, patterns
that were given are kept, the demands of the functions processed are met while the state is
consistent, and every solution agrees with the patterns given; so each run that has ended gives the
one solution if there is one, and none if there is none.
-/
namespace InductiveTerms
namespace Closure

/-- The pattern that function `i` has got, if it has got one. -/
def State.pattern? (s : State) (i : Nat) : Option Pattern := (s.patterns[i]?).join

variable {fs : List (FixFunction Term)}

/-- Whether the state agrees with what a demand asks for. -/
def State.Meets (fs : List (FixFunction Term)) (s : State) : Demand → Prop
  | .call g args => arityOf fs g ≤ args.length ∧ s.pattern? g = some (forced fs g args)
  | .nested _ => False

/-- Whether a demand is about a function of the bundle. -/
def Demand.InRange (n : Nat) : Demand → Prop
  | .call g _ => g < n
  | .nested g => g < n

/-- Patterns that were given are kept, and an inconsistent state stays one. -/
structure State.Grows (s s' : State) : Prop where
  length_eq : s'.patterns.length = s.patterns.length
  kept : ∀ i p, s.pattern? i = some p → s'.pattern? i = some p
  consistent : s'.consistent = true → s.consistent = true

namespace State

theorem Grows.refl (s : State) : s.Grows s := ⟨rfl, fun _ _ h => h, fun h => h⟩

theorem Grows.trans {s s' s'' : State} (h : s.Grows s') (h' : s'.Grows s'') : s.Grows s'' :=
  ⟨h'.length_eq.trans h.length_eq, fun i p hp => h'.kept i p (h.kept i p hp),
    fun hc => h.consistent (h'.consistent hc)⟩

theorem Meets.mono {s s' : State} {d : Demand} (h : s.Meets fs d) (hgrows : s.Grows s') :
    s'.Meets fs d := by
  cases d with
  | call g args => exact ⟨h.1, hgrows.kept _ _ h.2⟩
  | nested g => exact h

theorem assign_of_some {s : State} {g : Nat} {q : Pattern} (h : s.pattern? g = some q)
    (p : Pattern) : s.assign g p = if q = p then s else { s with consistent := false } := by
  unfold pattern? at h
  rw [assign, h]

theorem assign_of_none {s : State} {g : Nat} (h : s.pattern? g = none) (p : Pattern) :
    s.assign g p =
      { s with patterns := s.patterns.set g (some p), pending := g :: s.pending } := by
  unfold pattern? at h
  rw [assign, h]

/-- What a demand comes to: it is met already, the state becomes inconsistent, or a function gets
its first pattern. -/
theorem note_cases (s : State) (fs : List (FixFunction Term)) (d : Demand) :
    (s.Meets fs d ∧ s.note fs d = s) ∨ (s.note fs d = { s with consistent := false }) ∨
      ∃ g args, d = .call g args ∧ arityOf fs g ≤ args.length ∧ s.pattern? g = none ∧
        s.note fs d = { s with
          patterns := s.patterns.set g (some (forced fs g args)), pending := g :: s.pending } := by
  cases d with
  | nested g => exact .inr (.inl rfl)
  | call g args =>
    simp only [note, Meets]
    split
    · next hle =>
      cases hg : s.pattern? g with
      | none => exact .inr (.inr ⟨g, args, rfl, hle, hg, assign_of_none hg _⟩)
      | some q =>
        rw [assign_of_some hg]
        split
        · next heq => exact .inl ⟨⟨hle, by rw [heq]⟩, rfl⟩
        · exact .inr (.inl rfl)
    · exact .inr (.inl rfl)

theorem pattern?_set {s : State} {g : Nat} (hg : g < s.patterns.length) (p : Pattern)
    (pending : List Nat) (i : Nat) :
    State.pattern? { s with patterns := s.patterns.set g (some p), pending := pending } i =
      if g = i then some p else s.pattern? i := by
  simp only [pattern?, List.getElem?_set]
  split
  · next h =>
    subst h
    simp
  · rfl

theorem note_grows (s : State) (fs : List (FixFunction Term)) {d : Demand}
    (hd : d.InRange s.patterns.length) : s.Grows (s.note fs d) := by
  rcases s.note_cases fs d with ⟨_, h⟩ | h | ⟨g, args, rfl, _, hnone, h⟩
  · rw [h]
    exact .refl s
  · rw [h]
    exact ⟨rfl, fun _ _ hp => hp, fun hc => nomatch hc⟩
  · rw [h]
    refine ⟨List.length_set, fun i p hp => ?_, fun hc => hc⟩
    rw [pattern?_set hd]
    split
    · next heq =>
      subst heq
      rw [hnone] at hp
      cases hp
    · exact hp

theorem note_meets (s : State) {d : Demand} (hd : d.InRange s.patterns.length)
    (hc : (s.note fs d).consistent = true) : (s.note fs d).Meets fs d := by
  rcases s.note_cases fs d with ⟨hmeets, h⟩ | h | ⟨g, args, rfl, hle, hnone, h⟩
  · rw [h]
    exact hmeets
  · rw [h] at hc
    cases hc
  · rw [h]
    exact ⟨hle, by rw [pattern?_set hd, if_pos rfl]⟩

theorem pattern?_of_note {s : State} {d : Demand} (hd : d.InRange s.patterns.length) {i : Nat}
    {p : Pattern} (h : (s.note fs d).pattern? i = some p) :
    s.pattern? i = some p ∨ ∃ args, d = .call i args := by
  rcases s.note_cases fs d with ⟨_, heq⟩ | heq | ⟨g, args, rfl, _, _, heq⟩
  · rw [heq] at h
    exact .inl h
  · rw [heq] at h
    exact .inl h
  · rw [heq, pattern?_set hd] at h
    split at h
    · next hg => exact .inr ⟨args, by rw [hg]⟩
    · exact .inl h

/-- The functions with a pattern are the pending ones and those processed, each once. -/
structure Accounts (processed : List Nat) (s : State) : Prop where
  nodup : (s.pending ++ processed).Nodup
  mem_iff : ∀ i, i ∈ s.pending ++ processed ↔ ∃ p, s.pattern? i = some p

theorem Accounts.note {processed : List Nat} {s : State} (h : s.Accounts processed) {d : Demand}
    (hd : d.InRange s.patterns.length) : (s.note fs d).Accounts processed := by
  rcases s.note_cases fs d with ⟨_, heq⟩ | heq | ⟨g, args, rfl, _, hnone, heq⟩
  · rw [heq]
    exact h
  · rw [heq]
    exact ⟨h.nodup, h.mem_iff⟩
  · have hg : g ∉ s.pending ++ processed := by
      rw [h.mem_iff, hnone]
      simp
    rw [heq]
    refine ⟨List.nodup_cons.2 ⟨hg, h.nodup⟩, fun i => ?_⟩
    rw [pattern?_set hd, List.cons_append, List.mem_cons, h.mem_iff]
    by_cases hgi : g = i
    · simp [hgi]
    · simp [hgi, Ne.symm hgi]

theorem Accounts.take {processed : List Nat} {s : State} (h : s.Accounts processed) {i : Nat}
    (hi : i ∈ s.pending) :
    State.Accounts (i :: processed) { s with pending := s.pending.erase i } := by
  have hperm : (s.pending.erase i ++ i :: processed).Perm (s.pending ++ processed) :=
    List.perm_middle.trans ((List.perm_cons_erase hi).symm.append_right processed)
  exact ⟨hperm.nodup_iff.2 h.nodup, fun j => hperm.mem_iff.trans (h.mem_iff j)⟩

/-- Whether patterns for all functions extend those that have been given. -/
structure Extends (info : SpecInfo) (s : State) : Prop where
  consistent : s.consistent = true
  kept : ∀ i p, s.pattern? i = some p → info[i]? = some p

/-- Whether patterns for all functions agree with what a demand asks for. -/
def Allows (fs : List (FixFunction Term)) (info : SpecInfo) : Demand → Prop
  | .call g args => arityOf fs g ≤ args.length ∧ info[g]? = some (forced fs g args)
  | .nested _ => False

theorem Extends.note {info : SpecInfo} {s : State} (h : s.Extends info) {d : Demand}
    (hd : d.InRange s.patterns.length) (hallows : Allows fs info d) :
    (s.note fs d).Extends info := by
  cases d with
  | nested g => exact hallows.elim
  | call g args =>
    obtain ⟨hle, hinfo⟩ := hallows
    simp only [State.note, if_pos hle]
    cases hg : s.pattern? g with
    | some q =>
      have hq : q = forced fs g args := Option.some.inj ((h.kept g q hg).symm.trans hinfo)
      rwa [assign_of_some hg, if_pos hq]
    | none =>
      rw [assign_of_none hg]
      refine ⟨h.consistent, fun i p hp => ?_⟩
      rw [pattern?_set hd] at hp
      split at hp
      · next hgi => rw [← hgi, hinfo, hp]
      · exact h.kept i p hp

/-! The same of a list of demands, one after another. -/

section Fold
variable {n : Nat} {ds : List Demand}

theorem foldl_note_grows {s : State} (fs : List (FixFunction Term))
    (hds : ∀ d ∈ ds, d.InRange n) (hn : s.patterns.length = n) :
    s.Grows (ds.foldl (State.note fs) s) := by
  induction ds generalizing s with
  | nil => exact .refl s
  | cons d ds ih =>
    simp only [List.forall_mem_cons] at hds
    have hgrows := s.note_grows fs (hn ▸ hds.1)
    exact hgrows.trans (ih hds.2 (hgrows.length_eq.trans hn))

theorem foldl_note_meets {s : State} (hds : ∀ d ∈ ds, d.InRange n) (hn : s.patterns.length = n)
    (hc : (ds.foldl (State.note fs) s).consistent = true) :
    ∀ d ∈ ds, (ds.foldl (State.note fs) s).Meets fs d := by
  induction ds generalizing s with
  | nil => simp
  | cons d ds ih =>
    simp only [List.forall_mem_cons] at hds ⊢
    have hn' := ((s.note_grows fs (hn ▸ hds.1)).length_eq).trans hn
    have hgrows := foldl_note_grows fs hds.2 hn'
    exact ⟨(s.note_meets (hn ▸ hds.1) (hgrows.consistent hc)).mono hgrows, ih hds.2 hn' hc⟩

theorem pattern?_of_foldl_note {s : State} (hds : ∀ d ∈ ds, d.InRange n)
    (hn : s.patterns.length = n) {i : Nat} {p : Pattern}
    (h : (ds.foldl (State.note fs) s).pattern? i = some p) :
    (∃ q, s.pattern? i = some q) ∨ ∃ args, .call i args ∈ ds := by
  induction ds generalizing s with
  | nil => exact .inl ⟨p, h⟩
  | cons d ds ih =>
    simp only [List.forall_mem_cons] at hds
    have hn' := ((s.note_grows fs (hn ▸ hds.1)).length_eq).trans hn
    rcases ih hds.2 hn' h with ⟨q, hq⟩ | ⟨args, hargs⟩
    · rcases pattern?_of_note (hn ▸ hds.1) hq with hq | ⟨args, rfl⟩
      · exact .inl ⟨q, hq⟩
      · exact .inr ⟨args, List.mem_cons_self⟩
    · exact .inr ⟨args, List.mem_cons_of_mem _ hargs⟩

theorem Accounts.foldl_note {processed : List Nat} {s : State} (h : s.Accounts processed)
    (hds : ∀ d ∈ ds, d.InRange n) (hn : s.patterns.length = n) :
    (ds.foldl (State.note fs) s).Accounts processed := by
  induction ds generalizing s with
  | nil => exact h
  | cons d ds ih =>
    simp only [List.forall_mem_cons] at hds
    exact ih (h.note (hn ▸ hds.1)) hds.2
      (((s.note_grows fs (hn ▸ hds.1)).length_eq).trans hn)

theorem Extends.foldl_note {info : SpecInfo} {s : State} (h : s.Extends info)
    (hds : ∀ d ∈ ds, d.InRange n) (hn : s.patterns.length = n)
    (hallows : ∀ d ∈ ds, Allows fs info d) : (ds.foldl (State.note fs) s).Extends info := by
  induction ds generalizing s with
  | nil => exact h
  | cons d ds ih =>
    simp only [List.forall_mem_cons] at hds hallows
    exact ih (h.note (hn ▸ hds.1) hallows.1) hds.2
      (((s.note_grows fs (hn ▸ hds.1)).length_eq).trans hn) hallows.2

end Fold
end State

variable (fs)

/-- What the body of function `i` demands when its parameters are used as the pattern says. -/
def bodyDemands (i : Nat) (p : Pattern) : List Demand :=
  (fs[i]?.map fun f => demands f.body (startLocals fs.length p) []).getD []

/-- Takes function `i` from the pending ones and walks through its body. -/
def process (i : Nat) (s : State) : State :=
  ((walkFunction (m := Id) fs i).run { s with pending := s.pending.erase i }).2

/-- The state in which only the seed has a pattern. -/
def seeded (seed : Nat) (p : Pattern) : State :=
  ((call (m := Id) fs seed p).run ⟨List.replicate fs.length none, [], true⟩).2

/-- A run of `k` steps from the seed: in each a pending function is processed, whichever. -/
inductive Run (seed : Nat) (p : Pattern) : Nat → State → Prop
  | start : Run seed p 0 (seeded fs seed p)
  | step {k i : Nat} {s : State} :
      Run seed p k s → s.consistent = true → i ∈ s.pending → Run seed p (k + 1) (process fs i s)

/-- Whether a run is over: it has failed or there is nothing left to do. -/
def State.Finished (s : State) : Prop := s.consistent = false ∨ s.pending = []

/-- The functions found from the seed by calls in the bodies of those that have a pattern. -/
inductive Found (s : State) (seed : Nat) : Nat → Prop
  | seed : Found s seed seed
  | call {i g : Nat} {p : Pattern} {args : List Meaning} :
      Found s seed i → s.pattern? i = some p → .call g args ∈ bodyDemands fs i p → Found s seed g

variable {fs}

theorem mem_startLocals {p : Pattern} {n r g : Nat}
    (h : (startLocals n p)[r]? = some (.function g)) : g < n := by
  have hmem := List.mem_of_getElem? h
  simp only [startLocals, List.mem_append, List.mem_reverse, List.mem_map, List.mem_range] at hmem
  rcases hmem with ⟨slot, _, hslot⟩ | ⟨k, hk, hkg⟩
  · cases slot <;> cases hslot
  · cases hkg
    exact hk

theorem bodyDemands_inRange {i : Nat} {p : Pattern} :
    ∀ d ∈ bodyDemands fs i p, d.InRange fs.length := by
  intro d hd
  unfold bodyDemands at hd
  cases hf : fs[i]? with
  | none => simp [hf] at hd
  | some f =>
    rw [hf, Option.map_some, Option.getD_some] at hd
    cases d with
    | call g args =>
      obtain ⟨r, _, hr⟩ := ((call_mem_demands_iff _).1 hd).refers
      exact mem_startLocals hr
    | nested g =>
      obtain ⟨found, huse⟩ := (nested_mem_demands_iff _).1 hd
      obtain ⟨r, _, hr⟩ := huse.refers
      exact mem_startLocals hr

theorem process_eq {i : Nat} {s : State} {p : Pattern} (hp : s.pattern? i = some p) :
    process fs i s =
      (bodyDemands fs i p).foldl (State.note fs) { s with pending := s.pending.erase i } := by
  rw [State.pattern?] at hp
  simp only [process, walkFunction, bodyDemands, StateT.run_bind, StateT.run_get, pure_bind]
  cases hf : fs[i]? with
  | none => rfl
  | some f =>
    simp only [hp, Option.map_some, Option.getD_some, StateT.run_bind, walk_notes fs _ _ _ _]
    rfl

theorem Found.mono {s s' : State} (hgrows : s.Grows s') {seed i : Nat} (h : Found fs s seed i) :
    Found fs s' seed i := by
  induction h with
  | seed => exact .seed
  | call _ hp hcall ih => exact .call ih (hgrows.kept _ _ hp) hcall

/-- What holds of the state of a run when the functions listed have been processed. -/
structure Invariant (fs : List (FixFunction Term)) (seed : Nat) (p : Pattern)
    (processed : List Nat) (s : State) : Prop where
  length_eq : s.patterns.length = fs.length
  accounts : s.Accounts processed
  seed_eq : s.pattern? seed = some p
  found : ∀ i q, s.pattern? i = some q → Found fs s seed i
  meets : s.consistent = true → ∀ i ∈ processed, ∀ q, s.pattern? i = some q →
    ∀ d ∈ bodyDemands fs i q, s.Meets fs d

section Invariant
variable {seed : Nat} {p : Pattern} {processed : List Nat} {s : State}

theorem seeded_eq (fs : List (FixFunction Term)) (seed : Nat) (p : Pattern) :
    seeded fs seed p =
      ⟨(List.replicate fs.length none).set seed (some p), [seed], true⟩ := by
  have hnone : State.pattern? ⟨List.replicate fs.length none, [], true⟩ seed = none := by
    simp only [State.pattern?, List.getElem?_replicate]
    split <;> rfl
  rw [seeded, run_call, State.assign_of_none hnone]

theorem pattern?_seeded (hseed : seed < fs.length) (i : Nat) :
    (seeded fs seed p).pattern? i = if seed = i then some p else none := by
  rw [seeded_eq]
  have h := State.pattern?_set (s := ⟨List.replicate fs.length none, [], true⟩)
    (by rwa [List.length_replicate]) p [seed] i
  rw [h]
  split
  · rfl
  · simp only [State.pattern?, List.getElem?_replicate]
    split <;> rfl

theorem invariant_seeded (hseed : seed < fs.length) :
    Invariant fs seed p [] (seeded fs seed p) where
  length_eq := by simp [seeded_eq]
  accounts := by
    refine ⟨by simp [seeded_eq], fun i => ?_⟩
    rw [pattern?_seeded hseed, seeded_eq]
    by_cases h : seed = i
    · simp [h]
    · simp [h, Ne.symm h]
  seed_eq := by rw [pattern?_seeded hseed, if_pos rfl]
  found i q hq := by
    rw [pattern?_seeded hseed] at hq
    split at hq
    · next h => exact h ▸ .seed
    · cases hq
  meets _ i hi := by simp at hi

theorem Invariant.process (h : Invariant fs seed p processed s) (hc : s.consistent = true) {i : Nat}
    (hi : i ∈ s.pending) : Invariant fs seed p (i :: processed) (process fs i s) := by
  obtain ⟨q, hq⟩ := (h.accounts.mem_iff i).1 (List.mem_append_left _ hi)
  have htake : s.Grows { s with pending := s.pending.erase i } :=
    ⟨rfl, fun _ _ hp => hp, fun hc => hc⟩
  have hnotes : State.Grows { s with pending := s.pending.erase i } (Closure.process fs i s) := by
    rw [process_eq hq]
    exact State.foldl_note_grows fs bodyDemands_inRange h.length_eq
  have hgrows := htake.trans hnotes
  have hq' := hgrows.kept i q hq
  refine ⟨hgrows.length_eq.trans h.length_eq, ?_, hgrows.kept _ _ h.seed_eq, ?_, ?_⟩
  · rw [process_eq hq]
    exact (h.accounts.take hi).foldl_note bodyDemands_inRange h.length_eq
  · intro j r hr
    have hr' := hr
    rw [process_eq hq] at hr'
    obtain ⟨r', hr'⟩ | ⟨args, hcall⟩ :=
      State.pattern?_of_foldl_note (s := { s with pending := s.pending.erase i })
        bodyDemands_inRange h.length_eq hr'
    · exact (h.found j r' hr').mono hgrows
    · exact .call ((h.found i q hq).mono hgrows) hq' hcall
  · intro hc' j hj r hr d hd
    rcases List.mem_cons.1 hj with rfl | hj
    · obtain rfl : q = r := Option.some.inj (hq'.symm.trans hr)
      rw [process_eq hq] at hc' ⊢
      exact State.foldl_note_meets (s := { s with pending := s.pending.erase j })
        bodyDemands_inRange h.length_eq hc' d hd
    · obtain ⟨r', hr'⟩ := (h.accounts.mem_iff j).1 (List.mem_append_right _ hj)
      obtain rfl : r' = r := Option.some.inj ((hgrows.kept j r' hr').symm.trans hr)
      exact (h.meets hc j hj r' hr' d hd).mono hgrows

theorem Run.invariant {k : Nat} (h : Run fs seed p k s) (hseed : seed < fs.length) :
    ∃ processed, processed.length = k ∧ Invariant fs seed p processed s := by
  induction h with
  | start => exact ⟨[], rfl, invariant_seeded hseed⟩
  | step _ hc hi ih =>
    obtain ⟨processed, hk, hinv⟩ := ih
    exact ⟨_ :: processed, by rw [List.length_cons, hk], hinv.process hc hi⟩

theorem State.lt_of_pattern? {i : Nat} {q : Pattern} (h : s.pattern? i = some q) :
    i < s.patterns.length := by
  rw [State.pattern?] at h
  rcases Nat.lt_or_ge i s.patterns.length with hi | hi
  · exact hi
  · rw [List.getElem?_eq_none hi] at h
    cases h

/-- All functions that are pending or processed fit in the bundle. -/
theorem Invariant.length_le (h : Invariant fs seed p processed s) :
    s.pending.length + processed.length ≤ fs.length := by
  have hsub : s.pending ++ processed ⊆ List.range fs.length := by
    intro i hi
    obtain ⟨q, hq⟩ := (h.accounts.mem_iff i).1 hi
    rw [List.mem_range, ← h.length_eq]
    exact State.lt_of_pattern? hq
  have hle := (h.accounts.nodup.subperm hsub).length_le
  rwa [List.length_append, List.length_range] at hle

end Invariant
end Closure
end InductiveTerms
