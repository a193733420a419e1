import InductiveTerms.Proofs.Search

/-!
The closure of a bundle is its solution. What a finished run gives is a solution, every solution is
what a finished run gives, and the search is a run that ends within as many steps as there are
functions (`closure?_solves`).
-/
namespace InductiveTerms
open Closure

namespace Closure

/-- The answer of a state in which a run is over. -/
def State.answer (s : State) : Option SpecInfo :=
  if s.consistent then s.patterns.mapM id else none

theorem conclude_eq (s : State) : conclude (m := Id) s = (pure s.answer : Id _) := by
  rw [conclude, State.answer]
  split
  · cases s.patterns.mapM id <;> rfl
  · rfl

theorem mapM_id_eq_some_iff {α : Type} {as : List (Option α)} {bs : List α} :
    as.mapM id = some bs ↔ as = bs.map some := by
  induction as generalizing bs with
  | nil => cases bs <;> simp
  | cons a as ih =>
    cases a with
    | none => cases bs <;> simp
    | some a =>
      have hbind : (some a :: as).mapM id = (as.mapM id).map (a :: ·) := by
        cases h : as.mapM id <;> simp [List.mapM_cons, h]
      rw [hbind, Option.map_eq_some_iff]
      cases bs with
      | nil => simp
      | cons b bs => simp [ih, and_comm]

theorem State.answer_eq_some_iff {s : State} {info : SpecInfo} :
    s.answer = some info ↔ s.consistent = true ∧ s.patterns = info.map some := by
  unfold State.answer
  split
  · next h => simp [h, mapM_id_eq_some_iff]
  · next h => simp [h]

theorem pattern?_of_map_some {s : State} {info : SpecInfo} (h : s.patterns = info.map some)
    (i : Nat) : s.pattern? i = info[i]? := by
  rw [State.pattern?, h, List.getElem?_map]
  cases info[i]? <;> rfl

end Closure

namespace Bundle
variable {b : Bundle Term} {seed : Nat} {p : Pattern} {info : SpecInfo}

theorem mem_bodyDemands {i : Nat} {f : FixFunction Term} (hf : b.function? i = some f)
    {q : Pattern} {d : Demand} : d ∈ bodyDemands b.functions i q ↔
      d ∈ demands f.body (startLocals b.size q) [] := by
  have hf' : b.functions[i]? = some f := hf
  rw [bodyDemands, hf', Option.map_some, Option.getD_some]
  rfl

/-- The calls that a body demands are the uses walked through. -/
theorem uses_walked_iff {i g : Nat} {found : List Meaning} :
    b.Uses info .walked i g found ↔
      ∃ q, info[i]? = some q ∧ .call g found ∈ bodyDemands b.functions i q := by
  rw [uses_body_iff (by decide)]
  constructor
  · rintro ⟨f, q, hf, hq, h⟩
    exact ⟨q, hq, (mem_bodyDemands hf).2 ((call_mem_demands_iff _).2 h)⟩
  · rintro ⟨q, hq, h⟩
    cases hf : b.function? i with
    | none =>
      have hf' : b.functions[i]? = none := hf
      simp [bodyDemands, hf'] at h
    | some f => exact ⟨f, q, rfl, hq, (call_mem_demands_iff _).1 ((mem_bodyDemands hf).1 h)⟩

theorem uses_nested_iff {i g : Nat} :
    (∃ found, b.Uses info .nested i g found) ↔
      ∃ q, info[i]? = some q ∧ .nested g ∈ bodyDemands b.functions i q := by
  simp only [uses_body_iff (b := b) (show Place.nested ≠ .type by decide)]
  constructor
  · rintro ⟨found, f, q, hf, hq, h⟩
    exact ⟨q, hq, (mem_bodyDemands hf).2 ((nested_mem_demands_iff _).2 ⟨found, h⟩)⟩
  · rintro ⟨q, hq, h⟩
    cases hf : b.function? i with
    | none =>
      have hf' : b.functions[i]? = none := hf
      simp [bodyDemands, hf'] at h
    | some f =>
      obtain ⟨found, h⟩ := (nested_mem_demands_iff _).1 ((mem_bodyDemands hf).1 h)
      exact ⟨found, f, q, rfl, hq, h⟩

theorem arityOf_eq {g : Nat} {h : FixFunction Term} (hh : b.function? g = some h) :
    arityOf b.functions g = h.arity := by
  have hh' : b.functions[g]? = some h := hh
  rw [arityOf, hh', Option.map_some, Option.getD_some]

theorem function?_of_lt {i : Nat} (h : i < b.size) : ∃ f, b.function? i = some f :=
  ⟨_, List.getElem?_eq_getElem h⟩

theorem lt_of_function? {i : Nat} {f : FixFunction Term} (h : b.function? i = some f) :
    i < b.size := (List.getElem?_eq_some_iff.1 h).1

/-- A function fits when its call is allowed. -/
theorem fits_iff_allows {g : Nat} (hg : g < b.size) {found : List Meaning} :
    b.Fits info g found ↔ State.Allows b.functions info (.call g found) := by
  obtain ⟨h, hh⟩ := function?_of_lt hg
  rw [State.Allows, forced, arityOf_eq hh]
  constructor
  · rintro ⟨h', hh', hfits⟩
    rw [hh] at hh'
    obtain rfl := Option.some.inj hh'
    exact hfits
  · exact fun hallows => ⟨h, hh, hallows⟩

/-- What a finished run answers is a solution. -/
theorem solution_of_answer {processed : List Nat} {s : State}
    (hseed : ∃ f, b.function? seed = some f ∧ f.arity = p.length)
    (hinv : Invariant b.functions seed p processed s) (hdone : s.Finished)
    (h : s.answer = some info) : b.Solution seed p info := by
  obtain ⟨hc, hpatterns⟩ := State.answer_eq_some_iff.1 h
  have hpattern := pattern?_of_map_some hpatterns
  have hpending : s.pending = [] := hdone.resolve_left (by simp [hc])
  have hprocessed : ∀ i q, info[i]? = some q → i ∈ processed := by
    intro i q hq
    have hmem := (hinv.accounts.mem_iff i).2 ⟨q, by rw [hpattern, hq]⟩
    rwa [hpending] at hmem
  have hmeets : ∀ i q, info[i]? = some q → ∀ d ∈ bodyDemands b.functions i q,
      s.Meets b.functions d := fun i q hq =>
    hinv.meets hc i (hprocessed i q hq) q (by rw [hpattern, hq])
  have hlength : info.length = b.size := by
    have hlen := hinv.length_eq
    rwa [hpatterns, List.length_map] at hlen
  refine ⟨hseed, hlength, ?_, ?_, ?_, ?_⟩
  · rw [← hpattern, hinv.seed_eq]
  · intro i g found huse
    obtain ⟨q, hq, hcall⟩ := uses_walked_iff.1 huse
    obtain ⟨hle, hg⟩ := hmeets i q hq _ hcall
    rw [hpattern] at hg
    refine (fits_iff_allows ?_).2 ⟨hle, hg⟩
    rw [← hlength]
    exact (List.getElem?_eq_some_iff.1 hg).1
  · intro i g found huse
    obtain ⟨q, hq, hnested⟩ := uses_nested_iff.1 ⟨found, huse⟩
    exact hmeets i q hq _ hnested
  · intro i hi
    have hq : s.pattern? i = some info[i] := by
      rw [hpattern]
      exact List.getElem?_eq_getElem (hlength.symm ▸ hi)
    have hfound := hinv.found i _ hq
    clear hq hi
    induction hfound with
    | seed => exact .seed
    | call _ hp hcall ih => exact .call ih (uses_walked_iff.2 ⟨_, by rw [← hpattern, hp], hcall⟩)

theorem Solution.allows (h : b.Solution seed p info) {i : Nat} {q : Pattern}
    (hq : info[i]? = some q) :
    ∀ d ∈ bodyDemands b.functions i q, State.Allows b.functions info d := by
  intro d hd
  cases d with
  | call g found =>
    exact (fits_iff_allows (bodyDemands_inRange _ hd)).1
      (h.fits i g found (uses_walked_iff.2 ⟨q, hq, hd⟩))
  | nested g =>
    obtain ⟨found, huse⟩ := uses_nested_iff.2 ⟨q, hq, hd⟩
    exact h.not_nested i g found huse

/-- Every solution extends the patterns given in a run. -/
theorem Solution.extends (h : b.Solution seed p info) {k : Nat} {s : State}
    (hrun : Run b.functions seed p k s) : s.Extends info := by
  obtain ⟨f, hf, _⟩ := h.arity_eq
  have hseed := lt_of_function? hf
  induction hrun with
  | start =>
    refine ⟨by rw [seeded_eq], fun i q hq => ?_⟩
    rw [pattern?_seeded hseed] at hq
    split at hq
    · next heq => rw [← heq, h.seed_eq, hq]
    · cases hq
  | @step k i s hrun hc hi ih =>
    obtain ⟨_, _, hinv⟩ := hrun.invariant hseed
    obtain ⟨q, hq⟩ := (hinv.accounts.mem_iff i).1 (List.mem_append_left _ hi)
    rw [process_eq hq]
    have htake : State.Extends info { s with pending := s.pending.erase i } :=
      ⟨ih.consistent, ih.kept⟩
    exact htake.foldl_note bodyDemands_inRange hinv.length_eq (h.allows (ih.kept i q hq))

/-- Every finished run answers with the solution. -/
theorem Solution.answer_eq (h : b.Solution seed p info) {k : Nat} {s : State}
    (hrun : Run b.functions seed p k s) (hdone : s.Finished) : s.answer = some info := by
  obtain ⟨f, hf, _⟩ := h.arity_eq
  obtain ⟨processed, _, hinv⟩ := hrun.invariant (lt_of_function? hf)
  have hext := h.extends hrun
  have hpending : s.pending = [] := hdone.resolve_left (by simp [hext.consistent])
  have hassigned : ∀ i, b.Reached info seed i → s.pattern? i = info[i]? := by
    intro i hi
    induction hi with
    | seed => rw [hinv.seed_eq, h.seed_eq]
    | @call i g found _ huse ih =>
      obtain ⟨q, hq, hcall⟩ := uses_walked_iff.1 huse
      rw [hq] at ih
      have hmem := (hinv.accounts.mem_iff i).2 ⟨q, ih⟩
      rw [hpending, List.nil_append] at hmem
      obtain ⟨_, hg⟩ := hinv.meets hext.consistent i hmem q ih _ hcall
      rw [hg, hext.kept _ _ hg]
  refine State.answer_eq_some_iff.2 ⟨hext.consistent, List.ext_getElem? fun i => ?_⟩
  rcases Nat.lt_or_ge i b.size with hi | hi
  · have hpattern := hassigned i (h.reached i hi)
    obtain ⟨q, hinfo⟩ : ∃ q, info[i]? = some q :=
      ⟨_, List.getElem?_eq_getElem (h.length_eq.symm ▸ hi)⟩
    rw [State.pattern?, hinfo] at hpattern
    rw [List.getElem?_map, hinfo, Option.map_some]
    exact Option.join_eq_some_iff.1 hpattern
  · rw [List.getElem?_eq_none (by rw [hinv.length_eq]; exact hi),
      List.getElem?_eq_none (by rw [List.length_map, h.length_eq]; exact hi)]

end Bundle

namespace Closure
variable {fs : List (FixFunction Term)} {seed : Nat} {p : Pattern}

/-- The search goes on as a run that is over when it stops, if it may take enough rounds. -/
theorem saturate_run (hseed : seed < fs.length) (rounds : Nat) :
    ∀ {k s}, Run fs seed p k s → s.consistent = true → fs.length ≤ rounds + k →
      ∃ k' s', (saturate (m := Id) fs rounds).run s = ((), s') ∧ Run fs seed p k' s' ∧
        s'.Finished := by
  induction rounds with
  | zero =>
    intro k s hrun hc hle
    obtain ⟨processed, hk, hinv⟩ := hrun.invariant hseed
    have hlength := hinv.length_le
    refine ⟨k, s, rfl, hrun, .inr ?_⟩
    exact List.length_eq_zero_iff.1 (by omega)
  | succ rounds ih =>
    intro k s hrun hc hle
    cases hpending : s.pending with
    | nil =>
      refine ⟨k, s, ?_, hrun, .inr hpending⟩
      simp only [saturate, StateT.run_bind, StateT.run_get, pure_bind, hpending]
      rfl
    | cons i rest =>
      have hi : i ∈ s.pending := by simp [hpending]
      have hnext := hrun.step hc hi
      have herase : s.pending.erase i = rest := by rw [hpending, List.erase_cons_head]
      have hsat : (saturate (m := Id) fs (rounds + 1)).run s =
          if (process fs i s).consistent then (saturate (m := Id) fs rounds).run (process fs i s)
          else ((), process fs i s) := by
        have hwalk : (walkFunction (m := Id) fs i).run { s with pending := rest } =
            (pure ((), process fs i s) : Id _) := by
          rw [process, herase]
          rfl
        simp only [saturate, StateT.run_bind, StateT.run_get, pure_bind, hpending,
          StateT.run_modify, hwalk]
        split <;> rfl
      rw [hsat]
      split
      · next hc' => exact ih hnext hc' (by omega)
      · next hc' => exact ⟨k + 1, _, rfl, hnext, .inl (by simpa using hc')⟩

theorem search_run (hseed : seed < fs.length) :
    ∃ k s, search (m := Id) fs seed p = s ∧ Run fs seed p k s ∧ s.Finished := by
  obtain ⟨k, s, hrun, h⟩ := saturate_run hseed fs.length (.start (p := p))
    (by rw [seeded_eq]) (Nat.le_refl _)
  refine ⟨k, s, ?_, h⟩
  have hcall : (call (m := Id) fs seed p).run ⟨List.replicate fs.length none, [], true⟩ =
      (pure ((), seeded fs seed p) : Id _) := rfl
  simp only [search, StateT.run_bind, hcall, pure_bind, hrun]
  rfl

end Closure

namespace Bundle
variable {b : Bundle Term} {seed : Nat} {p : Pattern}

theorem closure?_eq_answer {f : FixFunction Term} (hf : b.function? seed = some f)
    (harity : f.arity = p.length) :
    b.closure? seed p = (search (m := Id) b.functions seed p).answer := by
  have hrun : b.closureM (m := Id) seed p =
      (pure (search (m := Id) b.functions seed p).answer : Id _) := by
    simp only [closureM, hf, if_pos harity]
    exact conclude_eq _
  rw [closure?, hrun]
  rfl

theorem closure?_eq_none (h : ¬ ∃ f, b.function? seed = some f ∧ f.arity = p.length) :
    b.closure? seed p = none := by
  have hrun : b.closureM (m := Id) seed p = (pure none : Id _) := by
    unfold closureM
    cases hf : b.function? seed with
    | none => rfl
    | some f => exact if_neg fun harity => h ⟨f, hf, harity⟩
  rw [closure?, hrun]
  rfl

theorem closure?_eq_some_iff {info : SpecInfo} :
    b.closure? seed p = some info ↔ b.Solution seed p info := by
  by_cases hseed : ∃ f, b.function? seed = some f ∧ f.arity = p.length
  · obtain ⟨f, hf, harity⟩ := hseed
    obtain ⟨k, s, hsearch, hrun, hdone⟩ := search_run (p := p) (lt_of_function? hf)
    rw [closure?_eq_answer hf harity, hsearch]
    constructor
    · intro h
      obtain ⟨processed, _, hinv⟩ := hrun.invariant (lt_of_function? hf)
      exact solution_of_answer ⟨f, hf, harity⟩ hinv hdone h
    · exact fun h => h.answer_eq hrun hdone
  · rw [closure?_eq_none hseed]
    exact iff_of_false (fun h => nomatch h) fun h => hseed h.arity_eq

/-- The closure is the one solution, or none where there is none. It does not depend on the order in
which functions are processed: every run takes at most one step for each function, it goes on until
it is over, and then it gives the closure. -/
theorem closure?_solves (b : Bundle Term) (seed : Nat) (p : Pattern) :
    (∀ info, b.closure? seed p = some info ↔ b.Solution seed p info) ∧
      (∀ info info', b.Solution seed p info → b.Solution seed p info' → info = info') ∧
      ∀ f, b.function? seed = some f → f.arity = p.length →
        (∃ k, Run b.functions seed p k (search (m := Id) b.functions seed p) ∧
          (search (m := Id) b.functions seed p).Finished) ∧
        ∀ k s, Run b.functions seed p k s →
          k ≤ b.size ∧
          (s.Finished ∨ ∃ i ∈ s.pending, Run b.functions seed p (k + 1) (process b.functions i s)) ∧
          (s.Finished → s.answer = b.closure? seed p) := by
  refine ⟨fun _ => closure?_eq_some_iff, fun _ _ h h' => h.unique h',
    fun f hf harity => ⟨?_, fun k s hrun => ?_⟩⟩
  · obtain ⟨k, s, hsearch, hrun, hdone⟩ := search_run (p := p) (lt_of_function? hf)
    exact ⟨k, hsearch ▸ hrun, hsearch ▸ hdone⟩
  · obtain ⟨processed, hk, hinv⟩ := hrun.invariant (lt_of_function? hf)
    refine ⟨?_, ?_, fun hdone => ?_⟩
    · have hle := hinv.length_le
      have hsize : b.functions.length = b.size := rfl
      omega
    · by_cases hc : s.consistent = true
      · cases hpending : s.pending with
        | nil => exact .inl (.inr hpending)
        | cons i rest => exact .inr ⟨i, by simp, hrun.step hc (by simp [hpending])⟩
      · exact .inl (.inl (by simpa using hc))
    · refine Option.ext fun info => ?_
      rw [closure?_eq_some_iff]
      exact ⟨solution_of_answer ⟨f, hf, harity⟩ hinv hdone, fun h => h.answer_eq hrun hdone⟩

/-- `f c n := let d := c in g d n` and `g c n := match n with | S m => f c m`. -/
def passingOn : Bundle Term :=
  ⟨none,
    [⟨"f", [⟨some "c", .global "nat"⟩, ⟨some "n", .global "nat"⟩], .global "nat",
      .letIn (some "d") (.var "c" 1) (.global "nat")
        (.applyTo (.var "g" 3) [.var "d" 0, .var "n" 1])⟩,
    ⟨"g", [⟨some "c", .global "nat"⟩, ⟨some "n", .global "nat"⟩], .global "nat",
      .caseOf (.global "nat") (.var "n" 0)
        [⟨"S", 1, .applyTo (.applyTo (.var "f" 4) [.var "c" 2]) [.var "m" 0]⟩]⟩]⟩

theorem closure?_solves_passingOn :
    passingOn.Solution 0 [some 0, none] [[some 0, none], [some 0, none]] :=
  ((closure?_solves passingOn 0 [some 0, none]).1 _).1 (by decide)

end Bundle
end InductiveTerms
