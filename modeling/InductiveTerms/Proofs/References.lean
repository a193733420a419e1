import InductiveTerms.Proofs.Traversal
import InductiveTerms.Term.References

/-!
The external references of a term are the indices of its free occurrences, seen from outside
(`mem_externalReferences`). The collector is followed through the traversal as an action that
changes nothing in the term and adds what the occurrences of the term refer to.
-/
namespace InductiveTerms.Term
open Traversal

theorem mem_insertIncreasing {n k : Nat} {ks : List Nat} :
    k ∈ insertIncreasing n ks ↔ k = n ∨ k ∈ ks := by
  induction ks with
  | nil => simp [insertIncreasing]
  | cons j ks ih =>
    simp only [insertIncreasing]
    split
    · simp
    · split
      · simp_all
      · simp [ih, or_left_comm]

theorem insertIncreasing_increasing {n : Nat} {ks : List Nat} (h : ks.Pairwise (· < ·)) :
    (insertIncreasing n ks).Pairwise (· < ·) := by
  induction ks with
  | nil => exact List.pairwise_singleton _ n
  | cons k ks ih =>
    obtain ⟨hk, hks⟩ := List.pairwise_cons.1 h
    unfold insertIncreasing
    by_cases hlt : n < k
    · rw [if_pos hlt]
      refine List.pairwise_cons.2 ⟨List.forall_mem_cons.2 ⟨hlt, fun j hj => ?_⟩, h⟩
      exact Nat.lt_trans hlt (hk j hj)
    · rw [if_neg hlt]
      by_cases heq : n = k
      · rw [if_pos heq]
        exact h
      · rw [if_neg heq]
        refine List.pairwise_cons.2 ⟨fun j hj => ?_, ih hks⟩
        rcases mem_insertIncreasing.1 hj with rfl | hj
        · omega
        · exact hk j hj

/-- Whether an occurrence among those listed refers to the variable `r` outside. -/
def Refers (os : List (Nat × Nat)) (r : Nat) : Prop := ∃ o ∈ os, o.2 ≤ o.1 ∧ o.1 - o.2 = r

theorem refers_append {os os' : List (Nat × Nat)} {r : Nat} :
    Refers (os ++ os') r ↔ Refers os r ∨ Refers os' r := by
  simp only [Refers, List.mem_append, or_and_right, exists_or]

theorem refers_nil {r : Nat} : Refers [] r ↔ False := by simp [Refers]

/-- An action that leaves its term as it is and notes what the occurrences refer to, in increasing
order. -/
def Collects {α : Type} (x : StateT (List Nat) Id (Option α)) (os : List (Nat × Nat)) : Prop :=
  ∀ s, ∃ s', x.run s = (none, s') ∧ (∀ r, r ∈ s' ↔ r ∈ s ∨ Refers os r) ∧
    (s.Pairwise (· < ·) → s'.Pairwise (· < ·))

section Collects
variable {α β : Type} {os os' : List (Nat × Nat)}

theorem Collects.bind {x : StateT (List Nat) Id (Option α)}
    {f : Option α → StateT (List Nat) Id (Option β)} (hx : Collects x os)
    (hf : Collects (f none) os') : Collects (x >>= f) (os ++ os') := by
  intro s
  obtain ⟨s₁, h₁, hmem₁, hincreasing₁⟩ := hx s
  obtain ⟨s₂, h₂, hmem₂, hincreasing₂⟩ := hf s₁
  refine ⟨s₂, ?_, fun r => ?_, fun hs => hincreasing₂ (hincreasing₁ hs)⟩
  · simp only [StateT.run_bind, h₁]
    exact h₂
  · rw [hmem₂, hmem₁, refers_append, or_assoc]

theorem Collects.last {x : StateT (List Nat) Id (Option α)}
    {f : Option α → StateT (List Nat) Id (Option β)} (hx : Collects x os)
    (hf : Collects (f none) []) : Collects (x >>= f) os := by
  have h := hx.bind hf
  rwa [List.append_nil] at h

theorem collects_pure : Collects (pure none : StateT (List Nat) Id (Option α)) [] := fun s =>
  ⟨s, rfl, fun _ => by rw [refers_nil, or_false], id⟩

/-- Actions that do nothing may stand in between. -/
theorem Collects.seq {x : StateT (List Nat) Id (Option α)} {y : StateT (List Nat) Id Unit}
    (hy : y = pure ()) (hx : Collects x os) : Collects (y >>= fun _ => x) os := by
  rw [hy, pure_bind]
  exact hx

theorem Collects.congr {x : StateT (List Nat) Id (Option α)} (hx : Collects x os)
    (h : ∀ r, Refers os r ↔ Refers os' r) : Collects x os' := by
  intro s
  obtain ⟨s', hs, hmem, hincreasing⟩ := hx s
  exact ⟨s', hs, fun r => by rw [hmem, h], hincreasing⟩

theorem collects_offer_var (x : String) (i d : Nat) :
    Collects (offer (referenceCollector (m := Id)) (.var x i) d false) [(i, d)] := by
  intro s
  by_cases h : d ≤ i
  · refine ⟨insertIncreasing (i - d) s, ?_, fun r => ?_, insertIncreasing_increasing⟩
    · simp [offer, referenceCollector, Visitor.ofReply, h]
      rfl
    · simp only [mem_insertIncreasing, Refers, List.mem_singleton, exists_eq_left, h, true_and]
      rw [or_comm, eq_comm]
  · refine ⟨s, ?_, fun r => ?_, id⟩
    · simp [offer, referenceCollector, Visitor.ofReply, h]
      rfl
    · simp [Refers, h]

theorem collects_offer {t : Term} (ht : t.asVar? = none) (d : Nat) :
    Collects (offer (referenceCollector (m := Id)) t d false) [] := by
  cases t <;> first | exact collects_pure | simp [asVar?] at ht

end Collects

mutual
theorem collects_visit : ∀ (t : Term) (d : Nat),
    Collects (visit (referenceCollector (m := Id)) unshared t d) (t.occurrences d)
  | .var x i, d => collects_offer_var x i d
  | .global _, d => collects_offer rfl d
  | .univ _, d => collects_offer rfl d
  | .product ps r, d => by
    simp only [visit, occurrences]
    exact (collects_visitParams ps d).bind ((collects_visit r (d + ps.length)).last
      (.seq (times_pure ps.length) (collects_offer rfl d)))
  | .lambda ps b, d => by
    simp only [visit, occurrences]
    exact (collects_visitParams ps d).bind ((collects_visit b (d + ps.length)).last
      (.seq (times_pure ps.length) (collects_offer rfl d)))
  | .letIn x v t b, d => by
    simp only [visit, occurrences]
    exact (collects_visit v d).bind ((collects_visit t d).bind (.seq rfl
      ((collects_visit b (d + 1)).last (.seq rfl (collects_offer rfl d)))))
  | .apply f ⟨a, as⟩, d => by
    simp only [visit, occurrences]
    exact (collects_visit f d).bind ((collects_visit a d).bind
      ((collects_visitTerms as d).last (collects_offer rfl d)))
  | .cast t k ty, d => by
    simp only [visit, occurrences]
    exact (collects_visit t d).bind ((collects_visit ty d).last (collects_offer rfl d))
  | .caseOf p s bs, d => by
    have h : Collects (visit (referenceCollector (m := Id)) unshared (.caseOf p s bs) d)
        (s.occurrences d ++ (p.occurrences (d + 1) ++ occurrencesOfBranches bs d)) := by
      simp only [visit]
      exact (collects_visit s d).bind (.seq rfl ((collects_visit p (d + 1)).bind (.seq rfl
        ((collects_visitBranches bs d).last (collects_offer rfl d)))))
    refine h.congr fun r => ?_
    simp only [occurrences, refers_append]
    exact or_left_comm
  | .fix i ⟨l, fs⟩, d => by
    simp only [visit, occurrences]
    refine Collects.last (Collects.last (.seq (enterFunctions_ofReply _ fs) ?_)
      collects_pure) (collects_offer rfl d)
    exact (collects_visitFunctions fs (d + fs.length)).last (.seq (times_pure fs.length)
      collects_pure)
termination_by structural t => t

theorem collects_visitParams : ∀ (ps : List (Param Term)) (d : Nat),
    Collects (visitParams (referenceCollector (m := Id)) unshared ps d) (occurrencesOfParams ps d)
  | [], _ => collects_pure
  | ⟨_, t⟩ :: ps, d => by
    simp only [visitParams, occurrencesOfParams]
    exact (collects_visit t d).bind (.seq rfl ((collects_visitParams ps (d + 1)).last
      collects_pure))
termination_by structural ps => ps

theorem collects_visitTerms : ∀ (ts : List Term) (d : Nat),
    Collects (visitTerms (referenceCollector (m := Id)) unshared ts d) (occurrencesOfTerms ts d)
  | [], _ => collects_pure
  | t :: ts, d => by
    simp only [visitTerms, occurrencesOfTerms]
    exact (collects_visit t d).bind ((collects_visitTerms ts d).last collects_pure)
termination_by structural ts => ts

theorem collects_visitBranches : ∀ (bs : List (Branch Term)) (d : Nat),
    Collects (visitBranches (referenceCollector (m := Id)) unshared bs d)
      (occurrencesOfBranches bs d)
  | [], _ => collects_pure
  | ⟨_, n, t⟩ :: bs, d => by
    simp only [visitBranches, occurrencesOfBranches]
    exact .seq (times_pure n) ((collects_visit t (d + n)).bind (.seq (times_pure n)
      ((collects_visitBranches bs d).last collects_pure)))
termination_by structural bs => bs

theorem collects_visitFunctions : ∀ (fs : List (FixFunction Term)) (d : Nat),
    Collects (visitFunctions (referenceCollector (m := Id)) unshared fs d)
      (occurrencesOfFunctions fs d)
  | [], _ => collects_pure
  | ⟨_, ps, r, b⟩ :: fs, d => by
    simp only [visitFunctions, occurrencesOfFunctions, List.append_assoc]
    exact (collects_visitParams ps d).bind ((collects_visit r (d + ps.length)).bind
      ((collects_visit b (d + ps.length)).bind (.seq (times_pure ps.length)
        ((collects_visitFunctions fs d).last collects_pure))))
termination_by structural fs => fs
end

/-- The variable `r` outside is referred to exactly when it occurs free. -/
theorem mem_externalReferences {t : Term} {r : Nat} :
    r ∈ t.externalReferences ↔ Refers (t.occurrences 0) r := by
  obtain ⟨s, hs, hmem, _⟩ := collects_visit t 0 []
  have hrefs : t.externalReferences = s := by
    have hrun : t.externalReferences =
        ((visit (referenceCollector (m := Id)) unshared t 0).run []).2 := rfl
    rw [hrun, hs]
  rw [hrefs, hmem]
  simp

/-- A node refers to what its children refer to past the binders around them. -/
theorem refers_iff_children {t : Term} (ht : t.asVar? = none) {r : Nat} :
    Refers (t.occurrences 0) r ↔ ∃ c ∈ t.children 0, Refers (c.1.occurrences 0) (r + c.2) := by
  simp only [Refers, mem_occurrences_iff ht]
  constructor
  · rintro ⟨o, ⟨c, hc, ho⟩, hle, hr⟩
    obtain ⟨e, he, hd⟩ := mem_occurrences_depth.1 ho
    exact ⟨c, hc, (o.1, e), he, by simp only; omega, by simp only; omega⟩
  · rintro ⟨c, hc, o, ho, hle, hr⟩
    exact ⟨(o.1, o.2 + c.2), ⟨c, hc, mem_occurrences_depth.2 ⟨o.2, ho, rfl⟩⟩,
      by simp only; omega, by simp only; omega⟩

theorem refers_var {x : String} {i r : Nat} : Refers ((Term.var x i).occurrences 0) r ↔ i = r := by
  simp [Refers, occurrences_var]

end InductiveTerms.Term
