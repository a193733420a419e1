import InductiveTerms.Proofs.Correspondence

/-!
Where a traversal fails. A traversal of a term fails because that of a child does, or because the
visitor fails at the node rebuilt from what the traversals of the children gave (`visit_error`). A
visitor that fails less often gives the same wherever there was something to give
(`visit_outlasts`).
-/
namespace InductiveTerms

theorem bind_eq_error_iff {ε α β : Type} {x : Except ε α} {f : α → Except ε β} {e : ε} :
    (x >>= f) = .error e ↔ x = .error e ∨ ∃ a, x = .ok a ∧ f a = .error e := by
  cases x with
  | error e' => simp [bind, Except.bind]
  | ok a => simp [bind, Except.bind]

theorem eq_ok_of_ne_error {ε α : Type} {x : Except ε α} (h : ∀ e, x ≠ .error e) :
    ∃ a, x = .ok a := by
  cases x with
  | error e => exact absurd rfl (h e)
  | ok a => exact ⟨a, rfl⟩

namespace Traversal
open Term

variable {ε : Type} {reply : Term → Nat → Except ε (Option Term)} {e : ε}

theorem offer_error {v : Visitor (Except ε)} {t : Term} {d : Nat} {changed : Bool}
    (h : offer v t d changed = .error e) : v.reply t d = .error e := by
  rcases bind_eq_error_iff.1 h with h | ⟨o, _, h⟩
  · exact h
  · cases o <;> cases h

theorem unshared_error {b : Bundle Term} {d : Nat} {x : Except ε (Option (List (FixFunction Term)))}
    (h : unshared b d x = .error e) : x = .error e := by
  rcases bind_eq_error_iff.1 h with h | ⟨fs, _, h⟩
  · exact h
  · cases fs <;> cases h

theorem visitParams_error {ps : List (Param Term)} {d : Nat}
    (h : visitParams (.ofReply reply) unshared ps d = .error e) :
    ∃ c ∈ paramTypes ps d, visit (.ofReply reply) unshared c.1 c.2 = .error e := by
  induction ps generalizing d with
  | nil => cases h
  | cons p ps ih =>
    simp only [visitParams, enter_ofReply, pure_bind, bind_eq_error_iff] at h
    rcases h with h | ⟨_, _, h | ⟨_, _, h⟩⟩
    · exact ⟨_, List.mem_cons_self, h⟩
    · obtain ⟨c, hc, h⟩ := ih h
      exact ⟨c, List.mem_cons_of_mem _ hc, h⟩
    · cases h

theorem visitTerms_error {ts : List Term} {d : Nat}
    (h : visitTerms (.ofReply reply) unshared ts d = .error e) :
    ∃ t ∈ ts, visit (.ofReply reply) unshared t d = .error e := by
  induction ts with
  | nil => cases h
  | cons t ts ih =>
    simp only [visitTerms, bind_eq_error_iff] at h
    rcases h with h | ⟨_, _, h | ⟨_, _, h⟩⟩
    · exact ⟨t, List.mem_cons_self, h⟩
    · obtain ⟨u, hu, h⟩ := ih h
      exact ⟨u, List.mem_cons_of_mem _ hu, h⟩
    · cases h

theorem visitBranches_error {bs : List (Branch Term)} {d : Nat}
    (h : visitBranches (.ofReply reply) unshared bs d = .error e) :
    ∃ b ∈ bs, visit (.ofReply reply) unshared b.body (d + b.arity) = .error e := by
  induction bs with
  | nil => cases h
  | cons b bs ih =>
    simp only [visitBranches, enter_ofReply, leave_ofReply, times_pure, pure_bind,
      bind_eq_error_iff] at h
    rcases h with h | ⟨_, _, h | ⟨_, _, h⟩⟩
    · exact ⟨b, List.mem_cons_self, h⟩
    · obtain ⟨c, hc, h⟩ := ih h
      exact ⟨c, List.mem_cons_of_mem _ hc, h⟩
    · cases h

theorem visitFunctions_error {fs : List (FixFunction Term)} {d : Nat}
    (h : visitFunctions (.ofReply reply) unshared fs d = .error e) :
    ∃ f ∈ fs, ∃ c ∈ paramTypes f.params d ++ [(f.result, d + f.arity), (f.body, d + f.arity)],
      visit (.ofReply reply) unshared c.1 c.2 = .error e := by
  induction fs with
  | nil => cases h
  | cons f fs ih =>
    simp only [visitFunctions, leave_ofReply, times_pure, pure_bind, bind_eq_error_iff] at h
    rcases h with h | ⟨_, _, h | ⟨_, _, h | ⟨_, _, h | ⟨_, _, h⟩⟩⟩⟩
    · obtain ⟨c, hc, h⟩ := visitParams_error h
      exact ⟨f, List.mem_cons_self, c, List.mem_append_left _ hc, h⟩
    · exact ⟨f, List.mem_cons_self, (f.result, _), by simp [FixFunction.arity], h⟩
    · exact ⟨f, List.mem_cons_self, (f.body, _), by simp [FixFunction.arity], h⟩
    · obtain ⟨g, hg, h⟩ := ih h
      exact ⟨g, List.mem_cons_of_mem _ hg, h⟩
    · cases h

/-- A traversal fails at a child or at the node rebuilt from the children. -/
theorem visit_error {t : Term} {d : Nat} (h : visit (.ofReply reply) unshared t d = .error e) :
    (∃ c ∈ t.children d, visit (.ofReply reply) unshared c.1 c.2 = .error e) ∨
      ∃ u, Rebuilt (Visited (.ofReply reply)) t d u ∧ reply u d = .error e := by
  cases t with
  | var x i => exact .inr ⟨_, .var, offer_error h⟩
  | global x => exact .inr ⟨_, .global, offer_error h⟩
  | univ u => exact .inr ⟨_, .univ, offer_error h⟩
  | product ps r =>
    simp only [visit, leave_ofReply, times_pure, pure_bind, bind_eq_error_iff] at h
    rcases h with h | ⟨_, hps, h | ⟨_, hr, h⟩⟩
    · obtain ⟨c, hc, h⟩ := visitParams_error h
      exact .inl ⟨c, List.mem_append_left _ hc, h⟩
    · exact .inl ⟨(r, _), by simp [children], h⟩
    · exact .inr ⟨_, .product (visitParams_returns hps) ⟨_, hr, rfl⟩, offer_error h⟩
  | lambda ps b =>
    simp only [visit, leave_ofReply, times_pure, pure_bind, bind_eq_error_iff] at h
    rcases h with h | ⟨_, hps, h | ⟨_, hb, h⟩⟩
    · obtain ⟨c, hc, h⟩ := visitParams_error h
      exact .inl ⟨c, List.mem_append_left _ hc, h⟩
    · exact .inl ⟨(b, _), by simp [children], h⟩
    · exact .inr ⟨_, .lambda (visitParams_returns hps) ⟨_, hb, rfl⟩, offer_error h⟩
  | letIn x v ty b =>
    simp only [visit, enter_ofReply, leave_ofReply, pure_bind, bind_eq_error_iff] at h
    rcases h with h | ⟨_, hv, h | ⟨_, hty, h | ⟨_, hb, h⟩⟩⟩
    · exact .inl ⟨(v, d), by simp [children], h⟩
    · exact .inl ⟨(ty, d), by simp [children], h⟩
    · exact .inl ⟨(b, d + 1), by simp [children], h⟩
    · exact .inr ⟨_, .letIn ⟨_, hv, rfl⟩ ⟨_, hty, rfl⟩ ⟨_, hb, rfl⟩, offer_error h⟩
  | apply f as =>
    obtain ⟨a, as⟩ := as
    simp only [visit, bind_eq_error_iff] at h
    rcases h with h | ⟨_, hf, h | ⟨_, ha, h | ⟨_, has, h⟩⟩⟩
    · exact .inl ⟨(f, d), by simp [children], h⟩
    · exact .inl ⟨(a, d), by simp [children], h⟩
    · obtain ⟨b, hb, h⟩ := visitTerms_error h
      exact .inl ⟨(b, d), by simp [children, hb], h⟩
    · exact .inr ⟨_, .apply ⟨_, hf, rfl⟩ (.cons ⟨_, ha, rfl⟩ (visitTerms_returns has)),
        offer_error h⟩
  | cast u k ty =>
    simp only [visit, bind_eq_error_iff] at h
    rcases h with h | ⟨_, hu, h | ⟨_, hty, h⟩⟩
    · exact .inl ⟨(u, d), by simp [children], h⟩
    · exact .inl ⟨(ty, d), by simp [children], h⟩
    · exact .inr ⟨_, .cast ⟨_, hu, rfl⟩ ⟨_, hty, rfl⟩, offer_error h⟩
  | caseOf p s bs =>
    simp only [visit, enter_ofReply, leave_ofReply, pure_bind, bind_eq_error_iff] at h
    rcases h with h | ⟨_, hs, h | ⟨_, hp, h | ⟨_, hbs, h⟩⟩⟩
    · exact .inl ⟨(s, d), by simp [children], h⟩
    · exact .inl ⟨(p, d + 1), by simp [children], h⟩
    · obtain ⟨b, hb, h⟩ := visitBranches_error h
      refine .inl ⟨(b.body, d + b.arity), ?_, h⟩
      simp only [children, List.mem_cons, List.mem_map]
      exact .inr (.inr ⟨b, hb, rfl⟩)
    · exact .inr ⟨_, .caseOf ⟨_, hp, rfl⟩ ⟨_, hs, rfl⟩ (visitBranches_returns hbs), offer_error h⟩
  | fix i b =>
    obtain ⟨l, fs⟩ := b
    simp only [visit, enterFunctions_ofReply, leave_ofReply, times_pure, pure_bind] at h
    rcases bind_eq_error_iff.1 h with h | ⟨b', hb', h⟩
    · have hfs := unshared_error h
      simp only [bind_eq_error_iff] at hfs
      rcases hfs with hfs | ⟨_, _, hfs⟩
      · obtain ⟨f, hf, c, hc, h⟩ := visitFunctions_error hfs
        refine .inl ⟨c, ?_, h⟩
        simp only [children, Bundle.size, List.mem_flatMap]
        exact ⟨f, hf, hc⟩
      · cases hfs
    · refine .inr ⟨_, ?_, offer_error h⟩
      obtain ⟨fs', hfs, hcases⟩ := unshared_returns (returns_except.2 hb')
      simp only [returns_bind, returns_pure] at hfs
      obtain ⟨gs, hgs, rfl⟩ := hfs
      have hrebuilt := visitFunctions_returns hgs
      rcases hcases with ⟨rfl, rfl⟩ | ⟨fs'', l', rfl, rfl⟩
      · exact .fix hrebuilt
      · exact .fix hrebuilt

end Traversal

/-- Whether `y` gives whatever `x` gives. -/
def Outlasts {ε α : Type} (y x : Except ε α) : Prop := ∀ a, x = .ok a → y = .ok a

def outlasting (ε : Type) : Correspondence (Except ε) (Except ε) where
  Holds y x := Outlasts y x
  pure _ _ h := h
  bind hyx hgf b h := by
    obtain ⟨a, ha, hb⟩ := bind_eq_ok_iff.1 h
    exact bind_eq_ok_iff.2 ⟨a, hyx a ha, hgf a b hb⟩

/-- With more replies a traversal gives what it gave. -/
theorem Traversal.visit_outlasts {ε : Type} {reply reply' : Term → Nat → Except ε (Option Term)}
    (hreply : ∀ t d, Outlasts (reply' t d) (reply t d)) (t : Term) (d : Nat) :
    Outlasts (visit (.ofReply reply') unshared t d) (visit (.ofReply reply) unshared t d) :=
  visit_corresponds (C := outlasting ε) (Correspondence.ofVisitors_ofReply hreply)
    (unshared_corresponds fun _ h => h) t fun _ _ _ => hreply _ _

end InductiveTerms
