import InductiveTerms.Text.Replace
import Mathlib.Data.List.Infix

/-!
What replacing a piece of text does. The occurrences of the piece are found from the left and do
not overlap (`Replaced`). Letters that are no part of the piece stay, and so does another piece that
opens with the same letter and repeats it nowhere (`Replaced.infix_of_infix`).
-/
namespace InductiveTerms.Text
variable {α : Type}

/-- What replacing a piece makes of a text, by where the piece stands in it. -/
inductive Replaced (piece new : List α) : List α → List α → Prop
  | nil : Replaced piece new [] []
  | piece {s t : List α} : Replaced piece new s t → Replaced piece new (piece ++ s) (new ++ t)
  | other {a : α} {s t : List α} : ¬ piece <+: a :: s → Replaced piece new s t →
      Replaced piece new (a :: s) (a :: t)

section ReplaceFrom
variable [BEq α] {piece new : List α}

theorem replaceFrom_skip (u s : List α) :
    replaceFrom piece new u.length (u ++ s) = replaceFrom piece new 0 s := by
  induction u with
  | nil => rfl
  | cons a u ih => exact ih

variable [LawfulBEq α]

theorem replaceFrom_append (h : piece ≠ []) (s : List α) :
    replaceFrom piece new 0 (piece ++ s) = new ++ replaceFrom piece new 0 s := by
  cases piece with
  | nil => exact absurd rfl h
  | cons a piece =>
    have hfront : (a :: piece).isPrefixOf (a :: (piece ++ s)) :=
      List.isPrefixOf_iff_prefix.2 (List.prefix_append (a :: piece) s)
    rw [List.cons_append, replaceFrom, if_pos hfront]
    exact congrArg (new ++ ·) (replaceFrom_skip piece s)

theorem replaceFrom_cons {a : α} {s : List α} (h : ¬ piece <+: a :: s) :
    replaceFrom piece new 0 (a :: s) = a :: replaceFrom piece new 0 s := by
  rw [replaceFrom, if_neg (by rwa [List.isPrefixOf_iff_prefix])]

theorem replaced_replaceFrom (h : piece ≠ []) (s : List α) :
    Replaced piece new s (replaceFrom piece new 0 s) := by
  induction hn : s.length using Nat.strongRecOn generalizing s with
  | _ n ih =>
    cases s with
    | nil => exact .nil
    | cons a s =>
      by_cases hfront : piece <+: a :: s
      · obtain ⟨rest, hrest⟩ := hfront
        have hlength := congrArg List.length hrest
        rw [List.length_append, hn] at hlength
        have hpiece := List.length_pos_iff.2 h
        rw [← hrest, replaceFrom_append h]
        exact .piece (ih rest.length (by omega) rest rfl)
      · rw [replaceFrom_cons hfront]
        exact .other hfront (ih s.length (by simp [← hn]) s rfl)

theorem Replaced.eq_replaceFrom {s t : List α} (h : Replaced piece new s t) (hpiece : piece ≠ []) :
    t = replaceFrom piece new 0 s := by
  induction h with
  | nil => rfl
  | piece _ ih => rw [replaceFrom_append hpiece, ← ih]
  | other hfront _ ih => rw [replaceFrom_cons hfront, ← ih]

theorem occursIn_iff {s : List α} : occursIn piece s ↔ piece <:+: s := by
  induction s with
  | nil => simp [occursIn]
  | cons a s ih => simp [occursIn, ih, List.infix_cons_iff]

end ReplaceFrom

namespace Replaced
variable {piece new s t : List α}

/-- What is put in is there if the piece was. -/
theorem mem_of_infix (h : Replaced piece new s t) (hpiece : piece ≠ []) (hs : piece <:+: s) {a : α}
    (ha : a ∈ new) : a ∈ t := by
  induction h with
  | nil => exact absurd (List.infix_nil.1 hs) hpiece
  | piece => exact List.mem_append_left _ ha
  | other hfront _ ih =>
    rcases List.infix_cons_iff.1 hs with hs | hs
    · exact absurd hs hfront
    · exact List.mem_cons_of_mem _ (ih hs)

/-- What is no part of the piece stays. -/
theorem mem_of_mem (h : Replaced piece new s t) {a : α} (hpiece : a ∉ piece) (ha : a ∈ s) :
    a ∈ t := by
  induction h with
  | nil => exact ha
  | piece _ ih =>
    rcases List.mem_append.1 ha with ha | ha
    · exact absurd ha hpiece
    · exact List.mem_append_right _ (ih ha)
  | other _ _ ih =>
    rcases List.mem_cons.1 ha with rfl | ha
    · exact List.mem_cons_self
    · exact List.mem_cons_of_mem _ (ih ha)

theorem mem_or_mem (h : Replaced piece new s t) {a : α} (ha : a ∈ t) : a ∈ s ∨ a ∈ new := by
  induction h with
  | nil => exact .inl ha
  | piece _ ih =>
    rcases List.mem_append.1 ha with ha | ha
    · exact .inr ha
    · exact (ih ha).imp_left (List.mem_append_right _)
  | other _ _ ih =>
    rcases List.mem_cons.1 ha with rfl | ha
    · exact .inl List.mem_cons_self
    · exact (ih ha).imp_left (List.mem_cons_of_mem _)

/-- Nothing is replaced in a beginning where the piece does not occur. -/
theorem append_left {u : List α} (h : Replaced piece new s t)
    (hu : ∀ x y, u ++ s = x ++ piece ++ y → u.length ≤ x.length) :
    Replaced piece new (u ++ s) (u ++ t) := by
  induction u with
  | nil => exact h
  | cons a u ih =>
    refine .other (fun ⟨y, hy⟩ => ?_) (ih fun x y hxy => ?_)
    · have := hu [] y hy.symm
      simp at this
    · have := hu (a :: x) y (by simp [hxy])
      simpa using this

end Replaced

section Survival
variable {o : α} {p q new s t : List α}

theorem Replaced.prefix_kept (h : Replaced (o :: p) new s t) (hq : o ∉ q) (hs : q <+: s) :
    q <+: t := by
  induction h generalizing q with
  | nil => exact hs
  | piece _ _ =>
    cases q with
    | nil => exact List.nil_prefix
    | cons a q => exact absurd (List.cons_prefix_cons.1 hs).1 (fun h => hq (h ▸ List.mem_cons_self))
  | other _ _ ih =>
    cases q with
    | nil => exact List.nil_prefix
    | cons a q =>
      obtain ⟨rfl, hrest⟩ := List.cons_prefix_cons.1 hs
      exact List.cons_prefix_cons.2 ⟨rfl, ih (fun h => hq (List.mem_cons_of_mem _ h)) hrest⟩

theorem infix_of_infix_append (hp : o ∉ p) (h : o :: q <:+: p ++ s) : o :: q <:+: s := by
  induction p with
  | nil => exact h
  | cons a p ih =>
    rcases List.infix_cons_iff.1 h with h | h
    · exact absurd (List.cons_prefix_cons.1 h).1 (fun h => hp (h ▸ List.mem_cons_self))
    · exact ih (fun h => hp (List.mem_cons_of_mem _ h)) h

/-- Two pieces that both open with a letter that they do not repeat do not overlap, so one stays
where the other is replaced. -/
theorem Replaced.infix_of_infix (h : Replaced (o :: p) new s t) (hp : o ∉ p) (hq : o ∉ q)
    (hpq : ¬ p <+: q) (hqp : ¬ q <+: p) (hs : o :: q <:+: s) : o :: q <:+: t := by
  induction h with
  | nil => exact hs
  | @piece s t _ ih =>
    rcases List.infix_cons_iff.1 hs with hs | hs
    · have hboth := List.prefix_or_prefix_of_prefix (List.cons_prefix_cons.1 hs).2
        (List.prefix_append p s)
      exact absurd hboth (not_or.2 ⟨hqp, hpq⟩)
    · exact (ih (infix_of_infix_append hp hs)).trans (List.suffix_append _ _).isInfix
  | other _ hst ih =>
    rcases List.infix_cons_iff.1 hs with hs | hs
    · obtain ⟨rfl, hrest⟩ := List.cons_prefix_cons.1 hs
      exact (List.cons_prefix_cons.2 ⟨rfl, hst.prefix_kept hq hrest⟩).isInfix
    · exact (ih hs).trans (List.suffix_cons _ _).isInfix

end Survival

end InductiveTerms.Text
