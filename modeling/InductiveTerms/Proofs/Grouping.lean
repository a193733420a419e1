import InductiveTerms.Proofs.Conversion

/-!
A model of terms in which the grouping of arguments shows. A term accepts spines, which list the
arguments that it gets group by group; of every argument a spine tells some spines that it accepts.
What a term accepts is kept by the rules that contract (`Same.of_convertible`), but a variable may
accept two arguments in one group and not one after the other (`not_convertible_regrouped`).
-/
namespace InductiveTerms.Grouping
open Term

/-- An argument, of which some spines are known that it accepts, or the end of a group. -/
inductive Frame where
  | arg (spines : List (List Frame))
  | close

abbrev Spine : Type := List Frame

/-- Some spines that something accepts. -/
abbrev Sample : Type := List Spine

def group (αs : List Sample) (S : Spine) : Spine := αs.map .arg ++ .close :: S

/-- Takes `n` arguments, if there are so many, and the end of the last group if it comes next. -/
def feed : Nat → Spine → Option (List Sample × Spine)
  | 0, .close :: S => some ([], S)
  | 0, S => some ([], S)
  | n + 1, .close :: S => feed (n + 1) S
  | n + 1, .arg α :: S => (feed n S).map fun (αs, T) => (α :: αs, T)
  | _ + 1, [] => none

/-- What variables accept when the first ones accept what is listed. -/
def bound (αs : List Sample) (ρ : Nat → Sample) (j : Nat) : Sample :=
  if h : j < αs.length then αs[j] else ρ (j - αs.length)

/-- Whether a term accepts a spine when its variables accept those given. -/
inductive Accepts : Term → (Nat → Sample) → Spine → Prop
  | var {x : String} {i : Nat} {ρ : Nat → Sample} {S : Spine} : S ∈ ρ i → Accepts (.var x i) ρ S
  | lambda {ps : List (Param Term)} {b : Term} {ρ : Nat → Sample} {αs : List Sample} {S T : Spine} :
      feed ps.length S = some (αs, T) → Accepts b (bound αs.reverse ρ) T →
        Accepts (.lambda ps b) ρ S
  | letIn {x : Option String} {v t b : Term} {ρ : Nat → Sample} {α : Sample} {S : Spine} :
      (∀ T ∈ α, Accepts v ρ T) → Accepts b (bound [α] ρ) S → Accepts (.letIn x v t b) ρ S
  | apply {f : Term} {as : Arguments Term} {ρ : Nat → Sample} {αs : List Sample} {S : Spine} :
      as.toList.length = αs.length →
        (∀ a α, (a, α) ∈ as.toList.zip αs → ∀ T ∈ α, Accepts a ρ T) →
          Accepts f ρ (group αs S) → Accepts (.apply f as) ρ S
  | cast {t ty : Term} {k : CastKind} {ρ : Nat → Sample} {S : Spine} :
      Accepts t ρ S → Accepts (.cast t k ty) ρ S
  | caseOf {p s : Term} {bs : List (Branch Term)} {b : Branch Term} {ρ : Nat → Sample} {S : Spine} :
      b ∈ bs → Accepts b.body (bound (List.replicate b.arity []) ρ) S → Accepts (.caseOf p s bs) ρ S

/-- Whether a term accepts all spines of a sample. -/
def AcceptsAll (ρ : Nat → Sample) (t : Term) (α : Sample) : Prop := ∀ T ∈ α, Accepts t ρ T

section Nodes
variable {ρ : Nat → Sample} {S : Spine}

theorem accepts_var {x : String} {i : Nat} : Accepts (.var x i) ρ S ↔ S ∈ ρ i := by
  constructor
  · intro h
    cases h with
    | var h => exact h
  · exact .var

theorem accepts_lambda {ps : List (Param Term)} {b : Term} :
    Accepts (.lambda ps b) ρ S ↔
      ∃ αs T, feed ps.length S = some (αs, T) ∧ Accepts b (bound αs.reverse ρ) T := by
  constructor
  · intro h
    cases h with
    | lambda hfeed hb => exact ⟨_, _, hfeed, hb⟩
  · rintro ⟨αs, T, hfeed, hb⟩
    exact .lambda hfeed hb

theorem accepts_letIn {x : Option String} {v t b : Term} :
    Accepts (.letIn x v t b) ρ S ↔ ∃ α, AcceptsAll ρ v α ∧ Accepts b (bound [α] ρ) S := by
  constructor
  · intro h
    cases h with
    | letIn hv hb => exact ⟨_, hv, hb⟩
  · rintro ⟨α, hv, hb⟩
    exact .letIn hv hb

theorem accepts_apply {f : Term} {as : Arguments Term} :
    Accepts (.apply f as) ρ S ↔
      ∃ αs, List.Forall₂ (AcceptsAll ρ) as.toList αs ∧ Accepts f ρ (group αs S) := by
  constructor
  · intro h
    cases h with
    | apply hlen has hf => exact ⟨_, List.forall₂_iff_zip.2 ⟨hlen, fun h => has _ _ h⟩, hf⟩
  · rintro ⟨αs, has, hf⟩
    obtain ⟨hlen, has⟩ := List.forall₂_iff_zip.1 has
    exact .apply hlen (fun a α h => has h) hf

theorem accepts_cast {t ty : Term} {k : CastKind} :
    Accepts (.cast t k ty) ρ S ↔ Accepts t ρ S := by
  constructor
  · intro h
    cases h with
    | cast h => exact h
  · exact .cast

theorem accepts_caseOf {p s : Term} {bs : List (Branch Term)} :
    Accepts (.caseOf p s bs) ρ S ↔
      ∃ b ∈ bs, Accepts b.body (bound (List.replicate b.arity []) ρ) S := by
  constructor
  · intro h
    cases h with
    | caseOf hb h => exact ⟨_, hb, h⟩
  · rintro ⟨b, hb, h⟩
    exact .caseOf hb h

end Nodes

section Feeding

theorem feed_length {n : Nat} {S T : Spine} {αs : List Sample} (h : feed n S = some (αs, T)) :
    αs.length = n := by
  induction S generalizing n αs with
  | nil =>
    cases n with
    | zero =>
      obtain ⟨rfl, -⟩ := Prod.mk.inj (Option.some.inj h)
      rfl
    | succ n => cases h
  | cons frame S ih =>
    cases n with
    | zero =>
      cases frame <;>
      · obtain ⟨rfl, -⟩ := Prod.mk.inj (Option.some.inj h)
        rfl
    | succ n =>
      cases frame with
      | close => exact ih h
      | arg α =>
        obtain ⟨⟨βs, U⟩, hβs, heq⟩ := Option.map_eq_some_iff.1 h
        obtain ⟨rfl, rfl⟩ := Prod.mk.inj heq
        rw [List.length_cons, ih hβs]

/-- What a function of `n` arguments gets from a spine, where one without arguments gets all. -/
def intake : Nat → Spine → Option (List Sample × Spine)
  | 0, S => some ([], S)
  | n + 1, S => feed (n + 1) S

/-- A spine with one more group in front, unless the group is empty. -/
def give : List Sample → Spine → Spine
  | [], S => S
  | α :: αs, S => group (α :: αs) S

/-- A function takes what it can from a group and the rest from what follows. -/
theorem feed_group (αs : List Sample) :
    ∀ (n : Nat) (S : Spine), feed n (group αs S) =
      (intake (n - αs.length) (give (αs.drop n) S)).map fun (βs, T) => (αs.take n ++ βs, T) := by
  induction αs with
  | nil =>
    intro n S
    cases n with
    | zero => rfl
    | succ n =>
      simp only [List.length_nil, Nat.sub_zero, List.drop_nil, List.take_nil, List.nil_append]
      exact Option.map_id'.symm
  | cons α αs ih =>
    intro n S
    cases n with
    | zero => simp [group, feed, intake, give]
    | succ n =>
      have hrest : feed (n + 1) (group (α :: αs) S) =
          (feed n (group αs S)).map fun (βs, T) => (α :: βs, T) := rfl
      rw [hrest, ih, Option.map_map, List.length_cons, Nat.add_sub_add_right]
      rfl

end Feeding

section Environments
variable {ρ ρ' : Nat → Sample} {αs : List Sample}

theorem bound_of_lt {j : Nat} (h : j < αs.length) : bound αs ρ j = αs[j] := dif_pos h

theorem bound_of_le {j : Nat} (h : αs.length ≤ j) : bound αs ρ j = ρ (j - αs.length) :=
  dif_neg (Nat.not_lt.2 h)

theorem bound_nil (ρ : Nat → Sample) : bound [] ρ = ρ :=
  funext fun j => bound_of_le (Nat.zero_le j)

theorem bound_bound (αs βs : List Sample) (ρ : Nat → Sample) :
    bound αs (bound βs ρ) = bound (αs ++ βs) ρ := by
  funext j
  rcases Nat.lt_or_ge j αs.length with h | h
  · rw [bound_of_lt h, bound_of_lt (by rw [List.length_append]; omega), List.getElem_append_left h]
  · rw [bound_of_le h]
    rcases Nat.lt_or_ge j (αs ++ βs).length with h' | h'
    · rw [bound_of_lt h', List.getElem_append_right h, bound_of_lt]
    · rw [bound_of_le h', bound_of_le (by rw [List.length_append] at h'; omega),
        List.length_append, Nat.sub_sub]

theorem bound_mono (h : ∀ j, ρ j ⊆ ρ' j) (j : Nat) : bound αs ρ j ⊆ bound αs ρ' j := by
  rcases Nat.lt_or_ge j αs.length with hlt | hle
  · rw [bound_of_lt hlt, bound_of_lt hlt]
    exact List.Subset.refl _
  · rw [bound_of_le hle, bound_of_le hle]
    exact h _

/-- What a term accepts it still does when its variables accept more. -/
theorem Accepts.mono {t : Term} {S : Spine} (h : Accepts t ρ S) :
    ∀ {ρ'}, (∀ j, ρ j ⊆ ρ' j) → Accepts t ρ' S := by
  induction h with
  | var h =>
    intro ρ' hle
    exact .var (hle _ h)
  | lambda hfeed _ ih =>
    intro ρ' hle
    exact .lambda hfeed (ih (bound_mono hle))
  | letIn _ _ ihv ih =>
    intro ρ' hle
    exact .letIn (fun T hT => ihv T hT hle) (ih (bound_mono hle))
  | apply hlen _ _ ihs ih =>
    intro ρ' hle
    exact .apply hlen (fun a α h T hT => ihs a α h T hT hle) (ih hle)
  | cast _ ih =>
    intro ρ' hle
    exact .cast (ih hle)
  | caseOf hb _ ih =>
    intro ρ' hle
    exact .caseOf hb (ih (bound_mono hle))

theorem forall₂_congr_mem {α β : Type} {R R' : α → β → Prop} {as : List α} {bs : List β}
    (h : ∀ a ∈ as, ∀ b, R a b ↔ R' a b) : List.Forall₂ R as bs ↔ List.Forall₂ R' as bs := by
  simp only [List.forall₂_iff_zip]
  exact and_congr_right fun _ =>
    ⟨fun hR a b hab => (h a (List.of_mem_zip hab).1 b).1 (hR hab),
      fun hR a b hab => (h a (List.of_mem_zip hab).1 b).2 (hR hab)⟩

/-- A renaming under `n` binders. -/
def under (n : Nat) (f : Nat → Nat) (j : Nat) : Nat := if j < n then j else f (j - n) + n

theorem lift_var (n : Nat) (f : Nat → Nat) :
    lift n (fun j => .var "" (f j)) = fun j => .var "" (under n f j) := by
  funext j
  rw [lift, under]
  split
  · rfl
  · exact raise_var _ _ _

theorem bound_under {n : Nat} (αs : List Sample) (f : Nat → Nat) (h : αs.length = n) :
    (fun j => bound αs ρ (under n f j)) = bound αs fun j => ρ (f j) := by
  subst h
  funext j
  unfold under
  split
  · next hlt => rw [bound_of_lt hlt, bound_of_lt hlt]
  · next hle =>
    rw [bound_of_le (Nat.le_add_left _ _), bound_of_le (Nat.not_lt.1 hle), Nat.add_sub_cancel]

/-- A renamed term accepts what the term does when its variables accept what the new ones do. -/
theorem accepts_rename (t : Term) : ∀ {f : Nat → Nat} {ρ : Nat → Sample} {S : Spine},
    Accepts (t.bind fun j => .var "" (f j)) ρ S ↔ Accepts t (fun j => ρ (f j)) S := by
  induction t using induct_children with
  | node t ih =>
    intro f ρ S
    cases t with
    | var x i =>
      rw [bind_var, raise_var, Nat.add_zero, accepts_var, accepts_var]
    | lambda ps b =>
      simp only [bind_lambda, accepts_lambda, length_bindParams, lift_var]
      refine exists_congr fun αs => exists_congr fun T => and_congr_right fun hfeed => ?_
      rw [← bound_under αs.reverse f (by rw [List.length_reverse, feed_length hfeed])]
      exact ih 0 (b, 0 + ps.length) (by simp [children])
    | letIn x v ty b =>
      simp only [bind_letIn, accepts_letIn, lift_var]
      refine exists_congr fun α => and_congr ?_ ?_
      · exact forall₂_congr fun T _ => ih 0 (v, 0) (by simp [children])
      · rw [← bound_under [α] f rfl]
        exact ih 0 (b, 1) (by simp [children])
    | apply g as =>
      simp only [bind_apply, accepts_apply, Arguments.toList_map, List.forall₂_map_left_iff]
      refine exists_congr fun αs => and_congr ?_ (ih 0 (g, 0) (by simp [children]))
      exact forall₂_congr_mem fun a ha α => forall₂_congr fun T _ =>
        ih 0 (a, 0) (by simp [children, ha])
    | cast u k ty =>
      rw [bind_cast, accepts_cast, accepts_cast]
      exact ih 0 (u, 0) (by simp [children])
    | caseOf p s bs =>
      simp only [bind_caseOf, accepts_caseOf, List.mem_map, exists_exists_and_eq_and, lift_var]
      refine exists_congr fun b => and_congr_right fun hb => ?_
      rw [← bound_under _ f List.length_replicate]
      exact ih 0 (b.body, 0 + b.arity)
        (List.mem_cons_of_mem _ (List.mem_cons_of_mem _ (List.mem_map_of_mem hb)))
    | _ =>
      rw [bind_eq rfl]
      constructor <;> intro h <;> cases h

theorem accepts_raise (t : Term) {n : Nat} (h : αs.length = n) {S : Spine} :
    Accepts (t.raise n) (bound αs ρ) S ↔ Accepts t ρ S := by
  have hρ : (fun j => bound αs ρ (j + n)) = ρ := by
    funext j
    rw [← h, bound_of_le (Nat.le_add_left _ _), Nat.add_sub_cancel]
  rw [raise_eq_bind, accepts_rename t, hρ]

end Environments

/-- Whether the terms put for variables accept what the variables do. -/
def Supports (σ : Nat → Term) (ρ ρ' : Nat → Sample) : Prop := ∀ j, AcceptsAll ρ (σ j) (ρ' j)

section Binding
variable {σ : Nat → Term} {ρ : Nat → Sample}

/-- What holds of what variables accept, and goes on to hold when they accept more. -/
def Growing (P : (Nat → Sample) → Prop) : Prop :=
  ∀ ρ ρ' : Nat → Sample, (∀ j, ρ j ⊆ ρ' j) → P ρ → P ρ'

theorem AcceptsAll.growing (t : Term) (α : Sample) : Growing (AcceptsAll · t α) :=
  fun _ _ hle h T hT => (h T hT).mono hle

/-- What holds when variables accept one thing and what holds when they accept another both hold
when they accept either. -/
theorem exists_supports_and {P Q : (Nat → Sample) → Prop} (hP : Growing P) (hQ : Growing Q) :
    (∃ ρ', Supports σ ρ ρ' ∧ P ρ' ∧ Q ρ') ↔
      (∃ ρ', Supports σ ρ ρ' ∧ P ρ') ∧ ∃ ρ', Supports σ ρ ρ' ∧ Q ρ' := by
  constructor
  · rintro ⟨ρ', hρ', hp, hq⟩
    exact ⟨⟨ρ', hρ', hp⟩, ρ', hρ', hq⟩
  · rintro ⟨⟨ρ₁, hρ₁, hp⟩, ρ₂, hρ₂, hq⟩
    refine ⟨fun j => ρ₁ j ++ ρ₂ j, fun j T hT => ?_, ?_, ?_⟩
    · rcases List.mem_append.1 hT with hT | hT
      · exact hρ₁ j T hT
      · exact hρ₂ j T hT
    · exact hP _ _ (fun j => List.subset_append_left _ _) hp
    · exact hQ _ _ (fun j => List.subset_append_right _ _) hq

theorem exists_supports_and_left {p : Prop} {P : (Nat → Sample) → Prop} :
    (∃ ρ', Supports σ ρ ρ' ∧ p ∧ P ρ') ↔ p ∧ ∃ ρ', Supports σ ρ ρ' ∧ P ρ' := by
  simp only [and_left_comm, exists_and_left]

theorem supports_nil : Supports σ ρ fun _ => [] := fun _ _ hT => (nomatch hT)

theorem exists_supports_all {t : Term} (α : Sample)
    (h : ∀ S, Accepts (t.bind σ) ρ S ↔ ∃ ρ', Supports σ ρ ρ' ∧ Accepts t ρ' S) :
    AcceptsAll ρ (t.bind σ) α ↔ ∃ ρ', Supports σ ρ ρ' ∧ AcceptsAll ρ' t α := by
  induction α with
  | nil => exact ⟨fun _ => ⟨_, supports_nil, fun _ hT => (nomatch hT)⟩, fun _ _ hT => (nomatch hT)⟩
  | cons S α ih =>
    have hsplit : ∀ ρ' u, AcceptsAll ρ' u (S :: α) ↔ Accepts u ρ' S ∧ AcceptsAll ρ' u α :=
      fun _ _ => List.forall_mem_cons
    simp only [hsplit, h, ih]
    exact (exists_supports_and (fun _ _ hle h => h.mono hle) (AcceptsAll.growing t α)).symm

theorem growing_forall₂ (as : List Term) (αs : List Sample) :
    Growing fun ρ => List.Forall₂ (AcceptsAll ρ) as αs :=
  fun _ _ hle h => h.imp fun a α ha => AcceptsAll.growing a α _ _ hle ha

theorem exists_supports_forall₂ {as : List Term} (αs : List Sample)
    (h : ∀ a ∈ as, ∀ S, Accepts (a.bind σ) ρ S ↔ ∃ ρ', Supports σ ρ ρ' ∧ Accepts a ρ' S) :
    List.Forall₂ (AcceptsAll ρ) (as.map (·.bind σ)) αs ↔
      ∃ ρ', Supports σ ρ ρ' ∧ List.Forall₂ (AcceptsAll ρ') as αs := by
  induction as generalizing αs with
  | nil =>
    rw [List.map_nil, List.forall₂_nil_left_iff]
    simp only [List.forall₂_nil_left_iff, exists_and_right]
    exact ⟨fun h => ⟨⟨_, supports_nil⟩, h⟩, fun h => h.2⟩
  | cons a as ih =>
    simp only [List.forall_mem_cons] at h
    cases αs with
    | nil => simp
    | cons α αs =>
      simp only [List.map_cons, List.forall₂_cons, exists_supports_all α h.1, ih αs h.2]
      exact (exists_supports_and (AcceptsAll.growing a α) (growing_forall₂ as αs)).symm

/-- Binding under binders that accept what is listed. -/
theorem exists_supports_lift {αs : List Sample} {n : Nat} (hlen : αs.length = n) {t : Term}
    {S : Spine} :
    (∃ ρ', Supports (lift n σ) (bound αs ρ) ρ' ∧ Accepts t ρ' S) ↔
      ∃ ρ', Supports σ ρ ρ' ∧ Accepts t (bound αs ρ') S := by
  constructor
  · rintro ⟨ρ', hρ', h⟩
    refine ⟨fun j => ρ' (j + n), fun j T hT => ?_, h.mono fun j T hT => ?_⟩
    · have hraised := hρ' (j + n) T hT
      rw [lift_of_le (Nat.le_add_left n j), Nat.add_sub_cancel, accepts_raise _ hlen] at hraised
      exact hraised
    · rcases Nat.lt_or_ge j n with hlt | hle
      · have hvar := hρ' j T hT
        rw [lift_of_lt hlt, accepts_var, bound_of_lt (hlen ▸ hlt)] at hvar
        rwa [bound_of_lt (hlen ▸ hlt)]
      · rwa [bound_of_le (hlen ▸ hle), hlen, Nat.sub_add_cancel hle]
  · rintro ⟨ρ', hρ', h⟩
    refine ⟨bound αs ρ', fun j T hT => ?_, h⟩
    rcases Nat.lt_or_ge j n with hlt | hle
    · rw [bound_of_lt (hlen ▸ hlt)] at hT
      rw [lift_of_lt hlt, accepts_var, bound_of_lt (hlen ▸ hlt)]
      exact hT
    · rw [bound_of_le (hlen ▸ hle), hlen] at hT
      rw [lift_of_le hle, accepts_raise _ hlen]
      exact hρ' _ T hT

theorem exists_supports_exists {ι : Type} {P : ι → (Nat → Sample) → Prop} :
    (∃ i, ∃ ρ', Supports σ ρ ρ' ∧ P i ρ') ↔ ∃ ρ', Supports σ ρ ρ' ∧ ∃ i, P i ρ' := by
  constructor
  · rintro ⟨i, ρ', hρ', h⟩
    exact ⟨ρ', hρ', i, h⟩
  · rintro ⟨ρ', hρ', i, h⟩
    exact ⟨i, ρ', hρ', h⟩

/-- A bound term accepts what the term does when its variables accept what was put for them. -/
theorem accepts_bind (t : Term) : ∀ {σ ρ S},
    Accepts (t.bind σ) ρ S ↔ ∃ ρ', Supports σ ρ ρ' ∧ Accepts t ρ' S := by
  induction t using induct_children with
  | node t ih =>
    intro σ ρ S
    cases t with
    | var x i =>
      simp only [bind_var, accepts_var]
      have hraise : Accepts ((σ i).raise 0) (bound [] ρ) S ↔ Accepts (σ i) ρ S :=
        accepts_raise (σ i) List.length_nil
      rw [bound_nil] at hraise
      rw [hraise]
      constructor
      · intro h
        refine ⟨fun j => if j = i then [S] else [], fun j T hT => ?_, by simp⟩
        dsimp only at hT
        split at hT
        · next heq =>
          rw [List.mem_singleton.1 hT, heq]
          exact h
        · cases hT
      · rintro ⟨ρ', hρ', hS⟩
        exact hρ' i S hS
    | lambda ps b =>
      simp only [bind_lambda, accepts_lambda, length_bindParams]
      simp only [← exists_supports_exists]
      refine exists_congr fun αs => exists_congr fun T => ?_
      rw [exists_supports_and_left]
      refine and_congr_right fun hfeed => ?_
      have hlen : αs.reverse.length = ps.length := by
        rw [List.length_reverse, feed_length hfeed]
      exact (ih 0 (b, 0 + ps.length) (by simp [children])).trans (exists_supports_lift hlen)
    | letIn x v ty b =>
      simp only [bind_letIn, accepts_letIn, ← exists_supports_exists]
      refine exists_congr fun α => ?_
      rw [exists_supports_and (AcceptsAll.growing v α) fun _ _ hle h => h.mono (bound_mono hle)]
      refine and_congr (exists_supports_all α fun T => ih 0 (v, 0) (by simp [children])) ?_
      exact (ih 0 (b, 1) (by simp [children])).trans (exists_supports_lift rfl)
    | apply g as =>
      simp only [bind_apply, accepts_apply, ← exists_supports_exists]
      refine exists_congr fun αs => ?_
      rw [exists_supports_and (growing_forall₂ as.toList αs) fun _ _ hle h => h.mono hle]
      refine and_congr ?_ (ih 0 (g, 0) (by simp [children]))
      rw [Arguments.toList_map]
      refine exists_supports_forall₂ αs fun a ha T => ?_
      exact ih 0 (a, 0) (by simp [children, ha])
    | cast u k ty =>
      simp only [bind_cast, accepts_cast]
      exact ih 0 (u, 0) (by simp [children])
    | caseOf p s bs =>
      simp only [bind_caseOf, accepts_caseOf, List.mem_map, exists_exists_and_eq_and,
        ← exists_supports_exists]
      refine exists_congr fun b => ?_
      rw [exists_supports_and_left]
      refine and_congr_right fun hb => ?_
      have hmem : (b.body, 0 + b.arity) ∈ (Term.caseOf p s bs).children 0 :=
        List.mem_cons_of_mem _ (List.mem_cons_of_mem _ (List.mem_map_of_mem hb))
      exact (ih 0 _ hmem).trans (exists_supports_lift List.length_replicate)
    | _ =>
      rw [bind_eq rfl]
      constructor
      · intro h
        cases h
      · rintro ⟨_, _, h⟩
        cases h

end Binding

section Rules
variable {ρ : Nat → Sample} {S : Spine}

theorem accepts_instantiation (t : Term) (subs : List Term) :
    Accepts (t.bind (instantiation subs)) ρ S ↔
      ∃ αs, List.Forall₂ (AcceptsAll ρ) subs αs ∧ Accepts t (bound αs ρ) S := by
  rw [accepts_bind t]
  constructor
  · rintro ⟨ρ', hρ', h⟩
    refine ⟨(List.range subs.length).map ρ', ?_, h.mono fun j T hT => ?_⟩
    · rw [List.forall₂_iff_get]
      refine ⟨by simp, fun j hj _ => ?_⟩
      have hsub := hρ' j
      rw [instantiation_of_lt hj] at hsub
      simpa using hsub
    · rcases Nat.lt_or_ge j subs.length with hlt | hle
      · rw [bound_of_lt (by simpa using hlt)]
        simpa using hT
      · have hvar := hρ' j T hT
        rw [instantiation_of_le hle, accepts_var] at hvar
        rw [bound_of_le (by simpa using hle)]
        simpa using hvar
  · rintro ⟨αs, hαs, h⟩
    refine ⟨bound αs ρ, fun j T hT => ?_, h⟩
    rcases Nat.lt_or_ge j subs.length with hlt | hle
    · rw [bound_of_lt (hαs.length_eq ▸ hlt)] at hT
      rw [instantiation_of_lt hlt]
      exact (List.forall₂_iff_get.1 hαs).2 j hlt (hαs.length_eq ▸ hlt) T hT
    · rw [bound_of_le (hαs.length_eq ▸ hle), ← hαs.length_eq] at hT
      rw [instantiation_of_le hle, accepts_var]
      exact hT

theorem accepts_applyTo (f : Term) (as : List Term) :
    Accepts (f.applyTo as) ρ S ↔
      ∃ αs, List.Forall₂ (AcceptsAll ρ) as αs ∧ Accepts f ρ (give αs S) := by
  cases as with
  | nil => simp [give]
  | cons a as =>
    rw [applyTo, accepts_apply]
    refine exists_congr fun αs => and_congr_right fun hαs => ?_
    cases hαs
    rfl

theorem accepts_lambdaOver (ps : List (Param Term)) (b : Term) :
    Accepts (lambdaOver ps b) ρ S ↔
      ∃ αs T, intake ps.length S = some (αs, T) ∧ Accepts b (bound αs.reverse ρ) T := by
  cases ps with
  | nil =>
    constructor
    · intro h
      exact ⟨[], S, rfl, by rwa [List.reverse_nil, bound_nil]⟩
    · rintro ⟨αs, T, heq, h⟩
      obtain ⟨rfl, rfl⟩ := Prod.mk.inj (Option.some.inj heq)
      rwa [List.reverse_nil, bound_nil] at h
  | cons p ps => exact accepts_lambda

/-- A function that is applied takes what is there of its arguments. -/
theorem accepts_beta (ps : List (Param Term)) (b : Term) (as : Arguments Term) :
    Accepts (.apply (.lambda ps b) as) ρ S ↔ Accepts (contract ps b as.toList) ρ S := by
  rw [contract, accepts_applyTo]
  simp only [accepts_apply, accepts_lambda, accepts_instantiation, accepts_lambdaOver,
    List.length_drop]
  generalize as.toList = as
  have htake : ∀ αs : List Sample, as.length = αs.length →
      αs.take (min ps.length as.length) = αs.take ps.length := fun αs h => by
    rw [h, ← List.take_eq_take_min]
  have hdrop : ∀ αs : List Sample, as.length = αs.length →
      αs.drop (min ps.length as.length) = αs.drop ps.length := fun αs h => by
    rw [h, ← List.drop_eq_drop_min]
  have hleft : ps.length - min ps.length as.length = ps.length - as.length := by omega
  constructor
  · rintro ⟨αs, hαs, βs, T, hfeed, h⟩
    rw [feed_group, Option.map_eq_some_iff] at hfeed
    obtain ⟨⟨γs, T'⟩, hγs, heq⟩ := hfeed
    obtain ⟨rfl, rfl⟩ := Prod.mk.inj heq
    refine ⟨αs.drop (min ps.length as.length), List.forall₂_drop _ hαs,
      (αs.take (min ps.length as.length)).reverse,
      List.forall₂_reverse_iff.2 (List.forall₂_take _ hαs), γs, T', ?_, ?_⟩
    · rwa [hdrop αs hαs.length_eq, hleft, hαs.length_eq]
    · rwa [bound_bound, htake αs hαs.length_eq, ← List.reverse_append]
  · rintro ⟨αs₂, hαs₂, αs₁, hαs₁, γs, T, hγs, h⟩
    have hall : List.Forall₂ (AcceptsAll ρ) as (αs₁.reverse ++ αs₂) := by
      rw [← List.take_append_drop (min ps.length as.length) as]
      exact List.rel_append (List.forall₂_reverse_iff.1 (by rwa [List.reverse_reverse])) hαs₂
    have hlen : αs₁.reverse.length = min ps.length as.length := by
      rw [List.length_reverse, ← hαs₁.length_eq, List.length_reverse, List.length_take,
        Nat.min_eq_left (Nat.min_le_right _ _)]
    refine ⟨αs₁.reverse ++ αs₂, hall, αs₁.reverse ++ γs, T, ?_, ?_⟩
    · rw [feed_group, ← hall.length_eq, ← hleft, ← hdrop _ hall.length_eq, ← htake _ hall.length_eq,
        List.drop_left' hlen, List.take_left' hlen, hγs]
      rfl
    · rwa [List.reverse_append, List.reverse_reverse, ← bound_bound]

theorem accepts_caseOf_apply (p s : Term) (bs : List (Branch Term)) (as : Arguments Term) :
    Accepts (.apply (.caseOf p s bs) as) ρ S ↔
      Accepts (.caseOf p s (bs.map (distribute as))) ρ S := by
  simp only [accepts_apply, accepts_caseOf, List.mem_map, exists_exists_and_eq_and, distribute,
    Arguments.toList_map, List.forall₂_map_left_iff]
  have hargs : ∀ (b : Branch Term) (αs : List Sample), List.Forall₂
      (fun a α => AcceptsAll (bound (List.replicate b.arity []) ρ) (a.raise b.arity) α)
        as.toList αs ↔ List.Forall₂ (AcceptsAll ρ) as.toList αs := fun b αs =>
    forall₂_congr_mem fun a _ α => forall₂_congr fun T _ => accepts_raise a List.length_replicate
  simp only [hargs]
  constructor
  · rintro ⟨αs, hαs, b, hb, h⟩
    exact ⟨b, hb, αs, hαs, h⟩
  · rintro ⟨b, hb, αs, hαs, h⟩
    exact ⟨αs, hαs, b, hb, h⟩

/-- A rule by which terms contract changes nothing about what they accept. -/
theorem accepts_contraction {t u : Term} (h : Contraction t u) :
    Accepts t ρ S ↔ Accepts u ρ S := by
  cases h with
  | beta => exact accepts_beta _ _ _
  | @letIn x v ty b =>
    rw [accepts_letIn, accepts_instantiation]
    constructor
    · rintro ⟨α, hα, h⟩
      exact ⟨[α], .cons hα .nil, h⟩
    · rintro ⟨αs, hαs, h⟩
      cases hαs with
      | cons hα hnil =>
        cases hnil
        exact ⟨_, hα, h⟩
  | cast => exact accepts_cast
  | caseOf => exact accepts_caseOf_apply _ _ _ _

end Rules

/-- Terms that accept the same spines. -/
def Same (t u : Term) : Prop := ∀ ρ S, Accepts t ρ S ↔ Accepts u ρ S

namespace Same
variable {t u v : Term}

theorem symm (h : Same t u) : Same u t := fun ρ S => (h ρ S).symm

theorem trans (h : Same t u) (h' : Same u v) : Same t v := fun ρ S => (h ρ S).trans (h' ρ S)

theorem forall₂_iff {as as' : List Term} (h : List.Forall₂ Same as as') (ρ : Nat → Sample) :
    ∀ αs, List.Forall₂ (AcceptsAll ρ) as αs ↔ List.Forall₂ (AcceptsAll ρ) as' αs := by
  induction h with
  | nil => exact fun αs => Iff.rfl
  | cons ha _ ih =>
    intro αs
    cases αs with
    | nil => simp
    | cons α αs => simp only [List.forall₂_cons, AcceptsAll, ha ρ _, ih]

theorem exists_branch_iff {bs bs' : List (Branch Term)} {d : Nat}
    (h : List.Forall₂ (RebuiltBranch (fun c _ w => Same c w) d) bs bs') (ρ : Nat → Sample)
    (S : Spine) :
    (∃ b ∈ bs, Accepts b.body (bound (List.replicate b.arity []) ρ) S) ↔
      ∃ b ∈ bs', Accepts b.body (bound (List.replicate b.arity []) ρ) S := by
  induction h with
  | nil => exact Iff.rfl
  | cons hb _ ih => simp only [List.exists_mem_cons_iff, ih, hb.arity, hb.body _ _]

/-- A node whose children accept the same spines as those of another accepts the same as it. -/
theorem node {d : Nat} (h : Rebuilt (fun c _ w => Same c w) t d u) : Same t u := by
  intro ρ S
  cases h with
  | var | global | univ => exact Iff.rfl
  | product | fix => constructor <;> intro h <;> cases h
  | lambda hps hb => simp only [accepts_lambda, hps.length_eq, hb _ _]
  | letIn hv _ hb => simp only [accepts_letIn, AcceptsAll, hv _ _, hb _ _]
  | apply hf has => simp only [accepts_apply, hf _ _, forall₂_iff has ρ]
  | cast ht => simp only [accepts_cast, ht _ _]
  | caseOf _ _ hbs => rw [accepts_caseOf, accepts_caseOf, exists_branch_iff hbs]

theorem bareNode (t : Term) : Same t.bareNode t := by
  intro ρ S
  cases t with
  | var => simp only [Term.bareNode, accepts_var]
  | lambda => simp only [Term.bareNode, accepts_lambda, List.length_map]
  | letIn => simp only [Term.bareNode, accepts_letIn]
  | product | fix => constructor <;> intro h <;> cases h
  | _ => exact Iff.rfl

theorem bare (t : Term) : Same t.bare t := by
  induction t using induct_children with
  | node t ih =>
    have hnode : Rebuilt (fun c _ w => Same c w) (t.mapChildren (fun c _ => c.bare) 0) 0
        (t.mapChildren (fun c _ => c) 0) := .of_children (ih 0)
    rw [mapChildren_id] at hnode
    rw [bare_eq t 0]
    exact (bareNode _).trans (node hnode)

theorem of_bare_eq (h : t.bare = u.bare) : Same t u :=
  (bare t).symm.trans (h ▸ bare u)

/-- Terms that contract to each other accept the same spines. -/
theorem of_convertible (h : Convertible Contraction t u) : Same t u :=
  h Same ⟨of_bare_eq, symm, trans, node⟩ fun _ _ h _ _ => accepts_contraction h

end Same

/-- A variable tells arguments in one group from arguments in two. -/
theorem not_convertible_regrouped (x : String) (i : Nat) (a b : Term) :
    ¬ Convertible Contraction (.applyTo (.applyTo (.var x i) [a]) [b])
      (.applyTo (.var x i) [a, b]) := by
  intro h
  have hiff := Same.of_convertible h (fun _ => [group [[], []] []]) []
  simp only [applyTo_cons, accepts_apply, accepts_var] at hiff
  have hone : List.Forall₂ (AcceptsAll fun _ => [group [[], []] []]) [a, b] [[], []] :=
    .cons (fun _ hT => nomatch hT) (.cons (fun _ hT => nomatch hT) .nil)
  obtain ⟨βs, hβs, αs, hαs, hmem⟩ := hiff.2 ⟨_, hone, List.mem_singleton.2 rfl⟩
  cases hβs with
  | cons _ hnil =>
    cases hnil
    cases hαs with
    | cons _ hnil' =>
      cases hnil'
      simp [group] at hmem

end InductiveTerms.Grouping
