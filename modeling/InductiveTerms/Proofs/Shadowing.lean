import Mathlib.Data.List.Induction
import Mathlib.Data.Nat.BitIndices
import InductiveTerms.Scope

/-!
A scope is the list of its names, in which later names hide earlier ones (`pushMany_shadows`). The
levels in the blocks say for each name how many pushes there were up to the last one of that name;
the sizes of the blocks are the powers of two that add up to the number of pushes, the smallest
first, as each push counts up by one in binary. So a lookup looks into few blocks.
-/
namespace InductiveTerms.Scope
variable {κ : Type} [BEq κ] [Hashable κ]

/-- The number of pushes after the last push of a name, if there is one. -/
def pushesAfter (names : List κ) (name : κ) : Option Nat := names.reverse.findIdx? (· == name)

/-- The level of a name: the first that is found in the blocks. -/
def level? (blocks : List (Block κ)) (name : κ) : Option Nat :=
  blocks.findSome? (·.levels[name]?)

/-- Looks up the level of a name and counts the blocks that are looked into. -/
def probe (name : κ) : List (Block κ) → Option Nat × Nat
  | [] => (none, 0)
  | b :: older =>
      match b.levels[name]? with
      | some level => (some level, 1)
      | none => ((probe name older).1, (probe name older).2 + 1)

theorem probe_eq_level? (name : κ) (blocks : List (Block κ)) :
    (probe name blocks).1 = level? blocks name := by
  induction blocks with
  | nil => rfl
  | cons b older ih =>
    simp only [probe, level?, List.findSome?_cons]
    cases b.levels[name]? with
    | some level => rfl
    | none => exact ih

theorem probe_le_length (name : κ) (blocks : List (Block κ)) :
    (probe name blocks).2 ≤ blocks.length := by
  induction blocks with
  | nil => exact Nat.le_refl 0
  | cons b older ih =>
    simp only [probe, List.length_cons]
    split
    · omega
    · exact Nat.succ_le_succ ih

theorem indexOf?_eq (s : Scope κ) (name : κ) :
    s.indexOf? name = (level? s.blocks name).map (s.depth - ·) := rfl

theorem pushMany_append_singleton (s : Scope κ) (names : List κ) (name : κ) :
    s.pushMany (names ++ [name]) = (s.pushMany names).push name := by
  simp only [pushMany, List.foldl_append, List.foldl_cons, List.foldl_nil]

theorem depth_pushMany (s : Scope κ) (names : List κ) :
    (s.pushMany names).depth = s.depth + names.length := by
  induction names using List.reverseRecOn with
  | nil => rfl
  | append_singleton names name ih =>
    rw [pushMany_append_singleton, depth_push, ih, List.length_append, List.length_singleton,
      Nat.add_assoc]

theorem depth_pushMany_empty (names : List κ) :
    ((empty : Scope κ).pushMany names).depth = names.length :=
  (depth_pushMany empty names).trans (Nat.zero_add _)

section Sizes

/-- The pushes that the blocks hold, one after the other. -/
def sizes (blocks : List (Block κ)) : List Nat := blocks.map (·.pushes)

theorem sum_sizes_absorb (older : List (Block κ)) :
    ∀ newest : Block κ, (sizes (absorb newest older)).sum = newest.pushes + (sizes older).sum := by
  induction older with
  | nil => intro newest; rfl
  | cons b older ih =>
    intro newest
    simp only [absorb]
    split
    · rw [ih]
      simp only [sizes, List.map_cons, List.sum_cons]
      omega
    · simp only [sizes, List.map_cons, List.sum_cons]

/-- Taking in older blocks is a carry: it goes on while there is a block of the size reached. -/
theorem sizes_absorb (older : List (Block κ)) : ∀ {newest : Block κ} {e : Nat} {es : List Nat},
    newest.pushes = 2 ^ e → sizes older = es.map (2 ^ ·) → es.SortedLT → (∀ k ∈ es, e ≤ k) →
      ∃ es' : List Nat, sizes (absorb newest older) = es'.map (2 ^ ·) ∧ es'.SortedLT := by
  induction older with
  | nil =>
    intro newest e es hnewest _ _ _
    exact ⟨[e], by simp only [absorb, sizes, List.map_cons, List.map_nil, hnewest],
      (List.pairwise_singleton _ _).sortedLT⟩
  | cons b older ih =>
    intro newest e es hnewest hsizes hsorted hle
    obtain ⟨k, ks, rfl, hk, hks⟩ := List.map_eq_cons_iff.1 hsizes.symm
    change 2 ^ k = b.pushes at hk
    simp only [List.forall_mem_cons] at hle
    obtain ⟨hlt, hpairwise⟩ := List.pairwise_cons.1 hsorted.pairwise
    simp only [absorb]
    split
    · next habsorbed =>
      have hpow : 2 ^ k ≤ 2 ^ e := by rwa [hk, ← hnewest]
      have heq : k = e := Nat.le_antisymm ((Nat.pow_le_pow_iff_right Nat.one_lt_two).1 hpow) hle.1
      subst heq
      refine ih (e := k + 1) ?_ hks.symm hpairwise.sortedLT hlt
      change newest.pushes + b.pushes = 2 ^ (k + 1)
      rw [hnewest, ← hk, Nat.pow_succ, Nat.mul_two]
    · next hkept =>
      have hne : e ≠ k := by
        rintro rfl
        rw [hnewest, hk] at hkept
        exact hkept (Nat.le_refl _)
      have hek : e < k := Nat.lt_of_le_of_ne hle.1 hne
      refine ⟨e :: k :: ks, ?_, ?_⟩
      · rw [List.map_cons, ← hsizes, ← hnewest]
        rfl
      · refine List.Pairwise.sortedLT (List.pairwise_cons.2 ⟨?_, hsorted.pairwise⟩)
        exact List.forall_mem_cons.2 ⟨hek, fun j hj => hek.trans (hlt j hj)⟩

/-- The blocks count the pushes in binary. -/
theorem sizes_pushMany (names : List κ) :
    sizes ((empty : Scope κ).pushMany names).blocks = names.length.bitIndices.map (2 ^ ·) := by
  have hsum : ∀ names : List κ, (sizes (empty.pushMany names).blocks).sum = names.length := by
    intro names
    induction names using List.reverseRecOn with
    | nil => rfl
    | append_singleton names name ih =>
      rw [pushMany_append_singleton, push, sum_sizes_absorb, ih, List.length_append,
        List.length_singleton, Nat.add_comm]
  have hpowers : ∃ es : List Nat,
      sizes ((empty : Scope κ).pushMany names).blocks = es.map (2 ^ ·) ∧ es.SortedLT := by
    induction names using List.reverseRecOn with
    | nil => exact ⟨[], rfl, List.Pairwise.nil.sortedLT⟩
    | append_singleton names name ih =>
      obtain ⟨es, hsizes, hsorted⟩ := ih
      rw [pushMany_append_singleton]
      exact sizes_absorb _ (e := 0) rfl hsizes hsorted fun k _ => Nat.zero_le k
  obtain ⟨es, hsizes, hsorted⟩ := hpowers
  rw [hsizes, ← hsum names, hsizes, Nat.bitIndices_sum_map_two_pow hsorted]

theorem length_bitIndices_le (n : Nat) : n.bitIndices.length ≤ n.log2 + 1 := by
  rcases Nat.eq_zero_or_pos n with rfl | hpos
  · simp
  · have hsubset : n.bitIndices ⊆ List.range (n.log2 + 1) := by
      intro k hk
      have hpow : 2 ^ k ≤ n := Nat.two_pow_le_of_mem_bitIndices hk
      exact List.mem_range.2 (Nat.lt_succ_of_le ((Nat.le_log2 (Nat.ne_of_gt hpos)).2 hpow))
    have hperm := List.subperm_of_subset Nat.bitIndices_nodup hsubset
    simpa using hperm.length_le

theorem length_blocks_le (names : List κ) :
    ((empty : Scope κ).pushMany names).blocks.length ≤ names.length.log2 + 1 := by
  have hlength := congrArg List.length (sizes_pushMany names)
  rw [sizes, List.length_map, List.length_map] at hlength
  exact hlength ▸ length_bitIndices_le names.length

end Sizes

section Levels
variable [EquivBEq κ] [LawfulHashable κ]

/-- A block that takes in others hides what they say about the names that it has. -/
theorem level?_absorb (name : κ) (older : List (Block κ)) : ∀ newest : Block κ,
    level? (absorb newest older) name = newest.levels[name]?.or (level? older name) := by
  induction older with
  | nil =>
    intro newest
    simp only [absorb, level?, List.findSome?_cons, List.findSome?_nil]
    cases newest.levels[name]? <;> rfl
  | cons b older ih =>
    intro newest
    have hcons : ∀ (b : Block κ) (bs : List (Block κ)),
        level? (b :: bs) name = b.levels[name]?.or (level? bs name) := by
      intro b bs
      simp only [level?, List.findSome?_cons]
      cases b.levels[name]? <;> rfl
    simp only [absorb]
    split
    · rw [ih, Std.HashMap.getElem?_union, hcons, Option.or_assoc]
    · rw [hcons]

theorem level?_push (s : Scope κ) (x name : κ) :
    level? (s.push x).blocks name =
      if x == name then some (s.depth + 1) else level? s.blocks name := by
  rw [push, level?_absorb, Std.HashMap.getElem?_insert, Std.HashMap.getElem?_empty]
  split <;> rfl

theorem level?_pushMany (names : List κ) (name : κ) :
    level? ((empty : Scope κ).pushMany names).blocks name =
      (pushesAfter names name).map (names.length - ·) := by
  induction names using List.reverseRecOn with
  | nil => rfl
  | append_singleton names x ih =>
    rw [pushMany_append_singleton, level?_push, ih, depth_pushMany_empty]
    simp only [pushesAfter, List.reverse_append, List.reverse_singleton, List.singleton_append,
      List.findIdx?_cons, List.length_append, List.length_singleton]
    split
    · rfl
    · rw [Option.map_map]
      refine Option.map_congr fun i _ => ?_
      simp only [Function.comp_apply, Nat.add_sub_add_right]

theorem indexOf?_pushMany (names : List κ) (name : κ) :
    ((empty : Scope κ).pushMany names).indexOf? name = pushesAfter names name := by
  rw [indexOf?_eq, level?_pushMany, depth_pushMany_empty, Option.map_map]
  cases h : pushesAfter names name with
  | none => rfl
  | some i =>
    have hlt : i < names.length := by
      obtain ⟨hlt, -⟩ := List.findIdx?_eq_some_iff_getElem.1 h
      rwa [List.length_reverse] at hlt
    simp only [Option.map_some, Function.comp_apply, Option.some.injEq]
    omega

theorem getElem?_flatten (s : Scope κ) (name : κ) : s.flatten[name]? = s.indexOf? name := by
  have hlevels : ∀ bs : List (Block κ),
      (bs.foldr (fun b older => older ∪ b.levels) (∅ : Std.HashMap κ Nat))[name]? =
        level? bs name := by
    intro bs
    induction bs with
    | nil => exact Std.HashMap.getElem?_empty
    | cons b bs ih =>
      rw [List.foldr_cons, Std.HashMap.getElem?_union, ih]
      simp only [level?, List.findSome?_cons]
      cases b.levels[name]? <;> rfl
  rw [flatten, Std.HashMap.getElem?_map', indexOf?_eq, ← hlevels, Option.pmap_eq_map]

end Levels

/-- A scope is the list of the names pushed, in which the last push of a name counts. -/
theorem pushMany_shadows [EquivBEq κ] [LawfulHashable κ] (names : List κ) :
    (empty.pushMany names).depth = names.length ∧
    (∀ name, (empty.pushMany names).indexOf? name = pushesAfter names name ∧
      (empty.pushMany names).flatten[name]? = pushesAfter names name) ∧
    (empty.pushMany names).blocks.map (·.pushes) = names.length.bitIndices.map (2 ^ ·) ∧
    ∀ name, (probe name (empty.pushMany names).blocks).1.map (names.length - ·) =
        (empty.pushMany names).indexOf? name ∧
      (probe name (empty.pushMany names).blocks).2 ≤ names.length.log2 + 1 := by
  have hdepth : (empty.pushMany names).depth = names.length := depth_pushMany_empty names
  refine ⟨hdepth, fun name => ⟨indexOf?_pushMany names name, ?_⟩, sizes_pushMany names,
    fun name => ⟨?_, (probe_le_length name _).trans (length_blocks_le names)⟩⟩
  · rw [getElem?_flatten, indexOf?_pushMany]
  · rw [probe_eq_level?, indexOf?_eq, hdepth]

/-- Of five pushes the last is in a block of its own and the others are in one block, in which the
later binder of a name hides the earlier one. -/
theorem pushMany_shadows_names :
    (empty.pushMany ["x", "y", "x", "z", "y"]).indexOf? "x" = some 2 ∧
    (empty.pushMany ["x", "y", "x", "z", "y"]).flatten["y"]? = some 0 ∧
    (empty.pushMany ["x", "y", "x", "z", "y"]).blocks.map (·.pushes) = [1, 4] := by
  obtain ⟨-, hnames, hsizes, -⟩ := pushMany_shadows ["x", "y", "x", "z", "y"]
  refine ⟨(hnames "x").1, (hnames "y").2, ?_⟩
  have hbits : Nat.bitIndices 5 = [0, 2] := by
    rw [show 5 = 2 * (2 * 1) + 1 from rfl]
    simp only [Nat.bitIndices_two_mul_add_one, Nat.bitIndices_two_mul, Nat.bitIndices_one,
      List.map_cons, List.map_nil]
  rw [hsizes]
  exact congrArg (List.map (2 ^ ·)) hbits

end InductiveTerms.Scope
