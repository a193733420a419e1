import Mathlib.Data.List.Basic
import Mathlib.Algebra.Ring.Nat
import InductiveTerms.Proofs.Stack

/-!
A stack is its list of items (`built_refines`). The trees of a spine are complete, their sizes
increase, except that the first two may be equal, and add up to the size of the stack. Every
operation keeps this shape, so that a position below the size always leads to an item.
-/
namespace InductiveTerms.Stack
variable {α : Type}

/-- The stacks that operations make out of the empty one. -/
inductive Built : Stack α → Prop
  | empty : Built empty
  | push {s : Stack α} (a : α) : Built s → Built (s.push a)
  | pop {s : Stack α} : Built s → Built s.pop
  | popMany {s : Stack α} (n : Nat) : Built s → Built (s.popMany n)
  | set {s s' : Stack α} {i : Nat} {a : α} : Built s → s.set i a = .ok s' → Built s'
  | ofList (items : List α) : Built (ofList items)

/-- Sizes that increase from one to the next, except that the first two may be equal. -/
def SkewSizes : List Nat → Prop
  | n :: k :: rest => n ≤ k ∧ (k :: rest).Pairwise (· < ·)
  | _ => True

/-- The shape of a spine with `size` items. -/
structure Skew (spine : List (SizedTree α)) (size : Nat) : Prop where
  complete : ∀ t ∈ spine, t.tree.Complete t.size
  sizes : SkewSizes (spine.map (·.size))
  size_eq : size = (spine.map (·.size)).sum

section Complete
variable {t : Tree α} {n : Nat}

theorem Tree.Complete.size_eq_pow (h : t.Complete n) : ∃ k, 0 < k ∧ n = 2 ^ k - 1 := by
  induction h with
  | leaf => exact ⟨1, Nat.one_pos, rfl⟩
  | @node a l r n _ _ ihl _ =>
    obtain ⟨k, hk, hn⟩ := ihl
    have hpow : 0 < 2 ^ k := Nat.two_pow_pos k
    refine ⟨k + 1, Nat.succ_pos k, ?_⟩
    rw [Nat.pow_succ]
    omega

theorem Tree.Complete.size_pos (h : t.Complete n) : 0 < n := by
  cases h <;> omega

/-- Between the sizes of complete trees there is room: the next size after `n` is `1 + n + n`. -/
theorem Tree.Complete.next_size_le {u : Tree α} {k : Nat} (h : t.Complete n) (hu : u.Complete k)
    (hlt : n < k) : 1 + n + n ≤ k := by
  obtain ⟨i, _, hn⟩ := h.size_eq_pow
  obtain ⟨j, _, hk⟩ := hu.size_eq_pow
  have hi : 0 < 2 ^ i := Nat.two_pow_pos i
  have hj : 0 < 2 ^ j := Nat.two_pow_pos j
  have hij : i < j := by
    by_contra hge
    have hpow : 2 ^ j ≤ 2 ^ i := Nat.pow_le_pow_right Nat.two_pos (Nat.le_of_not_lt hge)
    omega
  have hpow : 2 ^ (i + 1) ≤ 2 ^ j := Nat.pow_le_pow_right Nat.two_pos hij
  rw [Nat.pow_succ] at hpow
  omega

theorem Tree.Complete.set (h : t.Complete n) (m i : Nat) (a : α) : (t.set m i a).Complete n := by
  induction h generalizing m i with
  | leaf => exact .leaf
  | @node b l r n hl hr ihl ihr =>
    cases i with
    | zero => exact .node hl hr
    | succ i =>
      simp only [Tree.set]
      split
      · exact .node (ihl _ _) hr
      · exact .node hl (ihr _ _)

/-- Replacing an item of a tree replaces one item of its list. -/
theorem Tree.Complete.toList_set (h : t.Complete n) {i : Nat} (hi : i < n) (a : α) :
    (t.set n i a).toList = t.toList.set i a := by
  induction h generalizing i with
  | leaf =>
    obtain rfl : i = 0 := by omega
    rfl
  | @node b l r n hl hr ihl ihr =>
    cases i with
    | zero => rfl
    | succ i =>
      have hhalf : (1 + n + n) / 2 = n := by omega
      simp only [Tree.set, hhalf, Tree.toList, List.set_cons_succ]
      split
      · next hlt =>
        have hlen : i < l.toList.length := by rwa [hl.length_toList]
        rw [Tree.toList, ihl hlt, List.set_append_left _ _ hlen]
      · next hge =>
        have hlen : l.toList.length ≤ i := by rw [hl.length_toList]; omega
        rw [Tree.toList, ihr (by omega), List.set_append_right _ _ hlen, hl.length_toList]

end Complete

section Skew
variable {spine : List (SizedTree α)} {size : Nat}

theorem Skew.length_toList (h : Skew spine size) :
    (spine.flatMap (·.tree.toList)).length = size := by
  have hlengths : spine.map (fun t => t.tree.toList.length) = spine.map (·.size) :=
    List.map_congr_left fun t ht => (h.complete t ht).length_toList
  rw [List.length_flatMap, hlengths, h.size_eq]

theorem SkewSizes.cons {n : Nat} {ns : List Nat} (hlt : ∀ k ∈ ns.head?, n ≤ k)
    (h : ns.Pairwise (· < ·)) : SkewSizes (n :: ns) := by
  cases ns with
  | nil => trivial
  | cons k ns => exact ⟨hlt k rfl, h⟩

theorem SkewSizes.tail {n : Nat} {ns : List Nat} (h : SkewSizes (n :: ns)) :
    ns.Pairwise (· < ·) := by
  cases ns with
  | nil => exact .nil
  | cons k ns => exact h.2

theorem skew_empty : Skew (α := α) [] 0 := ⟨by simp, trivial, rfl⟩

theorem Skew.push (h : Skew spine size) (a : α) : Skew (pushTree a spine) (size + 1) := by
  obtain ⟨hcomplete, hsizes, hsize⟩ := h
  match spine with
  | [] => exact ⟨by simpa [pushTree] using .leaf, trivial, by simp [pushTree, hsize]⟩
  | [t] =>
    have ht : t.tree.Complete t.size := hcomplete t List.mem_cons_self
    have hpos := ht.size_pos
    exact ⟨by simpa [pushTree] using ⟨.leaf, ht⟩, ⟨hpos, List.pairwise_singleton _ _⟩,
      by simp [pushTree, hsize, Nat.add_comm]⟩
  | ⟨n, l⟩ :: ⟨k, r⟩ :: rest =>
    simp only [List.forall_mem_cons] at hcomplete
    obtain ⟨hl, hr, hrest⟩ := hcomplete
    obtain ⟨hle, hincreasing⟩ := hsizes
    simp only [List.map_cons, List.sum_cons] at hsize
    simp only at hle
    simp only [pushTree]
    split
    · next heq =>
      subst heq
      obtain ⟨hfirst, hothers⟩ := List.pairwise_cons.1 hincreasing
      refine ⟨List.forall_mem_cons.2 ⟨.node hl hr, hrest⟩, .cons ?_ hothers, ?_⟩
      · intro m hm
        obtain ⟨t, ht, rfl⟩ : ∃ t ∈ rest, t.size = m := by
          have hmem := List.mem_of_mem_head? hm
          simpa using hmem
        have hlt : n < t.size := hfirst _ (List.mem_map_of_mem ht)
        exact hl.next_size_le (hrest t ht) hlt
      · simp only [List.map_cons, List.sum_cons]
        omega
    · next hne =>
      have hlt : n < k := by omega
      have hall : ∀ m ∈ k :: rest.map (·.size), n < m := by
        obtain ⟨hfirst, _⟩ := List.pairwise_cons.1 hincreasing
        refine List.forall_mem_cons.2 ⟨hlt, fun m hm => ?_⟩
        exact Nat.lt_trans hlt (hfirst m hm)
      refine ⟨?_, ⟨hl.size_pos, List.pairwise_cons.2 ⟨hall, hincreasing⟩⟩, ?_⟩
      · simp only [List.forall_mem_cons]
        exact ⟨.leaf, hl, hr, hrest⟩
      · simp only [List.map_cons, List.sum_cons]
        omega

theorem Skew.pop {s : Stack α} (h : Skew s.spine s.size) : Skew s.pop.spine s.pop.size := by
  obtain ⟨spine, size⟩ := s
  obtain ⟨hcomplete, hsizes, hsize⟩ := h
  simp only at hcomplete hsizes hsize
  match spine with
  | [] => exact ⟨hcomplete, hsizes, hsize⟩
  | ⟨n, .leaf a⟩ :: rest =>
    simp only [List.forall_mem_cons] at hcomplete
    obtain ⟨hleaf, hrest⟩ := hcomplete
    have hincreasing := hsizes.tail
    have hn : n = 1 := by cases hleaf; rfl
    simp only [List.map_cons, List.sum_cons] at hsize
    refine ⟨hrest, ?_, ?_⟩
    · change SkewSizes (rest.map (·.size))
      cases hrest' : rest.map (·.size) with
      | nil => trivial
      | cons k ns =>
        rw [hrest'] at hincreasing
        obtain ⟨hfirst, hothers⟩ := List.pairwise_cons.1 hincreasing
        exact .cons (fun m hm => Nat.le_of_lt (hfirst m (List.mem_of_mem_head? hm))) hothers
    · change size - 1 = (rest.map (·.size)).sum
      omega
  | ⟨m, .node a l r⟩ :: rest =>
    simp only [List.forall_mem_cons] at hcomplete
    obtain ⟨hnode, hrest⟩ := hcomplete
    cases hnode with
    | @node _ _ _ n hl hr =>
      have hincreasing := hsizes.tail
      have hhalf : (1 + n + n) / 2 = n := by omega
      simp only [List.map_cons, List.sum_cons] at hsize
      have hbefore : ∀ k ∈ rest.map (·.size), n < k := by
        intro k hk
        cases hrest' : rest.map (·.size) with
        | nil => simp [hrest'] at hk
        | cons j ns =>
          simp only [List.map_cons, hrest'] at hsizes hincreasing hk
          obtain ⟨hfirst, _⟩ := List.pairwise_cons.1 hincreasing
          rcases List.mem_cons.1 hk with rfl | hk
          · have hle := hsizes.1
            omega
          · have hle := hsizes.1
            have hlt := hfirst k hk
            omega
      refine ⟨?_, ?_, ?_⟩
      · simp only [Stack.pop, hhalf, List.forall_mem_cons]
        exact ⟨hl, hr, hrest⟩
      · simp only [Stack.pop, hhalf, List.map_cons]
        exact ⟨Nat.le_refl n, List.pairwise_cons.2 ⟨hbefore, hincreasing⟩⟩
      · simp only [Stack.pop, hhalf, List.map_cons, List.sum_cons]
        omega

theorem skew_popTimes (n : Nat) : ∀ {s : Stack α}, Skew s.spine s.size →
    Skew (popTimes n s).spine (popTimes n s).size := by
  induction n with
  | zero => exact fun h => h
  | succ n ih => exact fun h => ih h.pop

theorem map_size_setTree (spine : List (SizedTree α)) (i : Nat) (a : α) :
    (setTree spine i a).map (·.size) = spine.map (·.size) := by
  induction spine generalizing i with
  | nil => rfl
  | cons t rest ih =>
    simp only [setTree]
    split
    · rfl
    · simp only [List.map_cons, ih]

theorem complete_setTree (h : ∀ t ∈ spine, t.tree.Complete t.size) (i : Nat) (a : α) :
    ∀ t ∈ setTree spine i a, t.tree.Complete t.size := by
  induction spine generalizing i with
  | nil => simp [setTree]
  | cons t rest ih =>
    simp only [List.forall_mem_cons] at h
    simp only [setTree]
    split
    · exact List.forall_mem_cons.2 ⟨h.1.set _ _ _, h.2⟩
    · exact List.forall_mem_cons.2 ⟨h.1, ih h.2 _⟩

theorem Skew.setTree (h : Skew spine size) (i : Nat) (a : α) :
    Skew (setTree spine i a) size := by
  refine ⟨complete_setTree h.complete i a, ?_, ?_⟩
  · rw [map_size_setTree]
    exact h.sizes
  · rw [map_size_setTree]
    exact h.size_eq

theorem skew_pushMany (items : List α) : ∀ {s : Stack α}, Skew s.spine s.size →
    Skew (s.pushMany items).spine (s.pushMany items).size := by
  induction items with
  | nil => exact fun h => h
  | cons a items ih => exact fun h => ih (h.push a)

/-- Every operation keeps the shape. -/
theorem Built.skew {s : Stack α} (h : s.Built) : Skew s.spine s.size := by
  induction h with
  | empty => exact skew_empty
  | push a _ ih => exact ih.push a
  | pop _ ih => exact ih.pop
  | popMany n _ ih => exact skew_popTimes _ ih
  | ofList items => exact skew_pushMany items skew_empty
  | @set s s' i a _ hset ih =>
    unfold Stack.set at hset
    split at hset
    · obtain rfl := Except.ok.inj hset
      exact ih.setTree i a
    · cases hset

end Skew

section Items
variable {spine : List (SizedTree α)}

theorem toList_setTree (h : ∀ t ∈ spine, t.tree.Complete t.size) (i : Nat) (a : α) :
    (setTree spine i a).flatMap (·.tree.toList) = (spine.flatMap (·.tree.toList)).set i a := by
  induction spine generalizing i with
  | nil => rfl
  | cons t rest ih =>
    simp only [List.forall_mem_cons] at h
    obtain ⟨ht, hrest⟩ := h
    simp only [setTree]
    split
    · next hlt =>
      have hlen : i < t.tree.toList.length := by rwa [ht.length_toList]
      rw [List.flatMap_cons, List.flatMap_cons, ht.toList_set hlt, List.set_append_left _ _ hlen]
    · next hge =>
      have hlen : t.tree.toList.length ≤ i := by rw [ht.length_toList]; omega
      rw [List.flatMap_cons, List.flatMap_cons, ih hrest, List.set_append_right _ _ hlen,
        ht.length_toList]

theorem toList_popTimes (n : Nat) (s : Stack α) : (popTimes n s).toList = s.toList.drop n := by
  induction n generalizing s with
  | zero => rfl
  | succ n ih => rw [popTimes, ih, toList_pop, List.drop_tail]

theorem pop_of_toList_eq_nil {s : Stack α} (h : s.toList = []) : s.pop = s := by
  obtain ⟨spine, size⟩ := s
  match spine with
  | [] => rfl
  | ⟨n, t⟩ :: rest =>
    obtain ⟨items, ht⟩ := t.toList_eq_root_cons
    simp [toList, ht] at h

end Items

section Guards

/-- The item at a position of a tree, asserting at a leaf that no position is left; `none` where the
assertion fails. -/
def Tree.guardedGet : Tree α → Nat → Nat → Option α
  | leaf a, _, i => if i = 0 then some a else none
  | node a _ _, _, 0 => some a
  | node _ l r, size, i + 1 =>
      let half := size / 2
      if i < half then l.guardedGet half i else r.guardedGet half (i - half)

/-- The lookup in a spine; the outer `none` is a failed assertion. -/
def guardedGet : List (SizedTree α) → Nat → Option (Option α)
  | [], _ => some none
  | ⟨n, t⟩ :: rest, i => if i < n then (t.guardedGet n i).map some else guardedGet rest (i - n)

/-- The replacement in a spine; `none` where it runs past the last tree. -/
def guardedSet : List (SizedTree α) → Nat → α → Option (List (SizedTree α))
  | [], _, _ => none
  | ⟨n, t⟩ :: rest, i, a =>
      if i < n then some (⟨n, t.set n i a⟩ :: rest)
      else (guardedSet rest (i - n) a).map (⟨n, t⟩ :: ·)

theorem Tree.Complete.guardedGet_eq {t : Tree α} {n : Nat} (h : t.Complete n) {i : Nat}
    (hi : i < n) : t.guardedGet n i = some (t.get n i) := by
  induction h generalizing i with
  | leaf =>
    obtain rfl : i = 0 := by omega
    rfl
  | @node a l r n hl hr ihl ihr =>
    cases i with
    | zero => rfl
    | succ i =>
      have hhalf : (1 + n + n) / 2 = n := by omega
      simp only [Tree.guardedGet, Tree.get, hhalf]
      split
      · next hlt => exact ihl hlt
      · next hge => exact ihr (by omega)

variable {spine : List (SizedTree α)}

theorem guardedGet_eq (h : ∀ t ∈ spine, t.tree.Complete t.size) (i : Nat) :
    guardedGet spine i = some (getTree? spine i) := by
  induction spine generalizing i with
  | nil => rfl
  | cons t rest ih =>
    simp only [List.forall_mem_cons] at h
    simp only [guardedGet, getTree?]
    split
    · next hlt => rw [h.1.guardedGet_eq hlt, Option.map_some]
    · exact ih h.2 _

theorem guardedSet_eq {i : Nat} (hi : i < (spine.map (·.size)).sum) (a : α) :
    guardedSet spine i a = some (setTree spine i a) := by
  induction spine generalizing i with
  | nil => exact absurd hi (Nat.not_lt_zero i)
  | cons t rest ih =>
    simp only [List.map_cons, List.sum_cons] at hi
    simp only [guardedSet, setTree]
    split
    · rfl
    · next hge => rw [ih (by omega), Option.map_some]

end Guards

theorem Cursor.collect_eq {s : Stack α} (h : s.WellFormed) (n i : Nat) :
    (⟨s, i⟩ : Cursor α).collect n = (s.toList.drop i).take n := by
  induction n generalizing i with
  | zero => rfl
  | succ n ih =>
    have hget := h.get?_eq_getElem? i
    cases hitem : s.toList[i]? with
    | none =>
      have hdrop : s.toList.drop i = [] :=
        List.drop_eq_nil_iff.2 (List.getElem?_eq_none_iff.1 hitem)
      simp only [Cursor.collect, Cursor.next?, hget, hitem, hdrop, List.take_nil]
    | some a =>
      obtain ⟨hi, ha⟩ := List.getElem?_eq_some_iff.1 hitem
      simp only [Cursor.collect, Cursor.next?, hget, hitem, ih]
      rw [List.drop_eq_getElem_cons hi, List.take_succ_cons, ha]

/-- The operations of a stack are those of its list of items, the top first. -/
structure Refines (s : Stack α) : Prop where
  length_eq : s.toList.length = s.size
  push : ∀ a, (s.push a).toList = a :: s.toList
  pop : s.pop.toList = s.toList.tail
  pop_empty : s.toList = [] → s.pop = s
  popMany : ∀ n, (s.popMany n).toList = s.toList.drop (min n s.size)
  set : ∀ i a, i < s.size → ∃ s', s.set i a = .ok s' ∧ s'.toList = s.toList.set i a
  set_error : ∀ i a e, s.set i a = .error e ↔ s.size ≤ i ∧ e = ⟨i, s.size⟩
  get? : ∀ i, s.get? i = s.toList[i]?
  get : ∀ i a, s.get i = .ok a ↔ s.toList[i]? = some a
  get_error : ∀ i e, s.get i = .error e ↔ s.size ≤ i ∧ e = ⟨i, s.size⟩
  top? : s.top? = s.toList.head?
  iterate : ∀ n, s.iterate.collect n = s.toList.take n
  /-- After some items an iteration goes on with the others, and its hint says how many they are. -/
  resume : ∀ i n, (⟨s, i⟩ : Cursor α).collect n = (s.toList.drop i).take n ∧
    (⟨s, i⟩ : Cursor α).sizeHint = ((s.toList.drop i).length, some (s.toList.drop i).length)
  /-- No lookup arrives at a leaf with a position left. -/
  guardedGet : ∀ i, guardedGet s.spine i = some (s.get? i)
  /-- No replacement runs past the last tree. -/
  guardedSet : ∀ i a, i < s.size → guardedSet s.spine i a = some (setTree s.spine i a)

theorem Skew.get_error_iff {s : Stack α} (h : Skew s.spine s.size) {i : Nat} {e : IndexError} :
    s.get i = .error e ↔ s.size ≤ i ∧ e = ⟨i, s.size⟩ := by
  have hlength : s.toList.length = s.size := h.length_toList
  have hget : s.get? i = s.toList[i]? := getTree?_eq_getElem? h.complete i
  rcases Nat.lt_or_ge i s.toList.length with hlt | hge
  · simp only [Stack.get, hget, List.getElem?_eq_getElem hlt, reduceCtorEq, false_iff, not_and]
    omega
  · simp only [Stack.get, hget, List.getElem?_eq_none hge, Except.error.injEq]
    rw [← hlength, eq_comm]
    exact ⟨fun he => ⟨hge, he⟩, fun he => he.2⟩

theorem Skew.get_ok_iff {s : Stack α} (h : Skew s.spine s.size) {i : Nat} {a : α} :
    s.get i = .ok a ↔ s.toList[i]? = some a := by
  have hget : s.get? i = s.toList[i]? := getTree?_eq_getElem? h.complete i
  simp only [Stack.get, hget]
  cases s.toList[i]? <;> simp

theorem set_error_iff (s : Stack α) {i : Nat} {a : α} {e : IndexError} :
    s.set i a = .error e ↔ s.size ≤ i ∧ e = ⟨i, s.size⟩ := by
  unfold Stack.set
  split
  · next hlt => simp [Nat.not_le.2 hlt]
  · next hge =>
    rw [Except.error.injEq, eq_comm]
    exact ⟨fun he => ⟨Nat.le_of_not_lt hge, he⟩, fun he => he.2⟩

theorem Skew.refines {s : Stack α} (h : Skew s.spine s.size) : s.Refines where
  length_eq := h.length_toList
  push := toList_push s
  pop := toList_pop s
  pop_empty := pop_of_toList_eq_nil
  popMany n := toList_popTimes _ s
  set i a hi := ⟨_, if_pos hi, toList_setTree h.complete i a⟩
  set_error _ _ _ := set_error_iff s
  get? := getTree?_eq_getElem? h.complete
  get _ _ := h.get_ok_iff
  get_error _ _ := h.get_error_iff
  top? := top?_eq_head? s
  iterate n := Cursor.collect_eq h.complete n 0
  resume i n := by
    have hlength : s.toList.length = s.size := h.length_toList
    refine ⟨Cursor.collect_eq h.complete n i, ?_⟩
    rw [Cursor.sizeHint, List.length_drop, hlength]
  guardedGet := guardedGet_eq h.complete
  guardedSet i a hi := guardedSet_eq (h.size_eq ▸ hi) a

/-- Whatever operations a stack was built by, its spine has the skew binary shape and its operations
are those of the list of its items. -/
theorem built_refines {s : Stack α} (h : s.Built) :
    Skew s.spine s.size ∧ (∀ t ∈ s.spine, ∃ k, 0 < k ∧ t.size = 2 ^ k - 1) ∧ s.Refines :=
  ⟨h.skew, fun t ht => (h.skew.complete t ht).size_eq_pow, h.skew.refines⟩

/-- Five items pushed, the second replaced, one taken away and another pushed. -/
def mixed : Stack Nat := ⟨[⟨1, .leaf 9⟩, ⟨1, .leaf 7⟩, ⟨3, .node 3 (.leaf 2) (.leaf 1)⟩], 5⟩

theorem built_refines_mixed : mixed.Built ∧ mixed.Refines := by
  have hset : (Stack.ofList [1, 2, 3, 4, 5]).set 1 7 = .ok
      ⟨[⟨1, .leaf 5⟩, ⟨1, .leaf 7⟩, ⟨3, .node 3 (.leaf 2) (.leaf 1)⟩], 5⟩ := rfl
  have hbuilt : mixed.Built := .push 9 (.pop (.set (.ofList [1, 2, 3, 4, 5]) hset))
  exact ⟨hbuilt, (built_refines hbuilt).2.2⟩

end InductiveTerms.Stack
