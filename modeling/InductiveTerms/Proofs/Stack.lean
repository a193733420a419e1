import InductiveTerms.Stack

/-!
Indexed access to a stack is access to its list of items (`get?_eq_getElem?`). It rests on every
tree of the spine being complete and of the size noted with it, which pushing preserves.
-/
namespace InductiveTerms.Stack
variable {α : Type}

/-- A complete tree of `n` items: both subtrees of a node have one size. -/
inductive Tree.Complete : Tree α → Nat → Prop
  | leaf {a : α} : Complete (.leaf a) 1
  | node {a : α} {l r : Tree α} {n : Nat} :
      Complete l n → Complete r n → Complete (.node a l r) (1 + n + n)

theorem Tree.Complete.length_toList {t : Tree α} {n : Nat} (h : t.Complete n) :
    t.toList.length = n := by
  induction h with
  | leaf => rfl
  | node _ _ ihl ihr =>
    simp only [Tree.toList, List.length_cons, List.length_append, ihl, ihr]
    omega

theorem Tree.Complete.getElem?_toList {t : Tree α} {n : Nat} (h : t.Complete n) {i : Nat}
    (hi : i < n) : t.toList[i]? = some (t.get n i) := by
  induction h generalizing i with
  | leaf =>
    obtain rfl : i = 0 := by omega
    rfl
  | @node a l r n hl hr ihl ihr =>
    cases i with
    | zero => rfl
    | succ i =>
      have hhalf : (1 + n + n) / 2 = n := by omega
      simp only [Tree.toList, Tree.get, hhalf, List.getElem?_cons_succ]
      split
      · next hlt =>
        rw [List.getElem?_append_left (by rwa [hl.length_toList]), ihl hlt]
      · next hge =>
        rw [List.getElem?_append_right (by rw [hl.length_toList]; omega), hl.length_toList,
          ihr (by omega)]

/-- Every tree of the spine is complete and of its noted size. -/
def WellFormed (s : Stack α) : Prop := ∀ t ∈ s.spine, t.tree.Complete t.size

theorem wellFormed_empty : (empty : Stack α).WellFormed := by simp [WellFormed, empty]

theorem WellFormed.push {s : Stack α} (h : s.WellFormed) (a : α) : (s.push a).WellFormed := by
  obtain ⟨spine, n⟩ := s
  change ∀ t ∈ spine, t.tree.Complete t.size at h
  change ∀ t ∈ pushTree a spine, t.tree.Complete t.size
  match spine with
  | [] => simpa [pushTree] using Tree.Complete.leaf
  | [t] => simpa [pushTree] using ⟨Tree.Complete.leaf, h t (List.mem_singleton.2 rfl)⟩
  | ⟨n, l⟩ :: ⟨k, r⟩ :: rest =>
    simp only [List.forall_mem_cons] at h
    obtain ⟨hl, hr, hrest⟩ := h
    simp only [pushTree]
    split
    · next heq =>
      subst heq
      exact List.forall_mem_cons.2 ⟨.node hl hr, hrest⟩
    · simp only [List.forall_mem_cons]
      exact ⟨.leaf, hl, hr, hrest⟩

theorem getTree?_eq_getElem? {spine : List (SizedTree α)}
    (h : ∀ t ∈ spine, t.tree.Complete t.size) (i : Nat) :
    getTree? spine i = (spine.flatMap (·.tree.toList))[i]? := by
  induction spine generalizing i with
  | nil => rfl
  | cons t rest ih =>
    simp only [List.forall_mem_cons] at h
    simp only [getTree?, List.flatMap_cons]
    split
    · next hlt =>
      rw [List.getElem?_append_left (by rwa [h.1.length_toList]), h.1.getElem?_toList hlt]
    · next hge =>
      rw [List.getElem?_append_right (by rw [h.1.length_toList]; omega), h.1.length_toList,
        ih h.2]

theorem WellFormed.get?_eq_getElem? {s : Stack α} (h : s.WellFormed) (i : Nat) :
    s.get? i = s.toList[i]? := getTree?_eq_getElem? h i

end InductiveTerms.Stack
