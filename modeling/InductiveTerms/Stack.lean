/-!
Persistent stacks with indexed access. A stack is a list of complete binary trees, each with its
size; a push either prepends a tree of one item or puts the item on top of the first two trees,
when these have one size. So `push`, `pop` and `top?` look at the front only, and `get?` and `set`
walk down one tree. Position 0 is the item pushed last.
-/
namespace InductiveTerms

/-- An access past the end of a stack. -/
structure IndexError where
  index : Nat
  size : Nat
  deriving DecidableEq, Repr

def IndexError.message (e : IndexError) : String :=
  "index " ++ e.index.repr ++ " out of range for a stack of size " ++ e.size.repr

namespace Stack

inductive Tree (α : Type) where
  | leaf (item : α)
  | node (item : α) (left right : Tree α)

namespace Tree
variable {α : Type}

def root : Tree α → α
  | leaf a => a
  | node a _ _ => a

/-- The items of a tree, the root first and the left subtree before the right one. -/
def toList : Tree α → List α
  | leaf a => [a]
  | node a l r => a :: (l.toList ++ r.toList)

/-- The item at a position of a tree with `size` items. -/
def get : Tree α → Nat → Nat → α
  | leaf a, _, _ => a
  | node a _ _, _, 0 => a
  | node _ l r, size, i + 1 =>
      let half := size / 2
      if i < half then l.get half i else r.get half (i - half)

/-- Replaces the item at a position of a tree with `size` items. -/
def set : Tree α → Nat → Nat → α → Tree α
  | leaf _, _, _, b => leaf b
  | node _ l r, _, 0, b => node b l r
  | node a l r, size, i + 1, b =>
      let half := size / 2
      if i < half then node a (l.set half i b) r else node a l (r.set half (i - half) b)

end Tree

structure SizedTree (α : Type) where
  size : Nat
  tree : Tree α

end Stack

structure Stack (α : Type) where
  spine : List (Stack.SizedTree α)
  size : Nat

namespace Stack
variable {α : Type}

def empty : Stack α := ⟨[], 0⟩

def isEmpty (s : Stack α) : Bool := s.size == 0

/-- The items from the top down. -/
def toList (s : Stack α) : List α := s.spine.flatMap (·.tree.toList)

def pushTree (a : α) : List (SizedTree α) → List (SizedTree α)
  | ⟨n, l⟩ :: ⟨k, r⟩ :: rest =>
      if n = k then ⟨1 + n + k, .node a l r⟩ :: rest else ⟨1, .leaf a⟩ :: ⟨n, l⟩ :: ⟨k, r⟩ :: rest
  | spine => ⟨1, .leaf a⟩ :: spine

def push (s : Stack α) (a : α) : Stack α := ⟨pushTree a s.spine, s.size + 1⟩

@[simp] theorem toList_push (s : Stack α) (a : α) : (s.push a).toList = a :: s.toList := by
  obtain ⟨spine, n⟩ := s
  match spine with
  | [] => rfl
  | [_] => rfl
  | ⟨n, l⟩ :: ⟨k, r⟩ :: rest =>
    simp only [push, pushTree]
    split <;> simp [toList, Tree.toList]

@[simp] theorem size_push (s : Stack α) (a : α) : (s.push a).size = s.size + 1 := rfl

def pushMany (s : Stack α) (items : List α) : Stack α := items.foldl push s

def ofList (items : List α) : Stack α := empty.pushMany items

theorem toList_pushMany (s : Stack α) (items : List α) :
    (s.pushMany items).toList = items.reverse ++ s.toList := by
  induction items generalizing s with
  | nil => rfl
  | cons a items ih =>
    change ((s.push a).pushMany items).toList = _
    rw [ih, toList_push]
    simp

theorem toList_ofList (items : List α) : (ofList items).toList = items.reverse := by
  rw [ofList, toList_pushMany]
  simp [empty, toList]

/-- Takes the item on top away; the empty stack stays empty. -/
def pop (s : Stack α) : Stack α :=
  match s.spine with
  | [] => s
  | ⟨_, .leaf _⟩ :: rest => ⟨rest, s.size - 1⟩
  | ⟨n, .node _ l r⟩ :: rest => ⟨⟨n / 2, l⟩ :: ⟨n / 2, r⟩ :: rest, s.size - 1⟩

@[simp] theorem toList_pop (s : Stack α) : s.pop.toList = s.toList.tail := by
  obtain ⟨spine, n⟩ := s
  match spine with
  | [] => rfl
  | ⟨_, .leaf _⟩ :: rest => rfl
  | ⟨_, .node _ _ _⟩ :: rest => simp [pop, toList, Tree.toList]

def popTimes : Nat → Stack α → Stack α
  | 0, s => s
  | n + 1, s => popTimes n s.pop

/-- Takes `n` items away, or all if there are fewer. -/
def popMany (s : Stack α) (n : Nat) : Stack α := popTimes (min n s.size) s

def top? (s : Stack α) : Option α := s.spine.head?.map (·.tree.root)

theorem Tree.toList_eq_root_cons (t : Tree α) : ∃ items, t.toList = t.root :: items := by
  cases t with
  | leaf a => exact ⟨[], rfl⟩
  | node a l r => exact ⟨l.toList ++ r.toList, rfl⟩

theorem top?_eq_head? (s : Stack α) : s.top? = s.toList.head? := by
  obtain ⟨spine, n⟩ := s
  match spine with
  | [] => rfl
  | ⟨_, t⟩ :: rest =>
    obtain ⟨items, h⟩ := t.toList_eq_root_cons
    simp [top?, toList, h]

def getTree? : List (SizedTree α) → Nat → Option α
  | [], _ => none
  | ⟨n, t⟩ :: rest, i => if i < n then some (t.get n i) else getTree? rest (i - n)

def get? (s : Stack α) (i : Nat) : Option α := getTree? s.spine i

def setTree : List (SizedTree α) → Nat → α → List (SizedTree α)
  | [], _, _ => []
  | ⟨n, t⟩ :: rest, i, a =>
      if i < n then ⟨n, t.set n i a⟩ :: rest else ⟨n, t⟩ :: setTree rest (i - n) a

/-- The item at a position, or the position and the size if there is none. -/
def get (s : Stack α) (i : Nat) : Except IndexError α :=
  match s.get? i with
  | some a => .ok a
  | none => .error ⟨i, s.size⟩

/-- Replaces the item at a position and nothing else. -/
def set (s : Stack α) (i : Nat) (a : α) : Except IndexError (Stack α) :=
  if i < s.size then .ok ⟨setTree s.spine i a, s.size⟩ else .error ⟨i, s.size⟩

/-- An iteration over a stack: the stack and the position of the next item. -/
structure Cursor (α : Type) where
  stack : Stack α
  position : Nat

def iterate (s : Stack α) : Cursor α := ⟨s, 0⟩

namespace Cursor

/-- The next item and the iteration after it, or `none` past the last item. -/
def next? (c : Cursor α) : Option (α × Cursor α) :=
  match c.stack.get? c.position with
  | some a => some (a, ⟨c.stack, c.position + 1⟩)
  | none => none

/-- The lower and the upper bound on the number of items to come. -/
def sizeHint (c : Cursor α) : Nat × Option Nat :=
  let rest := c.stack.size - c.position
  (rest, some rest)

/-- The items of the next `n` steps, or fewer where the iteration ends before. -/
def collect : Nat → Cursor α → List α
  | 0, _ => []
  | n + 1, c =>
      match c.next? with
      | some (a, c) => a :: collect n c
      | none => []

end Cursor
end Stack
end InductiveTerms
