/-!
Readers. A reader takes something off the front of a text; `Reads` says what it takes, whatever
follows as long as that does not run into it. Readers are put together piece by piece, in the order
in which the pieces stand in the text (`Reads.bind`), and a list of items that are announced by one
separator is read by one loop (`reads_many`).
-/
namespace InductiveTerms

/-- Takes something off the front of a text, or fails. -/
abbrev Reader : Type → Type := StateT (List Char) Option

/-- What names and numbers are made of; beyond ASCII every character counts as a letter. -/
def isWordChar (c : Char) : Bool :=
  c.isAlphanum || c == '_' || c == '.' || c.toNat == 39 || 128 ≤ c.toNat

def IsWord (x : String) : Prop := ∀ c ∈ x.toList, isWordChar c

instance (x : String) : Decidable (IsWord x) :=
  List.decidableBAll (fun c => isWordChar c) x.toList

/-- Whether a word is over where this text starts. -/
def breaks : List Char → Bool
  | [] => true
  | c :: _ => !isWordChar c

namespace Reader

/-- Looks at the text and takes nothing. -/
def look {α : Type} (at? : List Char → α) : Reader α := do
  return at? (← get)

/-- Whether the text starts with `s`, which is not taken. -/
def next (s : String) : Reader Bool := look s.toList.isPrefixOf

/-- The word at the front, which is not taken. -/
def ahead : Reader String := look fun text => .ofList (text.takeWhile isWordChar)

def skip (s : String) : Reader Unit := do
  let text ← get
  if s.toList.isPrefixOf text then set (text.drop s.toList.length) else failure

def word : Reader String := do
  let text ← get
  set (text.dropWhile isWordChar)
  return .ofList (text.takeWhile isWordChar)

def number : Reader Nat := do
  return .ofDigitChars 10 (← word).toList 0

/-- Items that come after one separator each, fewer than `fuel` of them. -/
def manyWithin {α : Type} (separator : String) (item : Reader α) : (fuel : Nat) → Reader (List α)
  | 0 => failure
  | fuel + 1 => do
    if ← next separator then
      skip separator
      let a ← item
      let as ← manyWithin separator item fuel
      return a :: as
    else
      return []

/-- Items that come after one separator each. There are no more of them than characters. -/
def many {α : Type} (separator : String) (item : Reader α) : Reader (List α) := do
  manyWithin separator item ((← get).length + 1)

end Reader

open Reader

variable {α β : Type} {p : Reader α} {f : α → Reader β} {g : α → β} {a : α} {b : β}
variable {s : String} {text text' : List Char} {F G : List Char → Bool}

/-- A reader takes a text and gives a value, whatever follows of a certain kind. -/
def Reads (p : Reader α) (text : List Char) (a : α) (F : List Char → Bool) : Prop :=
  ∀ rest, F rest → p.run (text ++ rest) = some (a, rest)

/-- What may follow when it does not matter. -/
def anyText (_ : List Char) : Bool := true

namespace Reads

theorem bind (hp : Reads p text a F) (hf : Reads (f a) text' b G)
    (hrest : ∀ rest, G rest → F (text' ++ rest)) : Reads (p >>= f) (text ++ text') b G := by
  intro rest hG
  rw [StateT.run_bind, List.append_assoc, hp _ (hrest rest hG)]
  exact hf rest hG

theorem map (hp : Reads p text a F) : Reads (p >>= fun a => pure (g a)) text (g a) F := by
  intro rest hF
  rw [StateT.run_bind, hp rest hF]
  rfl

theorem imp (hp : Reads p text a F) (hG : ∀ rest, G rest → F rest) : Reads p text a G :=
  fun rest h => hp rest (hG rest h)

theorem look {at? : List Char → α} (ha : ∀ rest, F rest → at? (text ++ rest) = a)
    (hf : Reads (f a) text b F) : Reads (Reader.look at? >>= f) text b F := by
  intro rest hF
  rw [StateT.run_bind, ← hf rest hF, ← ha rest hF]
  rfl

theorem next_true {f : Bool → Reader β} (hs : s.toList <+: text) (hf : Reads (f true) text b F) :
    Reads (next s >>= f) text b F :=
  .look (fun _ _ => List.isPrefixOf_iff_prefix.2 (hs.trans (List.prefix_append _ _))) hf

theorem ahead {f : String → Reader β} {w : String}
    (hw : ∀ rest, F rest → (text ++ rest).takeWhile isWordChar = w.toList)
    (hf : Reads (f w) text b F) : Reads (Reader.ahead >>= f) text b F := by
  refine .look (fun rest hrest => ?_) hf
  rw [hw rest hrest, String.ofList_toList]

end Reads

theorem reads_skip (s : String) : Reads (skip s) s.toList () anyText := by
  intro rest _
  have hdrop : (s.toList ++ rest).drop s.toList.length = rest := List.drop_left
  simp [skip, hdrop]

theorem takeWhile_word {x : String} {rest : List Char} (hx : IsWord x) (hrest : breaks rest) :
    (x.toList ++ rest).takeWhile isWordChar = x.toList := by
  rw [List.takeWhile_append_of_pos hx]
  cases rest with
  | nil => simp
  | cons c rest => simp_all [breaks]

theorem dropWhile_word {x : String} {rest : List Char} (hx : IsWord x) (hrest : breaks rest) :
    (x.toList ++ rest).dropWhile isWordChar = rest := by
  rw [List.dropWhile_append_of_pos hx]
  cases rest with
  | nil => rfl
  | cons c rest => simp_all [breaks]

theorem reads_word {x : String} (hx : IsWord x) : Reads word x.toList x breaks := by
  intro rest hrest
  simp [word, takeWhile_word hx hrest, dropWhile_word hx hrest]

theorem isWord_repr (n : Nat) : IsWord n.repr := by
  intro c hc
  rw [Nat.toList_repr] at hc
  have hdigit : c.isDigit := Nat.isDigit_of_mem_toDigits (by decide) (by decide) hc
  simp [isWordChar, Char.isAlphanum, hdigit]

theorem reads_number (n : Nat) : Reads number n.repr.toList n breaks := by
  have hvalue : Nat.ofDigitChars 10 n.repr.toList 0 = n := by
    rw [Nat.toList_repr, Nat.ofDigitChars_toDigits (by decide) (by decide)]
  have hnumber := (reads_word (isWord_repr n)).map (g := fun w => Nat.ofDigitChars 10 w.toList 0)
  rwa [hvalue] at hnumber

/-- What holds of every text that starts in one way. -/
theorem forall_of_start {P : List Char → Prop} (h : ∀ rest, P (s.toList ++ rest)) :
    ∀ rest, s.toList.isPrefixOf rest → P rest := by
  intro rest hrest
  obtain ⟨rest, rfl⟩ := List.isPrefixOf_iff_prefix.1 hrest
  exact h rest

section Many
variable {γ : Type} {item : Reader β} {chars : γ → List Char} {value : γ → β} {as : List γ}

theorem reads_manyWithin {fuel : Nat} (hfuel : as.length < fuel)
    (hitem : ∀ a ∈ as, Reads item (chars a) (value a) F)
    (hstart : ∀ a ∈ as, ∀ rest, F (s.toList ++ (chars a ++ rest)))
    (hend : ∀ rest, G rest → F rest ∧ s.toList.isPrefixOf rest = false) :
    Reads (manyWithin s item fuel) (as.flatMap fun a => s.toList ++ chars a) (as.map value) G := by
  induction as generalizing fuel with
  | nil =>
    cases fuel with
    | zero => cases hfuel
    | succ fuel =>
      refine .look (fun rest h => (hend rest h).2) ?_
      exact fun rest _ => rfl
  | cons a as ih =>
    cases fuel with
    | zero => cases hfuel
    | succ fuel =>
      rw [List.forall_mem_cons] at hitem hstart
      have htail := ih (Nat.lt_of_succ_lt_succ hfuel) hitem.2 hstart.2
      rw [List.flatMap_cons, List.append_assoc]
      refine .next_true (List.prefix_append _ _) ?_
      refine (reads_skip s).bind (hitem.1.bind htail.map fun rest hrest => ?_) fun _ _ => rfl
      cases as with
      | nil => exact (hend rest hrest).1
      | cons a' as =>
        rw [List.flatMap_cons, List.append_assoc, List.append_assoc]
        exact hstart.2 a' List.mem_cons_self _

/-- Items are read until something comes that is not their separator. -/
theorem reads_many (hs : s ≠ "") (hitem : ∀ a ∈ as, Reads item (chars a) (value a) F)
    (hstart : ∀ a ∈ as, ∀ rest, F (s.toList ++ (chars a ++ rest)))
    (hend : ∀ rest, G rest → F rest ∧ s.toList.isPrefixOf rest = false) :
    Reads (many s item) (as.flatMap fun a => s.toList ++ chars a) (as.map value) G := by
  intro rest hrest
  have hlength : as.length ≤ (as.flatMap fun a => s.toList ++ chars a).length := by
    have hpos : 0 < s.toList.length := by
      rw [List.length_pos_iff]
      exact fun h => hs (String.toList_inj.1 h)
    clear hitem hstart
    induction as with
    | nil => exact Nat.zero_le _
    | cons a as ih =>
      rw [List.flatMap_cons, List.length_append, List.length_append, List.length_cons]
      omega
  have hwithin : as.length < ((as.flatMap fun a => s.toList ++ chars a) ++ rest).length + 1 := by
    rw [List.length_append]
    omega
  exact reads_manyWithin hwithin hitem hstart hend rest hrest

end Many

end InductiveTerms
