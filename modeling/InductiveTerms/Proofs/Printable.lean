import InductiveTerms.Proofs.Nodes
import InductiveTerms.Proofs.Readers
import InductiveTerms.Term.Printer

/-!
Terms whose text can be read. A name that is a word and no keyword is shown as what it is; with such
names, with parameters in every product and function, and with selections in range of bundles whose
functions have different names, a term is `Printable`.

What stands at the front of the text of a printable term is one word, or a parenthesis
(`Printable.front_spec`). That word tells what the term is, and the text after it cannot be taken
for the colon of a binder.
-/
namespace InductiveTerms

/-- The words that are part of the notation. -/
def keywords : List String :=
  ["Set", "Prop", "SProp", "Type", "let", "in", "match", "casetype", "end", "fix", "with", "for",
    "Cast", "VMcast", "DEFAULTcast", "REVERTcast", "NATIVEcast"]

/-- A name that is shown as what it is. -/
structure IsName (x : String) : Prop where
  nonempty : x ≠ ""
  word : IsWord x
  notKeyword : x ∉ keywords

instance (x : String) : Decidable (IsName x) :=
  decidable_of_iff (x ≠ "" ∧ IsWord x ∧ x ∉ keywords)
    ⟨fun h => ⟨h.1, h.2.1, h.2.2⟩, fun h => ⟨h.nonempty, h.word, h.notKeyword⟩⟩

theorem IsName.ne {x k : String} (h : IsName x) (hk : k ∈ keywords) : x ≠ k := by
  rintro rfl
  exact h.notKeyword hk

/-- Whether a display name is a name, if there is one. -/
def Named (x : Option String) : Prop := ∀ y ∈ x, IsName y

instance : DecidablePred Named
  | none => .isTrue nofun
  | some y => decidable_of_iff (IsName y) ⟨fun h _ hy => Option.some.inj hy ▸ h, fun h => h y rfl⟩

namespace Term

/-- Whether the names at a node are shown as what they are and tell what the node is. -/
def PrintableNode : Term → Prop
  | .var x _ => IsName x
  | .global x => IsName x
  | .univ _ => True
  | .product ps _ => ps ≠ [] ∧ ∀ p ∈ ps, Named p.name
  | .lambda ps _ => ps ≠ [] ∧ ∀ p ∈ ps, Named p.name
  | .letIn x _ _ _ => Named x
  | .apply .. => True
  | .cast .. => True
  | .caseOf _ _ bs => ∀ b ∈ bs, IsName b.constructor
  | .fix i b => i < b.size ∧ (b.functions.map FixFunction.name).Nodup ∧
      ∀ f ∈ b.functions, IsName f.name ∧ ∀ p ∈ f.params, Named p.name

instance : DecidablePred PrintableNode
  | .var x _ => inferInstanceAs (Decidable (IsName x))
  | .global x => inferInstanceAs (Decidable (IsName x))
  | .univ _ => .isTrue trivial
  | .product ps _ => inferInstanceAs (Decidable (ps ≠ [] ∧ ∀ p ∈ ps, Named p.name))
  | .lambda ps _ => inferInstanceAs (Decidable (ps ≠ [] ∧ ∀ p ∈ ps, Named p.name))
  | .letIn x _ _ _ => inferInstanceAs (Decidable (Named x))
  | .apply .. => .isTrue trivial
  | .cast .. => .isTrue trivial
  | .caseOf _ _ bs => inferInstanceAs (Decidable (∀ b ∈ bs, IsName b.constructor))
  | .fix i b => inferInstanceAs (Decidable (i < b.size ∧
      (b.functions.map FixFunction.name).Nodup ∧
        ∀ f ∈ b.functions, IsName f.name ∧ ∀ p ∈ f.params, Named p.name))

def Printable (t : Term) : Prop := t.All PrintableNode

instance (t : Term) : Decidable t.Printable := inferInstanceAs (Decidable (t.All PrintableNode))

variable {t : Term}

theorem Printable.node (h : t.Printable) : t.PrintableNode := ((all_iff_children 0).1 h).1

theorem Printable.children (h : t.Printable) : ∀ c ∈ t.children 0, c.1.Printable :=
  ((all_iff_children 0).1 h).2

end Term

/-- Whether a text shows that the word before it is the name of a variable with an index. -/
def indexed : List Char → Bool
  | ',' :: c :: _ => c.isDigit
  | _ => false

/-- What may follow a term: nothing that would go on with its last word, or make that word the name
of a variable or of a binder. -/
def follows (rest : List Char) : Bool :=
  breaks rest && !indexed rest && !" : ".toList.isPrefixOf rest

theorem follows_iff {rest : List Char} : follows rest ↔
    breaks rest ∧ indexed rest = false ∧ " : ".toList.isPrefixOf rest = false := by
  simp [follows, and_assoc]

section Words

theorem isWord_getD {x : Option String} (h : Named x) : IsWord (x.getD "_") := by
  cases x with
  | none => decide
  | some y => exact (h y rfl).word

theorem isWord_castKind (k : CastKind) : IsWord k.name := by
  cases k <;> decide

/-- Whether a term may start with a character. -/
def startsTerm (c : Char) : Bool := isWordChar c || c == '('

/-- What starts like a term cannot be taken for an arrow or a colon. -/
theorem isPrefixOf_blank {s : String} {c d : Char} {cs ds : List Char}
    (hs : s.toList = ' ' :: d :: ds) (hd : startsTerm d = false) (hc : startsTerm c) :
    s.toList.isPrefixOf (' ' :: c :: cs) = false := by
  have hne : d ≠ c := by
    rintro rfl
    rw [hc] at hd
    cases hd
  simp [hs, List.isPrefixOf, hne]

theorem IsName.starts {x : String} (h : IsName x) :
    ∃ c cs, x.toList = c :: cs ∧ startsTerm c := by
  cases hx : x.toList with
  | nil => exact absurd (String.toList_inj.1 hx) h.nonempty
  | cons c cs =>
    have hc : isWordChar c := h.word c (by rw [hx]; exact List.mem_cons_self)
    exact ⟨c, cs, rfl, by rw [startsTerm, hc, Bool.true_or]⟩

end Words

section Lists

/-- The text of a parameter of a product or a function. -/
def renderItem : Param Term → String
  | ⟨some x, t⟩ => x ++ " : " ++ t.render
  | ⟨none, t⟩ => t.render

/-- The text of a function of a bundle. -/
def renderFunction (f : FixFunction Term) : String :=
  f.name ++ renderParams f.params ++ " : " ++ f.result.render ++ " := " ++ f.body.render

theorem Term.render_apply (f : Term) (as : Arguments Term) :
    (Term.apply f as).render = "(" ++ f.render ++ renderArgs as.toList ++ ")" := by
  rw [Term.render, Arguments.toList, renderArgs]
  simp only [String.append_assoc]

theorem toList_renderArgs (ts : List Term) :
    (renderArgs ts).toList = ts.flatMap fun t => " ".toList ++ t.render.toList := by
  induction ts with
  | nil => rfl
  | cons t ts ih => simp only [renderArgs, String.toList_append, ih, List.flatMap_cons]

theorem toList_renderBranches (bs : List (Branch Term)) :
    (renderBranches bs).toList = bs.flatMap fun b => "| ".toList ++ b.render.toList := by
  induction bs with
  | nil => rfl
  | cons b bs ih =>
    simp only [renderBranches, Branch.render, String.toList_append, ih, List.flatMap_cons,
      List.append_assoc]

theorem toList_renderParams (ps : List (Param Term)) :
    (renderParams ps).toList = ps.flatMap fun p =>
      " (".toList ++ (p.name.getD "_" ++ " : " ++ p.type.render ++ ")").toList := by
  induction ps with
  | nil => rfl
  | cons p ps ih =>
    simp only [renderParams, String.toList_append, ih, List.flatMap_cons, List.append_assoc]

theorem toList_renderFunctions (f : FixFunction Term) (fs : List (FixFunction Term)) :
    (" with ".intercalate (renderFunctions (f :: fs))).toList = (renderFunction f).toList ++
      fs.flatMap fun g => " with ".toList ++ (renderFunction g).toList := by
  induction fs generalizing f with
  | nil => simp [renderFunctions, renderFunction]
  | cons g fs ih =>
    rw [renderFunctions, List.flatMap_cons, List.append_assoc, ← ih g, renderFunctions,
      String.intercalate_cons_cons, String.toList_append, String.toList_append,
      List.append_assoc, renderFunction]

/-- The text of what follows the first parameter of a product or a function, each item after a
separator; the result is the last one. -/
def tailChars (sep : String) (ps : List (Param Term)) (r : Term) : List Char :=
  (ps ++ [(⟨none, r⟩ : Param Term)]).flatMap fun q => sep.toList ++ (renderItem q).toList

theorem tailChars_cons (sep : String) (p : Param Term) (ps : List (Param Term)) (r : Term) :
    tailChars sep (p :: ps) r =
      sep.toList ++ ((renderItem p).toList ++ tailChars sep ps r) := by
  rw [tailChars, List.cons_append, List.flatMap_cons, List.append_assoc, ← tailChars]

theorem exists_tailChars (sep : String) (ps : List (Param Term)) (r : Term) :
    ∃ more, tailChars sep ps r = sep.toList ++ more := by
  cases ps with
  | nil => exact ⟨_, by rw [tailChars, List.nil_append, List.flatMap_cons, List.append_assoc]⟩
  | cons p ps => exact ⟨_, tailChars_cons sep p ps r⟩

theorem toList_renderBinders (sep : String) (p : Param Term) (ps : List (Param Term)) (r : Term) :
    (renderBinders sep (p :: ps)).toList ++ r.render.toList =
      (renderItem p).toList ++ tailChars sep ps r := by
  have hcons : ∀ p ps, (renderBinders sep (p :: ps)).toList =
      (renderItem p).toList ++ (sep.toList ++ (renderBinders sep ps).toList) := by
    intro p ps
    obtain ⟨_ | x, t⟩ := p <;>
      simp only [renderBinders, renderItem, String.toList_append, List.append_assoc]
  induction ps generalizing p with
  | nil => simp [hcons, renderBinders, renderItem, tailChars]
  | cons q ps ih => rw [hcons, List.append_assoc, List.append_assoc, ih, tailChars_cons]

theorem toList_render_product (p : Param Term) (ps : List (Param Term)) (r : Term) :
    (Term.product (p :: ps) r).render.toList =
      "(".toList ++ ((renderItem p).toList ++ (tailChars " -> " ps r ++ ")".toList)) := by
  rw [Term.render, ← List.append_assoc (renderItem p).toList, ← toList_renderBinders]
  simp only [String.toList_append, List.append_assoc]

theorem toList_render_lambda (p : Param Term) (ps : List (Param Term)) (b : Term) :
    (Term.lambda (p :: ps) b).render.toList =
      "(".toList ++ ((renderItem p).toList ++ (tailChars " => " ps b ++ ")".toList)) := by
  rw [Term.render, ← List.append_assoc (renderItem p).toList, ← toList_renderBinders]
  simp only [String.toList_append, List.append_assoc]

end Lists

namespace Term

/-- The word at the front of the text of a term, empty before a parenthesis. -/
def front : Term → String
  | .var x _ => x
  | .global x => x
  | .univ u => u.name
  | .letIn .. => "let"
  | .cast .. => "Cast"
  | .caseOf .. => "match"
  | _ => ""

namespace Printable
variable {t : Term} (h : t.Printable)
include h

theorem starts : ∃ c cs, t.render.toList = c :: cs ∧ startsTerm c := by
  cases t with
  | var x i =>
    obtain ⟨c, cs, hcs, hc⟩ := (h.node : IsName x).starts
    refine ⟨c, cs ++ (",".toList ++ i.repr.toList), ?_, hc⟩
    rw [render, String.toList_append, String.toList_append, hcs, List.append_assoc]
    rfl
  | global x => exact (h.node : IsName x).starts
  | univ u => cases u <;> exact ⟨_, _, rfl, rfl⟩
  | _ =>
    rw [render]
    simp only [String.toList_append, List.append_assoc]
    exact ⟨_, _, rfl, rfl⟩

theorem front_spec : IsWord t.front ∧ ∃ back, t.render.toList = t.front.toList ++ back ∧
    ∀ rest, follows rest →
      breaks (back ++ rest) ∧ " : ".toList.isPrefixOf (back ++ rest) = false := by
  cases t with
  | var x i =>
    refine ⟨(h.node : IsName x).word, ",".toList ++ i.repr.toList, ?_, fun _ _ => ⟨rfl, rfl⟩⟩
    rw [render, String.toList_append, String.toList_append, List.append_assoc]
    rfl
  | global x =>
    refine ⟨(h.node : IsName x).word, [], (List.append_nil _).symm, fun rest hrest => ?_⟩
    rw [follows_iff] at hrest
    exact ⟨hrest.1, hrest.2.2⟩
  | univ u =>
    refine ⟨by cases u <;> decide, [], (List.append_nil _).symm, fun rest hrest => ?_⟩
    rw [follows_iff] at hrest
    exact ⟨hrest.1, hrest.2.2⟩
  | letIn x v t b =>
    have hname : ∃ c cs, (x.getD "_").toList = c :: cs ∧ startsTerm c := by
      cases x with
      | none => exact ⟨_, _, rfl, rfl⟩
      | some y => exact (h.node y rfl : IsName y).starts
    obtain ⟨c, cs, hcs, hc⟩ := hname
    refine ⟨(by decide : IsWord "let"), ?_⟩
    rw [render, front]
    simp only [String.toList_append, List.append_assoc, hcs]
    exact ⟨' ' :: c :: _, rfl, fun _ _ => ⟨rfl, isPrefixOf_blank (s := " : ") rfl rfl hc⟩⟩
  | caseOf p s bs =>
    have hs : s.Printable := h.children (s, 0) (List.mem_cons_of_mem _ List.mem_cons_self)
    obtain ⟨c, cs, hcs, hc⟩ := hs.starts
    refine ⟨(by decide : IsWord "match"), ?_⟩
    rw [render, front]
    simp only [String.toList_append, List.append_assoc, hcs]
    exact ⟨' ' :: c :: _, rfl, fun _ _ => ⟨rfl, isPrefixOf_blank (s := " : ") rfl rfl hc⟩⟩
  | cast t k ty =>
    refine ⟨(by decide : IsWord "Cast"), ?_⟩
    rw [render, front]
    simp only [String.toList_append, List.append_assoc]
    exact ⟨'(' :: _, rfl, fun _ _ => ⟨rfl, rfl⟩⟩
  | _ =>
    refine ⟨(by decide : IsWord ""), ?_⟩
    rw [render]
    simp only [String.toList_append, List.append_assoc]
    exact ⟨'(' :: _, rfl, fun _ _ => ⟨rfl, rfl⟩⟩

theorem takeWhile_eq {rest : List Char} (hrest : follows rest) :
    (t.render.toList ++ rest).takeWhile isWordChar = t.front.toList := by
  obtain ⟨hword, back, hback, hafter⟩ := h.front_spec
  rw [hback, List.append_assoc, takeWhile_word hword (hafter rest hrest).1]

theorem front_ne_fix : t.front ≠ "fix" := by
  cases t with
  | var x i => exact (h.node : IsName x).ne (by decide)
  | global x => exact (h.node : IsName x).ne (by decide)
  | univ u => cases u <;> decide
  | _ => simp [front]

theorem isPrefixOf_arg {s : String} {d : Char} {ds : List Char} (hs : s.toList = ' ' :: d :: ds)
    (hd : startsTerm d = false) (rest : List Char) :
    s.toList.isPrefixOf (" ".toList ++ (t.render.toList ++ rest)) = false := by
  obtain ⟨c, cs, hcs, hc⟩ := h.starts
  rw [hcs]
  exact isPrefixOf_blank hs hd hc

theorem follows_arg (rest : List Char) :
    follows (" ".toList ++ (t.render.toList ++ rest)) :=
  follows_iff.2 ⟨rfl, rfl, h.isPrefixOf_arg rfl rfl rest⟩

end Printable

variable {as : List Term} (has : ∀ a ∈ as, a.Printable)
include has

/-- The arguments of an application cannot be taken for an arrow or a colon. -/
theorem isPrefixOf_args {s : String} {d : Char} {ds : List Char} (hs : s.toList = ' ' :: d :: ds)
    (hd : startsTerm d = false) (rest : List Char) :
    s.toList.isPrefixOf ((renderArgs as).toList ++ ")".toList ++ rest) = false := by
  cases as with
  | nil =>
    rw [hs]
    rfl
  | cons a as =>
    rw [toList_renderArgs, List.flatMap_cons]
    simp only [List.append_assoc]
    exact (has a List.mem_cons_self).isPrefixOf_arg hs hd _

theorem follows_args (rest : List Char) :
    follows ((renderArgs as).toList ++ ")".toList ++ rest) := by
  refine follows_iff.2 ⟨?_, ?_, isPrefixOf_args has rfl rfl rest⟩ <;>
    cases as <;> first | rfl | (rw [toList_renderArgs]; rfl)

end Term

end InductiveTerms
