import InductiveTerms.Proofs.Display
import InductiveTerms.Proofs.Printable

/-!
Reading a term back from its text. The text of a printable term shows everything that equality sees:
`readTerm` finds the term without names and labels in it (`reads_readTerm`), so printable terms that
are shown alike are equal (`beq_of_render_eq`).
-/
namespace InductiveTerms

namespace Reader

def castKind : Reader CastKind := do
  let w ← word
  StateT.lift ([CastKind.vm, .default, .revert, .native].find? (·.name == w))

/-- A variable or a global name. -/
def name : Reader Term := do
  let x ← word
  if ← look indexed then
    skip ","
    let i ← number
    return .var "" i
  else
    return .global x

/-- Takes a name and a colon if they are there. -/
def binderName : Reader Unit := do
  let text ← get
  let rest := text.dropWhile isWordChar
  if " : ".toList.isPrefixOf rest then set (rest.drop 3) else pure ()

/-- Parameters and result from the items of a product. -/
def splitLast : Term → List Term → List (Param Term) × Term
  | t, [] => ([], t)
  | t, u :: us => (⟨none, t⟩ :: (splitLast u us).1, (splitLast u us).2)

section Nodes
variable (term : Reader Term)

def letIn : Reader Term := do
  skip "let "
  let _ ← word
  skip " : "
  let t ← term
  skip " := "
  let v ← term
  skip " in ("
  let b ← term
  skip ")"
  return .letIn none v t b

def cast : Reader Term := do
  skip "Cast("
  let t ← term
  skip ","
  let k ← castKind
  skip ","
  let ty ← term
  skip ")"
  return .cast t k ty

def branch : Reader (Branch Term) := do
  let x ← word
  skip " "
  let n ← number
  skip " => "
  let t ← term
  return ⟨x, n, t⟩

def caseOf : Reader Term := do
  skip "match "
  let s ← term
  skip " casetype "
  let p ← term
  let bs ← many "| " (branch term)
  skip " end"
  return .caseOf p s bs

/-- A parameter of a bundle function, after the parenthesis that opens it. -/
def param : Reader (Param Term) := do
  let _ ← word
  skip " : "
  let t ← term
  skip ")"
  return ⟨none, t⟩

def function : Reader (String × FixFunction Term) := do
  let x ← word
  let ps ← many " (" (param term)
  skip " : "
  let r ← term
  skip " := "
  let b ← term
  return (x, ⟨"", ps, r, b⟩)

def fix : Reader Term := do
  skip "fix "
  let f ← function term
  let fs ← many " with " (function term)
  skip " for "
  let x ← word
  skip ")"
  return .fix (((f :: fs).map Prod.fst).idxOf x) ⟨none, (f :: fs).map Prod.snd⟩

/-- An item of a product or a function. -/
def item : Reader Term := do
  binderName
  term

/-- What follows the first item of a product or a function. -/
def binders (sep : String) (make : List (Param Term) → Term → Term) (t : Term) : Reader Term := do
  let ts ← many sep (item term)
  skip ")"
  return make (splitLast t ts).1 (splitLast t ts).2

/-- A product, a function or an application; the separator tells which. -/
def items : Reader Term := do
  let t ← item term
  if ← next " -> " then binders term " -> " .product t
  else if ← next " => " then binders term " => " .lambda t
  else
    let ts ← many " " term
    skip ")"
    return t.applyTo ts

def group : Reader Term := do
  skip "("
  if (← ahead) = "fix" then fix term else items term

/-- A term that starts with the word `w`. -/
def startingWith (w : String) : Reader Term :=
  if w = "" then group term
  else if w = "let" then letIn term
  else if w = "Cast" then cast term
  else if w = "match" then caseOf term
  else
    match [Universe.set, .prop, .sprop, .type].find? (·.name == w) with
    | some u => do skip w; return .univ u
    | none => name

/-- A term whose children are found by `term`. -/
def node : Reader Term := do
  startingWith term (← ahead)

end Nodes

/-- A term with fewer than `fuel` nodes one in another. -/
def readTerm : (fuel : Nat) → Reader Term
  | 0 => failure
  | fuel + 1 => node (readTerm fuel)

/-- A printable term that a reader finds in its text. -/
structure Knows (term : Reader Term) (t : Term) : Prop where
  printable : t.Printable
  reads : Reads term t.render.toList t.bare follows

structure KnowsParam (term : Reader Term) (p : Param Term) : Prop where
  named : Named p.name
  type : term.Knows p.type

end Reader

open Reader
variable {term : Reader Term}

section Words

theorem reads_castKind (k : CastKind) : Reads castKind k.name.toList k breaks := by
  intro rest hrest
  rw [castKind, StateT.run_bind, reads_word (isWord_castKind k) rest hrest]
  cases k <;> rfl

/-- A name stands alone unless an index follows. -/
theorem reads_global {x : String} (hx : IsName x) :
    Reads name (Term.global x).render.toList (Term.global x).bare follows := by
  rw [Term.render, ← List.append_nil x.toList]
  refine (reads_word hx.word).bind ?_ fun rest hrest => (follows_iff.1 hrest).1
  refine .look (fun rest hrest => (follows_iff.1 hrest).2.1) ?_
  rw [if_neg Bool.false_ne_true]
  exact fun _ _ => rfl

theorem reads_var {x : String} (hx : IsName x) (i : Nat) :
    Reads name (Term.var x i).render.toList (Term.var x i).bare follows := by
  have hindexed : ∀ rest, indexed (",".toList ++ i.repr.toList ++ rest) := by
    intro rest
    cases hi : i.repr.toList with
    | nil => exact absurd (String.toList_inj.1 hi) Nat.repr_ne_empty
    | cons c cs =>
      have hmem : c ∈ Nat.toDigits 10 i := by
        rw [← Nat.toList_repr, hi]
        exact List.mem_cons_self
      exact Nat.isDigit_of_mem_toDigits (by decide) (by decide) hmem
  rw [Term.render]
  simp only [String.toList_append, List.append_assoc]
  refine (reads_word hx.word).bind ?_ fun _ _ => rfl
  refine .look (fun rest _ => hindexed rest) ?_
  rw [if_pos rfl]
  refine (reads_skip ",").bind ?_ fun _ _ => rfl
  exact (reads_number i).map.imp fun rest hrest => (follows_iff.1 hrest).1

end Words

-- Each of these readers takes the pieces of a text in their order. What follows a piece starts with
-- a piece of notation, so that it is clear by computation where the piece ends.
section Pieces

theorem reads_letIn {x : Option String} {v t b : Term} (hx : Named x) (hv : term.Knows v)
    (ht : term.Knows t) (hb : term.Knows b) :
    Reads (letIn term) (Term.letIn x v t b).render.toList (Term.letIn x v t b).bare anyText := by
  rw [Term.render, Term.bare_letIn]
  simp only [String.toList_append, List.append_assoc]
  refine (reads_skip "let ").bind ?_ fun _ _ => rfl
  refine (reads_word (isWord_getD hx)).bind ?_ fun _ _ => rfl
  refine (reads_skip " : ").bind ?_ fun _ _ => rfl
  refine ht.reads.bind ?_ fun _ _ => rfl
  refine (reads_skip " := ").bind ?_ fun _ _ => rfl
  refine hv.reads.bind ?_ fun _ _ => rfl
  refine (reads_skip " in (").bind ?_ fun _ _ => rfl
  refine hb.reads.bind ?_ fun _ _ => rfl
  exact (reads_skip ")").map

theorem reads_cast {t ty : Term} (k : CastKind) (ht : term.Knows t) (hty : term.Knows ty) :
    Reads (cast term) (Term.cast t k ty).render.toList (Term.cast t k ty).bare anyText := by
  rw [Term.render, Term.bare_cast]
  simp only [String.toList_append, List.append_assoc]
  refine (reads_skip "Cast(").bind ?_ fun _ _ => rfl
  -- No kind of cast starts with a digit, so the comma before it belongs to no variable.
  refine ht.reads.bind ?_ fun _ _ => by cases k <;> rfl
  refine (reads_skip ",").bind ?_ fun _ _ => rfl
  refine (reads_castKind k).bind ?_ fun _ _ => rfl
  refine (reads_skip ",").bind ?_ fun _ _ => rfl
  refine hty.reads.bind ?_ fun _ _ => rfl
  exact (reads_skip ")").map

theorem reads_branch {b : Branch Term} (hb : IsName b.constructor) (hbody : term.Knows b.body) :
    Reads (branch term) b.render.toList (Term.bareBranch b) follows := by
  rw [Branch.render]
  simp only [String.toList_append, List.append_assoc]
  refine (reads_word hb.word).bind ?_ fun _ _ => rfl
  refine (reads_skip " ").bind ?_ fun _ _ => rfl
  refine (reads_number b.arity).bind ?_ fun _ _ => rfl
  refine (reads_skip " => ").bind ?_ fun _ _ => rfl
  exact hbody.reads.map

theorem reads_caseOf {p s : Term} {bs : List (Branch Term)}
    (hnames : ∀ b ∈ bs, IsName b.constructor) (hs : term.Knows s) (hp : term.Knows p)
    (hbs : ∀ b ∈ bs, term.Knows b.body) :
    Reads (caseOf term) (Term.caseOf p s bs).render.toList (Term.caseOf p s bs).bare anyText := by
  have hend : ∀ rest, " end".toList.isPrefixOf rest →
      follows rest ∧ "| ".toList.isPrefixOf rest = false := forall_of_start fun _ => ⟨rfl, rfl⟩
  have hbranches := reads_many (s := "| ") (by decide)
    (fun b hb => reads_branch (hnames b hb) (hbs b hb)) (fun _ _ _ => rfl) hend
  rw [Term.render, Term.bare_caseOf]
  simp only [String.toList_append, List.append_assoc]
  rw [toList_renderBranches]
  refine (reads_skip "match ").bind ?_ fun _ _ => rfl
  refine hs.reads.bind ?_ fun _ _ => rfl
  refine (reads_skip " casetype ").bind ?_ fun _ _ => rfl
  refine hp.reads.bind ?_ fun _ _ => by cases bs <;> rfl
  refine hbranches.bind ?_ fun _ _ => rfl
  exact (reads_skip " end").map

theorem reads_param {p : Param Term} (hp : term.KnowsParam p) :
    Reads (param term) (p.name.getD "_" ++ " : " ++ p.type.render ++ ")").toList
      (Term.bareParam p) anyText := by
  simp only [String.toList_append, List.append_assoc]
  refine (reads_word (isWord_getD hp.named)).bind ?_ fun _ _ => rfl
  refine (reads_skip " : ").bind ?_ fun _ _ => rfl
  refine hp.type.reads.bind ?_ fun _ _ => rfl
  exact (reads_skip ")").map

theorem reads_function {f : FixFunction Term} (hname : IsName f.name)
    (hps : ∀ p ∈ f.params, term.KnowsParam p) (hr : term.Knows f.result)
    (hb : term.Knows f.body) :
    Reads (function term) (renderFunction f).toList (f.name, Term.bareFunction f) follows := by
  have hend : ∀ rest, " : ".toList.isPrefixOf rest →
      anyText rest ∧ " (".toList.isPrefixOf rest = false := forall_of_start fun _ => ⟨rfl, rfl⟩
  have hparams := reads_many (s := " (") (by decide)
    (fun p hp => reads_param (hps p hp)) (fun _ _ _ => rfl) hend
  rw [renderFunction]
  simp only [String.toList_append, List.append_assoc]
  rw [toList_renderParams]
  refine (reads_word hname.word).bind ?_ fun _ _ => by cases f.params <;> rfl
  refine hparams.bind ?_ fun _ _ => rfl
  refine (reads_skip " : ").bind ?_ fun _ _ => rfl
  refine hr.reads.bind ?_ fun _ _ => rfl
  refine (reads_skip " := ").bind ?_ fun _ _ => rfl
  exact hb.reads.map

end Pieces

section Groups

theorem reads_fix {i : Nat} {l : Option Nat} {fs : List (FixFunction Term)}
    (hnode : (Term.fix i ⟨l, fs⟩).PrintableNode)
    (hfs : ∀ f ∈ fs, Reads (function term) (renderFunction f).toList
      (f.name, Term.bareFunction f) follows) :
    Reads (group term) (Term.fix i ⟨l, fs⟩).render.toList (Term.fix i ⟨l, fs⟩).bare anyText := by
  obtain ⟨hi, hnodup, hnames⟩ := hnode
  obtain ⟨f, hf⟩ : ∃ f, fs[i]? = some f := ⟨_, List.getElem?_eq_getElem hi⟩
  have hname := (hnames f (List.mem_of_getElem? hf)).1
  have hindex : (fs.map FixFunction.name).idxOf f.name = i := by
    obtain ⟨hi, rfl⟩ := List.getElem?_eq_some_iff.1 hf
    have hname := hnodup.idxOf_getElem i (by rw [List.length_map]; exact hi)
    rwa [List.getElem_map] at hname
  have hend : ∀ rest, " for ".toList.isPrefixOf rest →
      follows rest ∧ " with ".toList.isPrefixOf rest = false := forall_of_start fun _ => ⟨rfl, rfl⟩
  have hopen : "(fix ".toList = "(".toList ++ "fix ".toList := rfl
  cases fs with
  | nil => cases hf
  | cons g gs =>
    have hindex : (g.name :: gs.map fun f => f.name).idxOf f.name = i := hindex
    rw [List.forall_mem_cons] at hfs
    have hothers := reads_many (s := " with ") (by decide) hfs.2 (fun _ _ _ => rfl) hend
    rw [Term.render, Term.bare_fix]
    simp only [hf, String.toList_append, List.append_assoc]
    rw [toList_renderFunctions, hopen, List.append_assoc, List.append_assoc]
    refine (reads_skip "(").bind (.ahead (w := "fix") (fun _ _ => rfl) ?_) fun _ _ => rfl
    rw [if_pos rfl]
    refine (reads_skip "fix ").bind ?_ fun _ _ => rfl
    refine hfs.1.bind ?_ fun _ _ => by cases gs <;> rfl
    refine hothers.bind ?_ fun _ _ => rfl
    refine (reads_skip " for ").bind ?_ fun _ _ => rfl
    refine (reads_word hname.word).bind ?_ fun _ _ => rfl
    simp only [List.map_cons, List.map_map, Function.comp_def, hindex]
    exact (reads_skip ")").map

theorem reads_binderName {x : String} (hx : IsWord x) :
    Reads binderName (x.toList ++ " : ".toList) () anyText := by
  intro rest _
  have hdrop : (x.toList ++ " : ".toList ++ rest).dropWhile isWordChar = " : ".toList ++ rest := by
    rw [List.append_assoc]
    exact dropWhile_word hx rfl
  have hprefix : " : ".toList.isPrefixOf (" : ".toList ++ rest) := rfl
  simp only [binderName, StateT.run_bind, StateT.run_get, pure_bind, hdrop, hprefix, if_true]
  rfl

/-- A term has nothing at its front that looks like the name of a binder. -/
theorem reads_unnamed {t : Term} (ht : term.Knows t) :
    Reads (item term) t.render.toList t.bare follows := by
  intro rest hrest
  obtain ⟨hword, back, hback, hafter⟩ := ht.printable.front_spec
  obtain ⟨hbreaks, hcolon⟩ := hafter rest hrest
  have hdrop : (t.render.toList ++ rest).dropWhile isWordChar = back ++ rest := by
    rw [hback, List.append_assoc, dropWhile_word hword hbreaks]
  rw [item, StateT.run_bind, ← ht.reads rest hrest]
  simp only [binderName, StateT.run_bind, StateT.run_get, pure_bind, hdrop, hcolon]
  rfl

theorem reads_item {p : Param Term} (hp : term.KnowsParam p) :
    Reads (item term) (renderItem p).toList p.type.bare follows := by
  obtain ⟨_ | x, t⟩ := p
  · exact reads_unnamed hp.type
  · rw [renderItem, String.toList_append, String.toList_append]
    exact (reads_binderName (hp.named x rfl).word).bind hp.type.reads fun _ _ => rfl

theorem splitLast_types (t r : Term) (ps : List (Param Term)) :
    splitLast t.bare ((ps ++ [(⟨none, r⟩ : Param Term)]).map fun q => q.type.bare) =
      (⟨none, t.bare⟩ :: ps.map Term.bareParam, r.bare) := by
  induction ps generalizing t with
  | nil => rfl
  | cons p ps ih =>
    rw [List.cons_append, List.map_cons, splitLast, ih, List.map_cons, Term.bareParam]

variable {p : Param Term} {ps : List (Param Term)} {r : Term}

/-- The items that come after the first one are the other parameters and the result. -/
theorem reads_binders {sep : String} (hsep : sep = " -> " ∨ sep = " => ")
    (make : List (Param Term) → Term → Term) (hps : ∀ q ∈ ps, term.KnowsParam q)
    (hr : term.Knows r) :
    Reads (binders term sep make p.type.bare) (tailChars sep ps r ++ ")".toList)
      (make ((p :: ps).map Term.bareParam) r.bare) anyText := by
  have hitems : ∀ q ∈ ps ++ [(⟨none, r⟩ : Param Term)],
      Reads (item term) (renderItem q).toList q.type.bare follows := by
    intro q hq
    rcases List.mem_append.1 hq with hq | hq
    · exact reads_item (hps q hq)
    · rw [List.mem_singleton.1 hq]
      exact reads_unnamed hr
  have hmany : Reads (many sep (item term)) (tailChars sep ps r)
      ((ps ++ [(⟨none, r⟩ : Param Term)]).map fun q => q.type.bare) ")".toList.isPrefixOf := by
    rcases hsep with rfl | rfl <;>
      exact reads_many (by decide) hitems (fun _ _ _ => rfl) (forall_of_start fun _ => ⟨rfl, rfl⟩)
  refine hmany.bind ?_ fun _ _ => rfl
  rw [splitLast_types, List.map_cons, Term.bareParam]
  exact (reads_skip ")").map

/-- A group that does not start with the keyword of a bundle. -/
theorem reads_items {text : List Char} {t : Term} (hp : term.KnowsParam p)
    (htext : ∀ rest, follows (text ++ rest))
    (h : Reads (items term) ((renderItem p).toList ++ text) t anyText) :
    Reads (group term) ("(".toList ++ ((renderItem p).toList ++ text)) t anyText := by
  have hahead : ∃ w, w ≠ "fix" ∧ ∀ rest,
      ((renderItem p).toList ++ text ++ rest).takeWhile isWordChar = w.toList := by
    obtain ⟨_ | x, u⟩ := p
    · refine ⟨u.front, hp.type.printable.front_ne_fix, fun rest => ?_⟩
      rw [List.append_assoc]
      exact hp.type.printable.takeWhile_eq (htext rest)
    · have hx := hp.named x rfl
      refine ⟨x, hx.ne (by decide), fun rest => ?_⟩
      rw [renderItem]
      simp only [String.toList_append, List.append_assoc]
      exact takeWhile_word hx.word rfl
  obtain ⟨w, hw, hahead⟩ := hahead
  refine (reads_skip "(").bind (.ahead (fun rest _ => hahead rest) ?_) fun _ _ => rfl
  rwa [if_neg hw]

theorem reads_product (hps : ∀ q ∈ p :: ps, term.KnowsParam q) (hr : term.Knows r) :
    Reads (group term) (Term.product (p :: ps) r).render.toList (Term.product (p :: ps) r).bare
      anyText := by
  rw [List.forall_mem_cons] at hps
  obtain ⟨more, hmore⟩ := exists_tailChars " -> " ps r
  rw [toList_render_product, Term.bare_product]
  refine reads_items hps.1 (fun rest => by rw [hmore]; rfl) ?_
  refine (reads_item hps.1).bind ?_ fun rest _ => by rw [hmore]; rfl
  refine .next_true (s := " -> ") ⟨more ++ ")".toList, by rw [hmore, List.append_assoc]⟩ ?_
  rw [if_pos rfl]
  exact reads_binders (.inl rfl) .product hps.2 hr

theorem reads_lambda (hps : ∀ q ∈ p :: ps, term.KnowsParam q) (hr : term.Knows r) :
    Reads (group term) (Term.lambda (p :: ps) r).render.toList (Term.lambda (p :: ps) r).bare
      anyText := by
  rw [List.forall_mem_cons] at hps
  obtain ⟨more, hmore⟩ := exists_tailChars " => " ps r
  rw [toList_render_lambda, Term.bare_lambda]
  refine reads_items hps.1 (fun rest => by rw [hmore]; rfl) ?_
  refine (reads_item hps.1).bind ?_ fun rest _ => by rw [hmore]; rfl
  refine .look (fun rest _ => by rw [hmore]; rfl) ?_
  rw [if_neg Bool.false_ne_true]
  refine .next_true (s := " => ") ⟨more ++ ")".toList, by rw [hmore, List.append_assoc]⟩ ?_
  rw [if_pos rfl]
  exact reads_binders (.inr rfl) .lambda hps.2 hr

theorem reads_apply {f : Term} {as : Arguments Term} (hf : term.Knows f)
    (has : ∀ a ∈ as.toList, term.Knows a) :
    Reads (group term) (Term.apply f as).render.toList (Term.apply f as).bare anyText := by
  have hprintable : ∀ a ∈ as.toList, a.Printable := fun a ha => (has a ha).printable
  have hfirst : term.KnowsParam ⟨none, f⟩ := ⟨nofun, hf⟩
  have hend : ∀ rest, ")".toList.isPrefixOf rest →
      follows rest ∧ " ".toList.isPrefixOf rest = false := forall_of_start fun _ => ⟨rfl, rfl⟩
  have hargs := reads_many (s := " ") (by decide) (fun a ha => (has a ha).reads)
    (fun a ha rest => (hprintable a ha).follows_arg rest) hend
  rw [← toList_renderArgs] at hargs
  have hitem : f.render = renderItem ⟨none, f⟩ := rfl
  rw [Term.render_apply, Term.bare_apply, hitem]
  simp only [String.toList_append, List.append_assoc]
  refine reads_items hfirst (Term.follows_args hprintable) ?_
  refine (reads_item hfirst).bind ?_ fun rest _ => Term.follows_args hprintable rest
  refine .look (fun rest _ => Term.isPrefixOf_args hprintable rfl rfl rest) ?_
  rw [if_neg Bool.false_ne_true]
  refine .look (fun rest _ => Term.isPrefixOf_args hprintable rfl rfl rest) ?_
  rw [if_neg Bool.false_ne_true]
  refine hargs.bind ?_ fun _ _ => rfl
  exact (reads_skip ")").map

end Groups

section Terms

theorem startingWith_name {x : String} (hx : IsName x) : startingWith term x = name := by
  have hne : ∀ k ∈ keywords, x ≠ k := fun k hk => hx.ne hk
  have huniverse : [Universe.set, .prop, .sprop, .type].find? (·.name == x) = none := by
    rw [List.find?_eq_none]
    intro u _
    rw [beq_iff_eq]
    cases u <;> exact (hne _ (by decide)).symm
  rw [startingWith, if_neg hx.nonempty, if_neg (hne _ (by decide)), if_neg (hne _ (by decide)),
    if_neg (hne _ (by decide)), huniverse]

theorem reads_univ (u : Universe) :
    Reads (startingWith term u.name) (Term.univ u).render.toList (Term.univ u).bare anyText := by
  have hstart : startingWith term u.name = do skip u.name; return .univ u := by
    cases u <;> rfl
  rw [hstart]
  exact (reads_skip u.name).map

theorem knowsParams {ps : List (Param Term)} {d : Nat} (hnamed : ∀ p ∈ ps, Named p.name)
    (h : ∀ c ∈ Term.paramTypes ps d, term.Knows c.1) : ∀ p ∈ ps, term.KnowsParam p :=
  fun p hp => ⟨hnamed p hp, Term.forall_types h p hp⟩

/-- A node is found in its text when its children are. -/
theorem reads_node {t : Term} (h : t.Printable) (hchildren : ∀ c ∈ t.children 0, term.Knows c.1) :
    Reads (node term) t.render.toList t.bare follows := by
  refine .ahead (fun _ hrest => h.takeWhile_eq hrest) ?_
  have hnode := h.node
  cases t with
  | var x i =>
    rw [Term.front, startingWith_name hnode]
    exact reads_var hnode i
  | global x =>
    rw [Term.front, startingWith_name hnode]
    exact reads_global hnode
  | univ u => exact (reads_univ u).imp fun _ _ => rfl
  | product ps r =>
    simp only [Term.children, List.forall_mem_append, List.forall_mem_singleton] at hchildren
    have hps := knowsParams hnode.2 hchildren.1
    cases ps with
    | nil => exact absurd rfl hnode.1
    | cons p ps => exact (reads_product hps hchildren.2).imp fun _ _ => rfl
  | lambda ps b =>
    simp only [Term.children, List.forall_mem_append, List.forall_mem_singleton] at hchildren
    have hps := knowsParams hnode.2 hchildren.1
    cases ps with
    | nil => exact absurd rfl hnode.1
    | cons p ps => exact (reads_lambda hps hchildren.2).imp fun _ _ => rfl
  | letIn x v t b =>
    simp only [Term.children, List.forall_mem_cons] at hchildren
    obtain ⟨hv, ht, hb, -⟩ := hchildren
    exact (reads_letIn hnode hv ht hb).imp fun _ _ => rfl
  | apply f as =>
    simp only [Term.children, List.forall_mem_cons, List.forall_mem_map] at hchildren
    exact (reads_apply hchildren.1 hchildren.2).imp fun _ _ => rfl
  | cast t k ty =>
    simp only [Term.children, List.forall_mem_cons] at hchildren
    exact (reads_cast k hchildren.1 hchildren.2.1).imp fun _ _ => rfl
  | caseOf p s bs =>
    simp only [Term.children, List.forall_mem_cons, List.forall_mem_map] at hchildren
    obtain ⟨hp, hs, hbs⟩ := hchildren
    exact (reads_caseOf hnode hs hp hbs).imp fun _ _ => rfl
  | fix i b =>
    obtain ⟨l, fs⟩ := b
    simp only [Term.children, List.mem_flatMap, forall_exists_index, and_imp] at hchildren
    have hfs : ∀ f ∈ fs, Reads (function term) (renderFunction f).toList
        (f.name, Term.bareFunction f) follows := by
      intro f hf
      have hbelow := fun c hc => hchildren c f hf hc
      simp only [List.forall_mem_append, List.forall_mem_cons] at hbelow
      obtain ⟨hps, hr, hb, -⟩ := hbelow
      obtain ⟨hname, hnamed⟩ := hnode.2.2 f hf
      exact reads_function hname (knowsParams hnamed hps) hr hb
    exact (reads_fix hnode hfs).imp fun _ _ => rfl

/-- A printable term is found in its text, whatever may follow a term there. -/
theorem reads_readTerm {t : Term} (h : t.Printable) {fuel : Nat} (hfuel : sizeOf t < fuel) :
    Reads (readTerm fuel) t.render.toList t.bare follows := by
  induction fuel generalizing t with
  | zero => cases hfuel
  | succ fuel ih =>
    refine reads_node h fun c hc => ⟨h.children c hc, ih (h.children c hc) ?_⟩
    exact Nat.lt_of_lt_of_le (Term.sizeOf_lt_of_mem_children hc) (Nat.le_of_lt_succ hfuel)

/-- Printable terms that are shown alike are equal. -/
theorem beq_of_render_eq {t u : Term} (ht : t.Printable) (hu : u.Printable)
    (h : t.render = u.render) : t == u := by
  have hread : ∀ {v : Term}, v.Printable → sizeOf v < sizeOf t + sizeOf u + 1 →
      (readTerm (sizeOf t + sizeOf u + 1)).run v.render.toList = some (v.bare, []) := by
    intro v hv hsize
    have hreads := reads_readTerm hv hsize [] rfl
    rwa [List.append_nil] at hreads
  have hleft := hread ht (by omega)
  have hright := hread hu (by omega)
  rw [h, hright] at hleft
  have hbare : u.bare = t.bare := (Prod.mk.inj (Option.some.inj hleft)).1
  exact (Term.same_iff_bare_eq t u).2 hbare.symm

/-- A function of a bundle with a let whose variable is not used; neither the name of that variable
nor the label is seen. -/
def unusedLet (label : Nat) (x : Option String) : Term :=
  .fix 0 ⟨some label, [⟨"f", [⟨some "n", .global "nat"⟩],
    .product [⟨none, .univ .set⟩] (.univ .prop),
    .letIn x (.cast (.var "n" 0) .vm (.global "nat")) (.global "nat")
      (.lambda [⟨some "T", .univ .set⟩]
        (.caseOf (.univ .prop) (.var "n" 2) [⟨"O", 0, .global "True"⟩,
          ⟨"S", 1, .applyTo (.var "f" 4) [.var "m" 0, .var "T" 1]⟩]))⟩]⟩

theorem beq_of_render_eq_unusedLet :
    (unusedLet 1 none).Printable ∧ (unusedLet 2 (some "_")).Printable ∧
      (unusedLet 1 none).render = (unusedLet 2 (some "_")).render ∧
        unusedLet 1 none == unusedLet 2 (some "_") := by
  have hleft : (unusedLet 1 none).Printable := by decide
  have hright : (unusedLet 2 (some "_")).Printable := by decide
  have hrender : (unusedLet 1 none).render = (unusedLet 2 (some "_")).render := by decide
  exact ⟨hleft, hright, hrender, beq_of_render_eq hleft hright hrender⟩

end Terms

end InductiveTerms
