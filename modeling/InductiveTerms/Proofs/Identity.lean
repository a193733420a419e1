import InductiveTerms.Proofs.Termination
import InductiveTerms.Proofs.Replacement

/-!
Specializing nothing. If no parameter is replaced, specialization takes a call apart and puts it
together again. Of a bundle that applies no abstraction it leaves the bundle itself just when every
function with parameters occurs only where it gets all its arguments at once
(`specialize_nothing_iff`); it regroups calls that are written in another way, and it reduces what
else the bundle applies.
-/
namespace InductiveTerms
open Term Traversal Index

/-- The function that a variable under `n` binders stands for, those of the bundle outermost. -/
def Bundle.functionAt? (b : Bundle Term) (n i : Nat) : Option (FixFunction Term) :=
  if i < n then b.function? (n - 1 - i) else none

/-- Whether every function with parameters occurs in a term under `n` binders only where it gets as
many arguments at once. -/
inductive Bundle.CallsAtOnce (b : Bundle Term) : Term → Nat → Prop
  | call {x : String} {i n : Nat} {as : Arguments Term} {f : FixFunction Term} :
      b.functionAt? n i = some f → as.toList.length = f.arity →
        (∀ a ∈ as.toList, CallsAtOnce b a n) → CallsAtOnce b (.apply (.var x i) as) n
  | node {t : Term} {n : Nat} :
      (∀ x i, t = .var x i → ∀ f, b.functionAt? n i = some f → f.arity = 0) →
        (∀ c ∈ t.children n, CallsAtOnce b c.1 c.2) → CallsAtOnce b t n

namespace Specialization

/-- Whether a pattern replaces no parameter. -/
def Nothing (p : Pattern) : Prop := ∀ s ∈ p, s = none

namespace Nothing
variable {p : Pattern}

theorem kept_eq (h : Nothing p) : p.kept = p.length :=
  List.countP_eq_length.2 fun s hs => by rw [h s hs]; rfl

theorem drop (h : Nothing p) (k : Nat) : Nothing (p.drop k) :=
  fun s hs => h s (List.mem_of_mem_drop hs)

theorem take (h : Nothing p) (k : Nat) : Nothing (p.take k) :=
  fun s hs => h s (List.mem_of_mem_take hs)

theorem keepArgs_eq (h : Nothing p) : ∀ {as : List Term}, p.length = as.length →
    keepArgs p as = as := by
  induction p with
  | nil =>
    intro as hlen
    rw [List.length_eq_zero_iff.1 hlen.symm]
    rfl
  | cons s p ih =>
    intro as hlen
    cases as with
    | nil => simp at hlen
    | cons a as =>
      obtain rfl : s = none := h s List.mem_cons_self
      have hrest := ih (fun s hs => h s (List.mem_cons_of_mem _ hs)) (by simpa using hlen)
      rw [keepArgs, hrest]

end Nothing

theorem shift_zero (t : Term) (limit : Nat) : t.shift limit (0 : Nat) = t := by
  simp [shift, shiftM, shift?]

section Calls
variable {f : FixFunction Term} {p : Pattern} {qs : List (Param Term)} {u w : Term}
  {as : Arguments Term} {i steps : Nat}

/-- What stands for a function with parameters, given as many arguments or more, is the function
applied to the arguments that it keeps; the arguments that are left over stay outside the call. -/
theorem bare_saturated_call (hlen : p.length = f.arity) (hqs : qs.length = f.arity)
    (hpos : 0 < f.arity) (has : f.arity ≤ as.toList.length)
    (hu : u.bare = .lambda qs ((Term.var "" (i + f.arity)).applyTo
      ((keptArguments f.params p).map bare)))
    (hw : (Term.apply u as).reduceHead steps = some w) :
    w.bare = ((Term.var "" i).applyTo ((keepArgs p (as.toList.take f.arity)).map bare)).applyTo
      ((as.toList.drop f.arity).map bare) := by
  obtain ⟨ps, c, rfl, _⟩ := eq_lambda_of_bare hu
  have hres : Residual f.arity (.lambda ps c) := ⟨hpos, qs, _, _, hu, hqs, by omega⟩
  have hmore := reduceHead_mono (Nat.le_succ steps) hw
  rw [hres.reduceHead as steps] at hmore
  obtain rfl := Option.some.inj hmore
  have htake : (as.toList.take f.arity).length = f.arity := by
    rw [List.length_take]
    omega
  have hargs : ((keptArguments f.params p).map bare).map
      (mapVars (substVar 0 (as.toList.take f.arity).reverse) · 0) =
        (keepArgs p (as.toList.take f.arity)).map bare := by
    rw [List.map_map]
    refine keptArguments_map (G := bare) f.params hlen htake ?_
    intro x j a ha
    rw [Function.comp_apply, bare_var, mapVars_var, substVar, add, if_neg (by omega)]
    simp only [Nat.add_zero, Nat.zero_min, Nat.sub_zero, ha]
    rw [shift_zero]
  rw [Residual.bare_beta_call hu (by omega) (by omega), hqs, hargs, Nat.add_sub_cancel]

theorem bare_call (hp : Nothing p) (hlen : p.length = f.arity) (hqs : qs.length = f.arity)
    (hpos : 0 < f.arity) (has : as.toList.length = f.arity)
    (hu : u.bare = .lambda qs ((Term.var "" (i + f.arity)).applyTo
      ((keptArguments f.params p).map bare)))
    (hw : (Term.apply u as).reduceHead steps = some w) :
    w.bare = .apply (.var "" i) (as.map bare) := by
  have hcall := bare_saturated_call hlen hqs hpos (Nat.le_of_eq has.symm) hu hw
  rw [← has, List.take_length, List.drop_length, hp.keepArgs_eq (by omega), List.map_nil,
    applyTo_nil, ← Arguments.toList_map, applyTo_toList] at hcall
  exact hcall

end Calls

section Variables
variable {b : Bundle Term} {info : SpecInfo} {namer : Nat → String} {q : Pattern} {steps d : Nat}
  {x : String} {i : Nat} {w : Term}

theorem functionAt?_of_lt {n : Nat} (h : i < n) : b.functionAt? n i = b.function? (n - 1 - i) :=
  if_pos h

theorem bare_of_functionAt?_eq_none (hq : Nothing q)
    (hi : b.functionAt? (b.size + q.length + d) i = none)
    (hw : Visited (b.plan steps info [] namer q).visitor (.var x i) d w) : w.bare = .var "" i := by
  cases Plan.visited_var hw with
  | inner => rfl
  | kept hle hlt _ =>
    have hlt : i < d + q.length := hlt
    have hindex : d + Pattern.kept (q.drop (q.length - 1 - (i - d) + 1)) = i := by
      rw [(hq.drop _).kept_eq, List.length_drop]
      omega
    change Term.bare (.var x (d + Pattern.kept (q.drop (q.length - 1 - (i - d) + 1)))) = _
    rw [hindex, bare_var]
  | constant _ _ _ hc => cases hc
  | function hle hlt _ =>
    have hle : d + q.length ≤ i := hle
    have hlt : i < d + q.length + b.size := hlt
    have hsome : b.size + q.length + d - 1 - i < b.functions.length := by
      change _ < b.size
      omega
    rw [functionAt?_of_lt (by omega), Bundle.function?, List.getElem?_eq_getElem hsome] at hi
    cases hi
  | outside =>
    change Term.bare (.var x (i - (q.length - q.kept))) = _
    rw [hq.kept_eq, Nat.sub_self, Nat.sub_zero, bare_var]

theorem mem_of_functionAt? {f : FixFunction Term} {n : Nat} (h : b.functionAt? n i = some f) :
    f ∈ b.functions := by
  unfold Bundle.functionAt? at h
  split at h
  · exact List.mem_of_getElem? h
  · cases h

/-- A variable that stands for a function of the bundle becomes an abstraction over the parameters
of the function that calls the new one. -/
theorem bare_of_functionAt? {constants : List Term} {f : FixFunction Term} {p : Pattern}
    (hdescribes : b.Describes p info) (hi : b.functionAt? (b.size + q.length + d) i = some f)
    (harity : f.arity + (i - d - q.length) ≤ maxIndex)
    (hw : Visited (b.plan steps info constants namer q).visitor (.var x i) d w) :
    ∃ q' qs, info[b.size + q.length + d - 1 - i]? = some q' ∧ q'.length = f.arity ∧
      qs.length = f.arity ∧ w.bare = lambdaOver qs
        ((Term.var "" (min (i - (q.length - q.kept) + f.arity) maxIndex)).applyTo
          ((keptArguments f.params q').map bare)) := by
  have hlt : i < b.size + q.length + d := by
    by_contra hlt
    rw [Bundle.functionAt?, if_neg hlt] at hi
    cases hi
  rw [functionAt?_of_lt hlt] at hi
  have hg := Bundle.lt_of_function? hi
  obtain ⟨q', hq'⟩ : ∃ q', info[b.size + q.length + d - 1 - i]? = some q' :=
    ⟨_, List.getElem?_eq_getElem (hdescribes.length_eq ▸ hg)⟩
  have hplace : b.size - 1 - (i - d - q.length) = b.size + q.length + d - 1 - i := by omega
  have hreplacement := replacements_getElem? b.size namer 0 b.functions hi hq'
  rw [Nat.zero_add] at hreplacement
  cases Plan.visited_var hw with
  | inner hinner => omega
  | kept _ hkept _ =>
    have hkept : i < d + q.length := hkept
    omega
  | constant _ hparam _ _ =>
    have hparam : i < d + q.length := hparam
    omega
  | outside houtside =>
    have houtside : d + q.length + b.size ≤ i := houtside
    omega
  | @function r hle _ hr =>
    have hle : d + q.length ≤ i := hle
    change (replacements b.size namer 0 b.functions info)[b.size - 1 - (i - d - q.length)]? = _
      at hr
    rw [hplace, hreplacement] at hr
    obtain rfl := Option.some.inj hr
    have hcount : f.arity ≤ maxIndex := by omega
    obtain ⟨qs, j, hbare, hlen, _, hexact⟩ := bare_shift_replacement q'
      (namer (b.size + q.length + d - 1 - i)) hg hcount (d + q.kept)
    have hkept : q.kept ≤ q.length := List.countP_le_length
    have hindex : f.arity + b.size - 1 - (b.size + q.length + d - 1 - i) + (d + q.kept) =
        i - (q.length - q.kept) + f.arity := by omega
    rw [hindex] at hexact
    rw [hexact (by omega)] at hbare
    exact ⟨q', qs, hq', (hdescribes.arity_eq hi hq').symm, hlen, hbare⟩

/-- Where nothing is replaced it becomes one that calls the function on all parameters, or stays if
there are none. -/
theorem bare_of_functionAt?_eq_some {f : FixFunction Term} {p : Pattern} (hq : Nothing q)
    (hdescribes : b.Describes p info) (hinfo : ∀ q ∈ info, Nothing q)
    (hi : b.functionAt? (b.size + q.length + d) i = some f) (hrange : i + f.arity ≤ maxIndex)
    (hw : Visited (b.plan steps info [] namer q).visitor (.var x i) d w) :
    f.arity = 0 ∧ w.bare = .var "" i ∨ 0 < f.arity ∧ ∃ qs q', qs.length = f.arity ∧
      q'.length = f.arity ∧ Nothing q' ∧ w.bare = .lambda qs
        ((Term.var "" (i + f.arity)).applyTo ((keptArguments f.params q').map bare)) := by
  obtain ⟨q', qs, hq', hlen', hlen, hbare⟩ :=
    bare_of_functionAt? hdescribes hi (by omega) hw
  rw [hq.kept_eq, Nat.sub_self, Nat.sub_zero, Nat.min_eq_left hrange] at hbare
  cases qs with
  | nil =>
    have hzero : f.arity = 0 := hlen.symm
    have hparams : f.params = [] := List.length_eq_zero_iff.1 hzero
    rw [hzero, hparams] at hbare
    refine .inl ⟨hzero, ?_⟩
    cases q' <;> exact hbare
  | cons y qs =>
    exact .inr ⟨hlen ▸ Nat.succ_pos _, y :: qs, q', hlen, hlen',
      hinfo q' (List.mem_of_getElem? hq'), hbare⟩

end Variables

section Nodes
variable {R : Term → Nat → Term → Prop} {t u : Term} {d : Nat}

theorem forall₂_exists_of_map_eq {α β γ : Type} {S : α → β → Prop} {F : α → γ} {G : β → γ}
    {as : List α} {bs : List β} (h : List.Forall₂ S as bs) (heq : bs.map G = as.map F) :
    ∀ a ∈ as, ∃ b, S a b ∧ G b = F a := by
  induction h with
  | nil => exact fun a ha => nomatch ha
  | cons hab _ ih =>
    obtain ⟨hhead, hrest⟩ := List.cons.inj heq
    exact List.forall_mem_cons.2 ⟨⟨_, hab, hhead⟩, ih hrest⟩

theorem map_eq_of_forall₂ {α β γ : Type} {S : α → β → Prop} {F : α → γ} {G : β → γ}
    {as : List α} {bs : List β} (h : List.Forall₂ S as bs)
    (heq : ∀ a ∈ as, ∀ b, S a b → G b = F a) : bs.map G = as.map F := by
  induction h with
  | nil => rfl
  | cons hab _ ih =>
    simp only [List.forall_mem_cons] at heq
    rw [List.map_cons, List.map_cons, heq.1 _ hab, ih heq.2]

theorem rebuilt_children_bare (h : Rebuilt R t d u) (hbare : u.bare = t.bare) :
    ∀ c ∈ t.children d, ∃ w, R c.1 c.2 w ∧ w.bare = c.1.bare := by
  have hmap : ∀ v : Term, (v.children d).map (·.1.bare) = (v.bare.children d).map (·.1) := by
    intro v
    rw [bare_eq v d, children_bareNode, children_mapChildren, List.map_map]
    rfl
  intro c hc
  obtain ⟨c', ⟨_, hR⟩, hsame⟩ :=
    forall₂_exists_of_map_eq (F := (·.1.bare)) (G := (·.1.bare)) h.children
      (by rw [hmap, hmap, hbare]) c hc
  exact ⟨c'.1, hR, hsame⟩

theorem rebuilt_bare_eq (h : Rebuilt R t d u)
    (hchildren : ∀ c ∈ t.children d, ∀ w, R c.1 c.2 w → w.bare = c.1.bare) : u.bare = t.bare := by
  have hrebuilt : Rebuilt (fun c _ w => w.bare = c.bare) t d u := h.imp hchildren
  rw [hrebuilt.bare_eq (h := fun c _ => c.bare), ← bare_eq t d]

end Nodes

section Same
variable {b : Bundle Term} {info : SpecInfo} {namer : Nat → String} {p q : Pattern} {steps : Nat}

theorem callsAtOnce_var {x : String} {i n : Nat} :
    b.CallsAtOnce (.var x i) n ↔ ∀ f, b.functionAt? n i = some f → f.arity = 0 := by
  constructor
  · intro h
    cases h with
    | node hvar _ => exact hvar x i rfl
  · intro h
    refine .node (fun y j heq => ?_) fun c hc => nomatch hc
    obtain ⟨rfl, rfl⟩ := Term.var.inj heq
    exact h

theorem callsAtOnce_children {t : Term} {d n : Nat} :
    (∀ c ∈ t.children (n + d), b.CallsAtOnce c.1 c.2) ↔
      ∀ c ∈ t.children d, b.CallsAtOnce c.1 (n + c.2) := by
  rw [Nat.add_comm n d, children_add, List.forall_mem_map]
  simp only [Nat.add_comm]

theorem bare_eq_iff_var (hq : Nothing q) (hdescribes : b.Describes p info)
    (hinfo : ∀ q ∈ info, Nothing q) {x : String} {i d : Nat} {w : Term}
    (hrange : ∀ f ∈ b.functions, i + f.arity ≤ maxIndex)
    (hw : Visited (b.plan steps info [] namer q).visitor (.var x i) d w) :
    w.bare = .var "" i ↔ b.CallsAtOnce (.var x i) (b.size + q.length + d) := by
  rw [callsAtOnce_var]
  cases hf : b.functionAt? (b.size + q.length + d) i with
  | none =>
    exact ⟨fun _ f h => (nomatch h), fun _ => bare_of_functionAt?_eq_none hq hf hw⟩
  | some f =>
    have hcases := bare_of_functionAt?_eq_some hq hdescribes hinfo hf
      (hrange f (mem_of_functionAt? hf)) hw
    rcases hcases with ⟨hzero, hbare⟩ | ⟨hpos, qs, q', _, _, _, hbare⟩
    · refine ⟨fun _ g hg => ?_, fun _ => hbare⟩
      rwa [← Option.some.inj hg]
    · constructor
      · intro hsame
        rw [hsame] at hbare
        cases hbare
      · intro hzero
        have := hzero f rfl
        omega

/-- What is left of an application whose function became an abstraction is the application just when
it is a call with all arguments at once. -/
theorem bare_eq_iff_redex (hq : Nothing q) (hdescribes : b.Describes p info)
    (hinfo : ∀ q ∈ info, Nothing q) {f c w : Term} {ps : List (Param Term)}
    {as as' : Arguments Term} {d n : Nat} (hkind : f.kind ≠ .lambda)
    (hrange : ∀ x i, f = .var x i → ∀ g ∈ b.functions, i + g.arity ≤ maxIndex)
    (hf : Visited (b.plan (steps + 1) info [] namer q).visitor f d (.lambda ps c))
    (has : List.Forall₂ (Visited (b.plan (steps + 1) info [] namer q).visitor · d ·) as.toList
      as'.toList)
    (hfun : b.CallsAtOnce f (b.size + q.length + d) → (Term.lambda ps c).bare = f.bare)
    (hargs : ∀ a ∈ as.toList, ∀ w, Visited (b.plan (steps + 1) info [] namer q).visitor a d w →
      (w.bare = a.bare ↔ b.CallsAtOnce a (b.size + q.length + d)))
    (hres : Residual n (.lambda ps c))
    (hreduce : (Term.apply (.lambda ps c) as').reduceHead (steps + 1) = some w) :
    w.bare = (Term.apply f as).bare ↔ b.CallsAtOnce (.apply f as) (b.size + q.length + d) := by
  have hlength : as'.toList.length = as.toList.length := has.length_eq.symm
  have hcall : ∀ {x i g}, f = .var x i → b.functionAt? (b.size + q.length + d) i = some g →
      g.arity = n ∧ (as'.toList.length = n → w.bare = .apply (.var "" i) (as'.map bare)) := by
    rintro x i g rfl hg
    have hcases := bare_of_functionAt?_eq_some hq hdescribes hinfo hg
      (hrange x i rfl g (mem_of_functionAt? hg)) hf
    rcases hcases with ⟨_, hbare⟩ | ⟨hpos, qs, q', hqs, hq', hnothing, hbare⟩
    · simp at hbare
    · have harity : g.arity = n := by
        rw [← hres.length_eq, ← hqs]
        rw [bare_lambda] at hbare
        rw [← (Term.lambda.inj hbare).1, List.length_map]
      exact ⟨harity, fun hlen => bare_call hnothing hq' hqs hpos (harity ▸ hlen) hbare hreduce⟩
  constructor
  · intro hsame
    obtain rfl := Option.some.inj ((hres.reduceHead as' steps).symm.trans hreduce)
    have hshape := hsame
    rw [bare_apply] at hshape
    obtain ⟨hlen, j, hhead⟩ := hres.eq_var_of_bare_beta hshape
      (by rw [Arguments.toList_map, List.length_map, hlength])
    rcases f.eq_var_or_asVar?_eq_none with ⟨x, i, rfl⟩ | hvar
    · cases hg : b.functionAt? (b.size + q.length + d) i with
      | none =>
        have hbare := bare_of_functionAt?_eq_none hq hg hf
        simp at hbare
      | some g =>
        obtain ⟨harity, hexact⟩ := hcall rfl hg
        rw [hexact hlen, bare_apply] at hsame
        have hmap := Arguments.map_eq_map_iff.1 (Term.apply.inj hsame).2
        refine .call hg (by omega) fun a ha => ?_
        obtain ⟨w, hw, hbare⟩ := forall₂_exists_of_map_eq has hmap a ha
        exact (hargs a ha w hw).1 hbare
    · have hnone := asVar?_bare_eq_none hvar
      rw [hhead] at hnone
      cases hnone
  · intro hcalls
    cases hcalls with
    | @call x i _ _ g hg hlen hcallees =>
      obtain ⟨harity, hexact⟩ := hcall rfl hg
      have hmap : as'.map bare = as.map bare :=
        Arguments.map_eq_map_iff.2 (map_eq_of_forall₂ has fun a ha w hw =>
          (hargs a ha w hw).2 (hcallees a ha))
      rw [hexact (by omega), hmap, bare_apply, bare_var]
    | node _ hchildren =>
      exfalso
      have hbare := hfun (hchildren (f, _) (by simp [children]))
      rw [bare_lambda] at hbare
      refine hkind ?_
      rw [← kind_bare, ← hbare, kind]

theorem bare_eq_iff_node (hq : Nothing q) (hdescribes : b.Describes p info)
    (hinfo : ∀ q ∈ info, Nothing q) {t u : Term} {d : Nat} (hvar : t.asVar? = none)
    (hrange : ∀ o ∈ t.occurrences d, ∀ f ∈ b.functions, o.1 + f.arity ≤ maxIndex)
    (hu : Rebuilt (Visited (b.plan steps info [] namer q).visitor) t d u)
    (hstays : u.isHeadRedex = false)
    (hchild : ∀ c ∈ t.children d, ∀ {w}, Visited (b.plan steps info [] namer q).visitor c.1 c.2 w →
      (w.bare = c.1.bare ↔ b.CallsAtOnce c.1 (b.size + q.length + c.2))) :
    u.bare = t.bare ↔ b.CallsAtOnce t (b.size + q.length + d) := by
  constructor
  · intro hsame
    refine .node (fun x i heq => by rw [heq] at hvar; cases hvar) ?_
    rw [callsAtOnce_children]
    intro c hc
    obtain ⟨w, hw, hbare⟩ := rebuilt_children_bare hu hsame c hc
    exact (hchild c hc hw).1 hbare
  · intro hcalls
    refine rebuilt_bare_eq hu fun c hc w hw => (hchild c hc hw).2 ?_
    cases hcalls with
    | node _ hchildren => exact callsAtOnce_children.1 hchildren c hc
    | @call x i _ as f hf hlen hargs =>
      simp only [children, List.mem_cons, List.mem_map] at hc
      rcases hc with rfl | ⟨a, ha, rfl⟩
      · rw [callsAtOnce_var]
        intro g hg
        obtain rfl := Option.some.inj (hf.symm.trans hg)
        cases hu with
        | apply hfun _ =>
          rcases bare_of_functionAt?_eq_some hq hdescribes hinfo hf
            (hrange (i, d) (by simp [occurrences]) f (mem_of_functionAt? hf)) hfun with
            ⟨hzero, _⟩ | ⟨_, _, _, _, _, _, hbare⟩
          · exact hzero
          · obtain ⟨qs, body, rfl, _⟩ := eq_lambda_of_bare hbare
            cases hstays
      · exact hargs a ha

/-- What is left of a term is the term just when functions with parameters get all their arguments
at once. -/
theorem bare_eq_iff (hq : Nothing q) (hdescribes : b.Describes p info)
    (hinfo : ∀ q ∈ info, Nothing q) (htame : ∀ q, (b.plan 0 info [] namer q).TameCalls) (t : Term) :
    ∀ {d w}, t.All (fun u => u.isHeadRedex = false) →
      (∀ o ∈ t.occurrences d, ∀ f ∈ b.functions, o.1 + f.arity ≤ maxIndex) →
        Visited (b.plan (steps + 1) info [] namer q).visitor t d w →
          (w.bare = t.bare ↔ b.CallsAtOnce t (b.size + q.length + d)) := by
  induction t using induct_children with
  | node t ih =>
    intro d w hall hrange hw
    obtain ⟨hredex, hchildren⟩ := (all_iff_children d).1 hall
    rcases t.eq_var_or_asVar?_eq_none with ⟨x, i, rfl⟩ | hvar
    · exact bare_eq_iff_var hq hdescribes hinfo (hrange (i, d) (List.mem_singleton.2 rfl)) hw
    have hchild : ∀ c ∈ t.children d, ∀ {w},
        Visited (b.plan (steps + 1) info [] namer q).visitor c.1 c.2 w →
          (w.bare = c.1.bare ↔ b.CallsAtOnce c.1 (b.size + q.length + c.2)) := by
      intro c hc w hw
      exact ih d c hc (hchildren c hc)
        (fun o ho => hrange o ((mem_occurrences_iff hvar).2 ⟨c, hc, ho⟩)) hw
    obtain ⟨u, hu, hreduce⟩ := Plan.visited_node hvar hw
    rcases isHeadRedex_cases u with ⟨ps, c, as', rfl⟩ | hstays
    · have hbecomes : Rebuilt (b.plan 0 info [] namer q).Becomes t d (.apply (.lambda ps c) as') :=
        hu.imp fun _ _ _ hw => ⟨steps + 1, hw⟩
      obtain ⟨n, hres⟩ := Plan.tame_of_rebuilt (htame q) (by simp [Bundle.plan]) hall hbecomes rfl
      cases hu with
      | @apply f _ as _ _ hf has =>
        have hkind : f.kind ≠ .lambda := isHeadRedex_apply_eq_false.1 hredex
        have hmem : (f, d) ∈ (Term.apply f as).children d := by simp [children]
        refine bare_eq_iff_redex hq hdescribes hinfo hkind ?_ hf has (hchild _ hmem hf).2
          (fun a ha w hw => hchild (a, d) (by simp [children, ha]) hw) hres hreduce
        rintro x i rfl g hg
        exact hrange (i, d) (by simp [occurrences]) g hg
    · rw [reduceHead_of_not_isHeadRedex hstays] at hreduce
      obtain rfl := Option.some.inj hreduce
      exact bare_eq_iff_node hq hdescribes hinfo hvar hrange hu hstays hchild

end Same

section Functions

theorem map_eq_map_iff_of_getElem? {α β γ : Type} {F : α → γ} {G : β → γ} {P : Nat → β → Prop}
    {as : List α} {bs : List β} (hlen : as.length = bs.length)
    (h : ∀ k b, bs[k]? = some b → ∃ a, as[k]? = some a ∧ (F a = G b ↔ P k b)) :
    as.map F = bs.map G ↔ ∀ k b, bs[k]? = some b → P k b := by
  constructor
  · intro heq k b hb
    obtain ⟨a, ha, hiff⟩ := h k b hb
    have hat := congrArg (·[k]?) heq
    simp only [List.getElem?_map, ha, hb, Option.map_some] at hat
    exact hiff.1 (Option.some.inj hat)
  · intro hall
    refine List.ext_getElem? fun k => ?_
    rw [List.getElem?_map, List.getElem?_map]
    cases hb : bs[k]? with
    | none =>
      have hout := List.getElem?_eq_none_iff.1 hb
      rw [List.getElem?_eq_none (by omega)]
      rfl
    | some b =>
      obtain ⟨a, ha, hiff⟩ := h k b hb
      rw [ha, Option.map_some, Option.map_some, hiff.2 (hall k b hb)]

variable {b : Bundle Term} {info : SpecInfo} {namer : Nat → String} {p q : Pattern} {steps i : Nat}
  {f f' : FixFunction Term}

theorem rewriteParams_nothing {plan : Plan} {ps ps' : List (Param Term)} (hq : Nothing q)
    (hlen : ps.length = q.length) (h : rewriteParams plan [] ps q = .ok ps') :
    ps'.length = ps.length ∧ ∀ {k : Nat} {x : Param Term}, ps[k]? = some x →
      ∃ u, { plan with pattern := q.take k }.rewrite x.type = .ok u ∧
        ps'[k]? = some ⟨x.name, u⟩ := by
  refine ⟨by rw [rewriteParams_length ps hlen h, hq.kept_eq, hlen], fun {k x} hx => ?_⟩
  have hk : k < q.length := hlen ▸ (List.getElem?_eq_some_iff.1 hx).1
  have hslot : q[k]? = some none := by
    rw [List.getElem?_eq_getElem hk, hq _ (List.getElem_mem hk)]
  obtain ⟨u, hu, hplace⟩ := rewriteParams_getElem? ps h hx hslot
  have hkept : Pattern.kept (q.take k) = k := by
    rw [(hq.take k).kept_eq, List.length_take]
    omega
  rw [hkept] at hplace
  exact ⟨u, hu, hplace⟩

theorem bareFunction_eq_iff (hq : Nothing q)
    (hrewrite : rewriteFunction (b.plan steps info [] namer q) f (namer i) = .ok f')
    (hpart : ∀ {q' t u}, q' <+: q →
      (t, b.size + q'.length) ∈ paramTypes f.params b.size ++
        [(f.result, b.size + f.arity), (f.body, b.size + f.arity)] →
      (b.plan steps info [] namer q').rewrite t = .ok u →
        (u.bare = t.bare ↔ b.CallsAtOnce t (b.size + q'.length))) :
    bareFunction f' = bareFunction f ↔ ∀ c ∈ paramTypes f.params b.size ++
      [(f.result, b.size + f.arity), (f.body, b.size + f.arity)], b.CallsAtOnce c.1 c.2 := by
  obtain ⟨harity, hps, hresult, hbody⟩ := rewriteFunction_parts hrewrite
  have harity : f.arity = q.length := harity
  obtain ⟨hlen, hplaces⟩ := rewriteParams_nothing hq harity hps
  have hparams : f'.params.map bareParam = f.params.map bareParam ↔
      ∀ c ∈ paramTypes f.params b.size, b.CallsAtOnce c.1 c.2 := by
    have hmap : f'.params.map bareParam = f.params.map bareParam ↔
        ∀ (k : Nat) (x : Param Term), f.params[k]? = some x →
          b.CallsAtOnce x.type (b.size + k) := by
      refine map_eq_map_iff_of_getElem? hlen fun k x hx => ?_
      obtain ⟨u, hu, hplace⟩ := hplaces hx
      have hk : (q.take k).length = k := by
        have : k < f.arity := (List.getElem?_eq_some_iff.1 hx).1
        rw [List.length_take]
        omega
      have hmem : (x.type, b.size + (q.take k).length) ∈ paramTypes f.params b.size ++
          [(f.result, b.size + f.arity), (f.body, b.size + f.arity)] := by
        rw [hk]
        exact List.mem_append_left _ (mem_paramTypes_iff.2 ⟨k, x, hx, rfl⟩)
      have hiff := hpart (List.take_prefix k q) hmem hu
      rw [hk] at hiff
      refine ⟨_, hplace, ?_⟩
      rw [← hiff, bareParam, bareParam, Param.mk.injEq, and_iff_right rfl]
    rw [hmap]
    constructor
    · intro hcalls c hc
      obtain ⟨k, x, hx, rfl⟩ := mem_paramTypes_iff.1 hc
      exact hcalls k x hx
    · exact fun hcalls k x hx => hcalls _ (mem_paramTypes_iff.2 ⟨k, x, hx, rfl⟩)
  have hresultIff := hpart List.prefix_rfl (by simp [harity]) hresult
  have hbodyIff := hpart List.prefix_rfl (by simp [harity]) hbody
  rw [← harity] at hresultIff hbodyIff
  simp only [bareFunction, FixFunction.mk.injEq, true_and, hparams, hresultIff, hbodyIff,
    List.forall_mem_append, List.forall_mem_cons, List.not_mem_nil, false_imp_iff, implies_true,
    and_true]

end Functions

end Specialization

namespace Bundle
variable {seed : Nat} {b b' : Bundle Term} {p : Pattern} {info : SpecInfo}

theorem callsAtOnce_fix : b.CallsAtOnce (.fix 0 b) 0 ↔
    ∀ f ∈ b.functions, ∀ c ∈ paramTypes f.params b.size ++
      [(f.result, b.size + f.arity), (f.body, b.size + f.arity)], b.CallsAtOnce c.1 c.2 := by
  have hchildren : b.CallsAtOnce (.fix 0 b) 0 ↔
      ∀ c ∈ (Term.fix 0 b).children 0, b.CallsAtOnce c.1 c.2 := by
    constructor
    · intro h
      cases h with
      | node _ hchildren => exact hchildren
    · exact .node fun x i heq => nomatch heq
  rw [hchildren]
  simp only [children, Nat.zero_add, List.mem_flatMap, forall_exists_index, and_imp]
  exact ⟨fun h f hf c hc => h c f hf hc, fun h c f hf hc => h f hf c hc⟩

/-- Specializing nothing leaves a bundle that applies no abstraction just when its functions get all
their arguments at once, wherever they occur. -/
theorem specialize_nothing_iff (hclosure : b.closure? seed p = some info)
    (hp : ∀ s ∈ p, s = none)
    (hplain : (Term.fix 0 b).All fun u => u.isHeadRedex = false)
    (harity : ∀ f ∈ b.functions, f.arity ≤ maxIndex)
    (hrange : ∀ o ∈ (Term.fix 0 b).occurrences 0, ∀ f ∈ b.functions, o.1 + f.arity ≤ maxIndex)
    (steps : Nat) (namer : Nat → String) :
    ∃ b', b.specialize (steps + 1) info [] namer = .ok b' ∧
      ((b' == b) = true ↔ b.CallsAtOnce (.fix 0 b) 0) := by
  have hdescribes := describes_of_closure? hclosure
  have hchildren := ((all_iff_children 0).1 hplain).2
  have hinfo : ∀ q ∈ info, Specialization.Nothing q := by
    intro q hq s hs
    cases s with
    | none => rfl
    | some slot => exact hp _ (hdescribes.slots hq hs)
  have hslots : ∀ slot, some slot ∈ p → slot < ([] : List Term).length :=
    fun slot hslot => nomatch hp _ hslot
  obtain ⟨b', hb'⟩ := specialize_of_plain hdescribes hslots harity
    (fun q t hpart => hchildren _ (hpart.mem_children hdescribes)) (fun c hc => nomatch hc)
    steps namer
  refine ⟨b', hb', ?_⟩
  obtain ⟨_, hsize⟩ := specialize_size hb'
  rw [beq_iff_bareFunction, callsAtOnce_fix,
    Specialization.map_eq_map_iff_of_getElem? hsize (P := fun _ f => ∀ c ∈
      paramTypes f.params b.size ++ [(f.result, b.size + f.arity), (f.body, b.size + f.arity)],
        b.CallsAtOnce c.1 c.2)]
  · constructor
    · intro h f hf
      obtain ⟨i, hi⟩ := List.mem_iff_getElem?.1 hf
      exact h i f hi
    · exact fun h i f hf => h f (List.mem_of_getElem? hf)
  intro i f hf
  obtain ⟨q, hq⟩ : ∃ q, info[i]? = some q :=
    ⟨_, List.getElem?_eq_getElem (hdescribes.length_eq ▸ lt_of_function? hf)⟩
  have hnothing := hinfo q (List.mem_of_getElem? hq)
  obtain ⟨f', hf', hrewrite⟩ := specialize_rewrites hb' hf hq
  refine ⟨f', hf', Specialization.bareFunction_eq_iff hnothing hrewrite ?_⟩
  intro q' t u hinitial hmem hu
  have hchild : (t, b.size + q'.length) ∈ (Term.fix 0 b).children 0 := by
    simp only [children, Nat.zero_add, List.mem_flatMap]
    exact ⟨f, List.mem_of_getElem? hf, hmem⟩
  have hvisited := Specialization.Plan.visit_of_rewrite hu
  refine Specialization.bare_eq_iff (fun s hs => hnothing s (hinitial.mem hs)) hdescribes hinfo
    (tameCalls_plan harity 0 info [] namer) t (hchildren _ hchild) (fun o ho => ?_) hvisited
  have hocc : (o.1, o.2 + (b.size + q'.length)) ∈ (Term.fix 0 b).occurrences 0 :=
    (mem_occurrences_iff rfl).2 ⟨_, hchild, mem_occurrences_depth.2 ⟨o.2, ho, rfl⟩⟩
  exact hrange (o.1, o.2 + (b.size + q'.length)) hocc

/-- `passingOn` with each function given both arguments together. -/
def passingTogether : Bundle Term :=
  ⟨none,
    [⟨"f", [⟨some "c", .global "nat"⟩, ⟨some "n", .global "nat"⟩], .global "nat",
      .letIn (some "d") (.var "c" 1) (.global "nat")
        (.applyTo (.var "g" 3) [.var "d" 0, .var "n" 1])⟩,
    ⟨"g", [⟨some "c", .global "nat"⟩, ⟨some "n", .global "nat"⟩], .global "nat",
      .caseOf (.global "nat") (.var "n" 0)
        [⟨"S", 1, .applyTo (.var "f" 4) [.var "c" 2, .var "m" 0]⟩]⟩]⟩

theorem specialize_nothing_passingTogether :
    passingTogether.closure? 0 [none, none] = some [[none, none], [none, none]] ∧
      ∃ b', passingTogether.specialize 1 [[none, none], [none, none]] [] (fun _ => "h") = .ok b' ∧
        (b' == passingTogether) = true ∧
        passingTogether.CallsAtOnce (.fix 0 passingTogether) 0 := by
  have hclosure : passingTogether.closure? 0 [none, none] = some [[none, none], [none, none]] := by
    decide
  obtain ⟨b', hb', hiff⟩ := specialize_nothing_iff hclosure (by decide) (by decide) (by decide)
    (by decide) 0 fun _ => "h"
  have hspecialize : passingTogether.specialize 1 [[none, none], [none, none]] [] (fun _ => "h") =
    .ok _ := rfl
  obtain rfl := Except.ok.inj (hspecialize.symm.trans hb')
  exact ⟨hclosure, _, hspecialize, rfl, hiff.1 rfl⟩

/-- A function that `passingOn` gives its arguments one by one gets them at once afterwards. -/
theorem passingOn_regrouped :
    passingOn.closure? 0 [none, none] = some [[none, none], [none, none]] ∧
      ∃ b', passingOn.specialize 1 [[none, none], [none, none]] []
        (fun i => if i = 0 then "f" else "g") = .ok b' ∧ (b' == passingOn) = false :=
  ⟨by decide, _, rfl, rfl⟩

end Bundle
end InductiveTerms
