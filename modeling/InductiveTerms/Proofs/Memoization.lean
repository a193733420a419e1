import Mathlib.Data.List.Sort
import InductiveTerms.Proofs.References
import InductiveTerms.Proofs.Sharing
import InductiveTerms.Specialization.Rewrite

/-!
Visiting a bundle once for each depth makes no difference. The memoizing traversal and the plain one
agree on whether a term changes, on the term they leave and on the references they collect, and the
memoizing one keeps selections from one bundle together (`visit_memoized`).
-/
namespace InductiveTerms
open Traversal Term

theorem Outcome.eq {τ : Type} {A : τ → Prop} {a : τ} {r r' : Option τ}
    (h : Outcome (fun x y => x = y) A a r r') : r = r' := by
  obtain ⟨hverdict, heq, _⟩ := h
  cases r with
  | none =>
    cases r' with
    | none => rfl
    | some _ => cases hverdict
  | some x =>
    cases r' with
    | none => cases hverdict
    | some y => exact congrArg some heq

namespace Term

theorem Rebuilt.asFix?_eq_none {R : Term → Nat → Term → Prop} {t u : Term} {d : Nat}
    (h : Rebuilt R t d u) : t.asFix? = none ↔ u.asFix? = none := by
  cases h <;> simp [asFix?]

theorem Rebuilt.eq {t u : Term} {d : Nat} (h : Rebuilt (fun c _ w => c = w) t d u)
    (ht : t.asFix? = none) : t = u := by
  have hunlabel := h.unlabelNode_eq
  cases h <;> first | exact hunlabel | cases ht

end Term

section Failing
variable {ε : Type}

/-- Computations that fail alike. -/
def Coupling.failing (ε : Type) : Coupling (Except ε) (Except ε) where
  World := Unit
  Later _ _ := True
  Holds _ R x y :=
    (∃ e, x = .error e ∧ y = .error e) ∨ ∃ a b, x = .ok a ∧ y = .ok b ∧ R () a b
  Settled _ x a := x = .ok a
  later_refl _ := trivial
  later_trans _ _ := trivial
  pure hR := .inr ⟨_, _, rfl, rfl, hR⟩
  bind h hfg := by
    obtain ⟨e, rfl, rfl⟩ | ⟨a, b, rfl, rfl, hR⟩ := h
    · exact .inl ⟨e, rfl, rfl⟩
    · exact hfg () a b trivial hR
  settled_later _ h := h
  replay hx hR := .inr ⟨_, _, hx, rfl, hR⟩

/-- The comparison of a visitor that may fail with itself. -/
def failingComparison (Known : Bundle Term → Prop) (reply : Term → Nat → Except ε (Option Term)) :
    Comparison (Except ε) (Except ε) where
  coupling := .failing ε
  plain := reply
  memoizing := reply
  Known := Known
  Fresh l := l = none
  Alike t u := t = u
  Kept _ _ _ _ := True

theorem failing_admissible {t : Term} (hcoherent : t.Coherent)
    (reply : Term → Nat → Except ε (Option Term)) :
    (failingComparison t.IsBundle reply).Admissible where
  known_unique hb hc hbl hcl := IsBundle.unique hcoherent _ _ _ hb hc hbl hcl
  fresh_plain := rfl
  fresh_memoizing _ := .inr ⟨(), none, rfl, rfl, rfl⟩
  settles _ _ _ _ _ _ h := h.imp_right fun ⟨a, b, hx, hy, hR⟩ => ⟨a, b, hx, hy, hx, hR⟩
  kept_extends _ h := h
  node ht halike hkept :=
    ⟨halike.eq (halike.asFix?_eq_none.2 (hkept.asFix?_eq_none.1 ht)), trivial⟩
  fix {w s i d b fs r} h _ := by
    refine ⟨?_, trivial⟩
    have hfunctions := h.alike.imp fun _ _ hf => RebuiltFunction.eq hf
    rw [List.forall₂_eq_eq_eq] at hfunctions
    cases fs with
    | none =>
      cases r with
      | none => rfl
      | some c => cases h.verdict
    | some fs =>
      cases r with
      | none => cases h.verdict
      | some c =>
        have hlabel : c.label = none := h.label c rfl
        obtain ⟨l, gs⟩ := c
        subst hlabel
        exact congrArg (fun fs => Term.fix i ⟨none, fs⟩) hfunctions
  reply {w s t u v d} _ halike _ := by
    obtain rfl : u = v := halike
    have hself : ∀ x : Except ε (Option Term), (Coupling.failing ε).Holds w
        (fun _ o o' => o.isSome = o'.isSome ∧ o.getD u = o'.getD u ∧ True) x x := by
      intro x
      cases x with
      | error e => exact .inl ⟨e, rfl, rfl⟩
      | ok o => exact .inr ⟨o, o, rfl, rfl, rfl, rfl, trivial⟩
    exact hself (reply u d)

/-- A visitor that may fail does the same when bundles are visited once. -/
theorem run_memoized_eq {t : Term} (hcoherent : t.Coherent)
    (reply : Term → Nat → Except ε (Option Term)) :
    (visit (Visitor.ofReply reply).lift memoized t 0).run' [] =
      visit (.ofReply reply) unshared t 0 := by
  have hgood : (failingComparison t.IsBundle reply).Good () [] := by
    intro l e r hr
    cases hr
  have hruns := Comparison.runs_visit (failing_admissible hcoherent reply) t 0
    (knownNode_of_isBundle fun _ h => h) () [] hgood
  rw [Visitor.lift_ofReply, StateT.run']
  obtain ⟨e, hx, hy⟩ | ⟨a, p, hx, hy, _, _, houtcome⟩ := hruns
  · exact (congrArg (Functor.map Prod.fst) hy).trans hx.symm
  · refine (congrArg (Functor.map Prod.fst) hy).trans (Eq.trans ?_ hx.symm)
    exact congrArg Except.ok houtcome.eq.symm

end Failing

section Collecting

/-- Computations that add to one increasing list. -/
def Coupling.collecting : Coupling (StateT (List Nat) Id) (StateT (List Nat) Labelling) where
  World := { s : List Nat // s.Pairwise (· < ·) }
  Later w w' := ∀ r ∈ w.1, r ∈ w'.1
  Holds w R x y := ∀ first, ∃ w' : { s : List Nat // s.Pairwise (· < ·) }, ∃ a b,
    (∀ r ∈ w.1, r ∈ w'.1) ∧ x.run w.1 = (a, w'.1) ∧ (y.run w.1).run first = (b, w'.1) ∧ R w' a b
  Settled w x a := ∀ w' : { s : List Nat // s.Pairwise (· < ·) }, (∀ r ∈ w.1, r ∈ w'.1) →
    x.run w'.1 = (a, w'.1)
  later_refl _ _ hr := hr
  later_trans h h' r hr := h' r (h r hr)
  pure hR _ := ⟨_, _, _, fun _ hr => hr, rfl, rfl, hR⟩
  bind {_ _ _ _ w _ _ x y f g} h hfg first := by
    obtain ⟨w', a, b, hlater, hx, hy, hR⟩ := h first
    obtain ⟨w'', c, d, hlater', hf, hg, hS⟩ := hfg w' a b hlater hR
      (StateT.run (y.run w.1) first : Id (_ × Nat)).2
    refine ⟨w'', c, d, fun r hr => hlater' r (hlater r hr), ?_, ?_, hS⟩
    · rw [StateT.run_bind, hx]
      exact hf
    · change ((g ((y.run w.1).run first).1).run ((y.run w.1).run first).2).run _ = _
      rw [hy]
      exact hg
  settled_later h hx w' hw' := hx w' fun r hr => hw' r (h r hr)
  replay {_ _ w _ _ _ _} hx hR _ := ⟨w, _, _, fun _ hr => hr, hx w fun _ hr => hr, rfl, hR⟩

theorem Term.Collects.settles {α : Type} {x : StateT (List Nat) Id (Option α)}
    {os : List (Nat × Nat)} (h : Collects x os) : Coupling.collecting.Settles x := by
  intro β w R y hholds first
  obtain ⟨w', a, b, hlater, hx, hy, hR⟩ := hholds first
  refine ⟨w', a, b, hlater, hx, hy, fun w'' hw'' => ?_, hR⟩
  obtain ⟨s', hs', hmem', _⟩ := h w.1
  obtain ⟨s'', hs'', hmem'', hincreasing⟩ := h w''.1
  obtain ⟨rfl, rfl⟩ := Prod.mk.inj (hs'.symm.trans hx)
  have hsame : s'' = w''.1 := by
    refine (hincreasing w''.2).eq_of_mem_iff w''.2 fun r => ?_
    rw [hmem'']
    exact ⟨fun hr => hr.elim id fun href => hw'' r ((hmem' r).2 (.inr href)), .inl⟩
  rw [hs'', hsame]

/-- The comparison of the collector with itself. -/
def collectingComparison (Known : Bundle Term → Prop) :
    Comparison (StateT (List Nat) Id) (StateT (List Nat) Labelling) where
  coupling := .collecting
  plain := (referenceCollector (m := Id)).reply
  memoizing := (referenceCollector (m := Labelling)).reply
  Known := Known
  Fresh _ := True
  Alike t u := t.unlabel = u.unlabel
  Kept _ _ _ _ := True

section Reply
variable {m : Type → Type} [Monad m] [LawfulMonad m]

theorem run_referenceCollector_var (x : String) (i d : Nat) (s : List Nat) :
    ((referenceCollector (m := m)).reply (.var x i) d).run s =
      pure (none, if d ≤ i then insertIncreasing (i - d) s else s) := by
  by_cases h : d ≤ i
  · simp [referenceCollector, Visitor.ofReply, h]
  · simp [referenceCollector, Visitor.ofReply, h]

omit [LawfulMonad m] in
theorem referenceCollector_of_ne {t : Term} (ht : t.asVar? = none) (d : Nat) :
    (referenceCollector (m := m)).reply t d = pure none := by
  cases t <;> first | rfl | cases ht

end Reply

theorem collecting_admissible {t : Term} (hcoherent : t.Coherent) :
    (collectingComparison t.IsBundle).Admissible where
  known_unique hb hc hbl hcl := IsBundle.unique hcoherent _ _ _ hb hc hbl hcl
  fresh_plain := rfl
  fresh_memoizing w _ := ⟨w, _, _, fun _ hr => hr, rfl, rfl, trivial⟩
  settles {b} d _ := (collects_visitFunctions b.functions (d + b.size)).settles
  kept_extends _ h := h
  node _ halike _ := ⟨halike.unlabel_eq, trivial⟩
  fix {w s i d b fs r} h _ :=
    ⟨unlabel_fix_eq (h.alike.length_eq.trans h.kept.length_eq.symm) h.alike, trivial⟩
  reply {w s t u v d} _ halike _ := by
    change u.unlabel = v.unlabel at halike
    rcases v.eq_var_or_asVar?_eq_none with ⟨x, i, rfl⟩ | hv
    · obtain rfl : u = .var x i := eq_var_of_unlabel halike
      intro first
      refine ⟨⟨if d ≤ i then insertIncreasing (i - d) w.1 else w.1, ?_⟩, none, none, ?_,
        run_referenceCollector_var x i d w.1, ?_, rfl, rfl, trivial⟩
      · split
        · exact insertIncreasing_increasing w.2
        · exact w.2
      · intro r hr
        by_cases h : d ≤ i
        · simp only [if_pos h, mem_insertIncreasing]
          exact .inr hr
        · simp only [if_neg h]
          exact hr
      · exact congrArg (Labelling.run · first) (run_referenceCollector_var x i d w.1)
    · have hu : u.asVar? = none := by rw [← asVar?_unlabel, halike, asVar?_unlabel, hv]
      change Coupling.collecting.Holds w _ (referenceCollector.reply u d)
        (referenceCollector.reply v d)
      rw [referenceCollector_of_ne hu, referenceCollector_of_ne hv]
      exact Coupling.collecting.pure ⟨rfl, halike, trivial⟩

theorem run_referenceCollector {t : Term} (hcoherent : t.Coherent) (first : Nat) :
    ((t.rewrite? referenceCollector : StateT (List Nat) Labelling (Option Term)).run []).run first =
      Id.run ((t.rewrite? referenceCollector : StateT (List Nat) Id (Option Term)).run []) := by
  have hgood : (collectingComparison t.IsBundle).Good ⟨[], .nil⟩ [] := by
    intro l e r hr
    cases hr
  obtain ⟨w, a, p, _, hx, hy, _, _, houtcome⟩ :=
    Comparison.runs_visit (collecting_admissible hcoherent) t 0 (knownNode_of_isBundle fun _ h => h)
      ⟨[], .nil⟩ [] hgood first
  obtain ⟨s, hs, _⟩ := collects_visit t 0 []
  obtain ⟨rfl, rfl⟩ := Prod.mk.inj (hs.symm.trans hx)
  have hnone : p.1 = none := by simpa using houtcome.verdict.symm
  change (((visit (Visitor.ofReply (referenceCollector (m := Labelling)).reply).lift memoized t
    0).run' []).run []).run first = (visit (referenceCollector (m := Id)) unshared t 0).run []
  rw [Visitor.lift_ofReply, hs]
  have hfst : (((visit (collectingComparison t.IsBundle).remembering memoized t 0).run' []).run
      []).run first = (p.1, w.1) := congrArg (fun q => (q.1.1, q.2)) hy
  rw [hnone] at hfst
  exact hfst

end Collecting

/-- Visiting a bundle once for each depth changes nothing but sharing. -/
theorem visit_memoized (t : Term) (hcoherent : t.Coherent) :
    (∀ limit delta, Memoizes selectionAt? (shifter (m := Id) limit delta).reply t
      (t.shift? limit delta) (Id.run (t.shift? limit delta))) ∧
    (∀ start subs, (∀ u ∈ subs, u.Coherent) →
      Memoizes selectionAt? (substituter (m := Id) start subs).reply t (t.subst? start subs)
        (Id.run (t.subst? start subs))) ∧
    Memoizes (fun t (k : Nat) => (t.selections 0)[k]?) (normalizer (m := Id)).reply t t.normalize?
      (Id.run t.normalize?) ∧
    (∀ first,
      ((t.rewrite? referenceCollector : StateT (List Nat) Labelling (Option Term)).run []).run
          first =
        Id.run ((t.rewrite? referenceCollector : StateT (List Nat) Id (Option Term)).run [])) ∧
    ∀ plan : Specialization.Plan,
      (visit plan.visitor.lift memoized t 0).run' [] = visit plan.visitor unshared t 0 :=
  ⟨memoizes_shift hcoherent, fun start _ hsubs => memoizes_subst hcoherent start hsubs,
    memoizes_normalize hcoherent, run_referenceCollector hcoherent,
    fun plan => run_memoized_eq hcoherent plan.visitor.reply⟩

theorem Term.coherent_of_table {t : Term} (table : Nat → Bundle Term)
    (h : ∀ s ∈ t.selections 0, ∀ l, s.1.label = some l → s.1 = table l) : t.Coherent := by
  intro s hs s' hs' l hl hl'
  rw [h s hs l hl, h s' hs' l hl']

/-- `fix f (n : nat) : t := f n`. -/
def loop (label : Nat) (t : Term) : Bundle Term :=
  ⟨some label, [⟨"f", [⟨some "n", .global "nat"⟩], t, .applyTo (.var "f" 1) [.var "n" 0]⟩]⟩

/-- A loop over a type from outside, and one over `nat`. -/
def loopAt (label : Nat) : Bundle Term :=
  loop label (if label = 7 then .var "A" 2 else .global "nat")

/-- Both loops, each selected from more than once and at more than one depth. -/
def sharedLoops : Term :=
  .applyTo (.applyTo (.fix 0 (loopAt 7)) [.fix 0 (loopAt 8), .fix 0 (loopAt 7)])
    [.lambda [⟨some "x", .fix 0 (loopAt 8)⟩] (.applyTo (.fix 0 (loopAt 7)) [.fix 0 (loopAt 7)])]

theorem visit_memoized_loops :
    sharedLoops.Coherent ∧ (Term.fix 0 (loopAt 8)).Coherent ∧
    Memoizes selectionAt? (shifter (m := Id) 0 2).reply sharedLoops (sharedLoops.shift? 0 2)
      (Id.run (sharedLoops.shift? 0 2)) ∧
    Memoizes selectionAt? (substituter (m := Id) 0 [.fix 0 (loopAt 8)]).reply sharedLoops
      (sharedLoops.subst? 0 [.fix 0 (loopAt 8)])
      (Id.run (sharedLoops.subst? 0 [.fix 0 (loopAt 8)])) ∧
    Memoizes (fun t (k : Nat) => (t.selections 0)[k]?) (normalizer (m := Id)).reply sharedLoops
      sharedLoops.normalize? (Id.run sharedLoops.normalize?) ∧
    ((sharedLoops.rewrite? referenceCollector :
        StateT (List Nat) Labelling (Option Term)).run []).run 20 =
      Id.run ((sharedLoops.rewrite? referenceCollector :
        StateT (List Nat) Id (Option Term)).run []) := by
  have hloops : sharedLoops.Coherent := by
    refine coherent_of_table loopAt fun s hs l hl => ?_
    have hselections : sharedLoops.selections 0 = [(loopAt 7, 0), (loopAt 8, 0), (loopAt 7, 0),
        (loopAt 8, 0), (loopAt 7, 1), (loopAt 7, 1)] := rfl
    rw [hselections] at hs
    simp only [List.mem_cons, List.not_mem_nil, or_false] at hs
    rcases hs with rfl | rfl | rfl | rfl | rfl | rfl <;> (obtain rfl := Option.some.inj hl; rfl)
  have hloop : (Term.fix 0 (loopAt 8)).Coherent := by
    refine coherent_of_table loopAt fun s hs l hl => ?_
    obtain rfl := List.mem_singleton.1 hs
    obtain rfl := Option.some.inj hl
    rfl
  obtain ⟨hshift, hsubst, hnormalize, hcollect, _⟩ := visit_memoized sharedLoops hloops
  exact ⟨hloops, hloop, hshift 0 2, hsubst 0 [_] (by simpa using hloop), hnormalize, hcollect 20⟩

/-- The loops over the substituted type become one new bundle. Under the lambda that type is the
variable of the lambda, and the bundle stays. -/
example : (Labelling.run (sharedLoops.substM 0 [.global "B"]) 20).bundleLabels =
    [some 20, some 8, some 20, some 8, some 7, some 7] := by decide

end InductiveTerms
