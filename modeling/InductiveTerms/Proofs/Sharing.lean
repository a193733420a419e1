import InductiveTerms.Proofs.Selections
import InductiveTerms.Proofs.SideBySide
import InductiveTerms.Term.Normalize
import InductiveTerms.Term.Shift

/-!
Rewriting that tracks sharing, beside rewriting that ignores it. The two leave the same term up to
labels; and what tracks sharing leaves one bundle where there was one, and the bundle itself where
nothing inside it changed (`Memoizes`).
-/
namespace InductiveTerms
open Traversal Term

theorem Visitor.lift_ofReply {m : Type → Type} [Monad m] [LawfulMonad m] {σ : Type}
    (reply : Term → Nat → m (Option Term)) :
    (Visitor.ofReply reply).lift = (Visitor.ofReply fun t d => StateT.lift (reply t d) :
      Visitor (StateT σ m)) := by
  have hpure : (StateT.lift (pure ()) : StateT σ m Unit) = pure () := by
    refine StateT.ext fun s => ?_
    simp
  unfold Visitor.lift
  simp only [Visitor.ofReply, hpure]

/-- Computations that hand out labels, beside what they give when labels are ignored. -/
def Coupling.labelling : Coupling Id Labelling where
  World := Unit
  Later _ _ := True
  Holds _ R x y := ∀ first, R () x (y.run first)
  Settled _ x a := x = a
  later_refl _ := trivial
  later_trans _ _ := trivial
  pure hR _ := hR
  bind {_ _ _ _ _ _ _ _ y _ _} h hfg first :=
    hfg () _ _ trivial (h first) (StateT.run y first : Id (_ × Nat)).2
  settled_later _ h := h
  replay hx hR _ := hx ▸ hR

theorem Coupling.settles_labelling {α : Type} (x : Id α) : Coupling.labelling.Settles x :=
  fun _ _ _ h first => ⟨rfl, h first⟩

namespace Term

/-- What the plain traversal makes of the functions of a bundle that it meets at depth `d`. -/
def rewrittenFunctions (reply : Term → Nat → Id (Option Term)) (b : Bundle Term) (d : Nat) :
    Option (List (FixFunction Term)) :=
  visitFunctions (Visitor.ofReply reply) unshared b.functions (d + b.size)

/-- `b'` stands for the bundle `b`, met at depth `d`: it is what the cache tells, and `b` itself if
nothing in it changed. -/
def StandsFor (reply : Term → Nat → Id (Option Term)) (s : Cache) (b : Bundle Term) (d : Nat)
    (b' : Bundle Term) : Prop :=
  ∃ r : Option (Bundle Term), b' = r.getD b ∧ (∀ l, b.label = some l → s.lookup (l, d) = some r) ∧
    (∀ c ∈ r, c.label.isSome) ∧ (rewrittenFunctions reply b d).isSome = r.isSome

/-- What is found in the rewritten term where a selection is found in the term. -/
def KeptAt (reply : Term → Nat → Id (Option Term)) (s : Cache) (t : Term) (d : Nat) (u : Term) :
    Prop :=
  ∀ p b e, (at? p t d).bind selection? = some (b, e) →
    ∃ b', (at? p u d).bind selection? = some (b', e) ∧ StandsFor reply s b e b'

/-- What the selections of the rewritten term are, one by one. -/
def KeptInOrder (reply : Term → Nat → Id (Option Term)) (s : Cache) (t : Term) (d : Nat)
    (u : Term) : Prop :=
  List.Forall₂ (fun a b => b.2 = a.2 ∧ StandsFor reply s a.1 a.2 b.1) (t.selections d)
    (u.selections d)

theorem StandsFor.extends {reply : Term → Nat → Id (Option Term)} {s s' : Cache}
    {b b' : Bundle Term} {d : Nat} (h : StandsFor reply s b d b') (hs : Extends s s') :
    StandsFor reply s' b d b' := by
  obtain ⟨r, hr, hlookup, hlabel, hverdict⟩ := h
  exact ⟨r, hr, fun l hl => hs _ _ (hlookup l hl), hlabel, hverdict⟩

/-- The comparison of a visitor that hands out labels with the one that does not. -/
def labelled (Known : Bundle Term → Prop) (plain : Term → Nat → Id (Option Term))
    (memoizing : Term → Nat → Labelling (Option Term))
    (Kept : Cache → Term → Nat → Term → Prop) : Comparison Id Labelling where
  coupling := .labelling
  plain := plain
  memoizing := memoizing
  Known := Known
  Fresh l := l.isSome
  Alike t u := t.unlabel = u.unlabel
  Kept := Kept

section Children

theorem forall₂_paramTypes {R : Term → Nat → Term → Prop} {ps qs : List (Param Term)} {d : Nat}
    (h : RebuiltParams R ps d qs) :
    List.Forall₂ (fun c c' => c'.2 = c.2 ∧ R c.1 c.2 c'.1) (paramTypes ps d) (paramTypes qs d) := by
  induction h with
  | nil => exact .nil
  | cons ht _ ih => exact .cons ⟨rfl, ht⟩ ih

/-- The children of a rebuilt node, one by one. -/
theorem Rebuilt.children {R : Term → Nat → Term → Prop} {t u : Term} {d : Nat}
    (h : Rebuilt R t d u) :
    List.Forall₂ (fun c c' => c'.2 = c.2 ∧ R c.1 c.2 c'.1) (t.children d) (u.children d) := by
  cases h with
  | var | global | univ => exact .nil
  | product hps hr | lambda hps hr =>
    refine List.rel_append (forall₂_paramTypes hps) (.cons ⟨?_, hr⟩ .nil)
    rw [hps.length_eq]
  | letIn hv ht hb => exact .cons ⟨rfl, hv⟩ (.cons ⟨rfl, ht⟩ (.cons ⟨rfl, hb⟩ .nil))
  | apply hf has =>
    refine .cons ⟨rfl, hf⟩ ?_
    exact forall₂_map_of_mem has fun _ _ _ h => ⟨rfl, h⟩
  | cast ht hty => exact .cons ⟨rfl, ht⟩ (.cons ⟨rfl, hty⟩ .nil)
  | caseOf hp hs hbs =>
    refine .cons ⟨rfl, hp⟩ (.cons ⟨rfl, hs⟩ ?_)
    refine forall₂_map_of_mem hbs fun b _ b' h => ⟨?_, h.body⟩
    simp only [h.arity]
  | @fix i _ l l' fs fs' hfs =>
    have hlen : fs.length = fs'.length := hfs.length_eq
    have hfunction : ∀ {f f' : FixFunction Term}, RebuiltFunction R f (d + fs.length) f' →
        List.Forall₂ (fun c c' => c'.2 = c.2 ∧ R c.1 c.2 c'.1)
          (paramTypes f.params (d + fs.length) ++ [(f.result, d + fs.length + f.arity),
            (f.body, d + fs.length + f.arity)])
          (paramTypes f'.params (d + fs.length) ++ [(f'.result, d + fs.length + f'.arity),
            (f'.body, d + fs.length + f'.arity)]) := by
      intro f f' h
      rw [h.arity_eq]
      exact List.rel_append (forall₂_paramTypes h.params)
        (.cons ⟨rfl, h.result⟩ (.cons ⟨rfl, h.body⟩ .nil))
    simp only [Term.children, Bundle.size, ← hlen]
    exact List.rel_flatMap hfs fun _ _ h => hfunction h

end Children

section Kept
variable {reply : Term → Nat → Id (Option Term)} {s s' : Cache} {t u : Term} {d : Nat}

theorem selection?_eq_none (ht : t.asFix? = none) : selection? (t, d) = none := by
  rw [selection?, ht]
  rfl

theorem forall₂_getElem? {α β : Type} {R : α → β → Prop} {as : List α} {bs : List β}
    (h : List.Forall₂ R as bs) {k : Nat} {a : α} (ha : as[k]? = some a) :
    ∃ b, bs[k]? = some b ∧ R a b := by
  obtain ⟨hk, rfl⟩ := List.getElem?_eq_some_iff.1 ha
  have hk' : k < bs.length := by rwa [← h.length_eq]
  exact ⟨_, List.getElem?_eq_getElem hk', h.get hk hk'⟩

theorem KeptAt.extends (h : KeptAt reply s t d u) (hs : Extends s s') : KeptAt reply s' t d u := by
  intro p b e hp
  obtain ⟨b', hb', hstands⟩ := h p b e hp
  exact ⟨b', hb', hstands.extends hs⟩

/-- What is found below a node is found below the rebuilt node. -/
theorem keptAt_below (h : Rebuilt (KeptAt reply s) t d u) {k : Nat} {p : List Nat} {b : Bundle Term}
    {e : Nat} (hp : (at? (k :: p) t d).bind selection? = some (b, e)) :
    ∃ b', (at? (k :: p) u d).bind selection? = some (b', e) ∧ StandsFor reply s b e b' := by
  rw [at?, Option.bind_assoc] at hp
  obtain ⟨c, hc, hp⟩ := Option.bind_eq_some_iff.1 hp
  obtain ⟨c', hc', hdepth, hkept⟩ := forall₂_getElem? h.children hc
  obtain ⟨b', hb', hstands⟩ := hkept p b e hp
  refine ⟨b', ?_, hstands⟩
  rw [at?, Option.bind_assoc, hc', Option.bind_some, hdepth]
  exact hb'

theorem keptAt_node (ht : t.asFix? = none) (h : Rebuilt (KeptAt reply s) t d u) :
    KeptAt reply s t d u := by
  intro p b e hp
  cases p with
  | nil =>
    rw [at?, Option.bind_some, selection?_eq_none ht] at hp
    cases hp
  | cons k p => exact keptAt_below h hp

theorem keptAt_var {x : String} {i : Nat} (u : Term) : KeptAt reply s (.var x i) d u := by
  intro p b e hp
  cases p <;> cases hp

theorem keptAt_fix {i : Nat} {b b' : Bundle Term} (hb : StandsFor reply s b d b')
    (h : List.Forall₂ (RebuiltFunction (KeptAt reply s) · (d + b.size) ·) b.functions
      b'.functions) : KeptAt reply s (.fix i b) d (.fix i b') := by
  intro p c e hp
  cases p with
  | nil =>
    obtain ⟨rfl, rfl⟩ := Prod.mk.inj (Option.some.inj hp)
    exact ⟨b', rfl, hb⟩
  | cons k p => exact keptAt_below (.fix h) hp

theorem KeptInOrder.extends (h : KeptInOrder reply s t d u) (hs : Extends s s') :
    KeptInOrder reply s' t d u := h.imp fun _ _ h => ⟨h.1, h.2.extends hs⟩

theorem keptInOrder_below (h : Rebuilt (KeptInOrder reply s) t d u) :
    List.Forall₂ (fun a b => b.2 = a.2 ∧ StandsFor reply s a.1 a.2 b.1)
      ((t.children d).flatMap fun c => c.1.selections c.2)
      ((u.children d).flatMap fun c => c.1.selections c.2) :=
  List.rel_flatMap h.children fun c c' hc => by
    rw [hc.1]
    exact hc.2

theorem keptInOrder_node (ht : t.asFix? = none) (h : Rebuilt (KeptInOrder reply s) t d u) :
    KeptInOrder reply s t d u := by
  have hu : u.asFix? = none := by cases h <;> first | rfl | cases ht
  unfold KeptInOrder
  rw [selections_eq, selections_eq u, selection?_eq_none ht, selection?_eq_none hu]
  exact keptInOrder_below h

theorem keptInOrder_fix {i : Nat} {b b' : Bundle Term} (hb : StandsFor reply s b d b')
    (h : List.Forall₂ (RebuiltFunction (KeptInOrder reply s) · (d + b.size) ·) b.functions
      b'.functions) : KeptInOrder reply s (.fix i b) d (.fix i b') := by
  unfold KeptInOrder
  rw [selections_eq, selections_eq (.fix i b')]
  exact .cons ⟨rfl, hb⟩ (keptInOrder_below (.fix h))

end Kept

section Labelled
variable {Known : Bundle Term → Prop} {plain : Term → Nat → Id (Option Term)}
  {memoizing : Term → Nat → Labelling (Option Term)} {Kept : Cache → Term → Nat → Term → Prop}

theorem standsFor_of_became {s : Cache} {b : Bundle Term} {d : Nat} {w : Unit}
    {fs : Option (List (FixFunction Term))} {r : Option (Bundle Term)}
    (h : (labelled Known plain memoizing Kept).Became w s b d fs r)
    (hlookup : ∀ l, b.label = some l → s.lookup (l, d) = some r) :
    StandsFor plain s b d (r.getD b) := by
  refine ⟨r, rfl, hlookup, h.label, ?_⟩
  rw [← h.verdict]
  exact congrArg Option.isSome h.settled

/-- Selections from what a bundle becomes are alike when the functions are. -/
theorem unlabel_fix_eq {i d : Nat} {b : Bundle Term} {fs : Option (List (FixFunction Term))}
    {r : Option (Bundle Term)} (hlen : (fs.getD b.functions).length = b.size)
    (h : List.Forall₂ (RebuiltFunction (fun c _ w => c.unlabel = w.unlabel) · (d + b.size) ·)
      (fs.getD b.functions) (r.getD b).functions) :
    (Term.fix i (Comparison.unlabelled b fs)).unlabel = (Term.fix i (r.getD b)).unlabel := by
  rw [← hlen] at h
  have hrebuilt : Rebuilt (fun c _ w => c.unlabel = w.unlabel)
      (.fix i (Comparison.unlabelled b fs)) d (.fix i (r.getD b)) := by
    cases fs with
    | none => exact .fix h
    | some fs => exact .fix h
  exact hrebuilt.unlabel_eq

theorem labelled_admissible
    (hunique : ∀ b c l, Known b → Known c → b.label = some l → c.label = some l → b = c)
    (hextends : ∀ s s' t d u, Extends s s' → Kept s t d u → Kept s' t d u)
    (hnode : ∀ s t d u, t.asFix? = none → Rebuilt (Kept s) t d u → Kept s t d u)
    (hfix : ∀ s i d b b', StandsFor plain s b d b' →
      List.Forall₂ (RebuiltFunction (Kept s) · (d + b.size) ·) b.functions b'.functions →
        Kept s (.fix i b) d (.fix i b'))
    (hreply : ∀ s t u v d first, v.asVar? = t.asVar? → u.unlabel = v.unlabel → Kept s t d v →
      (plain u d).map unlabel = ((memoizing v d).run first).map unlabel ∧
        Kept s t d (((memoizing v d).run first).getD v)) :
    (labelled Known plain memoizing Kept).Admissible where
  known_unique hb hc hbl hcl := hunique _ _ _ hb hc hbl hcl
  fresh_plain := rfl
  fresh_memoizing _ _ := rfl
  settles _ _ := Coupling.settles_labelling _
  kept_extends hs h := hextends _ _ _ _ _ hs h
  node ht halike hkept := ⟨halike.unlabel_eq, hnode _ _ _ _ ht hkept⟩
  fix {w s i d b fs r} h hlookup := by
    have hlen : (fs.getD b.functions).length = b.size :=
      h.alike.length_eq.trans h.kept.length_eq.symm
    exact ⟨unlabel_fix_eq hlen h.alike, hfix _ _ _ _ _ (standsFor_of_became h hlookup) h.kept⟩
  reply {w s t u v d} hvar halike hkept first := by
    obtain ⟨hmap, hkept'⟩ := hreply s t u v d first hvar halike hkept
    refine ⟨?_, ?_, hkept'⟩
    · have := congrArg Option.isSome hmap
      rwa [Option.isSome_map, Option.isSome_map] at this
    · change u.unlabel = v.unlabel at halike
      change ((plain u d).getD u).unlabel = (((memoizing v d).run first).getD v).unlabel
      rw [← Option.getD_map unlabel, ← Option.getD_map unlabel, hmap, halike]

end Labelled

/-- What rewriting with labels makes of `t`, beside what plain rewriting makes of it. Selections are
found by `find`, in the term and in the same places of the rewritten term. -/
structure Memoizes {ι : Type} (find : Term → ι → Option (Bundle Term × Nat))
    (reply : Term → Nat → Id (Option Term)) (t : Term) (x : Labelling (Option Term))
    (y : Option Term) : Prop where
  /-- Both change the term or neither does, and they leave one term up to labels. -/
  same (first : Nat) : (x.run first).map unlabel = y.map unlabel
  /-- Selections from one bundle at one depth become selections from one bundle. -/
  shared (first : Nat) {p q : ι} {b c : Bundle Term} {e l : Nat} :
    find t p = some (b, e) → find t q = some (c, e) → b.label = some l → c.label = some l →
      ∃ b' l', find ((x.run first).getD t) p = some (b', e) ∧
        find ((x.run first).getD t) q = some (b', e) ∧ b'.label = some l'
  /-- A bundle inside which plain rewriting changes nothing stays. -/
  unchanged (first : Nat) {p : ι} {b : Bundle Term} {e : Nat} :
    find t p = some (b, e) → rewrittenFunctions reply b e = none →
      find ((x.run first).getD t) p = some (b, e)

section Memoizes
variable {ι : Type} {find : Term → ι → Option (Bundle Term × Nat)}
  {plain : Term → Nat → Id (Option Term)} {memoizing : Term → Nat → Labelling (Option Term)}
  {Kept : Cache → Term → Nat → Term → Prop} {t : Term}

/-- Rewriting that changes nothing keeps sharing. -/
theorem Memoizes.none (ht : ∀ p s, find t p = some s → s ∈ t.selections 0)
    (hcoherent : t.Coherent) : Memoizes find plain t (pure none) none where
  same _ := rfl
  shared first {p q b c e l} hp hq hb hc := by
    obtain rfl : b = c := hcoherent _ (ht p _ hp) _ (ht q _ hq) l hb hc
    exact ⟨b, l, hp, hq, hb⟩
  unchanged _ {p b e} hp _ := hp

/-- The bundles that a term selects from. -/
def IsBundle (t : Term) (b : Bundle Term) : Prop := ∃ e, (b, e) ∈ t.selections 0

theorem IsBundle.unique (hcoherent : t.Coherent) (b c : Bundle Term) (l : Nat) (hb : t.IsBundle b)
    (hc : t.IsBundle c) (hbl : b.label = some l) (hcl : c.label = some l) : b = c := by
  obtain ⟨e, he⟩ := hb
  obtain ⟨e', he'⟩ := hc
  exact hcoherent _ he _ he' l hbl hcl

/-- Every bundle is met in a known place. -/
theorem knownNode_of_isBundle {n m : Type → Type} [Monad n] [Monad m] {P : Comparison n m}
    (hP : ∀ b, t.IsBundle b → P.Known b) : ∀ u ∈ t.nodes 0, P.KnownNode u.1 := by
  intro u hu s hs
  refine hP s.2 ⟨u.2, List.mem_filterMap.2 ⟨u, hu, ?_⟩⟩
  rw [selection?, hs]
  rfl

theorem outcome_rewrite (hP : (labelled t.IsBundle plain memoizing Kept).Admissible) (first : Nat) :
    ∃ s, Outcome (fun u v => u.unlabel = v.unlabel) (Kept s t 0) t
      (Id.run (t.rewrite? (.ofReply plain))) ((t.rewrite? (.ofReply memoizing)).run first) := by
  have hgood : (labelled t.IsBundle plain memoizing Kept).Good () [] := by
    intro l e r hr
    cases hr
  obtain ⟨_, _, houtcome⟩ :=
    Comparison.runs_visit hP t 0 (knownNode_of_isBundle fun _ h => h) () [] hgood first
  have hlift : t.rewrite? (.ofReply memoizing) =
      (visit (labelled t.IsBundle plain memoizing Kept).remembering memoized t 0).run' [] := by
    change (visit (Visitor.ofReply memoizing).lift memoized t 0).run' [] = _
    rw [Visitor.lift_ofReply]
    rfl
  rw [hlift]
  exact ⟨_, houtcome⟩

theorem memoizes_rewrite (hP : (labelled t.IsBundle plain memoizing Kept).Admissible)
    (ht : ∀ p s, find t p = some s → s ∈ t.selections 0) (hcoherent : t.Coherent)
    (hfind : ∀ s u, Kept s t 0 u → ∀ p b e, find t p = some (b, e) →
      ∃ b', find u p = some (b', e) ∧ StandsFor plain s b e b') :
    Memoizes find plain t (t.rewrite? (.ofReply memoizing))
      (Id.run (t.rewrite? (.ofReply plain))) where
  same first := by
    obtain ⟨s, hverdict, halike, hkept⟩ := outcome_rewrite hP first
    generalize Id.run (t.rewrite? (.ofReply plain)) = y at *
    generalize (t.rewrite? (.ofReply memoizing)).run first = x at *
    cases x with
    | none =>
      cases y with
      | none => rfl
      | some y => cases hverdict
    | some x =>
      cases y with
      | none => cases hverdict
      | some y => exact congrArg some halike.symm
  shared first {p q b c e l} hp hq hb hc := by
    obtain ⟨s, _, _, hkept⟩ := outcome_rewrite hP first
    obtain rfl : b = c := hcoherent _ (ht p _ hp) _ (ht q _ hq) l hb hc
    obtain ⟨b', hb', r, rfl, hlookup, hlabel, _⟩ := hfind s _ hkept p b e hp
    obtain ⟨c', hc', r', rfl, hlookup', _⟩ := hfind s _ hkept q b e hq
    obtain rfl : r = r' := Option.some.inj ((hlookup l hb).symm.trans (hlookup' l hb))
    cases r with
    | none => exact ⟨b, l, hb', hc', hb⟩
    | some r =>
      obtain ⟨l', hl'⟩ := Option.isSome_iff_exists.1 (hlabel r rfl)
      exact ⟨r, l', hb', hc', hl'⟩
  unchanged first {p b e} hp hnone := by
    obtain ⟨s, _, _, hkept⟩ := outcome_rewrite hP first
    obtain ⟨b', hb', r, rfl, _, _, hverdict⟩ := hfind s _ hkept p b e hp
    rw [hnone] at hverdict
    cases r with
    | none => exact hb'
    | some r => cases hverdict

end Memoizes

section Variables
variable {plain : Term → Nat → Id (Option Term)} {memoizing : Term → Nat → Labelling (Option Term)}
  {t : Term}

theorem asVar?_unlabel (t : Term) : t.unlabel.asVar? = t.asVar? := by
  rw [unlabel_eq t 0]
  cases t <;> rfl

theorem eq_var_of_asVar? {x : String} {i : Nat} (h : t.asVar? = some (x, i)) : t = .var x i := by
  cases t <;> simp_all [asVar?]

theorem eq_var_of_unlabel {x : String} {i : Nat} (h : t.unlabel = (Term.var x i).unlabel) :
    t = .var x i := by
  refine eq_var_of_asVar? ?_
  rw [← asVar?_unlabel, h]
  rfl

/-- A visitor that replaces variables keeps the places of selections. -/
theorem memoizes_vars (hcoherent : t.Coherent)
    (hplain : ∀ u d, u.asVar? = none → plain u d = none)
    (hmemoizing : ∀ u d, u.asVar? = none → memoizing u d = pure none)
    (hvar : ∀ x i d first,
      (plain (.var x i) d).map unlabel = ((memoizing (.var x i) d).run first).map unlabel) :
    Memoizes selectionAt? plain t (t.rewrite? (.ofReply memoizing))
      (Id.run (t.rewrite? (.ofReply plain))) := by
  have hadmissible : (labelled t.IsBundle plain memoizing (KeptAt plain)).Admissible := by
    refine labelled_admissible (IsBundle.unique hcoherent) (fun _ _ _ _ _ hs h => h.extends hs)
      (fun _ _ _ _ => keptAt_node) (fun _ _ _ _ _ => keptAt_fix) ?_
    intro s t u v d first hvt halike hkept
    rcases v.eq_var_or_asVar?_eq_none with ⟨x, i, rfl⟩ | hv
    · obtain rfl : u = .var x i := eq_var_of_unlabel halike
      obtain rfl : t = .var x i := eq_var_of_asVar? hvt.symm
      exact ⟨hvar x i d first, keptAt_var _⟩
    · have hu : u.asVar? = none := by rw [← asVar?_unlabel, halike, asVar?_unlabel, hv]
      rw [hplain u d hu, hmemoizing v d hv]
      exact ⟨rfl, hkept⟩
  exact memoizes_rewrite hadmissible (fun _ _ => mem_selections_of_selectionAt?) hcoherent
    fun _ _ h => h

end Variables

section Operations
variable {t : Term}

theorem memoizes_shift (hcoherent : t.Coherent) (limit : Nat) (delta : Int) :
    Memoizes selectionAt? (shifter (m := Id) limit delta).reply t (t.shift? limit delta)
      (Id.run (t.shift? limit delta)) := by
  unfold shift?
  by_cases hdelta : delta = 0
  · rw [if_pos hdelta, if_pos hdelta]
    exact .none (fun _ _ => mem_selections_of_selectionAt?) hcoherent
  · rw [if_neg hdelta, if_neg hdelta]
    refine memoizes_vars hcoherent (fun u d hu => ?_) (fun u d hu => ?_) fun _ _ _ _ => rfl
    · cases u <;> first | rfl | cases hu
    · cases u <;> first | rfl | cases hu

theorem unlabel_shiftM (hcoherent : t.Coherent) (limit : Nat) (delta : Int) (first : Nat) :
    ((t.shiftM limit delta : Labelling Term).run first).unlabel =
      (t.shift limit delta).unlabel := by
  have hsame := (memoizes_shift hcoherent limit delta).same first
  have hgetD := congrArg (·.getD t.unlabel) hsame
  simp only [Option.getD_map] at hgetD
  exact hgetD

theorem memoizes_subst (hcoherent : t.Coherent) (start : Nat) {subs : List Term}
    (hsubs : ∀ u ∈ subs, u.Coherent) :
    Memoizes selectionAt? (substituter (m := Id) start subs).reply t (t.subst? start subs)
      (Id.run (t.subst? start subs)) := by
  unfold subst?
  by_cases hempty : subs.isEmpty
  · rw [if_pos hempty, if_pos hempty]
    exact .none (fun _ _ => mem_selections_of_selectionAt?) hcoherent
  · rw [if_neg hempty, if_neg hempty]
    refine memoizes_vars hcoherent (fun u d hu => ?_) (fun u d hu => ?_) fun x i d first => ?_
    · cases u <;> first | rfl | cases hu
    · cases u <;> first | rfl | cases hu
    · simp only [substituter, Visitor.ofReply]
      split
      · rfl
      · cases hs : subs[i - Index.add start d]? with
        | none => rfl
        | some s =>
          exact congrArg some (unlabel_shiftM (hsubs s (List.mem_of_getElem? hs)) 0 d first).symm

/-- Merging keeps the selections in order. -/
theorem memoizes_normalize (hcoherent : t.Coherent) :
    Memoizes (fun t (k : Nat) => (t.selections 0)[k]?) (normalizer (m := Id)).reply t t.normalize?
      (Id.run t.normalize?) := by
  have hadmissible : (labelled t.IsBundle (normalizer (m := Id)).reply normalizer.reply
      (KeptInOrder (normalizer (m := Id)).reply)).Admissible := by
    refine labelled_admissible (IsBundle.unique hcoherent) (fun _ _ _ _ _ hs h => h.extends hs)
      (fun _ _ _ _ => keptInOrder_node) (fun _ _ _ _ _ => keptInOrder_fix) ?_
    intro s t u v d first _ halike hkept
    refine ⟨?_, ?_⟩
    · change u.flatten?.map unlabel = v.flatten?.map unlabel
      rw [← flatten?_unlabel, ← flatten?_unlabel, halike]
    · change KeptInOrder _ s t d (v.flatten?.getD v)
      cases hv : v.flatten? with
      | none => exact hkept
      | some w =>
        unfold KeptInOrder
        rw [Option.getD_some, selections_flatten? hv]
        exact hkept
  refine memoizes_rewrite hadmissible (fun _ _ h => List.mem_of_getElem? h) hcoherent
    fun s u h p b e hp => ?_
  obtain ⟨c, hc, hdepth, hstands⟩ := forall₂_getElem? h hp
  change c.2 = e at hdepth
  exact ⟨c.1, by rw [hc, ← hdepth], hstands⟩

end Operations

end Term
end InductiveTerms
