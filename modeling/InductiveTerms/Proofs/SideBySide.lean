import InductiveTerms.Proofs.Coupling

/-!
The plain traversal and the memoizing one side by side. A run on the right starts from a cache and
leaves one; it adds nothing about depths that it has not come to, so that a bundle is not cached
while its own functions are visited. What holds of single nodes holds of whole traversals
(`runs_visit`).
-/
namespace InductiveTerms.Comparison
open Traversal Term

variable {n m : Type → Type} [Monad n] [BundleLabels n] [Monad m] {P : Comparison n m}
  {α β γ δ : Type}

/-- From a world and a cache on, a computation runs beside one that uses the cache at depths from
`d` on; the results are related in the world and the cache that are left. -/
def Runs (P : Comparison n m) (w : P.coupling.World) (s : Cache) (d : Nat)
    (R : P.coupling.World → Cache → α → β → Prop) (x : n α) (y : StateT Cache m β) : Prop :=
  P.Good w s → P.coupling.Holds w
    (fun w' a p => P.Good w' p.2 ∧ Frame d s p.2 ∧ R w' p.2 a p.1) x (y.run s)

section Later
variable {w w' : P.coupling.World} {s : Cache} {d : Nat}

theorem Became.later {b : Bundle Term} {fs : Option (List (FixFunction Term))}
    {r : Option (Bundle Term)} (h : P.Became w s b d fs r) (hw : P.coupling.Later w w') :
    P.Became w' s b d fs r :=
  { h with settled := P.coupling.settled_later hw h.settled }

theorem Good.later (h : P.Good w s) (hw : P.coupling.Later w w') : P.Good w' s := by
  intro l e r hr b hb hl
  obtain ⟨fs, hfs⟩ := h l e r hr b hb hl
  exact ⟨fs, hfs.later hw⟩

theorem Runs.pure {R : P.coupling.World → Cache → α → β → Prop} {a : α} {b : β} (h : R w s a b) :
    P.Runs w s d R (pure a) (pure b) :=
  fun hgood => P.coupling.pure ⟨hgood, .refl d s, h⟩

end Later

section Added
variable [BundleLabels m] {w : P.coupling.World} {s s' : Cache} {b : Bundle Term} {d : Nat}
  {fs : Option (List (FixFunction Term))} {r : Option (Bundle Term)}

theorem Became.extends (hP : P.Admissible) (h : P.Became w s b d fs r) (hs : Extends s s') :
    P.Became w s' b d fs r := by
  refine { h with kept := h.kept.imp fun f g hfg => ?_ }
  exact ⟨hfg.name, hfg.params.imp fun _ _ _ => hP.kept_extends hs,
    hP.kept_extends hs hfg.result, hP.kept_extends hs hfg.body⟩

/-- What became of a bundle may be added to the cache. -/
theorem Good.cons {l : Nat} (hP : P.Admissible) (h : P.Good w s) (hb : P.Known b)
    (hl : b.label = some l) (hmiss : s.lookup (l, d) = none) (hbecame : P.Became w s b d fs r) :
    P.Good w (((l, d), r) :: s) := by
  intro l' e r' hlookup c hc hcl
  by_cases hkey : (l', e) = (l, d)
  · obtain ⟨rfl, rfl⟩ := Prod.mk.inj hkey
    rw [List.lookup_cons_self] at hlookup
    obtain rfl := Option.some.inj hlookup
    obtain rfl := hP.known_unique hb hc hl hcl
    exact ⟨fs, hbecame.extends hP (.cons hmiss r)⟩
  · rw [lookup_cons_of_ne hkey] at hlookup
    obtain ⟨fs', hfs'⟩ := h l' e r' hlookup c hc hcl
    exact ⟨fs', hfs'.extends hP (.cons hmiss r)⟩

end Added

section Runs
variable [LawfulMonad n] {w : P.coupling.World} {s : Cache} {d : Nat}
  {R : P.coupling.World → Cache → α → β → Prop} {S : P.coupling.World → Cache → γ → δ → Prop}

/-- A computation that knows nothing of the cache. -/
theorem Runs.lift {x : n α} {y : m β} (h : P.coupling.Holds w (fun w' a b => R w' s a b) x y) :
    P.Runs w s d R x (StateT.lift y) := by
  intro hgood
  have hbind : P.coupling.Holds w
      (fun w' a p => P.Good w' p.2 ∧ Frame d s p.2 ∧ R w' p.2 a p.1) (x >>= Pure.pure)
      (y >>= fun b => Pure.pure (b, s)) :=
    P.coupling.bind h fun w' a b hw hR => P.coupling.pure ⟨hgood.later hw, .refl d s, hR⟩
  rwa [bind_pure] at hbind

variable [LawfulMonad m]

theorem Runs.bind {x : n α} {y : StateT Cache m β} {f : α → n γ} {g : β → StateT Cache m δ}
    (h : P.Runs w s d R x y) (hfg : ∀ w' s' a b, P.coupling.Later w w' → Frame d s s' →
      R w' s' a b → P.Runs w' s' d S (f a) (g b)) : P.Runs w s d S (x >>= f) (y >>= g) := by
  intro hgood
  rw [StateT.run_bind]
  refine P.coupling.bind (h hgood) fun w' a p hw hp => ?_
  obtain ⟨hgood', hframe, hR⟩ := hp
  refine (hfg w' p.2 a p.1 hw hframe hR hgood').imp fun w'' c q _ hq => ?_
  exact ⟨hq.1, hframe.trans hq.2.1, hq.2.2⟩

theorem Runs.imp {T : P.coupling.World → Cache → α → β → Prop} {x : n α} {y : StateT Cache m β}
    (h : P.Runs w s d R x y) (himp : ∀ w' s' a b, R w' s' a b → T w' s' a b) :
    P.Runs w s d T x y := fun hgood =>
  (h hgood).imp fun w' a p _ hp => ⟨hp.1, hp.2.1, himp w' p.2 a p.1 hp.2.2⟩

theorem Runs.deepen {e : Nat} {x : n α} {y : StateT Cache m β} (h : P.Runs w s e R x y)
    (hde : d ≤ e) : P.Runs w s d R x y := fun hgood =>
  (h hgood).imp fun _ _ _ _ hp => ⟨hp.1, hp.2.1.deepen hde, hp.2.2⟩

theorem Runs.settle {x : n α} {y : StateT Cache m β} (h : P.Runs w s d R x y)
    (hx : P.coupling.Settles x) :
    P.Runs w s d (fun w' s' a b => P.coupling.Settled w' x a ∧ R w' s' a b) x y := fun hgood =>
  (hx w _ _ (h hgood)).imp fun _ _ _ _ hp => ⟨hp.2.1, hp.2.2.1, hp.1, hp.2.2.2⟩

end Runs

abbrev ParamsOutcome (P : Comparison n m) (ps : List (Param Term)) (d : Nat) (s : Cache)
    (r₁ r₂ : Option (List (Param Term))) : Prop :=
  Outcome (fun qs qs' => RebuiltParams (fun c _ w => P.Alike c w) qs d qs')
    (fun qs => RebuiltParams (P.Kept s) ps d qs) ps r₁ r₂

abbrev TermsOutcome (P : Comparison n m) (ts : List Term) (d : Nat) (s : Cache)
    (r₁ r₂ : Option (List Term)) : Prop :=
  Outcome (List.Forall₂ P.Alike) (List.Forall₂ (P.Kept s · d ·) ts) ts r₁ r₂

abbrev BranchesOutcome (P : Comparison n m) (bs : List (Branch Term)) (d : Nat) (s : Cache)
    (r₁ r₂ : Option (List (Branch Term))) : Prop :=
  Outcome (List.Forall₂ (RebuiltBranch (fun c _ w => P.Alike c w) d))
    (List.Forall₂ (RebuiltBranch (P.Kept s) d) bs) bs r₁ r₂

/-- What the two sides make of the functions of a bundle. -/
abbrev FunctionsOutcome (P : Comparison n m) (fs : List (FixFunction Term)) (d : Nat) (s : Cache)
    (r₁ r₂ : Option (List (FixFunction Term))) : Prop :=
  Outcome (P.AlikeFunctions d) (P.KeptFunctions s fs d) fs r₁ r₂

/-- What the two sides make of a bundle. -/
def BundleOutcome (P : Comparison n m) (b : Bundle Term) (d : Nat) (w : P.coupling.World)
    (s : Cache) (r₁ r₂ : Option (Bundle Term)) : Prop :=
  ∃ fs, r₁ = fs.map (fun fs => ⟨none, fs⟩) ∧ P.Became w s b d fs r₂

theorem keptParams_extends [BundleLabels m] (hP : P.Admissible) {s s' : Cache}
    {ps qs : List (Param Term)} {d : Nat} (hs : Extends s s')
    (h : RebuiltParams (P.Kept s) ps d qs) : RebuiltParams (P.Kept s') ps d qs :=
  h.imp fun _ _ _ => hP.kept_extends hs

omit [BundleLabels n] in
/-- What the two sides make of a function follows from what they make of its parts. -/
theorem functionOutcome {s : Cache} {d : Nat} {x : String} {ps : List (Param Term)} {r b : Term}
    {ps₁ ps₂ : Option (List (Param Term))} {r₁ r₂ b₁ b₂ : Option Term}
    (hps : P.ParamsOutcome ps d s ps₁ ps₂)
    (hr : Outcome P.Alike (P.Kept s r (d + ps.length)) r r₁ r₂)
    (hb : Outcome P.Alike (P.Kept s b (d + ps.length)) b b₁ b₂) :
    Outcome (fun f g => RebuiltFunction (fun c _ w => P.Alike c w) f d g)
      (fun g => RebuiltFunction (P.Kept s) ⟨x, ps, r, b⟩ d g) ⟨x, ps, r, b⟩
      (replaceFunction ⟨x, ps, r, b⟩ ps₁ r₁ b₁) (replaceFunction ⟨x, ps, r, b⟩ ps₂ r₂ b₂) := by
  refine ⟨?_, ?_, ?_⟩
  · rw [isSome_replaceFunction, isSome_replaceFunction, hps.verdict, hr.verdict, hb.verdict]
  · rw [getD_replaceFunction, getD_replaceFunction]
    exact ⟨rfl, hps.alike, hr.alike, hb.alike⟩
  · rw [getD_replaceFunction]
    exact ⟨rfl, hps.kept, hr.kept, hb.kept⟩

variable [LawfulMonad n] [LawfulMonad m] [BundleLabels m] {w : P.coupling.World} {s : Cache}
  {d : Nat}

section Bundles
variable {b : Bundle Term} {y : StateT Cache m (Option (List (FixFunction Term)))}

omit [LawfulMonad m] in
theorem unshared_plain (hP : P.Admissible) (b : Bundle Term) (d : Nat)
    (x : n (Option (List (FixFunction Term)))) :
    unshared b d x = x >>= fun fs => pure (fs.map fun fs => ⟨none, fs⟩) := by
  rw [unshared]
  refine bind_congr fun fs => ?_
  cases fs with
  | none => rfl
  | some fs =>
    simp only [hP.fresh_plain, pure_bind]
    rfl

theorem runs_unshared (hP : P.Admissible) (hb : P.Known b)
    (h : P.Runs w s (d + 1) (fun _ => P.FunctionsOutcome b.functions (d + b.size))
      (P.functions b d) y) :
    P.Runs w s (d + 1) (P.BundleOutcome b d) (unshared b d (P.functions b d)) (unshared b d y) := by
  rw [unshared_plain hP]
  refine (h.settle (hP.settles d hb)).bind fun w' s' fs gs hw hframe hfs => ?_
  obtain ⟨hsettled, hverdict, halike, hkept⟩ := hfs
  cases gs with
  | none => exact .pure ⟨fs, rfl, hsettled, hverdict, fun _ hc => (nomatch hc), halike, hkept⟩
  | some gs =>
    have hfresh : P.Runs w' s' (d + 1) (fun _ _ _ l => P.Fresh l) (pure ())
        (BundleLabels.fresh : StateT Cache m (Option Nat)) := .lift (hP.fresh_memoizing w')
    have hbind := hfresh.bind (S := P.BundleOutcome b d)
      (f := fun _ => pure (fs.map fun fs => (⟨none, fs⟩ : Bundle Term)))
      (g := fun l => pure (some (⟨l, gs⟩ : Bundle Term))) fun w'' s'' _ l hw' hframe' hl => by
        have hbecame : P.Became w' s' b d fs (some ⟨l, gs⟩) := by
          refine ⟨hsettled, hverdict, fun c hc => ?_, halike, hkept⟩
          obtain rfl := Option.some.inj hc
          exact hl
        exact .pure ⟨fs, rfl, (hbecame.later hw').extends hP hframe'.extends⟩
    rwa [pure_bind] at hbind

/-- A bundle with a label is visited once at a depth; afterwards the cache tells what it became. -/
theorem runs_memoized (hP : P.Admissible) (hb : P.Known b)
    (h : P.Runs w s (d + 1) (fun _ => P.FunctionsOutcome b.functions (d + b.size))
      (P.functions b d) y) :
    P.Runs w s d (fun w' s' r₁ r₂ => P.BundleOutcome b d w' s' r₁ r₂ ∧
        ∀ l, b.label = some l → s'.lookup (l, d) = some r₂)
      (unshared b d (P.functions b d)) (memoized b d y) := by
  have hunshared := runs_unshared hP hb h
  unfold memoized
  cases hl : b.label with
  | none =>
    exact (hunshared.deepen (Nat.le_succ d)).imp fun _ _ _ _ h => ⟨h, fun _ hl' => (nomatch hl')⟩
  | some l =>
    intro hgood
    rw [StateT.run_bind, StateT.run_get, pure_bind]
    cases hlookup : s.lookup (l, d) with
    | some r =>
      obtain ⟨fs, hbecame⟩ := hgood l d r hlookup b hb hl
      have hreplay : P.coupling.Holds w (fun _ a _ => a = fs) (P.functions b d) (pure ()) :=
        P.coupling.replay hbecame.settled rfl
      have hbind := P.coupling.bind (S := fun w' r₁ p => P.Good w' p.2 ∧ Frame d s p.2 ∧
          P.BundleOutcome b d w' p.2 r₁ p.1 ∧ ∀ k, some l = some k → p.2.lookup (k, d) = some p.1)
        (f := fun fs => pure (fs.map fun fs => (⟨none, fs⟩ : Bundle Term)))
        (g := fun _ => pure (r, s)) hreplay fun w' a _ hw ha => by
          subst ha
          refine P.coupling.pure ⟨hgood.later hw, .refl d s, ⟨a, rfl, hbecame.later hw⟩, ?_⟩
          intro k hk
          obtain rfl := Option.some.inj hk
          exact hlookup
      rw [pure_bind, ← unshared_plain hP b d] at hbind
      exact hbind
    | none =>
      have hbind := P.coupling.bind (S := fun w' r₁ p => P.Good w' p.2 ∧ Frame d s p.2 ∧
          P.BundleOutcome b d w' p.2 r₁ p.1 ∧ ∀ k, some l = some k → p.2.lookup (k, d) = some p.1)
        (f := pure) (g := fun p => pure (p.1, ((l, d), p.1) :: p.2)) (hunshared hgood)
        fun w' r₁ p _ hp => by
          obtain ⟨hgood', hframe, fs, rfl, hbecame⟩ := hp
          -- the run was under the bundle, so that this key is still free
          have hmiss : p.2.lookup (l, d) = none := by
            rw [hframe (l, d) (.inl (Nat.lt_succ_self d)), hlookup]
          refine P.coupling.pure ⟨hgood'.cons hP hb hl hmiss hbecame,
            (hframe.deepen (Nat.le_succ d)).cons (Nat.le_refl d) hlookup p.1,
            ⟨fs, rfl, hbecame.extends hP (.cons hmiss p.1)⟩, ?_⟩
          intro k hk
          obtain rfl := Option.some.inj hk
          exact List.lookup_cons_self
      rw [bind_pure] at hbind
      change P.coupling.Holds w _ _
        ((unshared b d y >>= fun r => modify (((l, d), r) :: ·) >>= fun _ => pure r).run s)
      simpa only [StateT.run_bind, StateT.run_modify, StateT.run_pure, pure_bind] using hbind

end Bundles

/-- The memoizing visitor, over a cache of which it knows nothing. -/
abbrev remembering (P : Comparison n m) : Visitor (StateT Cache m) :=
  .ofReply fun t d => StateT.lift (P.memoizing t d)

section Node

/-- A bundle without functions is not visited; any other is entered. -/
theorem runs_under {b : Bundle Term}
    (h : P.Runs w s (d + b.size) (fun _ => P.FunctionsOutcome b.functions (d + b.size))
      (P.functions b d) (visitFunctions P.remembering memoized b.functions (d + b.size))) :
    P.Runs w s (d + 1) (fun _ => P.FunctionsOutcome b.functions (d + b.size))
      (P.functions b d) (visitFunctions P.remembering memoized b.functions (d + b.size)) := by
  obtain ⟨l, fs⟩ := b
  cases fs with
  | nil => exact .pure ⟨rfl, .nil, .nil⟩
  | cons f fs =>
    refine h.deepen ?_
    unfold Bundle.size
    rw [List.length_cons]
    omega

theorem runs_offer (hP : P.Admissible) {t u v : Term} {changed : Bool}
    (hsame : changed = false → u = t ∧ v = t) (hvar : v.asVar? = t.asVar?) (halike : P.Alike u v)
    (hkept : P.Kept s t d v) :
    P.Runs w s d (fun _ s' => Outcome P.Alike (P.Kept s' t d) t)
      (offer (.ofReply P.plain) u d changed) (offer P.remembering v d changed) := by
  refine Runs.bind (.lift (R := fun _ s' o o' => o.isSome = o'.isSome ∧
    P.Alike (o.getD u) (o'.getD v) ∧ P.Kept s' t d (o'.getD v)) (hP.reply hvar halike hkept))
    fun w' s' o o' _ _ ho => ?_
  obtain ⟨hverdict, halike', hkept'⟩ := ho
  cases o with
  | some u' =>
    obtain ⟨v', rfl⟩ := Option.isSome_iff_exists.1 hverdict.symm
    exact .pure ⟨rfl, halike', hkept'⟩
  | none =>
    cases o' with
    | some v' => cases hverdict
    | none =>
      refine .pure ?_
      cases changed with
      | true => exact ⟨rfl, halike', hkept'⟩
      | false =>
        obtain ⟨rfl, rfl⟩ := hsame rfl
        exact ⟨rfl, halike', hkept'⟩

/-- A node is offered on both sides when its children have been visited. -/
theorem runs_node (hP : P.Admissible) {t u v : Term} {changed changed' : Bool}
    (ht : t.asFix? = none) (hverdict : changed = changed')
    (hsame : changed' = false → u = t ∧ v = t) (halike : Rebuilt (fun c _ w => P.Alike c w) u d v)
    (hkept : Rebuilt (P.Kept s) t d v) :
    P.Runs w s d (fun _ s' => Outcome P.Alike (P.Kept s' t d) t)
      (offer (.ofReply P.plain) u d changed) (offer P.remembering v d changed') := by
  obtain ⟨halike', hkept'⟩ := hP.node ht halike hkept
  rw [hverdict]
  exact runs_offer hP hsame hkept.asVar?_eq halike' hkept'

end Node

mutual
/-- What holds of single nodes holds of what a traversal leaves. -/
theorem runs_visit (hP : P.Admissible) : ∀ (t : Term) (d : Nat),
    (∀ u ∈ t.nodes d, P.KnownNode u.1) → ∀ (w : P.coupling.World) (s : Cache),
      P.Runs w s d (fun _ s' => Outcome P.Alike (P.Kept s' t d) t)
        (visit (.ofReply P.plain) unshared t d) (visit P.remembering memoized t d)
  | .var x i, d, _, w, s => runs_node hP rfl rfl (fun _ => ⟨rfl, rfl⟩) .var .var
  | .global x, d, _, w, s => runs_node hP rfl rfl (fun _ => ⟨rfl, rfl⟩) .global .global
  | .univ u, d, _, w, s => runs_node hP rfl rfl (fun _ => ⟨rfl, rfl⟩) .univ .univ
  | .product ps r, d, h, w, s => by
    simp only [nodes, List.forall_mem_cons, List.forall_mem_append] at h
    simp only [visit, leave_ofReply, times_pure, pure_bind]
    refine (runs_visitParams hP ps d h.2.1 w s).bind fun w₁ s₁ ps₁ ps₂ _ _ hps => ?_
    refine ((runs_visit hP r (d + ps.length) h.2.2 w₁ s₁).deepen (Nat.le_add_right ..)).bind
      fun w₂ s₂ r₁ r₂ _ hframe hr => ?_
    replace hps := hps.imp (keptParams_extends hP hframe.extends)
    refine runs_node hP rfl (by rw [hps.verdict, hr.verdict]) (fun hsame => ?_)
      (.product hps.alike hr.alike) (.product hps.kept hr.kept)
    rw [Bool.or_eq_false_iff] at hsame
    rw [(hps.unchanged hsame.1).1, (hps.unchanged hsame.1).2, (hr.unchanged hsame.2).1,
      (hr.unchanged hsame.2).2]
    exact ⟨rfl, rfl⟩
  | .lambda ps b, d, h, w, s => by
    simp only [nodes, List.forall_mem_cons, List.forall_mem_append] at h
    simp only [visit, leave_ofReply, times_pure, pure_bind]
    refine (runs_visitParams hP ps d h.2.1 w s).bind fun w₁ s₁ ps₁ ps₂ _ _ hps => ?_
    refine ((runs_visit hP b (d + ps.length) h.2.2 w₁ s₁).deepen (Nat.le_add_right ..)).bind
      fun w₂ s₂ b₁ b₂ _ hframe hb => ?_
    replace hps := hps.imp (keptParams_extends hP hframe.extends)
    refine runs_node hP rfl (by rw [hps.verdict, hb.verdict]) (fun hsame => ?_)
      (.lambda hps.alike hb.alike) (.lambda hps.kept hb.kept)
    rw [Bool.or_eq_false_iff] at hsame
    rw [(hps.unchanged hsame.1).1, (hps.unchanged hsame.1).2, (hb.unchanged hsame.2).1,
      (hb.unchanged hsame.2).2]
    exact ⟨rfl, rfl⟩
  | .letIn x e t b, d, h, w, s => by
    simp only [nodes, List.forall_mem_cons, List.forall_mem_append] at h
    simp only [visit, enter_ofReply, leave_ofReply, pure_bind]
    refine (runs_visit hP e d h.2.1 w s).bind fun w₁ s₁ e₁ e₂ _ _ he => ?_
    refine (runs_visit hP t d h.2.2.1 w₁ s₁).bind fun w₂ s₂ t₁ t₂ _ hframe ht => ?_
    refine ((runs_visit hP b (d + 1) h.2.2.2 w₂ s₂).deepen (Nat.le_succ d)).bind
      fun w₃ s₃ b₁ b₂ _ hframe' hb => ?_
    replace he := he.imp (hP.kept_extends (hframe.trans hframe').extends)
    replace ht := ht.imp (hP.kept_extends hframe'.extends)
    refine runs_node hP rfl (by rw [he.verdict, ht.verdict, hb.verdict]) (fun hsame => ?_)
      (.letIn he.alike ht.alike hb.alike) (.letIn he.kept ht.kept hb.kept)
    rw [Bool.or_eq_false_iff, Bool.or_eq_false_iff] at hsame
    rw [(he.unchanged hsame.1.1).1, (he.unchanged hsame.1.1).2, (ht.unchanged hsame.1.2).1,
      (ht.unchanged hsame.1.2).2, (hb.unchanged hsame.2).1, (hb.unchanged hsame.2).2]
    exact ⟨rfl, rfl⟩
  | .apply f ⟨a, as⟩, d, h, w, s => by
    simp only [nodes, List.forall_mem_cons, List.forall_mem_append] at h
    simp only [visit]
    refine (runs_visit hP f d h.2.1 w s).bind fun w₁ s₁ f₁ f₂ _ _ hf => ?_
    refine (runs_visit hP a d h.2.2.1 w₁ s₁).bind fun w₂ s₂ a₁ a₂ _ hframe ha => ?_
    refine (runs_visitTerms hP as d h.2.2.2 w₂ s₂).bind fun w₃ s₃ as₁ as₂ _ hframe' has => ?_
    replace hf := hf.imp (hP.kept_extends (hframe.trans hframe').extends)
    replace ha := ha.imp (hP.kept_extends hframe'.extends)
    refine runs_node hP rfl (by rw [hf.verdict, ha.verdict, has.verdict]) (fun hsame => ?_)
      (.apply hf.alike (.cons ha.alike has.alike)) (.apply hf.kept (.cons ha.kept has.kept))
    rw [Bool.or_eq_false_iff, Bool.or_eq_false_iff] at hsame
    rw [(hf.unchanged hsame.1.1).1, (hf.unchanged hsame.1.1).2, (ha.unchanged hsame.1.2).1,
      (ha.unchanged hsame.1.2).2, (has.unchanged hsame.2).1, (has.unchanged hsame.2).2]
    exact ⟨rfl, rfl⟩
  | .cast t k ty, d, h, w, s => by
    simp only [nodes, List.forall_mem_cons, List.forall_mem_append] at h
    simp only [visit]
    refine (runs_visit hP t d h.2.1 w s).bind fun w₁ s₁ t₁ t₂ _ _ ht => ?_
    refine (runs_visit hP ty d h.2.2 w₁ s₁).bind fun w₂ s₂ ty₁ ty₂ _ hframe hty => ?_
    replace ht := ht.imp (hP.kept_extends hframe.extends)
    refine runs_node hP rfl (by rw [ht.verdict, hty.verdict]) (fun hsame => ?_)
      (.cast ht.alike hty.alike) (.cast ht.kept hty.kept)
    rw [Bool.or_eq_false_iff] at hsame
    rw [(ht.unchanged hsame.1).1, (ht.unchanged hsame.1).2, (hty.unchanged hsame.2).1,
      (hty.unchanged hsame.2).2]
    exact ⟨rfl, rfl⟩
  | .caseOf p e bs, d, h, w, s => by
    simp only [nodes, List.forall_mem_cons, List.forall_mem_append] at h
    simp only [visit, enter_ofReply, leave_ofReply, pure_bind]
    refine (runs_visit hP e d h.2.2.1 w s).bind fun w₁ s₁ e₁ e₂ _ _ he => ?_
    refine ((runs_visit hP p (d + 1) h.2.1 w₁ s₁).deepen (Nat.le_succ d)).bind
      fun w₂ s₂ p₁ p₂ _ hframe hp => ?_
    refine (runs_visitBranches hP bs d h.2.2.2 w₂ s₂).bind fun w₃ s₃ bs₁ bs₂ _ hframe' hbs => ?_
    replace he := he.imp (hP.kept_extends (hframe.trans hframe').extends)
    replace hp := hp.imp (hP.kept_extends hframe'.extends)
    refine runs_node hP rfl (by rw [he.verdict, hp.verdict, hbs.verdict]) (fun hsame => ?_)
      (.caseOf hp.alike he.alike hbs.alike) (.caseOf hp.kept he.kept hbs.kept)
    rw [Bool.or_eq_false_iff, Bool.or_eq_false_iff] at hsame
    rw [(he.unchanged hsame.1.1).1, (he.unchanged hsame.1.1).2, (hp.unchanged hsame.1.2).1,
      (hp.unchanged hsame.1.2).2, (hbs.unchanged hsame.2).1, (hbs.unchanged hsame.2).2]
    exact ⟨rfl, rfl⟩
  | .fix i ⟨l, fs⟩, d, h, w, s => by
    simp only [nodes, List.forall_mem_cons] at h
    simp only [visit, enterFunctions_ofReply, leave_ofReply, times_pure, pure_bind, bind_pure]
    have hfs := runs_under (b := ⟨l, fs⟩) (runs_visitFunctions hP fs (d + fs.length) h.2 w s)
    refine (runs_memoized hP (h.1 (i, ⟨l, fs⟩) rfl) hfs).bind fun w' s' r₁ r₂ _ _ hb => ?_
    obtain ⟨⟨gs, rfl, hbecame⟩, hlookup⟩ := hb
    obtain ⟨halike, hkept⟩ := hP.fix (i := i) hbecame hlookup
    rw [Option.isSome_map, hbecame.verdict]
    refine runs_offer hP (fun hsame => ?_) rfl halike hkept
    have hgs : gs = none := by simpa using hbecame.verdict.trans hsame
    have hr : r₂ = none := by simpa using hsame
    rw [hgs, hr]
    exact ⟨rfl, rfl⟩
termination_by structural t => t

theorem runs_visitParams (hP : P.Admissible) : ∀ (ps : List (Param Term)) (d : Nat),
    (∀ u ∈ nodesOfParams ps d, P.KnownNode u.1) → ∀ (w : P.coupling.World) (s : Cache),
      P.Runs w s d (fun _ s' => P.ParamsOutcome ps d s')
        (visitParams (.ofReply P.plain) unshared ps d) (visitParams P.remembering memoized ps d)
  | [], _, _, _, _ => .pure ⟨rfl, .nil, .nil⟩
  | ⟨x, t⟩ :: ps, d, h, w, s => by
    simp only [nodesOfParams, List.forall_mem_append] at h
    simp only [visitParams, enter_ofReply, pure_bind]
    refine (runs_visit hP t d h.1 w s).bind fun w₁ s₁ t₁ t₂ _ _ ht => ?_
    refine ((runs_visitParams hP ps (d + 1) h.2 w₁ s₁).deepen (Nat.le_succ d)).bind
      fun w₂ s₂ ps₁ ps₂ _ hframe hps => ?_
    replace ht := ht.imp (hP.kept_extends hframe.extends)
    refine .pure ((ht.map (⟨x, ·⟩)).cons hps (fun _ _ _ _ hhead hrest => ?_)
      fun _ _ hhead hrest => ?_)
    · obtain ⟨_, _, hhead, rfl, rfl⟩ := hhead
      exact .cons hhead hrest
    · obtain ⟨_, hhead, rfl⟩ := hhead
      exact .cons hhead hrest
termination_by structural ps => ps

theorem runs_visitTerms (hP : P.Admissible) : ∀ (ts : List Term) (d : Nat),
    (∀ u ∈ nodesOfTerms ts d, P.KnownNode u.1) → ∀ (w : P.coupling.World) (s : Cache),
      P.Runs w s d (fun _ s' => P.TermsOutcome ts d s')
        (visitTerms (.ofReply P.plain) unshared ts d) (visitTerms P.remembering memoized ts d)
  | [], _, _, _, _ => .pure ⟨rfl, .nil, .nil⟩
  | t :: ts, d, h, w, s => by
    simp only [nodesOfTerms, List.forall_mem_append] at h
    simp only [visitTerms]
    refine (runs_visit hP t d h.1 w s).bind fun w₁ s₁ t₁ t₂ _ _ ht => ?_
    refine (runs_visitTerms hP ts d h.2 w₁ s₁).bind fun w₂ s₂ ts₁ ts₂ _ hframe hts => ?_
    exact .pure ((ht.imp (hP.kept_extends hframe.extends)).cons hts (fun _ _ _ _ => .cons)
      fun _ _ h hs => .cons h hs)
termination_by structural ts => ts

theorem runs_visitBranches (hP : P.Admissible) : ∀ (bs : List (Branch Term)) (d : Nat),
    (∀ u ∈ nodesOfBranches bs d, P.KnownNode u.1) → ∀ (w : P.coupling.World) (s : Cache),
      P.Runs w s d (fun _ s' => P.BranchesOutcome bs d s')
        (visitBranches (.ofReply P.plain) unshared bs d)
        (visitBranches P.remembering memoized bs d)
  | [], _, _, _, _ => .pure ⟨rfl, .nil, .nil⟩
  | ⟨x, k, t⟩ :: bs, d, h, w, s => by
    simp only [nodesOfBranches, List.forall_mem_append] at h
    simp only [visitBranches, enter_ofReply, leave_ofReply, times_pure, pure_bind]
    refine ((runs_visit hP t (d + k) h.1 w s).deepen (Nat.le_add_right ..)).bind
      fun w₁ s₁ t₁ t₂ _ _ ht => ?_
    refine (runs_visitBranches hP bs d h.2 w₁ s₁).bind fun w₂ s₂ bs₁ bs₂ _ hframe hbs => ?_
    replace ht := ht.imp (hP.kept_extends hframe.extends)
    refine .pure ((ht.map (⟨x, k, ·⟩)).cons hbs (fun _ _ _ _ hhead hrest => ?_)
      fun _ _ hhead hrest => ?_)
    · obtain ⟨_, _, hhead, rfl, rfl⟩ := hhead
      exact .cons ⟨rfl, rfl, hhead⟩ hrest
    · obtain ⟨_, hhead, rfl⟩ := hhead
      exact .cons ⟨rfl, rfl, hhead⟩ hrest
termination_by structural bs => bs

theorem runs_visitFunctions (hP : P.Admissible) : ∀ (fs : List (FixFunction Term)) (d : Nat),
    (∀ u ∈ nodesOfFunctions fs d, P.KnownNode u.1) → ∀ (w : P.coupling.World) (s : Cache),
      P.Runs w s d (fun _ s' => P.FunctionsOutcome fs d s')
        (visitFunctions (.ofReply P.plain) unshared fs d)
        (visitFunctions P.remembering memoized fs d)
  | [], _, _, _, _ => .pure ⟨rfl, .nil, .nil⟩
  | ⟨x, ps, r, b⟩ :: fs, d, h, w, s => by
    simp only [nodesOfFunctions, List.forall_mem_append] at h
    simp only [visitFunctions, leave_ofReply, times_pure, pure_bind]
    obtain ⟨⟨hps, hr, hb⟩, hfs⟩ := h
    refine (runs_visitParams hP ps d hps w s).bind fun w₁ s₁ ps₁ ps₂ _ _ hps => ?_
    refine ((runs_visit hP r (d + ps.length) hr w₁ s₁).deepen (Nat.le_add_right ..)).bind
      fun w₂ s₂ r₁ r₂ _ hframe₁ hr => ?_
    refine ((runs_visit hP b (d + ps.length) hb w₂ s₂).deepen (Nat.le_add_right ..)).bind
      fun w₃ s₃ b₁ b₂ _ hframe₂ hb => ?_
    refine (runs_visitFunctions hP fs d hfs w₃ s₃).bind fun w₄ s₄ fs₁ fs₂ _ hframe₃ hfs => ?_
    replace hb := hb.imp (hP.kept_extends hframe₃.extends)
    replace hr := hr.imp (hP.kept_extends (hframe₂.trans hframe₃).extends)
    replace hps := hps.imp (keptParams_extends hP ((hframe₁.trans hframe₂).trans hframe₃).extends)
    exact .pure ((functionOutcome hps hr hb).cons hfs (fun _ _ _ _ h hs => .cons h hs)
      fun _ _ h hs => .cons h hs)
termination_by structural fs => fs
end

end InductiveTerms.Comparison
