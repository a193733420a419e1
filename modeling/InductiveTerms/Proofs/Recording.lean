import InductiveTerms.Proofs.Itinerary

/-!
Recorded traversals. Whatever the visitor does, a traversal that is recorded goes the way through
the term, with or without a memory of the bundles that were met, and it changes something just when
the visitor replaces a node (`leads_visit`). `traversed_record` says what this means for the events
that `Term.recordM` returns.
-/
namespace InductiveTerms
open Traversal Term

/-- Whether the visitor has replaced a node at an event. -/
def TraversalEvent.replaces : TraversalEvent → Bool
  | .offered _ _ r => r.isSome
  | _ => false

/-- How far a recorded traversal has got: the bundles it remembers and the events, latest first. -/
structure Progress where
  cache : Cache
  events : List TraversalEvent

namespace Progress

def met (p : Progress) : List (Nat × Nat) := p.cache.map (·.1)

def note (p : Progress) (e : TraversalEvent) : Progress := ⟨p.cache, e :: p.events⟩

def remember (p : Progress) (remembers : Bool) (label : Option Nat) (d : Nat)
    (r : Option (Bundle Term)) : Progress :=
  match remembers, label with
  | true, some l => ⟨((l, d), r) :: p.cache, p.events⟩
  | _, _ => p

theorem mem_of_lookup {p : Progress} {key : Nat × Nat} {r : Option (Bundle Term)}
    (h : p.cache.lookup key = some r) : (key, r) ∈ p.cache := by
  obtain ⟨before, after, hcache, -⟩ := List.lookup_eq_some_iff.1 h
  rw [hcache]
  exact List.mem_append_right _ List.mem_cons_self

theorem not_mem_met {p : Progress} {key : Nat × Nat} (h : p.cache.lookup key = none) :
    key ∉ p.met := by
  rw [List.lookup_eq_none_iff] at h
  intro hmem
  obtain ⟨entry, hentry, rfl⟩ := List.mem_map.1 hmem
  exact bne_iff_ne.1 (h entry hentry) rfl

/-- Whether the visitor has replaced a node. -/
def Replaced (p : Progress) : Prop := ∃ e ∈ p.events, e.replaces

end Progress

/-- A way to run a visitor that keeps a record. -/
structure Recorder (k : Type → Type) [Monad k] where
  visitor : Visitor k
  policy : BundlePolicy k
  /-- Whether bundles that have been met are passed over. -/
  remembers : Bool
  /-- What holds of the progress and the value that a computation comes to. -/
  Leads {α : Type} : Progress → k α → (Progress → α → Prop) → Prop
  imp {α : Type} {p : Progress} {x : k α} {P Q : Progress → α → Prop} :
    Leads p x P → (∀ p' a, P p' a → Q p' a) → Leads p x Q
  pure {α : Type} {p : Progress} {a : α} {P : Progress → α → Prop} : P p a → Leads p (pure a) P
  bind {α β : Type} {p : Progress} {x : k α} {f : α → k β} {P : Progress → α → Prop}
    {Q : Progress → β → Prop} :
    Leads p x P → (∀ p' a, P p' a → Leads p' (f a) Q) → Leads p (x >>= f) Q
  enter (p : Progress) (b : Binder) : Leads p (visitor.enter b) fun p' _ => p' = p.note (.entered b)
  leave (p : Progress) : Leads p visitor.leave fun p' _ => p' = p.note .left
  reply (p : Progress) (t : Term) (d : Nat) :
    Leads p (visitor.reply t d) fun p' r => p' = p.note (.offered t d r)
  passed {p : Progress} {b : Bundle Term} {l d : Nat} {r : Option (Bundle Term)}
    (x : k (Option (List (FixFunction Term)))) :
    remembers = true → b.label = some l → p.cache.lookup (l, d) = some r →
      Leads p (policy b d x) fun p' r' => p' = p ∧ r' = r
  visited {p : Progress} {b : Bundle Term} {d : Nat} {x : k (Option (List (FixFunction Term)))}
    {P : Progress → Option (List (FixFunction Term)) → Prop} :
    (remembers = true → ∀ l, b.label = some l → p.cache.lookup (l, d) = none) → Leads p x P →
      Leads p (policy b d x) fun p' r => ∃ p'' fs l, P p'' fs ∧
        r = fs.map (fun fs => ⟨l, fs⟩) ∧ p' = p''.remember remembers b.label d r

section Recorders
variable {σ : Type}

/-- Runs a recorded computation from a record, a state and the next label. -/
def runRecorded {α : Type} (x : StateT (List TraversalEvent) (StateT σ Labelling) α)
    (events : List TraversalEvent) (s : σ) (first : Nat) : (α × List TraversalEvent) × σ × Nat :=
  let out : ((α × List TraversalEvent) × σ) × Nat :=
    Id.run (StateT.run ((x.run events).run s) first)
  (out.1.1, out.1.2, out.2)

theorem runRecorded_bind {α β : Type} (x : StateT (List TraversalEvent) (StateT σ Labelling) α)
    (f : α → StateT (List TraversalEvent) (StateT σ Labelling) β) (events : List TraversalEvent)
    (s : σ) (first : Nat) : runRecorded (x >>= f) events s first =
      runRecorded (f (runRecorded x events s first).1.1) (runRecorded x events s first).1.2
        (runRecorded x events s first).2.1 (runRecorded x events s first).2.2 := rfl

/-- A bundle that changed becomes one with a label of its own, and nothing else happens. -/
theorem runRecorded_unshared (b : Bundle Term) (d : Nat)
    (x : StateT (List TraversalEvent) (StateT σ Labelling) (Option (List (FixFunction Term))))
    (events : List TraversalEvent) (s : σ) (first : Nat) :
    ∃ l, (runRecorded (unshared b d x) events s first).1 =
      ((runRecorded x events s first).1.1.map fun fs => ⟨l, fs⟩,
        (runRecorded x events s first).1.2) := by
  rw [unshared, runRecorded_bind]
  rcases runRecorded x events s first with ⟨⟨_ | fs, events'⟩, s', first'⟩
  · exact ⟨none, rfl⟩
  · exact ⟨some first', rfl⟩

theorem runRecorded_unshared_run (b : Bundle Term) (d : Nat)
    (x : StateT Cache (StateT (List TraversalEvent) (StateT σ Labelling))
      (Option (List (FixFunction Term))))
    (cache : Cache) (events : List TraversalEvent) (s : σ) (first : Nat) :
    ∃ l, (runRecorded ((unshared b d x).run cache) events s first).1 =
      (((runRecorded (x.run cache) events s first).1.1.1.map fun fs => ⟨l, fs⟩,
        (runRecorded (x.run cache) events s first).1.1.2),
          (runRecorded (x.run cache) events s first).1.2) := by
  rw [unshared, StateT.run_bind, runRecorded_bind]
  rcases runRecorded (x.run cache) events s first with ⟨⟨⟨_ | fs, cache'⟩, events'⟩, s', first'⟩
  · exact ⟨none, rfl⟩
  · exact ⟨some first', rfl⟩

/-- Rewrites every bundle wherever it is met. -/
def Recorder.plain (v : Visitor (StateT σ Labelling)) :
    Recorder (StateT (List TraversalEvent) (StateT σ Labelling)) where
  visitor := v.recorded
  policy := unshared
  remembers := false
  Leads p x P := ∀ s first, P ⟨p.cache, (runRecorded x p.events s first).1.2⟩
    (runRecorded x p.events s first).1.1
  imp h himp s first := himp _ _ (h s first)
  pure h _ _ := h
  bind h hf s first := hf _ _ (h s first) _ _
  enter _ _ _ _ := rfl
  leave _ _ _ := rfl
  reply _ _ _ _ _ := rfl
  passed _ h := nomatch h
  visited {p b d x _} _ h s first := by
    obtain ⟨l, hunshared⟩ := runRecorded_unshared b d x p.events s first
    rw [hunshared]
    exact ⟨_, _, l, h s first, rfl, rfl⟩

/-- Rewrites a bundle once for each depth. -/
def Recorder.memoizing (v : Visitor (StateT σ Labelling)) :
    Recorder (StateT Cache (StateT (List TraversalEvent) (StateT σ Labelling))) where
  visitor := v.recorded.lift
  policy := memoized
  remembers := true
  Leads p x P := ∀ s first,
    P ⟨(runRecorded (x.run p.cache) p.events s first).1.1.2,
      (runRecorded (x.run p.cache) p.events s first).1.2⟩
      (runRecorded (x.run p.cache) p.events s first).1.1.1
  imp h himp s first := himp _ _ (h s first)
  pure h _ _ := h
  bind h hf s first := hf _ _ (h s first) _ _
  enter _ _ _ _ := rfl
  leave _ _ _ := rfl
  reply _ _ _ _ _ := rfl
  passed {p b l d r} x _ hl hlookup s first := by
    have hpolicy : (memoized b d x).run p.cache = Pure.pure (r, p.cache) := by
      simp only [memoized, hl, StateT.run_bind, StateT.run_get, pure_bind, hlookup,
        StateT.run_pure]
    rw [hpolicy]
    exact ⟨rfl, rfl⟩
  visited {p b d x _} hmiss h s first := by
    obtain ⟨l, hunshared⟩ := runRecorded_unshared_run b d x p.cache p.events s first
    cases hlabel : b.label with
    | none =>
      have hpolicy : memoized b d x = unshared b d x := by simp only [memoized, hlabel]
      rw [hpolicy, hunshared]
      exact ⟨_, _, l, h s first, rfl, rfl⟩
    | some known =>
      have hpolicy : (memoized b d x).run p.cache = (unshared b d x).run p.cache >>= fun out =>
          Pure.pure (out.1, ((known, d), out.1) :: out.2) := by
        simp only [memoized, hlabel, StateT.run_bind, StateT.run_get, pure_bind,
          hmiss rfl known hlabel, StateT.run_modify, StateT.run_pure]
      rw [hpolicy, runRecorded_bind, hunshared]
      exact ⟨_, _, l, h s first, rfl, rfl⟩

end Recorders

/-- A child of which nothing is said. -/
def anything (_ : Term) (_ : Nat) (_ : Term) : Prop := True

/-- A stop and the event it is noted by. A node is offered in the layout that it has in the term,
but its children may have been rewritten. -/
inductive Stop.Noted : Stop → TraversalEvent → Prop
  | enter (b : Binder) : Noted (.enter b) (.entered b)
  | leave : Noted .leave .left
  | offer {t u : Term} {Γ : List Binder} (r : Option Term) : Rebuilt anything t Γ.length u →
      Noted (.offer t Γ) (.offered u Γ.length r)

/-- The functions of a bundle that is met at a depth, with children that may have been rewritten. -/
def Bundle.LaidOut (b : Bundle Term) (d : Nat) (fs : List (FixFunction Term)) : Prop :=
  List.Forall₂ (RebuiltFunction anything · (d + b.size) ·) b.functions fs

/-- What is remembered is what became of the bundles that were met, and a bundle that changed did so
because the visitor replaced a node. -/
structure Progress.Sound (K : Bundles) (p : Progress) : Prop where
  replaced {key : Nat × Nat} {b : Bundle Term} : (key, some b) ∈ p.cache → p.Replaced
  laidOut {b : Bundle Term} {l d : Nat} {r : Option (Bundle Term)} : K.Known b → b.label = some l →
    ((l, d), r) ∈ p.cache → b.LaidOut d (r.getD b).functions

/-- What a part of a recorded traversal does: it follows a leg of the way, and it changes something
just when the visitor replaces a node there or has replaced one in a bundle that is passed over. -/
structure Follows (K : Bundles) (leg : Leg) (p : Progress) (changed : Bool) (p' : Progress) :
    Prop where
  met : p'.met = (leg p.met).2
  noted : ∃ events, p'.events = events.reverse ++ p.events ∧
    List.Forall₂ Stop.Noted (leg p.met).1 events
  sound : p'.Sound K
  replaced : p'.Replaced ↔ p.Replaced ∨ changed = true

namespace Follows
variable {K : Bundles} {leg leg' : Leg} {p p' p'' : Progress} {changed changed' : Bool}

theorem stay (hp : p.Sound K) : Follows K (.of []) p false p :=
  ⟨rfl, ⟨[], rfl, .nil⟩, hp, by simp⟩

theorem andThen (h : Follows K leg p changed p') (h' : Follows K leg' p' changed' p'') :
    Follows K (leg.andThen leg') p (changed || changed') p'' := by
  obtain ⟨events, hevents, hnoted⟩ := h.noted
  obtain ⟨events', hevents', hnoted'⟩ := h'.noted
  have hmet := h'.met
  rw [h.met] at hmet hnoted'
  refine ⟨hmet, ⟨events ++ events', ?_, List.rel_append hnoted hnoted'⟩, h'.sound, ?_⟩
  · rw [hevents', hevents, List.reverse_append, List.append_assoc]
  · rw [h'.replaced, h.replaced, Bool.or_eq_true, or_assoc]

theorem note {stop : Stop} {e : TraversalEvent} (hp : p.Sound K) (he : stop.Noted e) :
    Follows K (.of [stop]) p e.replaces (p.note e) where
  met := rfl
  noted := ⟨[e], rfl, .cons he .nil⟩
  sound :=
    { replaced := fun hmem =>
        let ⟨e', he', hreplaces⟩ := hp.replaced hmem
        ⟨e', List.mem_cons_of_mem _ he', hreplaces⟩
      laidOut := hp.laidOut }
  replaced := by
    simp only [Progress.Replaced, Progress.note, List.exists_mem_cons_iff, or_comm]

theorem pass {l d : Nat} {r : Option (Bundle Term)} (hp : p.Sound K)
    (hmem : ((l, d), r) ∈ p.cache) : Follows K (leg.bundle true (some l) d) p r.isSome p := by
  have hmet : (l, d) ∈ p.met := List.mem_map_of_mem hmem
  have hpassed : (leg.bundle true (some l) d) p.met = ([], p.met) := if_pos hmet
  refine ⟨by rw [hpassed], ⟨[], rfl, by rw [hpassed]; exact .nil⟩, hp, ?_⟩
  refine (or_iff_left_of_imp fun hchanged => ?_).symm
  obtain ⟨b', rfl⟩ := Option.isSome_iff_exists.1 hchanged
  exact hp.replaced hmem

theorem remember {b : Bundle Term} {d : Nat} {remembers : Bool} {r : Option (Bundle Term)}
    (h : Follows K leg p r.isSome p') (hb : K.Known b) (hlaid : b.LaidOut d (r.getD b).functions)
    (hmiss : remembers = true → ∀ l, b.label = some l → (l, d) ∉ p.met) :
    Follows K (leg.bundle remembers b.label d) p r.isSome (p'.remember remembers b.label d r) := by
  cases remembers with
  | false => exact h
  | true =>
    cases hl : b.label with
    | none => exact h
    | some l =>
      have hvisited : (leg.bundle true (some l) d) p.met =
          ((leg p.met).1, (l, d) :: (leg p.met).2) := if_neg (hmiss rfl l hl)
      have hmet : (p'.remember true (some l) d r).met = (l, d) :: p'.met := rfl
      refine ⟨by rw [hmet, hvisited, h.met], by rw [hvisited]; exact h.noted, ?_, h.replaced⟩
      refine ⟨fun {key b'} hmem => ?_, fun {c l' d' r'} hc hl' hmem => ?_⟩ <;>
        rcases List.mem_cons.1 hmem with heq | hmem
      · obtain ⟨-, rfl⟩ := Prod.mk.inj heq
        exact h.replaced.2 (.inr rfl)
      · exact h.sound.replaced hmem
      · obtain ⟨hkey, rfl⟩ := Prod.mk.inj heq
        obtain ⟨rfl, rfl⟩ := Prod.mk.inj hkey
        obtain rfl := K.unique hb hc hl hl'
        exact hlaid
      · exact h.sound.laidOut hc hl' hmem

end Follows

namespace Recorder
variable {k : Type → Type} [Monad k] (R : Recorder k) {K : Bundles} {p p₀ : Progress}
variable {leg : Leg} {changed : Bool}

theorem leads_enter (hp : p.Sound K) (b : Binder) :
    R.Leads p (R.visitor.enter b) fun p' _ => Follows K (.enter [b]) p false p' :=
  R.imp (R.enter p b) fun _ _ h => h ▸ .note hp (.enter b)

theorem leads_leave (hp : p.Sound K) :
    R.Leads p R.visitor.leave fun p' _ => Follows K (.leave 1) p false p' :=
  R.imp (R.leave p) fun _ _ h => h ▸ .note hp .leave

theorem leads_times {stop : Stop} {x : k Unit}
    (hx : ∀ {p}, p.Sound K → R.Leads p x fun p' _ => Follows K (.of [stop]) p false p') (n : Nat)
    (hp : p.Sound K) :
    R.Leads p (times n x) fun p' _ => Follows K (.of (List.replicate n stop)) p false p' := by
  induction n generalizing p with
  | zero => exact R.pure (.stay hp)
  | succ n ih =>
    refine R.bind (hx hp) fun p' _ h => R.imp (ih h.sound) fun p'' _ h' => ?_
    exact h.andThen h'

theorem leads_times_leave (n : Nat) (hp : p.Sound K) :
    R.Leads p (times n R.visitor.leave) fun p' _ => Follows K (.leave n) p false p' :=
  R.leads_times R.leads_leave n hp

theorem leads_times_enter (n : Nat) (b : Binder) (hp : p.Sound K) :
    R.Leads p (times n (R.visitor.enter b)) fun p' _ =>
      Follows K (.enter (List.replicate n b)) p false p' := by
  rw [Leg.enter, List.map_replicate]
  exact R.leads_times (fun hp => R.leads_enter hp b) n hp

theorem leads_enterFunctions (fs : List (FixFunction Term)) (hp : p.Sound K) :
    R.Leads p (enterFunctions R.visitor fs) fun p' _ =>
      Follows K (.enter (fs.map functionBinder)) p false p' := by
  induction fs generalizing p with
  | nil => exact R.pure (.stay hp)
  | cons f fs ih =>
    refine R.bind (R.leads_enter hp _) fun p' _ h => R.imp (ih h.sound) fun p'' _ h' => ?_
    exact h.andThen h'

theorem leads_offer {t u : Term} {Γ : List Binder} (h : Follows K leg p₀ changed p)
    (hu : Rebuilt anything t Γ.length u) :
    R.Leads p (offer R.visitor u Γ.length changed) fun p' r =>
      Follows K (leg.andThen (.offer t Γ)) p₀ r.isSome p' := by
  refine R.bind (R.reply p u Γ.length) fun p' r hp' => ?_
  subst hp'
  have hoffer := h.andThen (.note h.sound (.offer r hu))
  cases r with
  | some w =>
    refine R.pure ?_
    rwa [TraversalEvent.replaces, Option.isSome_some, Bool.or_true] at hoffer
  | none =>
    rw [TraversalEvent.replaces, Option.isSome_none, Bool.or_false] at hoffer
    cases changed with
    | true => exact R.pure hoffer
    | false => exact R.pure hoffer

theorem leads_bundle {b : Bundle Term} {d : Nat} {x : k (Option (List (FixFunction Term)))}
    (hb : K.Known b) (hp : p.Sound K)
    (hx : R.Leads p x fun p' fs =>
      Follows K leg p fs.isSome p' ∧ b.LaidOut d (fs.getD b.functions)) :
    R.Leads p (R.policy b d x) fun p' r =>
      Follows K (leg.bundle R.remembers b.label d) p r.isSome p' ∧
        b.LaidOut d (r.getD b).functions := by
  by_cases hmet : ∃ l r, R.remembers = true ∧ b.label = some l ∧ p.cache.lookup (l, d) = some r
  · obtain ⟨l, r, hremembers, hl, hlookup⟩ := hmet
    have hmem := Progress.mem_of_lookup hlookup
    refine R.imp (R.passed x hremembers hl hlookup) fun p' r' hpassed => ?_
    obtain ⟨rfl, rfl⟩ := hpassed
    rw [hremembers, hl]
    exact ⟨.pass hp hmem, hp.laidOut hb hl hmem⟩
  · have hmiss : R.remembers = true → ∀ l, b.label = some l → p.cache.lookup (l, d) = none :=
      fun hremembers l hl => Option.eq_none_iff_forall_ne_some.2 fun r hlookup =>
        hmet ⟨l, r, hremembers, hl, hlookup⟩
    refine R.imp (R.visited hmiss hx) fun p' r hvisited => ?_
    obtain ⟨p'', fs, l, ⟨hfollows, hlaid⟩, rfl, rfl⟩ := hvisited
    have hlaid : b.LaidOut d ((fs.map fun fs => (⟨l, fs⟩ : Bundle Term)).getD b).functions := by
      cases fs <;> exact hlaid
    have hchanged : (fs.map fun fs => (⟨l, fs⟩ : Bundle Term)).isSome = fs.isSome :=
      Option.isSome_map
    rw [← hchanged] at hfollows
    exact ⟨hfollows.remember hb hlaid fun h l hl => Progress.not_mem_met (hmiss h l hl), hlaid⟩

theorem getD_map_param (x : Option String) (t : Term) (t' : Option Term) :
    (t'.map fun t' => (⟨x, t'⟩ : Param Term)).getD ⟨x, t⟩ = ⟨x, t'.getD t⟩ := by
  cases t' <;> rfl

theorem getD_map_branch (x : String) (n : Nat) (t : Term) (t' : Option Term) :
    (t'.map fun t' => (⟨x, n, t'⟩ : Branch Term)).getD ⟨x, n, t⟩ = ⟨x, n, t'.getD t⟩ := by
  cases t' <;> rfl

mutual
theorem leads_visit : ∀ (t : Term) (Γ : List Binder) {p : Progress},
    (∀ u ∈ t.nodes Γ.length, K.KnownNode u.1) → p.Sound K →
      R.Leads p (visit R.visitor R.policy t Γ.length) fun p' r =>
        Follows K (t.itinerary R.remembers Γ) p r.isSome p'
  | .var x i, Γ, _, _, hp => R.leads_offer (.stay hp) .var
  | .global x, Γ, _, _, hp => R.leads_offer (.stay hp) .global
  | .univ u, Γ, _, _, hp => R.leads_offer (.stay hp) .univ
  | .product ps r, Γ, p, hK, hp => by
    simp only [nodes, List.forall_mem_cons, List.forall_mem_append] at hK
    rw [← length_enteringParams] at hK
    rw [visit, ← length_enteringParams ps Γ]
    refine R.bind (leads_visitParams ps Γ hK.2.1 hp) fun p₁ ps' hps => ?_
    refine R.bind (leads_visit r _ hK.2.2 hps.1.sound) fun p₂ r' hr => ?_
    refine R.bind (R.leads_times_leave ps.length hr.sound) fun p₃ _ hleave => ?_
    have hchildren := (hps.1.andThen hr).andThen hleave
    rw [Bool.or_false] at hchildren
    exact R.leads_offer hchildren (.product hps.2 trivial)
  | .lambda ps b, Γ, p, hK, hp => by
    simp only [nodes, List.forall_mem_cons, List.forall_mem_append] at hK
    rw [← length_enteringParams] at hK
    rw [visit, ← length_enteringParams ps Γ]
    refine R.bind (leads_visitParams ps Γ hK.2.1 hp) fun p₁ ps' hps => ?_
    refine R.bind (leads_visit b _ hK.2.2 hps.1.sound) fun p₂ b' hb => ?_
    refine R.bind (R.leads_times_leave ps.length hb.sound) fun p₃ _ hleave => ?_
    have hchildren := (hps.1.andThen hb).andThen hleave
    rw [Bool.or_false] at hchildren
    exact R.leads_offer hchildren (.lambda hps.2 trivial)
  | .letIn x e t b, Γ, p, hK, hp => by
    simp only [nodes, List.forall_mem_cons, List.forall_mem_append] at hK
    rw [visit]
    refine R.bind (leads_visit e Γ hK.2.1 hp) fun p₁ e' he => ?_
    refine R.bind (leads_visit t Γ hK.2.2.1 he.sound) fun p₂ t' ht => ?_
    refine R.bind (R.leads_enter ht.sound _) fun p₃ _ henter => ?_
    refine R.bind (leads_visit b (⟨x, some t⟩ :: Γ) hK.2.2.2 henter.sound) fun p₄ b' hb => ?_
    refine R.bind (R.leads_leave hb.sound) fun p₅ _ hleave => ?_
    have hchildren := (((he.andThen ht).andThen henter).andThen hb).andThen hleave
    rw [Bool.or_false, Bool.or_false] at hchildren
    exact R.leads_offer hchildren (.letIn trivial trivial trivial)
  | .apply f ⟨a, as⟩, Γ, p, hK, hp => by
    simp only [nodes, List.forall_mem_cons, List.forall_mem_append] at hK
    rw [visit]
    refine R.bind (leads_visit f Γ hK.2.1 hp) fun p₁ f' hf => ?_
    refine R.bind (leads_visit a Γ hK.2.2.1 hf.sound) fun p₂ a' ha => ?_
    refine R.bind (leads_visitTerms as Γ hK.2.2.2 ha.sound) fun p₃ as' has => ?_
    exact R.leads_offer ((hf.andThen ha).andThen has.1) (.apply trivial (.cons trivial has.2))
  | .cast t c ty, Γ, p, hK, hp => by
    simp only [nodes, List.forall_mem_cons, List.forall_mem_append] at hK
    rw [visit]
    refine R.bind (leads_visit t Γ hK.2.1 hp) fun p₁ t' ht => ?_
    refine R.bind (leads_visit ty Γ hK.2.2 ht.sound) fun p₂ ty' hty => ?_
    exact R.leads_offer (ht.andThen hty) (.cast trivial trivial)
  | .caseOf m s bs, Γ, p, hK, hp => by
    simp only [nodes, List.forall_mem_cons, List.forall_mem_append] at hK
    rw [visit]
    refine R.bind (leads_visit s Γ hK.2.2.1 hp) fun p₁ s' hs => ?_
    refine R.bind (R.leads_enter hs.sound plainBinder) fun p₂ _ henter => ?_
    refine R.bind (leads_visit m (plainBinder :: Γ) hK.2.1 henter.sound) fun p₃ m' hm => ?_
    refine R.bind (R.leads_leave hm.sound) fun p₄ _ hleave => ?_
    refine R.bind (leads_visitBranches bs Γ hK.2.2.2 hleave.sound) fun p₅ bs' hbs => ?_
    have hchildren := (((hs.andThen henter).andThen hm).andThen hleave).andThen hbs.1
    rw [Bool.or_false, Bool.or_false] at hchildren
    exact R.leads_offer hchildren (.caseOf trivial trivial hbs.2)
  | .fix i ⟨l, fs⟩, Γ, p, hK, hp => by
    have hlength : (entering (fs.map functionBinder) Γ).length = Γ.length + fs.length := by
      rw [length_entering, List.length_map]
    simp only [nodes, List.forall_mem_cons] at hK
    rw [← hlength] at hK
    rw [visit]
    have hfunctions : R.Leads p (do
          enterFunctions R.visitor fs
          let fs' ← visitFunctions R.visitor R.policy fs (Γ.length + fs.length)
          times fs.length R.visitor.leave
          Pure.pure fs') fun p' fs' =>
        Follows K ((Leg.enter (fs.map functionBinder))
          |>.andThen (itineraryOfFunctions R.remembers fs (entering (fs.map functionBinder) Γ))
          |>.andThen (.leave fs.length)) p fs'.isSome p' ∧
            Bundle.LaidOut ⟨l, fs⟩ Γ.length (fs'.getD fs) := by
      refine R.bind (R.leads_enterFunctions fs hp) fun p₁ _ henter => ?_
      rw [← hlength]
      refine R.bind (leads_visitFunctions fs _ hK.2 henter.sound) fun p₂ fs' hfs => ?_
      refine R.bind (R.leads_times_leave fs.length hfs.1.sound) fun p₃ _ hleave => R.pure ?_
      have hchildren := (henter.andThen hfs.1).andThen hleave
      rw [Bool.or_false, Bool.false_or] at hchildren
      rw [hlength] at hfs
      exact ⟨hchildren, hfs.2⟩
    refine R.bind (R.leads_bundle (hK.1 i _ rfl) hp hfunctions) fun p₁ b' hb => ?_
    exact R.leads_offer hb.1 (.fix hb.2)
termination_by structural t => t

theorem leads_visitParams : ∀ (ps : List (Param Term)) (Γ : List Binder) {p : Progress},
    (∀ u ∈ nodesOfParams ps Γ.length, K.KnownNode u.1) → p.Sound K →
      R.Leads p (visitParams R.visitor R.policy ps Γ.length) fun p' r =>
        Follows K (itineraryOfParams R.remembers ps Γ) p r.isSome p' ∧
          RebuiltParams anything ps Γ.length (r.getD ps)
  | [], Γ, _, _, hp => R.pure ⟨.stay hp, .nil⟩
  | ⟨x, t⟩ :: ps, Γ, p, hK, hp => by
    simp only [nodesOfParams, List.forall_mem_append] at hK
    rw [visitParams]
    refine R.bind (leads_visit t Γ hK.1 hp) fun p₁ t' ht => ?_
    refine R.bind (R.leads_enter ht.sound _) fun p₂ _ henter => ?_
    refine R.bind (leads_visitParams ps (⟨x, some t⟩ :: Γ) hK.2 henter.sound) fun p₃ ps' hps => ?_
    have hchildren := (ht.andThen henter).andThen hps.1
    refine R.pure ⟨?_, ?_⟩
    · rw [isSome_replaceCons, Option.isSome_map]
      rwa [Bool.or_false] at hchildren
    · rw [getD_replaceCons, getD_map_param]
      exact .cons trivial hps.2
termination_by structural ps => ps

theorem leads_visitTerms : ∀ (ts : List Term) (Γ : List Binder) {p : Progress},
    (∀ u ∈ nodesOfTerms ts Γ.length, K.KnownNode u.1) → p.Sound K →
      R.Leads p (visitTerms R.visitor R.policy ts Γ.length) fun p' r =>
        Follows K (itineraryOfTerms R.remembers ts Γ) p r.isSome p' ∧
          List.Forall₂ (anything · Γ.length ·) ts (r.getD ts)
  | [], Γ, _, _, hp => R.pure ⟨.stay hp, .nil⟩
  | t :: ts, Γ, p, hK, hp => by
    simp only [nodesOfTerms, List.forall_mem_append] at hK
    rw [visitTerms]
    refine R.bind (leads_visit t Γ hK.1 hp) fun p₁ t' ht => ?_
    refine R.bind (leads_visitTerms ts Γ hK.2 ht.sound) fun p₂ ts' hts => R.pure ⟨?_, ?_⟩
    · rw [isSome_replaceCons]
      exact ht.andThen hts.1
    · rw [getD_replaceCons]
      exact .cons trivial hts.2
termination_by structural ts => ts

theorem leads_visitBranches : ∀ (bs : List (Branch Term)) (Γ : List Binder) {p : Progress},
    (∀ u ∈ nodesOfBranches bs Γ.length, K.KnownNode u.1) → p.Sound K →
      R.Leads p (visitBranches R.visitor R.policy bs Γ.length) fun p' r =>
        Follows K (itineraryOfBranches R.remembers bs Γ) p r.isSome p' ∧
          List.Forall₂ (RebuiltBranch anything Γ.length) bs (r.getD bs)
  | [], Γ, _, _, hp => R.pure ⟨.stay hp, .nil⟩
  | ⟨x, n, t⟩ :: bs, Γ, p, hK, hp => by
    have hlength : (entering (List.replicate n plainBinder) Γ).length = Γ.length + n := by
      rw [length_entering, List.length_replicate]
    simp only [nodesOfBranches, List.forall_mem_append] at hK
    rw [← hlength] at hK
    rw [visitBranches, ← hlength]
    refine R.bind (R.leads_times_enter n plainBinder hp) fun p₁ _ henter => ?_
    refine R.bind (leads_visit t _ hK.1 henter.sound) fun p₂ t' ht => ?_
    refine R.bind (R.leads_times_leave n ht.sound) fun p₃ _ hleave => ?_
    refine R.bind (leads_visitBranches bs Γ hK.2 hleave.sound) fun p₄ bs' hbs => ?_
    have hchildren := ((henter.andThen ht).andThen hleave).andThen hbs.1
    refine R.pure ⟨?_, ?_⟩
    · rw [isSome_replaceCons, Option.isSome_map]
      rwa [Bool.or_false, Bool.false_or] at hchildren
    · rw [getD_replaceCons, getD_map_branch]
      exact .cons ⟨rfl, rfl, trivial⟩ hbs.2
termination_by structural bs => bs

theorem leads_visitFunctions : ∀ (fs : List (FixFunction Term)) (Γ : List Binder) {p : Progress},
    (∀ u ∈ nodesOfFunctions fs Γ.length, K.KnownNode u.1) → p.Sound K →
      R.Leads p (visitFunctions R.visitor R.policy fs Γ.length) fun p' r =>
        Follows K (itineraryOfFunctions R.remembers fs Γ) p r.isSome p' ∧
          List.Forall₂ (RebuiltFunction anything · Γ.length ·) fs (r.getD fs)
  | [], Γ, _, _, hp => R.pure ⟨.stay hp, .nil⟩
  | ⟨x, ps, r, b⟩ :: fs, Γ, p, hK, hp => by
    simp only [nodesOfFunctions, List.forall_mem_append] at hK
    rw [← length_enteringParams] at hK
    rw [visitFunctions, ← length_enteringParams ps Γ]
    refine R.bind (leads_visitParams ps Γ hK.1.1 hp) fun p₁ ps' hps => ?_
    refine R.bind (leads_visit r _ hK.1.2.1 hps.1.sound) fun p₂ r' hr => ?_
    refine R.bind (leads_visit b _ hK.1.2.2 hr.sound) fun p₃ b' hb => ?_
    refine R.bind (R.leads_times_leave ps.length hb.sound) fun p₄ _ hleave => ?_
    refine R.bind (leads_visitFunctions fs Γ hK.2 hleave.sound) fun p₅ fs' hfs => ?_
    have hchildren := (((hps.1.andThen hr).andThen hb).andThen hleave).andThen hfs.1
    refine R.pure ⟨?_, ?_⟩
    · rw [isSome_replaceCons, isSome_replaceFunction]
      rwa [Bool.or_false] at hchildren
    · rw [getD_replaceCons, getD_replaceFunction]
      exact .cons ⟨rfl, hps.2, trivial, trivial⟩ hfs.2
termination_by structural fs => fs
end

end Recorder

/-- Events that start under the binders `Γ` and end under `Δ`: what is left is open, and a node is
offered with the number of binders that are open. -/
inductive TraversalEvent.Balanced : List Binder → List TraversalEvent → List Binder → Prop
  | nil {Γ : List Binder} : Balanced Γ [] Γ
  | entered {b : Binder} {Γ Δ : List Binder} {events : List TraversalEvent} :
      Balanced (b :: Γ) events Δ → Balanced Γ (.entered b :: events) Δ
  | left {b : Binder} {Γ Δ : List Binder} {events : List TraversalEvent} :
      Balanced Γ events Δ → Balanced (b :: Γ) (.left :: events) Δ
  | offered {u : Term} {r : Option Term} {Γ Δ : List Binder} {events : List TraversalEvent} :
      Balanced Γ events Δ → Balanced Γ (.offered u Γ.length r :: events) Δ

theorem Stop.Opens.balanced {Γ Δ : List Binder} {stops : List Stop} {events : List TraversalEvent}
    (h : Stop.Opens Γ stops Δ) (hnoted : List.Forall₂ Stop.Noted stops events) :
    TraversalEvent.Balanced Γ events Δ := by
  induction h generalizing events with
  | nil =>
    cases hnoted
    exact .nil
  | enter _ ih =>
    obtain - | ⟨he, hevents⟩ := hnoted
    cases he
    exact .entered (ih hevents)
  | leave _ ih =>
    obtain - | ⟨he, hevents⟩ := hnoted
    cases he
    exact .left (ih hevents)
  | offer _ ih =>
    obtain - | ⟨he, hevents⟩ := hnoted
    cases he
    exact .offered (ih hevents)

section Runs
variable {σ : Type}

/-- What a recorded traversal gives from a state of the visitor, with labels from `first` on. -/
def Term.record (v : Visitor (StateT σ Labelling)) (t : Term) (s : σ) (first : Nat) :
    Option Term × List TraversalEvent := ((t.recordM v).run' s).run first

theorem Follows.from_start {K : Bundles} {t : Term} {remembers : Bool} {p : Progress}
    {r : Option Term} (h : Follows K (t.itinerary remembers []) ⟨[], []⟩ r.isSome p) :
    List.Forall₂ Stop.Noted (t.stops remembers) p.events.reverse ∧
      (r.isSome ↔ ∃ e ∈ p.events.reverse, e.replaces) := by
  obtain ⟨events, hevents, hnoted⟩ := h.noted
  have hreplaced := h.replaced
  have hnone : ¬Progress.Replaced ⟨[], []⟩ := nofun
  rw [or_iff_right hnone] at hreplaced
  rw [List.append_nil] at hevents
  refine ⟨by rw [hevents, List.reverse_reverse]; exact hnoted, ?_⟩
  rw [← hreplaced]
  simp only [Progress.Replaced, List.mem_reverse]

/-- A traversal from the start follows the way through the term, and the term changes just when the
visitor replaces a node. -/
theorem follows_record (v : Visitor (StateT σ Labelling)) {t : Term} (h : t.Coherent) (s : σ)
    (first : Nat) :
    List.Forall₂ Stop.Noted (t.stops v.depthOnly) (t.record v s first).2 ∧
      ((t.record v s first).1.isSome ↔ ∃ e ∈ (t.record v s first).2, e.replaces) := by
  have hsound : Progress.Sound (Bundles.ofTerm h) ⟨[], []⟩ := ⟨nofun, nofun⟩
  cases hdepth : v.depthOnly with
  | true =>
    have hrecord : t.record v s first =
        let out := runRecorded ((visit v.recorded.lift memoized t 0).run []) [] s first
        (out.1.1.1, out.1.2.reverse) := by
      rw [record, recordM, rewrite?, if_pos]
      · rfl
      · exact hdepth
    rw [hrecord]
    exact ((Recorder.memoizing v).leads_visit t [] (Bundles.knownNode_ofTerm h) hsound s
      first).from_start
  | false =>
    have hrecord : t.record v s first =
        let out := runRecorded (visit v.recorded unshared t 0) [] s first
        (out.1.1, out.1.2.reverse) := by
      rw [record, recordM, rewrite?, if_neg]
      · rfl
      · rw [Visitor.recorded, hdepth, Bool.and_false]
        exact Bool.false_ne_true
    rw [hrecord]
    exact ((Recorder.plain v).leads_visit t [] (Bundles.knownNode_ofTerm h) hsound s
      first).from_start

/-- What is observed of a traversal that goes through `stops`, gives `r` and has the events listed.
Every binder that is entered is left. A node is offered in its own layout, after its children, and
with the number of binders that are open, which are the ones around it in the term. The term stays
as it is just when all nodes were declined. -/
structure Term.Traversed (t : Term) (stops : List Stop) (r : Option Term)
    (events : List TraversalEvent) : Prop where
  noted : List.Forall₂ Stop.Noted stops events
  opens : Stop.Opens [] stops []
  occurs : ∀ n Γ, .offer n Γ ∈ stops → Term.Occurs t [] n Γ
  childrenFirst : Stop.ChildrenFirst [] stops
  balanced : TraversalEvent.Balanced [] events []
  unchanged : r = none ↔ ∀ u d reply, .offered u d reply ∈ events → reply = none

/-- Whatever the visitor does, a traversal goes the way through the term. A bundle that was met
before at the same depth is passed over if the visitor looks at nodes and depths alone. -/
theorem traversed_record (v : Visitor (StateT σ Labelling)) {t : Term} (h : t.Coherent) (s : σ)
    (first : Nat) :
    t.Traversed (t.stops v.depthOnly) (t.record v s first).1 (t.record v s first).2 := by
  obtain ⟨hnoted, hchanged⟩ := follows_record v h s first
  have horderly : Leg.Orderly (Bundles.ofTerm h) [] [(t, [])] [] (t.itinerary v.depthOnly []) :=
    orderly_itinerary t [] (Bundles.knownNode_ofTerm h)
  have hreached : Leg.Reached (Bundles.ofTerm h) [] [] := nofun
  have hopens := horderly.opens []
  refine ⟨hnoted, hopens, fun n Γ hn => ?_, horderly.childrenFirst hreached,
    hopens.balanced hnoted, ?_⟩
  · obtain ⟨c, hc, hoccurs⟩ := horderly.within hn
    rwa [List.mem_singleton.1 hc] at hoccurs
  · rw [← Option.not_isSome_iff_eq_none, hchanged]
    refine ⟨fun hnever u d reply hmem => ?_, fun hdeclined ⟨e, hmem, he⟩ => ?_⟩
    · exact Option.not_isSome_iff_eq_none.1 fun hr => hnever ⟨_, hmem, hr⟩
    · cases e with
      | offered u d reply => rw [hdeclined u d reply hmem] at he; cases he
      | _ => cases he

/-- `fix f (n : nat) : nat := n`. -/
def labelledIdentity : Bundle Term :=
  ⟨some 7, [⟨"f", [⟨some "n", .global "nat"⟩], .global "nat", .var "n" 0⟩]⟩

/-- One bundle, selected from twice at one depth and once below a parameter. -/
def selectedThrice : Term :=
  .lambda [⟨some "g", .applyTo (.fix 0 labelledIdentity) [.fix 0 labelledIdentity]⟩]
    (.fix 0 labelledIdentity)

/-- Puts a constant for every variable. -/
def closing : Visitor (StateT Unit Labelling) :=
  .replacing true fun t => t.asVar?.map fun _ => .global "zero"

theorem traversed_record_selectedThrice : selectedThrice.Coherent ∧
    selectedThrice.Traversed (selectedThrice.stops closing.depthOnly)
      (selectedThrice.record closing () 8).1 (selectedThrice.record closing () 8).2 := by
  have hcoherent : selectedThrice.Coherent := by
    have hselections : selectedThrice.selections 0 =
        [(labelledIdentity, 0), (labelledIdentity, 0), (labelledIdentity, 1)] := rfl
    intro s hs s' hs' _ _ _
    rw [hselections] at hs hs'
    simp only [List.mem_cons, List.not_mem_nil, or_false] at hs hs'
    rcases hs with rfl | rfl | rfl <;> rcases hs' with rfl | rfl | rfl <;> rfl
  exact ⟨hcoherent, traversed_record closing hcoherent () 8⟩

/-- The second selection at depth 0 is offered without another visit to its bundle. -/
example : ((selectedThrice.stops true).filterMap Stop.offered?).map (fun n => (n.1.kind, n.2)) =
    [(.global, 1), (.global, 2), (.var, 2), (.fix, 0), (.fix, 0), (.apply, 0),
      (.global, 2), (.global, 3), (.var, 3), (.fix, 1), (.lambda, 0)] := rfl

end Runs

end InductiveTerms
