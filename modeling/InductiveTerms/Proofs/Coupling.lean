import InductiveTerms.Proofs.Nodes
import InductiveTerms.Proofs.Traversal

/-!
A traversal that rewrites every bundle it meets beside one that remembers what became of a bundle. A
`Coupling` compares a computation with another step by step; a `Comparison` puts a visitor in each
of the two and says what is to hold of what they leave of a term. Where single nodes keep to it, so
do whole traversals (`runs_visit`): what is remembered is what the plain traversal would find again.
-/
namespace InductiveTerms
open Traversal Term

/-- A way to run two computations side by side. A world is what both have gone through so far. -/
structure Coupling (n m : Type → Type) [Monad n] [Monad m] where
  World : Type
  Later : World → World → Prop
  /-- Run from a world, both come to values that are related in the world in which they end. -/
  Holds {α β : Type} : World → (World → α → β → Prop) → n α → m β → Prop
  /-- From a world on, the computation on the left only ever gives this value. -/
  Settled {α : Type} : World → n α → α → Prop
  later_refl (w : World) : Later w w
  later_trans {w w' w'' : World} : Later w w' → Later w' w'' → Later w w''
  pure {α β : Type} {w : World} {R : World → α → β → Prop} {a : α} {b : β} :
    R w a b → Holds w R (pure a) (pure b)
  bind {α β γ δ : Type} {w : World} {R : World → α → β → Prop} {S : World → γ → δ → Prop} {x : n α}
    {y : m β} {f : α → n γ} {g : β → m δ} :
    Holds w R x y → (∀ w' a b, Later w w' → R w' a b → Holds w' S (f a) (g b)) →
      Holds w S (x >>= f) (y >>= g)
  settled_later {α : Type} {w w' : World} {x : n α} {a : α} :
    Later w w' → Settled w x a → Settled w' x a
  /-- What is settled need not be run on the right. -/
  replay {α β : Type} {w : World} {R : World → α → β → Prop} {x : n α} {a : α} {b : β} :
    Settled w x a → R w a b → Holds w R x (Pure.pure b)

namespace Coupling
variable {n m : Type → Type} [Monad n] [Monad m] {α β : Type}

/-- After one run the computation on the left is settled. -/
def Settles (C : Coupling n m) (x : n α) : Prop :=
  ∀ {β : Type} (w : C.World) (R : C.World → α → β → Prop) (y : m β), C.Holds w R x y →
    C.Holds w (fun w' a b => C.Settled w' x a ∧ R w' a b) x y

theorem Holds.imp [LawfulMonad n] [LawfulMonad m] {C : Coupling n m} {w : C.World}
    {R S : C.World → α → β → Prop} {x : n α} {y : m β} (h : C.Holds w R x y)
    (himp : ∀ w' a b, C.Later w w' → R w' a b → S w' a b) : C.Holds w S x y := by
  have hbind := C.bind h fun w' a b hw hR => C.pure (himp w' a b hw hR)
  rwa [bind_pure, bind_pure] at hbind

end Coupling

/-- Cached results are still there. -/
def Extends (s s' : Cache) : Prop := ∀ k r, s.lookup k = some r → s'.lookup k = some r

/-- Besides, no bundle was met at a lesser depth. -/
def Frame (d : Nat) (s s' : Cache) : Prop :=
  ∀ k : Nat × Nat, k.2 < d ∨ (s.lookup k).isSome → s'.lookup k = s.lookup k

section Frame
variable {d e : Nat} {s s' s'' : Cache}

theorem Frame.refl (d : Nat) (s : Cache) : Frame d s s := fun _ _ => rfl

theorem Frame.trans (h : Frame d s s') (h' : Frame d s' s'') : Frame d s s'' := by
  intro k hk
  have heq := h k hk
  rw [h' k (by rwa [heq]), heq]

theorem Frame.deepen (h : Frame e s s') (hde : d ≤ e) : Frame d s s' := by
  intro k hk
  exact h k (hk.imp_left fun hlt => by omega)

theorem Frame.extends (h : Frame d s s') : Extends s s' := by
  intro k r hk
  rw [h k (.inr (by rw [hk]; rfl)), hk]

theorem lookup_cons_of_ne {k j : Nat × Nat} (h : j ≠ k) (r : Option (Bundle Term)) (s : Cache) :
    List.lookup j ((k, r) :: s) = s.lookup j := by
  rw [List.lookup_cons, beq_false_of_ne h]

/-- A result may be added where none is. -/
theorem Extends.cons {k : Nat × Nat} (hk : s.lookup k = none) (r : Option (Bundle Term)) :
    Extends s ((k, r) :: s) := by
  intro j r' hj
  have hne : j ≠ k := by
    intro h
    rw [h, hk] at hj
    cases hj
  rw [lookup_cons_of_ne hne, hj]

theorem Frame.cons {k : Nat × Nat} (h : Frame d s s') (hdk : d ≤ k.2) (hk : s.lookup k = none)
    (r : Option (Bundle Term)) : Frame d s ((k, r) :: s') := by
  intro j hj
  have hne : j ≠ k := by
    rintro rfl
    rcases hj with hlt | hsome
    · omega
    · rw [hk] at hsome
      cases hsome
  rw [lookup_cons_of_ne hne, h j hj]

end Frame

/-- What the plain visitor and the memoizing one do to a node, and what is to hold of the terms they
leave: how the two are alike, and how what the memoizing one leaves goes with the term visited. -/
structure Comparison (n m : Type → Type) [Monad n] [Monad m] where
  coupling : Coupling n m
  plain : Term → Nat → n (Option Term)
  memoizing : Term → Nat → m (Option Term)
  /-- The bundles that may be met. -/
  Known : Bundle Term → Prop
  /-- The labels that a new bundle may have. -/
  Fresh : Option Nat → Prop
  Alike : Term → Term → Prop
  Kept : Cache → Term → Nat → Term → Prop

/-- Two results for `a`: neither changes it or both do, and what they leave is related. -/
structure Outcome {τ : Type} (B : τ → τ → Prop) (A : τ → Prop) (a : τ) (r r' : Option τ) :
    Prop where
  verdict : r.isSome = r'.isSome
  alike : B (r.getD a) (r'.getD a)
  kept : A (r'.getD a)

namespace Outcome
variable {τ υ : Type} {B : τ → τ → Prop} {A A' : τ → Prop} {a : τ} {r r' : Option τ}

theorem unchanged (h : Outcome B A a r r') (hr : r'.isSome = false) :
    r.getD a = a ∧ r'.getD a = a := by
  have hnone : r = none := by simpa using h.verdict.trans hr
  have hnone' : r' = none := by simpa using hr
  rw [hnone, hnone']
  exact ⟨rfl, rfl⟩

theorem imp (h : Outcome B A a r r') (hA : A (r'.getD a) → A' (r'.getD a)) : Outcome B A' a r r' :=
  ⟨h.verdict, h.alike, hA h.kept⟩

theorem map (h : Outcome B A a r r') (f : τ → υ) :
    Outcome (fun p q => ∃ x y, B x y ∧ p = f x ∧ q = f y) (fun q => ∃ y, A y ∧ q = f y) (f a)
      (r.map f) (r'.map f) := by
  refine ⟨?_, ⟨_, _, h.alike, ?_, ?_⟩, _, h.kept, ?_⟩
  · rw [Option.isSome_map, Option.isSome_map, h.verdict]
  · exact Option.getD_map ..
  · exact Option.getD_map ..
  · exact Option.getD_map ..

theorem cons {as : List τ} {rs rs' : Option (List τ)} {Bs Bl : List τ → List τ → Prop}
    {As Al : List τ → Prop} (h : Outcome B A a r r') (hs : Outcome Bs As as rs rs')
    (hB : ∀ x y xs ys, B x y → Bs xs ys → Bl (x :: xs) (y :: ys))
    (hA : ∀ y ys, A y → As ys → Al (y :: ys)) :
    Outcome Bl Al (a :: as) (replaceCons a as r rs) (replaceCons a as r' rs') := by
  refine ⟨?_, ?_, ?_⟩
  · rw [isSome_replaceCons, isSome_replaceCons, h.verdict, hs.verdict]
  · rw [getD_replaceCons, getD_replaceCons]
    exact hB _ _ _ _ h.alike hs.alike
  · rw [getD_replaceCons]
    exact hA _ _ h.kept hs.kept

end Outcome

namespace Comparison
variable {n m : Type → Type} [Monad n] [Monad m] [BundleLabels n] (P : Comparison n m)

/-- What the plain traversal makes of the functions of a bundle. -/
def functions (b : Bundle Term) (d : Nat) : n (Option (List (FixFunction Term))) :=
  visitFunctions (Visitor.ofReply P.plain) unshared b.functions (d + b.size)

/-- Where a node selects from a bundle, the bundle is known. -/
def KnownNode (t : Term) : Prop := ∀ s ∈ t.asFix?, P.Known s.2

abbrev AlikeFunctions (d : Nat) (fs gs : List (FixFunction Term)) : Prop :=
  List.Forall₂ (RebuiltFunction (fun c _ w => P.Alike c w) · d ·) fs gs

abbrev KeptFunctions (s : Cache) (fs : List (FixFunction Term)) (d : Nat)
    (gs : List (FixFunction Term)) : Prop :=
  List.Forall₂ (RebuiltFunction (P.Kept s) · d ·) fs gs

/-- The bundle `b`, met at depth `d`, became `r`, and the plain traversal makes `fs` of its
functions. -/
structure Became (w : P.coupling.World) (s : Cache) (b : Bundle Term) (d : Nat)
    (fs : Option (List (FixFunction Term))) (r : Option (Bundle Term)) : Prop where
  settled : P.coupling.Settled w (P.functions b d) fs
  verdict : fs.isSome = r.isSome
  label : ∀ c ∈ r, P.Fresh c.label
  alike : P.AlikeFunctions (d + b.size) (fs.getD b.functions) (r.getD b).functions
  kept : P.KeptFunctions s b.functions (d + b.size) (r.getD b).functions

/-- What is remembered is what became of the bundles met. -/
def Good (w : P.coupling.World) (s : Cache) : Prop :=
  ∀ l d r, s.lookup (l, d) = some r → ∀ b, P.Known b → b.label = some l →
    ∃ fs, P.Became w s b d fs r

/-- The bundle that the plain traversal puts for one with new functions has no label. -/
def unlabelled (b : Bundle Term) (fs : Option (List (FixFunction Term))) : Bundle Term :=
  (fs.map fun fs => ⟨none, fs⟩).getD b

variable [BundleLabels m]

/-- What has to be shown of single nodes. -/
structure Admissible : Prop where
  known_unique {b c : Bundle Term} {l : Nat} :
    P.Known b → P.Known c → b.label = some l → c.label = some l → b = c
  fresh_plain : (BundleLabels.fresh : n (Option Nat)) = pure none
  fresh_memoizing (w : P.coupling.World) :
    P.coupling.Holds w (fun _ _ l => P.Fresh l) (pure ()) (BundleLabels.fresh : m (Option Nat))
  settles {b : Bundle Term} (d : Nat) : P.Known b → P.coupling.Settles (P.functions b d)
  kept_extends {s s' : Cache} {t u : Term} {d : Nat} :
    Extends s s' → P.Kept s t d u → P.Kept s' t d u
  node {s : Cache} {t u v : Term} {d : Nat} : t.asFix? = none →
    Rebuilt (fun c _ w => P.Alike c w) u d v → Rebuilt (P.Kept s) t d v →
      P.Alike u v ∧ P.Kept s t d v
  fix {w : P.coupling.World} {s : Cache} {i d : Nat} {b : Bundle Term}
    {fs : Option (List (FixFunction Term))} {r : Option (Bundle Term)} :
    P.Became w s b d fs r → (∀ l, b.label = some l → s.lookup (l, d) = some r) →
      P.Alike (.fix i (unlabelled b fs)) (.fix i (r.getD b)) ∧
        P.Kept s (.fix i b) d (.fix i (r.getD b))
  reply {w : P.coupling.World} {s : Cache} {t u v : Term} {d : Nat} : v.asVar? = t.asVar? →
    P.Alike u v → P.Kept s t d v →
      P.coupling.Holds w (fun _ o o' => o.isSome = o'.isSome ∧ P.Alike (o.getD u) (o'.getD v) ∧
        P.Kept s t d (o'.getD v)) (P.plain u d) (P.memoizing v d)

end Comparison
end InductiveTerms
