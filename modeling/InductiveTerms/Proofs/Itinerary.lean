import InductiveTerms.Proofs.Sharing
import InductiveTerms.Term.Record

/-!
The way a traversal takes through a term, told without the visitor. An itinerary lists the binders
that are entered and left and the nodes that are offered, in order, each node with the binders
around it. Where bundles are remembered, one that was met before at the same depth is passed over.

Everything entered is left again, nodes are offered under the binders that are open at that moment,
and every node is offered after its children (`orderly_itinerary`).
-/
namespace InductiveTerms

/-- A stop on the way through a term. -/
inductive Stop where
  | enter (binder : Binder)
  | leave
  /-- A node as it is in the term, with the binders around it, innermost first. -/
  | offer (node : Term) (enclosing : List Binder)

/-- A part of the way: from the bundles that were met before, each with its label and its depth, the
stops and the bundles that have been met afterwards. -/
abbrev Leg : Type := List (Nat × Nat) → List Stop × List (Nat × Nat)

/-- The binders that are open when some more have been entered, the first one first. -/
def entering (bs Γ : List Binder) : List Binder := bs.reverse ++ Γ

theorem entering_cons (b : Binder) (bs Γ : List Binder) :
    entering (b :: bs) Γ = entering bs (b :: Γ) := by
  rw [entering, List.reverse_cons, List.append_assoc, List.singleton_append, entering]

theorem length_entering (bs Γ : List Binder) :
    (entering bs Γ).length = Γ.length + bs.length := by
  rw [entering, List.length_append, List.length_reverse, Nat.add_comm]

namespace Leg

def of (stops : List Stop) : Leg := fun met => (stops, met)

def enter (bs : List Binder) : Leg := of (bs.map .enter)

def leave (n : Nat) : Leg := of (List.replicate n .leave)

def offer (t : Term) (Γ : List Binder) : Leg := of [.offer t Γ]

def andThen (a b : Leg) : Leg := fun met =>
  ((a met).1 ++ (b (a met).2).1, (b (a met).2).2)

/-- The part of the way through a bundle that is met at a depth. Where bundles are remembered, one
that has been met there is passed over. -/
def bundle (remembers : Bool) (label : Option Nat) (depth : Nat) (a : Leg) : Leg := fun met =>
  match remembers, label with
  | true, some l => if (l, depth) ∈ met then ([], met) else ((a met).1, (l, depth) :: (a met).2)
  | _, _ => a met

end Leg

def paramBinder (p : Param Term) : Binder := ⟨p.name, some p.type⟩

def functionBinder (f : FixFunction Term) : Binder := ⟨some f.name, none⟩

/-- The binder of a scrutinee or of a constructor field. -/
def plainBinder : Binder := ⟨none, none⟩

/-- The types of parameters; each stands under the parameters before it. -/
def paramTypesUnder : List (Param Term) → List Binder → List (Term × List Binder)
  | [], _ => []
  | p :: ps, Γ => (p.type, Γ) :: paramTypesUnder ps (paramBinder p :: Γ)

/-- The children of a node under the binders `Γ`, each with the binders around it, in the order in
which they are visited. -/
def Term.childrenUnder : Term → List Binder → List (Term × List Binder)
  | .var .., _ => []
  | .global _, _ => []
  | .univ _, _ => []
  | .product ps r, Γ => paramTypesUnder ps Γ ++ [(r, entering (ps.map paramBinder) Γ)]
  | .lambda ps b, Γ => paramTypesUnder ps Γ ++ [(b, entering (ps.map paramBinder) Γ)]
  | .letIn x v t b, Γ => [(v, Γ), (t, Γ), (b, ⟨x, some t⟩ :: Γ)]
  | .apply f as, Γ => (f, Γ) :: as.toList.map (·, Γ)
  | .cast t _ ty, Γ => [(t, Γ), (ty, Γ)]
  | .caseOf p s bs, Γ => (s, Γ) :: (p, plainBinder :: Γ) ::
      bs.map fun b => (b.body, entering (List.replicate b.arity plainBinder) Γ)
  | .fix _ b, Γ =>
      let inner := entering (b.functions.map functionBinder) Γ
      b.functions.flatMap fun f => paramTypesUnder f.params inner ++
        [(f.result, entering (f.params.map paramBinder) inner),
          (f.body, entering (f.params.map paramBinder) inner)]

/-- A node of a term under the binders `Γ`, with all the binders around the node. -/
inductive Term.Occurs : Term → List Binder → Term → List Binder → Prop
  | self {t : Term} {Γ : List Binder} : Occurs t Γ t Γ
  | inner {t n : Term} {Γ Δ : List Binder} {c : Term × List Binder} :
      c ∈ t.childrenUnder Γ → Occurs c.1 c.2 n Δ → Occurs t Γ n Δ

mutual
/-- The way through a term that stands under the binders `Γ`. -/
def Term.itinerary (remembers : Bool) : Term → List Binder → Leg
  | .var x i, Γ => .offer (.var x i) Γ
  | .global x, Γ => .offer (.global x) Γ
  | .univ u, Γ => .offer (.univ u) Γ
  | .product ps r, Γ =>
      (itineraryOfParams remembers ps Γ)
        |>.andThen (r.itinerary remembers (entering (ps.map paramBinder) Γ))
        |>.andThen (.leave ps.length)
        |>.andThen (.offer (.product ps r) Γ)
  | .lambda ps b, Γ =>
      (itineraryOfParams remembers ps Γ)
        |>.andThen (b.itinerary remembers (entering (ps.map paramBinder) Γ))
        |>.andThen (.leave ps.length)
        |>.andThen (.offer (.lambda ps b) Γ)
  | .letIn x v t b, Γ =>
      (v.itinerary remembers Γ)
        |>.andThen (t.itinerary remembers Γ)
        |>.andThen (.enter [⟨x, some t⟩])
        |>.andThen (b.itinerary remembers (⟨x, some t⟩ :: Γ))
        |>.andThen (.leave 1)
        |>.andThen (.offer (.letIn x v t b) Γ)
  | .apply f ⟨a, as⟩, Γ =>
      (f.itinerary remembers Γ)
        |>.andThen (a.itinerary remembers Γ)
        |>.andThen (itineraryOfTerms remembers as Γ)
        |>.andThen (.offer (.apply f ⟨a, as⟩) Γ)
  | .cast t k ty, Γ =>
      (t.itinerary remembers Γ)
        |>.andThen (ty.itinerary remembers Γ)
        |>.andThen (.offer (.cast t k ty) Γ)
  | .caseOf p s bs, Γ =>
      (s.itinerary remembers Γ)
        |>.andThen (.enter [plainBinder])
        |>.andThen (p.itinerary remembers (plainBinder :: Γ))
        |>.andThen (.leave 1)
        |>.andThen (itineraryOfBranches remembers bs Γ)
        |>.andThen (.offer (.caseOf p s bs) Γ)
  | .fix i ⟨l, fs⟩, Γ =>
      (Leg.enter (fs.map functionBinder))
        |>.andThen (itineraryOfFunctions remembers fs (entering (fs.map functionBinder) Γ))
        |>.andThen (.leave fs.length)
        |>.bundle remembers l Γ.length
        |>.andThen (.offer (.fix i ⟨l, fs⟩) Γ)
termination_by structural t => t

/-- Through the types of parameters; each parameter is entered after its type. -/
def itineraryOfParams (remembers : Bool) : List (Param Term) → List Binder → Leg
  | [], _ => .of []
  | ⟨x, t⟩ :: ps, Γ =>
      (t.itinerary remembers Γ)
        |>.andThen (.enter [⟨x, some t⟩])
        |>.andThen (itineraryOfParams remembers ps (⟨x, some t⟩ :: Γ))
termination_by structural ps => ps

def itineraryOfTerms (remembers : Bool) : List Term → List Binder → Leg
  | [], _ => .of []
  | t :: ts, Γ => (t.itinerary remembers Γ).andThen (itineraryOfTerms remembers ts Γ)
termination_by structural ts => ts

def itineraryOfBranches (remembers : Bool) : List (Branch Term) → List Binder → Leg
  | [], _ => .of []
  | ⟨_, n, t⟩ :: bs, Γ =>
      (Leg.enter (List.replicate n plainBinder))
        |>.andThen (t.itinerary remembers (entering (List.replicate n plainBinder) Γ))
        |>.andThen (.leave n)
        |>.andThen (itineraryOfBranches remembers bs Γ)
termination_by structural bs => bs

/-- Through the functions of a bundle, under its own binders. -/
def itineraryOfFunctions (remembers : Bool) : List (FixFunction Term) → List Binder → Leg
  | [], _ => .of []
  | ⟨_, ps, r, b⟩ :: fs, Γ =>
      (itineraryOfParams remembers ps Γ)
        |>.andThen (r.itinerary remembers (entering (ps.map paramBinder) Γ))
        |>.andThen (b.itinerary remembers (entering (ps.map paramBinder) Γ))
        |>.andThen (.leave ps.length)
        |>.andThen (itineraryOfFunctions remembers fs Γ)
termination_by structural fs => fs
end

/-- The stops on the way through a term of its own. -/
def Term.stops (remembers : Bool) (t : Term) : List Stop := (t.itinerary remembers [] []).1

namespace Stop

/-- Stops that start under the binders `Γ` and end under `Δ`: what is left is the innermost binder
that is open, and a node is offered under the binders that are open. -/
inductive Opens : List Binder → List Stop → List Binder → Prop
  | nil {Γ : List Binder} : Opens Γ [] Γ
  | enter {b : Binder} {Γ Δ : List Binder} {stops : List Stop} :
      Opens (b :: Γ) stops Δ → Opens Γ (.enter b :: stops) Δ
  | leave {b : Binder} {Γ Δ : List Binder} {stops : List Stop} :
      Opens Γ stops Δ → Opens (b :: Γ) (.leave :: stops) Δ
  | offer {t : Term} {Γ Δ : List Binder} {stops : List Stop} :
      Opens Γ stops Δ → Opens Γ (.offer t Γ :: stops) Δ

/-- The node offered at a stop, with its depth. -/
def offered? : Stop → Option (Term × Nat)
  | .offer t Γ => some (t, Γ.length)
  | _ => none

/-- Whether every node is offered after its children, each with its depth; some nodes have been
offered before the first stop. -/
def ChildrenFirst (before : List (Term × Nat)) : List Stop → Prop
  | [] => True
  | .enter _ :: stops => ChildrenFirst before stops
  | .leave :: stops => ChildrenFirst before stops
  | .offer t Γ :: stops =>
      (∀ c ∈ t.children Γ.length, c ∈ before) ∧ ChildrenFirst ((t, Γ.length) :: before) stops

section Append
variable {Γ Δ Θ : List Binder} {s s' : List Stop} {before before' : List (Term × Nat)}

theorem Opens.append (h : Opens Γ s Δ) (h' : Opens Δ s' Θ) : Opens Γ (s ++ s') Θ := by
  induction h with
  | nil => exact h'
  | enter _ ih => exact .enter (ih h')
  | leave _ ih => exact .leave (ih h')
  | offer _ ih => exact .offer (ih h')

theorem opens_enter (bs Γ : List Binder) : Opens Γ (bs.map .enter) (entering bs Γ) := by
  induction bs generalizing Γ with
  | nil => exact .nil
  | cons b bs ih =>
    rw [entering_cons]
    exact .enter (ih (b :: Γ))

theorem opens_leave (bs Γ : List Binder) :
    Opens (entering bs Γ) (List.replicate bs.length .leave) Γ := by
  induction bs generalizing Γ with
  | nil => exact .nil
  | cons b bs ih =>
    rw [entering_cons, List.length_cons, List.replicate_succ']
    exact (ih (b :: Γ)).append (.leave .nil)

theorem ChildrenFirst.mono (hsub : before ⊆ before') (h : ChildrenFirst before s) :
    ChildrenFirst before' s := by
  induction s generalizing before before' with
  | nil => trivial
  | cons stop s ih =>
    cases stop with
    | enter b => exact ih hsub h
    | leave => exact ih hsub h
    | offer t Γ => exact ⟨fun c hc => hsub (h.1 c hc), ih (List.cons_subset_cons _ hsub) h.2⟩

theorem ChildrenFirst.append (h : ChildrenFirst before s)
    (h' : ChildrenFirst (s.filterMap offered? ++ before) s') : ChildrenFirst before (s ++ s') := by
  induction s generalizing before with
  | nil => exact h'
  | cons stop s ih =>
    cases stop with
    | enter b => exact ih h h'
    | leave => exact ih h h'
    | offer t Γ =>
      refine ⟨h.1, ih h.2 (h'.mono ?_)⟩
      rw [List.filterMap_cons_some (rfl : offered? (.offer t Γ) = some (t, Γ.length))]
      exact fun _ hc => List.perm_middle.symm.subset hc

end Append
end Stop

/-- Bundles that are told apart by their labels. -/
structure Bundles where
  Known : Bundle Term → Prop
  unique {b c : Bundle Term} {l : Nat} :
    Known b → Known c → b.label = some l → c.label = some l → b = c

/-- The bundle that a node selects from, if it does, is one of them. -/
def Bundles.KnownNode (K : Bundles) (t : Term) : Prop := ∀ i b, t.asFix? = some (i, b) → K.Known b

/-- The bundles that a term selects from. -/
def Bundles.ofTerm {t : Term} (h : t.Coherent) : Bundles where
  Known := t.IsBundle
  unique hb hc hbl hcl := Term.IsBundle.unique h _ _ _ hb hc hbl hcl

theorem Bundles.knownNode_ofTerm {t : Term} (h : t.Coherent) :
    ∀ u ∈ t.nodes 0, (Bundles.ofTerm h).KnownNode u.1 := by
  intro u hu i b hb
  refine ⟨u.2, List.mem_filterMap.2 ⟨u, hu, ?_⟩⟩
  rw [Term.selection?, hb]
  rfl

section ChildrenUnder
open Term

theorem length_enteringParams (ps : List (Param Term)) (Γ : List Binder) :
    (entering (ps.map paramBinder) Γ).length = Γ.length + ps.length := by
  rw [length_entering, List.length_map]

/-- A node with the number of binders around it. -/
def atDepth (c : Term × List Binder) : Term × Nat := (c.1, c.2.length)

theorem map_paramTypesUnder (ps : List (Param Term)) (Γ : List Binder) :
    (paramTypesUnder ps Γ).map atDepth = paramTypes ps Γ.length := by
  induction ps generalizing Γ with
  | nil => rfl
  | cons p ps ih => exact congrArg _ (ih (paramBinder p :: Γ))

theorem mem_childrenUnder_iff {t : Term} {Γ : List Binder} {c : Term × Nat} :
    c ∈ (t.childrenUnder Γ).map atDepth ↔ c ∈ t.children Γ.length := by
  cases t with
  | product ps r =>
    simp only [childrenUnder, children, List.map_append, map_paramTypesUnder]
    simp only [List.map_cons, List.map_nil, atDepth, length_enteringParams]
  | lambda ps b =>
    simp only [childrenUnder, children, List.map_append, map_paramTypesUnder]
    simp only [List.map_cons, List.map_nil, atDepth, length_enteringParams]
  | apply f as => simp [childrenUnder, children, atDepth]
  | caseOf p s bs =>
    simp only [childrenUnder, children, List.map_cons, List.map_map, List.mem_cons]
    rw [or_left_comm]
    simp [atDepth, length_entering, Function.comp_def]
  | fix i b =>
    simp only [childrenUnder, children, List.map_flatMap, List.map_append, map_paramTypesUnder,
      List.map_cons, List.map_nil, atDepth, length_entering, List.length_map, Bundle.size,
      FixFunction.arity]
  | _ => rfl

theorem children_subset (t : Term) (Γ : List Binder) :
    t.children Γ.length ⊆ (t.childrenUnder Γ).map atDepth :=
  fun _ hc => mem_childrenUnder_iff.2 hc

end ChildrenUnder

namespace Leg
variable {K : Bundles} {Γ Δ Θ : List Binder} {cs cs' : List (Term × List Binder)} {a b : Leg}

/-- What is below the bundles that have been met was offered before. -/
def Reached (K : Bundles) (met : List (Nat × Nat)) (before : List (Term × Nat)) : Prop :=
  ∀ c, K.Known c → ∀ i l d, c.label = some l → (l, d) ∈ met → (Term.fix i c).children d ⊆ before

theorem Reached.mono {met : List (Nat × Nat)} {before before' : List (Term × Nat)}
    (h : Reached K met before) (hsub : before ⊆ before') : Reached K met before' :=
  fun c hc i l d hl hmem => List.Subset.trans (h c hc i l d hl hmem) hsub

/-- A leg leads from some open binders to others. Nodes are offered after their children. Only nodes
that occur in the terms listed are offered, and when it is done all those listed have been. -/
structure Orderly (K : Bundles) (Γ : List Binder) (cs : List (Term × List Binder)) (Δ : List Binder)
    (a : Leg) : Prop where
  opens (met : List (Nat × Nat)) : Stop.Opens Γ (a met).1 Δ
  within {met : List (Nat × Nat)} {n : Term} {Θ : List Binder} :
    .offer n Θ ∈ (a met).1 → ∃ c ∈ cs, Term.Occurs c.1 c.2 n Θ
  childrenFirst {met : List (Nat × Nat)} {before : List (Term × Nat)} :
    Reached K met before → Stop.ChildrenFirst before (a met).1
  reached {met : List (Nat × Nat)} {before : List (Term × Nat)} : Reached K met before →
    Reached K (a met).2 ((a met).1.filterMap Stop.offered? ++ before)
  offers {met : List (Nat × Nat)} {before : List (Term × Nat)} : Reached K met before →
    cs.map atDepth ⊆ (a met).1.filterMap Stop.offered? ++ before

namespace Orderly

theorem andThen (ha : Orderly K Γ cs Δ a) (hb : Orderly K Δ cs' Θ b) :
    Orderly K Γ (cs ++ cs') Θ (a.andThen b) where
  opens met := (ha.opens met).append (hb.opens _)
  within hmem := by
    rcases List.mem_append.1 hmem with hmem | hmem
    · obtain ⟨c, hc, hoccurs⟩ := ha.within hmem
      exact ⟨c, List.mem_append_left _ hc, hoccurs⟩
    · obtain ⟨c, hc, hoccurs⟩ := hb.within hmem
      exact ⟨c, List.mem_append_right _ hc, hoccurs⟩
  childrenFirst h := (ha.childrenFirst h).append (hb.childrenFirst (ha.reached h))
  reached h := by
    have hreached := hb.reached (ha.reached h)
    refine hreached.mono ?_
    simp only [Leg.andThen, List.filterMap_append]
    grind
  offers h := by
    have hfirst := ha.offers h
    have hsecond := hb.offers (ha.reached h)
    simp only [Leg.andThen, List.filterMap_append, List.map_append]
    grind

theorem of_silent {stops : List Stop} (hopens : Stop.Opens Γ stops Δ)
    (hsilent : ∀ s ∈ stops, s.offered? = none) : Orderly K Γ [] Δ (.of stops) where
  opens _ := hopens
  within hmem := nomatch hsilent _ hmem
  childrenFirst {_ before} _ := by
    change Stop.ChildrenFirst before stops
    clear hopens
    induction stops with
    | nil => trivial
    | cons s stops ih =>
      rw [List.forall_mem_cons] at hsilent
      cases s with
      | enter b => exact ih hsilent.2
      | leave => exact ih hsilent.2
      | offer t Γ => cases hsilent.1
  reached h := h.mono (List.subset_append_right _ _)
  offers _ := List.nil_subset _

theorem stay (Γ : List Binder) : Orderly K Γ [] Γ (.of []) := of_silent .nil (by simp)

theorem enter (bs Γ : List Binder) : Orderly K Γ [] (entering bs Γ) (.enter bs) :=
  of_silent (Stop.opens_enter bs Γ) (by simp [Stop.offered?])

theorem leave (bs Γ : List Binder) : Orderly K (entering bs Γ) [] Γ (.leave bs.length) :=
  of_silent (Stop.opens_leave bs Γ) (by simp [Stop.offered?])

theorem offer {t : Term} (ha : Orderly K Γ (t.childrenUnder Γ) Γ a) :
    Orderly K Γ [(t, Γ)] Γ (a.andThen (.offer t Γ)) where
  opens met := (ha.opens met).append (.offer .nil)
  within hmem := by
    refine ⟨(t, Γ), List.mem_singleton_self _, ?_⟩
    rcases List.mem_append.1 hmem with hmem | hmem
    · obtain ⟨c, hc, hoccurs⟩ := ha.within hmem
      exact .inner hc hoccurs
    · cases List.mem_singleton.1 hmem
      exact .self
  childrenFirst h := (ha.childrenFirst h).append
    ⟨fun _ hc => ha.offers h (children_subset t Γ hc), trivial⟩
  reached h := by
    refine (ha.reached h).mono ?_
    simp only [Leg.andThen, List.filterMap_append]
    grind
  offers _ := by
    simp [Leg.andThen, Leg.offer, Leg.of, Stop.offered?, atDepth]

/-- A bundle that is passed over was met before at this depth, and so was all that is below it. -/
theorem bundle {b : Bundle Term} {i : Nat} (remembers : Bool) (hb : K.Known b)
    (ha : Orderly K Γ ((Term.fix i b).childrenUnder Γ) Γ a) :
    Orderly K Γ ((Term.fix i b).childrenUnder Γ) Γ
      (a.bundle remembers b.label Γ.length) := by
  cases remembers with
  | false => exact ha
  | true =>
    cases hl : b.label with
    | none => exact ha
    | some l =>
      have hcases : ∀ met, (Leg.bundle true (some l) Γ.length a) met =
          if (l, Γ.length) ∈ met then ([], met)
          else ((a met).1, (l, Γ.length) :: (a met).2) := fun _ => rfl
      refine ⟨fun met => ?_, fun {met n Θ} => ?_, fun {met before} h => ?_,
        fun {met before} h => ?_, fun {met before} h => ?_⟩ <;> rw [hcases] <;> split
      · exact .nil
      · exact ha.opens met
      · exact fun hmem => nomatch hmem
      · exact ha.within
      · trivial
      · exact ha.childrenFirst h
      · exact h
      · intro c hc j l' d hl' hmem
        rcases List.mem_cons.1 hmem with heq | hmem
        · obtain ⟨rfl, rfl⟩ := Prod.mk.inj heq
          obtain rfl := K.unique hb hc hl hl'
          exact List.Subset.trans (children_subset (.fix j b) Γ) (ha.offers h)
        · exact ha.reached h c hc j l' d hl' hmem
      · next hmem => exact fun _ hc => h b hb i l _ hl hmem (mem_childrenUnder_iff.1 hc)
      · exact ha.offers h

end Orderly
end Leg

section Itinerary
open Leg Term
variable {K : Bundles} {remembers : Bool}

theorem Leg.Orderly.leaveParams (ps : List (Param Term)) (Γ : List Binder) :
    Orderly K (entering (ps.map paramBinder) Γ) [] Γ (.leave ps.length) := by
  have hleave := Orderly.leave (K := K) (ps.map paramBinder) Γ
  rwa [List.length_map] at hleave

mutual
/-- The way through a term leaves what it enters and offers every node after its children. -/
theorem orderly_itinerary : ∀ (t : Term) (Γ : List Binder),
    (∀ u ∈ t.nodes Γ.length, K.KnownNode u.1) → Orderly K Γ [(t, Γ)] Γ (t.itinerary remembers Γ)
  | .var x i, Γ, _ => Orderly.offer (t := .var x i) (.stay Γ)
  | .global x, Γ, _ => Orderly.offer (t := .global x) (.stay Γ)
  | .univ u, Γ, _ => Orderly.offer (t := .univ u) (.stay Γ)
  | .product ps r, Γ, h => by
    simp only [nodes, List.forall_mem_cons, List.forall_mem_append] at h
    rw [← length_enteringParams] at h
    have hchildren := ((orderly_itineraryOfParams ps Γ h.2.1).andThen
      (orderly_itinerary r _ h.2.2)).andThen (.leaveParams ps Γ)
    rw [List.append_nil] at hchildren
    exact hchildren.offer
  | .lambda ps b, Γ, h => by
    simp only [nodes, List.forall_mem_cons, List.forall_mem_append] at h
    rw [← length_enteringParams] at h
    have hchildren := ((orderly_itineraryOfParams ps Γ h.2.1).andThen
      (orderly_itinerary b _ h.2.2)).andThen (.leaveParams ps Γ)
    rw [List.append_nil] at hchildren
    exact hchildren.offer
  | .letIn x v t b, Γ, h => by
    simp only [nodes, List.forall_mem_cons, List.forall_mem_append] at h
    exact ((((orderly_itinerary v Γ h.2.1).andThen
      (orderly_itinerary t Γ h.2.2.1)).andThen (.enter [⟨x, some t⟩] Γ)).andThen
        (orderly_itinerary b (⟨x, some t⟩ :: Γ) h.2.2.2)).andThen
          (.leave [⟨x, some t⟩] Γ) |>.offer
  | .apply f ⟨a, as⟩, Γ, h => by
    simp only [nodes, List.forall_mem_cons, List.forall_mem_append] at h
    exact (((orderly_itinerary f Γ h.2.1).andThen (orderly_itinerary a Γ h.2.2.1)).andThen
      (orderly_itineraryOfTerms as Γ h.2.2.2)).offer
  | .cast t k ty, Γ, h => by
    simp only [nodes, List.forall_mem_cons, List.forall_mem_append] at h
    exact ((orderly_itinerary t Γ h.2.1).andThen (orderly_itinerary ty Γ h.2.2)).offer
  | .caseOf p s bs, Γ, h => by
    simp only [nodes, List.forall_mem_cons, List.forall_mem_append] at h
    exact ((((orderly_itinerary s Γ h.2.2.1).andThen
      (.enter [plainBinder] Γ)).andThen
        (orderly_itinerary p (plainBinder :: Γ) h.2.1)).andThen
          (.leave [plainBinder] Γ)).andThen (orderly_itineraryOfBranches bs Γ h.2.2.2) |>.offer
  | .fix i ⟨l, fs⟩, Γ, h => by
    have hlength : (entering (fs.map functionBinder) Γ).length = Γ.length + fs.length := by
      rw [length_entering, List.length_map]
    have hleave := Orderly.leave (K := K) (fs.map functionBinder) Γ
    simp only [nodes, List.forall_mem_cons] at h
    rw [← hlength] at h
    rw [List.length_map] at hleave
    have hfunctions := ((Orderly.enter (fs.map functionBinder) Γ).andThen
      (orderly_itineraryOfFunctions fs _ h.2)).andThen hleave
    rw [List.nil_append, List.append_nil] at hfunctions
    have hbundle := hfunctions.bundle (b := ⟨l, fs⟩) (i := i) remembers (h.1 i _ rfl)
    exact hbundle.offer
termination_by structural t => t

theorem orderly_itineraryOfParams : ∀ (ps : List (Param Term)) (Γ : List Binder),
    (∀ u ∈ nodesOfParams ps Γ.length, K.KnownNode u.1) →
        Orderly K Γ (paramTypesUnder ps Γ) (entering (ps.map paramBinder) Γ)
          (itineraryOfParams remembers ps Γ)
  | [], Γ, _ => .stay Γ
  | ⟨x, t⟩ :: ps, Γ, h => by
    simp only [nodesOfParams, List.forall_mem_append] at h
    rw [List.map_cons, entering_cons]
    exact ((orderly_itinerary t Γ h.1).andThen (.enter [⟨x, some t⟩] Γ)).andThen
      (orderly_itineraryOfParams ps (⟨x, some t⟩ :: Γ) h.2)
termination_by structural ps => ps

theorem orderly_itineraryOfTerms : ∀ (ts : List Term) (Γ : List Binder),
    (∀ u ∈ nodesOfTerms ts Γ.length, K.KnownNode u.1) →
        Orderly K Γ (ts.map (·, Γ)) Γ (itineraryOfTerms remembers ts Γ)
  | [], Γ, _ => .stay Γ
  | t :: ts, Γ, h => by
    simp only [nodesOfTerms, List.forall_mem_append] at h
    exact (orderly_itinerary t Γ h.1).andThen (orderly_itineraryOfTerms ts Γ h.2)
termination_by structural ts => ts

theorem orderly_itineraryOfBranches : ∀ (bs : List (Branch Term)) (Γ : List Binder),
    (∀ u ∈ nodesOfBranches bs Γ.length, K.KnownNode u.1) →
        Orderly K Γ
          (bs.map fun b => (b.body, entering (List.replicate b.arity plainBinder) Γ)) Γ
            (itineraryOfBranches remembers bs Γ)
  | [], Γ, _ => .stay Γ
  | ⟨x, n, t⟩ :: bs, Γ, h => by
    have hlength : (entering (List.replicate n plainBinder) Γ).length = Γ.length + n := by
      rw [length_entering, List.length_replicate]
    have hleave := Orderly.leave (K := K) (List.replicate n plainBinder) Γ
    simp only [nodesOfBranches, List.forall_mem_append] at h
    rw [← hlength] at h
    rw [List.length_replicate] at hleave
    have hbody := ((Orderly.enter (List.replicate n plainBinder) Γ).andThen
      (orderly_itinerary t _ h.1)).andThen hleave
    exact hbody.andThen (orderly_itineraryOfBranches bs Γ h.2)
termination_by structural bs => bs

theorem orderly_itineraryOfFunctions : ∀ (fs : List (FixFunction Term)) (Γ : List Binder),
    (∀ u ∈ nodesOfFunctions fs Γ.length, K.KnownNode u.1) →
        Orderly K Γ (fs.flatMap fun f => paramTypesUnder f.params Γ ++
          [(f.result, entering (f.params.map paramBinder) Γ),
            (f.body, entering (f.params.map paramBinder) Γ)]) Γ
              (itineraryOfFunctions remembers fs Γ)
  | [], Γ, _ => .stay Γ
  | ⟨x, ps, r, b⟩ :: fs, Γ, h => by
    simp only [nodesOfFunctions, List.forall_mem_append] at h
    rw [← length_enteringParams] at h
    obtain ⟨⟨hps, hr, hb⟩, hfs⟩ := h
    have hfunction := (((orderly_itineraryOfParams ps Γ hps).andThen
      (orderly_itinerary r _ hr)).andThen (orderly_itinerary b _ hb)).andThen (.leaveParams ps Γ)
    rw [List.append_nil, List.append_assoc] at hfunction
    exact hfunction.andThen (orderly_itineraryOfFunctions fs Γ hfs)
termination_by structural fs => fs
end

end Itinerary

end InductiveTerms
